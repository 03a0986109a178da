import StudyLinuxKernel.Chatroom.Bounds
import StudyLinuxKernel.Chatroom.Registration

namespace StudyLinuxKernel.Chatroom.RegistrationRuns

open StudyLinuxKernel.Chatroom.Bounds
open StudyLinuxKernel.Chatroom.Broadcast
open StudyLinuxKernel.Chatroom.Registration
open StudyLinuxKernel.Chatroom.Server
open StudyLinuxKernel.Hashtable.Iteration hiding Action
open StudyLinuxKernel.Hashtable.Refinement
open StudyLinuxKernel.Hashtable.Table
open StudyLinuxKernel.Libc.Inet
open StudyLinuxKernel.Libc.Text
open StudyLinuxKernel.Library.CheckedRun
open StudyLinuxKernel.Library.PartialStep

/-- The calls of a registration succeed. -/
def Registering (s : ChatServer) : Event → Prop
  | .datagram _ _ answers => Registers s answers
  | _ => True

/-- The promises of the registration. -/
structure Registered (s : ChatServer) : Prop where
  bounded : s.numClients ≤ MAX_CLIENTS
  count : s.sockets.length = s.numClients
  first : s.sockets.map Socket.peer = (distinct (senders s)).take MAX_CLIENTS
  once : (s.sockets.map Socket.peer).Nodup
  table : ∃ entries, Layout s.table entries ∧
    ((entriesFrom entries 0).map fun e => (e.key.chars, e.value)).Perm
      (s.sockets.map fun socket => (addressText socket.peer, fdValue socket.fd))
  array : s.clientFds.toList.take s.numClients = s.sockets.map Socket.fd
  fds : (s.sockets.map Socket.fd).Nodup
  inside : ∀ source bytes answers, Succeeds s answers → bytes.length < MAX_MSG_LEN →
    ∃ s', serve s (.datagram source (some bytes) answers) = .ok s'

/-- What the promises rest on. -/
structure Kept (s : ChatServer) : Prop where
  sound : Sound (senders s) s
  bounded : Bounded s

def Process.Kept (p : Process ChatServer) : Prop := ∀ s, p = .running s → RegistrationRuns.Kept s

section Persists

theorem persists_receiveInto (msg bytes : Bytes) : Persists (receiveInto msg (some bytes)) :=
  (persists_access _).bind fun _ => (persists_access _).bind fun _ => persists_ok _

theorem persists_register {s : ChatServer} {answers : Answers} (h : Registers s answers)
    (source : SockaddrIn) : Persists (register s source answers) := by
  have hsock : answers.sock ≠ -1 := by
    intro hfailed
    have hpositive := h.positive
    rw [hfailed] at hpositive
    exact absurd hpositive (by decide)
  refine (persists_access _).bind fun clientAddrIp => ?_
  split
  · refine Persists.bind ?_ fun key => (persists_access _).bind fun value => ?_
    · rw [readKey]
      split
      · exact persists_ok _
      · exact fun hexited => by cases hexited
    · split
      · refine (persists_access _).bind fun table =>
          (persists_succeeds (decide_eq_true hsock)).bind fun _ => ?_
        refine (persists_access _).bind fun clientFds => (persists_access _).bind fun _ => ?_
        exact (persists_succeeds h.connected).bind fun _ => persists_ok _
      · exact persists_ok s
  · exact persists_ok s

theorem persists_strncatInto (dest src : Bytes) (n : Nat) : Persists (strncatInto dest src n) := by
  rw [strncatInto]
  split
  · exact persists_access _
  · exact fun hexited => by cases hexited

theorem persists_compose (ip msg : Bytes) (len : Nat) : Persists (compose ip msg len) :=
  (persists_access _).bind fun _ => (persists_strncatInto _ _ _).bind fun _ =>
    persists_strncatInto _ _ _

theorem persists_decodeClientIp (clientIp : Bytes) : Persists (decodeClientIp clientIp) :=
  (persists_access _).bind fun _ => (persists_access _).bind fun _ =>
    (persists_access _).bind fun _ => (persists_access _).bind fun _ =>
      (persists_access _).bind fun _ => persists_ok _

theorem persists_sendLoop (table : HashTable) (message : Bytes) {sent : Nat → Bool}
    (hsent : ∀ n, sent n = true) (fuel : Nat) :
    ∀ iter sendings, Persists (sendLoop table message sent fuel iter sendings) := by
  induction fuel with
  | zero => exact fun _ _ hexited => by cases hexited
  | succ fuel ih =>
      intro iter sendings
      rw [sendLoop]
      split
      · exact persists_ok sendings
      · refine (persists_access _).bind fun pair => (persists_access _).bind fun clientIp => ?_
        refine (persists_decodeClientIp clientIp).bind fun dest => ?_
        refine (persists_access _).bind fun text => (persists_succeeds (hsent _)).bind fun _ => ?_
        exact (persists_access _).bind fun iter' => ih iter' _

theorem persists_datagram {s : ChatServer} {answers : Answers} (h : Succeeds s answers)
    (source : SockaddrIn) (bytes : Bytes) :
    Persists (serve s (.datagram source (some bytes) answers)) := by
  refine (persists_receiveInto s.msg bytes).bind fun result => ?_
  have hregisters : Registers { s with msg := result.1 } answers :=
    ⟨h.allocated, h.positive, h.fresh, h.connected⟩
  refine (persists_register hregisters source).bind fun s' => ?_
  refine (persists_compose _ _ _).bind fun message => ?_
  refine ((persists_access _).bind fun iter => ?_).bind fun sendings => persists_ok _
  exact persists_sendLoop _ _ h.sent _ iter []

end Persists

theorem Kept.datagram {s : ChatServer} (h : Kept s) (source : SockaddrIn) {bytes : Bytes}
    (hlength : bytes.length < MAX_MSG_LEN) {answers : Answers} (hanswers : Succeeds s answers) :
    ∃ s' sendings, serve s (.datagram source (some bytes) answers) = .ok s' ∧ Kept s' ∧
      s'.log = s.log ++ [{ source, datagram := bytes, sendings }] ∧
      s.sockets <+: s'.sockets ∧
      sendings.Perm (s'.sockets.map (sendingTo (broadcastText source bytes))) := by
  have hsafe := datagram_safe h.bounded source answers fun other (hother : some bytes = _) => by
    obtain rfl := Option.some.inj hother
    exact hlength
  obtain ⟨s', hserve, hbounded, other, hother, hstep⟩ :=
    hsafe.result (persists_datagram hanswers source bytes)
  obtain rfl := Option.some.inj hother
  obtain ⟨t, sendings, hstep', hsound, hrest⟩ := h.sound.datagram source hlength hanswers
  obtain rfl := Option.some.inj (hstep.symm.trans hstep')
  exact ⟨s', sendings, hserve, ⟨hsound, hbounded⟩, hrest⟩

theorem Kept.datagram_done {s s' : ChatServer} (h : Kept s) {source : SockaddrIn}
    {received : Option Bytes} {answers : Answers} (hanswers : Registers s answers)
    (hserve : serve s (.datagram source received answers) = .ok s') :
    ∃ bytes sendings, received = some bytes ∧ Kept s' ∧
      s'.log = s.log ++ [{ source, datagram := bytes, sendings }] ∧
      s.sockets <+: s'.sockets ∧
      sendings.Perm (s'.sockets.map (sendingTo (broadcastText source bytes))) := by
  have hroom : LeavesRoom s (.datagram source received answers) :=
    leavesRoom_of_not_fault h.bounded fun hfault => by
      rw [hserve] at hfault
      cases hfault
  have hsafe := datagram_safe h.bounded source answers hroom
  rw [hserve] at hsafe
  obtain ⟨hbounded, bytes, hreceived, hstep⟩ := hsafe.of_ok
  obtain ⟨sendings, hsound, hrest⟩ := h.sound.datagram_done hanswers hstep
  exact ⟨bytes, sendings, hreceived, ⟨hsound, hbounded⟩, hrest⟩

theorem serve_frame {s s' : ChatServer} {event : Event}
    (hevent : ∀ source received answers, event ≠ .datagram source received answers)
    (hserve : serve s event = .ok s') : ∃ msg, s' = { s with msg := msg } := by
  cases event with
  | select =>
      rw [serve] at hserve
      obtain ⟨_, _, hsame⟩ := bind_eq_ok hserve
      obtain rfl := Except.ok.inj hsame
      exact ⟨s.msg, rfl⟩
  | datagram source received answers => exact absurd rfl (hevent source received answers)
  | receipt i received =>
      rw [serve] at hserve
      split at hserve
      · obtain ⟨_, _, hloaded⟩ := bind_eq_ok hserve
        obtain ⟨result, _, hreceived⟩ := bind_eq_ok hloaded
        obtain ⟨_, _, hsame⟩ := bind_eq_ok hreceived
        obtain rfl := Except.ok.inj hsame
        exact ⟨result.1, rfl⟩
      · obtain rfl := Except.ok.inj hserve
        exact ⟨s.msg, rfl⟩

theorem Kept.serve {s s' : ChatServer} {event : Event} (h : Kept s)
    (hregistering : Registering s event) (hserve : serve s event = .ok s') : Kept s' := by
  cases event with
  | datagram source received answers =>
      obtain ⟨_, _, _, hkept, _⟩ := h.datagram_done hregistering hserve
      exact hkept
  | select | receipt _ _ =>
      have hroom := leavesRoom_of_not_fault h.bounded fun hfault => by
        rw [hserve] at hfault
        cases hfault
      have hbounded := serve_safe h.bounded hroom
      rw [hserve] at hbounded
      obtain ⟨msg, rfl⟩ := serve_frame (fun _ _ _ hsame => by cases hsame) hserve
      exact ⟨⟨h.sound.puts, h.sound.count, h.sound.first, h.sound.array, h.sound.fds,
        h.sound.positive⟩, hbounded.of_ok⟩

theorem kept_start (memory : HashTable) (msg : MsgArray) : Kept (.start memory msg.bytes) :=
  ⟨sound_start memory msg.bytes, bounded_start memory msg⟩

theorem kept_of_run {s : ChatServer} (hs : Kept s) {events : List Event}
    (h : EveryStep (processStep serve) (WhileRunning Registering) (.running s) events) :
    EveryState (processStep serve) Process.Kept (.running s) events := by
  refine invariant_of_everyStep ?_ ?_ h
  · rintro _ ⟨⟩
    exact hs
  · rintro (s | _ | _) event p' hp hregistering hstep t rfl
    · rw [processStep] at hstep
      rcases hserve : serve s event with (_ | _) | s'
      · rw [hserve] at hstep
        cases hstep
      · rw [hserve] at hstep
        cases hstep
      · rw [hserve] at hstep
        cases hstep
        exact (hp s rfl).serve hregistering hserve
    · cases hstep
    · cases hstep

theorem Kept.registered {s : ChatServer} (h : Kept s) : Registered s := by
  rcases h.sound.puts with ⟨entries, puts, hrep, hpairs⟩
  refine ⟨h.sound.bounded, h.sound.count, h.sound.first, h.sound.once, ⟨entries, hrep.layout, ?_⟩,
    h.sound.array, h.sound.fds, fun source bytes answers hanswers hlength => ?_⟩
  · have hperm := pairs_perm hrep (nodup_keys hpairs h.sound.once)
    rw [hpairs] at hperm
    have htexts := hperm.map fun pair => (pair.1.chars, pair.2)
    rw [List.map_map, List.map_map] at htexts
    have hpair : (fun pair : Key × Value => (pair.1.chars, pair.2)) ∘ pairOf =
        fun socket => (addressText socket.peer, fdValue socket.fd) := by
      funext socket
      change ((addressKey socket.peer).chars, _) = _
      rw [chars_addressKey]
      rfl
    rw [hpair] at htexts
    exact htexts
  · obtain ⟨s', _, hserve, _⟩ := h.datagram source hlength hanswers
    exact ⟨s', hserve⟩

/-- The registrations are kept in all of a run exactly if nothing that is received
fills `msg`. -/
theorem registrations_kept_iff (memory : HashTable) (msg : MsgArray) (events : List Event)
    (h : EveryStep (processStep serve) (WhileRunning Registering)
      (.running (.start memory msg.bytes)) events) :
    EveryState (processStep serve) (Process.Holds Registered)
        (.running (.start memory msg.bytes)) events ↔
      EveryStep (processStep serve) (WhileRunning LeavesRoom)
        (.running (.start memory msg.bytes)) events := by
  rw [← serverInBounds_iff]
  constructor
  · intro hholds visited hvisited p hrun
    have hp := hholds visited hvisited p hrun
    rcases p with s | _ | _
    · exact trivial
    · exact trivial
    · exact hp
  · intro hbounds visited hvisited p hrun
    have hp := hbounds visited hvisited p hrun
    have hkept := kept_of_run (kept_start memory msg) h visited hvisited p hrun
    rcases p with s | _ | _
    · exact (hkept s rfl).registered
    · exact trivial
    · exact hp

def blankArray : MsgArray where
  bytes := List.replicate MAX_MSG_LEN 0
  length_bytes := List.length_replicate

theorem registering_first (bytes : Bytes) :
    EveryStep (processStep serve) (WhileRunning Registering)
      (.running (.start cleanMemory blankArray.bytes))
      [.datagram firstClient (some bytes) firstCalls] := by
  rw [everyStep_cons]
  exact fun _ _ => ⟨(succeeds_firstCalls cleanMemory _).toRegisters, everyStep_nil _ _⟩

theorem registrations_kept_first : EveryState (processStep serve) (Process.Holds Registered)
    (.running (.start cleanMemory blankArray.bytes))
    [.datagram firstClient (some (literal "hello")) firstCalls] := by
  refine (registrations_kept_iff cleanMemory blankArray _ (registering_first _)).mpr ?_
  rw [everyStep_cons]
  refine fun _ _ => ⟨fun bytes hbytes => ?_, everyStep_nil _ _⟩
  obtain rfl := Option.some.inj hbytes
  decide

/-- A first datagram that fills the array. -/
theorem registrations_not_kept_full :
    EveryStep (processStep serve) (WhileRunning Registering)
        (.running (.start cleanMemory blankArray.bytes))
        [.datagram firstClient (some (List.replicate 1024 97)) firstCalls] ∧
      ¬ EveryState (processStep serve) (Process.Holds Registered)
        (.running (.start cleanMemory blankArray.bytes))
        [.datagram firstClient (some (List.replicate 1024 97)) firstCalls] := by
  refine ⟨registering_first _, fun h => ?_⟩
  have hfull := @receiveInto_of_full blankArray.bytes (List.replicate 1024 97)
    blankArray.length_bytes List.length_replicate.ge
  refine @EveryState.reached _ _ _ _ _ Process.faulted _ h ?_
  rw [run_cons, processStep_of_fault]
  · rfl
  · change receiveInto blankArray.bytes _ >>= _ = _
    rw [hfull, error_bind]

end StudyLinuxKernel.Chatroom.RegistrationRuns
