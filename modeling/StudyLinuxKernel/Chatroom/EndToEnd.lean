import StudyLinuxKernel.Chatroom.Client
import StudyLinuxKernel.Chatroom.RegistrationRuns

namespace StudyLinuxKernel.Chatroom.EndToEnd

open StudyLinuxKernel.Chatroom.Bounds
open StudyLinuxKernel.Chatroom.Broadcast
open StudyLinuxKernel.Chatroom.Client
open StudyLinuxKernel.Chatroom.Registration
open StudyLinuxKernel.Chatroom.RegistrationRuns
open StudyLinuxKernel.Chatroom.Server
open StudyLinuxKernel.Hashtable.Table
open StudyLinuxKernel.Libc.Inet
open StudyLinuxKernel.Libc.Text
open StudyLinuxKernel.Library.CheckedRun
open StudyLinuxKernel.Library.PartialStep

/-- What stands in front of the messages of a sender. -/
def mark (sender : SockaddrIn) : Bytes := inetNtoa sender.sinAddr ++ literal "> "

/-- The messages that a client gets on account of the datagrams of a sender. -/
def heard (sender receiver : SockaddrIn) (rounds : List Round) : List Bytes :=
  (rounds.filter (·.source = sender)).flatMap fun round =>
    (round.sendings.filter (·.dest = receiver)).map Sending.message

/-- What a client prints of messages without their marks, where `memories` is what
its array held before each of them; there is no result if one of them fills it. -/
def shown (sender : SockaddrIn) : (Nat → Bytes) → List Bytes → Option Bytes
  | _, [] => some []
  | memories, message :: messages => do
      let text ← printed (memories 0) message
      let rest ← shown sender (fun i => memories (i + 1)) messages
      some (text.drop (mark sender).length ++ rest)

def received : Event → Option (SockaddrIn × Bytes)
  | .datagram source bytes _ => bytes.map fun bytes => (source, bytes)
  | _ => none

def datagramsFrom (sender : SockaddrIn) (events : List Event) : List Bytes :=
  ((events.filterMap received).filter (·.1 = sender)).map Prod.snd

/-- Two clients are registered when the server comes to the state `s`, and from
there on the datagrams of the sender are those of the line and no call fails. -/
structure Conversation (sender receiver : SockaddrIn) (line : Line) (memory : HashTable)
    (msg : MsgArray) (before after : List Event) (s : ChatServer) : Prop where
  registering : EveryStep (processStep serve) (WhileRunning Registering)
    (.running (.start memory msg.bytes)) (before ++ after)
  reached : run (processStep serve) (.running (.start memory msg.bytes)) before =
    some (.running s)
  registeredSender : sender ∈ s.sockets.map Socket.peer
  registeredReceiver : receiver ∈ s.sockets.map Socket.peer
  sent : datagramsFrom sender after = line.datagrams
  persists : run (processStep serve) (.running s) after ≠ some .exited

/-- The server comes through, and the receiver prints the line. -/
def Conveyed (sender receiver : SockaddrIn) (line : Line) (s : ChatServer)
    (after : List Event) : Prop :=
  ∃ s', run (processStep serve) (.running s) after = some (.running s') ∧
    ∀ memories, shown sender memories
      (heard sender receiver (s'.log.drop s.log.length)) = some line.chars

/-- A round in which all of `sockets` were registered. -/
def Passed (sockets : List Socket) (round : Round) : Prop :=
  ∃ sockets', sockets <+: sockets' ∧ (sockets'.map Socket.peer).Nodup ∧
    round.sendings.Perm (sockets'.map (sendingTo (broadcastText round.source round.datagram)))

/-- What has happened since the state `s`. -/
structure Since (s : ChatServer) (events : List Event) (s' : ChatServer) : Prop where
  kept : Kept s'
  sockets : s.sockets <+: s'.sockets
  rounds : ∃ rounds, s'.log = s.log ++ rounds ∧
    rounds.map (fun round => (round.source, round.datagram)) = events.filterMap received ∧
    ∀ round ∈ rounds, Passed s.sockets round

theorem Since.serve {s s' s'' : ChatServer} {events : List Event} {event : Event}
    (h : Since s events s') (hregistering : Registering s' event)
    (hserve : serve s' event = .ok s'') : Since s (events ++ [event]) s'' := by
  rcases h.rounds with ⟨rounds, hlog, hreceived, hrounds⟩
  cases event with
  | datagram source bytes answers =>
      obtain ⟨bytes, sendings, rfl, hkept, hlog', hsockets, hsendings⟩ :=
        h.kept.datagram_done hregistering hserve
      refine ⟨hkept, h.sockets.trans hsockets,
        ⟨rounds ++ [{ source, datagram := bytes, sendings }], ?_, ?_, fun round hround => ?_⟩⟩
      · rw [hlog', hlog, List.append_assoc]
      · rw [List.map_append, hreceived, List.filterMap_append]
        rfl
      · rcases List.mem_append.mp hround with hround | hround
        · exact hrounds round hround
        · rw [List.mem_singleton.mp hround]
          exact ⟨_, h.sockets.trans hsockets, hkept.sound.once, hsendings⟩
  | select | receipt _ _ =>
      have hkept := h.kept.serve hregistering hserve
      obtain ⟨msg, rfl⟩ := serve_frame (fun _ _ _ hsame => by cases hsame) hserve
      refine ⟨hkept, h.sockets, ⟨rounds, hlog, ?_, hrounds⟩⟩
      rw [hreceived, List.filterMap_append]
      exact (List.append_nil _).symm

theorem since_of_run {s s' : ChatServer} {later : List Event} :
    ∀ {events t}, Since s events t →
      EveryStep (processStep serve) (WhileRunning Registering) (.running t) later →
      run (processStep serve) (.running t) later = some (.running s') →
      Since s (events ++ later) s' ∧
        EveryStep (processStep serve) (WhileRunning LeavesRoom) (.running t) later := by
  induction later with
  | nil =>
      intro events t h _ hrun
      obtain rfl := Process.running.inj (Option.some.inj hrun)
      rw [List.append_nil]
      exact ⟨h, everyStep_nil _ _⟩
  | cons event later ih =>
      intro events t h hregistering hrun
      obtain ⟨u, hserve, hrest⟩ := run_cons_running hrun
      have hstep : processStep serve (.running t) event = some (.running u) := by
        rw [processStep, hserve]
      obtain ⟨hfirst, hlater⟩ := everyStep_cons.mp hregistering _ hstep
      obtain ⟨hsince, hroom⟩ := ih (h.serve hfirst hserve) hlater hrest
      rw [List.append_assoc] at hsince
      refine ⟨hsince, EveryStep.cons hstep (leavesRoom_of_not_fault h.kept.bounded ?_) hroom⟩
      rw [hserve]
      exact fun hfault => by cases hfault

theorem messages_of_passed {sockets : List Socket} {round : Round} (h : Passed sockets round)
    {receiver : SockaddrIn} (hreceiver : receiver ∈ sockets.map Socket.peer) :
    (round.sendings.filter (·.dest = receiver)).map Sending.message =
      [broadcastText round.source round.datagram] := by
  rcases h with ⟨sockets', hsockets, honce, hperm⟩
  have hmem : receiver ∈ sockets'.map Socket.peer := (hsockets.map Socket.peer).subset hreceiver
  have hcount : (sockets'.filter (·.peer = receiver)).length = 1 := by
    rw [← List.countP_eq_length_filter, ← List.count_eq_one_of_mem honce hmem, List.count,
      List.countP_map]
    apply List.countP_congr
    intro socket _
    simp
  have hmessages := (hperm.filter (·.dest = receiver)).map Sending.message
  rw [List.filter_map, List.map_map] at hmessages
  have hall : (sockets'.filter (·.peer = receiver)).map
      (fun _ => broadcastText round.source round.datagram) =
        [broadcastText round.source round.datagram] := by
    rw [List.map_const', hcount]
    rfl
  exact List.perm_singleton.mp (hall ▸ hmessages)

theorem heard_eq {sockets : List Socket} {rounds : List Round}
    (h : ∀ round ∈ rounds, Passed sockets round) (sender : SockaddrIn) {receiver : SockaddrIn}
    (hreceiver : receiver ∈ sockets.map Socket.peer) :
    heard sender receiver rounds =
      ((rounds.filter (·.source = sender)).map Round.datagram).map (broadcastText sender) := by
  have hmessages : ∀ round ∈ rounds.filter (·.source = sender),
      (round.sendings.filter (·.dest = receiver)).map Sending.message =
        [broadcastText sender round.datagram] := by
    intro round hround
    rcases List.mem_filter.mp hround with ⟨hmem, hsource⟩
    rw [messages_of_passed (h round hmem) hreceiver, of_decide_eq_true hsource]
  rw [heard, List.flatMap_congr hmessages, List.map_map]
  exact List.map_eq_flatMap.symm

theorem broadcastText_datagramOf (sender : SockaddrIn) {text : Bytes} (htext : text ≠ [])
    (hnoNul : 0 ∉ text) (hshort : text.length < MAX_MSG_LEN) :
    broadcastText sender (datagramOf text) = mark sender ++ text.dropLast := by
  have hwhole : (datagramOf text).take MAX_MSG_LEN = datagramOf text :=
    List.take_of_length_le (Nat.le_trans (length_datagramOf_le hnoNul) hshort.le)
  rw [broadcastText, hwhole, cStr_datagramOf htext hnoNul]
  rfl

theorem broadcasts_of_line (sender : SockaddrIn) (line : Line) :
    line.datagrams.map (broadcastText sender) =
      (line.reads.map List.dropLast).map (mark sender ++ ·) := by
  rw [Line.datagrams, List.map_map, List.map_map]
  refine List.map_congr_left fun msg hmsg => ?_
  rcases of_mem_reads hmsg with ⟨hne, hshort⟩
  exact broadcastText_datagramOf sender hne (zero_not_mem_of_mem_reads hmsg) hshort

theorem shown_eq (sender : SockaddrIn) {texts : List Bytes} (htexts : ∀ text ∈ texts, 0 ∉ text) :
    ∀ memories, shown sender memories (texts.map (mark sender ++ ·)) =
      if ∀ text ∈ texts, (mark sender).length + text.length < MAX_MSG_LEN then
        some texts.flatten else none := by
  induction texts with
  | nil => exact fun _ => (if_pos (fun _ hnone => absurd hnone List.not_mem_nil)).symm
  | cons text texts ih =>
      intro memories
      have hnoNul : 0 ∉ mark sender ++ text := by
        rw [List.mem_append]
        rintro (hmem | hmem)
        · rcases List.mem_append.mp hmem with hmem | hmem
          · exact zero_not_mem_inetNtoa _ hmem
          · exact absurd hmem (by decide)
        · exact htexts text List.mem_cons_self hmem
      rw [List.map_cons, shown, printed_of_not_mem _ hnoNul,
        ih fun other hother => htexts other (List.mem_cons_of_mem text hother)]
      simp only [List.forall_mem_cons, List.length_append, List.flatten_cons]
      by_cases hfits : (mark sender).length + text.length < MAX_MSG_LEN
      · by_cases hrest : ∀ other ∈ texts, (mark sender).length + other.length < MAX_MSG_LEN
        · rw [if_pos hfits, if_pos hrest, if_pos ⟨hfits, hrest⟩]
          simp
        · have hnone : ¬ ((mark sender).length + text.length < MAX_MSG_LEN ∧
              ∀ other ∈ texts, (mark sender).length + other.length < MAX_MSG_LEN) :=
            fun h => hrest h.2
          rw [if_pos hfits, if_neg hrest, if_neg hnone]
          rfl
      · have hnone : ¬ ((mark sender).length + text.length < MAX_MSG_LEN ∧
            ∀ other ∈ texts, (mark sender).length + other.length < MAX_MSG_LEN) :=
          fun h => hfits h.1
        rw [if_neg hfits, if_neg hnone]
        rfl

theorem zero_not_mem_part {line : Line} {part : Bytes}
    (h : part ∈ line.reads.map List.dropLast) : 0 ∉ part := by
  rcases List.mem_map.mp h with ⟨msg, hmsg, rfl⟩
  exact fun hzero => zero_not_mem_of_mem_reads hmsg (List.mem_of_mem_dropLast hzero)

theorem length_flatten_dropLast {msgs : List Bytes} (h : ∀ msg ∈ msgs, msg ≠ []) :
    (msgs.map List.dropLast).flatten.length + msgs.length = msgs.flatten.length := by
  induction msgs with
  | nil => rfl
  | cons msg msgs ih =>
      have hrest := ih fun other hother => h other (List.mem_cons_of_mem msg hother)
      have hpos := List.length_pos_iff.mpr (h msg List.mem_cons_self)
      rw [List.map_cons, List.flatten_cons, List.flatten_cons, List.length_append,
        List.length_append, List.length_cons, List.length_dropLast]
      omega

theorem length_mark (sender : SockaddrIn) :
    2 ≤ (mark sender).length ∧ (mark sender).length ≤ 17 := by
  have hip := length_inetNtoa_le sender.sinAddr
  have hend : (literal "> ").length = 2 := by decide
  rw [mark, List.length_append, hend]
  omega

/-- Every part but the one with the newline loses a character, and a part that is
too long for the receiver overruns its array. -/
theorem shown_line_iff (sender : SockaddrIn) (line : Line) (memories : Nat → Bytes) :
    shown sender memories (line.datagrams.map (broadcastText sender)) = some line.chars ↔
      (mark sender).length + line.chars.length < MAX_MSG_LEN := by
  have hmax : MAX_MSG_LEN = 1024 := rfl
  rcases length_mark sender with ⟨hlow, hhigh⟩
  have hflatten : line.reads.flatten = line.typed := flatten_reads (Nat.le_refl _)
  rw [broadcasts_of_line, shown_eq sender fun _ => zero_not_mem_part,
    Option.ite_none_right_eq_some, Option.some_inj]
  constructor
  · rintro ⟨hfits, hparts⟩
    have hlength := length_flatten_dropLast
      (fun msg (hmsg : msg ∈ line.reads) => (of_mem_reads hmsg).1)
    rw [hparts, hflatten, Line.typed, List.length_append, List.length_singleton] at hlength
    obtain ⟨msg, hreads⟩ := List.length_eq_one_iff.mp (Nat.add_left_cancel hlength)
    rw [hreads, List.map_singleton, List.flatten_singleton] at hparts
    have hmem : line.chars ∈ line.reads.map List.dropLast := by
      rw [hreads, List.map_singleton, hparts]
      exact List.mem_singleton_self _
    exact hfits _ hmem
  · intro h
    have hreads : line.reads.map List.dropLast = [line.chars] := by
      rw [reads_of_fits (by omega), List.map_singleton, Line.typed, List.dropLast_concat]
    rw [hreads]
    refine ⟨fun part hpart => ?_, List.flatten_singleton⟩
    rw [List.mem_singleton.mp hpart]
    exact h

section Conversation

variable {sender receiver : SockaddrIn} {line : Line} {memory : HashTable} {msg : MsgArray}
  {before after : List Event} {s : ChatServer}

theorem Conversation.since (h : Conversation sender receiver line memory msg before after s) :
    Since s [] s := by
  have hkept := kept_of_run (kept_start memory msg) h.registering before
    (List.prefix_append before after) _ h.reached
  exact ⟨hkept s rfl, List.prefix_rfl, [], (List.append_nil _).symm, rfl, fun _ hnone =>
    absurd hnone List.not_mem_nil⟩

theorem Conversation.shown_iff (h : Conversation sender receiver line memory msg before after s)
    {s' : ChatServer} (hsince : Since s after s') (memories : Nat → Bytes) :
    shown sender memories (heard sender receiver (s'.log.drop s.log.length)) =
        some line.chars ↔
      (mark sender).length + line.chars.length < MAX_MSG_LEN := by
  rcases hsince.rounds with ⟨rounds, hlog, hreceived, hrounds⟩
  have hdatagrams : (rounds.filter (·.source = sender)).map Round.datagram = line.datagrams := by
    rw [← h.sent, datagramsFrom, ← hreceived, List.filter_map, List.map_map]
    rfl
  rw [hlog, List.drop_left, heard_eq hrounds sender h.registeredReceiver, hdatagrams,
    shown_line_iff]

/-- A line is conveyed exactly where nothing that the server receives fills its
array, and the broadcast of the line leaves room in that of a client. -/
theorem conveyed_iff (h : Conversation sender receiver line memory msg before after s) :
    Conveyed sender receiver line s after ↔
      EveryStep (processStep serve) (WhileRunning LeavesRoom) (.running s) after ∧
        (inetNtoa sender.sinAddr).length + 2 + line.chars.length < MAX_MSG_LEN := by
  have hmark : (mark sender).length = (inetNtoa sender.sinAddr).length + 2 := List.length_append
  have hregistering := h.registering.behind h.reached
  rw [← hmark]
  constructor
  · rintro ⟨s', hrun, hshown⟩
    obtain ⟨hsince, hroom⟩ := since_of_run h.since hregistering hrun
    exact ⟨hroom, (h.shown_iff hsince fun _ => []).mp (hshown _)⟩
  · rintro ⟨hroom, hfits⟩
    obtain ⟨p, hrun⟩ := exists_run_processStep serve after (.running s)
    have hsafe := (@notFaulted_iff _ _ serve Bounded LeavesRoom
      (fun _ _ hbounded hroom => serve_safe hbounded hroom)
      (fun _ _ hbounded hsafe => leavesRoom_of_not_fault hbounded hsafe)
      _ h.since.kept.bounded after).mpr hroom
    rcases p with s' | _ | _
    · obtain ⟨hsince, _⟩ := since_of_run h.since hregistering hrun
      exact ⟨s', hrun, fun memories => (h.shown_iff hsince memories).mpr hfits⟩
    · exact absurd hrun h.persists
    · exact (hsafe.reached hrun).elim

end Conversation

theorem exists_fresh {fds : List Int32} (h : fds.length ≤ MAX_CLIENTS) :
    ∃ sock, 0 < sock ∧ sock ∉ fds := by
  have hnodup : ((List.range 101).map fun i => Int32.ofNat (i + 1)).Nodup := by decide +kernel
  have hpositive : ∀ i < 101, 0 < Int32.ofNat (i + 1) := by decide +kernel
  rcases Classical.em (∃ sock ∈ (List.range 101).map fun i => Int32.ofNat (i + 1), sock ∉ fds)
    with ⟨sock, hmem, hfresh⟩ | hnone
  · rcases List.mem_map.mp hmem with ⟨i, hi, rfl⟩
    exact ⟨_, hpositive i (List.mem_range.mp hi), hfresh⟩
  · have hsubset : (List.range 101).map (fun i => Int32.ofNat (i + 1)) ⊆ fds := by
      intro sock hmem
      rcases Classical.em (sock ∈ fds) with hold | hfresh
      · exact hold
      · exact absurd ⟨sock, hmem, hfresh⟩ hnone
    have hlength := (List.subperm_of_subset hnodup hsubset).length_le
    rw [List.length_map, List.length_range] at hlength
    have hmax : MAX_CLIENTS = 100 := rfl
    omega

theorem exists_succeeds {heard : List SockaddrIn} {s : ChatServer} (h : Sound heard s) :
    ∃ answers, Succeeds s answers := by
  have hlength : (s.sockets.map Socket.fd).length ≤ MAX_CLIENTS := by
    rw [List.length_map, h.count]
    exact h.bounded
  rcases exists_fresh hlength with ⟨sock, hpositive, hfresh⟩
  exact ⟨{ sock, allocated := true, connected := true, sent := fun _ => true },
    ⟨rfl, hpositive, hfresh, rfl⟩, fun _ => rfl⟩

theorem exists_datagrams (source : SockaddrIn) {datagrams : List Bytes}
    (hshort : ∀ datagram ∈ datagrams, datagram.length < MAX_MSG_LEN) :
    ∀ {s : ChatServer}, Kept s → ∃ events s',
      run (processStep serve) (.running s) events = some (.running s') ∧
      EveryStep (processStep serve) (WhileRunning Registering) (.running s) events ∧
      datagramsFrom source events = datagrams := by
  induction datagrams with
  | nil => exact fun {s} _ => ⟨[], s, rfl, everyStep_nil _ _, rfl⟩
  | cons datagram datagrams ih =>
      intro s hkept
      rcases exists_succeeds hkept.sound with ⟨answers, hanswers⟩
      obtain ⟨t, _, hserve, hkept', _⟩ :=
        hkept.datagram source (hshort datagram List.mem_cons_self) hanswers
      obtain ⟨events, s', hrun, hregistering, hsent⟩ :=
        ih (fun other hother => hshort other (List.mem_cons_of_mem datagram hother)) hkept'
      have hstep : processStep serve (.running s) (.datagram source (some datagram) answers) =
          some (.running t) := by
        rw [processStep, hserve]
      refine ⟨.datagram source (some datagram) answers :: events, s', ?_,
        EveryStep.cons hstep hanswers.toRegisters hregistering, ?_⟩
      · rw [run_cons, hstep]
        exact hrun
      · have hreceived : received (.datagram source (some datagram) answers) =
            some (source, datagram) := rfl
        rw [← hsent, datagramsFrom, List.filterMap_cons_some hreceived, List.filter_cons,
          if_pos (decide_eq_true rfl)]
        rfl

theorem exists_conversation (sender : SockaddrIn) (line : Line) : ∃ before after s s',
    Conversation sender sender line cleanMemory blankArray before after s ∧
      run (processStep serve) (.running s) after = some (.running s') := by
  have hstart := kept_start cleanMemory blankArray
  have hanswers := succeeds_firstCalls cleanMemory blankArray.bytes
  obtain ⟨s, sendings, hserve, hkept, hlog, _⟩ :=
    @Kept.datagram _ hstart sender [] (by decide) _ hanswers
  have hstep : processStep serve (.running (.start cleanMemory blankArray.bytes))
      (.datagram sender (some []) firstCalls) = some (.running s) := by
    rw [processStep, hserve]
  have hshort : ∀ datagram ∈ line.datagrams, datagram.length < MAX_MSG_LEN := by
    intro datagram hdatagram
    rcases List.mem_map.mp hdatagram with ⟨msg, hmsg, rfl⟩
    exact Nat.lt_of_le_of_lt (length_datagramOf_le (zero_not_mem_of_mem_reads hmsg))
      (of_mem_reads hmsg).2
  obtain ⟨after, s', hrun, hregistering, hsent⟩ := exists_datagrams sender hshort hkept
  have hpeers : s.sockets.map Socket.peer = [sender] := by
    rw [hkept.sound.first, senders, hlog]
    rfl
  have hmem : sender ∈ s.sockets.map Socket.peer := by
    rw [hpeers]
    exact List.mem_singleton_self sender
  refine ⟨[.datagram sender (some []) firstCalls], after, s, s',
    ⟨?_, ?_, hmem, hmem, hsent, ?_⟩, hrun⟩
  · exact EveryStep.cons hstep hanswers.toRegisters hregistering
  · rw [run_cons, hstep]
    rfl
  · rw [hrun]
    exact fun hexited => by cases hexited

def shortLine : Line where
  chars := literal "hi"
  noNul := by decide
  noNewline := by decide

theorem shortLine_conveyed : ∃ s after, Conveyed firstClient firstClient shortLine s after := by
  obtain ⟨before, after, s, s', hconversation, hrun⟩ := exists_conversation firstClient shortLine
  obtain ⟨_, hroom⟩ := since_of_run hconversation.since
    (hconversation.registering.behind hconversation.reached) hrun
  exact ⟨s, after, (conveyed_iff hconversation).mpr ⟨hroom, by decide⟩⟩

def longLine : Line where
  chars := List.replicate 1012 97
  noNul := fun hmem => absurd (List.eq_of_mem_replicate hmem) (by decide)
  noNewline := fun hmem => absurd (List.eq_of_mem_replicate hmem) (by decide)

theorem longLine_not_conveyed : ∃ before after s,
    Conversation firstClient firstClient longLine cleanMemory blankArray before after s ∧
      ¬ Conveyed firstClient firstClient longLine s after := by
  obtain ⟨before, after, s, _, hconversation, _⟩ := exists_conversation firstClient longLine
  refine ⟨before, after, s, hconversation, ?_⟩
  rintro ⟨s', hrun, hshown⟩
  obtain ⟨hsince, _⟩ := since_of_run hconversation.since
    (hconversation.registering.behind hconversation.reached) hrun
  have hfits := (hconversation.shown_iff hsince fun _ => []).mp (hshown _)
  have hmark : (mark firstClient).length = 13 := by decide
  have hline : longLine.chars.length = 1012 := List.length_replicate
  rw [hmark, hline] at hfits
  exact absurd hfits (by decide)

end StudyLinuxKernel.Chatroom.EndToEnd
