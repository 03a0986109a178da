import StudyLinuxKernel.Http.SelectServer

namespace StudyLinuxKernel.Http.ResponseIsolation

open StudyLinuxKernel.Http.Request
open StudyLinuxKernel.Http.Response
open StudyLinuxKernel.Http.SelectServer
open StudyLinuxKernel.Http.Text
open StudyLinuxKernel.Libc.Text
open StudyLinuxKernel.Library.PartialStep
open StudyLinuxKernel.Socket.AcceptedSet

/-- Every response on the list belongs to the connection that is open under
its descriptor, and none was ever sent on another one than its own. -/
structure Isolated (s : Server) : Prop where
  listed : ∀ entry ∈ s.listMsgs,
    entry.fd ∈ s.fds.accepted ∧ s.fds.table entry.fd = some entry.origin
  delivered : ∀ conn origin bytes, Event.sent conn origin bytes ∈ s.log → conn = origin

/-- The visit sends something. -/
def Answers (s : Server) (setwd : List Nat) (fd : Nat) (visit : Visit) : Prop :=
  fd ∈ setwd ∧ pendingOf fd s.listMsgs ≠ [] ∧ visit.sends 0 ≠ none

/-- Nothing is on the list for the descriptor, or all of it is sent. -/
def SendsAll (s : Server) (setwd : List Nat) (fd : Nat) (visit : Visit) : Prop :=
  pendingOf fd s.listMsgs = [] ∨
    fd ∈ setwd ∧ ∀ k, k < (pendingOf fd s.listMsgs).length → visit.sends k ≠ none

/-- A visit that closes the connection sends all that is listed for it and
reads no further request. -/
def LeavesNothing (s : Server) : Action → Prop
  | .visit visit => ∀ setrd setwd fd rest, s.place = .visiting setrd setwd (fd :: rest) →
      Answers s setwd fd visit ∨ RecvFails setrd fd visit →
      SendsAll s setwd fd visit ∧ readRequests setrd fd visit = []
  | _ => True

section Visits

variable {s s' : Server} {setrd setwd rest : List Nat} {fd conn : Nat} {visit : Visit}
  {kept : List Pending} {sent : List (Pending × Nat)}

theorem length_sent (h : Sending fd visit.sends 0 s.listMsgs kept sent) :
    sent.length + (pendingOf fd kept).length = (pendingOf fd s.listMsgs).length := by
  rw [← h.pending, List.length_append, List.length_map]

theorem sends_of_lt (h : Sending fd visit.sends 0 s.listMsgs kept sent) {k : Nat}
    (hk : k < sent.length) : visit.sends k ≠ none := by
  have hresult := (h.results k sent[k].1 sent[k].2 (List.getElem?_eq_getElem hk)).1
  rw [Nat.zero_add] at hresult
  rw [hresult]
  exact Option.some_ne_none _

theorem sent_ne_nil_iff (h : Visited { s with place := .visiting setrd setwd rest } s' setrd
    setwd fd conn visit kept sent) : sent ≠ [] ↔ Answers s setwd fd visit := by
  rcases Decidable.em (fd ∈ setwd) with hmem | hmem
  · have hsending : Sending fd visit.sends 0 s.listMsgs kept sent := h.writable hmem
    have hlength := length_sent hsending
    constructor
    · intro hne
      have hpos := List.length_pos_iff.mpr hne
      refine ⟨hmem, List.length_pos_iff.mp (by omega), sends_of_lt hsending hpos⟩
    · rintro ⟨_, hpending, hsend⟩ rfl
      rw [List.length_nil, Nat.zero_add] at hlength
      refine hsend (hsending.stopped ?_)
      rw [← List.length_pos_iff, hlength]
      exact List.length_pos_iff.mpr hpending
  · rw [(h.notWritable hmem).2]
    exact iff_of_false (fun hne => hne rfl) fun hanswers => hmem hanswers.1

theorem pendingOf_kept_eq_nil_iff (h : Visited { s with place := .visiting setrd setwd rest } s'
    setrd setwd fd conn visit kept sent) :
    pendingOf fd kept = [] ↔ SendsAll s setwd fd visit := by
  rw [SendsAll]
  rcases Decidable.em (fd ∈ setwd) with hmem | hmem
  · have hsending : Sending fd visit.sends 0 s.listMsgs kept sent := h.writable hmem
    have hlength := length_sent hsending
    constructor
    · intro hnone
      rw [hnone, List.length_nil, Nat.add_zero] at hlength
      exact Or.inr ⟨hmem, fun k hk => sends_of_lt hsending (hlength ▸ hk)⟩
    · intro hall
      apply Classical.byContradiction
      intro hleft
      have hpos := List.length_pos_iff.mpr hleft
      rcases hall with hempty | ⟨_, hsends⟩
      · rw [hempty, List.length_nil] at hlength
        omega
      · apply hsends sent.length (by omega)
        rw [← hsending.stopped hleft, Nat.zero_add]
  · rw [(h.notWritable hmem).1]
    exact ⟨Or.inl, fun hall => hall.resolve_right fun hwritable => hmem hwritable.1⟩

theorem kept_subset (h : Visited { s with place := .visiting setrd setwd rest } s' setrd setwd fd
    conn visit kept sent) : kept ⊆ s.listMsgs := by
  rcases Decidable.em (fd ∈ setwd) with hmem | hmem
  · exact (h.writable hmem).subset
  · rw [(h.notWritable hmem).1]
    exact List.Subset.refl _

theorem mem_of_sent (h : Visited { s with place := .visiting setrd setwd rest } s' setrd setwd fd
    conn visit kept sent) {entry : Pending × Nat} (hentry : entry ∈ sent) :
    entry.1 ∈ s.listMsgs ∧ entry.1.fd = fd := by
  rcases Decidable.em (fd ∈ setwd) with hmem | hmem
  · have hpending : entry.1 ∈ pendingOf fd s.listMsgs := by
      have hsending : Sending fd visit.sends 0 s.listMsgs kept sent := h.writable hmem
      rw [← hsending.pending]
      exact List.mem_append_left _ (List.mem_map_of_mem hentry)
    obtain ⟨hlisted, hfd⟩ := List.mem_filter.mp hpending
    exact ⟨hlisted, of_decide_eq_true hfd⟩
  · rw [(h.notWritable hmem).2] at hentry
    exact absurd hentry List.not_mem_nil

end Visits

theorem isolated_visit {s s' : Server} {setrd setwd rest : List Nat} {fd conn : Nat}
    {visit : Visit} {kept : List Pending} {sent : List (Pending × Nat)}
    (hsound : Consistent s) (h : Isolated s) (hclean : LeavesNothing s (.visit visit))
    (hplace : s.place = .visiting setrd setwd (fd :: rest)) (hconn : s.fds.table fd = some conn)
    (hvisited : Visited { s with place := .visiting setrd setwd rest } s' setrd setwd fd conn
      visit kept sent) : Isolated s' := by
  have hlisted := kept_subset hvisited
  rcases Classical.em (sent ≠ [] ∨ RecvFails setrd fd visit) with hcloses | hstays
  · obtain ⟨hfds, hlog⟩ := hvisited.closes hcloses
    obtain ⟨hall, hrequests⟩ := hclean setrd setwd fd rest hplace
      (hcloses.imp_left (sent_ne_nil_iff hvisited).mp)
    have hkept := (pendingOf_kept_eq_nil_iff hvisited).mpr hall
    have hmsgs := hvisited.listMsgs
    rw [hrequests, List.map_nil, List.append_nil] at hmsgs hlog
    refine ⟨fun entry hentry => ?_, fun conn' origin bytes hmem => ?_⟩
    · rw [hmsgs] at hentry
      obtain ⟨hin, hopen⟩ := h.listed entry (hlisted hentry)
      have hne : entry.fd ≠ fd := by
        intro hfd
        have hpending : entry ∈ pendingOf fd kept :=
          List.mem_filter.mpr ⟨hentry, decide_eq_true hfd⟩
        rw [hkept] at hpending
        exact List.not_mem_nil hpending
      rw [hfds]
      exact ⟨(mem_close_iff hsound.fds).mpr ⟨hne, hin⟩, open_of_close_iff.mpr ⟨hne, hopen⟩⟩
    · rw [hlog, List.mem_append, List.mem_append] at hmem
      rcases hmem with (hmem | hmem) | hmem
      · exact h.delivered conn' origin bytes hmem
      · obtain ⟨entry, hentry, hevent⟩ := List.mem_map.mp hmem
        obtain ⟨rfl, rfl, _⟩ := Event.sent.inj hevent
        obtain ⟨hentry, hfd⟩ := mem_of_sent hvisited hentry
        have hopen := (h.listed entry.1 hentry).2
        rw [hfd, hconn] at hopen
        exact Option.some.inj hopen
      · exact nomatch List.mem_singleton.mp hmem
  · obtain ⟨hfds, hlog⟩ := hvisited.stays hstays
    refine ⟨fun entry hentry => ?_, fun conn' origin bytes hmem => ?_⟩
    · rw [hvisited.listMsgs, List.mem_append] at hentry
      rw [hfds]
      rcases hentry with hentry | hentry
      · exact h.listed entry (hlisted hentry)
      · obtain ⟨response, _, rfl⟩ := List.mem_map.mp hentry
        refine ⟨?_, hconn⟩
        exact (hsound.visiting _ _ _ hplace).subset List.mem_cons_self
    · rw [hlog, List.mem_append] at hmem
      rcases hmem with hmem | hmem
      · exact h.delivered conn' origin bytes hmem
      · obtain ⟨response, _, hevent⟩ := List.mem_map.mp hmem
        cases hevent

theorem isolated_serverStep {s s' : Server} {action : Action} (hsound : Consistent s)
    (h : Isolated s) (hclean : LeavesNothing s action)
    (hstep : serverStep s action = some s') : Isolated s' := by
  cases moves_of_serverStep hstep with
  | accept fd fds haccept =>
      refine ⟨fun entry hentry => ?_, h.delivered⟩
      obtain ⟨hin, hopen⟩ := h.listed entry hentry
      refine ⟨?_, open_of_accept haccept hopen⟩
      change entry.fd ∈ fds.accepted
      rw [accepted_of_accept haccept]
      exact hin
  | insert fds hinsert hunlocked =>
      refine ⟨fun entry hentry => ?_, h.delivered⟩
      obtain ⟨hin, hopen⟩ := h.listed entry hentry
      refine ⟨subset_of_insert hinsert hin, ?_⟩
      change fds.table entry.fd = some entry.origin
      rw [table_of_insert hinsert]
      exact hopen
  | select setrd setwd hidle => exact ⟨h.listed, h.delivered⟩
  | lock setrd setwd hselected => exact ⟨h.listed, h.delivered⟩
  | visit setrd setwd fd rest conn visit s' kept sent hplace hconn hvisited =>
      exact isolated_visit hsound h hclean hplace hconn hvisited
  | unlock setrd setwd hplace => exact ⟨h.listed, h.delivered⟩

theorem leavesNothing_of_isolated {s s' : Server} {action : Action} (hsound : Consistent s)
    (hstep : serverStep s action = some s') (hs' : Isolated s') : LeavesNothing s action := by
  cases moves_of_serverStep hstep with
  | visit setrd setwd fd rest conn visit s' kept sent hplace hconn hvisited =>
      intro setrd' setwd' fd' rest' hplace' hcloses
      rw [hplace] at hplace'
      obtain ⟨rfl, rfl, hcons⟩ := Place.visiting.inj hplace'
      obtain ⟨rfl, rfl⟩ := List.cons.inj hcons
      obtain ⟨hfds, _⟩ := hvisited.closes (hcloses.imp_left (sent_ne_nil_iff hvisited).mpr)
      have hgone : ∀ entry ∈ s'.listMsgs, entry.fd ≠ fd := by
        intro entry hentry
        have hin := (hs'.listed entry hentry).1
        rw [hfds] at hin
        exact ((mem_close_iff hsound.fds).mp hin).1
      rw [hvisited.listMsgs] at hgone
      constructor
      · rw [← pendingOf_kept_eq_nil_iff hvisited, pendingOf, List.filter_eq_nil_iff]
        intro entry hentry hfd
        exact hgone entry (List.mem_append_left _ hentry) (of_decide_eq_true hfd)
      · apply List.eq_nil_iff_forall_not_mem.mpr
        intro response hresponse
        exact hgone _ (List.mem_append_right kept (List.mem_map_of_mem hresponse)) rfl
  | accept => trivial
  | insert => trivial
  | select => trivial
  | lock => trivial
  | unlock => trivial

theorem isolated_start : Isolated Server.start where
  listed := fun _ hentry => absurd hentry List.not_mem_nil
  delivered := fun _ _ _ hmem => absurd hmem List.not_mem_nil

/-- In a run of the server the responses stay with their connections exactly if
every visit that closes a connection leaves nothing listed for it. -/
theorem isolated_iff (actions : List Action) :
    EveryState serverStep Isolated .start actions ↔
      EveryStep serverStep LeavesNothing .start actions := by
  have hexact := @everyState_iff_everyStep _ _ serverStep (fun s => Consistent s ∧ Isolated s)
    Isolated LeavesNothing .start ⟨consistent_start, isolated_start⟩ (fun _ hs => hs.2)
    (fun _ _ _ hs hclean hstep =>
      ⟨consistent_serverStep hs.1 hstep, isolated_serverStep hs.1 hs.2 hclean hstep⟩)
    (fun _ _ _ hs hstep hs' => leavesNothing_of_isolated hs.1 hstep hs')
  exact hexact actions

/-- A pass in which a piece is received. -/
def receivePass (piece : Received) : List Action :=
  [.select [5] [], .lock, .visit { sends := fun _ => none, recv := .got piece }, .unlock]

def pendingFor (piece : Received) : Pending :=
  { fd := 5, response := piece.response, origin := 0 }

/-- The server with the responses to the pieces on its list. -/
def holding (pieces : List Received) : Server where
  fds :=
    { accepted := [5]
      incoming := none
      table := Function.update (fun _ => none) 5 (some 0)
      nextConn := 1 }
  listMsgs := pieces.map pendingFor
  place := .idle
  log := pieces.map fun piece => .request 0 piece.response

theorem run_accepted : run serverStep .start [.accept 5, .insert] = some (holding []) := rfl

theorem run_receivePass (pieces : List Received) (piece : Received) :
    run serverStep (holding pieces) (receivePass piece) = some (holding (pieces ++ [piece])) := by
  simp [receivePass, serverStep, holding, visitFd, writeBranch, readBranch, closeBranch,
    pendingFor]

theorem run_received (pieces : List Received) :
    run serverStep .start ([.accept 5, .insert] ++ pieces.flatMap receivePass) =
      some (holding pieces) := by
  induction pieces using List.reverseRecOn with
  | nil => exact run_accepted
  | append_singleton pieces piece ih =>
      rw [List.flatMap_append, ← List.append_assoc, run_append, ih, List.flatMap_singleton]
      exact run_receivePass pieces piece

/-- A client sends a request and resets the connection before it is answered;
the next client is accepted under the same number. -/
def reuseSchedule (received : Received) : List Action :=
  [.accept 5, .insert,
    .select [5] [], .lock, .visit { sends := fun _ => none, recv := .got received }, .unlock,
    .select [5] [], .lock, .visit { sends := fun _ => none, recv := .failed }, .unlock,
    .accept 5, .insert,
    .select [] [5], .lock, .visit { sends := fun _ => some 1, recv := .failed }]

def shortRequest : Received where
  bytes := literal "x"
  bytes_ne_nil := by decide
  length_le := by decide
  behindMsg := []
  unset := .UNKNOWN
  peer := none
  around := { files := fun _ => none, behindContent := [] }

theorem run_reuseSchedule (received : Received) :
    run serverStep .start (reuseSchedule received) =
      some
        { fds := { accepted := [], incoming := none, table := fun _ => none, nextConn := 2 }
          listMsgs := []
          place := .visiting [] [5] []
          log := [.request 0 received.response, .closed 0,
            .sent 1 0 (received.response.take 1), .closed 1] } := by
  have hlength : 1 ≤ received.response.length :=
    List.length_pos_iff.mpr received.response_ne_nil
  have hreset : run serverStep (holding [received])
      [.select [5] [], .lock, .visit { sends := fun _ => none, recv := .failed }, .unlock] =
        some
          { fds := { accepted := [], incoming := none, table := fun _ => none, nextConn := 1 }
            listMsgs := [pendingFor received]
            place := .idle
            log := [.request 0 received.response, .closed 0] } := by
    simp [serverStep, holding, Descriptors.close, visitFd, writeBranch, readBranch, closeBranch]
  have hpasses : reuseSchedule received =
      ([.accept 5, .insert] ++ [received].flatMap receivePass) ++
        ([.select [5] [], .lock, .visit { sends := fun _ => none, recv := .failed }, .unlock] ++
          [.accept 5, .insert, .select [] [5], .lock,
            .visit { sends := fun _ => some 1, recv := .failed }]) := rfl
  rw [hpasses, run_append, run_received, Option.bind_some, run_append, hreset, Option.bind_some]
  simp [serverStep, Descriptors.accept, Descriptors.insert, Descriptors.close, insertFd, visitFd,
    writeBranch, closeBranch, readBranch, sendLoop, pendingFor, received.cStr_response, hlength]

theorem response_sent_to_next_client :
    ∃ s', run serverStep .start (reuseSchedule shortRequest) = some s' ∧
      Event.sent 1 0 (shortRequest.response.take 1) ∈ s'.log ∧ ¬ Isolated s' := by
  have hsent : Event.sent 1 0 (shortRequest.response.take 1) ∈
      [.request 0 shortRequest.response, .closed 0,
        .sent 1 0 (shortRequest.response.take 1), .closed 1] := by
    simp
  refine ⟨_, run_reuseSchedule shortRequest, hsent, fun h => ?_⟩
  exact absurd (h.delivered 1 0 _ hsent) (by decide)

end StudyLinuxKernel.Http.ResponseIsolation
