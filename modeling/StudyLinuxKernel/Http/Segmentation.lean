import StudyLinuxKernel.Http.ResponseDelivery
import StudyLinuxKernel.Http.ResponseFraming

namespace StudyLinuxKernel.Http.Segmentation

open StudyLinuxKernel.Http.Request
open StudyLinuxKernel.Http.Response
open StudyLinuxKernel.Http.ResponseDelivery
open StudyLinuxKernel.Http.ResponseFraming
open StudyLinuxKernel.Http.ResponseIsolation
open StudyLinuxKernel.Http.SelectServer
open StudyLinuxKernel.Http.Text
open StudyLinuxKernel.Libc.Text
open StudyLinuxKernel.Library.PartialStep
open StudyLinuxKernel.Socket.AcceptedSet

/-- A request, cut into what the calls of `recv` return of it. -/
structure Cut where
  request : Bytes
  noNul : 0 ∉ request
  pieces : List Received
  pieces_ne_nil : pieces ≠ []
  joined : pieces.flatMap Received.bytes = request
  unset : Method
  peer : Option Peer
  around : Surroundings
  shared : ∀ piece ∈ pieces, piece.unset = unset ∧ piece.peer = peer ∧ piece.around = around

/-- The response to the request as a whole. -/
def Cut.response (cut : Cut) : Bytes :=
  makeHttpResponse cut.around (parseHttpRequest cut.request (.fresh cut.unset)).2
    (getRemoteHost cut.peer)

def receipt (conn : Nat) (s : Server) : Action → List Recv
  | .visit visit =>
      match s.place with
      | .visiting setrd _ (fd :: _) =>
          if s.fds.table fd = some conn then
            if fd ∈ setrd then [visit.recv] else []
          else []
      | _ => []
  | _ => []

/-- What `recv` returns on a connection in the course of a run. -/
def receipts (conn : Nat) : Server → List Action → List Recv
  | _, [] => []
  | s, action :: actions =>
      receipt conn s action ++
        match serverStep s action with
        | none => []
        | some s' => receipts conn s' actions

/-- Nothing is listed for the number of the connection when it is accepted, and
the sends on it take all bytes. -/
def Undisturbed (conn : Nat) (s : Server) : Action → Prop
  | .accept fd => s.fds.nextConn = conn → ∀ entry ∈ s.listMsgs, entry.fd ≠ fd
  | .visit visit =>
      match s.place with
      | .visiting _ setwd (fd :: _) => s.fds.table fd = some conn → fd ∈ setwd →
          ∀ k entry, (pendingOf fd s.listMsgs)[k]? = some entry →
            visit.sends k = some entry.response.length
      | _ => True
  | _ => True

/-- The last step of the run finds the connection writable, and something was
received on it before. -/
def Due (conn : Nat) (actions : List Action) : Prop :=
  ∃ earlier visit s setrd setwd fd rest, actions = earlier ++ [.visit visit] ∧
    run serverStep .start earlier = some s ∧ s.place = .visiting setrd setwd (fd :: rest) ∧
    s.fds.table fd = some conn ∧ fd ∈ setwd ∧ receipts conn .start earlier ≠ []

/-- Nothing but the response is sent, and it is sent as soon as it can be. -/
structure AnsweredWith (response : Bytes) (conn : Nat) (actions : List Action) (s : Server) :
    Prop where
  once : sentOn conn s.log = [] ∨ sentOn conn s.log = response
  due : Due conn actions → sentOn conn s.log = response

/-- If the run receives the pieces on the connection one behind the other, then
however far it comes, the connection is sent the response to the whole request. -/
def Answered (cut : Cut) (conn : Nat) (actions : List Action) : Prop :=
  ∀ s, run serverStep .start actions = some s →
    receipts conn .start actions <+: cut.pieces.map .got →
    AnsweredWith cut.response conn actions s

/-- The request comes in one piece, which is terminated if it fills `msg`, and the
run does not disturb the connection. -/
structure Undivided (cut : Cut) (conn : Nat) (actions : List Action) : Prop where
  single : ∃ piece, cut.pieces = [piece] ∧
    (piece.bytes.length = MSG_SIZE → cStr piece.behindMsg = [])
  undisturbed : EveryStep serverStep (Undisturbed conn) .start actions

def responseOf : Recv → List Bytes
  | .failed => []
  | .got received => [received.response]

/-- How far a connection has been answered: not at all, or by the responses to
the first of its receipts, and then it is closed. -/
structure Tracked (conn : Nat) (received : List Recv) (s : Server) : Prop where
  requests : responsesTo conn s.log = received.flatMap responseOf
  fresh : ∀ fd, s.fds.table fd = some conn → ∀ entry ∈ s.listMsgs, entry.fd = fd →
    entry.origin = conn
  answered : sentOn conn s.log = [] ∨ ∃ done left, responsesTo conn s.log = done ++ left ∧
    done ≠ [] ∧ sentOn conn s.log = done.flatten ∧ conn < s.fds.nextConn ∧
    ∀ fd, s.fds.table fd ≠ some conn

theorem receipts_append {conn : Nat} {s s' : Server} {actions actions' : List Action}
    (hrun : run serverStep s actions = some s') :
    receipts conn s (actions ++ actions') =
      receipts conn s actions ++ receipts conn s' actions' := by
  induction actions generalizing s with
  | nil =>
      obtain rfl := Option.some.inj hrun
      rfl
  | cons action actions ih =>
      obtain ⟨next, hstep, hrest⟩ := Option.bind_eq_some_iff.mp hrun
      rw [List.cons_append, receipts, receipts, hstep, List.append_assoc]
      exact congrArg _ (ih hrest)

theorem receipts_concat {conn : Nat} {s s' : Server} {actions : List Action} {action : Action}
    (hrun : run serverStep s actions = some s') :
    receipts conn s (actions ++ [action]) = receipts conn s actions ++ receipt conn s' action := by
  rw [receipts_append hrun, receipts]
  refine congrArg _ ?_
  cases serverStep s' action with
  | none => exact List.append_nil _
  | some next => exact List.append_nil _

section Visits

variable {s s' : Server} {setrd setwd rest : List Nat} {fd conn : Nat} {visit : Visit}
  {kept : List Pending} {sent : List (Pending × Nat)}

theorem receipt_visit (hplace : s.place = .visiting setrd setwd (fd :: rest))
    (hconn : s.fds.table fd = some conn) (conn' : Nat) :
    (receipt conn' s (.visit visit)).flatMap responseOf =
      if conn = conn' then readRequests setrd fd visit else [] := by
  rw [receipt, hplace]
  change List.flatMap responseOf (if s.fds.table fd = some conn' then _ else _) = _
  rcases Decidable.em (conn = conn') with hsame | hsame
  · rw [if_pos hsame, if_pos (hconn.trans (congrArg some hsame)), readRequests]
    split
    · cases hrecv : visit.recv with
      | failed => rfl
      | got received => rfl
    · rfl
  · rw [if_neg hsame, if_neg fun hopen => hsame (Option.some.inj (hconn.symm.trans hopen))]
    rfl

theorem answered_visit (h : Ledger s) {received : List Recv} (ht : Tracked conn received s)
    (hcond : Undisturbed conn s (.visit visit))
    (hplace : s.place = .visiting setrd setwd (fd :: rest)) (hconn : s.fds.table fd = some conn)
    (hmem : fd ∈ setwd)
    (hvisited : Visited { s with place := .visiting setrd setwd rest } s' setrd setwd fd conn
      visit kept sent) :
    sentOn conn s'.log = (responsesTo conn s.log).flatten := by
  have hpending : pendingOf fd s.listMsgs = s.listMsgs.filter (·.origin = conn) := by
    apply pendingOf_eq_filter h hconn
    intro entry hentry
    obtain ⟨hlisted, hfd⟩ := List.mem_filter.mp hentry
    rw [hconn, ht.fresh fd hconn entry hlisted (of_decide_eq_true hfd)]
  rw [Undisturbed, hplace] at hcond
  rw [(logs_of_visited h hconn hvisited).1, sent_whole hvisited hmem (hcond hconn hmem), hpending,
    h.queued fd conn hconn]

theorem tracked_visit (hc : Consistent s) (h : Ledger s) {conn' : Nat} {received : List Recv}
    (ht : Tracked conn' received s) (hcond : Undisturbed conn' s (.visit visit))
    (hplace : s.place = .visiting setrd setwd (fd :: rest)) (hconn : s.fds.table fd = some conn)
    (hvisited : Visited { s with place := .visiting setrd setwd rest } s' setrd setwd fd conn
      visit kept sent) :
    Tracked conn' (received ++ receipt conn' s (.visit visit)) s' := by
  have hnextConn : s'.fds.nextConn = s.fds.nextConn := nextConn_of_visited hvisited
  have hopen : ∀ fd', s'.fds.table fd' = some conn' → s.fds.table fd' = some conn' :=
    fun fd' hopen => (open_of_visited hc.fds hconn hvisited hopen).1
  obtain ⟨last, hlog, hlast⟩ := log_of_visited hvisited
  replace hlog : s'.log = s.log ++ _ := hlog
  have hfresh : ∀ fd', s'.fds.table fd' = some conn' → ∀ entry ∈ s'.listMsgs, entry.fd = fd' →
      entry.origin = conn' := by
    intro fd' hopen' entry hentry hfd
    have hbefore := hopen fd' hopen'
    rcases mem_listMsgs_of_visited hvisited hentry with hold | ⟨hfd', horigin, _⟩
    · exact ht.fresh fd' hbefore entry hold hfd
    · rw [← hfd, hfd', hconn] at hbefore
      exact horigin.trans (Option.some.inj hbefore)
  rcases eq_or_ne conn conn' with rfl | hne
  · have hrequests : responsesTo conn s'.log =
        responsesTo conn s.log ++ readRequests setrd fd visit := by
      rw [hlog, responsesTo_append, responsesTo_visited hlast]
    refine ⟨?_, hfresh, ?_⟩
    · rw [hrequests, ht.requests, List.flatMap_append, receipt_visit hplace hconn, if_pos rfl]
    · rcases Classical.em (sent = []) with rfl | hsent
      · refine Or.inl ?_
        rw [(logs_of_visited h hconn hvisited).1]
        rfl
      · have hanswers := (sent_ne_nil_iff hvisited).mp hsent
        have hsentOn := answered_visit h ht hcond hplace hconn hanswers.1 hvisited
        refine Or.inr ⟨responsesTo conn s.log, _, hrequests, fun hnone => ?_, hsentOn, ?_,
          fun fd' hopen' => ?_⟩
        · have hlisted := h.queued fd conn hconn
          rw [hnone, List.map_eq_nil_iff, ← pendingOf_eq_filter h hconn] at hlisted
          · exact hanswers.2.1 hlisted
          · intro entry hentry
            obtain ⟨hlisted, hfd⟩ := List.mem_filter.mp hentry
            rw [hconn, ht.fresh fd hconn entry hlisted (of_decide_eq_true hfd)]
        · rw [hnextConn]
          exact hc.fds.fresh fd conn hconn
        · exact (open_of_visited hc.fds hconn hvisited hopen').2 rfl (Or.inl hsent)
  · obtain ⟨hsentOn, hresponses⟩ := @logs_of_ne conn conn' s.log _ hne.symm
      (@conn_of_visited conn sent (readRequests setrd fd visit) last hlast)
    refine ⟨?_, hfresh, ?_⟩
    · rw [hlog, hresponses, ht.requests, List.flatMap_append, receipt_visit hplace hconn,
        if_neg hne, List.append_nil]
    · rw [hlog, hsentOn, hresponses, hnextConn]
      apply ht.answered.imp_right
      rintro ⟨done, left, hsplit, hdone, hsent, hlt, hclosed⟩
      exact ⟨done, left, hsplit, hdone, hsent, hlt,
        fun fd' hopen' => hclosed fd' (hopen fd' hopen')⟩

end Visits

theorem tracked_serverStep {s s' : Server} {action : Action} {conn : Nat} {received : List Recv}
    (hc : Consistent s) (h : Ledger s) (ht : Tracked conn received s)
    (hcond : Undisturbed conn s action) (hstep : serverStep s action = some s') :
    Tracked conn (received ++ receipt conn s action) s' := by
  cases moves_of_serverStep hstep with
  | accept fd fds haccept =>
      have hrequests := ht.requests
      rw [← List.append_nil received] at hrequests
      refine ⟨hrequests, fun fd' hopen entry hentry hfd => ?_, ?_⟩
      · rcases (open_of_accept_iff haccept).mp hopen with ⟨rfl, hnew⟩ | ⟨_, hold⟩
        · exact absurd hfd (hcond hnew.symm entry hentry)
        · exact ht.fresh fd' hold entry hentry hfd
      · apply ht.answered.imp_right
        rintro ⟨done, left, hsplit, hdone, hsent, hlt, hclosed⟩
        refine ⟨done, left, hsplit, hdone, hsent, ?_, fun fd' hopen => ?_⟩
        · change conn < fds.nextConn
          rw [nextConn_of_accept haccept]
          exact Nat.lt_succ_of_lt hlt
        · rcases (open_of_accept_iff haccept).mp hopen with ⟨_, hnew⟩ | ⟨_, hold⟩
          · exact absurd hnew (Nat.ne_of_lt hlt)
          · exact hclosed fd' hold
  | insert fds hinsert hunlocked =>
      obtain ⟨fd, _, rfl⟩ := insert_eq_some hinsert
      exact (List.append_nil received).symm ▸ ⟨ht.requests, ht.fresh, ht.answered⟩
  | select setrd setwd hidle =>
      exact (List.append_nil received).symm ▸ ⟨ht.requests, ht.fresh, ht.answered⟩
  | lock setrd setwd hselected =>
      exact (List.append_nil received).symm ▸ ⟨ht.requests, ht.fresh, ht.answered⟩
  | visit setrd setwd fd rest conn' visit s' kept sent hplace hconn hvisited =>
      exact tracked_visit hc h ht hcond hplace hconn hvisited
  | unlock setrd setwd hplace =>
      exact (List.append_nil received).symm ▸ ⟨ht.requests, ht.fresh, ht.answered⟩

theorem tracked_start (conn : Nat) : Tracked conn [] Server.start where
  requests := rfl
  fresh := fun _ _ _ hentry => absurd hentry List.not_mem_nil
  answered := Or.inl rfl

theorem tracked_run {conn : Nat} {actions : List Action} :
    ∀ {s : Server}, run serverStep .start actions = some s →
      EveryStep serverStep (Undisturbed conn) .start actions →
      Consistent s ∧ Ledger s ∧ Tracked conn (receipts conn .start actions) s := by
  induction actions using List.reverseRecOn with
  | nil =>
      intro s hrun _
      obtain rfl := Option.some.inj hrun
      exact ⟨consistent_start, ledger_start, tracked_start conn⟩
  | append_singleton actions action ih =>
      intro s hrun hcond
      obtain ⟨earlier, hearlier, hstep⟩ := run_concat_eq_some.mp hrun
      obtain ⟨hc, hl, ht⟩ := ih hearlier (hcond.of_prefix (List.prefix_append _ _))
      refine ⟨consistent_serverStep hc hstep, ledger_serverStep hc hl hstep, ?_⟩
      rw [receipts_concat hearlier]
      exact tracked_serverStep hc hl ht
        (hcond actions action (List.prefix_refl _) earlier s hearlier hstep) hstep

theorem answeredWith_of_single {piece : Received} {conn : Nat} {actions : List Action} {s : Server}
    (hrun : run serverStep .start actions = some s)
    (hcond : EveryStep serverStep (Undisturbed conn) .start actions)
    (hreceipts : receipts conn .start actions <+: [.got piece]) :
    AnsweredWith piece.response conn actions s := by
  have hprefixes : ∀ {received : List Recv}, received <+: [.got piece] →
      received.flatMap responseOf = [] ∨ received.flatMap responseOf = [piece.response] := by
    intro received hreceived
    rcases List.prefix_concat_iff.mp (show received <+: [] ++ [.got piece] from hreceived) with
      rfl | hnone
    · exact Or.inr rfl
    · rw [List.prefix_nil.mp hnone]
      exact Or.inl rfl
  constructor
  · obtain ⟨_, _, ht⟩ := tracked_run hrun hcond
    apply ht.answered.imp_right
    rintro ⟨done, left, hsplit, hdone, hsent, _⟩
    rw [ht.requests] at hsplit
    rcases hprefixes hreceipts with hnone | hone
    · rw [hnone] at hsplit
      exact absurd (List.append_eq_nil_iff.mp hsplit.symm).1 hdone
    · rw [hone] at hsplit
      obtain ⟨first, others, rfl⟩ := List.exists_cons_of_ne_nil hdone
      obtain ⟨rfl, hnil⟩ := List.cons.inj hsplit
      rw [hsent, (List.append_eq_nil_iff.mp hnil.symm).1, List.flatten_singleton]
  · rintro ⟨earlier, visit, before, setrd, setwd, fd, rest, rfl, hearlier, hplace, hconn, hmem, hne⟩
    obtain ⟨between, hbetween, hstep⟩ := run_concat_eq_some.mp hrun
    obtain rfl := Option.some.inj (hearlier.symm.trans hbetween)
    obtain ⟨hc, hl, ht⟩ := tracked_run hearlier (hcond.of_prefix (List.prefix_append _ _))
    have hlast := hcond earlier (.visit visit) (List.prefix_refl _) before s hearlier hstep
    rw [receipts_concat hearlier] at hreceipts
    have hshorter := (List.prefix_append (receipts conn .start earlier) _).trans hreceipts
    have hone : receipts conn .start earlier = [.got piece] := by
      rcases List.prefix_concat_iff.mp (show _ <+: [] ++ [Recv.got piece] from hshorter) with
        hone | hnone
      · exact hone
      · exact absurd (List.prefix_nil.mp hnone) hne
    cases moves_of_serverStep hstep with
    | visit setrd' setwd' fd' rest' conn' visit' s' kept sent hplace' hconn' hvisited =>
        rw [hplace] at hplace'
        obtain ⟨rfl, rfl, hcons⟩ := Place.visiting.inj hplace'
        obtain ⟨rfl, rfl⟩ := List.cons.inj hcons
        obtain rfl := Option.some.inj (hconn.symm.trans hconn')
        rw [answered_visit hl ht hlast hplace hconn hmem hvisited, ht.requests, hone]
        exact List.append_nil _

def answerVisit (responses : List Bytes) : Visit :=
  { sends := fun k => some (responses.getD k []).length, recv := .failed }

/-- The last pass, in which the responses are sent. -/
def answerPass (responses : List Bytes) : List Action :=
  [.select [] [5], .lock, .visit (answerVisit responses)]

/-- The connection is not writable before the last of the pieces has come. -/
def schedule (pieces : List Received) : List Action :=
  [.accept 5, .insert] ++ pieces.flatMap receivePass ++ answerPass (pieces.map Received.response)

section Schedule

variable (pieces : List Received) (piece : Received)

theorem undisturbed_received :
    EveryStep serverStep (Undisturbed 0) .start
      ([.accept 5, .insert] ++ pieces.flatMap receivePass) := by
  induction pieces using List.reverseRecOn with
  | nil => simp [Undisturbed, Server.start]
  | append_singleton pieces piece ih =>
      rw [List.flatMap_append, ← List.append_assoc, List.flatMap_singleton]
      apply everyStep_append ih
      intro s hrun
      obtain rfl := Option.some.inj ((run_received pieces).symm.trans hrun)
      simp [receivePass, serverStep, holding, Undisturbed]

theorem receipts_received :
    receipts 0 .start ([.accept 5, .insert] ++ pieces.flatMap receivePass) =
      pieces.map .got := by
  induction pieces using List.reverseRecOn with
  | nil => rfl
  | append_singleton pieces piece ih =>
      rw [List.flatMap_append, ← List.append_assoc, receipts_append (run_received pieces), ih,
        List.map_append, List.flatMap_singleton]
      apply congrArg
      simp [receivePass, receipts, receipt, serverStep, holding, visitFd, writeBranch, readBranch,
        closeBranch]

theorem sendLoop_pendingFor {sends : Nat → Option Nat} :
    ∀ k, (∀ (j : Nat) piece, pieces[j]? = some piece → sends (k + j) = some piece.response.length) →
      sendLoop 5 sends k (pieces.map pendingFor) =
        some ([], pieces.map fun piece => (pendingFor piece, piece.response.length)) := by
  induction pieces with
  | nil => exact fun _ _ => rfl
  | cons piece pieces ih =>
      intro k hsends
      have hrest := ih (k + 1) fun j other hother => by
        rw [Nat.add_assoc, Nat.add_comm 1 j]
        exact hsends (j + 1) other hother
      have htaken : 1 ≤ piece.response.length := Nat.le_of_lt piece.one_lt_length_response
      have hsend : sends k = some piece.response.length := hsends 0 piece rfl
      rw [List.map_cons, sendLoop, if_neg (fun hfd => hfd rfl), hsend]
      simp only [pendingFor, piece.cStr_response, htaken, le_refl, and_self, if_true]
      change ((sendLoop 5 sends (k + 1) (pieces.map pendingFor)).bind _) = _
      rw [hrest]
      rfl

theorem pendingOf_pendingFor : pendingOf 5 (pieces.map pendingFor) = pieces.map pendingFor := by
  apply List.filter_eq_self.mpr
  intro entry hentry
  obtain ⟨piece, _, rfl⟩ := List.mem_map.mp hentry
  rfl

theorem sends_answerVisit (j : Nat) (h : pieces[j]? = some piece) :
    (answerVisit (pieces.map Received.response)).sends j = some piece.response.length := by
  simp only [answerVisit, List.getD_eq_getElem?_getD, List.getElem?_map, h, Option.map_some,
    Option.getD_some]

theorem sentOn_holding : sentOn 0 (holding pieces).log = [] := by
  apply sentOn_eq_nil
  intro event hevent
  obtain ⟨piece, _, rfl⟩ := List.mem_map.mp hevent
  rfl

theorem sentOn_responses :
    sentOn 0 ((pieces.map fun piece => (pendingFor piece, piece.response.length)).map
      (sentEvent 0)) = pieces.flatMap Received.response := by
  rw [sentOn, List.map_map, List.flatMap_map]
  refine List.flatMap_congr fun piece _ => ?_
  simp only [Function.comp, sentEvent, bytesOn, if_true, pendingFor, piece.cStr_response,
    List.take_length]

theorem sentOn_closeBranch (s : Server) (fd conn : Nat) (bClosed : Bool) :
    sentOn conn (closeBranch s fd conn bClosed).log = sentOn conn s.log := by
  cases bClosed with
  | false => rfl
  | true => exact (sentOn_append conn s.log [.closed conn]).trans (List.append_nil _)

theorem run_answerPass :
    ∃ s, run serverStep (holding pieces) (answerPass (pieces.map Received.response)) = some s ∧
      sentOn 0 s.log = pieces.flatMap Received.response := by
  have hsends : sendLoop 5 (answerVisit (pieces.map Received.response)).sends 0
      (pieces.map pendingFor) =
        some ([], pieces.map fun piece => (pendingFor piece, piece.response.length)) := by
    refine sendLoop_pendingFor pieces 0 fun j piece hpiece => ?_
    rw [Nat.zero_add, sends_answerVisit pieces piece j hpiece]
  refine ⟨closeBranch
    { holding pieces with
      listMsgs := []
      place := .visiting [] [5] []
      log := (holding pieces).log ++
        (pieces.map fun piece => (pendingFor piece, piece.response.length)).map (sentEvent 0) }
    5 0 (!(pieces.map fun piece => (pendingFor piece, piece.response.length)).isEmpty), ?_, ?_⟩
  · simp [answerPass, serverStep, holding, visitFd, writeBranch, readBranch, hsends]
    rfl
  · rw [sentOn_closeBranch, sentOn_append, sentOn_holding, sentOn_responses, List.nil_append]

theorem run_schedule :
    ∃ s, run serverStep .start (schedule pieces) = some s ∧
      sentOn 0 s.log = pieces.flatMap Received.response := by
  rw [schedule, run_append, run_received]
  exact run_answerPass pieces

theorem undisturbed_schedule : EveryStep serverStep (Undisturbed 0) .start (schedule pieces) := by
  apply everyStep_append (undisturbed_received pieces)
  intro s hrun
  obtain rfl := Option.some.inj ((run_received pieces).symm.trans hrun)
  have hwhole : ∀ (k : Nat) entry, (pendingOf 5 (pieces.map pendingFor))[k]? = some entry →
      (answerVisit (pieces.map Received.response)).sends k = some entry.response.length := by
    intro k entry hentry
    rw [pendingOf_pendingFor, List.getElem?_map] at hentry
    obtain ⟨piece, hpiece, rfl⟩ := Option.map_eq_some_iff.mp hentry
    exact sends_answerVisit pieces piece k hpiece
  simpa [answerPass, serverStep, holding, Undisturbed] using fun _ _ => hwhole

theorem receipts_schedule : receipts 0 .start (schedule pieces) = pieces.map .got := by
  rw [schedule, receipts_append (run_received pieces), receipts_received]
  have hnone : receipts 0 (holding pieces) (answerPass (pieces.map Received.response)) = [] := by
    simp [answerPass, receipts, receipt, serverStep, holding]
    split
    · rfl
    · rfl
  rw [hnone, List.append_nil]

end Schedule

/-- Two pieces that are received before the connection is writable get two responses. -/
theorem not_answered_of_split {cut : Cut} {piece piece' : Received} {more : List Received}
    (hpieces : cut.pieces = piece :: piece' :: more) :
    ¬ Answered cut 0 (schedule [piece, piece']) := by
  intro h
  obtain ⟨s, hrun, hsent⟩ := run_schedule [piece, piece']
  rw [List.flatMap_cons, List.flatMap_singleton] at hsent
  have hreceived : receipts 0 .start (schedule [piece, piece']) <+: cut.pieces.map .got := by
    rw [receipts_schedule, hpieces]
    exact List.prefix_append [Recv.got piece, Recv.got piece'] (more.map Recv.got)
  rcases (h s hrun hreceived).once with hnothing | hwhole
  · rw [hsent] at hnothing
    exact piece.response_ne_nil (List.append_eq_nil_iff.mp hnothing).1
  · rw [hsent] at hwhole
    exact piece'.response_ne_nil (makeHttpResponse_prefix_free hwhole)

/-- The connection is sent one byte. -/
def shortSchedule (piece : Received) : List Action :=
  [.accept 5, .insert] ++ [piece].flatMap receivePass ++
    [.select [] [5], .lock, .visit { sends := fun _ => some 1, recv := .failed }]

theorem run_shortSchedule (piece : Received) :
    ∃ s, run serverStep .start (shortSchedule piece) = some s ∧
      sentOn 0 s.log = piece.response.take 1 := by
  have hsends : sendLoop 5 (fun _ => some 1) 0 [pendingFor piece] =
      some ([], [(pendingFor piece, 1)]) := by
    have htaken : 1 ≤ (cStr piece.response).length := by
      rw [piece.cStr_response]
      exact Nat.le_of_lt piece.one_lt_length_response
    rw [sendLoop, if_neg (fun hfd => hfd rfl)]
    simp only [pendingFor, htaken, le_refl, and_self, if_true]
    rfl
  refine ⟨closeBranch
    { holding [piece] with
      listMsgs := []
      place := .visiting [] [5] []
      log := (holding [piece]).log ++ [(pendingFor piece, 1)].map (sentEvent 0) } 5 0 true, ?_, ?_⟩
  · rw [shortSchedule, run_append, run_received]
    simp [serverStep, holding, visitFd, writeBranch, readBranch, hsends]
    rfl
  · rw [sentOn_closeBranch, sentOn_append, sentOn_holding, List.nil_append]
    simp [sentOn, sentEvent, bytesOn, pendingFor, piece.cStr_response]

theorem receipts_shortSchedule (piece : Received) :
    receipts 0 .start (shortSchedule piece) = [.got piece] := by
  rw [shortSchedule, receipts_append (run_received [piece]), receipts_received]
  have hnone : receipts 0 (holding [piece])
      [.select [] [5], .lock, .visit { sends := fun _ => some 1, recv := .failed }] = [] := by
    simp [receipts, receipt, serverStep, holding]
    split
    · rfl
    · rfl
  rw [hnone]
  rfl

theorem not_answered_of_short {cut : Cut} {piece : Received} {more : List Received}
    (hpieces : cut.pieces = piece :: more) : ¬ Answered cut 0 (shortSchedule piece) := by
  intro h
  obtain ⟨s, hrun, hsent⟩ := run_shortSchedule piece
  have hreceived : receipts 0 .start (shortSchedule piece) <+: cut.pieces.map .got := by
    rw [receipts_shortSchedule, hpieces]
    exact List.prefix_append [Recv.got piece] (more.map Recv.got)
  have hlength : (piece.response.take 1).length = 1 :=
    List.length_take_of_le (Nat.le_of_lt piece.one_lt_length_response)
  rcases (h s hrun hreceived).once with hnothing | hwhole
  · rw [← hsent, hnothing] at hlength
    cases hlength
  · rw [← hsent, hwhole] at hlength
    have hlong : 1 < cut.response.length := one_lt_length_makeHttpResponse _ _ _
    omega

theorem response_of_single {cut : Cut} {piece : Received} (hpieces : cut.pieces = [piece])
    (hterminated : piece.bytes.length = MSG_SIZE → cStr piece.behindMsg = []) :
    piece.response = cut.response := by
  have hbytes : piece.bytes = cut.request := by
    have hjoined := cut.joined
    rw [hpieces] at hjoined
    exact (List.append_nil _).symm.trans hjoined
  have htext : piece.text = cut.request := by
    rw [Received.text, bufferText, hbytes]
    split
    · exact cStr_eq_self cut.noNul
    · rename_i hfull
      have hlength := piece.length_le
      rw [hbytes] at hterminated hlength
      rw [cStr_append cut.noNul, hterminated (by omega), List.append_nil]
  obtain ⟨hunset, hpeer, haround⟩ := cut.shared piece (hpieces ▸ List.mem_cons_self)
  rw [Received.response_eq, Received.parsed, htext, hunset, hpeer, haround]
  rfl

/-- A request that comes in one piece gets its response, whatever happens on other
connections.  One that is cut does not, where the connection is not writable in
between, and none does where a send takes one byte. -/
theorem answered_of_undivided (cut : Cut) :
    (∀ conn actions, Undivided cut conn actions → Answered cut conn actions) ∧
      ((∀ conn actions, EveryStep serverStep (Undisturbed conn) .start actions →
        Answered cut conn actions) → ∃ piece, cut.pieces = [piece]) ∧
      ∃ conn actions, ¬ Answered cut conn actions := by
  obtain ⟨piece, more, hpieces⟩ := List.exists_cons_of_ne_nil cut.pieces_ne_nil
  refine ⟨fun conn actions h s hrun hreceived => ?_, fun h => ?_,
    0, shortSchedule piece, not_answered_of_short hpieces⟩
  · obtain ⟨piece, hpieces, hterminated⟩ := h.single
    rw [hpieces] at hreceived
    rw [← response_of_single hpieces hterminated]
    exact answeredWith_of_single hrun h.undisturbed hreceived
  · cases more with
    | nil => exact ⟨piece, hpieces⟩
    | cons piece' more =>
        exact absurd (h 0 _ (undisturbed_schedule [piece, piece'])) (not_answered_of_split hpieces)

def linePiece (line : String) (hne : literal line ≠ [])
    (hlength : (literal line).length ≤ MSG_SIZE) : Received where
  bytes := literal line
  bytes_ne_nil := hne
  length_le := hlength
  behindMsg := []
  unset := .UNKNOWN
  peer := none
  around := { files := fun _ => none, behindContent := [] }

/-- A request whose lines come one by one. -/
def lineByLine : Cut where
  request := literal "GET / 1\r\na: b\r\nc: d"
  noNul := by decide
  pieces := [linePiece "GET / 1\r\n" (by decide) (by decide),
    linePiece "a: b\r\n" (by decide) (by decide), linePiece "c: d" (by decide) (by decide)]
  pieces_ne_nil := List.cons_ne_nil _ _
  joined := by decide
  unset := .UNKNOWN
  peer := none
  around := { files := fun _ => none, behindContent := [] }
  shared := by simp [linePiece]

theorem lineByLine_not_answered : ¬ ∀ conn actions, Answered lineByLine conn actions :=
  fun h => not_answered_of_split rfl (h 0 _)

end StudyLinuxKernel.Http.Segmentation
