import StudyLinuxKernel.Http.Response
import StudyLinuxKernel.Library.PartialStep
import StudyLinuxKernel.Socket.AcceptedSet

namespace StudyLinuxKernel.Http.SelectServer

open StudyLinuxKernel.Http.Request
open StudyLinuxKernel.Http.Response
open StudyLinuxKernel.Http.Text
open StudyLinuxKernel.Libc.Text
open StudyLinuxKernel.Library.PartialStep
open StudyLinuxKernel.Socket.AcceptedSet

/-- A positive result of `recv`, with all that the answer to it depends on. -/
structure Received where
  bytes : Bytes
  bytes_ne_nil : bytes ≠ []
  length_le : bytes.length ≤ MSG_SIZE
  behindMsg : Bytes
  unset : Method
  peer : Option Peer
  around : Surroundings

/-- The parser's result is not looked at. -/
def Received.response (received : Received) : Bytes :=
  let httpReq := (parseHttpRequest (bufferText MSG_SIZE received.bytes received.behindMsg)
    (.fresh received.unset)).2
  makeHttpResponse received.around httpReq (getRemoteHost received.peer)

/-- What the parser gets. -/
def Received.text (received : Received) : Bytes :=
  bufferText MSG_SIZE received.bytes received.behindMsg

/-- What the parser answers, and the request as it leaves it. -/
def Received.parsed (received : Received) : Bool × HttpRequest :=
  parseHttpRequest received.text (.fresh received.unset)

theorem Received.response_eq (received : Received) :
    received.response =
      makeHttpResponse received.around received.parsed.2 (getRemoteHost received.peer) := rfl

theorem Received.cStr_response (received : Received) :
    cStr received.response = received.response :=
  cStr_eq_self (zero_not_mem_makeHttpResponse _ _ _)

theorem Received.one_lt_length_response (received : Received) : 1 < received.response.length :=
  one_lt_length_makeHttpResponse _ _ _

theorem Received.response_ne_nil (received : Received) : received.response ≠ [] :=
  List.length_pos_iff.mp (Nat.lt_of_succ_lt received.one_lt_length_response)

inductive Recv where
  | failed
  | got (received : Received)

/-- What the calls of one visit of a descriptor return: `sends k` is the result
of the `k`-th `send`, `none` standing for -1. -/
structure Visit where
  sends : Nat → Option Nat
  recv : Recv

/-- A pair of `listMsgs`; `origin` is the connection that the request came from. -/
structure Pending where
  fd : Nat
  response : Bytes
  origin : Nat

inductive Event where
  | request (conn : Nat) (response : Bytes)
  | sent (conn origin : Nat) (bytes : Bytes)
  | closed (conn : Nat)

def Event.conn : Event → Nat
  | .request conn _ => conn
  | .sent conn _ _ => conn
  | .closed conn => conn

/-- Where `_thread_func` is; it holds the mutex while it visits descriptors. -/
inductive Place where
  | idle
  | selected (setrd setwd : List Nat)
  | visiting (setrd setwd rest : List Nat)

structure Server where
  fds : Descriptors
  listMsgs : List Pending
  place : Place
  log : List Event

def Server.start : Server :=
  { fds := .start, listMsgs := [], place := .idle, log := [] }

inductive Action where
  | accept (fd : Nat)
  | insert
  | select (setrd setwd : List Nat)
  | lock
  | visit (visit : Visit)
  | unlock

/-- The loop over `listMsgs` for one descriptor, before its `k`-th send.  The
results are what stays on the list, and the entries sent with the number of
bytes that `send` took; a number that `send` cannot return has no result. -/
def sendLoop (fd : Nat) (sends : Nat → Option Nat) :
    Nat → List Pending → Option (List Pending × List (Pending × Nat))
  | _, [] => some ([], [])
  | k, entry :: rest =>
      if entry.fd ≠ fd then do
        let (kept, sent) ← sendLoop fd sends k rest
        some (entry :: kept, sent)
      else
        match sends k with
        | none => some (entry :: rest, [])
        | some n =>
            if 1 ≤ n ∧ n ≤ (cStr entry.response).length then do
              let (kept, sent) ← sendLoop fd sends (k + 1) rest
              some (kept, (entry, n) :: sent)
            else none

/-- The write branch; the flag is `bClosed`. -/
def writeBranch (s : Server) (fd conn : Nat) (writable : Bool) (visit : Visit) :
    Option (Bool × Server) :=
  if writable then do
    let (kept, sent) ← sendLoop fd visit.sends 0 s.listMsgs
    some (!sent.isEmpty,
      { s with
        listMsgs := kept
        log := s.log ++ sent.map fun (entry, n) =>
          .sent conn entry.origin ((cStr entry.response).take n) })
  else some (false, s)

def readBranch (s : Server) (fd conn : Nat) (readable : Bool) (visit : Visit) (bClosed : Bool) :
    Bool × Server :=
  if readable then
    match visit.recv with
    | .failed => (true, s)
    | .got received =>
        (bClosed,
          { s with
            listMsgs := s.listMsgs ++ [{ fd, response := received.response, origin := conn }]
            log := s.log ++ [.request conn received.response] })
  else (bClosed, s)

def closeBranch (s : Server) (fd conn : Nat) (bClosed : Bool) : Server :=
  if bClosed then
    { s with fds := s.fds.close fd, log := s.log ++ [.closed conn] }
  else s

/-- One round of the loop over the accepted descriptors. -/
def visitFd (s : Server) (setrd setwd : List Nat) (fd conn : Nat) (visit : Visit) :
    Option Server := do
  let (bClosed, s) ← writeBranch s fd conn (decide (fd ∈ setwd)) visit
  let (bClosed, s) := readBranch s fd conn (decide (fd ∈ setrd)) visit bClosed
  some (closeBranch s fd conn bClosed)

def serverStep (s : Server) : Action → Option Server
  | .accept fd => do
      let fds ← s.fds.accept fd
      some { s with fds := fds }
  | .insert =>
      match s.place with
      | .visiting _ _ _ => none
      | _ => do
          let fds ← s.fds.insert
          some { s with fds := fds }
  | .select setrd setwd =>
      match s.place with
      | .idle =>
          if s.fds.accepted ≠ [] ∧ setrd ++ setwd ≠ [] ∧ setrd ++ setwd ⊆ s.fds.accepted then
            some { s with place := .selected setrd setwd }
          else none
      | _ => none
  | .lock =>
      match s.place with
      | .selected setrd setwd => some { s with place := .visiting setrd setwd s.fds.accepted }
      | _ => none
  | .visit visit =>
      match s.place with
      | .visiting setrd setwd (fd :: rest) => do
          let conn ← s.fds.table fd
          visitFd { s with place := .visiting setrd setwd rest } setrd setwd fd conn visit
      | _ => none
  | .unlock =>
      match s.place with
      | .visiting _ _ [] => some { s with place := .idle }
      | _ => none

def pendingOf (fd : Nat) (listMsgs : List Pending) : List Pending :=
  listMsgs.filter (·.fd = fd)

/-- What the loop over `listMsgs` does: it sends the first of the entries of
the descriptor, up to the first failure, and leaves the others. -/
structure Sending (fd : Nat) (sends : Nat → Option Nat) (k : Nat) (listMsgs kept : List Pending)
    (sent : List (Pending × Nat)) : Prop where
  pending : sent.map Prod.fst ++ pendingOf fd kept = pendingOf fd listMsgs
  others : kept.filter (·.fd ≠ fd) = listMsgs.filter (·.fd ≠ fd)
  subset : kept ⊆ listMsgs
  results : ∀ (j : Nat) (entry : Pending) (n : Nat), sent[j]? = some (entry, n) →
    sends (k + j) = some n ∧ 1 ≤ n ∧ n ≤ (cStr entry.response).length
  stopped : pendingOf fd kept ≠ [] → sends (k + sent.length) = none

theorem sendLoop_spec {fd : Nat} {sends : Nat → Option Nat} (listMsgs : List Pending) :
    ∀ {k kept sent}, sendLoop fd sends k listMsgs = some (kept, sent) →
      Sending fd sends k listMsgs kept sent := by
  induction listMsgs with
  | nil =>
      intro k kept sent h
      obtain ⟨rfl, rfl⟩ := Prod.mk.inj (Option.some.inj h)
      exact ⟨rfl, rfl, List.Subset.refl _, fun j _ _ hj => by simp at hj, fun h => absurd rfl h⟩
  | cons entry rest ih =>
      intro k kept sent h
      rw [sendLoop] at h
      split at h
      · rename_i hfd
        obtain ⟨⟨kept', sent'⟩, hloop, hresult⟩ := Option.bind_eq_some_iff.mp h
        obtain ⟨rfl, rfl⟩ := Prod.mk.inj (Option.some.inj hresult)
        have hrest := ih hloop
        refine ⟨?_, ?_, List.cons_subset_cons entry hrest.subset, hrest.results, ?_⟩
        · rw [pendingOf, pendingOf, List.filter_cons_of_neg (by simpa using hfd),
            List.filter_cons_of_neg (by simpa using hfd)]
          exact hrest.pending
        · rw [List.filter_cons_of_pos (by simpa using hfd),
            List.filter_cons_of_pos (by simpa using hfd), hrest.others]
        · rw [pendingOf, List.filter_cons_of_neg (by simpa using hfd)]
          exact hrest.stopped
      · rename_i hfd
        rw [ne_eq, not_not] at hfd
        split at h
        · rename_i hfailed
          obtain ⟨rfl, rfl⟩ := Prod.mk.inj (Option.some.inj h)
          exact ⟨rfl, rfl, List.Subset.refl _, fun j _ _ hj => by simp at hj, fun _ => hfailed⟩
        · rename_i n hsend
          split at h
          · rename_i hcount
            obtain ⟨⟨kept', sent'⟩, hloop, hresult⟩ := Option.bind_eq_some_iff.mp h
            obtain ⟨rfl, rfl⟩ := Prod.mk.inj (Option.some.inj hresult)
            have hrest := ih hloop
            refine ⟨?_, ?_, List.subset_cons_of_subset entry hrest.subset, ?_, ?_⟩
            · have hpending := hrest.pending
              rw [pendingOf] at hpending ⊢
              rw [pendingOf, List.filter_cons_of_pos (by simpa using hfd), List.map_cons,
                List.cons_append, hpending, pendingOf]
            · rw [List.filter_cons_of_neg (by simpa using hfd)]
              exact hrest.others
            · intro j other m hj
              cases j with
              | zero =>
                  obtain ⟨rfl, rfl⟩ := Prod.mk.inj (Option.some.inj hj)
                  exact ⟨hsend, hcount⟩
              | succ j =>
                  rw [Nat.add_comm j 1, ← Nat.add_assoc]
                  exact hrest.results j other m hj
            · intro hleft
              rw [List.length_cons, Nat.add_comm sent'.length 1, ← Nat.add_assoc]
              exact hrest.stopped hleft
          · cases h

/-- The responses that a visit queues. -/
def readRequests (setrd : List Nat) (fd : Nat) (visit : Visit) : List Bytes :=
  if fd ∈ setrd then
    match visit.recv with
    | .failed => []
    | .got received => [received.response]
  else []

theorem mem_readRequests {setrd : List Nat} {fd : Nat} {visit : Visit} {response : Bytes}
    (h : response ∈ readRequests setrd fd visit) :
    ∃ received : Received, response = received.response := by
  rw [readRequests] at h
  split at h
  · split at h
    · exact absurd h List.not_mem_nil
    · rename_i received _
      exact ⟨received, List.mem_singleton.mp h⟩
  · exact absurd h List.not_mem_nil

def RecvFails (setrd : List Nat) (fd : Nat) (visit : Visit) : Prop :=
  fd ∈ setrd ∧ visit.recv = .failed

def sentEvent (conn : Nat) (entry : Pending × Nat) : Event :=
  .sent conn entry.1.origin ((cStr entry.1.response).take entry.2)

/-- All that a visit can do. -/
structure Visited (s s' : Server) (setrd setwd : List Nat) (fd conn : Nat) (visit : Visit)
    (kept : List Pending) (sent : List (Pending × Nat)) : Prop where
  writable : fd ∈ setwd → Sending fd visit.sends 0 s.listMsgs kept sent
  notWritable : fd ∉ setwd → kept = s.listMsgs ∧ sent = []
  listMsgs : s'.listMsgs = kept ++ (readRequests setrd fd visit).map fun response =>
    { fd, response, origin := conn }
  place : s'.place = s.place
  closes : sent ≠ [] ∨ RecvFails setrd fd visit → s'.fds = s.fds.close fd ∧
    s'.log = s.log ++ sent.map (sentEvent conn) ++
      (readRequests setrd fd visit).map (.request conn) ++ [.closed conn]
  stays : ¬ (sent ≠ [] ∨ RecvFails setrd fd visit) → s'.fds = s.fds ∧
    s'.log = s.log ++ (readRequests setrd fd visit).map (.request conn)

theorem writeBranch_spec {s s₁ : Server} {fd conn : Nat} {setwd : List Nat} {visit : Visit}
    {bClosed : Bool}
    (h : writeBranch s fd conn (decide (fd ∈ setwd)) visit = some (bClosed, s₁)) :
    ∃ kept sent, (fd ∈ setwd → Sending fd visit.sends 0 s.listMsgs kept sent) ∧
      (fd ∉ setwd → kept = s.listMsgs ∧ sent = []) ∧
      (bClosed = true ↔ sent ≠ []) ∧
      s₁ = { s with listMsgs := kept, log := s.log ++ sent.map (sentEvent conn) } := by
  rw [writeBranch] at h
  split at h
  · rename_i hwritable
    obtain ⟨⟨kept, sent⟩, hloop, hresult⟩ := Option.bind_eq_some_iff.mp h
    obtain ⟨rfl, rfl⟩ := Prod.mk.inj (Option.some.inj hresult)
    refine ⟨kept, sent, fun _ => sendLoop_spec s.listMsgs hloop,
      fun hnot => absurd (of_decide_eq_true hwritable) hnot, by simp, rfl⟩
  · rename_i hwritable
    obtain ⟨rfl, rfl⟩ := Prod.mk.inj (Option.some.inj h)
    refine ⟨s.listMsgs, [], fun hmem => absurd (decide_eq_true hmem) hwritable,
      fun _ => ⟨rfl, rfl⟩, by simp, ?_⟩
    rw [List.map_nil, List.append_nil]

theorem readBranch_spec (s : Server) (fd conn : Nat) (setrd : List Nat) (visit : Visit)
    (bClosed : Bool) :
    ((readBranch s fd conn (decide (fd ∈ setrd)) visit bClosed).1 = true ↔
      bClosed = true ∨ RecvFails setrd fd visit) ∧
    (readBranch s fd conn (decide (fd ∈ setrd)) visit bClosed).2 =
      { s with
        listMsgs := s.listMsgs ++ (readRequests setrd fd visit).map fun response =>
          { fd, response, origin := conn }
        log := s.log ++ (readRequests setrd fd visit).map (.request conn) } := by
  rw [readBranch, readRequests]
  rcases Decidable.em (fd ∈ setrd) with hmem | hmem
  · rw [if_pos (decide_eq_true hmem), if_pos hmem]
    cases hrecv : visit.recv with
    | failed => simp [RecvFails, hmem, hrecv]
    | got received => simp [RecvFails, hrecv]
  · rw [if_neg (by simpa using hmem), if_neg hmem]
    simp [RecvFails, hmem]

theorem visitFd_spec {s s' : Server} {setrd setwd : List Nat} {fd conn : Nat} {visit : Visit}
    (h : visitFd s setrd setwd fd conn visit = some s') :
    ∃ kept sent, Visited s s' setrd setwd fd conn visit kept sent := by
  rw [visitFd] at h
  obtain ⟨⟨bClosed, s₁⟩, hwrite, hclose⟩ := Option.bind_eq_some_iff.mp h
  obtain ⟨kept, sent, hwritable, hnotWritable, hsent, rfl⟩ := writeBranch_spec hwrite
  obtain ⟨hflag, hread⟩ := readBranch_spec
    { s with listMsgs := kept, log := s.log ++ sent.map (sentEvent conn) } fd conn setrd visit
    bClosed
  generalize hbranch : readBranch
    { s with listMsgs := kept, log := s.log ++ sent.map (sentEvent conn) } fd conn
    (decide (fd ∈ setrd)) visit bClosed = branch at hflag hread
  obtain ⟨closed, s₂⟩ := branch
  obtain rfl : s₂ = _ := hread
  simp only [hbranch, Option.some.injEq] at hclose
  subst hclose
  rw [hsent] at hflag
  refine ⟨kept, sent, hwritable, hnotWritable, ?_, ?_, fun hcloses => ?_, fun hstays => ?_⟩
  all_goals rw [closeBranch]
  · split <;> rfl
  · split <;> rfl
  · rw [if_pos (hflag.mpr hcloses)]
    exact ⟨rfl, rfl⟩
  · have hnothing : sent = [] := Classical.not_not.mp fun hne => hstays (Or.inl hne)
    rw [if_neg (mt hflag.mp hstays), hnothing, List.map_nil, List.append_nil]
    exact ⟨rfl, rfl⟩

/-- The steps, by what they require and what they do. -/
inductive Moves (s : Server) : Action → Server → Prop
  | accept (fd : Nat) (fds : Descriptors) (haccept : s.fds.accept fd = some fds) :
      Moves s (.accept fd) { s with fds := fds }
  | insert (fds : Descriptors) (hinsert : s.fds.insert = some fds)
      (hunlocked : ∀ setrd setwd rest, s.place ≠ .visiting setrd setwd rest) :
      Moves s .insert { s with fds := fds }
  | select (setrd setwd : List Nat) (hidle : s.place = .idle) :
      Moves s (.select setrd setwd) { s with place := .selected setrd setwd }
  | lock (setrd setwd : List Nat) (hselected : s.place = .selected setrd setwd) :
      Moves s .lock { s with place := .visiting setrd setwd s.fds.accepted }
  | visit (setrd setwd : List Nat) (fd : Nat) (rest : List Nat) (conn : Nat) (visit : Visit)
      (s' : Server) (kept : List Pending) (sent : List (Pending × Nat))
      (hplace : s.place = .visiting setrd setwd (fd :: rest))
      (hconn : s.fds.table fd = some conn)
      (hvisited : Visited { s with place := .visiting setrd setwd rest } s' setrd setwd fd conn
        visit kept sent) :
      Moves s (.visit visit) s'
  | unlock (setrd setwd : List Nat) (hplace : s.place = .visiting setrd setwd []) :
      Moves s .unlock { s with place := .idle }

theorem moves_of_serverStep {s s' : Server} {action : Action}
    (h : serverStep s action = some s') : Moves s action s' := by
  cases action with
  | accept fd =>
      obtain ⟨fds, haccept, hresult⟩ := Option.bind_eq_some_iff.mp h
      obtain rfl := Option.some.inj hresult
      exact Moves.accept fd fds haccept
  | insert =>
      rw [serverStep] at h
      split at h
      · cases h
      · rename_i hunlocked
        obtain ⟨fds, hinsert, hresult⟩ := Option.bind_eq_some_iff.mp h
        obtain rfl := Option.some.inj hresult
        exact Moves.insert fds hinsert hunlocked
  | select setrd setwd =>
      rw [serverStep] at h
      split at h
      · rename_i hidle
        split at h
        · obtain rfl := Option.some.inj h
          exact Moves.select setrd setwd hidle
        · cases h
      · cases h
  | lock =>
      rw [serverStep] at h
      split at h
      · rename_i setrd setwd hselected
        obtain rfl := Option.some.inj h
        exact Moves.lock setrd setwd hselected
      · cases h
  | visit visit =>
      rw [serverStep] at h
      split at h
      · rename_i setrd setwd fd rest hplace
        obtain ⟨conn, hconn, hvisit⟩ := Option.bind_eq_some_iff.mp h
        obtain ⟨kept, sent, hvisited⟩ := visitFd_spec hvisit
        exact Moves.visit setrd setwd fd rest conn visit s' kept sent hplace hconn hvisited
      · cases h
  | unlock =>
      rw [serverStep] at h
      split at h
      · rename_i setrd setwd hplace
        obtain rfl := Option.some.inj h
        exact Moves.unlock setrd setwd hplace
      · cases h

/-- What holds in all runs about descriptors and connections. -/
structure Consistent (s : Server) : Prop where
  fds : Sound s.fds
  visiting : ∀ setrd setwd rest, s.place = .visiting setrd setwd rest → Visitable s.fds rest

theorem consistent_start : Consistent Server.start where
  fds := sound_start
  visiting := fun _ _ _ h => nomatch h

theorem Consistent.visit {s s' : Server} {setrd setwd rest : List Nat} {fd conn : Nat}
    {visit : Visit} {kept : List Pending} {sent : List (Pending × Nat)} (h : Consistent s)
    (hplace : s.place = .visiting setrd setwd (fd :: rest))
    (hvisited : Visited { s with place := .visiting setrd setwd rest } s' setrd setwd fd conn
      visit kept sent) : Consistent s' := by
  have hafter := sound_of_visit (fun hcloses => (hvisited.closes hcloses).1)
    (fun hstays => (hvisited.stays hstays).1) h.fds (h.visiting _ _ _ hplace)
  refine ⟨hafter.1, fun setrd' setwd' rest' hplace' => ?_⟩
  rw [hvisited.place] at hplace'
  obtain ⟨_, _, rfl⟩ := Place.visiting.inj hplace'
  exact hafter.2

theorem consistent_serverStep {s s' : Server} {action : Action} (h : Consistent s)
    (hstep : serverStep s action = some s') : Consistent s' := by
  cases moves_of_serverStep hstep with
  | accept fd fds haccept =>
      exact ⟨h.fds.accept haccept, fun setrd setwd rest hplace =>
        (h.visiting setrd setwd rest hplace).accept haccept⟩
  | insert fds hinsert hunlocked =>
      exact ⟨h.fds.insert hinsert, fun setrd setwd rest hplace =>
        absurd hplace (hunlocked setrd setwd rest)⟩
  | select setrd setwd hidle => exact ⟨h.fds, fun _ _ _ hplace => nomatch hplace⟩
  | lock setrd setwd hselected =>
      refine ⟨h.fds, fun setrd' setwd' rest hplace => ?_⟩
      obtain ⟨_, _, rfl⟩ := Place.visiting.inj hplace
      exact h.fds.visitable
  | visit setrd setwd fd rest conn visit s' kept sent hplace hconn hvisited =>
      exact h.visit hplace hvisited
  | unlock setrd setwd hplace => exact ⟨h.fds, fun _ _ _ hplace => nomatch hplace⟩

end StudyLinuxKernel.Http.SelectServer
