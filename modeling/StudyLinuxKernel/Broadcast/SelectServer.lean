import StudyLinuxKernel.Libc.Text
import StudyLinuxKernel.Library.PartialStep
import StudyLinuxKernel.Socket.AcceptedSet

namespace StudyLinuxKernel.Broadcast.SelectServer

open StudyLinuxKernel.Libc.Text
open StudyLinuxKernel.Library.PartialStep
open StudyLinuxKernel.Socket.AcceptedSet

def STDIN_FILENO : Nat := 0

/-- The size of the buffer that the standard input is read into. -/
def bufferSize : Nat := 1024

/-- A pair of `queMsgs`; `first` counts the sends that are left.  The code keeps
no more: `id` numbers the messages, `audience` has the connections that were
accepted when the message was queued, and `found` those that have been found
writable since. -/
structure Message where
  first : Nat
  second : Bytes
  id : Nat
  audience : List Nat
  found : List Nat

/-- `present` has those of the audience that are open at the removal. -/
inductive Event where
  | queued (id : Nat) (audience : List Nat)
  | sent (conn id : Nat) (bytes : Bytes)
  | removed (id : Nat) (present : List Nat)

def Event.id : Event → Nat
  | .queued id _ => id
  | .sent _ id _ => id
  | .removed id _ => id

/-- What the calls of one visit of a descriptor return: `sends i` is the result
of sending the message at index `i`. -/
structure Visit where
  sends : Nat → Int
  recv : Int

/-- Where `_thread_func` is; it holds the mutex while it visits descriptors. -/
inductive Place where
  | idle
  | selected (setrd setwd : List Nat)
  | stdinRead (setrd setwd : List Nat)
  | visiting (setrd setwd rest : List Nat)
  | visited

structure Server where
  fds : Descriptors
  queMsgs : List Message
  place : Place
  nextId : Nat
  log : List Event

def Server.start : Server :=
  { fds := .start, queMsgs := [], place := .idle, nextId := 0, log := [] }

inductive Action where
  | accept (fd : Nat)
  | insert
  | select (setrd setwd : List Nat)
  | stdin (input : Bytes)
  | lock
  | visit (visit : Visit)
  | unlock
  | purge

/-- `input` is what `read` puts into the buffer: nothing where it fails. -/
def queueMessage (s : Server) (input : Bytes) : Server :=
  { s with
    queMsgs := s.queMsgs ++ [{
      first := s.fds.accepted.length
      second := input ++ List.replicate (bufferSize - input.length) 0
      id := s.nextId
      audience := s.fds.conns
      found := [] }]
    nextId := s.nextId + 1
    log := s.log ++ [.queued s.nextId s.fds.conns] }

/-- The loop over the messages from index `i` on, the newest first.  The results
are `bClosed`, the messages with their counts, and the messages that were sent
with what `send` returned. -/
def sendLoop (sends : Nat → Int) :
    Nat → List Message → Bool × List Message × List (Message × Int)
  | _, [] => (false, [], [])
  | i, message :: newer =>
      let (bClosed, newer, sent) := sendLoop sends (i + 1) newer
      if bClosed then (true, message :: newer, sent)
      else if message.first ≤ 0 then (false, message :: newer, sent)
      else if sends i = -1 then (true, message :: newer, sent)
      else (false, { message with first := message.first - 1 } :: newer,
        sent ++ [(message, sends i)])

def sentEvent (conn : Nat) (entry : Message × Int) : Event :=
  .sent conn entry.1.id ((cStr entry.1.second).take entry.2.toNat)

def Message.foundBy (conn : Nat) (message : Message) : Message :=
  { message with found := message.found ++ [conn] }

/-- The write branch; the flag is `bClosed`. -/
def writeBranch (s : Server) (conn : Nat) (writable : Bool) (visit : Visit) : Bool × Server :=
  if writable then
    let (bClosed, queMsgs, sent) := sendLoop visit.sends 0 s.queMsgs
    (bClosed,
      { s with
        queMsgs := queMsgs.map (Message.foundBy conn)
        log := s.log ++ sent.map (sentEvent conn) })
  else (false, s)

/-- What `recv` returns goes to the standard error only. -/
def readBranch (readable : Bool) (visit : Visit) (bClosed : Bool) : Bool :=
  if readable then
    if visit.recv ≤ 0 then true else bClosed
  else bClosed

def closeBranch (s : Server) (fd : Nat) (bClosed : Bool) : Server :=
  if bClosed then { s with fds := s.fds.close fd } else s

/-- One round of the loop over the accepted descriptors. -/
def visitFd (s : Server) (setrd setwd : List Nat) (fd conn : Nat) (visit : Visit) : Server :=
  let (bClosed, s) := writeBranch s conn (decide (fd ∈ setwd)) visit
  let bClosed := readBranch (decide (fd ∈ setrd)) visit bClosed
  closeBranch s fd bClosed

def removedEvent (fds : Descriptors) (message : Message) : Event :=
  .removed message.id (message.audience.filter (· ∈ fds.conns))

/-- The loop that erases the messages without sends left. -/
def purge (s : Server) : Server :=
  { s with
    queMsgs := s.queMsgs.filter fun message => ¬ message.first ≤ 0
    log := s.log ++ (s.queMsgs.filter fun message => message.first ≤ 0).map (removedEvent s.fds) }

def serverStep (s : Server) : Action → Option Server
  | .accept fd =>
      if fd = STDIN_FILENO then none
      else do
        let fds ← s.fds.accept fd
        some { s with fds := fds }
  | .insert =>
      match s.place with
      | .visiting _ _ _ => none
      | _ => do
          let fds ← s.fds.insert
          some { s with fds := fds }
  | .select setrd setwd =>
      match s.place with
      | .idle =>
          if s.fds.accepted ≠ [] ∧ setrd ++ setwd ≠ [] ∧
              setrd ⊆ STDIN_FILENO :: s.fds.accepted ∧ setwd ⊆ s.fds.accepted then
            some { s with place := .selected setrd setwd }
          else none
      | _ => none
  | .stdin input =>
      match s.place with
      | .selected setrd setwd =>
          if STDIN_FILENO ∈ setrd then
            if input.length ≤ bufferSize then
              some { queueMessage s input with place := .stdinRead setrd setwd }
            else none
          else some { s with place := .stdinRead setrd setwd }
      | _ => none
  | .lock =>
      match s.place with
      | .stdinRead setrd setwd => some { s with place := .visiting setrd setwd s.fds.accepted }
      | _ => none
  | .visit visit =>
      match s.place with
      | .visiting setrd setwd (fd :: rest) => do
          let conn ← s.fds.table fd
          some (visitFd { s with place := .visiting setrd setwd rest } setrd setwd fd conn visit)
      | _ => none
  | .unlock =>
      match s.place with
      | .visiting _ _ [] => some { s with place := .visited }
      | _ => none
  | .purge =>
      match s.place with
      | .visited => some { purge s with place := .idle }
      | _ => none

/-- No send of a message that is due fails. -/
def AllTaken (sends : Nat → Int) (i : Nat) (messages : List Message) : Prop :=
  ∀ j message, messages[j]? = some message → 0 < message.first → sends (i + j) ≠ -1

/-- The loop gets to the message, and its send does not fail. -/
def Reached (sends : Nat → Int) (i : Nat) (messages : List Message) (message : Message) : Prop :=
  ∃ older newer, messages = older ++ message :: newer ∧ 0 < message.first ∧
    AllTaken sends (i + older.length) (message :: newer)

def idsOf (sent : List (Message × Int)) : List Nat := (sent.map Prod.fst).map Message.id

def Message.served (ids : List Nat) (message : Message) : Message :=
  if message.id ∈ ids then { message with first := message.first - 1 } else message

theorem allTaken_nil {sends : Nat → Int} {i : Nat} : AllTaken sends i [] :=
  fun _ _ hmessage => nomatch hmessage

theorem allTaken_cons {sends : Nat → Int} {i : Nat} {message : Message} {newer : List Message} :
    AllTaken sends i (message :: newer) ↔
      (0 < message.first → sends i ≠ -1) ∧ AllTaken sends (i + 1) newer := by
  constructor
  · intro h
    refine ⟨h 0 message rfl, fun j other hother => ?_⟩
    rw [Nat.add_assoc, Nat.add_comm 1 j]
    exact h (j + 1) other hother
  · rintro ⟨hmessage, hnewer⟩ j other hother
    cases j with
    | zero =>
        obtain rfl := Option.some.inj hother
        exact hmessage
    | succ j =>
        rw [Nat.add_comm j 1, ← Nat.add_assoc]
        exact hnewer j other hother

theorem reached_cons {sends : Nat → Int} {i : Nat} {message other : Message}
    {newer : List Message} :
    Reached sends i (message :: newer) other ↔
      other = message ∧ 0 < message.first ∧ AllTaken sends i (message :: newer) ∨
        Reached sends (i + 1) newer other := by
  constructor
  · rintro ⟨older, newer', hsplit, hdue, htaken⟩
    cases older with
    | nil =>
        obtain ⟨rfl, rfl⟩ := List.cons.inj hsplit
        exact Or.inl ⟨rfl, hdue, htaken⟩
    | cons first older =>
        obtain ⟨rfl, rfl⟩ := List.cons.inj hsplit
        refine Or.inr ⟨older, newer', rfl, hdue, ?_⟩
        rw [Nat.add_assoc, Nat.add_comm 1]
        exact htaken
  · rintro (⟨rfl, hdue, htaken⟩ | ⟨older, newer', rfl, hdue, htaken⟩)
    · exact ⟨[], newer, rfl, hdue, htaken⟩
    · refine ⟨message :: older, newer', rfl, hdue, ?_⟩
      rw [List.length_cons, Nat.add_comm older.length 1, ← Nat.add_assoc]
      exact htaken

/-- What one run of the loop over the messages does. -/
structure Sending (sends : Nat → Int) (i : Nat) (messages : List Message) (bClosed : Bool)
    (kept : List Message) (sent : List (Message × Int)) : Prop where
  closed : bClosed = true ↔ ¬ AllTaken sends i messages
  reached : ∀ message, message ∈ sent.map Prod.fst ↔ Reached sends i messages message
  order : List.Sublist (sent.map Prod.fst) messages.reverse
  kept : (messages.map Message.id).Nodup →
    kept = messages.map (Message.served (idsOf sent))

theorem Sending.mem {sends : Nat → Int} {i : Nat} {messages kept : List Message} {bClosed : Bool}
    {sent : List (Message × Int)} (h : Sending sends i messages bClosed kept sent)
    {message : Message} (hsent : message ∈ sent.map Prod.fst) : message ∈ messages :=
  List.mem_reverse.mp (h.order.subset hsent)

theorem not_mem_ids_of_newer {message : Message} {newer : List Message}
    (h : ((message :: newer).map Message.id).Nodup) {sent : List Message} (hsent : sent ⊆ newer) :
    message.id ∉ sent.map Message.id := by
  intro hid
  obtain ⟨other, hother, hsame⟩ := List.mem_map.mp hid
  rw [List.map_cons, List.nodup_cons] at h
  exact h.1 (List.mem_map.mpr ⟨other, hsent hother, hsame⟩)

theorem idsOf_append (sent sent' : List (Message × Int)) :
    idsOf (sent ++ sent') = idsOf sent ++ idsOf sent' := by
  rw [idsOf, List.map_append, List.map_append]
  rfl

theorem served_of_mem {ids : List Nat} {message : Message} (h : message.id ∈ ids) :
    message.served ids = { message with first := message.first - 1 } :=
  if_pos h

theorem served_of_not_mem {ids : List Nat} {message : Message} (h : message.id ∉ ids) :
    message.served ids = message :=
  if_neg h

theorem served_congr {ids ids' : List Nat} {message : Message}
    (h : message.id ∈ ids ↔ message.id ∈ ids') : message.served ids = message.served ids' :=
  if_congr h rfl rfl

section Cons

variable {sends : Nat → Int} {i : Nat} {message : Message} {newer kept : List Message}
  {bClosed : Bool} {sent : List (Message × Int)}

theorem Sending.skip (h : Sending sends (i + 1) newer bClosed kept sent)
    (hnot : ¬ (0 < message.first ∧ AllTaken sends i (message :: newer))) {flag : Bool}
    (hflag : flag = true ↔ ¬ AllTaken sends i (message :: newer)) :
    Sending sends i (message :: newer) flag (message :: kept) sent := by
  refine ⟨hflag, fun other => ?_, ?_, fun hids => ?_⟩
  · rw [h.reached, reached_cons]
    exact ⟨Or.inr, fun hother => hother.resolve_left fun hmessage => hnot hmessage.2⟩
  · rw [List.reverse_cons]
    exact h.order.trans (List.sublist_append_left _ _)
  · have hfirst : message.id ∉ idsOf sent := not_mem_ids_of_newer hids fun _ => h.mem
    rw [List.map_cons, served_of_not_mem hfirst, h.kept (List.nodup_cons.mp hids).2]

theorem Sending.send (h : Sending sends (i + 1) newer bClosed kept sent)
    (hdue : 0 < message.first) (htaken : AllTaken sends i (message :: newer)) :
    Sending sends i (message :: newer) false ({ message with first := message.first - 1 } :: kept)
      (sent ++ [(message, sends i)]) := by
  refine ⟨iff_of_false Bool.false_ne_true fun hnot => hnot htaken, fun other => ?_, ?_,
    fun hids => ?_⟩
  · rw [List.map_append, List.mem_append, h.reached, reached_cons, or_comm]
    apply or_congr_left
    rw [List.map_singleton, List.mem_singleton]
    exact ⟨fun hsame => ⟨hsame, hdue, htaken⟩, fun hother => hother.1⟩
  · rw [List.map_append, List.reverse_cons]
    exact h.order.append (List.Sublist.refl _)
  · have hfirst := not_mem_ids_of_newer hids (List.Subset.refl newer)
    have hlast : message.id ∈ idsOf sent ++ idsOf [(message, sends i)] :=
      List.mem_append_right _ List.mem_cons_self
    rw [idsOf_append, List.map_cons, h.kept (List.nodup_cons.mp hids).2, served_of_mem hlast]
    refine congrArg _ (List.map_congr_left fun other hother => served_congr ?_)
    rw [List.mem_append]
    refine ⟨Or.inl, fun hid => hid.resolve_right fun hid => hfirst ?_⟩
    have hsame : other.id = message.id := List.mem_singleton.mp hid
    exact hsame ▸ List.mem_map_of_mem hother

end Cons

theorem sending_sendLoop (sends : Nat → Int) (messages : List Message) :
    ∀ i, Sending sends i messages (sendLoop sends i messages).1 (sendLoop sends i messages).2.1
      (sendLoop sends i messages).2.2 := by
  induction messages with
  | nil =>
      intro i
      refine ⟨iff_of_false Bool.false_ne_true fun h => h allTaken_nil, fun message => ?_,
        List.Sublist.refl _, fun _ => rfl⟩
      apply iff_of_false List.not_mem_nil
      rintro ⟨older, newer, hsplit, _⟩
      exact absurd hsplit.symm (List.append_ne_nil_of_right_ne_nil older (List.cons_ne_nil _ _))
  | cons message newer ih =>
      intro i
      have hnewer := ih (i + 1)
      rw [sendLoop]
      generalize sendLoop sends (i + 1) newer = result at hnewer
      obtain ⟨bClosed, kept, sent⟩ := result
      simp only at hnewer ⊢
      split
      · rename_i hfailed
        have hnot : ¬ AllTaken sends i (message :: newer) := fun h =>
          hnewer.closed.mp hfailed (allTaken_cons.mp h).2
        exact hnewer.skip (fun h => hnot h.2) (iff_of_true rfl hnot)
      · rename_i hopen
        have hall : AllTaken sends (i + 1) newer :=
          Classical.not_not.mp fun hnot => hopen (hnewer.closed.mpr hnot)
        split
        · rename_i hdone
          have hdue : ¬ 0 < message.first := Nat.not_lt.mpr hdone
          have htaken : AllTaken sends i (message :: newer) :=
            allTaken_cons.mpr ⟨fun h => absurd h hdue, hall⟩
          exact hnewer.skip (fun h => hdue h.1)
            (iff_of_false Bool.false_ne_true fun hnot => hnot htaken)
        · rename_i hdue
          rw [Nat.not_le] at hdue
          split
          · rename_i hsend
            have hnot : ¬ AllTaken sends i (message :: newer) := fun h =>
              (allTaken_cons.mp h).1 hdue hsend
            exact hnewer.skip (fun h => hnot h.2) (iff_of_true rfl hnot)
          · rename_i hsend
            exact hnewer.send hdue (allTaken_cons.mpr ⟨fun _ => hsend, hall⟩)

def RecvFails (setrd : List Nat) (fd : Nat) (visit : Visit) : Prop :=
  fd ∈ setrd ∧ visit.recv ≤ 0

def SendFails (s : Server) (setwd : List Nat) (fd : Nat) (visit : Visit) : Prop :=
  fd ∈ setwd ∧ ¬ AllTaken visit.sends 0 s.queMsgs

def Sends (s : Server) (setwd : List Nat) (fd : Nat) (visit : Visit) (message : Message) : Prop :=
  fd ∈ setwd ∧ Reached visit.sends 0 s.queMsgs message

/-- All that a visit can do. -/
structure Visited (s s' : Server) (setrd setwd : List Nat) (fd conn : Nat) (visit : Visit)
    (sent : List (Message × Int)) : Prop where
  sends : ∀ message, message ∈ sent.map Prod.fst ↔ Sends s setwd fd visit message
  order : List.Sublist (sent.map Prod.fst) s.queMsgs.reverse
  writable : fd ∈ setwd → (s.queMsgs.map Message.id).Nodup →
    s'.queMsgs = s.queMsgs.map fun message =>
      (message.served (idsOf sent)).foundBy conn
  notWritable : fd ∉ setwd → s'.queMsgs = s.queMsgs
  log : s'.log = s.log ++ sent.map (sentEvent conn)
  place : s'.place = s.place
  nextId : s'.nextId = s.nextId
  closes : SendFails s setwd fd visit ∨ RecvFails setrd fd visit → s'.fds = s.fds.close fd
  stays : ¬ (SendFails s setwd fd visit ∨ RecvFails setrd fd visit) → s'.fds = s.fds

theorem readBranch_eq_true_iff (setrd : List Nat) (fd : Nat) (visit : Visit) (bClosed : Bool) :
    readBranch (decide (fd ∈ setrd)) visit bClosed = true ↔
      bClosed = true ∨ RecvFails setrd fd visit := by
  rw [readBranch, RecvFails]
  split
  · rename_i hreadable
    have hmem := of_decide_eq_true hreadable
    split
    · rename_i hfailed
      exact iff_of_true rfl (Or.inr ⟨hmem, hfailed⟩)
    · rename_i hgot
      exact ⟨Or.inl, fun h => h.resolve_right fun hfailed => hgot hfailed.2⟩
  · rename_i hreadable
    refine ⟨Or.inl, fun h => h.resolve_right fun hfailed => hreadable ?_⟩
    exact decide_eq_true hfailed.1

theorem closeBranch_eq (s : Server) (fd : Nat) (bClosed : Bool) :
    closeBranch s fd bClosed =
      { s with fds := if bClosed then s.fds.close fd else s.fds } := by
  rw [closeBranch]
  split
  · rfl
  · rfl

theorem visitFd_spec (s : Server) (setrd setwd : List Nat) (fd conn : Nat) (visit : Visit) :
    ∃ sent, Visited s (visitFd s setrd setwd fd conn visit) setrd setwd fd conn visit sent := by
  rw [visitFd]
  rcases Decidable.em (fd ∈ setwd) with hmem | hmem
  · have hsending := sending_sendLoop visit.sends s.queMsgs 0
    rw [writeBranch, if_pos (decide_eq_true hmem)]
    generalize sendLoop visit.sends 0 s.queMsgs = result at hsending
    obtain ⟨bClosed, kept, sent⟩ := result
    simp only [closeBranch_eq] at hsending ⊢
    have hflag := readBranch_eq_true_iff setrd fd visit bClosed
    rw [hsending.closed] at hflag
    have hsend : SendFails s setwd fd visit ↔ ¬ AllTaken visit.sends 0 s.queMsgs :=
      and_iff_right hmem
    refine ⟨sent, fun message => ?_, hsending.order, fun _ hids => ?_, fun hnot => absurd hmem hnot,
      rfl, rfl, rfl, fun hcloses => ?_, fun hstays => ?_⟩
    · rw [hsending.reached]
      exact (and_iff_right hmem).symm
    · change kept.map _ = _
      rw [hsending.kept hids, List.map_map]
      rfl
    · rw [hsend] at hcloses
      exact if_pos (hflag.mpr hcloses)
    · rw [hsend] at hstays
      exact if_neg (mt hflag.mp hstays)
  · rw [writeBranch, if_neg (by simpa using hmem)]
    simp only [closeBranch_eq]
    have hflag := readBranch_eq_true_iff setrd fd visit false
    rw [or_iff_right Bool.false_ne_true] at hflag
    refine ⟨[], fun message => ?_, List.nil_sublist _, fun hin => absurd hin hmem, fun _ => rfl,
      (List.append_nil s.log).symm, rfl, rfl, fun hcloses => ?_, fun hstays => ?_⟩
    · exact iff_of_false List.not_mem_nil fun h => hmem h.1
    · exact if_pos (hflag.mpr (hcloses.resolve_left fun h => hmem h.1))
    · exact if_neg (mt hflag.mp fun h => hstays (Or.inr h))

/-- The steps, by what they require and what they do. -/
inductive Moves (s : Server) : Action → Server → Prop
  | accept (fd : Nat) (fds : Descriptors) (haccept : s.fds.accept fd = some fds) :
      Moves s (.accept fd) { s with fds := fds }
  | insert (fds : Descriptors) (hinsert : s.fds.insert = some fds)
      (hunlocked : ∀ setrd setwd rest, s.place ≠ .visiting setrd setwd rest) :
      Moves s .insert { s with fds := fds }
  | select (setrd setwd : List Nat) (hidle : s.place = .idle) :
      Moves s (.select setrd setwd) { s with place := .selected setrd setwd }
  | stdin (setrd setwd : List Nat) (input : Bytes) (hselected : s.place = .selected setrd setwd)
      (hready : STDIN_FILENO ∈ setrd) :
      Moves s (.stdin input) { queueMessage s input with place := .stdinRead setrd setwd }
  | noStdin (setrd setwd : List Nat) (input : Bytes) (hselected : s.place = .selected setrd setwd)
      (hnotReady : STDIN_FILENO ∉ setrd) :
      Moves s (.stdin input) { s with place := .stdinRead setrd setwd }
  | lock (setrd setwd : List Nat) (hread : s.place = .stdinRead setrd setwd) :
      Moves s .lock { s with place := .visiting setrd setwd s.fds.accepted }
  | visit (setrd setwd : List Nat) (fd : Nat) (rest : List Nat) (conn : Nat) (visit : Visit)
      (s' : Server) (sent : List (Message × Int))
      (hplace : s.place = .visiting setrd setwd (fd :: rest))
      (hconn : s.fds.table fd = some conn)
      (hvisited : Visited { s with place := .visiting setrd setwd rest } s' setrd setwd fd conn
        visit sent) :
      Moves s (.visit visit) s'
  | unlock (setrd setwd : List Nat) (hplace : s.place = .visiting setrd setwd []) :
      Moves s .unlock { s with place := .visited }
  | purge (hplace : s.place = .visited) : Moves s .purge { purge s with place := .idle }

theorem moves_of_serverStep {s s' : Server} {action : Action}
    (h : serverStep s action = some s') : Moves s action s' := by
  cases action with
  | accept fd =>
      rw [serverStep] at h
      split at h
      · cases h
      · obtain ⟨fds, haccept, hresult⟩ := Option.bind_eq_some_iff.mp h
        obtain rfl := Option.some.inj hresult
        exact Moves.accept fd fds haccept
  | insert =>
      rw [serverStep] at h
      split at h
      · cases h
      · rename_i hunlocked
        obtain ⟨fds, hinsert, hresult⟩ := Option.bind_eq_some_iff.mp h
        obtain rfl := Option.some.inj hresult
        exact Moves.insert fds hinsert hunlocked
  | select setrd setwd =>
      rw [serverStep] at h
      split at h
      · rename_i hidle
        split at h
        · obtain rfl := Option.some.inj h
          exact Moves.select setrd setwd hidle
        · cases h
      · cases h
  | stdin input =>
      rw [serverStep] at h
      split at h
      · rename_i setrd setwd hselected
        split at h
        · rename_i hready
          split at h
          · obtain rfl := Option.some.inj h
            exact Moves.stdin setrd setwd input hselected hready
          · cases h
        · rename_i hnotReady
          obtain rfl := Option.some.inj h
          exact Moves.noStdin setrd setwd input hselected hnotReady
      · cases h
  | lock =>
      rw [serverStep] at h
      split at h
      · rename_i setrd setwd hread
        obtain rfl := Option.some.inj h
        exact Moves.lock setrd setwd hread
      · cases h
  | visit visit =>
      rw [serverStep] at h
      split at h
      · rename_i setrd setwd fd rest hplace
        obtain ⟨conn, hconn, hresult⟩ := Option.bind_eq_some_iff.mp h
        obtain rfl := Option.some.inj hresult
        obtain ⟨sent, hvisited⟩ :=
          visitFd_spec { s with place := .visiting setrd setwd rest } setrd setwd fd conn visit
        exact Moves.visit setrd setwd fd rest conn visit _ sent hplace hconn hvisited
      · cases h
  | unlock =>
      rw [serverStep] at h
      split at h
      · rename_i setrd setwd hplace
        obtain rfl := Option.some.inj h
        exact Moves.unlock setrd setwd hplace
      · cases h
  | purge =>
      rw [serverStep] at h
      split at h
      · rename_i hplace
        obtain rfl := Option.some.inj h
        exact Moves.purge hplace
      · cases h

section Visits

variable {s s' : Server} {setrd setwd rest : List Nat} {fd conn : Nat} {visit : Visit}
  {sent : List (Message × Int)}

theorem open_of_visited (hsound : Sound s.fds) (hconn : s.fds.table fd = some conn)
    (h : Visited { s with place := .visiting setrd setwd rest } s' setrd setwd fd conn visit sent)
    {fd' conn' : Nat} (hopen : s'.fds.table fd' = some conn') :
    s.fds.table fd' = some conn' ∧
      (conn' = conn → ¬ (SendFails s setwd fd visit ∨ RecvFails setrd fd visit)) :=
  open_of_visit h.closes h.stays hsound hconn hopen

theorem nextConn_of_visited
    (h : Visited { s with place := .visiting setrd setwd rest } s' setrd setwd fd conn visit
      sent) : s'.fds.nextConn = s.fds.nextConn :=
  nextConn_of_visit h.closes h.stays

end Visits

/-- What holds in all runs about descriptors and connections. -/
structure Consistent (s : Server) : Prop where
  fds : Sound s.fds
  visiting : ∀ setrd setwd rest, s.place = .visiting setrd setwd rest → Visitable s.fds rest

theorem consistent_start : Consistent Server.start where
  fds := sound_start
  visiting := fun _ _ _ h => nomatch h

theorem Consistent.visit {s s' : Server} {setrd setwd rest : List Nat} {fd conn : Nat}
    {visit : Visit} {sent : List (Message × Int)} (h : Consistent s)
    (hplace : s.place = .visiting setrd setwd (fd :: rest))
    (hvisited : Visited { s with place := .visiting setrd setwd rest } s' setrd setwd fd conn
      visit sent) : Consistent s' := by
  have hafter := sound_of_visit hvisited.closes hvisited.stays h.fds (h.visiting _ _ _ hplace)
  refine ⟨hafter.1, fun setrd' setwd' rest' hplace' => ?_⟩
  rw [hvisited.place] at hplace'
  obtain ⟨_, _, rfl⟩ := Place.visiting.inj hplace'
  exact hafter.2

theorem consistent_serverStep {s s' : Server} {action : Action} (h : Consistent s)
    (hstep : serverStep s action = some s') : Consistent s' := by
  cases moves_of_serverStep hstep with
  | accept fd fds haccept =>
      exact ⟨h.fds.accept haccept, fun setrd setwd rest hplace =>
        (h.visiting setrd setwd rest hplace).accept haccept⟩
  | insert fds hinsert hunlocked =>
      exact ⟨h.fds.insert hinsert, fun setrd setwd rest hplace =>
        absurd hplace (hunlocked setrd setwd rest)⟩
  | select setrd setwd hidle => exact ⟨h.fds, fun _ _ _ hplace => nomatch hplace⟩
  | stdin setrd setwd input hselected hready => exact ⟨h.fds, fun _ _ _ hplace => nomatch hplace⟩
  | noStdin setrd setwd input hselected hnotReady =>
      exact ⟨h.fds, fun _ _ _ hplace => nomatch hplace⟩
  | lock setrd setwd hread =>
      refine ⟨h.fds, fun setrd' setwd' rest hplace => ?_⟩
      obtain ⟨_, _, rfl⟩ := Place.visiting.inj hplace
      exact h.fds.visitable
  | visit setrd setwd fd rest conn visit s' sent hplace hconn hvisited =>
      exact h.visit hplace hvisited
  | unlock setrd setwd hplace => exact ⟨h.fds, fun _ _ _ hplace => nomatch hplace⟩
  | purge hplace => exact ⟨h.fds, fun _ _ _ hplace => nomatch hplace⟩

end StudyLinuxKernel.Broadcast.SelectServer
