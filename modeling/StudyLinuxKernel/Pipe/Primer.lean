import StudyLinuxKernel.Libc.Text
import StudyLinuxKernel.Library.StepBound
import StudyLinuxKernel.Pipe.Barrier

namespace StudyLinuxKernel.Pipe.Primer

open StudyLinuxKernel.Libc.Text
open StudyLinuxKernel.Library.PartialStep
open StudyLinuxKernel.Library.StepBound
open StudyLinuxKernel.Pipe.Barrier (Ends)

def BUF_SIZE : Nat := 32

/-- `rest` is what the call of `write` has still to put into the pipe. -/
inductive ParentPlace where
  | closingRead
  | writing (rest : Bytes)
  | closingWrite
  | waiting
  | exited (success : Bool) (rest : Bytes)

/-- `buf` is what has been read and not been written. -/
inductive ChildPlace where
  | closingWrite
  | reading
  | writing (buf : Bytes)
  | newline
  | closingRead
  | exited (success : Bool) (buf : Bytes)

structure System where
  parent : ParentPlace
  parentEnds : Ends
  child : ChildPlace
  childEnds : Ends
  pipe : Bytes
  output : Bytes

/-- Behind the call of `fork`. -/
def System.start : System where
  parent := .closingRead
  parentEnds := { read := true, write := true }
  child := .closingWrite
  childEnds := { read := true, write := true }
  pipe := []
  output := []

def System.parentExit (s : System) (success : Bool) (rest : Bytes) : System :=
  { s with parent := .exited success rest, parentEnds := .none }

def System.childExit (s : System) (success : Bool) (buf : Bytes) : System :=
  { s with child := .exited success buf, childEnds := .none }

def System.readers (s : System) : Bool := s.parentEnds.read || s.childEnds.read

def System.writers (s : System) : Bool := s.parentEnds.write || s.childEnds.write

/-- `ok` is false where a call returns -1.  While `write` blocks, `put n` are the
bytes for which there is room; `writeFails` is a short count, an error or SIGPIPE. -/
inductive ParentAction where
  | closeRead (ok : Bool)
  | put (n : Nat)
  | written
  | writeFails
  | closeWrite (ok : Bool)
  | wait

/-- Of its buffer the child writes `k` bytes. -/
inductive ChildAction where
  | closeWrite (ok : Bool)
  | read (n : Nat)
  | eof
  | readFails
  | write (k : Nat)
  | newline (k : Nat)
  | closeRead (ok : Bool)

inductive Action where
  | parent (action : ParentAction)
  | child (action : ChildAction)

def parentStep (text : Bytes) (capacity : Nat) (s : System) : ParentAction → Option System
  | .closeRead ok =>
      match s.parent with
      | .closingRead =>
          if ok then some { s with
            parent := .writing text, parentEnds := { s.parentEnds with read := false } }
          else some (s.parentExit false text)
      | _ => none
  | .put n =>
      match s.parent with
      | .writing rest =>
          if 0 < n ∧ n ≤ rest.length ∧ s.pipe.length + n ≤ capacity ∧ s.readers = true then
            some { s with parent := .writing (rest.drop n), pipe := s.pipe ++ rest.take n }
          else none
      | _ => none
  | .written =>
      match s.parent with
      | .writing [] => some { s with parent := .closingWrite }
      | _ => none
  | .writeFails =>
      match s.parent with
      | .writing rest => if rest = [] then none else some (s.parentExit false rest)
      | _ => none
  | .closeWrite ok =>
      match s.parent with
      | .closingWrite =>
          if ok then some { s with
            parent := .waiting, parentEnds := { s.parentEnds with write := false } }
          else some (s.parentExit false [])
      | _ => none
  | .wait =>
      match s.parent, s.child with
      | .waiting, .exited _ _ => some (s.parentExit true [])
      | _, _ => none

def childStep (s : System) : ChildAction → Option System
  | .closeWrite ok =>
      match s.child with
      | .closingWrite =>
          if ok then some { s with
            child := .reading, childEnds := { s.childEnds with write := false } }
          else some (s.childExit false [])
      | _ => none
  | .read n =>
      match s.child with
      | .reading =>
          if 0 < n ∧ n ≤ s.pipe.length ∧ n ≤ BUF_SIZE then
            some { s with child := .writing (s.pipe.take n), pipe := s.pipe.drop n }
          else none
      | _ => none
  | .eof =>
      match s.child with
      | .reading =>
          if s.pipe = [] ∧ s.writers = false then some { s with child := .newline } else none
      | _ => none
  | .readFails =>
      match s.child with
      | .reading => some (s.childExit false [])
      | _ => none
  | .write k =>
      match s.child with
      | .writing buf =>
          if k < buf.length then
            some ({ s with output := s.output ++ buf.take k }.childExit false (buf.drop k))
          else some { s with child := .reading, output := s.output ++ buf }
      | _ => none
  -- The result of this call is not looked at.
  | .newline k =>
      match s.child with
      | .newline =>
          some { s with child := .closingRead, output := s.output ++ (literal "\n").take k }
      | _ => none
  | .closeRead ok =>
      match s.child with
      | .closingRead => some (s.childExit ok [])
      | _ => none

def step (text : Bytes) (capacity : Nat) (s : System) : Action → Option System
  | .parent action => parentStep text capacity s action
  | .child action => childStep s action

/-- No call fails, but for a `write` where there is nobody to read. -/
def Regular (s : System) : Action → Prop
  | .parent (.closeRead ok) => ok = true
  | .parent .writeFails => s.readers = false
  | .parent (.closeWrite ok) => ok = true
  | .parent _ => True
  | .child (.closeWrite ok) => ok = true
  | .child .readFails => False
  | .child (.write k) => ∀ buf, s.child = .writing buf → k = buf.length
  | .child (.newline k) => k = 1
  | .child (.closeRead ok) => ok = true
  | .child _ => True

/-- What the parent has not put into the pipe. -/
def ParentPlace.rest (text : Bytes) : ParentPlace → Bytes
  | .closingRead => text
  | .writing rest => rest
  | .exited _ rest => rest
  | _ => []

/-- What the child has read and not written. -/
def ChildPlace.held : ChildPlace → Bytes
  | .writing buf => buf
  | .exited _ buf => buf
  | _ => []

/-- The read of the child has returned 0. -/
def ChildPlace.Ended : ChildPlace → Prop
  | .newline => True
  | .closingRead => True
  | .exited success _ => success = true
  | _ => False

/-- The ends that a place of the parent has open. -/
def ParentPlace.ends : ParentPlace → Ends
  | .closingRead => { read := true, write := true }
  | .writing _ => { read := false, write := true }
  | .closingWrite => { read := false, write := true }
  | .waiting => .none
  | .exited _ _ => .none

def ChildPlace.ends : ChildPlace → Ends
  | .closingWrite => { read := true, write := true }
  | .exited _ _ => .none
  | _ => { read := true, write := false }

/-- `relayed` has gone through the pipe, and `tail` is the line end behind it. -/
structure Relaying (text relayed tail : Bytes) (s : System) : Prop where
  output : s.output = relayed ++ tail
  conserved : relayed ++ s.child.held ++ s.pipe ++ s.parent.rest text = text
  tail : tail = [] ∨ tail = literal "\n" ∧ (s.child = .closingRead ∨ ∃ ok, s.child = .exited ok [])
  buffered : ∀ buf, s.child = .writing buf → buf ≠ []
  parentEnds : s.parentEnds = s.parent.ends
  childEnds : s.childEnds = s.child.ends
  drained : s.child.Ended → s.pipe = [] ∧ s.child.held = [] ∧ s.parent.ends.write = false
  succeeded : ∀ rest, s.parent = .exited true rest → rest = [] ∧ ∃ ok buf, s.child = .exited ok buf

variable {text relayed tail : Bytes} {capacity : Nat} {s s' : System}

theorem relaying_start (text : Bytes) : Relaying text [] [] .start where
  output := rfl
  conserved := rfl
  tail := Or.inl rfl
  buffered := nofun
  parentEnds := rfl
  childEnds := rfl
  drained := nofun
  succeeded := nofun

/-- The steps, each with its guard.  A failure of the parent keeps what it has not
written. -/
inductive ParentMoves (text : Bytes) (s : System) : ParentAction → System → Prop where
  | closedRead : s.parent = .closingRead → ParentMoves text s (.closeRead true) { s with
      parent := .writing text, parentEnds := { s.parentEnds with read := false } }
  | put (n : Nat) (rest : Bytes) : s.parent = .writing rest → 0 < n → n ≤ rest.length →
      s.readers = true → ParentMoves text s (.put n)
        { s with parent := .writing (rest.drop n), pipe := s.pipe ++ rest.take n }
  | written : s.parent = .writing [] →
      ParentMoves text s .written { s with parent := .closingWrite }
  | closedWrite : s.parent = .closingWrite → ParentMoves text s (.closeWrite true) { s with
      parent := .waiting, parentEnds := { s.parentEnds with write := false } }
  | waited (success : Bool) (buf : Bytes) : s.parent = .waiting → s.child = .exited success buf →
      ParentMoves text s .wait (s.parentExit true [])
  | failed (action : ParentAction) : s.parentEnds.write = true →
      (Regular s (.parent action) → s.readers = false ∧ ∃ rest, s.parent = .writing rest) →
      ParentMoves text s action (s.parentExit false (s.parent.rest text))

inductive ChildMoves (s : System) : ChildAction → System → Prop where
  | closedWrite : s.child = .closingWrite →
      ChildMoves s (.closeWrite true) { s with
        child := .reading, childEnds := { s.childEnds with write := false } }
  | read (n : Nat) : s.child = .reading → 0 < n → n ≤ s.pipe.length →
      ChildMoves s (.read n)
        { s with child := .writing (s.pipe.take n), pipe := s.pipe.drop n }
  | ended : s.child = .reading → s.pipe = [] → s.writers = false →
      ChildMoves s .eof { s with child := .newline }
  | wrote (k : Nat) (buf : Bytes) : s.child = .writing buf →
      ChildMoves s (.write k) { s with child := .reading, output := s.output ++ buf }
  | short (k : Nat) (buf : Bytes) : s.child = .writing buf → k < buf.length →
      ChildMoves s (.write k)
        ({ s with output := s.output ++ buf.take k }.childExit false (buf.drop k))
  | newline (k : Nat) : s.child = .newline → ChildMoves s (.newline k)
      { s with child := .closingRead, output := s.output ++ (literal "\n").take k }
  | closed (ok : Bool) : s.child = .closingRead →
      ChildMoves s (.closeRead ok) (s.childExit ok [])
  | failed (action : ChildAction) : s.child = .closingWrite ∨ s.child = .reading →
      ¬ Regular s (.child action) → ChildMoves s action (s.childExit false [])

theorem moves_of_parentStep {action : ParentAction} (hends : s.parentEnds = s.parent.ends)
    (h : parentStep text capacity s action = some s') : ParentMoves text s action s' := by
  have hwrite : ∀ place, s.parent = place → place.ends.write = true →
      s.parentEnds.write = true := by
    intro place hplace hplaceWrite
    rw [hends, hplace]
    exact hplaceWrite
  unfold parentStep at h
  split at h
  · split at h
    · rename_i ok _ hplace
      cases ok with
      | true =>
          obtain rfl := Option.some.inj h
          exact .closedRead hplace
      | false =>
          obtain rfl := Option.some.inj h
          have hfailed := @ParentMoves.failed text s (.closeRead false)
            (hwrite _ hplace rfl) nofun
          rw [hplace] at hfailed
          exact hfailed
    · cases h
  · split at h
    · rename_i rest hplace
      rcases Option.ite_none_right_eq_some.mp h with ⟨⟨hpos, hle, _, hreaders⟩, ⟨⟩⟩
      exact .put _ rest hplace hpos hle hreaders
    · cases h
  · split at h
    · rename_i hplace
      obtain rfl := Option.some.inj h
      exact .written hplace
    · cases h
  · split at h
    · rename_i rest hplace
      split at h
      · cases h
      · obtain rfl := Option.some.inj h
        have hfailed := @ParentMoves.failed text s .writeFails (hwrite _ hplace rfl)
          fun hreaders => ⟨hreaders, rest, hplace⟩
        rw [hplace] at hfailed
        exact hfailed
    · cases h
  · split at h
    · rename_i ok _ hplace
      cases ok with
      | true =>
          obtain rfl := Option.some.inj h
          exact .closedWrite hplace
      | false =>
          obtain rfl := Option.some.inj h
          have hfailed := @ParentMoves.failed text s (.closeWrite false)
            (hwrite _ hplace rfl) nofun
          rw [hplace] at hfailed
          exact hfailed
    · cases h
  · split at h
    · rename_i success buf hplace hchild
      obtain rfl := Option.some.inj h
      exact .waited success buf hplace hchild
    · cases h

theorem moves_of_childStep {action : ChildAction} (h : childStep s action = some s') :
    ChildMoves s action s' := by
  unfold childStep at h
  split at h
  · split at h
    · rename_i ok _ hplace
      cases ok with
      | true =>
          obtain rfl := Option.some.inj h
          exact .closedWrite hplace
      | false =>
          obtain rfl := Option.some.inj h
          exact .failed _ (Or.inl hplace) nofun
    · cases h
  · split at h
    · rename_i hplace
      rcases Option.ite_none_right_eq_some.mp h with ⟨⟨hpos, hle, _⟩, ⟨⟩⟩
      exact .read _ hplace hpos hle
    · cases h
  · split at h
    · rename_i hplace
      rcases Option.ite_none_right_eq_some.mp h with ⟨⟨hpipe, hwriters⟩, ⟨⟩⟩
      exact .ended hplace hpipe hwriters
    · cases h
  · split at h
    · rename_i hplace
      obtain rfl := Option.some.inj h
      exact .failed _ (Or.inr hplace) id
    · cases h
  · split at h
    · rename_i buf hplace
      split at h
      · rename_i hshort
        obtain rfl := Option.some.inj h
        exact .short _ buf hplace hshort
      · obtain rfl := Option.some.inj h
        exact .wrote _ buf hplace
    · cases h
  · split at h
    · rename_i hplace
      obtain rfl := Option.some.inj h
      exact .newline _ hplace
    · cases h
  · split at h
    · rename_i hplace
      obtain rfl := Option.some.inj h
      exact .closed _ hplace
    · cases h

theorem Relaying.tail_eq_nil (h : Relaying text relayed tail s) (hclosing : s.child ≠ .closingRead)
    (hexited : ∀ ok buf, s.child ≠ .exited ok buf) : tail = [] := by
  rcases h.tail with htail | ⟨_, hplace | ⟨ok, hplace⟩⟩
  · exact htail
  · exact absurd hplace hclosing
  · exact absurd hplace (hexited ok [])

theorem Relaying.not_succeeded (h : Relaying text relayed tail s)
    (hexited : ∀ ok buf, s.child ≠ .exited ok buf) (rest : Bytes) :
    s.parent ≠ .exited true rest := by
  intro hparent
  rcases h.succeeded rest hparent with ⟨_, ok, buf, hchild⟩
  exact hexited ok buf hchild

theorem Relaying.parentFail (h : Relaying text relayed tail s)
    (hwrite : s.parentEnds.write = true) :
    Relaying text relayed tail (s.parentExit false (s.parent.rest text)) :=
  { h with
    conserved := h.conserved
    parentEnds := rfl
    drained := fun hended => by
      have hclosed := (h.drained hended).2.2
      rw [← h.parentEnds, hwrite] at hclosed
      cases hclosed
    succeeded := nofun }

theorem Relaying.childFail (h : Relaying text relayed tail s)
    (hplace : s.child = .closingWrite ∨ s.child = .reading) :
    Relaying text relayed tail (s.childExit false []) := by
  have hheld : s.child.held = [] := by
    rcases hplace with hplace | hplace
    · rw [hplace]
      rfl
    · rw [hplace]
      rfl
  have hconserved := h.conserved
  rw [hheld] at hconserved
  have htail : tail = [] := by
    rcases hplace with hplace | hplace
    · exact h.tail_eq_nil (hplace ▸ nofun) (hplace ▸ nofun)
    · exact h.tail_eq_nil (hplace ▸ nofun) (hplace ▸ nofun)
  exact { h with
    conserved := hconserved
    tail := Or.inl htail
    buffered := nofun
    childEnds := rfl
    drained := nofun
    succeeded := fun rest hrest => ⟨(h.succeeded rest hrest).1, false, [], rfl⟩ }

theorem Relaying.parentMoves {action : ParentAction} (h : Relaying text relayed tail s)
    (hmoves : ParentMoves text s action s') : Relaying text relayed tail s' := by
  have hconserved := h.conserved
  have hdrained := h.drained
  cases hmoves with
  | closedRead hplace =>
      rw [hplace] at hconserved hdrained
      exact { h with
        conserved := hconserved
        parentEnds := by
          change ({ s.parentEnds with read := false } : Ends) = _
          rw [h.parentEnds, hplace]
          rfl
        drained := hdrained
        succeeded := nofun }
  | put n rest hplace hpos hle hreaders =>
      rw [hplace] at hconserved hdrained
      refine { h with
        conserved := ?_
        parentEnds := h.parentEnds.trans (hplace ▸ rfl)
        drained := fun hended => absurd (hdrained hended).2.2 nofun
        succeeded := nofun }
      refine Eq.trans ?_ hconserved
      change relayed ++ s.child.held ++ (s.pipe ++ rest.take n) ++ rest.drop n =
        relayed ++ s.child.held ++ s.pipe ++ rest
      rw [← List.append_assoc, List.append_assoc _ (rest.take n), List.take_append_drop]
  | written hplace =>
      rw [hplace] at hconserved hdrained
      exact { h with
        conserved := hconserved
        parentEnds := h.parentEnds.trans (hplace ▸ rfl)
        drained := hdrained
        succeeded := nofun }
  | closedWrite hplace =>
      rw [hplace] at hconserved
      exact { h with
        conserved := hconserved
        parentEnds := by
          change ({ s.parentEnds with write := false } : Ends) = _
          rw [h.parentEnds, hplace]
          rfl
        drained := fun hended => ⟨(hdrained hended).1, (hdrained hended).2.1, rfl⟩
        succeeded := nofun }
  | waited success buf hplace hchild =>
      rw [hplace] at hconserved
      exact { h with
        conserved := hconserved
        parentEnds := rfl
        drained := fun hended => ⟨(hdrained hended).1, (hdrained hended).2.1, rfl⟩
        succeeded := fun rest hrest => by
          cases hrest
          exact ⟨rfl, success, buf, hchild⟩ }
  | failed _ hwrite _ => exact h.parentFail hwrite

theorem Relaying.childMoves {action : ChildAction} (h : Relaying text relayed tail s)
    (hmoves : ChildMoves s action s') :
    ∃ relayed' tail', Relaying text relayed' tail' s' ∧
      (s'.child ≠ .closingRead → tail' = tail) ∧
      (s'.child = .closingRead → ∃ k, action = .newline k ∧ tail' = (literal "\n").take k) := by
  have hconserved := h.conserved
  have hdrained := h.drained
  have hsucceeded := h.succeeded
  cases hmoves with
  | closedWrite hplace =>
      rw [hplace] at hconserved
      exact ⟨relayed, tail, { h with
        conserved := hconserved
        tail := Or.inl (h.tail_eq_nil (hplace ▸ nofun) (hplace ▸ nofun))
        buffered := nofun
        childEnds := by
          change ({ s.childEnds with write := false } : Ends) = _
          rw [h.childEnds, hplace]
          rfl
        drained := nofun
        succeeded := fun rest hrest => absurd hrest (h.not_succeeded (hplace ▸ nofun) rest) },
        fun _ => rfl, nofun⟩
  | read n hplace hpos hle =>
      rw [hplace] at hconserved
      refine ⟨relayed, tail, { h with
        conserved := ?_
        tail := Or.inl (h.tail_eq_nil (hplace ▸ nofun) (hplace ▸ nofun))
        buffered := ?_
        childEnds := h.childEnds.trans (hplace ▸ rfl)
        drained := nofun
        succeeded := fun rest hrest => absurd hrest (h.not_succeeded (hplace ▸ nofun) rest) },
        fun _ => rfl, nofun⟩
      · refine Eq.trans ?_ hconserved
        change relayed ++ s.pipe.take n ++ s.pipe.drop n ++ _ = relayed ++ [] ++ s.pipe ++ _
        rw [List.append_assoc relayed, List.take_append_drop, List.append_nil]
      · intro buf hbuf
        cases hbuf
        exact List.ne_nil_of_length_pos (by rw [List.length_take]; omega)
  | ended hplace hpipe hwriters =>
      rw [hplace] at hconserved
      exact ⟨relayed, tail, { h with
        conserved := hconserved
        tail := Or.inl (h.tail_eq_nil (hplace ▸ nofun) (hplace ▸ nofun))
        buffered := nofun
        childEnds := h.childEnds.trans (hplace ▸ rfl)
        drained := fun _ => by
          refine ⟨hpipe, rfl, ?_⟩
          rw [← h.parentEnds]
          exact (Bool.or_eq_false_iff.mp hwriters).1
        succeeded := fun rest hrest => absurd hrest (h.not_succeeded (hplace ▸ nofun) rest) },
        fun _ => rfl, nofun⟩
  | wrote k buf hplace =>
      rw [hplace] at hconserved
      have htail := h.tail_eq_nil (hplace ▸ nofun) (hplace ▸ nofun)
      refine ⟨relayed ++ buf, [], { h with
        output := ?_
        conserved := ?_
        tail := Or.inl rfl
        buffered := nofun
        childEnds := h.childEnds.trans (hplace ▸ rfl)
        drained := nofun
        succeeded := fun rest hrest => absurd hrest (h.not_succeeded (hplace ▸ nofun) rest) },
        fun _ => htail.symm, nofun⟩
      · change s.output ++ buf = _
        rw [h.output, htail, List.append_nil, List.append_nil]
      · change relayed ++ buf ++ [] ++ s.pipe ++ _ = text
        rw [List.append_nil]
        exact hconserved
  | short k buf hplace hshort =>
      rw [hplace] at hconserved
      have htail := h.tail_eq_nil (hplace ▸ nofun) (hplace ▸ nofun)
      refine ⟨relayed ++ buf.take k, [], { h with
        output := ?_
        conserved := ?_
        tail := Or.inl rfl
        buffered := nofun
        childEnds := rfl
        drained := nofun
        succeeded := fun rest hrest => ⟨(hsucceeded rest hrest).1, false, _, rfl⟩ },
        fun _ => htail.symm, nofun⟩
      · change s.output ++ buf.take k = _
        rw [h.output, htail, List.append_nil, List.append_nil]
      · change relayed ++ buf.take k ++ buf.drop k ++ s.pipe ++ _ = text
        rw [List.append_assoc relayed, List.take_append_drop]
        exact hconserved
  | newline k hplace =>
      rw [hplace] at hconserved hdrained
      have htail := h.tail_eq_nil (hplace ▸ nofun) (hplace ▸ nofun)
      refine ⟨relayed, (literal "\n").take k, { h with
        output := ?_
        conserved := hconserved
        tail := ?_
        buffered := nofun
        childEnds := h.childEnds.trans (hplace ▸ rfl)
        drained := hdrained
        succeeded := fun rest hrest => absurd hrest (h.not_succeeded (hplace ▸ nofun) rest) },
        fun hclosing => absurd rfl hclosing, fun _ => ⟨k, rfl, rfl⟩⟩
      · change s.output ++ _ = _
        rw [h.output, htail, List.append_nil]
      · cases k with
        | zero => exact Or.inl rfl
        | succ k =>
            exact Or.inr ⟨List.take_of_length_le (Nat.le_add_left 1 k), Or.inl rfl⟩
  | closed ok hplace =>
      rw [hplace] at hconserved hdrained
      exact ⟨relayed, tail, { h with
        conserved := hconserved
        tail := h.tail.imp_right fun htail => ⟨htail.1, Or.inr ⟨ok, rfl⟩⟩
        buffered := nofun
        childEnds := rfl
        drained := fun _ => hdrained trivial
        succeeded := fun rest hrest => ⟨(hsucceeded rest hrest).1, ok, [], rfl⟩ },
        fun _ => rfl, nofun⟩
  | failed _ hplace _ => exact ⟨relayed, tail, h.childFail hplace, fun _ => rfl, nofun⟩

/-- What the child prints is what the parent wrote, as far as it came, with or
without the line end. -/
structure Copied (text : Bytes) (s : System) : Prop where
  output : ∃ relayed, relayed <+: text ∧
    (s.output = relayed ∨ s.output = relayed ++ literal "\n")
  whole : ∀ rest buf, s.parent = .exited true rest → s.child = .exited true buf →
    s.output = text ∨ s.output = text ++ literal "\n"

theorem Relaying.step {action : Action} (h : Relaying text relayed tail s)
    (hstep : step text capacity s action = some s') :
    ∃ relayed' tail', Relaying text relayed' tail' s' := by
  cases action with
  | parent action =>
      exact ⟨relayed, tail, h.parentMoves (moves_of_parentStep h.parentEnds hstep)⟩
  | child action =>
      rcases h.childMoves (moves_of_childStep hstep) with ⟨relayed', tail', hrelaying, _, _⟩
      exact ⟨relayed', tail', hrelaying⟩

theorem relaying_of_run {actions : List Action}
    (hrun : run (step text capacity) .start actions = some s) :
    ∃ relayed tail, Relaying text relayed tail s := by
  have hinv : EveryState (Primer.step text capacity)
      (fun s => ∃ relayed tail, Relaying text relayed tail s) .start actions :=
    invariant ⟨[], [], relaying_start text⟩
      (fun _ _ _ h hstep => by
        rcases h with ⟨relayed, tail, h⟩
        exact h.step hstep) actions
  exact hinv.reached hrun

theorem Relaying.output_cases (h : Relaying text relayed tail s) :
    s.output = relayed ∨ s.output = relayed ++ literal "\n" := by
  rcases h.tail with htail | ⟨htail, _⟩
  · exact Or.inl (by rw [h.output, htail, List.append_nil])
  · exact Or.inr (by rw [h.output, htail])

theorem Relaying.relayed_eq (h : Relaying text relayed tail s) {rest buf : Bytes}
    (hparent : s.parent = .exited true rest) (hchild : s.child = .exited true buf) :
    relayed = text := by
  have hconserved := h.conserved
  rcases h.succeeded rest hparent with ⟨rfl, _⟩
  obtain ⟨hpipe, hheld, _⟩ := h.drained (hchild ▸ rfl)
  rw [hpipe, hheld, hparent] at hconserved
  change relayed ++ [] ++ [] ++ [] = text at hconserved
  rwa [List.append_nil, List.append_nil, List.append_nil] at hconserved

/-- Whatever calls fail, and however the two processes take turns. -/
theorem output_copied (text : Bytes) (capacity : Nat) (actions : List Action) (s : System)
    (hrun : run (step text capacity) .start actions = some s) : Copied text s := by
  rcases relaying_of_run hrun with ⟨relayed, tail, h⟩
  refine ⟨⟨relayed, ?_, h.output_cases⟩, fun rest buf hparent hchild => ?_⟩
  · refine ⟨s.child.held ++ s.pipe ++ s.parent.rest text, ?_⟩
    rw [← List.append_assoc, ← List.append_assoc]
    exact h.conserved
  · rw [← h.relayed_eq hparent hchild]
    exact h.output_cases

/-- The child reads while the parent is still writing. -/
def session : List Action :=
  [.parent (.closeRead true), .parent (.put 2), .child (.closeWrite true), .child (.read 1),
    .child (.write 1), .parent (.put 1), .parent .written, .child (.read 2),
    .parent (.closeWrite true), .child (.write 2), .child .eof, .child (.newline 1),
    .child (.closeRead true), .parent .wait]

theorem output_copied_session : ∃ s,
    run (step (literal "abc") 4) .start session = some s ∧ s.output = literal "abc\n" ∧
      Copied (literal "abc") s :=
  ⟨_, rfl, rfl, output_copied (literal "abc") 4 session _ rfl⟩

/-- What holds in addition where no call fails. -/
structure Untroubled (text relayed tail : Bytes) (s : System) : Prop where
  relaying : Relaying text relayed tail s
  parent : ∀ rest, s.parent ≠ .exited false rest
  child : ∀ buf, s.child ≠ .exited false buf
  lineEnd : (s.child = .closingRead ∨ ∃ ok buf, s.child = .exited ok buf) → tail = literal "\n"

theorem Untroubled.parentMoves {action : ParentAction} (h : Untroubled text relayed tail s)
    (hregular : Regular s (.parent action)) (hmoves : ParentMoves text s action s') :
    Untroubled text relayed tail s' := by
  have hrelaying := h.relaying.parentMoves hmoves
  have hchild := h.child
  have hlineEnd := h.lineEnd
  cases hmoves with
  | closedRead _ => exact ⟨hrelaying, nofun, hchild, hlineEnd⟩
  | put _ _ _ _ _ _ => exact ⟨hrelaying, nofun, hchild, hlineEnd⟩
  | written _ => exact ⟨hrelaying, nofun, hchild, hlineEnd⟩
  | closedWrite _ => exact ⟨hrelaying, nofun, hchild, hlineEnd⟩
  | waited _ _ _ _ => exact ⟨hrelaying, nofun, hchild, hlineEnd⟩
  | failed _ hwrite hfails =>
      -- The child has ended only after the parent has closed the write end.
      rcases hfails hregular with ⟨hreaders, rest, hwriting⟩
      have hclosed := (Bool.or_eq_false_iff.mp hreaders).2
      rw [h.relaying.childEnds] at hclosed
      rcases hplace : s.child with - | - | buf | - | - | ⟨success, buf⟩
      all_goals rw [hplace] at hclosed
      case exited =>
        cases success with
        | false => exact absurd hplace (h.child buf)
        | true =>
            have hdrained := (h.relaying.drained (hplace ▸ rfl)).2.2
            rw [hwriting] at hdrained
            cases hdrained
      all_goals cases hclosed

theorem Untroubled.childMoves {action : ChildAction} (h : Untroubled text relayed tail s)
    (hregular : Regular s (.child action)) (hmoves : ChildMoves s action s') :
    ∃ relayed' tail', Untroubled text relayed' tail' s' := by
  rcases h.relaying.childMoves hmoves with ⟨relayed', tail', hrelaying, hsame, hclosing⟩
  refine ⟨relayed', tail', ?_⟩
  have hparent := h.parent
  cases hmoves with
  | closedWrite _ => exact ⟨hrelaying, hparent, nofun, nofun⟩
  | read _ _ _ _ => exact ⟨hrelaying, hparent, nofun, nofun⟩
  | ended _ _ _ => exact ⟨hrelaying, hparent, nofun, nofun⟩
  | wrote _ _ _ => exact ⟨hrelaying, hparent, nofun, nofun⟩
  | short k buf hplace hshort =>
      exact absurd hshort (Nat.not_lt_of_le (Nat.le_of_eq (hregular buf hplace).symm))
  | newline k hplace =>
      refine ⟨hrelaying, hparent, nofun, fun _ => ?_⟩
      rcases hclosing rfl with ⟨_, haction, rfl⟩
      cases haction
      rw [show k = 1 from hregular]
      rfl
  | closed ok hplace =>
      refine ⟨hrelaying, hparent, ?_, fun _ => ?_⟩
      · rw [show ok = true from hregular]
        nofun
      · exact (hsame nofun).trans (h.lineEnd (Or.inl hplace))
  | failed _ _ hfails => exact absurd hregular hfails

theorem Untroubled.step {action : Action} (h : Untroubled text relayed tail s)
    (hregular : Regular s action) (hstep : step text capacity s action = some s') :
    ∃ relayed' tail', Untroubled text relayed' tail' s' := by
  cases action with
  | parent action =>
      exact ⟨relayed, tail,
        h.parentMoves hregular (moves_of_parentStep h.relaying.parentEnds hstep)⟩
  | child action => exact h.childMoves hregular (moves_of_childStep hstep)

theorem untroubled_of_run {actions : List Action}
    (hregular : EveryStep (step text capacity) Regular .start actions)
    (hrun : run (step text capacity) .start actions = some s) :
    ∃ relayed tail, Untroubled text relayed tail s := by
  have hinv : EveryState (Primer.step text capacity)
      (fun s => ∃ relayed tail, Untroubled text relayed tail s) .start actions :=
    invariant_of_everyStep ⟨[], [], relaying_start text, nofun, nofun, nofun⟩
      (fun _ _ _ h hregular hstep => by
        rcases h with ⟨relayed, tail, h⟩
        exact h.step hregular hstep) hregular
  exact hinv.reached hrun

/-- Neither process can go on without a failure. -/
def Stuck (text : Bytes) (capacity : Nat) (s : System) : Prop :=
  ∀ action, Regular s action → step text capacity s action = none

/-- Both processes have ended with success, and all is printed. -/
def Completed (text : Bytes) (s : System) : Prop :=
  (∃ rest, s.parent = .exited true rest) ∧ (∃ buf, s.child = .exited true buf) ∧
    s.output = text ++ literal "\n"

theorem child_of_stuck (h : Untroubled text relayed tail s) (hstuck : Stuck text capacity s) :
    (∃ buf, s.child = .exited true buf) ∨
      s.child = .reading ∧ s.pipe = [] ∧ s.parentEnds.write = true := by
  rcases hplace : s.child with - | - | buf | - | - | ⟨success, buf⟩
  · have hnone := hstuck (.child (.closeWrite true)) rfl
    rw [step, childStep, hplace] at hnone
    cases hnone
  · refine Or.inr ⟨rfl, ?_⟩
    have hpipe : s.pipe = [] := by
      by_contra hpipe
      have hlength := List.length_pos_of_ne_nil hpipe
      have hnone := hstuck (.child (.read 1)) trivial
      rw [step, childStep, hplace] at hnone
      exact absurd hnone (by simp [BUF_SIZE, Nat.one_le_iff_ne_zero, Nat.ne_of_gt hlength])
    refine ⟨hpipe, ?_⟩
    have hchildEnds : s.childEnds.write = false := by
      rw [h.relaying.childEnds, hplace]
      rfl
    by_contra hwrite
    have hnone := hstuck (.child .eof) trivial
    rw [step, childStep, hplace] at hnone
    exact absurd hnone (by simp [hpipe, System.writers, hwrite, hchildEnds])
  · have hnone := hstuck (.child (.write buf.length)) fun buf' hbuf' => by
      rw [hplace] at hbuf'
      cases hbuf'
      rfl
    rw [step, childStep, hplace] at hnone
    exact absurd hnone (by simp)
  · have hnone := hstuck (.child (.newline 1)) rfl
    rw [step, childStep, hplace] at hnone
    cases hnone
  · have hnone := hstuck (.child (.closeRead true)) rfl
    rw [step, childStep, hplace] at hnone
    cases hnone
  · cases success with
    | true => exact Or.inl ⟨buf, rfl⟩
    | false => exact absurd hplace (h.child buf)

/-- The parent waits for room in the pipe at most while there is something in it. -/
theorem parent_of_stuck (h : Untroubled text relayed tail s) (hcapacity : 0 < capacity)
    (hstuck : Stuck text capacity s) (hpipe : s.pipe = []) (hreads : s.childEnds.read = true) :
    s.parentEnds.write = false := by
  have hends := h.relaying.parentEnds
  rcases hplace : s.parent with - | rest | - | - | ⟨success, rest⟩
  · have hnone := hstuck (.parent (.closeRead true)) rfl
    rw [step, parentStep, hplace] at hnone
    cases hnone
  · cases rest with
    | nil =>
        have hnone := hstuck (.parent .written) trivial
        rw [step, parentStep, hplace] at hnone
        cases hnone
    | cons b rest =>
        have hnone := hstuck (.parent (.put 1)) trivial
        rw [step, parentStep, hplace] at hnone
        have hroom : 0 < 1 ∧ 1 ≤ (b :: rest).length ∧ s.pipe.length + 1 ≤ capacity ∧
            s.readers = true := by
          refine ⟨Nat.one_pos, Nat.le_add_left 1 _, ?_, ?_⟩
          · rw [hpipe]
            exact hcapacity
          · rw [System.readers, hreads, Bool.or_true]
        exact absurd ((if_pos hroom).symm.trans hnone) nofun
  · have hnone := hstuck (.parent (.closeWrite true)) rfl
    rw [step, parentStep, hplace] at hnone
    cases hnone
  all_goals
    rw [hends, hplace]
    rfl

theorem copied_of_stuck (h : Untroubled text relayed tail s) (hcapacity : 0 < capacity)
    (hstuck : Stuck text capacity s) : Completed text s := by
  rcases child_of_stuck h hstuck with ⟨buf, hchild⟩ | ⟨hplace, hpipe, hwrite⟩
  case inr =>
    have hreads : s.childEnds.read = true := by
      rw [h.relaying.childEnds, hplace]
      rfl
    rw [parent_of_stuck h hcapacity hstuck hpipe hreads] at hwrite
    cases hwrite
  have hclosed := (h.relaying.drained (hchild ▸ rfl)).2.2
  have hparent : ∃ rest, s.parent = .exited true rest := by
    rcases hplace : s.parent with - | rest | - | - | ⟨success, rest⟩
    case waiting =>
      have hnone := hstuck (.parent .wait) trivial
      rw [step, parentStep, hplace, hchild] at hnone
      cases hnone
    case exited =>
      cases success with
      | true => exact ⟨rest, rfl⟩
      | false => exact absurd hplace (h.parent rest)
    all_goals
      rw [hplace] at hclosed
      cases hclosed
  rcases hparent with ⟨rest, hparent⟩
  refine ⟨⟨rest, hparent⟩, ⟨buf, hchild⟩, ?_⟩
  rw [h.relaying.output, h.relaying.relayed_eq hparent hchild,
    h.lineEnd (Or.inr ⟨true, buf, hchild⟩)]

def ParentPlace.rank : ParentPlace → Nat
  | .closingRead => 0
  | .writing _ => 1
  | .closingWrite => 2
  | .waiting => 3
  | .exited _ _ => 4

def ChildPlace.rank : ChildPlace → Nat
  | .closingWrite => 0
  | .reading => 1
  | .writing _ => 1
  | .newline => 2
  | .closingRead => 3
  | .exited _ _ => 4

/-- Bytes weigh more the further they have come. -/
def System.rank (s : System) : Nat :=
  s.parent.rank + s.child.rank + s.pipe.length + 2 * s.child.held.length + 3 * s.output.length

theorem rank_parentMoves {action : ParentAction} (h : Relaying text relayed tail s)
    (hmoves : ParentMoves text s action s') : s.rank + 1 ≤ s'.rank := by
  cases hmoves with
  | closedRead hplace =>
      rw [System.rank, System.rank, hplace]
      simp only [ParentPlace.rank]
      omega
  | put n rest hplace hpos hle hreaders =>
      rw [System.rank, System.rank, hplace]
      simp only [ParentPlace.rank, List.length_append, List.length_take]
      omega
  | written hplace =>
      rw [System.rank, System.rank, hplace]
      simp only [ParentPlace.rank]
      omega
  | closedWrite hplace =>
      rw [System.rank, System.rank, hplace]
      simp only [ParentPlace.rank]
      omega
  | waited success buf hplace hchild =>
      rw [System.rank, System.rank, hplace]
      simp only [System.parentExit, ParentPlace.rank]
      omega
  | failed _ hwrite _ =>
      have hplace : s.parent.rank ≤ 2 := by
        rw [h.parentEnds] at hwrite
        rcases hparent : s.parent with - | rest | - | - | ⟨success, rest⟩
        all_goals rw [hparent] at hwrite
        all_goals first | exact Nat.le_of_ble_eq_true rfl | cases hwrite
      rw [System.rank]
      change _ ≤ 4 + s.child.rank + s.pipe.length + 2 * s.child.held.length + 3 * s.output.length
      omega

theorem rank_childMoves {action : ChildAction} (h : Relaying text relayed tail s)
    (hmoves : ChildMoves s action s') : s.rank + 1 ≤ s'.rank := by
  cases hmoves with
  | closedWrite hplace =>
      rw [System.rank, System.rank, hplace]
      simp only [ChildPlace.rank, ChildPlace.held]
      omega
  | read n hplace hpos hle =>
      rw [System.rank, System.rank, hplace]
      simp only [ChildPlace.rank, ChildPlace.held, List.length_take, List.length_drop,
        List.length_nil]
      omega
  | ended hplace hpipe hwriters =>
      rw [System.rank, System.rank, hplace]
      simp only [ChildPlace.rank, ChildPlace.held]
      omega
  | wrote k buf hplace =>
      have hbuf := List.length_pos_of_ne_nil (h.buffered buf hplace)
      rw [System.rank, System.rank, hplace]
      simp only [ChildPlace.rank, ChildPlace.held, List.length_append, List.length_nil]
      omega
  | short k buf hplace hshort =>
      rw [System.rank, System.rank, hplace]
      simp only [System.childExit, ChildPlace.rank, ChildPlace.held, List.length_append,
        List.length_take, List.length_drop]
      omega
  | newline k hplace =>
      rw [System.rank, System.rank, hplace]
      simp only [ChildPlace.rank, ChildPlace.held, List.length_append]
      omega
  | closed ok hplace =>
      rw [System.rank, System.rank, hplace]
      simp only [System.childExit, ChildPlace.rank, ChildPlace.held]
      omega
  | failed _ hplace _ =>
      have hheld : s.child.rank ≤ 1 ∧ s.child.held = [] := by
        rcases hplace with hplace | hplace
        · rw [hplace]
          exact ⟨Nat.zero_le 1, rfl⟩
        · rw [hplace]
          exact ⟨Nat.le_refl 1, rfl⟩
      rw [System.rank, hheld.2]
      change s.parent.rank + s.child.rank + s.pipe.length + 2 * 0 + 3 * s.output.length + 1 ≤
        s.parent.rank + 4 + s.pipe.length + 2 * 0 + 3 * s.output.length
      omega

theorem Relaying.rank_le (h : Relaying text relayed tail s) :
    s.rank ≤ 3 * text.length + 11 := by
  have hparent : s.parent.rank ≤ 4 := by
    rcases s.parent with - | rest | - | - | ⟨success, rest⟩
    all_goals exact Nat.le_of_ble_eq_true rfl
  have hchild : s.child.rank ≤ 4 := by
    rcases s.child with - | - | buf | - | - | ⟨success, buf⟩
    all_goals exact Nat.le_of_ble_eq_true rfl
  have htail : tail.length ≤ 1 := by
    rcases h.tail with htail | ⟨htail, _⟩
    · rw [htail]
      exact Nat.zero_le 1
    · rw [htail]
      exact Nat.le_refl 1
  have hlength := congrArg List.length h.conserved
  simp only [List.length_append] at hlength
  rw [System.rank, h.output, List.length_append]
  omega

/-- Without a failure the parent never waits for a child that waits for it, and the
copy comes to its end. -/
theorem relay_completes (text : Bytes) (capacity : Nat) (hcapacity : 0 < capacity)
    (actions : List Action) (s : System)
    (hregular : EveryStep (step text capacity) Regular .start actions)
    (hrun : run (step text capacity) .start actions = some s) :
    (Stuck text capacity s → Completed text s) ∧ actions.length ≤ 3 * text.length + 11 := by
  rcases untroubled_of_run hregular hrun with ⟨relayed, tail, h⟩
  refine ⟨copied_of_stuck h hcapacity, ?_⟩
  have hlength : System.start.rank + actions.countP (fun _ => true) ≤ s.rank :=
    @countP_le_rank _ _ (step text capacity) (fun s => ∃ relayed tail, Relaying text relayed tail s)
      System.rank (fun _ => true) (fun _ _ _ h hstep => by
        rcases h with ⟨relayed, tail, h⟩
        exact h.step hstep) (fun _ a _ h hstep => by
        rcases h with ⟨relayed, tail, h⟩
        cases a with
        | parent action => exact rank_parentMoves h (moves_of_parentStep h.parentEnds hstep)
        | child action => exact rank_childMoves h (moves_of_childStep hstep)) actions _ _
      ⟨[], [], relaying_start text⟩ hrun
  have hbound := h.relaying.rank_le
  rw [List.countP_true] at hlength
  omega

theorem stuck_of_exited {success success' : Bool} {rest buf : Bytes}
    (hparent : s.parent = .exited success rest) (hchild : s.child = .exited success' buf) :
    Stuck text capacity s := by
  intro action _
  rcases action with action | action
  · cases action <;> rw [step, parentStep, hparent]
  · cases action <;> rw [step, childStep, hchild]

theorem relay_completes_session : ∃ s,
    run (step (literal "abc") 4) .start session = some s ∧ Completed (literal "abc") s ∧
      session.length ≤ 3 * (literal "abc").length + 11 := by
  have hwrite : ∀ {buf buf' : Bytes}, ChildPlace.writing buf = .writing buf' →
      buf.length = buf'.length := by
    rintro _ _ ⟨⟩
    rfl
  have hregular : EveryStep (step (literal "abc") 4) Regular .start session :=
    .cons rfl rfl <| .cons rfl trivial <| .cons rfl rfl <| .cons rfl trivial <|
    .cons rfl (fun _ => hwrite) <| .cons rfl trivial <| .cons rfl trivial <|
    .cons rfl trivial <| .cons rfl rfl <| .cons rfl (fun _ => hwrite) <| .cons rfl trivial <|
    .cons rfl rfl <| .cons rfl rfl <| .cons rfl trivial <| everyStep_nil _ _
  have h := relay_completes (literal "abc") 4 (by decide) session _ hregular rfl
  exact ⟨_, rfl, h.1 (stuck_of_exited rfl rfl), h.2⟩

end StudyLinuxKernel.Pipe.Primer
