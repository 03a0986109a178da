import Mathlib.Data.Option.Basic
import Mathlib.Logic.Function.Basic

/-!
The file descriptors of a process.  A descriptor that is opened is the lowest one
that is free, `dup2` lets two of them stand for one file, and an end of a pipe is
held as long as some descriptor stands for it.
-/

namespace StudyLinuxKernel.Library.DescriptorTable

variable {F G : Type*}

/-- From `bound` on no descriptor is open. -/
structure Table (F : Type*) where
  entries : Nat → Option F
  bound : Nat
  closed : ∀ fd, bound ≤ fd → entries fd = none

/-- What is left of it to a process that has ended. -/
def Table.empty : Table F where
  entries := fun _ => none
  bound := 0
  closed := fun _ _ => rfl

def Table.map (f : F → G) (t : Table F) : Table G where
  entries := fun fd => (t.entries fd).map f
  bound := t.bound
  closed := fun fd hfd => by rw [t.closed fd hfd, Option.map_none]

def Table.set (t : Table F) (fd : Nat) (file : Option F) : Table F where
  entries := Function.update t.entries fd file
  bound := max t.bound (fd + 1)
  closed := fun fd' hfd' => by
    rw [Function.update_of_ne (by omega)]
    exact t.closed fd' (by omega)

def Table.lowestFree (t : Table F) : Nat :=
  ((List.range t.bound).find? fun fd => (t.entries fd).isNone).getD t.bound

/-- A file is opened. -/
def Table.install (t : Table F) (file : F) : Nat × Table F :=
  (t.lowestFree, t.set t.lowestFree (some file))

def Table.close (t : Table F) (fd : Nat) : Option (Table F) :=
  match t.entries fd with
  | none => none
  | some _ => some (t.set fd none)

def Table.dup2 (t : Table F) (oldfd newfd : Nat) : Option (Table F) :=
  match t.entries oldfd with
  | none => none
  | some file => if oldfd = newfd then some t else some (t.set newfd (some file))

def Table.holds [DecidableEq F] (t : Table F) (file : F) : Bool :=
  (List.range t.bound).any fun fd => t.entries fd = some file

theorem Table.lowestFree_free (t : Table F) : t.entries t.lowestFree = none := by
  rw [lowestFree]
  rcases hfind : (List.range t.bound).find? fun fd => (t.entries fd).isNone with - | fd
  · exact t.closed _ (Nat.le_refl _)
  · have hfree : (t.entries fd).isNone = true :=
      @List.find?_some _ (fun fd => (t.entries fd).isNone) fd _ hfind
    exact Option.isNone_iff_eq_none.mp hfree

theorem Table.entries_close {t : Table F} {fd : Nat} {file : F} (h : t.entries fd = some file) :
    ∃ t', t.close fd = some t' ∧ t'.entries = Function.update t.entries fd none := by
  rw [close, h]
  exact ⟨_, rfl, rfl⟩

theorem Table.entries_dup2 {t : Table F} {oldfd newfd : Nat} {file : F}
    (h : t.entries oldfd = some file) (hne : oldfd ≠ newfd) :
    ∃ t', t.dup2 oldfd newfd = some t' ∧
      t'.entries = Function.update t.entries newfd (some file) := by
  rw [dup2, h]
  exact ⟨_, if_neg hne, rfl⟩

theorem Table.holds_iff [DecidableEq F] (t : Table F) (file : F) :
    t.holds file = true ↔ ∃ fd, t.entries fd = some file := by
  rw [holds, List.any_eq_true]
  constructor
  · rintro ⟨fd, _, hfd⟩
    exact ⟨fd, of_decide_eq_true hfd⟩
  · rintro ⟨fd, hfd⟩
    refine ⟨fd, List.mem_range.mpr ?_, decide_eq_true hfd⟩
    by_contra hbound
    rw [t.closed fd (by omega)] at hfd
    cases hfd

end StudyLinuxKernel.Library.DescriptorTable
