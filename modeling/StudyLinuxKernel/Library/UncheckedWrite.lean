import Mathlib.Data.List.Basic

/-!
What comes of calls of `write` whose results are not looked at: each takes some of its
bytes from the front, and the others are lost.
-/

namespace StudyLinuxKernel.Library.UncheckedWrite

variable {β : Type*}

/-- `handed` is what the calls were given, and `short` says that one of them has not
taken all of it. -/
structure Output (β : Type*) where
  handed : List β
  written : List β
  short : Bool

def Output.empty : Output β := { handed := [], written := [], short := false }

/-- A call that takes `n` bytes at most, and none where it fails. -/
def Output.write (o : Output β) (msg : List β) (n : Nat) : Output β where
  handed := o.handed ++ msg
  written := o.written ++ msg.take n
  short := o.short || decide (n < msg.length)

/-- What is written comes in the order in which it was handed over. -/
structure Output.Ordered (o : Output β) : Prop where
  sublist : o.written.Sublist o.handed
  whole : o.short = false → o.written = o.handed

theorem ordered_empty : (Output.empty : Output β).Ordered where
  sublist := List.Sublist.refl []
  whole := fun _ => rfl

theorem Output.Ordered.write {o : Output β} (h : o.Ordered) (msg : List β) (n : Nat) :
    (o.write msg n).Ordered := by
  refine ⟨h.sublist.append (List.take_sublist n msg), fun hshort => ?_⟩
  obtain ⟨hbefore, htaken⟩ := Bool.or_eq_false_iff.mp hshort
  have hall : msg.length ≤ n := Nat.le_of_not_lt (of_decide_eq_false htaken)
  change o.written ++ msg.take n = o.handed ++ msg
  rw [h.whole hbefore, List.take_of_length_le hall]

end StudyLinuxKernel.Library.UncheckedWrite
