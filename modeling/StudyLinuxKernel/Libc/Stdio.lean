import StudyLinuxKernel.Libc.Text

namespace StudyLinuxKernel.Libc.Stdio

open StudyLinuxKernel.Libc.Text

/-- `fgets` with room for `n` characters and a NUL: what it reads, and what it
leaves of the input. -/
def fgets : Nat → Bytes → Bytes × Bytes
  | 0, input => ([], input)
  | _ + 1, [] => ([], [])
  | n + 1, ch :: input =>
      if ch = lf then ([lf], input)
      else (ch :: (fgets n input).1, (fgets n input).2)

theorem fgets_append (n : Nat) (input : Bytes) :
    (fgets n input).1 ++ (fgets n input).2 = input := by
  induction n generalizing input with
  | zero => rfl
  | succ n ih =>
      cases input with
      | nil => rfl
      | cons ch input =>
          rw [fgets]
          split
          · rename_i hlf
            rw [hlf]
            rfl
          · exact congrArg (ch :: ·) (ih input)

theorem length_fgets_le (n : Nat) (input : Bytes) : (fgets n input).1.length ≤ n := by
  induction n generalizing input with
  | zero => exact Nat.le_refl 0
  | succ n ih =>
      cases input with
      | nil => exact Nat.zero_le _
      | cons ch input =>
          rw [fgets]
          split
          · exact Nat.succ_le_succ (Nat.zero_le n)
          · exact Nat.succ_le_succ (ih input)

theorem fgets_ne_nil {n : Nat} (hn : 0 < n) {input : Bytes} (h : input ≠ []) :
    (fgets n input).1 ≠ [] := by
  cases n with
  | zero => cases hn
  | succ n =>
      cases input with
      | nil => exact absurd rfl h
      | cons ch input =>
          rw [fgets]
          split
          · exact List.cons_ne_nil _ _
          · exact List.cons_ne_nil _ _

theorem fgets_line {n : Nat} {chars : Bytes} (hchars : lf ∉ chars) (hfits : chars.length < n) :
    fgets n (chars ++ [lf]) = (chars ++ [lf], []) := by
  induction chars generalizing n with
  | nil =>
      cases n with
      | zero => cases hfits
      | succ n => exact if_pos rfl
  | cons ch chars ih =>
      rw [List.mem_cons, not_or] at hchars
      cases n with
      | zero => cases hfits
      | succ n =>
          rw [List.cons_append, fgets, if_neg (Ne.symm hchars.1),
            ih hchars.2 (Nat.lt_of_succ_lt_succ hfits)]

theorem head?_fgets {n : Nat} (hn : 0 < n) (input : Bytes) :
    (fgets n input).1.head? = input.head? := by
  rcases Decidable.em (input = []) with rfl | hinput
  · cases n with
    | zero => rfl
    | succ n => rfl
  · have happend := fgets_append n input
    have hhead : ((fgets n input).1 ++ (fgets n input).2).head? = input.head? := by rw [happend]
    rw [List.head?_append_of_ne_nil _ (fgets_ne_nil hn hinput)] at hhead
    exact hhead

end StudyLinuxKernel.Libc.Stdio
