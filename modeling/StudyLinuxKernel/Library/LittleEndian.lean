import Mathlib.Algebra.Group.Nat.Defs

namespace StudyLinuxKernel.Library.LittleEndian

/-- The `width` lowest bytes of a number, the least significant one first. -/
def leBytes : Nat → Nat → List UInt8
  | 0, _ => []
  | width + 1, value => UInt8.ofNat value :: leBytes width (value / 256)

def leValue : List UInt8 → Nat
  | [] => 0
  | byte :: bytes => byte.toNat + 256 * leValue bytes

@[simp] theorem length_leBytes (width value : Nat) : (leBytes width value).length = width := by
  induction width generalizing value with
  | zero => rfl
  | succ width ih => simp [leBytes, ih]

theorem leValue_leBytes (width value : Nat) :
    leValue (leBytes width value) = value % 256 ^ width := by
  induction width generalizing value with
  | zero => simp [leBytes, leValue, Nat.mod_one]
  | succ width ih =>
      rw [leBytes, leValue, ih, Nat.pow_succ, Nat.mul_comm (256 ^ width), Nat.mod_mul]
      simp

theorem leValue_leBytes_of_lt {width value : Nat} (h : value < 256 ^ width) :
    leValue (leBytes width value) = value := by
  rw [leValue_leBytes, Nat.mod_eq_of_lt h]

end StudyLinuxKernel.Library.LittleEndian
