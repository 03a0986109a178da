import Mathlib.Algebra.Group.Nat.Defs
import StudyLinuxKernel.Libc.Text

namespace StudyLinuxKernel.Libc.Decimal

open StudyLinuxKernel.Libc.Text

/-- A number in decimal, as streams and `%d` write it. -/
def decimal (n : Nat) : Bytes := (Nat.toDigits 10 n).map Char.toUInt8

def isDigit (ch : UInt8) : Bool := 48 ≤ ch && ch ≤ 57

/-- The number that a string of digits writes. -/
def digitsValue (digits : Bytes) : Nat :=
  digits.foldl (fun value ch => 10 * value + (ch.toNat - 48)) 0

theorem zero_not_mem_decimal (n : Nat) : 0 ∉ decimal n := by
  intro hmem
  obtain ⟨c, hc, hzero⟩ := List.mem_map.mp hmem
  have hdigit : c.isDigit = true :=
    Nat.isDigit_of_mem_toDigits (by decide) (by decide) hc
  rw [Char.isDigit, Bool.and_eq_true, decide_eq_true_eq, decide_eq_true_eq,
    UInt32.le_iff_toNat_le, ge_iff_le, UInt32.le_iff_toNat_le] at hdigit
  have hvalue : c.val.toNat % 256 = 0 := by
    rw [← UInt32.toNat_toUInt8]
    exact congrArg UInt8.toNat hzero
  have hlow : 48 ≤ c.val.toNat := hdigit.1
  have hhigh : c.val.toNat ≤ 57 := hdigit.2
  omega

theorem toNat_of_mem_toDigits {n : Nat} {c : Char} (h : c ∈ Nat.toDigits 10 n) :
    c.toUInt8.toNat = c.toNat ∧ 48 ≤ c.toNat ∧ c.toNat ≤ 57 := by
  have hdigit : c.isDigit = true := Nat.isDigit_of_mem_toDigits (by decide) (by decide) h
  rw [Char.isDigit, Bool.and_eq_true, decide_eq_true_eq, decide_eq_true_eq,
    UInt32.le_iff_toNat_le, ge_iff_le, UInt32.le_iff_toNat_le] at hdigit
  have hlow : 48 ≤ c.toNat := hdigit.1
  have hhigh : c.toNat ≤ 57 := hdigit.2
  refine ⟨?_, hlow, hhigh⟩
  change c.val.toUInt8.toNat = c.toNat
  rw [UInt32.toNat_toUInt8]
  exact Nat.mod_eq_of_lt (Nat.lt_of_le_of_lt hhigh (by decide))

theorem isDigit_of_mem_decimal {n : Nat} {ch : UInt8} (h : ch ∈ decimal n) :
    isDigit ch = true := by
  obtain ⟨c, hc, rfl⟩ := List.mem_map.mp h
  obtain ⟨hsame, hlow, hhigh⟩ := toNat_of_mem_toDigits hc
  rw [isDigit, Bool.and_eq_true, decide_eq_true_eq, decide_eq_true_eq, UInt8.le_iff_toNat_le,
    UInt8.le_iff_toNat_le, hsame]
  exact ⟨hlow, hhigh⟩

theorem decimal_ne_nil (n : Nat) : decimal n ≠ [] := by
  rw [decimal, Ne, List.map_eq_nil_iff]
  exact Nat.toDigits_ne_nil

theorem length_decimal_le_iff {n k : Nat} (hk : 0 < k) :
    (decimal n).length ≤ k ↔ n < 10 ^ k := by
  rw [decimal, List.length_map]
  exact Nat.length_toDigits_le_iff (by decide) hk

theorem length_decimal_le {n k : Nat} (hk : 0 < k) (h : n < 10 ^ k) : (decimal n).length ≤ k :=
  (length_decimal_le_iff hk).mpr h

theorem digitsValue_decimal (n : Nat) : digitsValue (decimal n) = n := by
  have hsame : ∀ value, ∀ c ∈ Nat.toDigits 10 n,
      10 * value + (c.toUInt8.toNat - 48) = 10 * value + (c.toNat - '0'.toNat) := by
    intro value c hc
    rw [(toNat_of_mem_toDigits hc).1]
    rfl
  rw [digitsValue, decimal, List.foldl_map, List.foldl_ext _ _ _ hsame]
  exact Nat.ofDigitChars_ten_toDigits

theorem decimal_injective : Function.Injective decimal :=
  Function.LeftInverse.injective digitsValue_decimal

theorem takeWhile_decimal_append (n : Nat) {rest : Bytes}
    (h : rest.head?.all fun ch => !isDigit ch) :
    (decimal n ++ rest).takeWhile isDigit = decimal n := by
  rw [List.takeWhile_append_of_pos fun _ hch => isDigit_of_mem_decimal hch]
  cases rest with
  | nil => rw [List.takeWhile_nil, List.append_nil]
  | cons ch rest =>
      have hch : isDigit ch = false := by simpa using h
      rw [List.takeWhile_cons_of_neg (by simp [hch]), List.append_nil]

theorem decimal_append_inj {n m : Nat} {rest rest' : Bytes}
    (h : rest.head?.all fun ch => !isDigit ch) (h' : rest'.head?.all fun ch => !isDigit ch)
    (heq : decimal n ++ rest = decimal m ++ rest') : n = m ∧ rest = rest' := by
  have hdigits := congrArg (List.takeWhile isDigit) heq
  rw [takeWhile_decimal_append n h, takeWhile_decimal_append m h'] at hdigits
  refine ⟨decimal_injective hdigits, ?_⟩
  rw [hdigits] at heq
  exact List.append_cancel_left heq

end StudyLinuxKernel.Libc.Decimal
