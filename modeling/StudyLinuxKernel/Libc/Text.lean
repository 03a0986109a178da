import Mathlib.Data.List.DropRight

namespace StudyLinuxKernel.Libc.Text

abbrev Bytes := List UInt8

/-- The bytes of a string literal of the source, which is UTF-8 encoded. -/
def literal (s : String) : Bytes := s.toUTF8.data.toList

def tab : UInt8 := 9
def lf : UInt8 := 10
def cr : UInt8 := 13
def space : UInt8 := 32
def colon : UInt8 := 58

/-- What a C function sees of a string: the bytes in front of its first NUL. -/
def cStr (s : Bytes) : Bytes := s.takeWhile (· ≠ 0)

/-- What `snprintf` leaves of a text in a buffer of `size` bytes. -/
def snprintf (size : Nat) (text : Bytes) : Bytes := text.take (size - 1)

/-- A zeroed array of `size` bytes, read as a C string after the bytes `written`
were stored in it.  Where they fill the array, the reader goes on into the
memory behind it. -/
def bufferText (size : Nat) (written behind : Bytes) : Bytes :=
  if written.length < size then cStr written else cStr (written ++ behind)

theorem zero_not_mem_cStr (s : Bytes) : 0 ∉ cStr s := by
  intro hmem
  have hkept := List.mem_takeWhile_imp hmem
  simp at hkept

theorem cStr_eq_self {s : Bytes} (h : 0 ∉ s) : cStr s = s := by
  apply List.takeWhile_eq_self_iff.mpr
  intro c hc
  rw [decide_eq_true_eq]
  rintro rfl
  exact h hc

theorem cStr_append {s : Bytes} (h : 0 ∉ s) (rest : Bytes) : cStr (s ++ rest) = s ++ cStr rest := by
  apply List.takeWhile_append_of_pos
  intro ch hch
  rw [decide_eq_true_eq]
  rintro rfl
  exact h hch

theorem take_cStr_append {s : Bytes} {n : Nat} (h : n ≤ s.length) (rest : Bytes) :
    (cStr (s ++ rest)).take n = (cStr s).take n := by
  rw [cStr, cStr, List.takeWhile_append]
  split
  · rename_i hall
    have hself : s.takeWhile (· ≠ 0) = s := (List.takeWhile_prefix _).eq_of_length hall
    rw [hself, List.take_append_of_le_length h]
  · rfl

theorem cStr_replicate_zero (n : Nat) : cStr (List.replicate n 0) = [] := by
  cases n with
  | zero => rfl
  | succ n => rfl

theorem zero_not_mem_bufferText (size : Nat) (written behind : Bytes) :
    0 ∉ bufferText size written behind := by
  rw [bufferText]
  split
  · exact zero_not_mem_cStr written
  · exact zero_not_mem_cStr (written ++ behind)

end StudyLinuxKernel.Libc.Text
