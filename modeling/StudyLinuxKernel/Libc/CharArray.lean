import StudyLinuxKernel.Libc.Text

namespace StudyLinuxKernel.Libc.CharArray

open StudyLinuxKernel.Libc.Text

def store (dest : Bytes) (i : Nat) (src : Bytes) : Option Bytes :=
  if i + src.length ≤ dest.length then
    some (dest.take i ++ src ++ dest.drop (i + src.length))
  else none

def strncpy (dest src : Bytes) (n : Nat) : Option Bytes :=
  store dest 0 ((cStr src).take n ++ List.replicate (n - (cStr src).length) 0)

def strncat (dest src : Bytes) (n : Nat) : Option Bytes :=
  store dest (cStr dest).length ((cStr src).take n ++ [0])

def strrchr (c : UInt8) : Bytes → Option Nat
  | [] => none
  | ch :: rest =>
      match strrchr c rest with
      | some i => some (i + 1)
      | none => if ch = c then some 0 else none

/-- The text from the first occurrence of the needle on. -/
def strstr : Bytes → Bytes → Option Bytes
  | [], needle => if needle = [] then some [] else none
  | ch :: rest, needle => if needle <+: ch :: rest then some (ch :: rest) else strstr rest needle

/-- The string that starts at the index `i`; it has to end inside the array. -/
def stringAt (array : Bytes) (i : Nat) : Option Bytes :=
  if 0 ∈ array.drop i then some (cStr (array.drop i)) else none

/-- An array of `size` characters that holds a text and zeros. -/
def zeroFilled (size : Nat) (text : Bytes) : Bytes :=
  text ++ List.replicate (size - text.length) 0

theorem cStr_zeroFilled {size : Nat} {text : Bytes} (h : 0 ∉ text) :
    cStr (zeroFilled size text) = text := by
  rw [zeroFilled, cStr_append h, cStr_replicate_zero, List.append_nil]

theorem length_zeroFilled {size : Nat} {text : Bytes} (h : text.length ≤ size) :
    (zeroFilled size text).length = size := by
  rw [zeroFilled, List.length_append, List.length_replicate]
  omega

theorem zero_mem_zeroFilled {size : Nat} {text : Bytes} (h : text.length < size) :
    0 ∈ zeroFilled size text := by
  rw [zeroFilled, List.mem_append, List.mem_replicate]
  exact Or.inr ⟨by omega, rfl⟩

theorem store_zeroFilled {size : Nat} {text more : Bytes}
    (hfits : text.length + more.length ≤ size) :
    store (zeroFilled size text) text.length more = some (zeroFilled size (text ++ more)) := by
  have hlength : (zeroFilled size text).length = size := length_zeroFilled (by omega)
  rw [store, if_pos (hlength.symm ▸ hfits), zeroFilled, zeroFilled, List.take_left,
    List.drop_append, List.drop_replicate, List.length_append, Nat.add_sub_cancel_left,
    List.drop_of_length_le (Nat.le_add_right _ _), List.nil_append, Nat.sub_sub]

theorem store_zero {dest src : Bytes} (h : src.length ≤ dest.length) :
    store dest 0 src = some (src ++ dest.drop src.length) := by
  rw [store, Nat.zero_add, if_pos h]
  rfl

theorem store_singleton {dest : Bytes} {i : Nat} (h : i < dest.length) (c : UInt8) :
    store dest i [c] = some (dest.set i c) := by
  rw [store, List.length_singleton, if_pos (Nat.succ_le_of_lt h), List.append_assoc,
    List.set_eq_take_append_cons_drop]
  exact congrArg some (if_pos h).symm

theorem stringAt_of_mem {array : Bytes} (h : 0 ∈ array) : stringAt array 0 = some (cStr array) := by
  rw [stringAt, List.drop_zero, if_pos h]

theorem strncpy_whole {src : Bytes} (hsrc : 0 ∉ src) {size : Nat} (hfits : src.length ≤ size) :
    strncpy (List.replicate size 0) src size = some (zeroFilled size src) := by
  have hlength : (zeroFilled size src).length = size := length_zeroFilled hfits
  rw [strncpy, cStr_eq_self hsrc, List.take_of_length_le hfits, ← zeroFilled,
    store_zero (by rw [hlength, List.length_replicate]), hlength, List.drop_replicate,
    Nat.sub_self, List.replicate_zero, List.append_nil]

theorem strncpy_zeroFilled {size : Nat} {src : Bytes} (hsrc : 0 ∉ src)
    (hfits : src.length ≤ size) :
    strncpy (List.replicate size 0) src src.length = some (zeroFilled size src) := by
  have hstore := @store_zeroFilled size [] src (by rw [List.length_nil, Nat.zero_add]; exact hfits)
  rw [strncpy, cStr_eq_self hsrc, List.take_length, Nat.sub_self, List.replicate_zero,
    List.append_nil]
  exact hstore

theorem strncat_zeroFilled {size : Nat} {text : Bytes} (htext : 0 ∉ text) (src : Bytes) (n : Nat)
    (hfits : text.length + ((cStr src).take n).length < size) :
    strncat (zeroFilled size text) src n =
      some (zeroFilled size (text ++ (cStr src).take n)) := by
  have hroom : text.length + ((cStr src).take n ++ [0]).length ≤ size := by
    rw [List.length_append, List.length_singleton]
    omega
  rw [strncat, cStr_zeroFilled htext, store_zeroFilled hroom, Option.some_inj, zeroFilled,
    zeroFilled, ← List.append_assoc, List.append_assoc _ [0], List.singleton_append,
    ← List.replicate_succ]
  congr 2
  rw [List.length_append, List.length_append, List.length_singleton]
  omega

theorem strstr_isSome_iff {haystack needle : Bytes} :
    (strstr haystack needle).isSome ↔ needle <:+: haystack := by
  induction haystack with
  | nil =>
      rw [strstr, List.infix_nil]
      split <;> simp [*]
  | cons ch rest ih =>
      rw [strstr, List.infix_cons_iff]
      split
      · simp [*]
      · simp [*]

theorem length_cStr_le (s : Bytes) : (cStr s).length ≤ s.length :=
  (List.takeWhile_prefix _).length_le

theorem length_cStr_lt_iff {s : Bytes} : (cStr s).length < s.length ↔ 0 ∈ s := by
  constructor
  · intro hlt
    by_contra hzero
    rw [cStr_eq_self hzero] at hlt
    exact Nat.lt_irrefl _ hlt
  · intro hzero
    refine Nat.lt_of_le_of_ne (length_cStr_le s) fun hlen => ?_
    have hself : cStr s = s := (List.takeWhile_prefix _).eq_of_length hlen
    exact zero_not_mem_cStr s (hself.symm ▸ hzero)

theorem cStr_append_of_mem {array : Bytes} (h : 0 ∈ array) (behind : Bytes) :
    cStr (array ++ behind) = cStr array := by
  have hlt := length_cStr_lt_iff.mpr h
  rw [cStr, List.takeWhile_append, if_neg (by exact hlt.ne)]
  rfl

theorem strrchr_of_not_mem {c : UInt8} {text : Bytes} (h : c ∉ text) : strrchr c text = none := by
  induction text with
  | nil => rfl
  | cons ch rest ih =>
      rw [List.mem_cons, not_or] at h
      rw [strrchr, ih h.2]
      exact if_neg (Ne.symm h.1)

theorem strrchr_append_cons {c : UInt8} (front : Bytes) {rest : Bytes} (h : c ∉ rest) :
    strrchr c (front ++ c :: rest) = some front.length := by
  induction front with
  | nil =>
      rw [List.nil_append, strrchr, strrchr_of_not_mem h]
      exact if_pos rfl
  | cons ch front ih =>
      rw [List.cons_append, strrchr, ih]
      rfl

end StudyLinuxKernel.Libc.CharArray
