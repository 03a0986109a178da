import Mathlib.Data.Fintype.Pi
import Mathlib.Tactic.FinCases
import StudyLinuxKernel.Libc.Decimal

namespace StudyLinuxKernel.Libc.Inet

open StudyLinuxKernel.Libc.Decimal
open StudyLinuxKernel.Libc.Text

/-- `struct in_addr`, byte by byte. -/
abbrev InAddr := Fin 4 → UInt8

/-- An `in_port_t`, byte by byte; the first one counts more. -/
structure InPort where
  high : UInt8
  low : UInt8
  deriving DecidableEq

/-- `struct sockaddr_in`, of the family `AF_INET`. -/
structure SockaddrIn where
  sinAddr : InAddr
  sinPort : InPort
  deriving DecidableEq

def dot : UInt8 := 46

def inetNtoa (inp : InAddr) : Bytes :=
  decimal (inp 0).toNat ++ literal "." ++ decimal (inp 1).toNat ++ literal "." ++
    decimal (inp 2).toNat ++ literal "." ++ decimal (inp 3).toNat

def ntohs (netshort : InPort) : Nat := 256 * netshort.high.toNat + netshort.low.toNat

/-- `htons` of an `int`, of which 16 bits are passed. -/
def htons (hostshort : Int) : InPort :=
  let n := (hostshort % 65536).toNat
  { high := UInt8.ofNat (n / 256), low := UInt8.ofNat n }

def isSpace (ch : UInt8) : Bool := ch = 32 || (9 ≤ ch && ch ≤ 13)

def atoi (nptr : Bytes) : Int :=
  match nptr.dropWhile isSpace with
  | 45 :: rest => -digitsValue (rest.takeWhile isDigit)
  | 43 :: rest => digitsValue (rest.takeWhile isDigit)
  | rest => digitsValue (rest.takeWhile isDigit)

def hexDigit (ch : UInt8) : Option Nat :=
  if isDigit ch then some (ch.toNat - 48)
  else if 97 ≤ ch && ch ≤ 102 then some (ch.toNat - 87)
  else if 65 ≤ ch && ch ≤ 70 then some (ch.toNat - 55)
  else none

def numeral (base : Nat) (digits : Bytes) : Option Nat :=
  digits.foldlM (fun value ch => (hexDigit ch).bind fun digit =>
    if digit < base then some (base * value + digit) else none) 0

/-- A component of a dotted address: decimal, octal behind a zero, or
hexadecimal behind `0x`. -/
def component : Bytes → Option Nat
  | [] => none
  | 48 :: 120 :: digits => if digits = [] then none else numeral 16 digits
  | 48 :: 88 :: digits => if digits = [] then none else numeral 16 digits
  | 48 :: digits => numeral 8 digits
  | digits => numeral 10 digits

/-- The last component fills the bytes that are left. -/
def assemble : List Nat → Option Nat
  | [a] => if a < 4294967296 then some a else none
  | [a, b] => if a < 256 ∧ b < 16777216 then some (16777216 * a + b) else none
  | [a, b, c] =>
      if a < 256 ∧ b < 256 ∧ c < 65536 then some (16777216 * a + 65536 * b + c) else none
  | [a, b, c, d] =>
      if a < 256 ∧ b < 256 ∧ c < 256 ∧ d < 256 then
        some (16777216 * a + 65536 * b + 256 * c + d)
      else none
  | _ => none

def addrOfNat (n : Nat) : InAddr := fun i => UInt8.ofNat (n / 256 ^ (3 - i.val))

def INADDR_NONE : InAddr := fun _ => 255

def inetAddr (cp : Bytes) : InAddr :=
  match ((cp.splitOn dot).mapM component).bind assemble with
  | some n => addrOfNat n
  | none => INADDR_NONE

theorem component_decimal_fin : ∀ n : Fin 256, component (decimal n.val) = some n.val := by
  decide +kernel

theorem component_decimal (b : UInt8) : component (decimal b.toNat) = some b.toNat :=
  component_decimal_fin ⟨b.toNat, b.toNat_lt⟩

theorem not_mem_decimal {ch : UInt8} (h : isDigit ch = false) (n : Nat) : ch ∉ decimal n := by
  intro hmem
  rw [isDigit_of_mem_decimal hmem] at h
  cases h

theorem inetNtoa_eq (inp : InAddr) : inetNtoa inp = decimal (inp 0).toNat ++ dot ::
    (decimal (inp 1).toNat ++ dot :: (decimal (inp 2).toNat ++ dot :: decimal (inp 3).toNat)) := by
  have hdot : literal "." = [dot] := by decide
  rw [inetNtoa, hdot]
  simp only [List.append_assoc, List.cons_append, List.nil_append]

theorem splitOn_inetNtoa (inp : InAddr) : (inetNtoa inp).splitOn dot =
    [decimal (inp 0).toNat, decimal (inp 1).toNat, decimal (inp 2).toNat,
      decimal (inp 3).toNat] := by
  have hdot : ∀ n, dot ∉ decimal n := not_mem_decimal rfl
  rw [inetNtoa_eq, List.splitOn_append_cons_self_of_not_mem (hdot _),
    List.splitOn_append_cons_self_of_not_mem (hdot _),
    List.splitOn_append_cons_self_of_not_mem (hdot _), List.splitOn_eq_singleton (hdot _)]

theorem addrOfNat_bytes (inp : InAddr) : addrOfNat (16777216 * (inp 0).toNat +
    65536 * (inp 1).toNat + 256 * (inp 2).toNat + (inp 3).toNat) = inp := by
  have h₀ := (inp 0).toNat_lt
  have h₁ := (inp 1).toNat_lt
  have h₂ := (inp 2).toNat_lt
  have h₃ := (inp 3).toNat_lt
  funext i
  rw [addrOfNat, ← UInt8.toNat_inj, UInt8.toNat_ofNat']
  fin_cases i
  · change _ / 256 ^ 3 % 256 = (inp 0).toNat
    omega
  · change _ / 256 ^ 2 % 256 = (inp 1).toNat
    omega
  · change _ / 256 ^ 1 % 256 = (inp 2).toNat
    omega
  · change _ / 256 ^ 0 % 256 = (inp 3).toNat
    omega

theorem inetAddr_inetNtoa (inp : InAddr) : inetAddr (inetNtoa inp) = inp := by
  have hparts : ((inetNtoa inp).splitOn dot).mapM component =
      some [(inp 0).toNat, (inp 1).toNat, (inp 2).toNat, (inp 3).toNat] := by
    rw [splitOn_inetNtoa]
    simp [component_decimal]
  have hbytes : (inp 0).toNat < 256 ∧ (inp 1).toNat < 256 ∧ (inp 2).toNat < 256 ∧
      (inp 3).toNat < 256 :=
    ⟨(inp 0).toNat_lt, (inp 1).toNat_lt, (inp 2).toNat_lt, (inp 3).toNat_lt⟩
  rw [inetAddr, hparts, Option.bind_some, assemble, if_pos hbytes]
  exact addrOfNat_bytes inp

theorem mem_inetNtoa {inp : InAddr} {ch : UInt8} (h : ch ∈ inetNtoa inp) :
    isDigit ch = true ∨ ch = dot := by
  rw [inetNtoa_eq] at h
  simp only [List.mem_append, List.mem_cons] at h
  rcases h with h | h | h | h | h | h | h
  · exact Or.inl (isDigit_of_mem_decimal h)
  · exact Or.inr h
  · exact Or.inl (isDigit_of_mem_decimal h)
  · exact Or.inr h
  · exact Or.inl (isDigit_of_mem_decimal h)
  · exact Or.inr h
  · exact Or.inl (isDigit_of_mem_decimal h)

theorem zero_not_mem_inetNtoa (inp : InAddr) : 0 ∉ inetNtoa inp := by
  intro hmem
  rcases mem_inetNtoa hmem with h | h
  · cases h
  · cases h

theorem length_inetNtoa_le (inp : InAddr) : (inetNtoa inp).length ≤ 15 := by
  have hshort : ∀ b : UInt8, (decimal b.toNat).length ≤ 3 := fun b =>
    length_decimal_le (by decide) (Nat.lt_of_lt_of_le b.toNat_lt (by decide))
  have h₀ := hshort (inp 0)
  have h₁ := hshort (inp 1)
  have h₂ := hshort (inp 2)
  have h₃ := hshort (inp 3)
  simp only [inetNtoa_eq, List.length_append, List.length_cons]
  omega

theorem ntohs_lt (netshort : InPort) : ntohs netshort < 65536 := by
  have hhigh := netshort.high.toNat_lt
  have hlow := netshort.low.toNat_lt
  rw [ntohs]
  omega

theorem htons_ntohs (netshort : InPort) : htons (ntohs netshort : Nat) = netshort := by
  have hlt := ntohs_lt netshort
  have hn : ((ntohs netshort : Int) % 65536).toNat = ntohs netshort := by omega
  rw [htons, hn]
  cases netshort with
  | mk high low =>
      have hhigh := high.toNat_lt
      have hlow := low.toNat_lt
      simp only [ntohs, InPort.mk.injEq, ← UInt8.toNat_inj, UInt8.toNat_ofNat']
      omega

theorem isSpace_of_isDigit {ch : UInt8} (h : isDigit ch = true) : isSpace ch = false := by
  simp only [isDigit, Bool.and_eq_true, decide_eq_true_eq, UInt8.le_iff_toNat_le] at h
  simp only [isSpace, Bool.or_eq_false_iff, decide_eq_false_iff_not, Bool.and_eq_false_iff,
    UInt8.le_iff_toNat_le, ← UInt8.toNat_inj]
  simp only [UInt8.reduceToNat] at h ⊢
  omega

theorem atoi_of_digits {text : Bytes} (h : ∀ ch ∈ text, isDigit ch = true) :
    atoi text = digitsValue text := by
  have hvalue : text.takeWhile isDigit = text := List.takeWhile_eq_self_iff.mpr h
  have hstart : text.dropWhile isSpace = text := by
    cases text with
    | nil => rfl
    | cons ch rest =>
        apply List.dropWhile_cons_of_neg
        rw [isSpace_of_isDigit (h ch List.mem_cons_self)]
        exact Bool.false_ne_true
  rw [atoi, hstart]
  split
  · exact absurd (h 45 List.mem_cons_self) (by decide)
  · exact absurd (h 43 List.mem_cons_self) (by decide)
  · rw [hvalue]

theorem atoi_decimal (n : Nat) : atoi (decimal n) = n := by
  rw [atoi_of_digits fun _ hch => isDigit_of_mem_decimal hch, digitsValue_decimal]

end StudyLinuxKernel.Libc.Inet
