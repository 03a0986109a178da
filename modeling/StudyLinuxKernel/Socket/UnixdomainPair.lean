import Mathlib.Data.List.Infix
import StudyLinuxKernel.Library.PartialStep
import StudyLinuxKernel.Libc.CharArray

/-!
`socket_unixdomain_pair.c`: the child sends lines over a pair of datagram sockets, and
the parent sends them back in capital letters.  Both read a datagram into an array and
use it as a string, which a datagram that fills the array does not end.  A process is
followed up to where it first runs over its array: what is behind it is not known.
-/

namespace StudyLinuxKernel.Socket.UnixdomainPair

open StudyLinuxKernel.Libc.CharArray
open StudyLinuxKernel.Libc.Text
open StudyLinuxKernel.Library.PartialStep

def messageSize : Nat := 1024

def isalpha (c : UInt8) : Bool := (65 ≤ c && c ≤ 90) || (97 ≤ c && c ≤ 122)

def toupper (c : UInt8) : UInt8 := if 97 ≤ c && c ≤ 122 then c - 32 else c

/-- A character in the loop of `strhelper_toupper`. -/
def capital (c : UInt8) : UInt8 := if isalpha c then toupper c else c

/-- The loop leaves the array where no character is NUL. -/
def strhelperToupper : Bytes → Option Bytes
  | [] => none
  | c :: rest =>
      if c ≠ 0 then do
        let rest ← strhelperToupper rest
        some (capital c :: rest)
      else some (c :: rest)

inductive ChildPlace where
  | asking
  | sending (msg : Bytes)
  | receiving
  | overrun
  | ended
  deriving DecidableEq

inductive ParentPlace where
  | receiving
  | sending (msg : Bytes)
  | overrun
  | ended
  deriving DecidableEq

/-- `toParent` and `toChild` are on their way; `lines` is what the child has read, and
the other two lists have what each process has shown. -/
structure System where
  child : ChildPlace
  parent : ParentPlace
  toParent : List Bytes
  toChild : List Bytes
  lines : List Bytes
  childShown : List Bytes
  parentShown : List Bytes

/-- Behind `fork`. -/
def System.start : System where
  child := .asking
  parent := .receiving
  toParent := []
  toChild := []
  lines := []
  childShown := []
  parentShown := []

/-- The child asks again where it reads nothing. -/
inductive Action where
  | read (line : Bytes)
  | send
  | receive
  | childFails
  | parentReceive
  | parentSend
  | parentFails

/-- The array with a datagram in it. -/
def array (msg : Bytes) : Bytes := zeroFilled messageSize msg

def step (s : System) : Action → Option System
  | .read line =>
      match s.child with
      | .asking =>
          if line ≠ [] ∧ line.length ≤ messageSize then
            some { s with child := .sending line, lines := s.lines ++ [line] }
          else none
      | _ => none
  | .send =>
      match s.child with
      | .sending msg =>
          if s.parent ≠ .ended then
            some { s with child := .receiving, toParent := s.toParent ++ [msg] }
          else none
      | _ => none
  | .receive =>
      match s.child, s.toChild with
      | .receiving, datagram :: toChild =>
          match stringAt (array (datagram.take messageSize)) 0 with
          | some text => some { s with
              child := .asking, toChild := toChild, childShown := s.childShown ++ [text] }
          | none => some { s with child := .overrun, toChild := toChild }
      | _, _ => none
  | .childFails =>
      match s.child with
      | .sending _ | .receiving => some { s with child := .ended }
      | .asking | .overrun | .ended => none
  | .parentReceive =>
      match s.parent, s.toParent with
      | .receiving, datagram :: toParent =>
          let msg := datagram.take messageSize
          match stringAt (array msg) 0, strhelperToupper (array msg) with
          | some text, some capitals => some { s with
              parent := .sending (capitals.take msg.length)
              toParent := toParent
              parentShown := s.parentShown ++ [text] }
          | _, _ => some { s with parent := .overrun, toParent := toParent }
      | _, _ => none
  | .parentSend =>
      match s.parent with
      | .sending msg =>
          if s.child ≠ .ended then
            some { s with parent := .receiving, toChild := s.toChild ++ [msg] }
          else none
      | _ => none
  | .parentFails =>
      match s.parent with
      | .sending _ | .receiving => some { s with parent := .ended }
      | .overrun | .ended => none

/-- The line ends inside the array. -/
def Fits (line : Bytes) : Prop := line.length < messageSize ∨ 0 ∈ line

instance (line : Bytes) : Decidable (Fits line) := inferInstanceAs (Decidable (_ ∨ _))

/-- The child shows the lines in capital letters up to their first NUL, in their order
and before it asks for the next one.  The first array that is overrun is one of the
parent, by the last line; the two processes do not wait for each other. -/
structure Conversation (s : System) : Prop where
  answered : s.childShown <+: s.lines.map fun line => (cStr line).map capital
  behind : s.lines.length ≤ s.childShown.length + 1
  earlier : ∀ line ∈ s.lines.dropLast, Fits line
  overrun : s.parent = .overrun → ∃ line, s.lines.getLast? = some line ∧ ¬ Fits line
  inside : s.child ≠ .overrun
  awake : s.child = .receiving → s.parent = .receiving → s.toParent ≠ [] ∨ s.toChild ≠ []

def ChildPlace.held : ChildPlace → List Bytes
  | .sending msg => [msg]
  | .asking | .receiving | .overrun | .ended => []

def ParentPlace.held : ParentPlace → List Bytes
  | .sending msg => [msg]
  | .receiving | .overrun | .ended => []

/-- The lines that the parent has to read, and the answers that the child has to. -/
def System.asks (s : System) : List Bytes := s.toParent ++ s.child.held

def System.answers (s : System) : List Bytes := s.toChild ++ s.parent.held

/-- The child has the turn to ask, or the parent does not go on. -/
def System.rests (s : System) : Nat :=
  (if s.child = .asking then 1 else 0) + if s.parent = .overrun then 1 else 0

structure Invariant (s : System) : Prop where
  asked : s.parentShown ++ s.asks.map cStr <+: s.lines.map cStr
  answered : s.childShown ++ s.answers.map cStr <+: s.parentShown.map (List.map capital)
  turn : s.asks.length + s.answers.length + s.rests ≤ 1
  both : s.child ≠ .ended → s.parent ≠ .ended → s.asks.length + s.answers.length + s.rests = 1
  behind : s.lines.length + (if s.child = .asking then 1 else 0) ≤ s.childShown.length + 1
  last : ∀ line ∈ s.asks, s.lines.getLast? = some line ∧ line.length ≤ messageSize
  fit : ∀ answer ∈ s.answers, Fits answer ∧ answer.length ≤ messageSize
  earlier : ∀ line ∈ s.lines.dropLast, Fits line
  settled : s.child = .asking ∨ s.answers ≠ [] → ∀ line ∈ s.lines, Fits line
  overrun : s.parent = .overrun → ∃ line, s.lines.getLast? = some line ∧ ¬ Fits line
  inside : s.child ≠ .overrun

/-- What becomes of a line. -/
def capitals : Bytes → Bytes
  | [] => []
  | c :: rest => if c ≠ 0 then capital c :: capitals rest else c :: rest

variable {s s' : System}

theorem capital_ne_zero {c : UInt8} (h : c ≠ 0) : capital c ≠ 0 := by
  rw [capital, toupper]
  split
  · split
    · rename_i hlower
      rw [Bool.and_eq_true, decide_eq_true_eq, decide_eq_true_eq, UInt8.le_iff_toNat_le,
        UInt8.le_iff_toNat_le] at hlower
      intro hzero
      have hnat := congrArg UInt8.toNat hzero
      rw [UInt8.toNat_sub] at hnat
      change (2 ^ 8 - 32 + c.toNat) % 2 ^ 8 = 0 at hnat
      change 97 ≤ c.toNat ∧ c.toNat ≤ 122 at hlower
      omega
    · exact h
  · exact h

theorem length_capitals (line : Bytes) : (capitals line).length = line.length := by
  induction line with
  | nil => rfl
  | cons c rest ih =>
      rw [capitals]
      split
      · rw [List.length_cons, List.length_cons, ih]
      · rfl

theorem cStr_capitals (line : Bytes) : cStr (capitals line) = (cStr line).map capital := by
  induction line with
  | nil => rfl
  | cons c rest ih =>
      rw [capitals]
      split
      · rename_i hne
        have hcapital := capital_ne_zero hne
        rw [cStr, cStr, List.takeWhile_cons_of_pos (by simpa using hcapital),
          List.takeWhile_cons_of_pos (by simpa using hne), List.map_cons]
        exact congrArg _ ih
      · rename_i hzero
        rw [cStr, List.takeWhile_cons_of_neg (by simpa using hzero)]
        rfl

theorem zero_mem_capitals {line : Bytes} : 0 ∈ capitals line ↔ 0 ∈ line := by
  rw [← length_cStr_lt_iff, ← length_cStr_lt_iff, cStr_capitals, List.length_map,
    length_capitals]

/-- The loop ends at the first NUL, and what is behind it stays. -/
theorem strhelperToupper_append {line behind : Bytes} (h : 0 ∈ line ∨ behind.head? = some 0) :
    strhelperToupper (line ++ behind) = some (capitals line ++ behind) := by
  induction line with
  | nil =>
      rcases behind with _ | ⟨c, rest⟩
      · rcases h with hmem | hhead
        · cases hmem
        · cases hhead
      · rcases h with hmem | hhead
        · cases hmem
        · obtain rfl := Option.some.inj hhead
          rfl
  | cons c rest ih =>
      rw [List.cons_append, strhelperToupper, capitals]
      split
      · rename_i hne
        rw [ih (h.imp_left fun hmem => List.mem_of_ne_of_mem hne.symm hmem)]
        rfl
      · rfl

theorem cStr_array (msg : Bytes) : cStr (array msg) = cStr msg := by
  rw [array]
  rcases Decidable.em (0 ∈ msg) with hzero | hnoNul
  · exact cStr_append_of_mem hzero _
  · rw [cStr_zeroFilled hnoNul, cStr_eq_self hnoNul]

theorem stringAt_array {msg : Bytes} (hfits : Fits msg) :
    stringAt (array msg) 0 = some (cStr msg) := by
  have hzero : 0 ∈ array msg := by
    rcases hfits with hshort | hmem
    · exact zero_mem_zeroFilled hshort
    · exact List.mem_append_left _ hmem
  rw [stringAt_of_mem hzero, cStr_array]

theorem take_strhelperToupper {msg : Bytes} (hfits : Fits msg) :
    ∃ after, strhelperToupper (array msg) = some after ∧
      after.take msg.length = capitals msg := by
  have hends : 0 ∈ msg ∨
      (List.replicate (messageSize - msg.length) (0 : UInt8)).head? = some 0 := by
    rcases hfits with hshort | hmem
    · refine Or.inr ?_
      rw [List.head?_replicate, if_neg (by omega)]
    · exact Or.inl hmem
  exact ⟨_, strhelperToupper_append hends, List.take_left' (length_capitals msg)⟩

theorem stringAt_array_eq_none {msg : Bytes} (hover : ¬ Fits msg) :
    stringAt (array msg) 0 = none := by
  obtain ⟨hlong, hnoNul⟩ := not_or.mp hover
  have hfull : messageSize - msg.length = 0 := Nat.sub_eq_zero_of_le (Nat.not_lt.mp hlong)
  rw [stringAt, List.drop_zero, if_neg]
  rw [array, zeroFilled, hfull, List.replicate_zero, List.append_nil]
  exact hnoNul

theorem fits_capitals {msg : Bytes} : Fits (capitals msg) ↔ Fits msg := by
  rw [Fits, Fits, length_capitals, zero_mem_capitals]

theorem invariant_start : Invariant .start where
  asked := List.prefix_refl []
  answered := List.prefix_refl []
  turn := Nat.le_refl 1
  both := fun _ _ => rfl
  behind := Nat.le_refl 1
  last := fun _ h => absurd h List.not_mem_nil
  fit := fun _ h => absurd h List.not_mem_nil
  earlier := fun _ h => absurd h List.not_mem_nil
  settled := fun _ _ h => absurd h List.not_mem_nil
  overrun := fun h => by cases h
  inside := fun h => by cases h

theorem Invariant.move (h : Invariant s) {child : ChildPlace} {parent : ParentPlace}
    {toParent toChild : List Bytes} (hasks : toParent ++ child.held <+: s.asks)
    (hanswers : toChild ++ parent.held <+: s.answers)
    (hasking : child = .asking ↔ s.child = .asking)
    (hoverrun : parent = .overrun ↔ s.parent = .overrun) (hinside : child ≠ .overrun)
    (hboth : child ≠ .ended → parent ≠ .ended → toParent ++ child.held = s.asks ∧
      toChild ++ parent.held = s.answers ∧ s.child ≠ .ended ∧ s.parent ≠ .ended) :
    Invariant { s with
      child := child, parent := parent, toParent := toParent, toChild := toChild } := by
  have hrests : System.rests { s with
      child := child, parent := parent, toParent := toParent, toChild := toChild } = s.rests := by
    rw [System.rests, System.rests]
    exact congrArg₂ _ (if_congr hasking rfl rfl) (if_congr hoverrun rfl rfl)
  have hturn := h.turn
  exact {
    asked := ((List.prefix_append_right_inj _).mpr (hasks.map cStr)).trans h.asked
    answered := ((List.prefix_append_right_inj _).mpr (hanswers.map cStr)).trans h.answered
    turn := by
      rw [hrests]
      change (toParent ++ child.held).length + (toChild ++ parent.held).length + s.rests ≤ 1
      have hfewer := hasks.length_le
      have hless := hanswers.length_le
      omega
    both := by
      intro hchild hparent
      obtain ⟨hsame, hequal, hbefore, hthere⟩ := hboth hchild hparent
      rw [hrests]
      change (toParent ++ child.held).length + (toChild ++ parent.held).length + s.rests = 1
      rw [hsame, hequal]
      exact h.both hbefore hthere
    behind := by
      change s.lines.length + (if child = .asking then 1 else 0) ≤ s.childShown.length + 1
      rw [if_congr hasking rfl rfl]
      exact h.behind
    last := fun line hline => h.last line (hasks.subset hline)
    fit := fun answer hanswer => h.fit answer (hanswers.subset hanswer)
    earlier := h.earlier
    settled := by
      rintro (hchild | hsome)
      · exact h.settled (Or.inl (hasking.mp hchild))
      · refine h.settled (Or.inr fun hnil => hsome ?_)
        exact List.prefix_nil.mp (hnil ▸ hanswers)
    overrun := fun hparent => h.overrun (hoverrun.mp hparent)
    inside := hinside }

theorem Invariant.parentShown_prefix (h : Invariant s) : s.parentShown <+: s.lines.map cStr :=
  (List.prefix_append _ _).trans h.asked

theorem Invariant.childShown_prefix (h : Invariant s) :
    s.childShown <+: s.parentShown.map (List.map capital) :=
  (List.prefix_append _ _).trans h.answered

theorem Invariant.read (h : Invariant s) (hchild : s.child = .asking) {line : Bytes}
    (hsize : line.length ≤ messageSize) :
    Invariant { s with child := .sending line, lines := s.lines ++ [line] } := by
  have hturn := h.turn
  have hbehind := h.behind
  rw [System.rests, hchild, if_pos rfl] at hturn
  rw [hchild, if_pos rfl] at hbehind
  have hasks : s.asks = [] := List.length_eq_zero_iff.mp (by omega)
  have hanswers : s.answers = [] := List.length_eq_zero_iff.mp (by omega)
  have hparent : s.parent ≠ .overrun := by
    intro hparent
    rw [hparent, if_pos rfl] at hturn
    omega
  have htoParent : s.toParent = [] := (List.append_eq_nil_iff.mp hasks).1
  have hshown : s.parentShown = s.lines.map cStr := by
    refine h.parentShown_prefix.eq_of_length_le ?_
    have hless := h.childShown_prefix.length_le
    rw [List.length_map] at hless ⊢
    omega
  have hnext : s.toParent ++ [line] = [line] := by rw [htoParent, List.nil_append]
  have hlast : (s.lines ++ [line]).getLast? = some line := List.getLast?_concat
  exact {
    asked := by
      change s.parentShown ++ (s.toParent ++ [line]).map cStr <+: (s.lines ++ [line]).map cStr
      rw [hnext, hshown, List.map_append]
    answered := h.answered
    turn := by
      change (s.toParent ++ [line]).length + s.answers.length + _ ≤ 1
      rw [hnext, hanswers, System.rests, if_neg hparent]
      exact Nat.le_refl 1
    both := fun _ hthere => by
      change (s.toParent ++ [line]).length + s.answers.length + _ = 1
      rw [hnext, hanswers, System.rests, if_neg hparent]
      rfl
    behind := by
      change (s.lines ++ [line]).length + 0 ≤ s.childShown.length + 1
      rw [List.length_append, List.length_singleton]
      omega
    last := by
      intro other hother
      change other ∈ s.toParent ++ [line] at hother
      rw [hnext, List.mem_singleton] at hother
      rw [hother]
      exact ⟨hlast, hsize⟩
    fit := h.fit
    earlier := by
      change ∀ other ∈ (s.lines ++ [line]).dropLast, Fits other
      rw [List.dropLast_concat]
      exact h.settled (Or.inl hchild)
    settled := by
      rintro (hasking | hsome)
      · cases hasking
      · exact absurd hanswers hsome
    overrun := fun hover => absurd hover hparent
    inside := fun hover => by cases hover }

theorem Invariant.arrives (h : Invariant s) {datagram : Bytes} {toParent : List Bytes}
    (harrives : s.toParent = datagram :: toParent) :
    s.asks = [datagram] ∧ toParent ++ s.child.held = [] ∧ s.answers = [] ∧ s.rests = 0 := by
  have hturn := h.turn
  have hasks : s.asks = datagram :: (toParent ++ s.child.held) := by
    rw [System.asks, harrives, List.cons_append]
  rw [hasks, List.length_cons] at hturn
  have hrest : toParent ++ s.child.held = [] := List.length_eq_zero_iff.mp (by omega)
  refine ⟨by rw [hasks, hrest], hrest, List.length_eq_zero_iff.mp (by omega), by omega⟩

theorem rests_eq_zero (h : s.rests = 0) : s.child ≠ .asking ∧ s.parent ≠ .overrun := by
  rw [System.rests] at h
  constructor
  · intro hasking
    rw [if_pos hasking] at h
    omega
  · intro hover
    rw [if_pos hover] at h
    omega

theorem Invariant.parentReceive (h : Invariant s) {datagram : Bytes} {toParent : List Bytes}
    (harrives : s.toParent = datagram :: toParent) (hfits : Fits datagram) :
    Invariant { s with
      parent := .sending (capitals datagram)
      toParent := toParent
      parentShown := s.parentShown ++ [cStr datagram] } := by
  obtain ⟨hasks, hrest, hanswers, hrests⟩ := h.arrives harrives
  obtain ⟨hasking, _⟩ := rests_eq_zero hrests
  obtain ⟨hlast, hsize⟩ := h.last datagram (by rw [hasks]; exact List.mem_singleton_self _)
  have htoChild : s.toChild = [] := (List.append_eq_nil_iff.mp hanswers).1
  have hasked := h.asked
  have hbehind := h.behind
  rw [hasks] at hasked
  rw [if_neg hasking] at hbehind
  have hshown : s.childShown = s.parentShown.map (List.map capital) := by
    refine h.childShown_prefix.eq_of_length_le ?_
    have hless := hasked.length_le
    rw [List.length_append, List.length_map, List.length_map, List.length_singleton] at hless
    rw [List.length_map]
    omega
  have hnext : s.toChild ++ [capitals datagram] = [capitals datagram] := by
    rw [htoChild, List.nil_append]
  exact {
    asked := by
      change s.parentShown ++ [cStr datagram] ++ (toParent ++ s.child.held).map cStr <+: _
      rw [hrest, List.map_nil, List.append_nil]
      exact hasked
    answered := by
      change s.childShown ++ (s.toChild ++ [capitals datagram]).map cStr <+:
        (s.parentShown ++ [cStr datagram]).map (List.map capital)
      rw [hnext, List.map_append, hshown, List.map_singleton, List.map_singleton, cStr_capitals]
    turn := by
      change (toParent ++ s.child.held).length + (s.toChild ++ [capitals datagram]).length + _ ≤ 1
      rw [hrest, hnext, System.rests, if_neg hasking]
      exact Nat.le_refl 1
    both := fun _ _ => by
      change (toParent ++ s.child.held).length + (s.toChild ++ [capitals datagram]).length + _ = 1
      rw [hrest, hnext, System.rests, if_neg hasking]
      rfl
    behind := h.behind
    last := fun line hline => by
      change line ∈ toParent ++ s.child.held at hline
      rw [hrest] at hline
      exact absurd hline List.not_mem_nil
    fit := fun answer hanswer => by
      change answer ∈ s.toChild ++ [capitals datagram] at hanswer
      rw [hnext, List.mem_singleton] at hanswer
      rw [hanswer, fits_capitals, length_capitals]
      exact ⟨hfits, hsize⟩
    earlier := h.earlier
    settled := fun _ line hline => by
      change line ∈ s.lines at hline
      obtain ⟨front, hfront⟩ := List.getLast?_eq_some_iff.mp hlast
      rw [hfront, List.mem_append, List.mem_singleton] at hline
      rcases hline with hmem | rfl
      · refine h.earlier line ?_
        rw [hfront, List.dropLast_concat]
        exact hmem
      · exact hfits
    overrun := fun hover => by cases hover
    inside := h.inside }

theorem Invariant.parentOverrun (h : Invariant s) {datagram : Bytes} {toParent : List Bytes}
    (harrives : s.toParent = datagram :: toParent) (hover : ¬ Fits datagram)
    (hparent : s.parent = .receiving) :
    Invariant { s with parent := .overrun, toParent := toParent } := by
  obtain ⟨hasks, hrest, hanswers, hrests⟩ := h.arrives harrives
  obtain ⟨hasking, _⟩ := rests_eq_zero hrests
  obtain ⟨hlast, _⟩ := h.last datagram (by rw [hasks]; exact List.mem_singleton_self _)
  have hheld : s.toChild ++ ParentPlace.overrun.held = s.answers := by
    rw [System.answers, hparent]
    rfl
  exact {
    asked := by
      change s.parentShown ++ (toParent ++ s.child.held).map cStr <+: _
      rw [hrest, List.map_nil, List.append_nil]
      exact h.parentShown_prefix
    answered := by
      change s.childShown ++ (s.toChild ++ ParentPlace.overrun.held).map cStr <+: _
      rw [hheld]
      exact h.answered
    turn := by
      change (toParent ++ s.child.held).length + (s.toChild ++ ParentPlace.overrun.held).length +
        _ ≤ 1
      rw [hrest, hheld, hanswers, System.rests, if_neg hasking]
      exact Nat.le_refl 1
    both := fun _ _ => by
      change (toParent ++ s.child.held).length + (s.toChild ++ ParentPlace.overrun.held).length +
        _ = 1
      rw [hrest, hheld, hanswers, System.rests, if_neg hasking]
      rfl
    behind := h.behind
    last := fun line hline => by
      change line ∈ toParent ++ s.child.held at hline
      rw [hrest] at hline
      exact absurd hline List.not_mem_nil
    fit := by
      change ∀ answer ∈ s.toChild ++ ParentPlace.overrun.held, _
      rw [hheld]
      exact h.fit
    earlier := h.earlier
    settled := by
      change s.child = .asking ∨ s.toChild ++ ParentPlace.overrun.held ≠ [] → _
      rw [hheld]
      exact h.settled
    overrun := fun _ => ⟨datagram, hlast, hover⟩
    inside := h.inside }

theorem Invariant.receive (h : Invariant s) {datagram : Bytes} {toChild : List Bytes}
    (hchild : s.child = .receiving) (harrives : s.toChild = datagram :: toChild) :
    Invariant { s with
      child := .asking, toChild := toChild, childShown := s.childShown ++ [cStr datagram] } := by
  have hturn := h.turn
  have hanswers : s.answers = datagram :: (toChild ++ s.parent.held) := by
    rw [System.answers, harrives, List.cons_append]
  rw [hanswers, List.length_cons] at hturn
  have hrest : toChild ++ s.parent.held = [] := List.length_eq_zero_iff.mp (by omega)
  have hasks : s.asks = [] := List.length_eq_zero_iff.mp (by omega)
  obtain ⟨_, hparent⟩ := rests_eq_zero (show s.rests = 0 by omega)
  have hheld : s.toParent ++ ChildPlace.asking.held = s.asks := by
    rw [System.asks, hchild]
    rfl
  exact {
    asked := by
      change s.parentShown ++ (s.toParent ++ ChildPlace.asking.held).map cStr <+: _
      rw [hheld]
      exact h.asked
    answered := by
      change s.childShown ++ [cStr datagram] ++ (toChild ++ s.parent.held).map cStr <+: _
      rw [hrest, List.map_nil, List.append_nil]
      have hanswered := h.answered
      rw [hanswers, hrest] at hanswered
      exact hanswered
    turn := by
      change (s.toParent ++ ChildPlace.asking.held).length + (toChild ++ s.parent.held).length +
        _ ≤ 1
      rw [hheld, hasks, hrest, System.rests, if_neg hparent]
      exact Nat.le_refl 1
    both := fun _ _ => by
      change (s.toParent ++ ChildPlace.asking.held).length + (toChild ++ s.parent.held).length +
        _ = 1
      rw [hheld, hasks, hrest, System.rests, if_neg hparent]
      rfl
    behind := by
      change s.lines.length + 1 ≤ (s.childShown ++ [cStr datagram]).length + 1
      have hbehind := h.behind
      rw [List.length_append, List.length_singleton]
      exact Nat.succ_le_succ (Nat.le_trans (Nat.le_add_right _ _) hbehind)
    last := by
      change ∀ line ∈ s.toParent ++ ChildPlace.asking.held, _
      rw [hheld]
      exact h.last
    fit := fun answer hanswer => by
      change answer ∈ toChild ++ s.parent.held at hanswer
      rw [hrest] at hanswer
      exact absurd hanswer List.not_mem_nil
    earlier := h.earlier
    settled := fun _ => by
      refine h.settled (Or.inr ?_)
      rw [hanswers]
      exact List.cons_ne_nil _ _
    overrun := h.overrun
    inside := fun hover => by cases hover }

theorem Invariant.childEnds (h : Invariant s) (hasking : s.child ≠ .asking) :
    Invariant { s with child := .ended } := by
  refine h.move ?_ (List.prefix_refl _) ?_ Iff.rfl ?_ (fun hthere => absurd rfl hthere)
  · change s.toParent ++ [] <+: s.asks
    rw [List.append_nil]
    exact List.prefix_append _ _
  · exact iff_of_false (fun hsame => by cases hsame) hasking
  · exact fun hsame => by cases hsame

theorem Invariant.parentEnds (h : Invariant s) (hover : s.parent ≠ .overrun) :
    Invariant { s with parent := .ended } := by
  refine h.move (List.prefix_refl _) ?_ Iff.rfl ?_ h.inside (fun _ hthere => absurd rfl hthere)
  · change s.toChild ++ [] <+: s.answers
    rw [List.append_nil]
    exact List.prefix_append _ _
  · exact iff_of_false (fun hsame => by cases hsame) hover

theorem Invariant.step {action : Action} (h : Invariant s) (hstep : step s action = some s') :
    Invariant s' := by
  cases action with
  | read line =>
      rw [UnixdomainPair.step] at hstep
      split at hstep
      · rename_i hchild
        obtain ⟨⟨_, hsize⟩, heq⟩ := Option.ite_none_right_eq_some.mp hstep
        obtain rfl := Option.some.inj heq
        exact h.read hchild hsize
      · cases hstep
  | send =>
      rw [UnixdomainPair.step] at hstep
      split at hstep
      · rename_i msg hchild
        obtain ⟨hthere, heq⟩ := Option.ite_none_right_eq_some.mp hstep
        obtain rfl := Option.some.inj heq
        have hasks : s.toParent ++ [msg] ++ ChildPlace.receiving.held = s.asks := by
          rw [System.asks, hchild]
          exact List.append_nil _
        refine h.move (hasks ▸ List.prefix_refl _) (List.prefix_refl _) ?_ Iff.rfl ?_ ?_
        · rw [hchild]
          exact iff_of_false (fun hsame => by cases hsame) (fun hsame => by cases hsame)
        · exact fun hsame => by cases hsame
        · intro _ hparent
          rw [hchild]
          exact ⟨hasks, rfl, (fun hsame => by cases hsame), hparent⟩
      · cases hstep
  | receive =>
      rw [UnixdomainPair.step] at hstep
      split at hstep
      · rename_i datagram toChild hchild harrives
        obtain ⟨hfits, hsize⟩ := h.fit datagram (by
          rw [System.answers, harrives]
          exact List.mem_cons_self)
        rw [List.take_of_length_le hsize, stringAt_array hfits] at hstep
        obtain rfl := Option.some.inj hstep
        exact h.receive hchild harrives
      · cases hstep
  | childFails =>
      rcases hchild : s.child with _ | msg | _ | _ | _
      case sending | receiving =>
        rw [UnixdomainPair.step, hchild] at hstep
        obtain rfl := Option.some.inj hstep
        exact h.childEnds (by rw [hchild]; exact fun hsame => by cases hsame)
      all_goals
        rw [UnixdomainPair.step, hchild] at hstep
        cases hstep
  | parentReceive =>
      rw [UnixdomainPair.step] at hstep
      split at hstep
      · rename_i datagram toParent hparent harrives
        obtain ⟨_, hsize⟩ := h.last datagram (by
          rw [System.asks, harrives]
          exact List.mem_cons_self)
        rw [List.take_of_length_le hsize] at hstep
        rcases Decidable.em (Fits datagram) with hfits | hover
        · obtain ⟨after, hafter, hcapitals⟩ := take_strhelperToupper hfits
          simp only [stringAt_array hfits, hafter, hcapitals] at hstep
          obtain rfl := Option.some.inj hstep
          exact h.parentReceive harrives hfits
        · simp only [stringAt_array_eq_none hover] at hstep
          obtain rfl := Option.some.inj hstep
          exact h.parentOverrun harrives hover hparent
      · cases hstep
  | parentSend =>
      rw [UnixdomainPair.step] at hstep
      split at hstep
      · rename_i msg hparent
        obtain ⟨hthere, heq⟩ := Option.ite_none_right_eq_some.mp hstep
        obtain rfl := Option.some.inj heq
        have hanswers : s.toChild ++ [msg] ++ ParentPlace.receiving.held = s.answers := by
          rw [System.answers, hparent]
          exact List.append_nil _
        refine h.move (List.prefix_refl _) (hanswers ▸ List.prefix_refl _) Iff.rfl ?_ h.inside ?_
        · rw [hparent]
          exact iff_of_false (fun hsame => by cases hsame) (fun hsame => by cases hsame)
        · intro hchild _
          rw [hparent]
          exact ⟨rfl, hanswers, hchild, (fun hsame => by cases hsame)⟩
      · cases hstep
  | parentFails =>
      rcases hparent : s.parent with _ | msg | _ | _
      case receiving | sending =>
        rw [UnixdomainPair.step, hparent] at hstep
        obtain rfl := Option.some.inj hstep
        exact h.parentEnds (by rw [hparent]; exact fun hsame => by cases hsame)
      all_goals
        rw [UnixdomainPair.step, hparent] at hstep
        cases hstep

theorem Invariant.conversation (h : Invariant s) : Conversation s where
  answered := by
    have hboth := h.childShown_prefix.trans (h.parentShown_prefix.map (List.map capital))
    rw [List.map_map] at hboth
    exact hboth
  behind := Nat.le_trans (Nat.le_add_right _ _) h.behind
  earlier := h.earlier
  overrun := h.overrun
  inside := h.inside
  awake := by
    intro hchild hparent
    have hturn := h.both (by rw [hchild]; exact fun hsame => by cases hsame)
      (by rw [hparent]; exact fun hsame => by cases hsame)
    rw [System.asks, System.answers, System.rests, hchild, hparent] at hturn
    change (s.toParent ++ []).length + (s.toChild ++ []).length + 0 = 1 at hturn
    rw [List.append_nil, List.append_nil] at hturn
    by_contra hnone
    obtain ⟨htoParent, htoChild⟩ := not_or.mp hnone
    rw [not_not.mp htoParent, not_not.mp htoChild] at hturn
    cases hturn

/-- In every run the answers of the child are right, and the first array that is overrun
is one of the parent, by a line of the size of the array without a NUL. -/
theorem lines_capitalised (actions : List Action) :
    EveryState step Conversation .start actions := by
  have hinvariant : EveryState step Invariant .start actions :=
    invariant invariant_start (fun _ _ _ h hstep => h.step hstep) actions
  intro before s hbefore hrun
  exact (hinvariant before s hbefore hrun).conversation

end StudyLinuxKernel.Socket.UnixdomainPair
