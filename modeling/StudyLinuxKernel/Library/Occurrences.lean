import Mathlib.Data.List.Infix
import Mathlib.Data.List.Sort

/-!
Cutting a list at the occurrences of a separator.  An occurrence that ends the
list is not counted: the cuts are those behind which something is left.  The
positions are all of them, overlapping ones included, which is where a
separator with a border differs from one without.
-/

namespace StudyLinuxKernel.Library.Occurrences

variable {α : Type*}

/-- The part of `s` from position `pos` on that is `n` long.  A negative `n`
takes everything from `pos` on. -/
def slice (s : List α) (pos : Nat) (n : Int) : List α :=
  if n < 0 then s.drop pos else (s.drop pos).take n.toNat

theorem slice_natCast (s : List α) (pos n : Nat) :
    slice s pos n = (s.drop pos).take n := by
  simp [slice]

theorem slice_of_neg (s : List α) (pos : Nat) {n : Int} (hn : n < 0) :
    slice s pos n = s.drop pos := by
  simp [slice, hn]

theorem slice_append_left (u s : List α) (pos : Nat) (n : Int) :
    slice (u ++ s) (u.length + pos) n = slice s pos n := by
  simp [slice]

/-- The pieces of `s` between cuts at the positions `ps`, where a cut takes
away `m` elements, from position `pos` on. -/
def cutAt (s : List α) (m : Nat) (pos : Nat) : List Nat → List (List α)
  | [] => [s.drop pos]
  | p :: ps => slice s pos ((p : Int) - pos) :: cutAt s m (p + m) ps

def limit (n : Int) (ps : List Nat) : List Nat :=
  if n < 0 then ps else ps.take n.toNat

@[simp] theorem limit_nil (n : Int) : limit n [] = [] := by
  simp [limit]

@[simp] theorem limit_zero (ps : List Nat) : limit 0 ps = [] := by
  simp [limit]

theorem limit_of_neg {n : Int} (hn : n < 0) (ps : List Nat) : limit n ps = ps := by
  simp [limit, hn]

def spend (n : Int) : Int := if 0 < n then n - 1 else n

theorem limit_cons {n : Int} (hn : n ≠ 0) (p : Nat) (ps : List Nat) :
    limit n (p :: ps) = p :: limit (spend n) ps := by
  rcases lt_or_gt_of_ne hn with hneg | hpos
  · have hspend : spend n = n := by simp [spend, hneg.le]
    simp [limit, hspend, hneg]
  · have hspend : spend n = n - 1 := by simp [spend, hpos]
    obtain ⟨k, rfl⟩ : ∃ k : Nat, n = k + 1 := ⟨(n - 1).toNat, by omega⟩
    have hk : ¬ ((k : Int) + 1 < 0) := by omega
    have hk' : ((k : Int) + 1).toNat = k + 1 := by omega
    simp [limit, hspend, hk, hk']

theorem limit_map (n : Int) (f : Nat → Nat) (ps : List Nat) :
    limit n (ps.map f) = (limit n ps).map f := by
  by_cases hn : n < 0 <;> simp [limit, hn]

theorem length_cutAt (s : List α) (m pos : Nat) (ps : List Nat) :
    (cutAt s m pos ps).length = ps.length + 1 := by
  induction ps generalizing pos with
  | nil => rfl
  | cons p ps ih => simp [cutAt, ih]

theorem cutAt_append_left (u s : List α) (m pos : Nat) (ps : List Nat) :
    cutAt (u ++ s) m (u.length + pos) (ps.map (u.length + ·)) = cutAt s m pos ps := by
  induction ps generalizing pos with
  | nil => simp [cutAt]
  | cons p ps ih =>
      have hgap : ((u.length + p : Nat) : Int) - (u.length + pos : Nat) = (p : Int) - pos := by
        omega
      simp only [List.map_cons, cutAt]
      rw [hgap, slice_append_left, Nat.add_assoc, ih]

/-- No proper suffix of `sep` begins it, so that two occurrences never overlap. -/
def Borderless (sep : List α) : Prop :=
  ∀ k < sep.length, 0 < k → ¬ sep.drop k <+: sep

theorem Borderless.not_prefix_drop_append {sep : List α} (hsep : Borderless sep)
    (t : List α) {p : Nat} (hpos : 0 < p) (hp : p < sep.length) :
    ¬ sep <+: (sep ++ t).drop p := by
  intro hocc
  rw [List.drop_append_of_le_length hp.le] at hocc
  have hsuffix : sep.drop p <+: sep.drop p ++ t := List.prefix_append _ _
  exact hsep p hp hpos
    (List.prefix_of_prefix_length_le hsuffix hocc (by simp))

theorem not_prefix_drop_of_head_not_mem {c : α} {sep a : List α} (ha : c ∉ a)
    (u : List α) {p : Nat} (hp : p < a.length) : ¬ (c :: sep) <+: (a ++ u).drop p := by
  intro hocc
  rw [List.drop_append_of_le_length hp.le, List.drop_eq_getElem_cons hp] at hocc
  have hhead : c = a[p] := by
    rw [List.cons_append, List.cons_prefix_cons] at hocc
    exact hocc.1
  exact ha (hhead ▸ List.getElem_mem hp)

theorem prefix_drop_iff {sep s : List α} {p : Nat} (hp : p ≤ s.length) :
    sep <+: s.drop p ↔ ∃ front rest, s = front ++ (sep ++ rest) ∧ front.length = p := by
  constructor
  · rintro ⟨rest, hrest⟩
    refine ⟨s.take p, rest, ?_, List.length_take_of_le hp⟩
    rw [hrest, List.take_append_drop]
  · rintro ⟨front, rest, rfl, rfl⟩
    simp

section Separator

variable [DecidableEq α]

/-- The positions at which `sep` occurs in `s` with something behind it. -/
def innerOccurrences (sep s : List α) : List Nat :=
  (List.range (s.length - sep.length)).filter fun p => decide (sep <+: s.drop p)

def pieces (sep : List α) (n : Int) (s : List α) : List (List α) :=
  cutAt s sep.length 0 (limit n (innerOccurrences sep s))

theorem mem_innerOccurrences {sep s : List α} {p : Nat} :
    p ∈ innerOccurrences sep s ↔ p + sep.length < s.length ∧ sep <+: s.drop p := by
  simp only [innerOccurrences, List.mem_filter, List.mem_range, decide_eq_true_eq]
  apply and_congr_left
  intro _
  omega

theorem pairwise_innerOccurrences (sep s : List α) :
    (innerOccurrences sep s).Pairwise (· < ·) :=
  List.pairwise_lt_range.filter _

theorem innerOccurrences_eq_nil_iff {sep s : List α} :
    innerOccurrences sep s = [] ↔ ∀ p, p + sep.length < s.length → ¬ sep <+: s.drop p := by
  simp only [List.eq_nil_iff_forall_not_mem, mem_innerOccurrences, not_and]

theorem innerOccurrences_append {sep a u : List α}
    (hfirst : ∀ p < a.length, ¬ sep <+: (a ++ u).drop p) :
    innerOccurrences sep (a ++ u) = (innerOccurrences sep u).map (a.length + ·) := by
  apply (pairwise_innerOccurrences sep (a ++ u)).eq_of_mem_iff
  · refine List.pairwise_map.mpr ((pairwise_innerOccurrences sep u).imp ?_)
    intro p q hpq
    omega
  · intro p
    simp only [List.mem_map, mem_innerOccurrences, List.length_append]
    constructor
    · rintro ⟨hlen, hocc⟩
      have hp : a.length ≤ p := Nat.le_of_not_lt fun hlt => hfirst p hlt hocc
      obtain ⟨q, rfl⟩ := Nat.exists_eq_add_of_le hp
      refine ⟨q, ⟨by omega, ?_⟩, rfl⟩
      simpa using hocc
    · rintro ⟨q, ⟨hlen, hocc⟩, rfl⟩
      exact ⟨by omega, by simpa using hocc⟩

instance (sep : List α) : Decidable (Borderless sep) :=
  inferInstanceAs (Decidable (∀ k < sep.length, 0 < k → ¬ sep.drop k <+: sep))

theorem innerOccurrences_sep_append {sep t : List α} (hsep : Borderless sep)
    (hne : sep ≠ []) (ht : t ≠ []) :
    innerOccurrences sep (sep ++ t) =
      0 :: (innerOccurrences sep t).map (sep.length + ·) := by
  have hlen : 0 < sep.length := List.length_pos_iff.mpr hne
  have htlen : 0 < t.length := List.length_pos_iff.mpr ht
  apply (pairwise_innerOccurrences sep (sep ++ t)).eq_of_mem_iff
  · refine List.pairwise_cons.mpr ⟨?_, List.pairwise_map.mpr
      ((pairwise_innerOccurrences sep t).imp ?_)⟩
    · intro p hp
      obtain ⟨q, _, rfl⟩ := List.mem_map.mp hp
      omega
    · intro p q hpq
      omega
  · intro p
    simp only [List.mem_cons, List.mem_map, mem_innerOccurrences, List.length_append]
    constructor
    · rintro ⟨hbound, hocc⟩
      rcases Nat.eq_zero_or_pos p with hzero | hpos
      · exact .inl hzero
      · have hp : sep.length ≤ p := Nat.le_of_not_lt fun hlt =>
          hsep.not_prefix_drop_append t hpos hlt hocc
        obtain ⟨q, rfl⟩ := Nat.exists_eq_add_of_le hp
        exact .inr ⟨q, ⟨by omega, by simpa using hocc⟩, rfl⟩
    · rintro (rfl | ⟨q, ⟨hbound, hocc⟩, rfl⟩)
      · exact ⟨by omega, by simp⟩
      · exact ⟨by omega, by simpa using hocc⟩

theorem pieces_of_innerOccurrences_eq_nil {sep s : List α} (n : Int)
    (h : innerOccurrences sep s = []) : pieces sep n s = [s] := by
  simp [pieces, h, cutAt]

theorem pieces_zero (sep s : List α) : pieces sep 0 s = [s] := by
  simp [pieces, cutAt]

theorem length_pieces_of_neg (sep s : List α) {n : Int} (hn : n < 0) :
    (pieces sep n s).length = (innerOccurrences sep s).length + 1 := by
  simp [pieces, length_cutAt, limit_of_neg hn]

theorem head_pieces {sep s : List α} {n : Int} (hn : n ≠ 0) {p : Nat} {ps : List Nat}
    (h : innerOccurrences sep s = p :: ps) :
    pieces sep n s = s.take p :: cutAt s sep.length (p + sep.length) (limit (spend n) ps) := by
  simp [pieces, h, limit_cons hn, cutAt, slice_natCast]

theorem pieces_append {sep a t : List α} (hsep : Borderless sep) (hne : sep ≠ [])
    (ht : t ≠ []) {n : Int} (hn : n ≠ 0)
    (hfirst : ∀ p < a.length, ¬ sep <+: (a ++ (sep ++ t)).drop p) :
    pieces sep n (a ++ (sep ++ t)) = a :: pieces sep (spend n) t := by
  have hocc : innerOccurrences sep (a ++ (sep ++ t)) =
      a.length :: (innerOccurrences sep t).map (fun p => a.length + (sep.length + p)) := by
    rw [innerOccurrences_append hfirst, innerOccurrences_sep_append hsep hne ht]
    simp [Function.comp_def]
  rw [head_pieces hn hocc, limit_map]
  have hshift : cutAt (a ++ (sep ++ t)) sep.length (a.length + sep.length)
      ((limit (spend n) (innerOccurrences sep t)).map
        fun p => a.length + (sep.length + p)) =
      pieces sep (spend n) t := by
    have := cutAt_append_left (a ++ sep) t sep.length 0
      (limit (spend n) (innerOccurrences sep t))
    simpa [pieces, Nat.add_assoc] using this
  rw [hshift]
  simp

theorem exists_first_cut {sep s : List α} {p : Nat} {ps : List Nat}
    (h : innerOccurrences sep s = p :: ps) :
    ∃ front rest, s = front ++ (sep ++ rest) ∧ rest ≠ [] ∧
      ∀ q < front.length, ¬ sep <+: s.drop q := by
  have hmem : p ∈ innerOccurrences sep s := by simp [h]
  obtain ⟨hlt, hocc⟩ := mem_innerOccurrences.mp hmem
  obtain ⟨front, rest, hs, hfront⟩ := (prefix_drop_iff (by omega)).mp hocc
  refine ⟨front, rest, hs, ?_, ?_⟩
  · rintro rfl
    rw [hs] at hlt
    simp only [List.append_nil, List.length_append] at hlt
    omega
  · intro q hq hqocc
    have hqmem : q ∈ innerOccurrences sep s := mem_innerOccurrences.mpr ⟨by omega, hqocc⟩
    rw [h] at hqmem
    rcases List.mem_cons.mp hqmem with rfl | hqmem
    · omega
    · have hsorted := pairwise_innerOccurrences sep s
      rw [h] at hsorted
      have := (List.pairwise_cons.mp hsorted).1 q hqmem
      omega

theorem innerOccurrences_eq_nil_of_head_not_mem {c : α} {sep s : List α} (hs : c ∉ s) :
    innerOccurrences (c :: sep) s = [] := by
  rw [innerOccurrences_eq_nil_iff]
  intro p hp
  have hlt : p < s.length := by omega
  simpa using @not_prefix_drop_of_head_not_mem _ c sep s hs [] p hlt

end Separator

end StudyLinuxKernel.Library.Occurrences
