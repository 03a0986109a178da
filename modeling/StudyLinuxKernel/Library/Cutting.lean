import StudyLinuxKernel.Library.Occurrences

namespace StudyLinuxKernel.Library.Cutting

open StudyLinuxKernel.Library.Occurrences

variable {α : Type*}

/-- `s` cut at the first `n` occurrences of `sep` from the left, all of them
where `n` is negative.  An occurrence that ends the list is not a cut. -/
inductive CutFirst (sep : List α) : Int → List α → List (List α) → Prop where
  | whole (n : Int) (s : List α) :
      n = 0 ∨ (∀ p, p + sep.length < s.length → ¬ sep <+: s.drop p) → CutFirst sep n s [s]
  | cut (n : Int) (a t : List α) (ps : List (List α)) :
      n ≠ 0 → t ≠ [] → (∀ p < a.length, ¬ sep <+: (a ++ (sep ++ t)).drop p) →
      CutFirst sep (spend n) t ps → CutFirst sep n (a ++ (sep ++ t)) (a :: ps)

/-- Two occurrences of `sep`, each with something behind it, have elements of
`s` in common. -/
def Overlapping (sep s : List α) : Prop :=
  ∃ p q, p < q ∧ q < p + sep.length ∧ q + sep.length < s.length ∧
    sep <+: s.drop p ∧ sep <+: s.drop q

/-- Each cut lies behind the one before it and what that takes away. -/
def Apart (m : Nat) : Nat → List Nat → Prop
  | _, [] => True
  | pos, p :: ps => pos ≤ p ∧ Apart m (p + m) ps

variable {sep : List α}

theorem CutFirst.ne_nil {n : Int} {s : List α} {ps : List (List α)} (h : CutFirst sep n s ps) :
    ps ≠ [] := by
  cases h with
  | whole => exact List.cons_ne_nil _ _
  | cut => exact List.cons_ne_nil _ _

theorem CutFirst.intercalate {n : Int} {s : List α} {ps : List (List α)}
    (h : CutFirst sep n s ps) : sep.intercalate ps = s := by
  induction h with
  | whole n s _ => exact List.intercalate_singleton
  | cut n a t ps _ _ _ hrest ih =>
      rw [List.intercalate_cons_of_ne_nil hrest.ne_nil, ih, List.append_assoc]

theorem CutFirst.not_infix {n : Int} {s : List α} {ps : List (List α)}
    (h : CutFirst sep n s ps) (hne : sep ≠ []) : ∀ piece ∈ ps.dropLast, ¬ sep <:+: piece := by
  induction h with
  | whole n s _ => exact fun piece hpiece => absurd hpiece List.not_mem_nil
  | cut n a t ps _ _ hfirst hrest ih =>
      rw [List.dropLast_cons_of_ne_nil hrest.ne_nil]
      intro piece hpiece
      rcases List.mem_cons.mp hpiece with rfl | hpiece
      · rintro ⟨u, v, rfl⟩
        have hpos : 0 < sep.length := List.length_pos_iff.mpr hne
        refine hfirst u.length ?_ ?_
        · simp only [List.length_append]
          omega
        · rw [List.append_assoc, List.append_assoc, List.drop_left]
          exact List.prefix_append _ _
      · exact ih piece hpiece

theorem intercalate_concat {ls : List (List α)} (hne : ls ≠ [])
    (last : List α) : sep.intercalate (ls ++ [last]) = sep.intercalate ls ++ (sep ++ last) := by
  induction ls with
  | nil => exact absurd rfl hne
  | cons l ls ih =>
      rw [List.cons_append, List.intercalate_cons_of_ne_nil (by simp)]
      rcases eq_or_ne ls [] with rfl | hmore
      · simp
      · rw [ih hmore, List.intercalate_cons_of_ne_nil hmore]
        simp

theorem intercalate_cutAt {s : List α} (ps : List Nat) :
    ∀ pos, Apart sep.length pos ps → (∀ p ∈ ps, sep <+: s.drop p) →
      sep.intercalate (cutAt s sep.length pos ps) = s.drop pos := by
  induction ps with
  | nil => exact fun pos _ _ => List.intercalate_singleton
  | cons p ps ih =>
      intro pos hapart hocc
      obtain ⟨hle, hrest⟩ := hapart
      obtain ⟨rest, hrest'⟩ := hocc p List.mem_cons_self
      have hne : cutAt s sep.length (p + sep.length) ps ≠ [] := by
        rw [← List.length_pos_iff, length_cutAt]
        exact Nat.succ_pos _
      have hgap : (p : Int) - pos = ((p - pos : Nat) : Int) := by omega
      have hbehind : s.drop (p + sep.length) = rest := by
        rw [← List.drop_drop, ← hrest', List.drop_left]
      rw [cutAt, List.intercalate_cons_of_ne_nil hne,
        ih _ hrest fun q hq => hocc q (List.mem_cons_of_mem p hq), hgap, slice_natCast, hbehind,
        List.append_assoc, hrest']
      have hsplit : s.drop p = (s.drop pos).drop (p - pos) := by
        rw [List.drop_drop, Nat.add_sub_cancel' hle]
      rw [hsplit, List.take_append_drop]

theorem Borderless.not_overlapping {s : List α} (h : Borderless sep) : ¬ Overlapping sep s := by
  rintro ⟨p, q, hlt, hclose, _, ⟨rest, hp⟩, hq⟩
  obtain ⟨k, rfl⟩ := Nat.exists_eq_add_of_lt hlt
  rw [Nat.add_assoc, ← List.drop_drop, ← hp] at hq
  exact h.not_prefix_drop_append rest (Nat.succ_pos k) (by omega) hq

section Separator

variable [DecidableEq α]

theorem apart_iff_pairwise {m : Nat} (ps : List Nat) :
    ∀ pos, Apart m pos ps ↔ (∀ p ∈ ps, pos ≤ p) ∧ ps.Pairwise (fun p q => p + m ≤ q) := by
  induction ps with
  | nil => simp [Apart]
  | cons p ps ih =>
      intro pos
      rw [Apart, ih, List.pairwise_cons, List.forall_mem_cons]
      constructor
      · rintro ⟨hpos, hall, hrest⟩
        exact ⟨⟨hpos, fun q hq => by have := hall q hq; omega⟩, hall, hrest⟩
      · rintro ⟨⟨hpos, _⟩, hall, hrest⟩
        exact ⟨hpos, hall, hrest⟩

theorem apart_innerOccurrences_iff (sep s : List α) :
    Apart sep.length 0 (innerOccurrences sep s) ↔ ¬ Overlapping sep s := by
  rw [apart_iff_pairwise, and_iff_right fun p _ => Nat.zero_le p]
  constructor
  · rintro hapart ⟨p, q, hlt, hclose, hlen, hp, hq⟩
    have hforth : (innerOccurrences sep s).Pairwise fun p q => p < q → p + sep.length ≤ q :=
      hapart.imp fun {p q} hfar (_ : p < q) => hfar
    have hback : (innerOccurrences sep s).Pairwise
        (flip fun p q => p < q → p + sep.length ≤ q) :=
      (pairwise_innerOccurrences sep s).imp fun {p q} hbefore (hafter : q < p) =>
        absurd hafter (Nat.lt_asymm hbefore)
    have hall := List.Pairwise.forall_of_forall_of_flip
      (fun x _ hself => absurd hself (Nat.lt_irrefl x)) hforth hback
    exact Nat.not_lt.mpr (hall (mem_innerOccurrences.mpr ⟨by omega, hp⟩)
      (mem_innerOccurrences.mpr ⟨hlen, hq⟩) hlt) hclose
  · intro hnone
    refine (pairwise_innerOccurrences sep s).imp_of_mem fun {p q} hp hq hlt => ?_
    refine Nat.not_lt.mp fun hclose => hnone ⟨p, q, hlt, hclose, ?_⟩
    exact ⟨(mem_innerOccurrences.mp hq).1, (mem_innerOccurrences.mp hp).2,
      (mem_innerOccurrences.mp hq).2⟩

theorem cutFirst_pieces (h : Borderless sep) (hne : sep ≠ []) (n : Int) (s : List α) :
    CutFirst sep n s (pieces sep n s) := by
  induction hlen : s.length using Nat.strong_induction_on generalizing n s with
  | h length ih =>
      rcases eq_or_ne n 0 with rfl | hn
      · rw [pieces_zero]
        exact .whole 0 s (Or.inl rfl)
      · cases hocc : innerOccurrences sep s with
        | nil =>
            rw [pieces_of_innerOccurrences_eq_nil n hocc]
            exact .whole n s (Or.inr (innerOccurrences_eq_nil_iff.mp hocc))
        | cons p ps =>
            rcases exists_first_cut hocc with ⟨front, rest, rfl, hrest, hfirst⟩
            have hpos : 0 < sep.length := List.length_pos_iff.mpr hne
            have hshorter : rest.length < length := by
              rw [← hlen, List.length_append, List.length_append]
              omega
            rw [pieces_append h hne hrest hn hfirst]
            exact .cut n front rest _ hn hrest hfirst (ih rest.length hshorter _ rest rfl)

theorem CutFirst.eq_pieces {n : Int} {s : List α} {ps : List (List α)} (hcut : CutFirst sep n s ps)
    (h : Borderless sep) (hne : sep ≠ []) : ps = pieces sep n s := by
  induction hcut with
  | whole n s hwhole =>
      rcases hwhole with rfl | hnone
      · exact (pieces_zero sep s).symm
      · exact (pieces_of_innerOccurrences_eq_nil n (innerOccurrences_eq_nil_iff.mpr hnone)).symm
  | cut n a t ps hn ht hfirst _ ih => rw [pieces_append h hne ht hn hfirst, ih]

/-- What stands in front of the first occurrence of `sep`, and what behind it. -/
def breakAt (sep : List α) : List α → Option (List α × List α)
  | [] => if sep = [] then some ([], []) else none
  | x :: s =>
      if sep <+: x :: s then some ([], (x :: s).drop sep.length)
      else (breakAt sep s).map fun broken => (x :: broken.1, broken.2)

theorem breakAt_append {front rest : List α}
    (hfirst : ∀ p < front.length, ¬ sep <+: (front ++ (sep ++ rest)).drop p) :
    breakAt sep (front ++ (sep ++ rest)) = some (front, rest) := by
  induction front with
  | nil =>
      have hsep : sep <+: sep ++ rest := List.prefix_append _ _
      have hdrop : (sep ++ rest).drop sep.length = rest := List.drop_left
      rw [List.nil_append]
      rcases hs : sep ++ rest with _ | ⟨x, s⟩
      · rcases List.append_eq_nil_iff.mp hs with ⟨rfl, rfl⟩
        rfl
      · rw [hs] at hsep hdrop
        rw [breakAt, if_pos hsep, hdrop]
  | cons x front ih =>
      have hhere : ¬ sep <+: x :: (front ++ (sep ++ rest)) := hfirst 0 (Nat.succ_pos _)
      have hlater : ∀ p < front.length, ¬ sep <+: (front ++ (sep ++ rest)).drop p :=
        fun p hp => hfirst (p + 1) (Nat.succ_lt_succ hp)
      rw [List.cons_append, breakAt, if_neg hhere, ih hlater, Option.map_some]

end Separator

end StudyLinuxKernel.Library.Cutting
