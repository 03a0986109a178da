import Mathlib.Data.List.DropRight

namespace StudyLinuxKernel.Library.Trim

variable {α : Type*} (blank : α → Bool)

/-- `s` without its maximal blank prefix and its maximal blank suffix. -/
def trim (s : List α) : List α :=
  (s.dropWhile blank).rdropWhile blank

structure Trimmed (s : List α) : Prop where
  head : s.dropWhile blank = s
  last : s.rdropWhile blank = s

variable {blank}

theorem not_blank_of_dropWhile_eq_self {x : α} {s : List α}
    (h : (x :: s).dropWhile blank = x :: s) : blank x = false := by
  have hfirst := List.dropWhile_eq_self_iff.mp h (by simp)
  simpa only [List.getElem_cons_zero, Bool.not_eq_true] using hfirst

theorem Trimmed.head_not_blank {x : α} {s : List α} (h : Trimmed blank (x :: s)) :
    blank x = false :=
  not_blank_of_dropWhile_eq_self h.head

theorem Trimmed.last_not_blank {y : α} {s : List α} (h : Trimmed blank (s ++ [y])) :
    blank y = false := by
  simpa using List.rdropWhile_eq_self_iff.mp h.last (by simp)

theorem rdropWhile_append_of_blank {s trail : List α} (htrail : ∀ c ∈ trail, blank c) :
    (s ++ trail).rdropWhile blank = s.rdropWhile blank := by
  have hreverse : ∀ c ∈ trail.reverse, blank c := by simpa using htrail
  simp [List.rdropWhile, List.dropWhile_append_of_pos hreverse]

theorem rdropWhile_append_of_not_blank {x : α} (hx : blank x = false) (s t : List α) :
    (s ++ x :: t).rdropWhile blank = s ++ x :: t.rdropWhile blank := by
  induction t using List.reverseRecOn with
  | nil => simpa using List.rdropWhile_concat_neg blank s x (by simp [hx])
  | append_singleton t y ih =>
      have hassoc : s ++ x :: (t ++ [y]) = (s ++ x :: t) ++ [y] := by simp
      by_cases hy : blank y
      · rw [hassoc, List.rdropWhile_concat_pos _ _ _ hy, ih,
          List.rdropWhile_concat_pos _ _ _ hy]
      · rw [hassoc, List.rdropWhile_concat_neg _ _ _ hy,
          List.rdropWhile_concat_neg _ _ _ hy]
        simp

theorem dropWhile_append_of_not_blank {x : α} (hx : blank x = false) (s : List α) :
    (x :: s).dropWhile blank = x :: s := by
  simp [hx]

theorem trimmed_trim (blank : α → Bool) (s : List α) : Trimmed blank (trim blank s) := by
  refine ⟨?_, List.rdropWhile_idempotent blank _⟩
  cases hs : s.dropWhile blank with
  | nil => simp [trim, hs]
  | cons x t =>
      have hx : blank x = false := by
        have hself := List.dropWhile_idempotent blank s
        rw [hs] at hself
        exact not_blank_of_dropWhile_eq_self hself
      have hcut := rdropWhile_append_of_not_blank hx [] t
      simp only [List.nil_append] at hcut
      rw [trim, hs, hcut]
      exact dropWhile_append_of_not_blank hx _

theorem exists_trim_append (blank : α → Bool) (s : List α) : ∃ lead trail,
    s = lead ++ (trim blank s ++ trail) ∧ (∀ c ∈ lead, blank c) ∧ ∀ c ∈ trail, blank c := by
  refine ⟨s.takeWhile blank, (s.dropWhile blank).rtakeWhile blank, ?_, ?_, ?_⟩
  · rw [trim, List.rdropWhile_append_rtakeWhile, List.takeWhile_append_dropWhile]
  · intro c hc
    exact List.mem_takeWhile_imp hc
  · intro c hc
    exact List.mem_rtakeWhile_imp hc

theorem Trimmed.head?_not_blank {s : List α} (h : Trimmed blank s) {x : α}
    (hx : s.head? = some x) : blank x = false := by
  obtain ⟨rest, rfl⟩ := List.head?_eq_some_iff.mp hx
  exact h.head_not_blank

theorem Trimmed.getLast?_not_blank {s : List α} (h : Trimmed blank s) {x : α}
    (hx : s.getLast? = some x) : blank x = false := by
  obtain ⟨front, rfl⟩ := List.getLast?_eq_some_iff.mp hx
  exact h.last_not_blank

theorem filter_eq_nil_of_blank {s : List α} (h : ∀ c ∈ s, blank c) :
    s.filter (fun c => !blank c) = [] := by
  apply List.filter_eq_nil_iff.mpr
  intro c hc
  simp [h c hc]

theorem filter_trim (blank : α → Bool) (s : List α) :
    (trim blank s).filter (fun c => !blank c) = s.filter fun c => !blank c := by
  rcases exists_trim_append blank s with ⟨lead, trail, hs, hlead, htrail⟩
  conv_rhs => rw [hs]
  rw [List.filter_append, List.filter_append, filter_eq_nil_of_blank hlead,
    filter_eq_nil_of_blank htrail, List.nil_append, List.append_nil]

theorem exists_of_length_trim_eq_one {s : List α} (h : (trim blank s).length = 1) :
    ∃ lead x trail, s = lead ++ x :: trail ∧ trim blank s = [x] ∧ blank x = false ∧
      (∀ c ∈ lead, blank c) ∧ ∀ c ∈ trail, blank c := by
  rcases List.length_eq_one_iff.mp h with ⟨x, hx⟩
  rcases exists_trim_append blank s with ⟨lead, trail, hs, hlead, htrail⟩
  have htrimmed := trimmed_trim blank s
  rw [hx] at hs htrimmed
  exact ⟨lead, x, trail, hs, hx, htrimmed.head_not_blank, hlead, htrail⟩

theorem trim_append {lead core trail : List α} (hcore : Trimmed blank core)
    (hlead : ∀ c ∈ lead, blank c) (htrail : ∀ c ∈ trail, blank c) :
    trim blank (lead ++ (core ++ trail)) = core := by
  rw [trim, List.dropWhile_append_of_pos hlead]
  cases core with
  | nil =>
      have hall : trail.dropWhile blank = [] := List.dropWhile_eq_nil_iff.mpr htrail
      simp [hall]
  | cons x core =>
      rw [List.cons_append, dropWhile_append_of_not_blank hcore.head_not_blank,
        ← List.cons_append, rdropWhile_append_of_blank htrail, hcore.last]

theorem trim_append_cons {lead trail : List α} {x : α} (hlead : ∀ c ∈ lead, blank c)
    (hx : blank x = false) (htrail : ∀ c ∈ trail, blank c) :
    trim blank (lead ++ x :: trail) = [x] := by
  have hcore : Trimmed blank [x] := by
    constructor <;> simp [hx]
  exact trim_append hcore hlead htrail

theorem trim_eq_nil_iff {s : List α} : trim blank s = [] ↔ ∀ c ∈ s, blank c := by
  constructor
  · intro h
    obtain ⟨lead, trail, hs, hlead, htrail⟩ := exists_trim_append blank s
    rw [h, List.nil_append] at hs
    intro c hc
    rw [hs] at hc
    rcases List.mem_append.mp hc with hc | hc
    · exact hlead c hc
    · exact htrail c hc
  · intro h
    have hall : s.dropWhile blank = [] := List.dropWhile_eq_nil_iff.mpr h
    simp [trim, hall]

theorem trim_append_of_blank_left {lead : List α} (hlead : ∀ c ∈ lead, blank c) (s : List α) :
    trim blank (lead ++ s) = trim blank s := by
  rw [trim, List.dropWhile_append_of_pos hlead, trim]

theorem trim_rdropWhile (s : List α) : trim blank (s.rdropWhile blank) = trim blank s := by
  obtain ⟨lead, trail, hs, hlead, htrail⟩ := exists_trim_append blank s
  have hmiddle := trimmed_trim blank s
  cases hcore : trim blank s with
  | nil =>
      rw [trim_eq_nil_iff] at hcore
      rw [List.rdropWhile_eq_nil_iff.mpr hcore]
      rfl
  | cons x core =>
      rw [hcore] at hs hmiddle
      have hcut : s.rdropWhile blank = lead ++ (x :: core) := by
        rw [hs, ← List.append_assoc, rdropWhile_append_of_blank htrail,
          rdropWhile_append_of_not_blank hmiddle.head_not_blank]
        have hlast := hmiddle.last
        have hfront := rdropWhile_append_of_not_blank hmiddle.head_not_blank [] core
        simp only [List.nil_append] at hfront
        rw [hfront] at hlast
        rw [hlast]
      rw [hcut, trim_append_of_blank_left hlead]
      have hself := @trim_append _ blank [] (x :: core) [] hmiddle (by simp) (by simp)
      simpa using hself

end StudyLinuxKernel.Library.Trim
