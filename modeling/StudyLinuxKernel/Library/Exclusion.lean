import Mathlib.Logic.Function.Basic

namespace StudyLinuxKernel.Library.Exclusion

variable {P : Type*}

/-- A lock is held exactly while one process is inside. -/
structure Guarded (lockOf : Nat → Nat) (inside : P → Prop) (held : Nat → Bool)
    (procs : List P) : Prop where
  held : ∀ lock, held lock = true ↔
    ∃ (k : Nat) (p : P), procs[k]? = some p ∧ lockOf k = lock ∧ inside p
  exclusive : ∀ (k k' : Nat) (p p' : P), procs[k]? = some p → procs[k']? = some p' →
    lockOf k = lockOf k' → inside p → inside p' → k = k'

variable {lockOf : Nat → Nat} {inside : P → Prop} {held : Nat → Bool} {procs : List P}

theorem guarded_nil : Guarded lockOf inside (fun _ => false) [] where
  held := fun lock => by simp
  exclusive := fun k k' p p' hk => by simp at hk

theorem getElem?_set_of_some {k : Nat} {p p' : P} (hk : procs[k]? = some p) (k' : Nat) :
    (procs.set k p')[k']? = if k = k' then some p' else procs[k']? := by
  have hlength := (List.getElem?_eq_some_iff.mp hk).1
  rw [List.getElem?_set]
  simp only [hlength, if_true]

theorem Guarded.concat (h : Guarded lockOf inside held procs) {p : P} (hp : ¬ inside p) :
    Guarded lockOf inside held (procs ++ [p]) := by
  have hold : ∀ (k : Nat) (q : P), (procs ++ [p])[k]? = some q → inside q →
      procs[k]? = some q := by
    intro k q hk hq
    rcases Nat.lt_trichotomy k procs.length with hlt | heq | hgt
    · rw [List.getElem?_append_left hlt] at hk
      exact hk
    · rw [heq, List.getElem?_append_right (Nat.le_refl _), Nat.sub_self] at hk
      obtain rfl : p = q := Option.some.inj hk
      exact absurd hq hp
    · rw [List.getElem?_eq_none (by rw [List.length_append]; exact hgt)] at hk
      cases hk
  refine ⟨fun lock => (h.held lock).trans ⟨?_, ?_⟩, fun k k' q q' hk hk' hlock hq hq' => ?_⟩
  · rintro ⟨k, q, hk, hlock, hq⟩
    have hlt := (List.getElem?_eq_some_iff.mp hk).1
    exact ⟨k, q, (List.getElem?_append_left hlt).trans hk, hlock, hq⟩
  · rintro ⟨k, q, hk, hlock, hq⟩
    exact ⟨k, q, hold k q hk hq, hlock, hq⟩
  · exact h.exclusive k k' q q' (hold k q hk hq) (hold k' q' hk' hq') hlock hq hq'

theorem Guarded.stay (h : Guarded lockOf inside held procs) {k : Nat} {p p' : P}
    (hk : procs[k]? = some p) (hp : inside p' ↔ inside p) :
    Guarded lockOf inside held (procs.set k p') := by
  have hback : ∀ (j : Nat) (q : P), (procs.set k p')[j]? = some q → inside q →
      ∃ old, procs[j]? = some old ∧ inside old := by
    intro j q hj hq
    rw [getElem?_set_of_some hk] at hj
    split at hj
    · rename_i hsame
      obtain rfl := hsame
      obtain rfl := Option.some.inj hj
      exact ⟨p, hk, hp.mp hq⟩
    · exact ⟨q, hj, hq⟩
  refine ⟨fun lock => (h.held lock).trans ⟨?_, ?_⟩, fun j j' q q' hj hj' hlock hq hq' => ?_⟩
  · rintro ⟨j, q, hj, hlock, hq⟩
    rcases Decidable.em (k = j) with rfl | hne
    · obtain rfl := Option.some.inj (hk.symm.trans hj)
      exact ⟨k, p', by rw [getElem?_set_of_some hk, if_pos rfl], hlock, hp.mpr hq⟩
    · exact ⟨j, q, by rw [getElem?_set_of_some hk, if_neg hne, hj], hlock, hq⟩
  · rintro ⟨j, q, hj, hlock, hq⟩
    rcases hback j q hj hq with ⟨old, hold, hin⟩
    exact ⟨j, old, hold, hlock, hin⟩
  · rcases hback j q hj hq with ⟨old, hold, hin⟩
    rcases hback j' q' hj' hq' with ⟨old', hold', hin'⟩
    exact h.exclusive j j' old old' hold hold' hlock hin hin'

theorem Guarded.enter (h : Guarded lockOf inside held procs) {k : Nat} {p p' : P}
    (hk : procs[k]? = some p) (hfree : held (lockOf k) = false) (hp : inside p') :
    Guarded lockOf inside (Function.update held (lockOf k) true) (procs.set k p') := by
  have houtside : ∀ (j : Nat) (q : P), procs[j]? = some q → lockOf j = lockOf k → ¬ inside q := by
    intro j q hj hlock hq
    have hheld := (h.held (lockOf k)).mpr ⟨j, q, hj, hlock, hq⟩
    rw [hfree] at hheld
    cases hheld
  have hself : (procs.set k p')[k]? = some p' := by rw [getElem?_set_of_some hk, if_pos rfl]
  refine ⟨fun lock => ⟨fun hheld => ?_, ?_⟩, fun j j' q q' hj hj' hlock hq hq' => ?_⟩
  · rcases Decidable.em (lock = lockOf k) with rfl | hne
    · exact ⟨k, p', hself, rfl, hp⟩
    · rw [Function.update_of_ne hne] at hheld
      rcases (h.held lock).mp hheld with ⟨j, q, hj, hlock, hq⟩
      have hjk : k ≠ j := by
        rintro rfl
        exact hne hlock.symm
      exact ⟨j, q, by rw [getElem?_set_of_some hk, if_neg hjk, hj], hlock, hq⟩
  · rintro ⟨j, q, hj, rfl, hq⟩
    rcases Decidable.em (lockOf j = lockOf k) with hsame | hne
    · rw [hsame]
      exact Function.update_self _ _ _
    · rw [Function.update_of_ne hne]
      have hjk : k ≠ j := by
        rintro rfl
        exact hne rfl
      rw [getElem?_set_of_some hk, if_neg hjk] at hj
      exact (h.held _).mpr ⟨j, q, hj, rfl, hq⟩
  · rw [getElem?_set_of_some hk] at hj hj'
    rcases Decidable.em (k = j) with rfl | hjk
    · rcases Decidable.em (k = j') with rfl | hjk'
      · rfl
      · rw [if_neg hjk'] at hj'
        exact absurd hq' (houtside j' q' hj' hlock.symm)
    · rw [if_neg hjk] at hj
      rcases Decidable.em (k = j') with rfl | hjk'
      · exact absurd hq (houtside j q hj hlock)
      · rw [if_neg hjk'] at hj'
        exact h.exclusive j j' q q' hj hj' hlock hq hq'

theorem Guarded.leave (h : Guarded lockOf inside held procs) {k : Nat} {p p' : P}
    (hk : procs[k]? = some p) (hin : inside p) (hp : ¬ inside p') :
    Guarded lockOf inside (Function.update held (lockOf k) false) (procs.set k p') := by
  have hback : ∀ (j : Nat) (q : P), (procs.set k p')[j]? = some q → inside q →
      j ≠ k ∧ procs[j]? = some q := by
    intro j q hj hq
    rw [getElem?_set_of_some hk] at hj
    split at hj
    · obtain rfl := Option.some.inj hj
      exact absurd hq hp
    · rename_i hjk
      exact ⟨Ne.symm hjk, hj⟩
  refine ⟨fun lock => ⟨fun hheld => ?_, ?_⟩, fun j j' q q' hj hj' hlock hq hq' => ?_⟩
  · rcases Decidable.em (lock = lockOf k) with rfl | hne
    · rw [Function.update_self] at hheld
      cases hheld
    · rw [Function.update_of_ne hne] at hheld
      rcases (h.held lock).mp hheld with ⟨j, q, hj, hlock, hq⟩
      have hjk : k ≠ j := by
        rintro rfl
        exact hne hlock.symm
      exact ⟨j, q, by rw [getElem?_set_of_some hk, if_neg hjk, hj], hlock, hq⟩
  · rintro ⟨j, q, hj, rfl, hq⟩
    rcases hback j q hj hq with ⟨hjk, hold⟩
    have hne : lockOf j ≠ lockOf k := fun hlock => hjk (h.exclusive j k q p hold hk hlock hq hin)
    rw [Function.update_of_ne hne]
    exact (h.held _).mpr ⟨j, q, hold, rfl, hq⟩
  · exact h.exclusive j j' q q' (hback j q hj hq).2 (hback j' q' hj' hq').2 hlock hq hq'

end StudyLinuxKernel.Library.Exclusion
