import Mathlib.Data.List.Induction
import Mathlib.Order.Basic

/-!
Finite runs of labelled partial transitions.  A step answers `none` when its
label is not available in the state, so that a run is a list of labels each of
which is available where it is taken.  The rules below are stated for the two
ways in which properties of runs are used here: a property of every state that
a run visits, and a condition on every step that a run takes.
-/

namespace StudyLinuxKernel.Library.PartialStep

variable {σ α : Type*}

def run (step : σ → α → Option σ) : σ → List α → Option σ
  | s, [] => some s
  | s, a :: as => (step s a).bind fun s' => run step s' as

/-- Every state that the run visits satisfies `P`. -/
def EveryState (step : σ → α → Option σ) (P : σ → Prop) (s : σ) (as : List α) : Prop :=
  ∀ visited, visited <+: as → ∀ s', run step s visited = some s' → P s'

/-- Every step that the run takes meets `C`, a condition on the state before
the step and on its label. -/
def EveryStep (step : σ → α → Option σ) (C : σ → α → Prop) (s : σ) (as : List α) : Prop :=
  ∀ visited a, visited ++ [a] <+: as → ∀ s' s'', run step s visited = some s' →
    step s' a = some s'' → C s' a

variable {step : σ → α → Option σ}

@[simp] theorem run_nil (s : σ) : run step s [] = some s := rfl

@[simp] theorem run_cons (s : σ) (a : α) (as : List α) :
    run step s (a :: as) = (step s a).bind fun s' => run step s' as := rfl

theorem run_append (s : σ) (as bs : List α) :
    run step s (as ++ bs) = (run step s as).bind fun s' => run step s' bs := by
  induction as generalizing s with
  | nil => rfl
  | cons a as ih =>
      cases hstep : step s a with
      | none => simp [hstep]
      | some s' => simpa [hstep] using ih s'

theorem run_concat_eq_some {s s'' : σ} {as : List α} {a : α} :
    run step s (as ++ [a]) = some s'' ↔
      ∃ s', run step s as = some s' ∧ step s' a = some s'' := by
  simp [run_append, Option.bind_eq_some_iff]

theorem EveryState.reached {P : σ → Prop} {s s' : σ} {as : List α}
    (h : EveryState step P s as) (hrun : run step s as = some s') : P s' :=
  h as (List.prefix_refl as) s' hrun

theorem EveryStep.of_prefix {C : σ → α → Prop} {s : σ} {as bs : List α}
    (h : EveryStep step C s bs) (hpre : as <+: bs) : EveryStep step C s as :=
  fun visited a hvisited => h visited a (hvisited.trans hpre)

theorem EveryStep.behind {C : σ → α → Prop} {s s' : σ} {as bs : List α}
    (h : EveryStep step C s (as ++ bs)) (hrun : run step s as = some s') :
    EveryStep step C s' bs := by
  intro visited a hpre t t' hvisited hstep
  refine h (as ++ visited) a ?_ t t' ?_ hstep
  · rw [List.append_assoc]
    exact List.prefix_append_right_inj as |>.mpr hpre
  · rw [run_append, hrun]
    exact hvisited

@[simp] theorem everyStep_nil (C : σ → α → Prop) (s : σ) : EveryStep step C s [] := by
  intro visited a hpre
  simp at hpre

@[simp] theorem everyStep_cons {C : σ → α → Prop} {s : σ} {a : α} {as : List α} :
    EveryStep step C s (a :: as) ↔
      ∀ s', step s a = some s' → C s a ∧ EveryStep step C s' as := by
  constructor
  · intro h s' hstep
    refine ⟨h [] a (List.prefix_append [a] as) s s' rfl hstep, ?_⟩
    intro visited b hpre t t' hrun hstep'
    refine h (a :: visited) b (List.cons_prefix_cons.mpr ⟨rfl, hpre⟩) t t' ?_ hstep'
    rw [run_cons, hstep]
    exact hrun
  · intro h visited b hpre t t' hrun hstep'
    cases visited with
    | nil =>
        obtain ⟨rfl, _⟩ := List.cons_prefix_cons.mp hpre
        obtain rfl := Option.some.inj hrun
        exact (h t' hstep').1
    | cons first visited =>
        obtain ⟨rfl, hrest⟩ := List.cons_prefix_cons.mp hpre
        obtain ⟨s', hstep, hvisited⟩ := Option.bind_eq_some_iff.mp hrun
        exact (h s' hstep).2 visited b hrest t t' hvisited hstep'

theorem EveryStep.cons {C : σ → α → Prop} {s s' : σ} {a : α} {as : List α}
    (hstep : step s a = some s') (ha : C s a) (has : EveryStep step C s' as) :
    EveryStep step C s (a :: as) := by
  rw [everyStep_cons]
  intro t ht
  obtain rfl := Option.some.inj (hstep.symm.trans ht)
  exact ⟨ha, has⟩

theorem everyStep_of_forall {C : σ → α → Prop} {as : List α} (h : ∀ a ∈ as, ∀ s, C s a) (s : σ) :
    EveryStep step C s as := by
  intro visited a hpre s' s'' _ _
  exact h a (hpre.subset (List.mem_append_right visited (List.mem_singleton_self a))) s'

theorem everyStep_of_end {P : σ → Prop} (hback : ∀ s a s', step s a = some s' → P s' → P s)
    {as : List α} : ∀ {s s' : σ}, run step s as = some s' → P s' →
      P s ∧ EveryStep step (fun s _ => P s) s as := by
  induction as with
  | nil =>
      intro s s' hrun hend
      obtain rfl : s = s' := Option.some.inj hrun
      exact ⟨hend, everyStep_nil _ s⟩
  | cons a as ih =>
      intro s s'' hrun hend
      obtain ⟨s', hstep, hrest⟩ := Option.bind_eq_some_iff.mp hrun
      obtain ⟨hnext, hbehind⟩ := ih hrest hend
      have hfirst := hback s a s' hstep hnext
      exact ⟨hfirst, hbehind.cons hstep hfirst⟩

theorem everyStep_append {C : σ → α → Prop} {s : σ} {as bs : List α}
    (h : EveryStep step C s as) (hbehind : ∀ s', run step s as = some s' → EveryStep step C s' bs) :
    EveryStep step C s (as ++ bs) := by
  induction as generalizing s with
  | nil => exact hbehind s rfl
  | cons a as ih =>
      rw [List.cons_append, everyStep_cons]
      intro s' hstep
      obtain ⟨hfirst, hrest⟩ := everyStep_cons.mp h s' hstep
      refine ⟨hfirst, ih hrest fun t hrun => hbehind t ?_⟩
      rw [run_cons, hstep]
      exact hrun

/-- The invariant rule, with a condition under which steps keep the invariant. -/
theorem invariant_of_everyStep {Inv : σ → Prop} {C : σ → α → Prop} {s : σ} {as : List α}
    (hinit : Inv s)
    (hkeep : ∀ s a s', Inv s → C s a → step s a = some s' → Inv s')
    (hcond : EveryStep step C s as) : EveryState step Inv s as := by
  intro visited
  induction visited using List.reverseRecOn with
  | nil =>
      intro _ s' hrun
      obtain rfl : s = s' := by simpa using hrun
      exact hinit
  | append_singleton visited a ih =>
      intro hpre s'' hrun
      obtain ⟨s', hvisited, hstep⟩ := run_concat_eq_some.mp hrun
      have hshorter : visited <+: as := (List.prefix_append visited [a]).trans hpre
      exact hkeep s' a s'' (ih hshorter s' hvisited)
        (hcond visited a hpre s' s'' hvisited hstep) hstep

theorem invariant {Inv : σ → Prop} {s : σ} (hinit : Inv s)
    (hkeep : ∀ s a s', Inv s → step s a = some s' → Inv s') (as : List α) :
    EveryState step Inv s as :=
  @invariant_of_everyStep _ _ _ _ (fun _ _ => True) _ _ hinit
    (fun s a s' hs _ hstep => hkeep s a s' hs hstep) (fun _ _ _ _ _ _ _ => trivial)

theorem exists_run_of_everyStep {Inv : σ → Prop} {C : σ → α → Prop}
    (havailable : ∀ s a, Inv s → ∃ s', step s a = some s')
    (hkeep : ∀ s a s', Inv s → C s a → step s a = some s' → Inv s') (as : List α) :
    ∀ s, Inv s → EveryStep step C s as → ∃ s', run step s as = some s' := by
  induction as with
  | nil =>
      intro s _ _
      exact ⟨s, rfl⟩
  | cons a as ih =>
      intro s hs hcond
      obtain ⟨s', hstep⟩ := havailable s a hs
      obtain ⟨ha, has⟩ := everyStep_cons.mp hcond s' hstep
      rw [run_cons, hstep]
      exact ih s' (hkeep s a s' hs ha hstep) has

theorem exists_run {Inv : σ → Prop} (hstep : ∀ s a, Inv s → ∃ s', step s a = some s' ∧ Inv s')
    (as : List α) (s : σ) (hs : Inv s) : ∃ s', run step s as = some s' := by
  refine @exists_run_of_everyStep _ _ step Inv (fun _ _ => True) ?_ ?_ as s hs ?_
  · intro s a hs
    obtain ⟨s', hs', _⟩ := hstep s a hs
    exact ⟨s', hs'⟩
  · intro s a s' hs _ hs'
    obtain ⟨s'', hs'', hInv⟩ := hstep s a hs
    obtain rfl := Option.some.inj (hs'.symm.trans hs'')
    exact hInv
  · intro visited a _ s' s'' _ _
    trivial

/-- The exact form of the conditional rule.  `Inv` strengthens the property
`P`; a step from a state with `Inv` keeps `Inv` when it meets the condition,
and leaves `P` only when it does not. -/
theorem everyState_iff_everyStep {Inv P : σ → Prop} {C : σ → α → Prop} {s : σ}
    (hinit : Inv s) (hproperty : ∀ s, Inv s → P s)
    (hkeep : ∀ s a s', Inv s → C s a → step s a = some s' → Inv s')
    (hneeded : ∀ s a s', Inv s → step s a = some s' → P s' → C s a) (as : List α) :
    EveryState step P s as ↔ EveryStep step C s as := by
  constructor
  · intro hP
    have hprees : ∀ visited, visited <+: as → EveryStep step C s visited := by
      intro visited
      induction visited using List.reverseRecOn with
      | nil =>
          intro _ visited a hpre
          simp at hpre
      | append_singleton visited a ih =>
          intro hpre earlier b hearlier s' s'' hrun hstep
          have hshorter : visited <+: as := (List.prefix_append visited [a]).trans hpre
          have hInv : EveryState step Inv s visited :=
            invariant_of_everyStep hinit hkeep (ih hshorter)
          rcases List.prefix_concat_iff.mp hearlier with hlast | hinside
          · obtain ⟨rfl, hba⟩ := List.append_inj' hlast rfl
            obtain rfl : b = a := by simpa using hba
            have hreach : run step s (earlier ++ [b]) = some s'' :=
              run_concat_eq_some.mpr ⟨s', hrun, hstep⟩
            exact hneeded s' b s'' (hInv.reached hrun) hstep
              (hP _ hpre s'' hreach)
          · exact ih hshorter earlier b hinside s' s'' hrun hstep
    exact hprees as (List.prefix_refl as)
  · intro hC visited hpre s' hrun
    exact hproperty s' (invariant_of_everyStep hinit hkeep hC visited hpre s' hrun)

end StudyLinuxKernel.Library.PartialStep
