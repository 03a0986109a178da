import StudyLinuxKernel.Library.PartialStep
import Mathlib.Data.List.Count

namespace StudyLinuxKernel.Library.StepBound

open StudyLinuxKernel.Library.PartialStep

variable {σ α ι : Type*} {step : σ → α → Option σ}

theorem countP_le_rank_of_everyStep {Inv : σ → Prop} {C : σ → α → Prop} {rank : σ → Nat}
    {counted : α → Bool}
    (hkeep : ∀ s a s', Inv s → C s a → step s a = some s' → Inv s')
    (hrank : ∀ s a s', Inv s → C s a → step s a = some s' →
      rank s + (if counted a then 1 else 0) ≤ rank s') {as : List α} :
    ∀ {s s' : σ}, Inv s → EveryStep step C s as → run step s as = some s' →
      rank s + as.countP counted ≤ rank s' := by
  induction as with
  | nil =>
      intro s s' _ _ hrun
      obtain rfl : s = s' := Option.some.inj hrun
      exact Nat.le_refl _
  | cons a as ih =>
      intro s s'' hs hcond hrun
      rcases Option.bind_eq_some_iff.mp hrun with ⟨s', hstep, hrest⟩
      obtain ⟨ha, has⟩ := everyStep_cons.mp hcond s' hstep
      have hfirst := hrank s a s' hs ha hstep
      have hbehind := ih (hkeep s a s' hs ha hstep) has hrest
      rw [List.countP_cons]
      omega

/-- The steps that are counted raise the rank. -/
theorem countP_le_rank {Inv : σ → Prop} {rank : σ → Nat} {counted : α → Bool}
    (hkeep : ∀ s a s', Inv s → step s a = some s' → Inv s')
    (hrank : ∀ s a s', Inv s → step s a = some s' →
      rank s + (if counted a then 1 else 0) ≤ rank s') {as : List α} {s s' : σ} (hs : Inv s)
    (hrun : run step s as = some s') : rank s + as.countP counted ≤ rank s' :=
  @countP_le_rank_of_everyStep _ _ step Inv (fun _ _ => True) rank counted
    (fun s a s' h _ hstep => hkeep s a s' h hstep)
    (fun s a s' h _ hstep => hrank s a s' h hstep) as s s' hs
    (everyStep_of_forall (fun _ _ _ => trivial) s) hrun

theorem length_le_mul_of_count_le [DecidableEq ι] {k : Nat} {all : List ι} :
    ∀ {l : List ι}, (∀ x ∈ l, x ∈ all) → (∀ x, l.count x ≤ k) → l.length ≤ k * all.length := by
  induction all with
  | nil =>
      intro l hall _
      rw [List.eq_nil_iff_forall_not_mem.mpr fun x hx => List.not_mem_nil (hall x hx)]
      exact Nat.zero_le _
  | cons first all ih =>
      intro l hall hcount
      have hsplit : l.length = l.count first + (l.filter (· != first)).length := by
        have hother : (fun x => decide ¬(x == first) = true) = (· != first) := by
          funext x
          cases hx : x == first with
          | false => simp [bne, hx]
          | true => simp [bne, hx]
        rw [List.length_eq_countP_add_countP (· == first), hother, List.count,
          @List.countP_eq_length_filter _ (· != first)]
      have hrest := @ih (l.filter (· != first)) (fun x hx => by
        rcases List.mem_filter.mp hx with ⟨hmem, hne⟩
        exact List.mem_of_ne_of_mem (bne_iff_ne.mp hne) (hall x hmem)) (fun x =>
          Nat.le_trans (List.filter_sublist.count_le x) (hcount x))
      have hfirst := hcount first
      rw [hsplit, List.length_cons, Nat.mul_succ]
      omega

end StudyLinuxKernel.Library.StepBound
