import StudyLinuxKernel.Library.PartialStep

/-!
Computations that check their memory accesses.  They stop where an access has no
result, which is a fault, or where a failed call makes the process exit; a fault
is what a safe computation excludes.
-/

namespace StudyLinuxKernel.Library.CheckedRun

open StudyLinuxKernel.Library.PartialStep

/-- Why a computation stops. -/
inductive Stop where
  | fault
  | exited
  deriving DecidableEq, Repr

abbrev Checked (α : Type) := Except Stop α

variable {α β σ : Type}

/-- An access faults where it has no result. -/
def access : Option α → Checked α
  | some a => .ok a
  | none => .error .fault

/-- A call whose failure makes the process exit. -/
def succeeds (result : Bool) : Checked Unit := if result then .ok () else .error .exited

@[simp] theorem access_some (a : α) : access (some a) = .ok a := rfl

@[simp] theorem access_none : access (none : Option α) = .error .fault := rfl

@[simp] theorem ok_bind (a : α) (f : α → Checked β) :
    ((.ok a : Checked α) >>= f) = f a := rfl

@[simp] theorem error_bind (stop : Stop) (f : α → Checked β) :
    ((.error stop : Checked α) >>= f) = .error stop := rfl

theorem bind_eq_ok {c : Checked α} {f : α → Checked β} {b : β} (h : (c >>= f) = .ok b) :
    ∃ a, c = .ok a ∧ f a = .ok b := by
  rcases c with stop | a
  · cases h
  · exact ⟨a, rfl, h⟩

/-- The computation does not fault, and what it computes meets `Q`. -/
inductive Safe : Checked α → (α → Prop) → Prop where
  | ok {a : α} {Q : α → Prop} (h : Q a) : Safe (.ok a) Q
  | exited {Q : α → Prop} : Safe (.error .exited) Q

theorem Safe.bind {c : Checked α} {f : α → Checked β} {Q : α → Prop} {R : β → Prop}
    (hc : Safe c Q) (hf : ∀ a, Q a → Safe (f a) R) : Safe (c >>= f) R := by
  cases hc with
  | ok h => exact hf _ h
  | exited => exact Safe.exited

theorem Safe.mono {c : Checked α} {Q R : α → Prop} (hc : Safe c Q) (h : ∀ a, Q a → R a) :
    Safe c R := by
  cases hc with
  | ok ha => exact Safe.ok (h _ ha)
  | exited => exact Safe.exited

theorem Safe.not_fault {c : Checked α} {Q : α → Prop} (hc : Safe c Q) :
    c ≠ .error .fault := by
  rintro rfl
  cases hc

theorem Safe.of_ok {a : α} {Q : α → Prop} (h : Safe (.ok a) Q) : Q a := by
  cases h with
  | ok h => exact h

theorem Safe.bind_ok {c : Checked α} {a : α} {f : α → Checked β} {R : β → Prop}
    (hc : c = .ok a) (hf : Safe (f a) R) : Safe (c >>= f) R := by
  rw [hc]
  exact hf

theorem Safe.bind_access {result : Option α} {a : α} {f : α → Checked β} {R : β → Prop}
    (hresult : result = some a) (hf : Safe (f a) R) : Safe (access result >>= f) R := by
  rw [hresult]
  exact hf

theorem safe_succeeds (result : Bool) : Safe (succeeds result) fun _ => result = true := by
  rcases result with _ | _
  · exact Safe.exited
  · exact Safe.ok rfl

/-- No call of the computation fails. -/
def Persists (c : Checked α) : Prop := c ≠ .error .exited

theorem Persists.bind {c : Checked α} {f : α → Checked β} (hc : Persists c)
    (hf : ∀ a, Persists (f a)) : Persists (c >>= f) := by
  rcases c with (_ | _) | a
  · exact fun h => by cases h
  · exact absurd rfl hc
  · exact hf a

theorem persists_ok (a : α) : Persists (.ok a) := fun h => by cases h

theorem persists_access (result : Option α) : Persists (access result) := by
  rcases result with _ | a
  · exact fun h => by cases h
  · exact persists_ok a

theorem persists_succeeds {result : Bool} (h : result = true) : Persists (succeeds result) := by
  rw [h]
  exact persists_ok ()

theorem Safe.result {c : Checked α} {Q : α → Prop} (hc : Safe c Q) (h : Persists c) :
    ∃ a, c = .ok a ∧ Q a := by
  cases hc with
  | ok ha => exact ⟨_, rfl, ha⟩
  | exited => exact absurd rfl h

/-- A process that takes steps until it stops. -/
inductive Process (σ : Type) where
  | running (s : σ)
  | exited
  | faulted

def Process.NotFaulted : Process σ → Prop
  | .faulted => False
  | _ => True

/-- A step of a process; nothing happens after it has stopped. -/
def processStep (f : σ → α → Checked σ) : Process σ → α → Option (Process σ)
  | .running s, a =>
      match f s a with
      | .ok s' => some (.running s')
      | .error .exited => some .exited
      | .error .fault => some .faulted
  | stopped, _ => some stopped

/-- A condition on the steps before the process stops. -/
def WhileRunning (C : σ → α → Prop) : Process σ → α → Prop
  | .running s, a => C s a
  | _, _ => True

def Process.Holds (Inv : σ → Prop) : Process σ → Prop
  | .running s => Inv s
  | .exited => True
  | .faulted => False

theorem processStep_of_fault {f : σ → α → Checked σ} {s : σ} {a : α}
    (h : f s a = .error .fault) : processStep f (.running s) a = some .faulted := by
  rw [processStep, h]

theorem exists_run_processStep (f : σ → α → Checked σ) (as : List α) (p : Process σ) :
    ∃ p', run (processStep f) p as = some p' := by
  refine @exists_run _ _ (processStep f) (fun _ => True) (fun p a _ => ?_) as p trivial
  rcases p with s | _ | _
  · rw [processStep]
    rcases f s a with (_ | _) | s'
    · exact ⟨_, rfl, trivial⟩
    · exact ⟨_, rfl, trivial⟩
    · exact ⟨_, rfl, trivial⟩
  · exact ⟨_, rfl, trivial⟩
  · exact ⟨_, rfl, trivial⟩

theorem run_of_stopped {f : σ → α → Checked σ} {p : Process σ} (hp : ∀ s, p ≠ .running s)
    (as : List α) : run (processStep f) p as = some p := by
  induction as with
  | nil => rfl
  | cons a as ih =>
      rw [run_cons]
      rcases p with s | _ | _
      · exact absurd rfl (hp s)
      · exact ih
      · exact ih

theorem run_cons_running {f : σ → α → Checked σ} {s s' : σ} {a : α} {as : List α}
    (h : run (processStep f) (.running s) (a :: as) = some (.running s')) :
    ∃ t, f s a = .ok t ∧ run (processStep f) (.running t) as = some (.running s') := by
  rw [run_cons, processStep] at h
  rcases hf : f s a with (_ | _) | t
  · rw [hf, Option.bind_some, run_of_stopped (fun _ hrunning => by cases hrunning)] at h
    cases h
  · rw [hf, Option.bind_some, run_of_stopped (fun _ hrunning => by cases hrunning)] at h
    cases h
  · rw [hf] at h
    exact ⟨t, rfl, h⟩

/-- The exact rule for runs without a fault: the condition makes every step safe,
and no step avoids a fault without it. -/
theorem notFaulted_iff {f : σ → α → Checked σ} {Inv : σ → Prop} {C : σ → α → Prop}
    (hsafe : ∀ s a, Inv s → C s a → Safe (f s a) Inv)
    (hneeded : ∀ s a, Inv s → f s a ≠ .error .fault → C s a) {s : σ} (hs : Inv s)
    (as : List α) :
    EveryState (processStep f) Process.NotFaulted (.running s) as ↔
      EveryStep (processStep f) (WhileRunning C) (.running s) as := by
  have hinit : Process.Holds Inv (.running s) := hs
  refine everyState_iff_everyStep hinit ?_ ?_ ?_ as
  · rintro (_ | _ | _) hp
    · exact trivial
    · exact trivial
    · exact hp.elim
  · rintro (s | _ | _) a p' hp hC hstep
    · have h := hsafe s a hp hC
      rw [processStep] at hstep
      rcases hf : f s a with (_ | _) | s'
      · exact absurd hf h.not_fault
      · rw [hf] at hstep
        obtain rfl := Option.some.inj hstep
        exact trivial
      · rw [hf] at hstep h
        have hs' := h.of_ok
        obtain rfl := Option.some.inj hstep
        exact hs'
    · obtain rfl := Option.some.inj hstep
      exact trivial
    · exact hp.elim
  · rintro (s | _ | _) a p' hp hstep hp'
    · refine hneeded s a hp fun hfault => ?_
      rw [processStep, hfault] at hstep
      obtain rfl := Option.some.inj hstep
      exact hp'
    · exact trivial
    · exact trivial

end StudyLinuxKernel.Library.CheckedRun
