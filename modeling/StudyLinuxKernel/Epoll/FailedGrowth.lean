import StudyLinuxKernel.Epoll.ReadyList
import StudyLinuxKernel.Library.PartialStep

namespace StudyLinuxKernel.Epoll.FailedGrowth

open StudyLinuxKernel.Epoll.ReadyList
open StudyLinuxKernel.Library.PartialStep

/-- A call, with what `malloc` answers if the call allocates. -/
inductive Call where
  | add (fd : EpollEvent) (malloc : Malloc)
  | remove (fd : EpollEvent) (malloc : Malloc)

/-- What a call returns and leaves behind; there is no result where it leaves a
block of memory. -/
def perform (s : ReadyIoFds) : Call → Option (Int × ReadyIoFds)
  | .add fd malloc => addFdToList s fd malloc
  | .remove fd malloc => removeFileDescriptor s fd malloc

def callStep (s : ReadyIoFds) (call : Call) : Option ReadyIoFds :=
  (perform s call).map Prod.snd

/-- A call that reports a failure has not changed the list. -/
def FailureLeavesIntact (s : ReadyIoFds) (call : Call) : Prop :=
  ∀ after, perform s call = some (-1, after) →
    after.size = s.size ∧ after.capacity = s.capacity ∧ after.epEvents = s.epEvents

/-- The calls go through, which puts every store inside its block, the list
fits its block all along, and the calls that fail leave it as it was. -/
structure LeftIntact (calls : List Call) : Prop where
  runs : ∃ s', run callStep .zeroed calls = some s'
  fits : EveryState callStep ReadyIoFds.Fits .zeroed calls
  failures : EveryStep callStep FailureLeavesIntact .zeroed calls

/-- No insertion that has to grow the block is answered NULL. -/
def GrowthServed (s : ReadyIoFds) : Call → Prop
  | .add fd malloc => fd.fd ∉ s.listed.map EpollEvent.fd → s.capacity ≤ s.size → malloc ≠ none
  | .remove _ _ => True

theorem addFdToList_of_no_growth {s : ReadyIoFds} (h : s.Fits) {fd : EpollEvent}
    (hroom : fd.fd ∈ s.listed.map EpollEvent.fd ∨ s.size < s.capacity)
    (malloc malloc' : Malloc) : addFdToList s fd malloc = addFdToList s fd malloc' := by
  rw [addFdToList, addFdToList, fdExistList_eq h]
  simp only [Option.bind_eq_bind, Option.bind_some, decide_eq_true_eq]
  rcases hroom with hmem | hroom
  · rw [if_pos hmem, if_pos hmem]
  · rw [growList, growList, if_neg (Nat.not_le.mpr hroom), if_neg (Nat.not_le.mpr hroom)]

/-- The capacity is already doubled where the growth fails. -/
theorem addFdToList_null {s : ReadyIoFds} (h : s.Fits) {fd : EpollEvent}
    (hnew : fd.fd ∉ s.listed.map EpollEvent.fd) (hfull : s.capacity ≤ s.size) :
    ∃ capacity, capacity ≠ s.capacity ∧
      addFdToList s fd none = some (-1, { s with capacity := capacity }) := by
  refine ⟨(if s.capacity = 0 ∧ s.size = 0 then 1 else s.capacity) * 2, ?_, ?_⟩
  · have hsize := h.size_le
    split <;> omega
  · rw [addFdToList, fdExistList_eq h]
    simp [hnew, growList, hfull]

theorem addFdToList_served {s : ReadyIoFds} (h : s.Fits) {fd : EpollEvent} {malloc : Malloc}
    (hserved : GrowthServed s (.add fd malloc)) :
    ∃ junk, addFdToList s fd malloc = addFdToList s fd (some junk) := by
  rcases malloc with _ | junk
  · refine ⟨fun _ => ⟨0, 0⟩, addFdToList_of_no_growth h ?_ none _⟩
    by_contra hgrows
    rw [not_or, Nat.not_lt] at hgrows
    exact hserved hgrows.1 hgrows.2 rfl
  · exact ⟨junk, rfl⟩

theorem removeFileDescriptor_spec {s : ReadyIoFds} (h : s.Fits) (fd : EpollEvent)
    (malloc : Malloc) :
    ∃ ret after, removeFileDescriptor s fd malloc = some (ret, after) ∧ after.Fits ∧
      (ret = -1 → after = s) := by
  rcases Decidable.em (fd.fd ∈ s.listed.map EpollEvent.fd) with hmem | hnew
  · rcases malloc with _ | junk
    · refine ⟨-1, s, ?_, h, fun _ => rfl⟩
      rw [removeFileDescriptor, fdExistList_eq h]
      simp [hmem]
    · obtain ⟨after, hremove, hfits, _⟩ := removeFileDescriptor_of_mem h junk hmem
      exact ⟨0, after, hremove, hfits, by simp⟩
  · exact ⟨1, s, removeFileDescriptor_of_not_mem h malloc hnew, h, by simp⟩

theorem perform_of_served {s : ReadyIoFds} (h : s.Fits) {call : Call}
    (hserved : GrowthServed s call) :
    ∃ ret after, perform s call = some (ret, after) ∧ after.Fits ∧ (ret = -1 → after = s) := by
  rcases call with ⟨fd, malloc⟩ | ⟨fd, malloc⟩
  · obtain ⟨junk, hadd⟩ := addFdToList_served h hserved
    obtain ⟨ret, after, hresult, hret, hfits, _⟩ := addFdToList_spec h fd junk
    refine ⟨ret, after, hadd.trans hresult, hfits, fun hfailed => ?_⟩
    omega
  · exact removeFileDescriptor_spec h fd malloc

theorem fits_callStep {s s' : ReadyIoFds} {call : Call} (h : s.Fits)
    (hserved : GrowthServed s call) (hstep : callStep s call = some s') : s'.Fits := by
  obtain ⟨ret, after, hperform, hfits, _⟩ := perform_of_served h hserved
  rw [callStep, hperform] at hstep
  obtain rfl := Option.some.inj hstep
  exact hfits

theorem served_of_fits {s s' : ReadyIoFds} {call : Call} (h : s.Fits)
    (hstep : callStep s call = some s') (hfits : s'.Fits) : GrowthServed s call := by
  rcases call with ⟨fd, malloc⟩ | ⟨fd, malloc⟩
  · rintro hnew hfull rfl
    obtain ⟨capacity, hchanged, hnull⟩ := addFdToList_null h hnew hfull
    rw [callStep, perform, hnull] at hstep
    obtain rfl := Option.some.inj hstep
    exact hchanged (hfits.slots.symm.trans h.slots)
  · trivial

theorem fits_iff_served (calls : List Call) :
    EveryState callStep ReadyIoFds.Fits .zeroed calls ↔
      EveryStep callStep GrowthServed .zeroed calls :=
  everyState_iff_everyStep ReadyIoFds.fits_zeroed (fun _ h => h)
    (fun _ _ _ h hserved hstep => fits_callStep h hserved hstep)
    (fun _ _ _ h hstep hfits => served_of_fits h hstep hfits) calls

/-- A call on a list that fits its block always has a result; the failed growth
does its damage only to the next one. -/
theorem callStep_of_fits {s : ReadyIoFds} (call : Call) (h : s.Fits) :
    ∃ s', callStep s call = some s' := by
  by_cases hserved : GrowthServed s call
  · obtain ⟨ret, after, hperform, _⟩ := perform_of_served h hserved
    exact ⟨after, by rw [callStep, hperform]; rfl⟩
  · rcases call with ⟨fd, malloc⟩ | ⟨fd, malloc⟩
    · simp only [GrowthServed, Classical.not_imp, not_not] at hserved
      obtain ⟨hnew, hfull, rfl⟩ := hserved
      obtain ⟨capacity, _, hnull⟩ := addFdToList_null h hnew hfull
      exact ⟨{ s with capacity := capacity }, by rw [callStep, perform, hnull]; rfl⟩
    · exact absurd trivial hserved

theorem failureLeavesIntact_of_served {s : ReadyIoFds} (h : s.Fits) {call : Call}
    (hserved : GrowthServed s call) : FailureLeavesIntact s call := by
  intro after hfailed
  obtain ⟨ret, after', hperform, _, hkept⟩ := perform_of_served h hserved
  rw [hperform] at hfailed
  obtain ⟨rfl, rfl⟩ := Prod.mk.inj (Option.some.inj hfailed)
  rw [hkept rfl]
  exact ⟨rfl, rfl, rfl⟩

/-- The list is left intact by every failure exactly if no growth fails. -/
theorem leftIntact_iff (calls : List Call) :
    LeftIntact calls ↔ EveryStep callStep GrowthServed .zeroed calls := by
  constructor
  · intro h
    exact (fits_iff_served calls).mp h.fits
  · intro h
    have hfits := (fits_iff_served calls).mpr h
    refine ⟨?_, hfits, ?_⟩
    · refine exists_run_of_everyStep ?_ ?_ calls ReadyIoFds.zeroed ReadyIoFds.fits_zeroed h
      · intro s call hs
        exact callStep_of_fits call hs
      · intro s call s' hs hserved hstep
        exact fits_callStep hs hserved hstep
    · intro visited call hpre s s' hrun hstep
      have hvisited : visited <+: calls := (List.prefix_append visited [call]).trans hpre
      exact failureLeavesIntact_of_served (hfits visited hvisited s hrun)
        (h visited call hpre s s' hrun hstep)

/-- The first insertion is answered NULL, and the second one stores into a
block that was never allocated. -/
theorem second_insertion_outside :
    ¬ LeftIntact [.add ⟨1, 3⟩ none, .add ⟨1, 3⟩ none] := by
  rintro ⟨⟨s', hrun⟩, _, _⟩
  simp [run, callStep, perform, addFdToList, fdExistList, fdExistLoop, growList, store,
    ReadyIoFds.zeroed] at hrun

end StudyLinuxKernel.Epoll.FailedGrowth
