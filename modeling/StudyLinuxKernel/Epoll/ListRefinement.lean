import StudyLinuxKernel.Epoll.ReadyList
import StudyLinuxKernel.Library.PartialStep

namespace StudyLinuxKernel.Epoll.ListRefinement

open StudyLinuxKernel.Epoll.ReadyList
open StudyLinuxKernel.Library.OrderedSet
open StudyLinuxKernel.Library.PartialStep

/-- A call, with the old contents of the block it allocates. -/
inductive ListCall where
  | add (fd : EpollEvent) (junk : Nat → EpollEvent)
  | remove (fd : EpollEvent) (junk : Nat → EpollEvent)

/-- The list of the program next to the set it stands for. -/
structure Tracked where
  readyFds : ReadyIoFds
  events : List EpollEvent

def Tracked.start : Tracked := { readyFds := .zeroed, events := [] }

def listStep (s : Tracked) : ListCall → Option Tracked
  | .add fd junk => do
      let (_, readyFds) ← addFdToList s.readyFds fd (some junk)
      some { readyFds := readyFds, events := insertLast EpollEvent.fd fd s.events }
  | .remove fd junk => do
      let (_, readyFds) ← removeFileDescriptor s.readyFds fd (some junk)
      some { readyFds := readyFds, events := eraseKey EpollEvent.fd fd.fd s.events }

structure Tracked.Refines (s : Tracked) : Prop where
  listed : s.readyFds.listed = s.events
  distinct : (s.readyFds.listed.map EpollEvent.fd).Nodup

/-- A removed event is the last of the list, or the last but one with a copy of
the last one already in the slot of the new block that is not written. -/
def LeavesNoHole (s : Tracked) : ListCall → Prop
  | .add _ _ => True
  | .remove fd junk => ∀ front e rest, s.readyFds.listed = front ++ e :: rest →
      e.fd = fd.fd → rest = [] ∨ rest = [junk front.length]

def Tracked.Invariant (s : Tracked) : Prop := s.readyFds.Fits ∧ s.Refines

theorem mapIdx_of_not_mem {fd : Int32} (junk : Nat → EpollEvent) {events : List EpollEvent}
    (h : fd ∉ events.map EpollEvent.fd) :
    (events.mapIdx fun i e => if e.fd = fd then junk i else e) = events := by
  apply List.ext_getElem (by simp)
  intro i hi hi'
  rw [List.getElem_mapIdx, if_neg]
  intro hfd
  exact h (List.mem_map.mpr ⟨_, List.getElem_mem hi', hfd⟩)

theorem cutOut_append_cons {front rest : List EpollEvent} {e : EpollEvent}
    (hdistinct : ((front ++ e :: rest).map EpollEvent.fd).Nodup) (junk : Nat → EpollEvent) :
    cutOut e.fd junk (front ++ e :: rest) = front ++ (junk front.length :: rest).dropLast := by
  rw [List.map_append, List.map_cons, List.nodup_append, List.nodup_cons] at hdistinct
  obtain ⟨_, ⟨hrest, _⟩, hapart⟩ := hdistinct
  have hfront : e.fd ∉ front.map EpollEvent.fd := fun hmem =>
    hapart e.fd hmem e.fd List.mem_cons_self rfl
  rw [cutOut, List.mapIdx_append, mapIdx_of_not_mem junk hfront, List.mapIdx_cons, if_pos rfl,
    List.dropLast_append_cons, Nat.zero_add]
  congr 3
  have hshift := mapIdx_of_not_mem (fun i => junk (i + 1 + front.length)) hrest
  exact hshift

/-- The hole and the cut are an erasure exactly where nothing follows, or only
one event which the hole already holds. -/
theorem cutOut_eq_eraseKey_iff {front rest : List EpollEvent} {e : EpollEvent}
    (hdistinct : ((front ++ e :: rest).map EpollEvent.fd).Nodup) (junk : Nat → EpollEvent) :
    cutOut e.fd junk (front ++ e :: rest) = eraseKey EpollEvent.fd e.fd (front ++ e :: rest) ↔
      rest = [] ∨ rest = [junk front.length] := by
  rw [cutOut_append_cons hdistinct, eraseKey_append_cons hdistinct, List.append_cancel_left_eq]
  cases rest with
  | nil => simp
  | cons next rest =>
      cases rest with
      | nil => simp [eq_comm]
      | cons second rest =>
          have hne : next ≠ second := by
            rintro rfl
            simp [List.nodup_append] at hdistinct
          constructor
          · intro h
            rw [List.dropLast_cons_cons, List.dropLast_cons_cons] at h
            injection h with _ h
            injection h with h _
            exact absurd h hne
          · intro h
            simp at h

theorem invariant_start : Tracked.start.Invariant :=
  ⟨ReadyIoFds.fits_zeroed, rfl, List.nodup_nil⟩

theorem listStep_add {s : Tracked} (h : s.readyFds.Fits) (fd : EpollEvent)
    (junk : Nat → EpollEvent) :
    ∃ after, listStep s (.add fd junk) =
        some { readyFds := after, events := insertLast EpollEvent.fd fd s.events } ∧
      after.Fits ∧ after.listed = insertLast EpollEvent.fd fd s.readyFds.listed := by
  obtain ⟨ret, after, hadd, _, hfits, _, hlisted⟩ := addFdToList_spec h fd junk
  refine ⟨after, ?_, hfits, hlisted⟩
  rw [listStep, hadd]
  rfl

theorem listStep_remove {s : Tracked} (h : s.readyFds.Fits) (fd : EpollEvent)
    (junk : Nat → EpollEvent) :
    ∃ after, listStep s (.remove fd junk) =
        some { readyFds := after, events := eraseKey EpollEvent.fd fd.fd s.events } ∧
      after.Fits ∧
      after.listed = if fd.fd ∈ s.readyFds.listed.map EpollEvent.fd then
        cutOut fd.fd junk s.readyFds.listed else s.readyFds.listed := by
  rcases Decidable.em (fd.fd ∈ s.readyFds.listed.map EpollEvent.fd) with hmem | hnew
  · obtain ⟨after, hremove, hfits, _, _, hlisted⟩ := removeFileDescriptor_of_mem h junk hmem
    refine ⟨after, ?_, hfits, by rw [if_pos hmem, hlisted]⟩
    rw [listStep, hremove]
    rfl
  · refine ⟨s.readyFds, ?_, h, by rw [if_neg hnew]⟩
    rw [listStep, removeFileDescriptor_of_not_mem h (some junk) hnew]
    rfl

theorem listed_of_remove {s : Tracked} (hs : s.Invariant) (fd : EpollEvent)
    (junk : Nat → EpollEvent) :
    (if fd.fd ∈ s.readyFds.listed.map EpollEvent.fd then cutOut fd.fd junk s.readyFds.listed
      else s.readyFds.listed) = eraseKey EpollEvent.fd fd.fd s.events ↔
      LeavesNoHole s (.remove fd junk) := by
  obtain ⟨_, hlisted, hdistinct⟩ := hs
  rw [← hlisted]
  split
  · rename_i hmem
    constructor
    · intro h front e rest hsplit hfd
      rw [hsplit] at hdistinct h
      rw [← hfd] at h
      exact (cutOut_eq_eraseKey_iff hdistinct junk).mp h
    · intro h
      obtain ⟨e, he, hfd⟩ := List.mem_map.mp hmem
      obtain ⟨front, rest, hsplit⟩ := List.append_of_mem he
      have hrest := h front e rest hsplit hfd
      rw [hsplit] at hdistinct ⊢
      rw [← hfd]
      exact (cutOut_eq_eraseKey_iff hdistinct junk).mpr hrest
  · rename_i hnew
    rw [eraseKey_of_not_mem hnew]
    apply iff_of_true rfl
    intro front e rest hsplit hfd
    exact absurd (List.mem_map.mpr ⟨e, by simp [hsplit], hfd⟩) hnew

theorem invariant_listStep {s s' : Tracked} {call : ListCall} (hs : s.Invariant)
    (hcall : LeavesNoHole s call) (hstep : listStep s call = some s') : s'.Invariant := by
  cases call with
  | add fd junk =>
      obtain ⟨after, hadd, hfits, hlisted⟩ := listStep_add hs.1 fd junk
      obtain rfl := Option.some.inj (hadd.symm.trans hstep)
      refine ⟨hfits, hlisted.trans (by rw [hs.2.listed]), ?_⟩
      rw [hlisted]
      exact nodup_insertLast hs.2.distinct fd
  | remove fd junk =>
      obtain ⟨after, hremove, hfits, hlisted⟩ := listStep_remove hs.1 fd junk
      obtain rfl := Option.some.inj (hremove.symm.trans hstep)
      have herase := hlisted.trans ((listed_of_remove hs fd junk).mpr hcall)
      refine ⟨hfits, herase, ?_⟩
      rw [herase, ← hs.2.listed]
      exact nodup_eraseKey hs.2.distinct fd.fd

theorem leavesNoHole_of_refines {s s' : Tracked} {call : ListCall} (hs : s.Invariant)
    (hstep : listStep s call = some s') (hs' : s'.Refines) : LeavesNoHole s call := by
  cases call with
  | add fd junk => trivial
  | remove fd junk =>
      obtain ⟨after, hremove, _, hlisted⟩ := listStep_remove hs.1 fd junk
      obtain rfl := Option.some.inj (hremove.symm.trans hstep)
      exact (listed_of_remove hs fd junk).mp (hlisted.symm.trans hs'.listed)

theorem listStep_of_fits (s : Tracked) (call : ListCall) (h : s.readyFds.Fits) :
    ∃ s', listStep s call = some s' ∧ s'.readyFds.Fits := by
  cases call with
  | add fd junk =>
      obtain ⟨after, hadd, hfits, _⟩ := listStep_add h fd junk
      exact ⟨_, hadd, hfits⟩
  | remove fd junk =>
      obtain ⟨after, hremove, hfits, _⟩ := listStep_remove h fd junk
      exact ⟨_, hremove, hfits⟩

/-- Every sequence of calls goes through, and the list is the set all along
exactly if no removal leaves a hole. -/
theorem listed_refines_iff (calls : List ListCall) :
    (∃ s', run listStep .start calls = some s') ∧
      (EveryState listStep Tracked.Refines .start calls ↔
        EveryStep listStep LeavesNoHole .start calls) :=
  ⟨exists_run listStep_of_fits calls .start invariant_start.1,
    everyState_iff_everyStep invariant_start (fun _ hs => hs.2)
      (fun _ _ _ hs hcall hstep => invariant_listStep hs hcall hstep)
      (fun _ _ _ hs hstep hs' => leavesNoHole_of_refines hs hstep hs') calls⟩

/-- The events of two open descriptors, the first of which is taken off. -/
theorem first_of_two_removed :
    ∃ s', run listStep .start [.add ⟨1, 3⟩ fun _ => ⟨0, 0⟩, .add ⟨1, 4⟩ fun _ => ⟨0, 0⟩,
        .remove ⟨1, 3⟩ fun _ => ⟨0, 0⟩] = some s' ∧ ¬ s'.Refines := by
  refine ⟨_, rfl, fun h => ?_⟩
  exact absurd h.listed (by decide)

end StudyLinuxKernel.Epoll.ListRefinement
