import Mathlib.Data.Finset.Basic
import Mathlib.Data.Finset.SDiff
import StudyLinuxKernel.Epoll.ReadyList
import StudyLinuxKernel.Library.PartialStep

namespace StudyLinuxKernel.Epoll.Cursor

open StudyLinuxKernel.Epoll.ReadyList
open StudyLinuxKernel.Library.OrderedSet
open StudyLinuxKernel.Library.PartialStep

/-- A call, with the old contents of the block it allocates. -/
inductive CursorCall where
  | add (fd : EpollEvent) (junk : Nat → EpollEvent)
  | get
  | remove (fd : EpollEvent) (junk : Nat → EpollEvent)

/-- The list of the program next to the descriptors that were added and not
removed, and those of them that were returned since they were added. -/
structure Scanned where
  readyFds : ReadyIoFds
  onList : Finset Int32
  returned : Finset Int32

def Scanned.start : Scanned := { readyFds := .zeroed, onList := ∅, returned := ∅ }

def cursorStep (s : Scanned) : CursorCall → Option Scanned
  | .add fd junk => do
      let (_, readyFds) ← addFdToList s.readyFds fd (some junk)
      some
        { readyFds := readyFds
          onList := insert fd.fd s.onList
          returned := if fd.fd ∈ s.onList then s.returned else s.returned.erase fd.fd }
  | .get =>
      match getCurFileDescriptor s.readyFds with
      | (none, readyFds) => some { s with readyFds := readyFds }
      | (some i, readyFds) => do
          let e ← readyFds.epEvents[i]?
          some { s with readyFds := readyFds, returned := insert e.fd s.returned }
  | .remove fd junk => do
      let (_, readyFds) ← removeFileDescriptor s.readyFds fd (some junk)
      some { s with readyFds := readyFds, onList := s.onList.erase fd.fd }

/-- The descriptors on the list that were not returned since they were added. -/
def Scanned.waiting (s : Scanned) : Finset Int32 := s.onList \ s.returned

/-- The cursor stands on the list or at its end, and every descriptor that
waits is in a slot that the cursor still has to pass. -/
structure Scanned.InReach (s : Scanned) : Prop where
  curpos_le : s.readyFds.curpos ≤ s.readyFds.size
  waiting : ∀ d ∈ s.waiting, ∃ i, s.readyFds.curpos ≤ i ∧ i < s.readyFds.size ∧
    s.readyFds.epEvents[i]?.map EpollEvent.fd = some d

/-- A slot that the cursor still has to pass holds the descriptor. -/
def Ahead (s : ReadyIoFds) (d : Int32) : Prop :=
  ∃ i e, s.curpos ≤ i ∧ s.listed[i]? = some e ∧ e.fd = d

/-- The event that a removal leaves in the slot `i`. -/
def slotAfter (fd : Int32) (junk : Nat → EpollEvent) (i : Nat) (e : EpollEvent) : EpollEvent :=
  if e.fd = fd then junk i else e

/-- A removal leaves the descriptor in a slot that the cursor then has to pass:
one before the last, and not before the cursor unless it is set back. -/
def StaysAhead (s : ReadyIoFds) (fd : Int32) (junk : Nat → EpollEvent) (d : Int32) : Prop :=
  ∃ i e, i + 1 < s.size ∧ (s.curpos ≤ i ∨ s.curpos + 1 = s.size) ∧ s.listed[i]? = some e ∧
    (slotAfter fd junk i e).fd = d

/-- A descriptor is not added while a slot that the cursor has passed holds an
old copy of it and no later slot does.  None is removed while the cursor is at
the end, nor while another one waits in the last slot, which is then cut off,
unless that one stays ahead of the cursor. -/
def KeepsAhead (s : Scanned) : CursorCall → Prop
  | .add fd _ => fd.fd ∉ s.onList → fd.fd ∈ s.readyFds.listed.map EpollEvent.fd →
      Ahead s.readyFds fd.fd
  | .get => True
  | .remove fd junk => fd.fd ∈ s.readyFds.listed.map EpollEvent.fd →
      s.readyFds.curpos ≠ s.readyFds.size ∧
      ∀ last, s.readyFds.listed.getLast? = some last → last.fd ∈ s.waiting →
        last.fd ≠ fd.fd → StaysAhead s.readyFds fd.fd junk last.fd

def Scanned.Invariant (s : Scanned) : Prop := s.readyFds.Fits ∧ s.InReach

theorem lt_size_of_listed {readyFds : ReadyIoFds} (h : readyFds.Fits) {i : Nat} {e : EpollEvent}
    (he : readyFds.listed[i]? = some e) : i < readyFds.size := by
  rw [← h.length_listed]
  exact (List.getElem?_eq_some_iff.mp he).1

theorem ahead_iff {readyFds : ReadyIoFds} (h : readyFds.Fits) (d : Int32) :
    Ahead readyFds d ↔ ∃ i, readyFds.curpos ≤ i ∧ i < readyFds.size ∧
      readyFds.epEvents[i]?.map EpollEvent.fd = some d := by
  constructor
  · rintro ⟨i, e, hi, hlisted, rfl⟩
    have hlt := lt_size_of_listed h hlisted
    obtain ⟨e', hslot, hlisted'⟩ := getElem?_epEvents h hlt
    obtain rfl := Option.some.inj (hlisted.symm.trans hlisted')
    exact ⟨i, hi, hlt, by rw [hslot]; rfl⟩
  · rintro ⟨i, hi, hlt, hd⟩
    obtain ⟨e, hslot, hlisted⟩ := getElem?_epEvents h hlt
    rw [hslot] at hd
    exact ⟨i, e, hi, hlisted, Option.some.inj hd⟩

theorem Scanned.inReach_iff {s : Scanned} (h : s.readyFds.Fits) :
    s.InReach ↔ s.readyFds.curpos ≤ s.readyFds.size ∧ ∀ d ∈ s.waiting, Ahead s.readyFds d := by
  constructor
  · rintro ⟨hcurpos, hwaiting⟩
    exact ⟨hcurpos, fun d hd => (ahead_iff h d).mpr (hwaiting d hd)⟩
  · rintro ⟨hcurpos, hwaiting⟩
    exact ⟨hcurpos, fun d hd => (ahead_iff h d).mp (hwaiting d hd)⟩

theorem invariant_start : Scanned.start.Invariant := by
  refine ⟨ReadyIoFds.fits_zeroed, Nat.le_refl 0, ?_⟩
  simp [Scanned.waiting, Scanned.start]

theorem mem_waiting_add {s : Scanned} {readyFds : ReadyIoFds} {fd d : Int32} :
    d ∈ Scanned.waiting ⟨readyFds, insert fd s.onList,
      if fd ∈ s.onList then s.returned else s.returned.erase fd⟩ ↔
      d ∈ s.waiting ∨ d = fd ∧ fd ∉ s.onList := by
  rcases Decidable.em (fd ∈ s.onList) with hold | hnew
  · simp only [Scanned.waiting, if_pos hold, Finset.insert_eq_of_mem hold]
    simp [hold]
  · simp only [Scanned.waiting, if_neg hnew, Finset.mem_sdiff, Finset.mem_insert,
      Finset.mem_erase]
    rcases eq_or_ne d fd with rfl | hne
    · simp [hnew]
    · simp [hne]

theorem cursorStep_add {s : Scanned} (h : s.readyFds.Fits) (fd : EpollEvent)
    (junk : Nat → EpollEvent) :
    ∃ after, cursorStep s (.add fd junk) = some ⟨after, insert fd.fd s.onList,
        if fd.fd ∈ s.onList then s.returned else s.returned.erase fd.fd⟩ ∧
      after.Fits ∧ after.curpos = s.readyFds.curpos ∧
      after.listed = insertLast EpollEvent.fd fd s.readyFds.listed := by
  obtain ⟨ret, after, hadd, _, hfits, hcurpos, hlisted⟩ := addFdToList_spec h fd junk
  refine ⟨after, ?_, hfits, hcurpos, hlisted⟩
  rw [cursorStep, hadd]
  rfl

theorem ahead_append {s after : ReadyIoFds} {fd : EpollEvent} (hcurpos : after.curpos = s.curpos)
    (hlisted : after.listed = s.listed ++ [fd]) (hle : s.curpos ≤ s.listed.length) {d : Int32} :
    Ahead s d ∨ d = fd.fd → Ahead after d := by
  rintro (⟨i, e, hi, he, rfl⟩ | rfl)
  · refine ⟨i, e, by rwa [hcurpos], ?_, rfl⟩
    rw [hlisted, List.getElem?_append_left (List.getElem?_eq_some_iff.mp he).1]
    exact he
  · refine ⟨s.listed.length, fd, by rwa [hcurpos], ?_, rfl⟩
    rw [hlisted, List.getElem?_concat_length]

theorem inReach_add_iff {s : Scanned} (h : s.Invariant) (fd : EpollEvent)
    (junk : Nat → EpollEvent) :
    ∃ s', cursorStep s (.add fd junk) = some s' ∧ s'.readyFds.Fits ∧
      (s'.InReach ↔ KeepsAhead s (.add fd junk)) := by
  obtain ⟨hfits, hreach⟩ := h
  obtain ⟨hcurpos_le, hwaiting⟩ := (Scanned.inReach_iff hfits).mp hreach
  obtain ⟨after, hadd, hafter, hcurpos, hlisted⟩ := cursorStep_add hfits fd junk
  refine ⟨_, hadd, hafter, ?_⟩
  rw [Scanned.inReach_iff hafter]
  simp only [mem_waiting_add]
  rcases Decidable.em (fd.fd ∈ s.readyFds.listed.map EpollEvent.fd) with hmem | hnew
  · rw [insertLast_of_mem hmem] at hlisted
    have hsize : after.size = s.readyFds.size := by
      rw [← hafter.length_listed, hlisted, hfits.length_listed]
    have hahead : ∀ d, Ahead after d ↔ Ahead s.readyFds d := by
      intro d
      rw [Ahead, Ahead, hcurpos, hlisted]
    simp only [hcurpos, hsize, hahead]
    constructor
    · rintro ⟨_, hall⟩ hfresh _
      exact hall fd.fd (Or.inr ⟨rfl, hfresh⟩)
    · intro hkeeps
      refine ⟨hcurpos_le, ?_⟩
      rintro d (hd | ⟨rfl, hfresh⟩)
      · exact hwaiting d hd
      · exact hkeeps hfresh hmem
  · rw [insertLast_of_not_mem hnew] at hlisted
    apply iff_of_true
    · have hsize : after.size = s.readyFds.size + 1 := by
        rw [← hafter.length_listed, hlisted, List.length_append, hfits.length_listed,
          List.length_singleton]
      have hle : s.readyFds.curpos ≤ s.readyFds.listed.length := by rwa [hfits.length_listed]
      refine ⟨by omega, ?_⟩
      rintro d (hd | ⟨rfl, _⟩)
      · exact ahead_append hcurpos hlisted hle (Or.inl (hwaiting d hd))
      · exact ahead_append hcurpos hlisted hle (Or.inr rfl)
    · intro _ hmem
      exact absurd hmem hnew

theorem cursorStep_get {s : Scanned} (h : s.readyFds.Fits)
    (hlt : s.readyFds.curpos < s.readyFds.size) :
    ∃ e, s.readyFds.listed[s.readyFds.curpos]? = some e ∧
      cursorStep s .get =
        some
          { s with
            readyFds := { s.readyFds with curpos := s.readyFds.curpos + 1 }
            returned := insert e.fd s.returned } := by
  obtain ⟨e, hslot, hlisted⟩ := getElem?_epEvents h hlt
  refine ⟨e, hlisted, ?_⟩
  rw [cursorStep, getCurFileDescriptor, if_neg (by omega)]
  simp only [hslot, Option.bind_eq_bind, Option.bind_some]

theorem inReach_get {s : Scanned} (h : s.Invariant) :
    ∃ s', cursorStep s .get = some s' ∧ s'.readyFds.Fits ∧ s'.InReach := by
  obtain ⟨hfits, hreach⟩ := h
  obtain ⟨hcurpos_le, hwaiting⟩ := (Scanned.inReach_iff hfits).mp hreach
  rcases Nat.lt_or_eq_of_le hcurpos_le with hlt | hend
  · obtain ⟨e, hlisted, hget⟩ := cursorStep_get hfits hlt
    have hfits' : ReadyIoFds.Fits { s.readyFds with curpos := s.readyFds.curpos + 1 } :=
      ⟨hfits.size_le, hfits.slots⟩
    refine ⟨_, hget, hfits', ?_⟩
    rw [Scanned.inReach_iff hfits']
    refine ⟨hlt, fun d hd => ?_⟩
    simp only [Scanned.waiting, Finset.mem_sdiff, Finset.mem_insert, not_or] at hd
    obtain ⟨i, e', hi, he', rfl⟩ := hwaiting d (Finset.mem_sdiff.mpr ⟨hd.1, hd.2.2⟩)
    refine ⟨i, e', ?_, he', rfl⟩
    -- the slot just passed holds the returned descriptor
    have hother : i ≠ s.readyFds.curpos := by
      rintro rfl
      exact hd.2.1 (congrArg EpollEvent.fd (Option.some.inj (he'.symm.trans hlisted)))
    change s.readyFds.curpos + 1 ≤ i
    omega
  · refine ⟨s, ?_, hfits, hreach⟩
    rw [cursorStep, getCurFileDescriptor, if_pos (by omega)]

theorem returned_by_gets (n : Nat) :
    ∀ s : Scanned, s.Invariant → s.readyFds.size ≤ s.readyFds.curpos + n →
      ∀ d ∈ s.waiting, ∃ k s', run cursorStep s (List.replicate k .get) = some s' ∧
        d ∈ s'.returned := by
  induction n with
  | zero =>
      intro s hs hend d hd
      obtain ⟨i, hi, hlt, _⟩ := hs.2.waiting d hd
      omega
  | succ n ih =>
      intro s hs hend d hd
      obtain ⟨i, hi, hlt, _⟩ := hs.2.waiting d hd
      obtain ⟨e, hlisted, hget⟩ := cursorStep_get hs.1 (Nat.lt_of_le_of_lt hi hlt)
      obtain ⟨s', hstep, hfits, hreach⟩ := inReach_get hs
      obtain rfl := Option.some.inj (hget.symm.trans hstep)
      rcases eq_or_ne d e.fd with rfl | hne
      · have hrun : run cursorStep s (List.replicate 1 .get) = cursorStep s .get := by
          rw [List.replicate_one, run_cons, hget]
          rfl
        refine ⟨1, _, hrun.trans hget, ?_⟩
        exact Finset.mem_insert_self e.fd s.returned
      · have hwaits : d ∈ s.onList \ insert e.fd s.returned := by
          have hd' := Finset.mem_sdiff.mp hd
          simp [hd'.1, hd'.2, hne]
        have hcloser : s.readyFds.size ≤ s.readyFds.curpos + 1 + n := by omega
        obtain ⟨k, s', hrun, hreturned⟩ := ih _ ⟨hfits, hreach⟩ hcloser d hwaits
        refine ⟨k + 1, s', ?_, hreturned⟩
        rw [List.replicate_succ, run_cons, hget]
        exact hrun

theorem getElem?_cutOut (fd : Int32) (junk : Nat → EpollEvent) (listed : List EpollEvent)
    (i : Nat) {slot : EpollEvent} :
    (cutOut fd junk listed)[i]? = some slot ↔
      i + 1 < listed.length ∧ ∃ e, listed[i]? = some e ∧ slotAfter fd junk i e = slot := by
  rw [cutOut, List.getElem?_dropLast, List.length_mapIdx, List.getElem?_mapIdx]
  split
  · rename_i hi
    simp only [Option.map_eq_some_iff, slotAfter]
    exact ⟨fun h => ⟨by omega, h⟩, fun h => h.2⟩
  · rename_i hi
    apply iff_of_false (by simp)
    rintro ⟨hlt, _⟩
    exact hi (by omega)

theorem ahead_remove_iff {s after : ReadyIoFds} (h : s.Fits) {fd : Int32}
    {junk : Nat → EpollEvent} (hlt : s.curpos < s.size)
    (hcurpos : after.curpos = if s.curpos = s.size - 1 then 0 else s.curpos)
    (hlisted : after.listed = cutOut fd junk s.listed) (d : Int32) :
    Ahead after d ↔ StaysAhead s fd junk d := by
  have hpassed : ∀ i, i + 1 < s.size →
      (after.curpos ≤ i ↔ s.curpos ≤ i ∨ s.curpos + 1 = s.size) := by
    intro i hi
    rw [hcurpos]
    split <;> omega
  rw [Ahead, StaysAhead]
  simp only [hlisted, getElem?_cutOut, h.length_listed]
  constructor
  · rintro ⟨i, _, hi, ⟨hlast, e, he, rfl⟩, hd⟩
    exact ⟨i, e, hlast, (hpassed i hlast).mp hi, he, hd⟩
  · rintro ⟨i, e, hlast, hi, he, hd⟩
    exact ⟨i, _, (hpassed i hlast).mpr hi, ⟨hlast, e, he, rfl⟩, hd⟩

/-- What is ahead stays ahead of a removal, but for the last slot. -/
theorem staysAhead_of_ahead {s : ReadyIoFds} (h : s.Fits) {fd d : Int32}
    {junk : Nat → EpollEvent} (hne : d ≠ fd) (hahead : Ahead s d)
    (hlast : ∀ last, s.listed.getLast? = some last → last.fd = d →
      StaysAhead s fd junk d) : StaysAhead s fd junk d := by
  obtain ⟨i, e, hi, he, rfl⟩ := hahead
  have hlt := lt_size_of_listed h he
  rcases Nat.lt_or_ge (i + 1) s.size with hinside | hend
  · refine ⟨i, e, hinside, Or.inl hi, he, ?_⟩
    rw [slotAfter, if_neg hne]
  · refine hlast e ?_ rfl
    rw [List.getLast?_eq_getElem?, h.length_listed]
    rwa [show s.size - 1 = i by omega]

theorem cursorStep_remove {s : Scanned} {fd : EpollEvent} {junk : Nat → EpollEvent} {ret : Int}
    {after : ReadyIoFds}
    (hremove : removeFileDescriptor s.readyFds fd (some junk) = some (ret, after)) :
    cursorStep s (.remove fd junk) =
      some { s with readyFds := after, onList := s.onList.erase fd.fd } := by
  rw [cursorStep, hremove]
  rfl

theorem inReach_remove_iff {s : Scanned} (h : s.Invariant) (fd : EpollEvent)
    (junk : Nat → EpollEvent) :
    ∃ s', cursorStep s (.remove fd junk) = some s' ∧ s'.readyFds.Fits ∧
      (s'.InReach ↔ KeepsAhead s (.remove fd junk)) := by
  obtain ⟨hfits, hreach⟩ := h
  obtain ⟨hcurpos_le, hwaiting⟩ := (Scanned.inReach_iff hfits).mp hreach
  have hwaits : ∀ {readyFds : ReadyIoFds} {d : Int32},
      d ∈ Scanned.waiting ⟨readyFds, s.onList.erase fd.fd, s.returned⟩ ↔
        d ≠ fd.fd ∧ d ∈ s.waiting := by
    intro readyFds d
    simp only [Scanned.waiting, Finset.mem_sdiff, Finset.mem_erase, and_assoc]
  rcases Decidable.em (fd.fd ∈ s.readyFds.listed.map EpollEvent.fd) with hmem | hnew
  · obtain ⟨after, hremove, hafter, hsize, hcurpos, hlisted⟩ :=
      removeFileDescriptor_of_mem hfits junk hmem
    have hnonempty : 0 < s.readyFds.size := by
      have hlength := List.length_pos_of_mem hmem
      rwa [List.length_map, hfits.length_listed] at hlength
    refine ⟨_, cursorStep_remove hremove, hafter, ?_⟩
    rw [Scanned.inReach_iff hafter]
    simp only [hwaits]
    constructor
    · rintro ⟨hle, hall⟩ _
      have hend : s.readyFds.curpos ≠ s.readyFds.size := by
        intro hend
        rw [hcurpos, if_neg (by omega)] at hle
        omega
      refine ⟨hend, fun last _ hlast hne => ?_⟩
      exact (ahead_remove_iff hfits (by omega) hcurpos hlisted last.fd).mp
        (hall last.fd ⟨hne, hlast⟩)
    · intro hkeeps
      obtain ⟨hend, hlast⟩ := hkeeps hmem
      have hlt : s.readyFds.curpos < s.readyFds.size := by omega
      refine ⟨?_, ?_⟩
      · rw [hcurpos]
        split <;> omega
      · rintro d ⟨hne, hd⟩
        rw [ahead_remove_iff hfits hlt hcurpos hlisted]
        refine staysAhead_of_ahead hfits hne (hwaiting d hd) ?_
        rintro last hislast rfl
        exact hlast last hislast hd hne
  · have hremove := removeFileDescriptor_of_not_mem hfits (some junk) hnew
    refine ⟨_, cursorStep_remove hremove, hfits, ?_⟩
    apply iff_of_true
    · rw [Scanned.inReach_iff (by exact hfits)]
      exact ⟨hcurpos_le, fun d hd => hwaiting d (hwaits.mp hd).2⟩
    · intro hmem
      exact absurd hmem hnew

theorem inReach_step_iff {s : Scanned} (h : s.Invariant) (call : CursorCall) :
    ∃ s', cursorStep s call = some s' ∧ s'.readyFds.Fits ∧
      (s'.InReach ↔ KeepsAhead s call) := by
  rcases call with ⟨fd, junk⟩ | _ | ⟨fd, junk⟩
  · exact inReach_add_iff h fd junk
  · obtain ⟨s', hget, hfits, hreach⟩ := inReach_get h
    exact ⟨s', hget, hfits, iff_of_true hreach trivial⟩
  · exact inReach_remove_iff h fd junk

theorem cursorStep_of_fits (s : Scanned) (call : CursorCall) (h : s.readyFds.Fits) :
    ∃ s', cursorStep s call = some s' ∧ s'.readyFds.Fits := by
  rcases call with ⟨fd, junk⟩ | _ | ⟨fd, junk⟩
  · obtain ⟨after, hadd, hfits, _⟩ := cursorStep_add h fd junk
    exact ⟨_, hadd, hfits⟩
  · rcases Nat.lt_or_ge s.readyFds.curpos s.readyFds.size with hlt | hend
    · obtain ⟨e, _, hget⟩ := cursorStep_get h hlt
      exact ⟨_, hget, h.size_le, h.slots⟩
    · refine ⟨s, ?_, h⟩
      rw [cursorStep, getCurFileDescriptor, if_pos (Or.inr hend)]
  · rcases Decidable.em (fd.fd ∈ s.readyFds.listed.map EpollEvent.fd) with hmem | hnew
    · obtain ⟨after, hremove, hfits, _⟩ := removeFileDescriptor_of_mem h junk hmem
      exact ⟨_, cursorStep_remove hremove, hfits⟩
    · exact ⟨_, cursorStep_remove (removeFileDescriptor_of_not_mem h (some junk) hnew), h⟩

theorem Scanned.Invariant.step {s s' : Scanned} {call : CursorCall} (h : s.Invariant)
    (hkeeps : KeepsAhead s call) (hstep : cursorStep s call = some s') : s'.Invariant := by
  obtain ⟨after, hafter, hfits, hiff⟩ := inReach_step_iff h call
  obtain rfl := Option.some.inj (hafter.symm.trans hstep)
  exact ⟨hfits, hiff.mpr hkeeps⟩

/-- Every sequence of calls goes through, and the cursor and the waiting
descriptors stay as they should exactly if every call keeps them ahead; then further
calls of `get` return all that waits. -/
theorem inReach_iff_keepsAhead (calls : List CursorCall) :
    (∃ s', run cursorStep .start calls = some s') ∧
      (EveryState cursorStep Scanned.InReach .start calls ↔
        EveryStep cursorStep KeepsAhead .start calls) ∧
      (EveryStep cursorStep KeepsAhead .start calls →
        ∀ s, run cursorStep .start calls = some s → ∀ d ∈ s.waiting,
          ∃ k s', run cursorStep s (List.replicate k .get) = some s' ∧ d ∈ s'.returned) := by
  refine ⟨exists_run cursorStep_of_fits calls .start invariant_start.1, ?_, ?_⟩
  · refine everyState_iff_everyStep invariant_start (fun s hs => hs.2)
      (fun s call s' hs hkeeps hstep => hs.step hkeeps hstep) ?_ calls
    intro s call s' hs hstep hreach
    obtain ⟨after, hafter, _, hiff⟩ := inReach_step_iff hs call
    obtain rfl := Option.some.inj (hafter.symm.trans hstep)
    exact hiff.mp hreach
  · intro hkeeps s hrun d hd
    have hinvariant : EveryState cursorStep Scanned.Invariant .start calls :=
      invariant_of_everyStep invariant_start
        (fun s call s' hs hkeeps hstep => hs.step hkeeps hstep) hkeeps
    exact returned_by_gets s.readyFds.size s (hinvariant.reached hrun)
      (Nat.le_add_left _ _) d hd

/-- The only descriptor is taken off after it was returned, and the cursor
stands behind the end of the empty list. -/
theorem returned_then_removed :
    ∃ s', run cursorStep .start [.add ⟨1, 3⟩ fun _ => ⟨0, 0⟩, .get,
      .remove ⟨1, 3⟩ fun _ => ⟨0, 0⟩] = some s' ∧ ¬ s'.InReach := by
  refine ⟨_, rfl, fun h => ?_⟩
  exact absurd h.curpos_le (by decide)

end StudyLinuxKernel.Epoll.Cursor
