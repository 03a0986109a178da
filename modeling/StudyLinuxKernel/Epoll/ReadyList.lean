import StudyLinuxKernel.Library.OrderedSet

/-!
The list of ready descriptors of `terminal-io-epoll-et.c`.  A block of memory
is the list of its slots; an access outside of it has no result.  The blocks
that `malloc` hands out hold whatever was in the memory before.
-/

namespace StudyLinuxKernel.Epoll.ReadyList

open StudyLinuxKernel.Library.OrderedSet

/-- `struct epoll_event`; `data` is the 64-bit union. -/
structure EpollEvent where
  events : UInt32
  data : UInt64
  deriving DecidableEq, Repr

/-- The member `data.fd`. -/
def EpollEvent.fd (e : EpollEvent) : Int32 := e.data.toUInt32.toInt32

abbrev Block := List EpollEvent

/-- What `malloc` answers: NULL, or a block with the given old contents. -/
abbrev Malloc := Option (Nat → EpollEvent)

def freshBlock (junk : Nat → EpollEvent) (n : Nat) : Block := (List.range n).map junk

def store (block : Block) (i : Nat) (e : EpollEvent) : Option Block :=
  if i < block.length then some (block.set i e) else none

/-- `memcpy` of the first `n` slots. -/
def copySlots (dst src : Block) (n : Nat) : Option Block :=
  if n ≤ src.length ∧ n ≤ dst.length then some (src.take n ++ dst.drop n) else none

structure ReadyIoFds where
  size : Nat
  capacity : Nat
  curpos : Nat
  epEvents : Block
  deriving DecidableEq, Repr

/-- `memset(&ready_fds, 0, sizeof(ready_fds))`. -/
def ReadyIoFds.zeroed : ReadyIoFds :=
  { size := 0, capacity := 0, curpos := 0, epEvents := [] }

/-- The loop of `fd_exist_list` with `n` slots to go from index `i` on. -/
def fdExistLoop (epEvents : Block) (fd : Int32) : Nat → Nat → Option Bool
  | 0, _ => some false
  | n + 1, i => do
      let e ← epEvents[i]?
      if e.fd = fd then some true else fdExistLoop epEvents fd n (i + 1)

def fdExistList (readyFds : ReadyIoFds) (fd : EpollEvent) : Option Bool :=
  fdExistLoop readyFds.epEvents fd.fd readyFds.size 0

/-- The growth branch of `add_fd_to_list`; the flag is false where it returns -1. -/
def growList (readyFds : ReadyIoFds) (malloc : Malloc) : Option (Bool × ReadyIoFds) :=
  if readyFds.capacity ≤ readyFds.size then
    let capacity :=
      (if readyFds.capacity = 0 ∧ readyFds.size = 0 then 1 else readyFds.capacity) * 2
    match malloc with
    | none => some (false, { readyFds with capacity := capacity })
    | some junk => do
        let tempFds ← copySlots (freshBlock junk capacity) readyFds.epEvents readyFds.size
        some (true, { readyFds with capacity := capacity, epEvents := tempFds })
  else some (true, readyFds)

/-- `add_fd_to_list`, with what `malloc` answers if it is called. -/
def addFdToList (readyFds : ReadyIoFds) (fd : EpollEvent) (malloc : Malloc) :
    Option (Int × ReadyIoFds) := do
  if ← fdExistList readyFds fd then some (0, readyFds)
  else
    let (grown, readyFds) ← growList readyFds malloc
    if grown then
      let epEvents ← store readyFds.epEvents readyFds.size fd
      some (readyFds.size + 1,
        { readyFds with epEvents := epEvents, size := readyFds.size + 1 })
    else some (-1, readyFds)

/-- `get_cur_file_descriptor`; a pointer into the list is the index of its slot. -/
def getCurFileDescriptor (readyFds : ReadyIoFds) : Option Nat × ReadyIoFds :=
  if readyFds.size < 1 ∨ readyFds.size ≤ readyFds.curpos then (none, readyFds)
  else (some readyFds.curpos, { readyFds with curpos := readyFds.curpos + 1 })

/-- The copy loop of `remove_file_descriptor`: what stays is copied to the slot
it had. -/
def removeLoop (epEvents : Block) (fd : Int32) : Nat → Nat → Block → Option Block
  | 0, _, tempFds => some tempFds
  | n + 1, i, tempFds => do
      let e ← epEvents[i]?
      if e.fd = fd then removeLoop epEvents fd n (i + 1) tempFds
      else
        let tempFds ← store tempFds i e
        removeLoop epEvents fd n (i + 1) tempFds

def removeFileDescriptor (readyFds : ReadyIoFds) (fd : EpollEvent) (malloc : Malloc) :
    Option (Int × ReadyIoFds) := do
  if ← fdExistList readyFds fd then
    match malloc with
    | none => some (-1, readyFds)
    | some junk =>
        let tempFds ← removeLoop readyFds.epEvents fd.fd readyFds.size 0
          (freshBlock junk readyFds.capacity)
        -- the block is then copied onto itself
        let epEvents ← copySlots tempFds tempFds readyFds.capacity
        let size := readyFds.size - 1
        some (0,
          { readyFds with
            epEvents := epEvents
            size := size
            curpos := if readyFds.curpos = size then 0 else readyFds.curpos })
  else some (1, readyFds)

/-- The listed events, `ep_events[0..size)`. -/
def ReadyIoFds.listed (readyFds : ReadyIoFds) : List EpollEvent :=
  readyFds.epEvents.take readyFds.size

/-- The list fits the block that `capacity` describes. -/
structure ReadyIoFds.Fits (readyFds : ReadyIoFds) : Prop where
  size_le : readyFds.size ≤ readyFds.capacity
  slots : readyFds.epEvents.length = readyFds.capacity

@[simp] theorem length_freshBlock (junk : Nat → EpollEvent) (n : Nat) :
    (freshBlock junk n).length = n := by
  simp [freshBlock]

theorem ReadyIoFds.fits_zeroed : ReadyIoFds.zeroed.Fits := ⟨Nat.le_refl _, rfl⟩

theorem ReadyIoFds.Fits.length_listed {readyFds : ReadyIoFds} (h : readyFds.Fits) :
    readyFds.listed.length = readyFds.size := by
  rw [ReadyIoFds.listed, List.length_take, h.slots, Nat.min_eq_left h.size_le]

theorem getElem?_epEvents {readyFds : ReadyIoFds} (h : readyFds.Fits) {i : Nat}
    (hi : i < readyFds.size) :
    ∃ event, readyFds.epEvents[i]? = some event ∧ readyFds.listed[i]? = some event := by
  have hslot : i < readyFds.epEvents.length := by
    rw [h.slots]
    exact Nat.lt_of_lt_of_le hi h.size_le
  have hread := List.getElem?_eq_getElem hslot
  refine ⟨_, hread, ?_⟩
  rw [ReadyIoFds.listed, List.getElem?_take_of_lt hi, hread]

theorem fdExistLoop_eq {epEvents : Block} (fd : Int32) (n : Nat) :
    ∀ i, i + n ≤ epEvents.length →
      fdExistLoop epEvents fd n i =
        some (decide (fd ∈ ((epEvents.drop i).take n).map EpollEvent.fd)) := by
  induction n with
  | zero =>
      intro i _
      simp [fdExistLoop]
  | succ n ih =>
      intro i hi
      have hlt : i < epEvents.length := by omega
      rw [fdExistLoop, List.getElem?_eq_getElem hlt, List.drop_eq_getElem_cons hlt,
        List.take_succ_cons, List.map_cons]
      simp only [Option.bind_eq_bind, Option.bind_some]
      rcases eq_or_ne epEvents[i].fd fd with heq | hne
      · simp [heq]
      · rw [if_neg hne, ih (i + 1) (by omega)]
        simp [hne.symm]

theorem fdExistList_eq {readyFds : ReadyIoFds} (h : readyFds.Fits) (fd : EpollEvent) :
    fdExistList readyFds fd = some (decide (fd.fd ∈ readyFds.listed.map EpollEvent.fd)) := by
  have hlen : 0 + readyFds.size ≤ readyFds.epEvents.length := by
    rw [h.slots, Nat.zero_add]
    exact h.size_le
  rw [fdExistList, fdExistLoop_eq fd.fd readyFds.size 0 hlen, List.drop_zero,
    ReadyIoFds.listed]

theorem growList_spec {readyFds : ReadyIoFds} (h : readyFds.Fits) (junk : Nat → EpollEvent) :
    ∃ grown, growList readyFds (some junk) = some (true, grown) ∧ grown.Fits ∧
      grown.size = readyFds.size ∧ grown.curpos = readyFds.curpos ∧
      grown.listed = readyFds.listed ∧ grown.size < grown.capacity := by
  rw [growList]
  split
  · rename_i hfull
    generalize hcapacity : (if readyFds.capacity = 0 ∧ readyFds.size = 0 then 1
      else readyFds.capacity) * 2 = capacity
    have hroom : readyFds.size < capacity := by
      have hsize := h.size_le
      split at hcapacity <;> omega
    have hcopy : readyFds.size ≤ readyFds.epEvents.length ∧
        readyFds.size ≤ (freshBlock junk capacity).length := by
      rw [h.slots, length_freshBlock]
      exact ⟨h.size_le, Nat.le_of_lt hroom⟩
    have htake : (readyFds.epEvents.take readyFds.size).length = readyFds.size := h.length_listed
    simp only [copySlots, if_pos hcopy, Option.bind_eq_bind, Option.bind_some]
    refine ⟨_, rfl, ⟨Nat.le_of_lt hroom, ?_⟩, rfl, rfl, ?_, hroom⟩
    · simp only [List.length_append, List.length_drop, length_freshBlock, htake]
      omega
    · rw [ReadyIoFds.listed, List.take_left' htake, ReadyIoFds.listed]
  · exact ⟨readyFds, rfl, h, rfl, rfl, rfl, by omega⟩

theorem addFdToList_spec {readyFds : ReadyIoFds} (h : readyFds.Fits) (fd : EpollEvent)
    (junk : Nat → EpollEvent) :
    ∃ ret after, addFdToList readyFds fd (some junk) = some (ret, after) ∧ 0 ≤ ret ∧
      after.Fits ∧ after.curpos = readyFds.curpos ∧
      after.listed = insertLast EpollEvent.fd fd readyFds.listed := by
  rw [addFdToList, fdExistList_eq h]
  simp only [Option.bind_eq_bind, Option.bind_some, decide_eq_true_eq]
  rcases Decidable.em (fd.fd ∈ readyFds.listed.map EpollEvent.fd) with hmem | hnew
  · rw [if_pos hmem]
    exact ⟨_, _, rfl, Int.le_refl 0, h, rfl, (insertLast_of_mem hmem).symm⟩
  · obtain ⟨grown, hgrow, hfits, hsize, hcurpos, hlisted, hroom⟩ := growList_spec h junk
    have hslot : grown.size < grown.epEvents.length := by
      rw [hfits.slots]
      exact hroom
    rw [if_neg hnew, hgrow]
    simp only [Option.bind_some, if_true, store, if_pos hslot]
    refine ⟨_, _, rfl, by omega, ⟨hroom, by simp [hfits.slots]⟩, hcurpos, ?_⟩
    rw [insertLast_of_not_mem hnew, ← hlisted, ReadyIoFds.listed, ReadyIoFds.listed]
    change (grown.epEvents.set grown.size fd).take (grown.size + 1) = _
    rw [List.take_add_one, List.take_set_of_le (Nat.le_refl _), List.getElem?_set_self hslot]
    rfl

/-- The copy loop stores the events with other descriptors at their old index
and leaves every other slot of the new block as it was. -/
theorem removeLoop_spec {epEvents : Block} (fd : Int32) (n : Nat) :
    ∀ i tempFds, i + n ≤ epEvents.length → i + n ≤ tempFds.length →
      ∃ copied, removeLoop epEvents fd n i tempFds = some copied ∧
        copied.length = tempFds.length ∧
        ∀ j, copied[j]? =
          if i ≤ j ∧ j < i + n ∧ epEvents[j]?.map EpollEvent.fd ≠ some fd then epEvents[j]?
          else tempFds[j]? := by
  induction n with
  | zero =>
      intro i tempFds _ _
      refine ⟨tempFds, rfl, rfl, fun j => ?_⟩
      rw [if_neg (by omega)]
  | succ n ih =>
      intro i tempFds hi htemp
      have hlt : i < epEvents.length := by omega
      have hslot : i < tempFds.length := by omega
      have hread : epEvents[i]? = some epEvents[i] := List.getElem?_eq_getElem hlt
      have hlater : ∀ j, j ≠ i → (i + 1 ≤ j ∧ j < i + 1 + n ∧
          epEvents[j]?.map EpollEvent.fd ≠ some fd ↔
          i ≤ j ∧ j < i + (n + 1) ∧ epEvents[j]?.map EpollEvent.fd ≠ some fd) := by
        intro j hj
        rw [← and_assoc, ← and_assoc]
        exact and_congr_left fun _ => by omega
      rw [removeLoop, hread]
      simp only [Option.bind_eq_bind, Option.bind_some]
      rcases eq_or_ne epEvents[i].fd fd with heq | hne
      · obtain ⟨copied, hloop, hlength, hcopied⟩ := ih (i + 1) tempFds (by omega) (by omega)
        rw [if_pos heq]
        refine ⟨copied, hloop, hlength, fun j => ?_⟩
        rw [hcopied]
        rcases eq_or_ne j i with rfl | hj
        · rw [if_neg (by omega), if_neg (by simp [hread, heq])]
        · exact if_congr (hlater j hj) rfl rfl
      · obtain ⟨copied, hloop, hlength, hcopied⟩ :=
          ih (i + 1) (tempFds.set i epEvents[i]) (by omega) (by simpa using by omega)
        rw [if_neg hne]
        simp only [store, if_pos hslot, Option.bind_some]
        refine ⟨copied, hloop, by simpa using hlength, fun j => ?_⟩
        rw [hcopied]
        rcases eq_or_ne j i with rfl | hj
        · rw [if_neg (by omega), if_pos (by simp [hread, hne]), List.getElem?_set_self hslot,
            hread]
        · rw [List.getElem?_set_ne hj.symm]
          exact if_congr (hlater j hj) rfl rfl

/-- A removed event leaves its slot with the old contents of the new block, and
the last slot is cut off. -/
def cutOut (fd : Int32) (junk : Nat → EpollEvent) (listed : List EpollEvent) :
    List EpollEvent :=
  (listed.mapIdx fun i e => if e.fd = fd then junk i else e).dropLast

theorem removeFileDescriptor_of_not_mem {readyFds : ReadyIoFds} (h : readyFds.Fits)
    {fd : EpollEvent} (malloc : Malloc) (hfd : fd.fd ∉ readyFds.listed.map EpollEvent.fd) :
    removeFileDescriptor readyFds fd malloc = some (1, readyFds) := by
  unfold removeFileDescriptor
  rw [fdExistList_eq h]
  simp [hfd]

theorem removeFileDescriptor_of_mem {readyFds : ReadyIoFds} (h : readyFds.Fits)
    {fd : EpollEvent} (junk : Nat → EpollEvent)
    (hfd : fd.fd ∈ readyFds.listed.map EpollEvent.fd) :
    ∃ after, removeFileDescriptor readyFds fd (some junk) = some (0, after) ∧ after.Fits ∧
      after.size = readyFds.size - 1 ∧
      after.curpos = (if readyFds.curpos = readyFds.size - 1 then 0 else readyFds.curpos) ∧
      after.listed = cutOut fd.fd junk readyFds.listed := by
  have hsize : 0 + readyFds.size ≤ readyFds.epEvents.length := by
    rw [h.slots, Nat.zero_add]
    exact h.size_le
  have htemp : 0 + readyFds.size ≤ (freshBlock junk readyFds.capacity).length := by
    rw [length_freshBlock, Nat.zero_add]
    exact h.size_le
  obtain ⟨copied, hloop, hlength, hcopied⟩ := removeLoop_spec fd.fd readyFds.size 0
    (freshBlock junk readyFds.capacity) hsize htemp
  rw [length_freshBlock] at hlength
  have hself : copySlots copied copied readyFds.capacity = some copied := by
    rw [copySlots, if_pos ⟨Nat.le_of_eq hlength.symm, Nat.le_of_eq hlength.symm⟩,
      List.take_append_drop]
  unfold removeFileDescriptor
  rw [fdExistList_eq h]
  simp only [Option.bind_eq_bind, Option.bind_some, decide_eq_true_eq, if_pos hfd, hloop, hself]
  refine ⟨_, rfl, ⟨Nat.le_trans (Nat.sub_le _ _) h.size_le, hlength⟩, rfl, rfl, ?_⟩
  rw [cutOut, List.dropLast_eq_take, List.length_mapIdx, h.length_listed]
  change copied.take (readyFds.size - 1) = _
  apply List.ext_getElem?
  intro j
  rw [List.getElem?_take, List.getElem?_take]
  split
  · rename_i hj
    have hlt : j < readyFds.epEvents.length := by omega
    have hjunk : (freshBlock junk readyFds.capacity)[j]? = some (junk j) := by
      have hroom := h.size_le
      rw [freshBlock, List.getElem?_map, List.getElem?_range (by omega)]
      rfl
    rw [hcopied, List.getElem?_mapIdx, ReadyIoFds.listed, List.getElem?_take_of_lt (by omega),
      List.getElem?_eq_getElem hlt, hjunk]
    rcases eq_or_ne readyFds.epEvents[j].fd fd.fd with heq | hne
    · simp [heq]
    · simp only [Option.map_some, if_neg hne]
      rw [if_pos ⟨by omega, by omega, by simpa using hne⟩]
  · rfl

end StudyLinuxKernel.Epoll.ReadyList
