import StudyLinuxKernel.Epoll.ListRefinement

namespace StudyLinuxKernel.Epoll.EventLoop

open StudyLinuxKernel.Epoll.ReadyList
open StudyLinuxKernel.Epoll.ListRefinement
open StudyLinuxKernel.Library.OrderedSet
open StudyLinuxKernel.Library.PartialStep

/-- What `read` returns; an error comes with the `errno` that the test sees. -/
inductive ReadResult where
  | bytes (numread : Nat)
  | error (errno : Nat)
  deriving DecidableEq, Repr

def EAGAIN : Nat := 11

/-- `numread < 0 && errno == EAGAIN`. -/
def ReadResult.again (result : ReadResult) : Prop := result = .error EAGAIN

instance (result : ReadResult) : Decidable result.again :=
  inferInstanceAs (Decidable (result = .error EAGAIN))

/-- What the kernel and the allocator do in one pass.  The reads are given by
the index of the loop. -/
structure Pass where
  eventReady : List EpollEvent
  ready_le : eventReady.length ≤ 8
  numread : Nat → ReadResult
  addJunk : Nat → Nat → EpollEvent
  removeJunk : Nat → Nat → EpollEvent

/-- The variables of the loop, with the list as it was before the reads of the
last pass and what these reads returned. -/
structure LoopState where
  readyFds : ReadyIoFds
  timeout : Int
  ready : List EpollEvent
  reads : List (Int32 × ReadResult)

def LoopState.start : LoopState :=
  { readyFds := .zeroed, timeout := -1, ready := [], reads := [] }

/-- The list with the batch on it. -/
def listReady (listed eventReady : List EpollEvent) : List EpollEvent :=
  eventReady.foldl (fun l event => insertLast EpollEvent.fd event l) listed

/-- The loop over `event_ready`, from index `i` on. -/
def addReady (addJunk : Nat → Nat → EpollEvent) :
    Nat → List EpollEvent → ReadyIoFds → Option ReadyIoFds
  | _, [], readyFds => some readyFds
  | i, event :: events, readyFds => do
      let (_, readyFds) ← addFdToList readyFds event (some (addJunk i))
      addReady addJunk (i + 1) events readyFds

/-- The loop over `ready_fds.ep_events` from index `i` on. -/
def readLoop (pass : Pass) : Nat → Nat → ReadyIoFds → List (Int32 × ReadResult) →
    Option (ReadyIoFds × List (Int32 × ReadResult))
  | 0, i, readyFds, reads => if i < readyFds.size then none else some (readyFds, reads)
  | fuel + 1, i, readyFds, reads =>
      if i < readyFds.size then do
        let event ← readyFds.epEvents[i]?
        let reads := reads ++ [(event.fd, pass.numread i)]
        if (pass.numread i).again then
          let (_, readyFds) ← removeFileDescriptor readyFds event (some (pass.removeJunk i))
          readLoop pass fuel (i + 1) readyFds reads
        else readLoop pass fuel (i + 1) readyFds reads
      else some (readyFds, reads)

/-- One pass of the loop of `main`. -/
def mainPass (s : LoopState) (pass : Pass) : Option LoopState := do
  let readyFds ← addReady pass.addJunk 0 pass.eventReady s.readyFds
  let (after, reads) ← readLoop pass readyFds.size 0 readyFds []
  some
    { readyFds := after
      timeout := if after.size = 0 then -1 else 0
      ready := listReady s.readyFds.listed pass.eventReady
      reads := reads }

/-- The last pass read every descriptor of the list once and kept those whose
read did not fail with `EAGAIN`. -/
structure LoopState.PassKept (s : LoopState) : Prop where
  distinct : (s.ready.map EpollEvent.fd).Nodup
  readOnce : (s.reads.map Prod.fst).Perm (s.ready.map EpollEvent.fd)
  kept : ∀ d, d ∈ s.readyFds.listed.map EpollEvent.fd ↔
    d ∈ s.ready.map EpollEvent.fd ∧ (d, .error EAGAIN) ∉ s.reads
  blocks : s.timeout = -1 → s.readyFds.listed = []

/-- Only the read of the last descriptor of the list may fail with `EAGAIN`. -/
def OnlyLastAgain (s : LoopState) (pass : Pass) : Prop :=
  ∀ i, i + 1 < (listReady s.readyFds.listed pass.eventReady).length →
    ¬ (pass.numread i).again

structure LoopState.Invariant (s : LoopState) : Prop where
  fits : s.readyFds.Fits
  distinct : (s.readyFds.listed.map EpollEvent.fd).Nodup
  passKept : s.PassKept

theorem addReady_spec (addJunk : Nat → Nat → EpollEvent) (events : List EpollEvent) :
    ∀ i {readyFds : ReadyIoFds}, readyFds.Fits →
      ∃ after, addReady addJunk i events readyFds = some after ∧ after.Fits ∧
        after.listed = listReady readyFds.listed events := by
  induction events with
  | nil =>
      intro i readyFds h
      exact ⟨readyFds, rfl, h, rfl⟩
  | cons event events ih =>
      intro i readyFds h
      obtain ⟨ret, added, hadd, _, hfits, _, hlisted⟩ := addFdToList_spec h event (addJunk i)
      obtain ⟨after, hafter, hafterFits, hafterListed⟩ := ih (i + 1) hfits
      refine ⟨after, ?_, hafterFits, ?_⟩
      · rw [addReady, hadd]
        exact hafter
      · rw [hafterListed, hlisted, listReady, listReady, List.foldl_cons]

theorem nodup_listReady (events : List EpollEvent) :
    ∀ {listed : List EpollEvent}, (listed.map EpollEvent.fd).Nodup →
      ((listReady listed events).map EpollEvent.fd).Nodup := by
  induction events with
  | nil =>
      intro listed h
      exact h
  | cons event events ih =>
      intro listed h
      exact ih (nodup_insertLast h event)

theorem removeFileDescriptor_of_getElem? {readyFds : ReadyIoFds} (h : readyFds.Fits) {i : Nat}
    {event : EpollEvent} (hevent : readyFds.listed[i]? = some event)
    (junk : Nat → EpollEvent) :
    ∃ after, removeFileDescriptor readyFds event (some junk) = some (0, after) ∧
      after.Fits ∧ after.size = readyFds.size - 1 ∧
      after.listed = cutOut event.fd junk readyFds.listed := by
  have hmem : event.fd ∈ readyFds.listed.map EpollEvent.fd :=
    List.mem_map_of_mem (List.mem_of_getElem? hevent)
  obtain ⟨after, hremove, hfits, hsize, _, hlisted⟩ := removeFileDescriptor_of_mem h junk hmem
  exact ⟨after, hremove, hfits, hsize, hlisted⟩

theorem readLoop_done (pass : Pass) {fuel i : Nat} {readyFds : ReadyIoFds}
    (reads : List (Int32 × ReadResult)) (hdone : ¬ i < readyFds.size) :
    readLoop pass fuel i readyFds reads = some (readyFds, reads) := by
  cases fuel with
  | zero => rw [readLoop, if_neg hdone]
  | succ fuel => rw [readLoop, if_neg hdone]

/-- The loop ends with at most one read for each index, and with less as soon
as a read before the last index fails with `EAGAIN`. -/
theorem readLoop_length (pass : Pass) (fuel : Nat) :
    ∀ i {readyFds : ReadyIoFds} (reads : List (Int32 × ReadResult)), readyFds.Fits →
      readyFds.size ≤ i + fuel →
      ∃ after more, readLoop pass fuel i readyFds reads = some (after, reads ++ more) ∧
        after.Fits ∧ more.length ≤ readyFds.size - i ∧
        ∀ j, i ≤ j → j + 1 < readyFds.size → (pass.numread j).again →
          more.length < readyFds.size - i := by
  induction fuel with
  | zero =>
      intro i readyFds reads h hfuel
      refine ⟨readyFds, [], ?_, h, Nat.zero_le _, fun j hj hlast _ => ?_⟩
      · rw [readLoop_done pass reads (by omega), List.append_nil]
      · omega
  | succ fuel ih =>
      intro i readyFds reads h hfuel
      rw [readLoop]
      split
      · rename_i hi
        obtain ⟨event, hslot, hlisted⟩ := getElem?_epEvents h hi
        rw [hslot]
        simp only [Option.bind_eq_bind, Option.bind_some]
        split
        · rename_i hagain
          obtain ⟨removed, hremove, hfits, hsize, _⟩ :=
            removeFileDescriptor_of_getElem? h hlisted (pass.removeJunk i)
          obtain ⟨after, more, hloop, hafter, hlength, _⟩ :=
            ih (i + 1) (reads ++ [(event.fd, pass.numread i)]) hfits (by omega)
          refine ⟨after, (event.fd, pass.numread i) :: more, ?_, hafter, ?_, ?_⟩
          · rw [hremove, Option.bind_some, hloop, List.append_assoc]
            rfl
          · rw [List.length_cons]
            omega
          · intro j hij hj _
            rw [List.length_cons]
            omega
        · rename_i hread
          obtain ⟨after, more, hloop, hafter, hlength, hless⟩ :=
            ih (i + 1) (reads ++ [(event.fd, pass.numread i)]) h (by omega)
          refine ⟨after, (event.fd, pass.numread i) :: more, ?_, hafter, ?_, ?_⟩
          · rw [hloop, List.append_assoc]
            rfl
          · rw [List.length_cons]
            omega
          · intro j hij hj hagain
            rcases Nat.eq_or_lt_of_le hij with rfl | hlater
            · exact absurd hagain hread
            · have := hless j hlater hj hagain
              rw [List.length_cons]
              omega
      · rename_i hi
        refine ⟨readyFds, [], by rw [List.append_nil], h, Nat.zero_le _, fun j hij hj _ => ?_⟩
        omega

/-- The reads of a pass over a list that stays as it is. -/
def readsFrom (pass : Pass) : Nat → List EpollEvent → List (Int32 × ReadResult)
  | _, [] => []
  | i, event :: events => (event.fd, pass.numread i) :: readsFrom pass (i + 1) events

theorem map_fst_readsFrom (pass : Pass) (events : List EpollEvent) :
    ∀ i, (readsFrom pass i events).map Prod.fst = events.map EpollEvent.fd := by
  induction events with
  | nil =>
      intro i
      rfl
  | cons event events ih =>
      intro i
      rw [readsFrom, List.map_cons, ih, List.map_cons]

theorem mem_readsFrom (pass : Pass) {d : Int32} {result : ReadResult}
    (events : List EpollEvent) :
    ∀ i, (d, result) ∈ readsFrom pass i events ↔
      ∃ k event, events[k]? = some event ∧ event.fd = d ∧ pass.numread (i + k) = result := by
  induction events with
  | nil =>
      intro i
      simp [readsFrom]
  | cons event events ih =>
      intro i
      rw [readsFrom, List.mem_cons, ih]
      constructor
      · rintro (hhead | ⟨k, e, he, hd, hresult⟩)
        · obtain ⟨rfl, rfl⟩ := Prod.mk.inj hhead
          exact ⟨0, event, rfl, rfl, rfl⟩
        · refine ⟨k + 1, e, he, hd, ?_⟩
          rw [← hresult, Nat.add_right_comm, Nat.add_assoc]
      · rintro ⟨k, e, he, rfl, rfl⟩
        cases k with
        | zero =>
            obtain rfl := Option.some.inj he
            exact Or.inl rfl
        | succ k =>
            refine Or.inr ⟨k, e, he, rfl, ?_⟩
            rw [Nat.add_right_comm, Nat.add_assoc]

theorem listed_drop_eq_cons {readyFds : ReadyIoFds} {i : Nat} {event : EpollEvent}
    (hlisted : readyFds.listed[i]? = some event) :
    readyFds.listed.drop i = event :: readyFds.listed.drop (i + 1) := by
  obtain ⟨hlt, hget⟩ := List.getElem?_eq_some_iff.mp hlisted
  rw [List.drop_eq_getElem_cons hlt, hget]

theorem cutOut_last {listed front : List EpollEvent} {event : EpollEvent}
    (hdistinct : (listed.map EpollEvent.fd).Nodup) (hsplit : listed = front ++ [event])
    (junk : Nat → EpollEvent) : cutOut event.fd junk listed = listed.dropLast := by
  rw [hsplit] at hdistinct ⊢
  rw [cutOut_append_cons hdistinct, List.dropLast_concat]
  exact List.append_nil _

theorem readLoop_reads (pass : Pass) (fuel : Nat) :
    ∀ i {readyFds : ReadyIoFds} (reads : List (Int32 × ReadResult)), readyFds.Fits →
      (readyFds.listed.map EpollEvent.fd).Nodup → i ≤ readyFds.size →
      readyFds.size ≤ i + fuel →
      (∀ j, i ≤ j → j + 1 < readyFds.size → ¬ (pass.numread j).again) →
      ∃ after, readLoop pass fuel i readyFds reads =
          some (after, reads ++ readsFrom pass i (readyFds.listed.drop i)) ∧
        after.Fits ∧
        after.listed = if i < readyFds.size ∧ (pass.numread (readyFds.size - 1)).again then
          readyFds.listed.dropLast else readyFds.listed := by
  induction fuel with
  | zero =>
      intro i readyFds reads h _ hsize hfuel _
      have hdone : ¬ i < readyFds.size := Nat.not_lt.mpr hfuel
      have hdrop : readyFds.listed.drop i = [] :=
        List.drop_eq_nil_of_le (h.length_listed.trans_le hfuel)
      refine ⟨readyFds, ?_, h, ?_⟩
      · rw [readLoop_done pass reads hdone, hdrop, readsFrom, List.append_nil]
      · rw [if_neg fun hlt => hdone hlt.1]
  | succ fuel ih =>
      intro i readyFds reads h hdistinct hsize hfuel hreads
      rw [readLoop]
      rcases Nat.lt_or_eq_of_le hsize with hi | rfl
      · obtain ⟨event, hslot, hlisted⟩ := getElem?_epEvents h hi
        have hdrop := listed_drop_eq_cons hlisted
        rw [if_pos hi, hslot, hdrop, readsFrom]
        simp only [Option.bind_eq_bind, Option.bind_some]
        split
        · rename_i hagain
          have hlast : i + 1 = readyFds.size := by
            refine Nat.le_antisymm hi (Nat.not_lt.mp fun hlt => ?_)
            exact hreads i (Nat.le_refl i) hlt hagain
          obtain ⟨removed, hremove, hfits, hshorter, hcut⟩ :=
            removeFileDescriptor_of_getElem? h hlisted (pass.removeJunk i)
          have hend : readyFds.listed.drop (i + 1) = [] :=
            List.drop_eq_nil_of_le (Nat.le_of_eq (h.length_listed.trans hlast.symm))
          have hsplit : readyFds.listed = readyFds.listed.take i ++ [event] := by
            rw [← hend, ← hdrop, List.take_append_drop]
          have hdone : ¬ i + 1 < removed.size := by omega
          refine ⟨removed, ?_, hfits, ?_⟩
          · rw [hremove, Option.bind_some, hend, readsFrom]
            exact readLoop_done pass _ hdone
          · have hindex : readyFds.size - 1 = i := by omega
            rw [hindex, if_pos ⟨hi, hagain⟩, hcut, cutOut_last hdistinct hsplit]
        · rename_i hread
          obtain ⟨after, hloop, hfits, hafter⟩ :=
            ih (i + 1) (reads ++ [(event.fd, pass.numread i)]) h hdistinct hi (by omega)
              (fun j hj => hreads j (Nat.le_of_succ_le hj))
          refine ⟨after, ?_, hfits, ?_⟩
          · rw [hloop, List.append_assoc]
            rfl
          · rw [hafter]
            refine if_congr (and_congr_left fun hagain => iff_of_true ?_ hi) rfl rfl
            rcases Nat.lt_or_eq_of_le hi with hlt | hlast
            · exact hlt
            · apply absurd hagain
              rw [← hlast]
              exact hread
      · have hend : readyFds.listed.drop readyFds.size = [] :=
          List.drop_eq_nil_of_le (Nat.le_of_eq h.length_listed)
        refine ⟨readyFds, ?_, h, ?_⟩
        · rw [if_neg (Nat.lt_irrefl _), hend, readsFrom, List.append_nil]
        · rw [if_neg fun hlt => Nat.lt_irrefl _ hlt.1]

theorem listed_eq_nil_iff {readyFds : ReadyIoFds} (h : readyFds.Fits) :
    readyFds.listed = [] ↔ readyFds.size = 0 := by
  rw [← List.length_eq_zero_iff, h.length_listed]

theorem mainPass_runs {s : LoopState} (h : s.readyFds.Fits) (pass : Pass) :
    ∃ s', mainPass s pass = some s' ∧ s'.readyFds.Fits := by
  obtain ⟨added, hadd, hfits, _⟩ := addReady_spec pass.addJunk pass.eventReady 0 h
  obtain ⟨after, more, hloop, hafter, _⟩ :=
    readLoop_length pass added.size 0 [] hfits (Nat.le_add_left _ _)
  rw [mainPass, hadd]
  simp only [Option.bind_eq_bind, Option.bind_some, hloop]
  exact ⟨_, rfl, hafter⟩

theorem kept_of_readsFrom (pass : Pass) {listed : List EpollEvent}
    (hdistinct : (listed.map EpollEvent.fd).Nodup)
    (hreads : ∀ i, i + 1 < listed.length → ¬ (pass.numread i).again) (d : Int32) :
    d ∈ (if 0 < listed.length ∧ (pass.numread (listed.length - 1)).again then
        listed.dropLast else listed).map EpollEvent.fd ↔
      d ∈ listed.map EpollEvent.fd ∧ (d, .error EAGAIN) ∉ readsFrom pass 0 listed := by
  have hagain : (d, .error EAGAIN) ∈ readsFrom pass 0 listed ↔
      ∃ event, listed.getLast? = some event ∧ event.fd = d ∧
        (pass.numread (listed.length - 1)).again := by
    rw [mem_readsFrom, List.getLast?_eq_getElem?]
    constructor
    · rintro ⟨k, event, hevent, hd, hresult⟩
      obtain ⟨hk, _⟩ := List.getElem?_eq_some_iff.mp hevent
      rw [Nat.zero_add] at hresult
      have hlast : k = listed.length - 1 := by
        have hnot : ¬ k + 1 < listed.length := fun hlt => hreads k hlt hresult
        omega
      subst hlast
      exact ⟨event, hevent, hd, hresult⟩
    · rintro ⟨event, hevent, hd, hresult⟩
      exact ⟨_, event, hevent, hd, by rw [Nat.zero_add]; exact hresult⟩
  rw [hagain]
  rcases List.eq_nil_or_concat listed with rfl | ⟨front, last, rfl⟩
  · simp
  · rw [List.concat_eq_append] at hdistinct ⊢
    rw [List.map_append, List.map_singleton, List.nodup_append] at hdistinct
    have hapart : d ∈ front.map EpollEvent.fd → last.fd ≠ d := fun hd hlast =>
      hdistinct.2.2 d hd last.fd (List.mem_singleton_self _) hlast.symm
    rw [List.dropLast_concat, List.getLast?_concat]
    split
    · rename_i hlast
      simp only [List.map_append, List.mem_append, List.map_singleton, List.mem_singleton,
        Option.some.injEq, exists_eq_left', hlast.2, and_true]
      constructor
      · intro hd
        exact ⟨Or.inl hd, hapart hd⟩
      · rintro ⟨hd | rfl, hne⟩
        · exact hd
        · exact absurd rfl hne
    · rename_i hlast
      refine ⟨fun hd => ⟨hd, ?_⟩, fun hd => hd.1⟩
      rintro ⟨event, _, _, hagain⟩
      exact hlast ⟨by simp, hagain⟩

theorem invariant_mainPass {s s' : LoopState} {pass : Pass} (hs : s.Invariant)
    (hpass : OnlyLastAgain s pass) (hstep : mainPass s pass = some s') : s'.Invariant := by
  obtain ⟨added, hadd, hfits, hlisted⟩ := addReady_spec pass.addJunk pass.eventReady 0 hs.fits
  have hdistinct := nodup_listReady pass.eventReady hs.distinct
  rw [← hlisted] at hdistinct
  have hreads : ∀ i, i + 1 < added.listed.length → ¬ (pass.numread i).again := by
    rw [hlisted]
    exact hpass
  obtain ⟨after, hloop, hafter, hkept⟩ :=
    readLoop_reads pass added.size 0 [] hfits hdistinct (Nat.zero_le _) (Nat.le_add_left _ _)
      (fun j _ hj => hreads j (hfits.length_listed ▸ hj))
  rw [← hfits.length_listed] at hkept
  rw [List.drop_zero, List.nil_append] at hloop
  rw [mainPass, hadd] at hstep
  simp only [Option.bind_eq_bind, Option.bind_some, hloop] at hstep
  obtain rfl := Option.some.inj hstep
  have hkeptNodup : (after.listed.map EpollEvent.fd).Nodup := by
    rw [hkept]
    split
    · exact hdistinct.sublist ((List.dropLast_sublist _).map _)
    · exact hdistinct
  refine ⟨hafter, hkeptNodup, ?_, ?_, ?_, ?_⟩
  · rw [← hlisted]
    exact hdistinct
  · rw [map_fst_readsFrom, hlisted]
  · intro d
    change d ∈ after.listed.map EpollEvent.fd ↔ _
    rw [hkept, ← hlisted]
    exact kept_of_readsFrom pass hdistinct hreads d
  · intro htimeout
    change after.listed = []
    rw [listed_eq_nil_iff hafter]
    rcases eq_or_ne after.size 0 with hzero | hne
    · exact hzero
    · rw [if_neg hne] at htimeout
      exact absurd (show (0 : Int) = -1 from htimeout) (by decide)

theorem onlyLastAgain_of_passKept {s s' : LoopState} {pass : Pass} (hs : s.Invariant)
    (hstep : mainPass s pass = some s') (hs' : s'.PassKept) : OnlyLastAgain s pass := by
  obtain ⟨added, hadd, hfits, hlisted⟩ := addReady_spec pass.addJunk pass.eventReady 0 hs.fits
  obtain ⟨after, more, hloop, _, _, hless⟩ :=
    readLoop_length pass added.size 0 [] hfits (Nat.le_add_left _ _)
  rw [List.nil_append] at hloop
  rw [mainPass, hadd] at hstep
  simp only [Option.bind_eq_bind, Option.bind_some, hloop] at hstep
  obtain rfl := Option.some.inj hstep
  intro i hi hagain
  rw [← hlisted, hfits.length_listed] at hi
  have hlost := hless i (Nat.zero_le i) hi hagain
  have hall := hs'.readOnce.length_eq
  rw [List.length_map, List.length_map, ← hlisted, hfits.length_listed] at hall
  exact absurd hall (Nat.ne_of_lt hlost)

theorem invariant_start : LoopState.start.Invariant where
  fits := ReadyIoFds.fits_zeroed
  distinct := List.nodup_nil
  passKept :=
    { distinct := List.nodup_nil
      readOnce := List.Perm.nil
      kept := fun d => by simp [LoopState.start, ReadyIoFds.listed, ReadyIoFds.zeroed]
      blocks := fun _ => rfl }

theorem mainPass_run_completes (passes : List Pass) :
    ∀ s : LoopState, s.readyFds.Fits → ∃ s', run mainPass s passes = some s' := by
  induction passes with
  | nil =>
      intro s _
      exact ⟨s, rfl⟩
  | cons pass passes ih =>
      intro s hs
      obtain ⟨s', hstep, hfits⟩ := mainPass_runs hs pass
      rw [run_cons, hstep]
      exact ih s' hfits

/-- The loop runs through any passes, and all of them keep the list exactly if
in each of them no read before the last one fails with `EAGAIN`. -/
theorem passes_kept_iff (passes : List Pass) :
    (∃ s', run mainPass .start passes = some s') ∧
      (EveryState mainPass LoopState.PassKept .start passes ↔
        EveryStep mainPass OnlyLastAgain .start passes) :=
  ⟨mainPass_run_completes passes .start invariant_start.fits,
    everyState_iff_everyStep invariant_start (fun _ hs => hs.passKept)
      (fun _ _ _ hs hpass hstep => invariant_mainPass hs hpass hstep)
      (fun _ _ _ hs hstep hs' => onlyLastAgain_of_passKept hs hstep hs') passes⟩

/-- Two descriptors become ready, the first of them has nothing to read. -/
theorem second_of_two_not_read :
    ∃ s', run mainPass .start
        [{ eventReady := [⟨1, 3⟩, ⟨1, 4⟩]
           ready_le := by decide
           numread := fun i => if i = 0 then .error EAGAIN else .bytes 4
           addJunk := fun _ _ => ⟨0, 0⟩
           removeJunk := fun _ _ => ⟨0, 0⟩ }] = some s' ∧
      s'.reads = [(3, .error EAGAIN)] ∧ s'.readyFds.listed = [⟨0, 0⟩] ∧ ¬ s'.PassKept := by
  refine ⟨_, rfl, rfl, rfl, fun h => ?_⟩
  exact absurd h.readOnce.length_eq (by decide)

end StudyLinuxKernel.Epoll.EventLoop
