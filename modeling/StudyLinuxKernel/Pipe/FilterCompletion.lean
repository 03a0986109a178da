import StudyLinuxKernel.Library.StepBound
import StudyLinuxKernel.Pipe.Filter

namespace StudyLinuxKernel.Pipe.FilterCompletion

open StudyLinuxKernel.Libc.Text
open StudyLinuxKernel.Library.DescriptorTable
open StudyLinuxKernel.Library.PartialStep
open StudyLinuxKernel.Library.StepBound
open StudyLinuxKernel.Pipe.Filter

variable {open_ : Table Nat} {pfd : Pfd} {program : Program} {listing : Bytes} {capacity : Nat}
  {s s' : System} {child child' : Child}

/-- What holds in addition where no call fails. -/
structure Untroubled (s : System) : Prop where
  parent : s.place ≠ .failed
  children : ∀ program child, s.children program = some child → child.place ≠ .failed

theorem redirecting_of_regular {action : Action} (h : Regular action) : Redirecting action := by
  rcases action with action | ⟨program, action⟩
  · trivial
  · cases action with
    | dup2 ok => exact h
    | _ => trivial

theorem holds_iff (s : System) (file : File) :
    s.holds file = true ↔ s.table.holds file = true ∨
      ∃ program child, s.children program = some child ∧ child.table.holds file = true := by
  rw [System.holds, Bool.or_eq_true, List.any_eq_true]
  refine or_congr_right ⟨?_, ?_⟩
  · rintro ⟨program, _, hholds⟩
    rcases hchild : s.children program with - | child
    · rw [hchild] at hholds
      cases hholds
    · rw [hchild] at hholds
      exact ⟨program, child, hchild, hholds⟩
  · rintro ⟨program, child, hchild, hholds⟩
    refine ⟨program, ?_, ?_⟩
    · cases program with
      | ls => exact List.mem_cons_self
      | wc => exact List.mem_cons_of_mem _ List.mem_cons_self
    · rw [hchild]
      exact hholds

theorem live_of_not_exited {place : ChildPlace} (hended : place ≠ .ended)
    (hfailed : place ≠ .failed) : place.rank < 6 := by
  rcases place with - | - | - | - | - | - | -
  case ended => exact absurd rfl hended
  case failed => exact absurd rfl hfailed
  all_goals decide

theorem readers_of_ls (hplaced : Placed open_ s) (hflows : Flows listing s) (h : Untroubled s)
    {ls : Child} (hls : s.children .ls = some ls) (hlive : ls.place.Exited = false) :
    s.holds .readEnd = true := by
  have hfresh := hplaced.fresh_of_child hls
  rw [holds_iff]
  have hparent : s.table.entries = piped open_ s.pfd → s.table.holds .readEnd = true := by
    intro htable
    rw [Table.holds_iff, htable]
    exact ⟨s.pfd.read, piped_own hfresh .wc⟩
  have hwc : s.place.Forked → ∃ program child, s.children program = some child ∧
      child.table.holds .readEnd = true := by
    intro hforked
    rcases Option.ne_none_iff_exists'.mp (hplaced.forked hforked .wc) with ⟨wc, hwc⟩
    refine ⟨.wc, wc, hwc, (hplaced.inherits .wc wc hwc).own hfresh ?_⟩
    refine live_of_not_exited (fun hended => ?_) (h.children .wc wc hwc)
    rw [(hflows.wcEnded wc hwc hended).2 ls hls] at hlive
    cases hlive
  have htable := hplaced.table
  rcases hplace : s.place with - | - | - | - | - | - | - | -
  all_goals rw [hplace] at htable hwc
  · rw [hplaced.unforked (Or.inl hplace)] at hls
    cases hls
  · exact Or.inl (hparent htable)
  · exact Or.inl (hparent htable)
  · exact Or.inl (hparent htable)
  · exact Or.inr (hwc trivial)
  · exact Or.inr (hwc trivial)
  · exact Or.inr (hwc trivial)
  · exact absurd hplace h.parent

theorem close_ne_none (hplaced : Placed open_ s) :
    (s.place = .closingRead → s.table.close s.pfd.read ≠ none) ∧
      (s.place = .closingWrite → s.table.close s.pfd.write ≠ none) := by
  have htable := hplaced.table
  have hfresh := hplaced.fresh
  constructor
  · intro hplace
    rw [hplace] at htable hfresh
    have hpfd := hfresh.resolve_right (by
      rintro ⟨_, hnot | hnot⟩ <;> cases hnot)
    rcases Table.entries_close ((congrFun htable _).trans (piped_own hpfd .wc)) with ⟨_, hclose, _⟩
    rw [Pfd.own] at hclose
    rw [hclose]
    nofun
  · intro hplace
    rw [hplace] at htable hfresh
    have hpfd := hfresh.resolve_right (by
      rintro ⟨_, hnot | hnot⟩ <;> cases hnot)
    have hwrite : s.table.entries s.pfd.write = some .writeEnd := by
      rw [htable]
      exact (Function.update_of_ne hpfd.ne.symm _ _).trans (piped_own hpfd .ls)
    rcases Table.entries_close hwrite with ⟨_, hclose, _⟩
    rw [hclose]
    nofun

theorem Untroubled.setChild (h : Untroubled s) (hplace : child'.place ≠ .failed) :
    Untroubled (s.setChild program child') where
  parent := h.parent
  children := fun q c hc => by
    rcases children_setChild hc with ⟨_, rfl⟩ | ⟨_, hold⟩
    · exact hplace
    · exact h.children q c hold

theorem Untroubled.parentMoves {action : ParentAction} (h : Untroubled s)
    (hplaced : Placed open_ s) (hregular : Regular (.parent action))
    (hmoves : ParentMoves s action s') : Untroubled s' := by
  cases hmoves with
  | piped _ => exact ⟨nofun, h.children⟩
  | forkedLs _ => exact ⟨nofun, (h.setChild (by exact nofun)).children⟩
  | forkedWc _ => exact ⟨nofun, (h.setChild (by exact nofun)).children⟩
  | closedRead _ _ _ => exact ⟨nofun, h.children⟩
  | closedWrite _ _ _ => exact ⟨nofun, h.children⟩
  | waited _ _ _ _ _ => exact ⟨nofun, h.children⟩
  | failed _ _ hcause =>
      rcases hcause with hnot | ⟨hplace, hclose⟩ | ⟨hplace, hclose⟩
      · exact absurd hregular hnot
      · exact absurd hclose ((close_ne_none hplaced).1 hplace)
      · exact absurd hclose ((close_ne_none hplaced).2 hplace)

theorem Untroubled.childMoves {action : ChildAction} (h : Untroubled s)
    (hplaced : Placed open_ s) (hflows : Flows listing s)
    (hchild : s.children program = some child) (hregular : Regular (.child program action))
    (hmoves : ChildMoves listing s child program action s') : Untroubled s' := by
  have hplace := h.children program child hchild
  have hfresh := hplaced.fresh_of_child hchild
  have hinherits := hplaced.inherits program child hchild
  cases hmoves with
  | closed _ ok child' hclose =>
      obtain rfl : ok = true := hregular
      exact h.setChild (prepared_of_closeEnd hfresh hinherits hclose).not_failed
  | redirected _ ok child' hredirect =>
      obtain rfl : ok = true := hregular
      exact h.setChild (prepared_of_redirect hfresh hinherits hredirect).not_failed
  | execed _ _ => exact h.setChild nofun
  | execFailed _ _ => cases hregular
  | wrote n _ _ _ =>
      have hset : Untroubled (s.setChild .ls { child with
          data := child.data ++ (listing.drop child.data.length).take n }) := h.setChild hplace
      exact { hset with }
  | broken hconnected hreaders =>
      rw [readers_of_ls hplaced hflows h hchild (not_exited_of_connected hconnected)] at hreaders
      cases hreaders
  | read n _ _ _ =>
      have hset : Untroubled (s.setChild .wc { child with
          data := child.data ++ s.pipe.take n }) := h.setChild hplace
      exact { hset with }
  | lsEnded _ _ => exact h.setChild nofun
  | wcEnded _ _ _ => exact h.setChild nofun

theorem untroubled_of_run (open_ : Table Nat) {actions : List Action}
    (hregular : EveryStep (step listing capacity) (fun _ action => Regular action)
      (.start open_) actions)
    (hrun : run (step listing capacity) (.start open_) actions = some s) :
    (Placed open_ s ∧ Flows listing s) ∧ Untroubled s := by
  have hinv : EveryState (step listing capacity)
      (fun s => (Placed open_ s ∧ Flows listing s) ∧ Untroubled s) (.start open_) actions := by
    refine invariant_of_everyStep ⟨⟨placed_start open_, flows_start open_ listing⟩, nofun, nofun⟩
      ?_ hregular
    rintro s action s' ⟨⟨hplaced, hflows⟩, h⟩ hregular hstep
    refine ⟨step_invariant hplaced hflows (redirecting_of_regular hregular) hstep, ?_⟩
    cases action with
    | parent action => exact h.parentMoves hplaced hregular (moves_of_parentStep hstep)
    | child program action =>
        rcases Option.bind_eq_some_iff.mp hstep with ⟨child, hchild, hchildStep⟩
        exact h.childMoves hplaced hflows hchild hregular (moves_of_childStep hchildStep)
  exact hinv.reached hrun

/-- No process can go on without a failure. -/
def Stuck (listing : Bytes) (capacity : Nat) (s : System) : Prop :=
  ∀ action, Regular action → step listing capacity s action = none

structure Completed (listing : Bytes) (s : System) : Prop where
  parent : s.place = .ended
  ls : ∃ ls, s.children .ls = some ls ∧ ls.place = .ended
  wc : ∃ wc, s.children .wc = some wc ∧ wc.place = .ended ∧ wc.data = listing

theorem place_of_stuck (h : Untroubled s) (hstuck : Stuck listing capacity s) :
    s.place = .waiting ∨ s.place = .ended := by
  rcases hplace : s.place with - | - | - | - | - | - | - | -
  · have hnone := hstuck (.parent (.pipe true)) rfl
    rw [step, parentStep, hplace] at hnone
    cases hnone
  · have hnone := hstuck (.parent (.fork true)) rfl
    rw [step, parentStep, hplace] at hnone
    cases hnone
  · have hnone := hstuck (.parent (.fork true)) rfl
    rw [step, parentStep, hplace] at hnone
    cases hnone
  · have hnone := hstuck (.parent (.close true)) rfl
    rw [step, parentStep, hplace] at hnone
    dsimp only at hnone
    split at hnone <;> cases hnone
  · have hnone := hstuck (.parent (.close true)) rfl
    rw [step, parentStep, hplace] at hnone
    dsimp only at hnone
    split at hnone <;> cases hnone
  · exact Or.inl rfl
  · exact Or.inr rfl
  · exact absurd hplace h.parent

theorem child_of_stuck (hplaced : Placed open_ s) (h : Untroubled s)
    (hstuck : Stuck listing capacity s) (hchild : s.children program = some child) :
    child.Connected program ∨ child.place = .ended := by
  have hstep : ∀ action, Regular (.child program action) →
      childStep listing capacity s program child action = none := by
    intro action hregular
    have hnone := hstuck (.child program action) hregular
    rw [step, hchild] at hnone
    exact hnone
  have hinherits := hplaced.inherits program child hchild
  have hclose : (closeEnd true s.pfd program child).isSome = false := by
    have hnone := hstep (.close true) rfl
    rw [childStep, Option.map_eq_none_iff] at hnone
    rw [hnone]
    rfl
  rcases hplace : child.place with - | - | - | - | - | - | -
  case closingOther =>
    rw [closeEnd, hplace] at hclose
    dsimp only at hclose
    split at hclose <;> cases hclose
  case closingOwn =>
    rw [closeEnd, hplace] at hclose
    dsimp only at hclose
    split at hclose <;> cases hclose
  case duplicating =>
    have hnone := hstep (.dup2 true) rfl
    rw [childStep, redirect, hplace] at hnone
    cases hnone
  case execing =>
    have hnone := hstep (.exec true) rfl
    rw [childStep, if_pos hplace] at hnone
    cases hnone
  case running =>
    refine Or.inl ⟨hplace, ?_⟩
    rw [hinherits.entries, hplace]
    exact Function.update_self _ _ _
  case ended => exact Or.inr rfl
  case failed => exact absurd hplace (h.children program child hchild)

/-- When the parent has closed its ends, only `ls` holds up the end of the pipe. -/
theorem writers_of_ls_ended (hplaced : Placed open_ s)
    (hplace : s.place = .waiting ∨ s.place = .ended)
    {ls wc : Child} (hls : s.children .ls = some ls) (hwc : s.children .wc = some wc)
    (hended : ls.place = .ended) (hrunning : wc.place = .running) :
    s.holds .writeEnd = false := by
  rw [Bool.eq_false_iff, Ne, holds_iff]
  rintro (htable | ⟨program, child, hchild, hholds⟩)
  · rcases (Table.holds_iff _ _).mp htable with ⟨fd, hfd⟩
    rw [hplaced.table] at hfd
    rcases hplace with hplace | hplace
    · rw [hplace] at hfd
      exact base_ne open_ fd .ls hfd
    · rw [hplace] at hfd
      cases hfd
  · rcases (Table.holds_iff _ _).mp hholds with ⟨fd, hfd⟩
    rw [(hplaced.inherits program child hchild).entries] at hfd
    cases program with
    | ls =>
        obtain rfl := Option.some.inj (hchild.symm.trans hls)
        rw [hended] at hfd
        cases hfd
    | wc =>
        obtain rfl := Option.some.inj (hchild.symm.trans hwc)
        rw [hrunning, childEntries, Function.update_apply] at hfd
        split at hfd
        · cases hfd
        · exact base_ne open_ fd .ls hfd

theorem ls_of_stuck (hplaced : Placed open_ s) (hflows : Flows listing s) (h : Untroubled s)
    (hcapacity : 0 < capacity) (hstuck : Stuck listing capacity s) (hpipe : s.pipe = [])
    {ls : Child} (hls : s.children .ls = some ls) : ls.place = .ended := by
  rcases child_of_stuck hplaced h hstuck hls with hconnected | hended
  case inr => exact hended
  have hdata : s.data .ls = ls.data := by
    rw [System.data, hls]
    rfl
  have hle : ls.data.length ≤ listing.length := by
    rw [← hdata, hflows.written, List.length_take]
    exact Nat.min_le_right _ _
  rcases Nat.lt_or_eq_of_le hle with hless | heq
  · have hnone := hstuck (.child .ls (.write 1)) trivial
    have hroom : Program.ls = .ls ∧ ls.Connected .ls ∧ 0 < 1 ∧
        ls.data.length + 1 ≤ listing.length ∧ s.pipe.length + 1 ≤ capacity ∧
        s.holds .readEnd = true := by
      refine ⟨rfl, hconnected, Nat.one_pos, hless, ?_, ?_⟩
      · rw [hpipe]
        exact hcapacity
      · exact readers_of_ls hplaced hflows h hls (not_exited_of_connected hconnected)
    rw [step, hls] at hnone
    exact absurd ((if_pos hroom).symm.trans hnone) (Option.some_ne_none _)
  · have hnone := hstuck (.child .ls .finish) trivial
    rw [step, hls] at hnone
    exact absurd ((if_pos ⟨hconnected, heq⟩).symm.trans hnone) (Option.some_ne_none _)

theorem completed_of_invariant (hplaced : Placed open_ s) (hflows : Flows listing s)
    (h : Untroubled s) (hcapacity : 0 < capacity) (hstuck : Stuck listing capacity s) :
    Completed listing s := by
  have hplace := place_of_stuck h hstuck
  have hforked : s.place.Forked := by
    rcases hplace with hplace | hplace
    · rw [hplace]
      trivial
    · rw [hplace]
      trivial
  rcases Option.ne_none_iff_exists'.mp (hplaced.forked hforked .ls) with ⟨ls, hls⟩
  rcases Option.ne_none_iff_exists'.mp (hplaced.forked hforked .wc) with ⟨wc, hwc⟩
  have hwcEnded : wc.place = .ended := by
    rcases child_of_stuck hplaced h hstuck hwc with hconnected | hended
    case inr => exact hended
    have hpipe : s.pipe = [] := by
      by_contra hpipe
      have hnone := hstuck (.child .wc (.read 1)) trivial
      rw [step, hwc] at hnone
      have hsome : Program.wc = .wc ∧ wc.Connected .wc ∧ 0 < 1 ∧ 1 ≤ s.pipe.length :=
        ⟨rfl, hconnected, Nat.one_pos, List.length_pos_of_ne_nil hpipe⟩
      exact absurd ((if_pos hsome).symm.trans hnone) (Option.some_ne_none _)
    have hlsEnded := ls_of_stuck hplaced hflows h hcapacity hstuck hpipe hls
    have hwriters := writers_of_ls_ended hplaced hplace hls hwc hlsEnded hconnected.1
    have hnone := hstuck (.child .wc .finish) trivial
    rw [step, hwc] at hnone
    exact absurd ((if_pos ⟨hconnected, hpipe, hwriters⟩).symm.trans hnone) (Option.some_ne_none _)
  obtain ⟨hpipe, hexited⟩ := hflows.wcEnded wc hwc hwcEnded
  have hlsEnded := ls_of_stuck hplaced hflows h hcapacity hstuck hpipe hls
  refine ⟨?_, ⟨ls, hls, hlsEnded⟩, wc, hwc, hwcEnded, ?_⟩
  · rcases hplace with hplace | hplace
    · have hnone := hstuck (.parent .wait) trivial
      rw [step, parentStep, hplace] at hnone
      have hany : ([Program.ls, .wc].any fun program =>
          ((s.children program).map fun child => child.place.Exited).getD false) = true := by
        rw [List.any_eq_true]
        refine ⟨.ls, List.mem_cons_self, ?_⟩
        rw [hls]
        exact hexited ls hls
      exact absurd ((if_pos hany).symm.trans hnone) (Option.some_ne_none _)
    · exact hplace
  · have hconserved := hflows.conserved
    rw [hpipe, List.append_nil, System.data, System.data, hls, hwc] at hconserved
    exact hconserved.symm.trans (hflows.lsEnded ls hls hlsEnded)

def childRank (s : System) (program : Program) : Nat :=
  ((s.children program).map fun child => child.place.rank).getD 0

def rank (s : System) : Nat :=
  s.place.rank + childRank s .ls + childRank s .wc + (s.data .ls).length + (s.data .wc).length

/-- The part of the rank that belongs to a child. -/
def share (s : System) (program : Program) : Nat :=
  childRank s program + (s.data program).length

theorem rank_eq (s : System) : rank s = s.place.rank + share s .ls + share s .wc := by
  rw [rank, share, share]
  omega

theorem share_of_child (hchild : s.children program = some child) :
    share s program = child.place.rank + child.data.length := by
  rw [share, childRank, System.data, hchild]
  rfl

theorem rank_setChild (hchild : s.children program = some child)
    (hmore : child.place.rank + child.data.length < child'.place.rank + child'.data.length) :
    rank s + 1 ≤ rank (s.setChild program child') := by
  have hself := share_of_child (children_setChild_self s program child')
  have hold := share_of_child hchild
  have hother : ∀ q, q ≠ program → share (s.setChild program child') q = share s q := by
    intro q hq
    rw [share, share, childRank, childRank, data_setChild_of_ne hq,
      children_setChild_of_ne hq]
  have hplace : (s.setChild program child').place = s.place := rfl
  rw [rank_eq, rank_eq, hplace]
  cases program with
  | ls =>
      rw [hother .wc (by decide)]
      omega
  | wc =>
      rw [hother .ls (by decide)]
      omega

theorem rank_childMoves {action : ChildAction} (hplaced : Placed open_ s)
    (hchild : s.children program = some child) (hregular : Regular (.child program action))
    (hmoves : ChildMoves listing s child program action s') : rank s + 1 ≤ rank s' := by
  have hfresh := hplaced.fresh_of_child hchild
  have hinherits := hplaced.inherits program child hchild
  have hprepared : ∀ ok child', Prepared open_ s.pfd program ok child child' →
      rank s + 1 ≤ rank (s.setChild program child') := by
    intro ok child' h
    refine rank_setChild hchild ?_
    rw [h.data]
    exact Nat.add_lt_add_right h.later _
  have hexit : ∀ place, place = .ended ∨ place = .failed → child.place.rank < 6 →
      rank s + 1 ≤ rank (s.setChild program (child.exit place)) := by
    rintro place (rfl | rfl) hlive
    · exact rank_setChild hchild (Nat.add_lt_add_right hlive _)
    · exact rank_setChild hchild (Nat.add_lt_add_right hlive _)
  cases hmoves with
  | closed _ ok child' hclose =>
      exact hprepared _ _ (prepared_of_closeEnd hfresh hinherits hclose)
  | redirected _ ok child' hredirect =>
      obtain rfl : ok = true := hregular
      exact hprepared _ _ (prepared_of_redirect hfresh hinherits hredirect)
  | execed _ hplace =>
      refine rank_setChild hchild (Nat.add_lt_add_right ?_ _)
      rw [hplace]
      exact Nat.lt_succ_self 4
  | execFailed _ hplace => exact hexit _ (Or.inr rfl) (by rw [hplace]; decide)
  | wrote n _ hpos hle =>
      have hmore : child.data.length <
          (child.data ++ (listing.drop child.data.length).take n).length := by
        rw [List.length_append, List.length_take, List.length_drop]
        omega
      have hset := @rank_setChild .ls s child { child with
        data := child.data ++ (listing.drop child.data.length).take n } hchild
        (Nat.add_lt_add_left hmore _)
      exact hset
  | broken hconnected _ => exact hexit _ (Or.inr rfl) (by rw [hconnected.1]; decide)
  | read n _ hpos hle =>
      have hmore : child.data.length < (child.data ++ s.pipe.take n).length := by
        rw [List.length_append, List.length_take]
        omega
      have hset := @rank_setChild .wc s child { child with
        data := child.data ++ s.pipe.take n } hchild (Nat.add_lt_add_left hmore _)
      exact hset
  | lsEnded hconnected _ => exact hexit _ (Or.inl rfl) (by rw [hconnected.1]; decide)
  | wcEnded hconnected _ _ => exact hexit _ (Or.inl rfl) (by rw [hconnected.1]; decide)

theorem rank_fork (hnone : s.children program = none) {place : ParentPlace}
    (hplace : s.place.rank ≤ place.rank) : rank s + 1 ≤ rank (s.fork program place) := by
  have hself : share (s.fork program place) program = 1 :=
    share_of_child (children_setChild_self s program _)
  have hold : share s program = 0 := by
    rw [share, childRank, System.data, hnone]
    rfl
  have hother : ∀ q, q ≠ program → share (s.fork program place) q = share s q := by
    intro q hq
    change share (s.setChild program _) q = _
    rw [share, share, childRank, childRank, data_setChild_of_ne hq,
      children_setChild_of_ne hq]
  have hparent : (s.fork program place).place = place := rfl
  rw [rank_eq, rank_eq, hparent]
  cases program with
  | ls =>
      rw [hother .wc (by decide)]
      omega
  | wc =>
      rw [hother .ls (by decide)]
      omega

theorem rank_parentMoves {action : ParentAction} (hplaced : Placed open_ s)
    (hmoves : ParentMoves s action s') : rank s + 1 ≤ rank s' := by
  have hplaces : ∀ {place place'}, s.place = place → s'.place = place' →
      place.rank < place'.rank → s'.children = s.children → rank s + 1 ≤ rank s' := by
    intro place place' hplace hplace' hless hchildren
    rw [rank, rank, childRank, childRank, childRank,
      childRank, System.data, System.data, System.data, System.data, hchildren, hplace,
      hplace']
    omega
  cases hmoves with
  | piped hplace => exact hplaces hplace rfl (Nat.lt_succ_self _) rfl
  | forkedLs hplace =>
      exact rank_fork (hplaced.unforked (Or.inr hplace) .ls) (by rw [hplace]; decide)
  | forkedWc hplace =>
      exact rank_fork (hplaced.forkedLs hplace).1 (by rw [hplace]; decide)
  | closedRead _ hplace _ => exact hplaces hplace rfl (Nat.lt_succ_self _) rfl
  | closedWrite _ hplace _ => exact hplaces hplace rfl (Nat.lt_succ_self _) rfl
  | waited _ _ hplace _ _ => exact hplaces hplace rfl (Nat.lt_succ_self _) rfl
  | failed _ hlive _ => exact hplaces rfl rfl (Nat.lt_trans hlive (Nat.lt_succ_self 5)) rfl

theorem rank_le (h : Flows listing s) : rank s ≤ 2 * listing.length + 18 := by
  have hparent : s.place.rank ≤ 6 := by
    cases s.place <;> decide
  have hchild : ∀ program, childRank s program ≤ 6 := by
    intro program
    rw [childRank]
    rcases s.children program with - | child
    · exact Nat.zero_le 6
    · change child.place.rank ≤ 6
      cases child.place <;> decide
  have hls := hchild .ls
  have hwc := hchild .wc
  have hwritten : (s.data .ls).length ≤ listing.length := by
    rw [h.written, List.length_take]
    exact Nat.min_le_right _ _
  have hread := congrArg List.length h.conserved
  rw [List.length_append] at hread
  rw [rank]
  omega

/-- Where no call fails, no process waits for ever, and the parent waits for one of
its two children. -/
theorem filter_completes (open_ : Table Nat) (listing : Bytes) (capacity : Nat)
    (hcapacity : 0 < capacity) (actions : List Action) (s : System)
    (hregular : EveryStep (step listing capacity) (fun _ action => Regular action)
      (.start open_) actions)
    (hrun : run (step listing capacity) (.start open_) actions = some s) :
    (Stuck listing capacity s → Completed listing s) ∧
      actions.length ≤ 2 * listing.length + 18 := by
  rcases untroubled_of_run open_ hregular hrun with ⟨⟨hplaced, hflows⟩, h⟩
  refine ⟨completed_of_invariant hplaced hflows h hcapacity, ?_⟩
  have hlength : rank (System.start open_) + actions.countP (fun _ => true) ≤ rank s :=
    @countP_le_rank_of_everyStep _ _ (step listing capacity)
      (fun s => Placed open_ s ∧ Flows listing s) (fun _ action => Regular action) rank
      (fun _ => true)
      (fun _ _ _ h hregular hstep =>
        step_invariant h.1 h.2 (redirecting_of_regular hregular) hstep)
      (fun s a s' h hregular hstep => by
        cases a with
        | parent action => exact rank_parentMoves h.1 (moves_of_parentStep hstep)
        | child program action =>
            rcases Option.bind_eq_some_iff.mp hstep with ⟨child, hchild, hchildStep⟩
            exact rank_childMoves h.1 hchild hregular (moves_of_childStep hchildStep)) actions _ _
      ⟨placed_start open_, flows_start open_ listing⟩ hregular hrun
  have hbound := rank_le hflows
  rw [List.countP_true] at hlength
  omega

theorem stuck_of_exited (hparent : s.place = .ended)
    (hchildren : ∀ program child, s.children program = some child → child.place.Exited = true) :
    Stuck listing capacity s := by
  intro action _
  rcases action with action | ⟨program, action⟩
  · cases action <;> rw [step, parentStep, hparent]
  · rw [step]
    rcases hchild : s.children program with - | child
    · rfl
    · have hexited := hchildren program child hchild
      have hplace : child.place = .ended ∨ child.place = .failed := by
        rcases hplace : child.place with - | - | - | - | - | - | -
        case ended => exact Or.inl rfl
        case failed => exact Or.inr rfl
        all_goals
          rw [hplace] at hexited
          cases hexited
      have hnot : ∀ q, ¬ child.Connected q := fun q hconnected => by
        rw [not_exited_of_connected hconnected] at hexited
        cases hexited
      change childStep listing capacity s program child action = none
      rcases hplace with hplace | hplace
      all_goals
        cases action with
        | finish => cases program <;> simp [childStep, hnot]
        | _ => simp [childStep, closeEnd, redirect, hplace, hnot]

theorem filter_completes_session : ∃ s,
    run (step (literal "a\n") 1) (.start shell) session = some s ∧
      Completed (literal "a\n") s ∧ session.length ≤ 2 * (literal "a\n").length + 18 := by
  have hregular : ∀ action ∈ session, Regular action := by
    simp [session, Regular]
  refine ⟨_, rfl, ?_⟩
  have h := filter_completes shell (literal "a\n") 1 Nat.one_pos session _
    (everyStep_of_forall (fun action haction _ => hregular action haction) _) rfl
  refine ⟨h.1 (stuck_of_exited rfl ?_), h.2⟩
  rintro (- | -) child hchild
  · obtain rfl := Option.some.inj hchild
    rfl
  · obtain rfl := Option.some.inj hchild
    rfl

end StudyLinuxKernel.Pipe.FilterCompletion
