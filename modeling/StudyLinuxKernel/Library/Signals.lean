import Mathlib.Data.List.Nodup
import Mathlib.Logic.Function.Basic

/-!
Signals of a process: those that are blocked, those that are pending, and the
handlers that have interrupted each other.  `blocks s t` says that `t` is blocked
while the handler of `s` runs, and `capacity s` is how many signals `s` can be
pending: one where they are merged, and what the limit leaves where they are queued.
-/

namespace StudyLinuxKernel.Library.Signals

variable {S B : Type*}

/-- A handler that has not returned: the mask that it restores, and where it is. -/
structure Frame (S B : Type*) where
  signal : S
  saved : S → Bool
  body : B

/-- `waiting` is the mask to come back to where the process is suspended. -/
structure Process (S B : Type*) where
  mask : S → Bool
  pending : S → Nat
  frames : List (Frame S B)
  waiting : Option (S → Bool)
  sent : S → Nat
  handled : S → Nat

def Process.start (S B : Type*) : Process S B where
  mask := fun _ => false
  pending := fun _ => 0
  frames := []
  waiting := none
  sent := fun _ => 0
  handled := fun _ => 0

/-- The signal is sent to the process, and lost if no more of its kind can be pending. -/
def Process.generate [DecidableEq S] (capacity : S → Nat) (p : Process S B) (s : S) :
    Process S B :=
  { p with
    pending := Function.update p.pending s (min (p.pending s + 1) (capacity s))
    sent := Function.update p.sent s (p.sent s + 1) }

def Process.Deliverable (p : Process S B) (s : S) : Prop := 0 < p.pending s ∧ p.mask s = false

instance (p : Process S B) (s : S) : Decidable (p.Deliverable s) :=
  inferInstanceAs (Decidable (_ ∧ _))

/-- The handler of a signal that is pending and not blocked is entered; it ends the
suspension of the process. -/
def Process.deliver [DecidableEq S] (blocks : S → S → Bool) (body : B) (p : Process S B)
    (s : S) : Option (Process S B) :=
  if p.Deliverable s then
    some { p with
      mask := fun t => p.mask t || blocks s t
      pending := Function.update p.pending s (p.pending s - 1)
      frames := { signal := s, saved := p.waiting.getD p.mask, body := body } :: p.frames
      waiting := none
      handled := Function.update p.handled s (p.handled s + 1) }
  else none

theorem Process.Deliverable.idle {p : Process S B} {s : S} (h : p.Deliverable s)
    (hsingle : p.frames = [] ∨ p.mask s = true) : p.frames = [] := by
  rcases hsingle with hidle | hmask
  · exact hidle
  · obtain ⟨_, hopen⟩ := h
    rw [hmask] at hopen
    cases hopen

theorem Process.only_frame {p : Process S B} {Q : Prop}
    (hsingle : p.frames = [] ∨ ∃ frame, p.frames = [frame] ∧ Q) {frame : Frame S B}
    {frames : List (Frame S B)} (hframes : p.frames = frame :: frames) : frames = [] ∧ Q := by
  rcases hsingle with hidle | ⟨running, hrunning, hmask⟩
  · rw [hidle] at hframes
    cases hframes
  · exact ⟨(List.cons.inj (hframes.symm.trans hrunning)).2, hmask⟩

/-- The handler that was entered last returns. -/
def Process.sigreturn (p : Process S B) : Option (Process S B) :=
  match p.frames with
  | [] => none
  | frame :: frames => some { p with mask := frame.saved, frames := frames }

def Process.setMask (p : Process S B) (mask : S → Bool) : Process S B := { p with mask := mask }

/-- `sigsuspend`, and `pause` with the mask that is set. -/
def Process.suspend (p : Process S B) (mask : S → Bool) : Process S B :=
  { p with mask := mask, waiting := some p.mask }

/-- Each handler was entered with its signal not blocked, and blocks what it has to
on top of what was blocked. -/
inductive Stacked (blocks : S → S → Bool) : (S → Bool) → List (Frame S B) → Prop
  | main (mask : S → Bool) : Stacked blocks mask []
  | handler {mask : S → Bool} {frame : Frame S B} {frames : List (Frame S B)}
      (below : Stacked blocks mask frames) (open_ : mask frame.signal = false)
      (saved : frames = [] ∨ frame.saved = mask) :
      Stacked blocks (fun t => mask t || blocks frame.signal t) (frame :: frames)

variable {blocks : S → S → Bool} {capacity : S → Nat}

theorem Stacked.masked {mask : S → Bool} {frames : List (Frame S B)}
    (h : Stacked blocks mask frames) {frame : Frame S B} (hframe : frame ∈ frames) {t : S}
    (ht : blocks frame.signal t = true) : mask t = true := by
  induction h with
  | main mask => cases hframe
  | handler below open_ saved ih =>
      change (_ || _) = true
      rcases List.mem_cons.mp hframe with rfl | hbelow
      · rw [ht, Bool.or_true]
      · rw [ih hbelow, Bool.true_or]

theorem Stacked.not_blocked {mask : S → Bool} {frames : List (Frame S B)}
    (h : Stacked blocks mask frames) {s : S} (hs : mask s = false) {frame : Frame S B}
    (hframe : frame ∈ frames) : blocks frame.signal s = false := by
  rw [Bool.eq_false_iff]
  intro hblocks
  rw [h.masked hframe hblocks] at hs
  cases hs

/-- Of the handlers that have interrupted each other, none blocks the signal of one
that was entered later. -/
theorem Stacked.pairwise {mask : S → Bool} {frames : List (Frame S B)}
    (h : Stacked blocks mask frames) :
    (frames.map Frame.signal).Pairwise fun later earlier => blocks earlier later = false := by
  induction h with
  | main mask => exact List.Pairwise.nil
  | handler below open_ saved ih =>
      rw [List.map_cons, List.pairwise_cons]
      refine ⟨fun s hs => ?_, ih⟩
      rcases List.mem_map.mp hs with ⟨frame, hframe, rfl⟩
      exact below.not_blocked open_ hframe

theorem Stacked.nodup {mask : S → Bool} {frames : List (Frame S B)}
    (h : Stacked blocks mask frames) (hself : ∀ s, blocks s s = true) :
    (frames.map Frame.signal).Nodup := by
  refine h.pairwise.imp fun {later earlier} hopen => ?_
  rintro rfl
  rw [hself] at hopen
  cases hopen

theorem Process.deliver_eq_some [DecidableEq S] {body : B} {p p' : Process S B} {s : S}
    (h : p.deliver blocks body s = some p') :
    p.Deliverable s ∧ p' = { p with
      mask := fun t => p.mask t || blocks s t
      pending := Function.update p.pending s (p.pending s - 1)
      frames := { signal := s, saved := p.waiting.getD p.mask, body := body } :: p.frames
      waiting := none
      handled := Function.update p.handled s (p.handled s + 1) } := by
  rw [deliver] at h
  split at h
  · rename_i hdeliverable
    exact ⟨hdeliverable, (Option.some.inj h).symm⟩
  · cases h

/-- What is pending turns into what is handled. -/
theorem Process.handled_add_pending_deliver [DecidableEq S] {body : B} {p p' : Process S B}
    {s : S} (h : p.deliver blocks body s = some p') (t : S) :
    p'.handled t + p'.pending t = p.handled t + p.pending t := by
  obtain ⟨⟨hpending, _⟩, rfl⟩ := Process.deliver_eq_some h
  change Function.update p.handled s (p.handled s + 1) t +
    Function.update p.pending s (p.pending s - 1) t = _
  rcases Decidable.em (t = s) with rfl | hne
  · rw [Function.update_self, Function.update_self]
    omega
  · rw [Function.update_of_ne hne, Function.update_of_ne hne]

theorem Process.sigreturn_eq_some {p p' : Process S B} (h : p.sigreturn = some p') :
    ∃ frame frames, p.frames = frame :: frames ∧
      p' = { p with mask := frame.saved, frames := frames } := by
  rw [sigreturn] at h
  split at h
  · cases h
  · rename_i frame frames hframes
    exact ⟨frame, frames, hframes, (Option.some.inj h).symm⟩

theorem Stacked.deliver [DecidableEq S] {body : B} {p p' : Process S B} {s : S}
    (h : Stacked blocks p.mask p.frames) (hwaiting : p.frames = [] ∨ p.waiting = none)
    (hdeliver : p.deliver blocks body s = some p') : Stacked blocks p'.mask p'.frames := by
  obtain ⟨⟨_, hopen⟩, rfl⟩ := Process.deliver_eq_some hdeliver
  refine @Stacked.handler _ _ blocks p.mask
    { signal := s, saved := p.waiting.getD p.mask, body := body } p.frames h hopen ?_
  rcases hwaiting with hmain | hrunning
  · exact Or.inl hmain
  · refine Or.inr ?_
    change p.waiting.getD p.mask = p.mask
    rw [hrunning]
    rfl

theorem Stacked.moved {mask : S → Bool} {frame : Frame S B} {frames : List (Frame S B)}
    (h : Stacked blocks mask (frame :: frames)) (body : B) :
    Stacked blocks mask ({ frame with body := body } :: frames) := by
  cases h with
  | handler below open_ saved =>
      exact @Stacked.handler _ _ blocks _ { frame with body := body } frames below open_ saved

theorem Stacked.returned {mask : S → Bool} {frame : Frame S B} {frames : List (Frame S B)}
    (h : Stacked blocks mask (frame :: frames)) : Stacked blocks frame.saved frames := by
  cases h with
  | handler below open_ saved =>
      rcases saved with rfl | hsaved
      · exact .main frame.saved
      · rw [hsaved]
        exact below

theorem Stacked.sigreturn {p p' : Process S B} (h : Stacked blocks p.mask p.frames)
    (hreturn : p.sigreturn = some p') : Stacked blocks p'.mask p'.frames := by
  obtain ⟨frame, frames, hframes, rfl⟩ := Process.sigreturn_eq_some hreturn
  rw [hframes] at h
  exact h.returned

/-- The mask that the program itself has set, which is back when all handlers have
returned. -/
def Process.baseMask (p : Process S B) : S → Bool :=
  match p.frames.getLast? with
  | none => p.waiting.getD p.mask
  | some frame => frame.saved

theorem Process.mask_eq_baseMask {p : Process S B} (hframes : p.frames = [])
    (hwaiting : p.waiting = none) : p.mask = p.baseMask := by
  rw [baseMask, hframes, hwaiting]
  rfl

theorem Process.baseMask_deliver [DecidableEq S] {body : B} {p p' : Process S B} {s : S}
    (h : p.deliver blocks body s = some p') : p'.baseMask = p.baseMask := by
  obtain ⟨_, rfl⟩ := Process.deliver_eq_some h
  rw [baseMask, baseMask]
  rcases hframes : p.frames with - | ⟨frame, frames⟩
  · rfl
  · rw [List.getLast?_cons_cons, List.getLast?_cons]

theorem Process.baseMask_sigreturn {p p' : Process S B} (hwaiting : p.waiting = none)
    (h : p.sigreturn = some p') : p'.baseMask = p.baseMask := by
  obtain ⟨frame, frames, hframes, rfl⟩ := Process.sigreturn_eq_some h
  rw [baseMask, baseMask, hframes]
  rcases frames with - | ⟨below, frames⟩
  · change p.waiting.getD frame.saved = frame.saved
    rw [hwaiting]
    rfl
  · rw [List.getLast?_cons_cons, List.getLast?_cons]

theorem Process.baseMask_moved {p : Process S B} {frame : Frame S B} {frames : List (Frame S B)}
    (hframes : p.frames = frame :: frames) (body : B) :
    ({ p with frames := { frame with body := body } :: frames } : Process S B).baseMask =
      p.baseMask := by
  rw [baseMask, baseMask, hframes]
  rcases frames with - | ⟨below, frames⟩
  · rfl
  · rw [List.getLast?_cons_cons, List.getLast?_cons_cons, List.getLast?_cons]

/-- The signals that were sent have been handled or are pending, but for those for
which there was no room. -/
structure Accounted (capacity : S → Nat) (p : Process S B) : Prop where
  atMost : ∀ s, p.handled s + p.pending s ≤ p.sent s
  room : ∀ s, p.pending s ≤ capacity s
  lost : ∀ s, p.handled s + p.pending s = p.sent s ∨ capacity s ≤ p.handled s + p.pending s

theorem accounted_start : Accounted capacity (Process.start S B) where
  atMost := fun _ => Nat.le_refl 0
  room := fun _ => Nat.zero_le _
  lost := fun _ => Or.inl rfl

theorem Accounted.handled_le {p : Process S B} (h : Accounted capacity p) (s : S) :
    p.handled s ≤ p.sent s :=
  Nat.le_trans (Nat.le_add_right _ _) (h.atMost s)

theorem Accounted.counted {p : Process S B} (h : Accounted capacity p) {s : S}
    (hroom : p.sent s ≤ capacity s) : p.handled s + p.pending s = p.sent s := by
  rcases h.lost s with hnone | hfull
  · exact hnone
  · exact Nat.le_antisymm (h.atMost s) (Nat.le_trans hroom hfull)

theorem Accounted.kept {p : Process S B} (h : Accounted capacity p) {s : S}
    (hcapacity : 0 < capacity s) (hsent : 0 < p.sent s) : 0 < p.handled s + p.pending s := by
  rcases h.lost s with hnone | hfull
  · rw [hnone]
    exact hsent
  · exact Nat.lt_of_lt_of_le hcapacity hfull

theorem Accounted.pending_eq {p : Process S B} (h : Accounted capacity p) {s : S}
    (hnone : p.handled s = 0) : p.pending s = min (p.sent s) (capacity s) := by
  have hmost := h.atMost s
  have hroom := h.room s
  have hlost := h.lost s
  omega

theorem Accounted.generate [DecidableEq S] {p : Process S B} (h : Accounted capacity p) (s : S) :
    Accounted capacity (p.generate capacity s) := by
  have hcounts : ∀ t, (p.generate capacity s).handled t = p.handled t := fun _ => rfl
  have hpending : (p.generate capacity s).pending s = min (p.pending s + 1) (capacity s) :=
    Function.update_self _ _ _
  have hsent : (p.generate capacity s).sent s = p.sent s + 1 := Function.update_self _ _ _
  have hother : ∀ t, t ≠ s → (p.generate capacity s).pending t = p.pending t ∧
      (p.generate capacity s).sent t = p.sent t :=
    fun t ht => ⟨Function.update_of_ne ht _ _, Function.update_of_ne ht _ _⟩
  refine ⟨fun t => ?_, fun t => ?_, fun t => ?_⟩
  · have hold := h.atMost t
    rcases Decidable.em (t = s) with rfl | hne
    · rw [hcounts, hpending, hsent]
      omega
    · rw [hcounts, (hother t hne).1, (hother t hne).2]
      exact hold
  · rcases Decidable.em (t = s) with rfl | hne
    · rw [hpending]
      exact Nat.min_le_right _ _
    · rw [(hother t hne).1]
      exact h.room t
  · have hold := h.lost t
    rcases Decidable.em (t = s) with rfl | hne
    · have hroom := h.room t
      rw [hcounts, hpending, hsent]
      omega
    · rw [hcounts, (hother t hne).1, (hother t hne).2]
      exact hold

theorem Accounted.deliver [DecidableEq S] {body : B} {p p' : Process S B} {s : S}
    (h : Accounted capacity p)
    (hdeliver : p.deliver blocks body s = some p') : Accounted capacity p' := by
  have hsum := Process.handled_add_pending_deliver hdeliver
  obtain ⟨_, rfl⟩ := Process.deliver_eq_some hdeliver
  refine ⟨fun t => ?_, fun t => ?_, fun t => ?_⟩
  · exact Nat.le_trans (Nat.le_of_eq (hsum t)) (h.atMost t)
  · have hless : Function.update p.pending s (p.pending s - 1) t ≤ p.pending t := by
      rcases Decidable.em (t = s) with rfl | hne
      · rw [Function.update_self]
        exact Nat.sub_le _ _
      · exact Nat.le_of_eq (Function.update_of_ne hne _ _)
    exact Nat.le_trans hless (h.room t)
  · rw [hsum t]
    exact h.lost t

theorem Accounted.of_eq {p p' : Process S B} (h : Accounted capacity p)
    (hpending : p'.pending = p.pending) (hsent : p'.sent = p.sent)
    (hhandled : p'.handled = p.handled) : Accounted capacity p' := by
  refine ⟨?_, ?_, ?_⟩
  · rw [hpending, hsent, hhandled]
    exact h.atMost
  · rw [hpending]
    exact h.room
  · rw [hpending, hsent, hhandled]
    exact h.lost

theorem Accounted.sigreturn {p p' : Process S B} (h : Accounted capacity p)
    (hreturn : p.sigreturn = some p') : Accounted capacity p' := by
  obtain ⟨frame, frames, _, rfl⟩ := Process.sigreturn_eq_some hreturn
  exact h.of_eq rfl rfl rfl

end StudyLinuxKernel.Library.Signals
