import StudyLinuxKernel.Libc.Decimal
import StudyLinuxKernel.Libc.Text
import StudyLinuxKernel.Library.PartialStep
import StudyLinuxKernel.Library.Signals

/-!
`signal_receiver.cpp`, which counts the signals that it handles, and
`signal_sender.cpp`, which sends it a signal some times and then SIGINT.  The
kernel looks at the pending signals whenever it goes back to the program, and
goes back only when none of them can be delivered.
-/

namespace StudyLinuxKernel.Signal.Statistics

open StudyLinuxKernel.Libc.Decimal
open StudyLinuxKernel.Libc.Text
open StudyLinuxKernel.Library.PartialStep
open StudyLinuxKernel.Library.Signals

def NSIG : Nat := 65

abbrev Signo := Fin NSIG

def SIGINT : Signo := ⟨2, by decide⟩

/-- Realtime signals are queued, the others are merged. -/
def queued (sig : Signo) : Bool := 32 ≤ sig.val

/-- A handler that `signal` installs blocks its own signal. -/
def blocks (sig t : Signo) : Bool := t = sig

/-- The arguments of the two programs; `times` is not negative, and `signal`
installs a handler for `signo`.  `limit` is how many queued signals the limit
`RLIMIT_SIGPENDING` leaves to the receiver. -/
structure Arguments where
  signo : Signo
  times : Nat
  sleepSecond : Int
  limit : Nat
  handler : signo.val ∉ [0, 9, 19, 32, 33]

/-- Beyond the limit `kill` sends no more than one realtime signal. -/
def Arguments.capacity (args : Arguments) (sig : Signo) : Nat :=
  if queued sig then max args.limit 1 else 1

/-- Where `signal_handler` is; it loads the count, adds one and stores it. -/
inductive Body where
  | entered
  | loaded (count : Nat)
  | returned
  deriving DecidableEq

/-- Where the `main` of the receiver is, behind the calls of `signal`. -/
inductive Phase where
  | installed
  | sleeping
  | reported
  | spinning
  | exited
  deriving DecidableEq

/-- `user` says that the receiver runs, and not the kernel for it; `i` and
`interrupted` belong to the sender. -/
structure System where
  process : Process Signo Body
  user : Bool
  phase : Phase
  gStatistics : Signo → Nat
  gInterrupt : Bool
  pendingShown : Bytes
  i : Nat
  interrupted : Bool

def System.start : System where
  process := .start Signo Body
  user := true
  phase := .installed
  gStatistics := fun _ => 0
  gInterrupt := false
  pendingShown := []
  i := 0
  interrupted := false

/-- `main` is where it runs itself. -/
def System.Main (s : System) (phase : Phase) : Prop :=
  s.user = true ∧ s.process.frames = [] ∧ s.phase = phase

instance (s : System) (phase : Phase) : Decidable (s.Main phase) :=
  inferInstanceAs (Decidable (_ ∧ _ ∧ _))

def signals : List Signo := (List.finRange NSIG).tail

def printPenddingSignal (set : Signo → Bool) : Bytes :=
  signals.flatMap fun i => if set i then decimal i.val ++ literal " " else []

def statisticsLine (i : Signo) (times : Nat) : Bytes :=
  if times ≠ 0 then
    literal "signal " ++ decimal i.val ++ literal " trigger " ++ decimal times ++
      literal " times.\n"
  else []

/-- What `main` prints at its end. -/
def statisticsText (gStatistics : Signo → Nat) : Bytes :=
  signals.flatMap fun i => statisticsLine i (gStatistics i)

/-- The steps of `main`; `skip` is the way without a sleep. -/
inductive Call where
  | block
  | skip
  | sigpending
  | unblock
  | leave

inductive Action where
  | kill
  | killInterrupt
  | main (call : Call)
  | trap
  | deliver (sig : Signo)
  | resume
  | handle
  | sigreturn

def handle (s : System) : Option System :=
  match s.process.frames with
  | ⟨sig, saved, .entered⟩ :: frames =>
      if sig = SIGINT then
        some { s with
          process := { s.process with frames := ⟨sig, saved, .returned⟩ :: frames }
          gInterrupt := true }
      else some { s with
        process := { s.process with
          frames := ⟨sig, saved, .loaded (s.gStatistics sig)⟩ :: frames } }
  | ⟨sig, saved, .loaded count⟩ :: frames => some { s with
      process := { s.process with frames := ⟨sig, saved, .returned⟩ :: frames }
      gStatistics := Function.update s.gStatistics sig (count + 1) }
  | _ => none

def main (args : Arguments) (s : System) : Call → Option System
  | .block =>
      if s.Main .installed ∧ 0 < args.sleepSecond then
        some { s with
          process := s.process.setMask fun _ => true, phase := .sleeping, user := false }
      else none
  | .skip =>
      if s.Main .installed ∧ args.sleepSecond ≤ 0 then some { s with phase := .spinning }
      else none
  | .sigpending =>
      if s.Main .sleeping then
        some { s with
          pendingShown := printPenddingSignal fun i => 0 < s.process.pending i && s.process.mask i
          phase := .reported
          user := false }
      else none
  | .unblock =>
      if s.Main .reported then
        some { s with
          process := s.process.setMask fun _ => false, phase := .spinning, user := false }
      else none
  | .leave =>
      if s.Main .spinning ∧ s.gInterrupt = true then some { s with phase := .exited } else none

def step (args : Arguments) (s : System) : Action → Option System
  | .kill =>
      if s.i < args.times then
        some { s with process := s.process.generate args.capacity args.signo, i := s.i + 1 }
      else none
  | .killInterrupt =>
      if args.times ≤ s.i ∧ s.interrupted = false then
        some { s with process := s.process.generate args.capacity SIGINT, interrupted := true }
      else none
  | .main call => main args s call
  | .trap => if s.phase ≠ .exited then some { s with user := false } else none
  | .deliver sig =>
      if s.user = false then do
        let process ← s.process.deliver blocks .entered sig
        some { s with process := process }
      else none
  | .resume =>
      if s.user = false ∧ ∀ sig, ¬ s.process.Deliverable sig then some { s with user := true }
      else none
  | .handle => if s.user = true then handle s else none
  | .sigreturn =>
      if s.user = true ∧ s.process.frames.head?.map Frame.body = some .returned then do
        let process ← s.process.sigreturn
        some { s with process := process, user := false }
      else none

/-- What `main` has blocked. -/
def Phase.mask : Phase → Signo → Bool
  | .sleeping, _ => true
  | .reported, _ => true
  | _, _ => false

/-- The handler has not counted its signal. -/
def counting (sig : Signo) (frame : Frame Signo Body) : Bool :=
  frame.signal = sig && frame.body ≠ .returned

structure Sound (args : Arguments) (s : System) : Prop where
  awake : s.process.waiting = none
  stacked : Stacked blocks s.process.mask s.process.frames
  base : s.process.baseMask = s.phase.mask
  asleep : s.phase = .sleeping ∨ s.phase = .reported → s.process.frames = []
  accounted : Accounted args.capacity s.process
  sentSigno : s.process.sent args.signo = s.i
  sentInterrupt : s.process.sent SIGINT = if s.interrupted then 1 else 0
  sentOther : ∀ sig, sig ≠ args.signo → sig ≠ SIGINT → s.process.sent sig = 0
  bound : s.i ≤ args.times
  finished : s.interrupted = true → s.i = args.times
  counted : ∀ sig, sig ≠ SIGINT →
    s.gStatistics sig + s.process.frames.countP (counting sig) = s.process.handled sig
  uncounted : s.gStatistics SIGINT = 0
  entered : ∀ frame ∈ s.process.frames, 0 < s.process.handled frame.signal
  loaded : ∀ frame ∈ s.process.frames, ∀ count, frame.body = .loaded count →
    count = s.gStatistics frame.signal ∧ frame.signal ≠ SIGINT
  interrupting : s.gInterrupt = true → 0 < s.process.handled SIGINT
  settled : s.user = true → 0 < s.process.handled SIGINT → ∀ sig, ¬ s.process.Deliverable sig
  ended : s.phase = .exited → s.user = true ∧ s.process.frames = [] ∧ s.gInterrupt = true

theorem Sound.start (args : Arguments) : Sound args .start where
  awake := rfl
  stacked := .main _
  base := rfl
  asleep := fun _ => rfl
  accounted := accounted_start
  sentSigno := rfl
  sentInterrupt := rfl
  sentOther := fun _ _ _ => rfl
  bound := Nat.zero_le _
  finished := nofun
  counted := fun _ _ => rfl
  uncounted := rfl
  entered := nofun
  loaded := nofun
  interrupting := nofun
  settled := fun _ h => absurd h (Nat.lt_irrefl 0)
  ended := nofun

variable {args : Arguments} {s s' : System}

theorem capacity_pos (args : Arguments) (sig : Signo) : 0 < args.capacity sig := by
  rw [Arguments.capacity]
  split
  · exact Nat.lt_of_lt_of_le Nat.one_pos (Nat.le_max_right _ _)
  · exact Nat.one_pos

theorem Sound.interrupted (h : Sound args s) (hhandled : 0 < s.process.handled SIGINT) :
    s.interrupted = true := by
  have hle := h.accounted.handled_le SIGINT
  rw [h.sentInterrupt] at hle
  by_contra hnot
  rw [if_neg hnot] at hle
  omega

theorem Sound.kill (h : Sound args s) (hsigno : args.signo ≠ SIGINT)
    (hstep : step args s .kill = some s') : Sound args s' := by
  rcases Option.ite_none_right_eq_some.mp hstep with ⟨hmore, ⟨⟩⟩
  exact { h with
    accounted := h.accounted.generate args.signo
    sentSigno := (Function.update_self _ _ _).trans (congrArg (· + 1) h.sentSigno)
    sentInterrupt := (Function.update_of_ne hsigno.symm _ _).trans h.sentInterrupt
    sentOther := fun sig hne hint =>
      (Function.update_of_ne hne _ _).trans (h.sentOther sig hne hint)
    bound := hmore
    finished := fun hinterrupted => absurd (h.finished hinterrupted) (Nat.ne_of_lt hmore)
    settled := fun _ hhandled =>
      absurd (h.finished (h.interrupted hhandled)) (Nat.ne_of_lt hmore) }

theorem Sound.killInterrupt (h : Sound args s) (hsigno : args.signo ≠ SIGINT)
    (hstep : step args s .killInterrupt = some s') : Sound args s' := by
  rcases Option.ite_none_right_eq_some.mp hstep with ⟨⟨hdone, hfirst⟩, ⟨⟩⟩
  exact { h with
    accounted := h.accounted.generate SIGINT
    sentSigno := (Function.update_of_ne hsigno _ _).trans h.sentSigno
    sentInterrupt := by
      change Function.update s.process.sent SIGINT (s.process.sent SIGINT + 1) SIGINT = 1
      rw [Function.update_self, h.sentInterrupt, hfirst]
      rfl
    sentOther := fun sig hne hint =>
      (Function.update_of_ne hint _ _).trans (h.sentOther sig hne hint)
    finished := fun _ => Nat.le_antisymm h.bound hdone
    settled := fun _ hhandled => by
      have hinterrupted := h.interrupted hhandled
      rw [hfirst] at hinterrupted
      cases hinterrupted }

theorem Sound.mask (h : Sound args s) (hframes : s.process.frames = []) :
    s.process.mask = s.phase.mask :=
  (Process.mask_eq_baseMask hframes h.awake).trans h.base

theorem Sound.setMask (h : Sound args s) (hframes : s.process.frames = []) (phase : Phase)
    (hphase : phase ≠ .exited) :
    Sound args { s with
      process := s.process.setMask phase.mask
      phase := phase
      user := false } where
  awake := h.awake
  stacked := by
    change Stacked blocks phase.mask s.process.frames
    rw [hframes]
    exact .main _
  base :=
    (@Process.mask_eq_baseMask _ _ (s.process.setMask phase.mask) hframes h.awake).symm
  asleep := fun _ => hframes
  accounted := h.accounted.of_eq rfl rfl rfl
  sentSigno := h.sentSigno
  sentInterrupt := h.sentInterrupt
  sentOther := h.sentOther
  bound := h.bound
  finished := h.finished
  counted := h.counted
  uncounted := h.uncounted
  entered := h.entered
  loaded := h.loaded
  interrupting := h.interrupting
  settled := nofun
  ended := fun h => absurd h hphase

theorem Sound.main (h : Sound args s) {call : Call}
    (hstep : step args s (.main call) = some s') : Sound args s' := by
  rcases call with - | - | - | - | -
  · rcases Option.ite_none_right_eq_some.mp hstep with ⟨⟨⟨_, hframes, _⟩, _⟩, ⟨⟩⟩
    exact h.setMask hframes .sleeping nofun
  · rcases Option.ite_none_right_eq_some.mp hstep with ⟨⟨⟨_, _, hphase⟩, _⟩, ⟨⟩⟩
    exact { h with
      base := by
        refine h.base.trans ?_
        rw [hphase]
        rfl
      asleep := nofun
      ended := nofun }
  · rcases Option.ite_none_right_eq_some.mp hstep with ⟨⟨_, hframes, hphase⟩, ⟨⟩⟩
    exact { h with
      base := by
        refine h.base.trans ?_
        rw [hphase]
        rfl
      asleep := fun _ => hframes
      settled := nofun
      ended := nofun }
  · rcases Option.ite_none_right_eq_some.mp hstep with ⟨⟨_, hframes, _⟩, ⟨⟩⟩
    exact h.setMask hframes .spinning nofun
  · rcases Option.ite_none_right_eq_some.mp hstep with ⟨⟨⟨huser, hframes, hphase⟩, hint⟩, ⟨⟩⟩
    exact { h with
      base := by
        refine h.base.trans ?_
        rw [hphase]
        rfl
      asleep := fun _ => hframes
      ended := fun _ => ⟨huser, hframes, hint⟩ }

theorem Sound.trap (h : Sound args s) (hstep : step args s .trap = some s') : Sound args s' := by
  rcases Option.ite_none_right_eq_some.mp hstep with ⟨hphase, ⟨⟩⟩
  exact { h with
    settled := nofun
    ended := fun hexited => absurd hexited hphase }

theorem Sound.resume (h : Sound args s) (hstep : step args s .resume = some s') :
    Sound args s' := by
  rcases Option.ite_none_right_eq_some.mp hstep with ⟨⟨_, hsettled⟩, ⟨⟩⟩
  exact { h with
    settled := fun _ _ => hsettled
    ended := fun hexited => ⟨rfl, (h.ended hexited).2⟩ }

theorem Sound.frames_deliverable (h : Sound args s) {sig : Signo}
    (hsig : s.process.Deliverable sig) : ¬ (s.phase = .sleeping ∨ s.phase = .reported) := by
  intro hphase
  have hmask := h.mask (h.asleep hphase)
  have hopen := hsig.2
  rw [hmask] at hopen
  rcases hphase with hphase | hphase
  · rw [hphase] at hopen
    cases hopen
  · rw [hphase] at hopen
    cases hopen

theorem Sound.deliver (h : Sound args s) {sig : Signo}
    (hstep : step args s (.deliver sig) = some s') : Sound args s' := by
  rcases Option.ite_none_right_eq_some.mp hstep with ⟨hkernel, hbind⟩
  rcases Option.bind_eq_some_iff.mp hbind with ⟨process, hdeliver, ⟨⟩⟩
  have hstacked := h.stacked.deliver (Or.inr h.awake) hdeliver
  have hbase := (Process.baseMask_deliver hdeliver).trans h.base
  have haccounted := h.accounted.deliver hdeliver
  obtain ⟨hdeliverable, rfl⟩ := Process.deliver_eq_some hdeliver
  have hhandled : ∀ t, Function.update s.process.handled sig (s.process.handled sig + 1) t =
      s.process.handled t + if sig = t then 1 else 0 := by
    intro t
    rcases Decidable.em (sig = t) with rfl | hne
    · rw [Function.update_self, if_pos rfl]
    · rw [Function.update_of_ne (Ne.symm hne), if_neg hne, Nat.add_zero]
  exact { h with
    awake := rfl
    stacked := hstacked
    base := hbase
    asleep := fun hphase => absurd hphase (h.frames_deliverable hdeliverable)
    accounted := haccounted
    counted := fun t ht => by
      have hold := h.counted t ht
      have hcounting : counting t ⟨sig, s.process.waiting.getD s.process.mask, .entered⟩ =
          decide (sig = t) := by
        rw [counting]
        simp
      refine Eq.trans ?_ (hhandled t).symm
      change s.gStatistics t + List.countP (counting t) (_ :: s.process.frames) = _
      rw [List.countP_cons, hcounting, ← hold]
      simp only [decide_eq_true_eq]
      exact (Nat.add_assoc _ _ _).symm
    entered := fun frame hframe => by
      refine Nat.lt_of_lt_of_eq ?_ (hhandled frame.signal).symm
      rcases List.mem_cons.mp hframe with rfl | hbelow
      · rw [if_pos rfl]
        exact Nat.succ_pos _
      · exact Nat.lt_of_lt_of_le (h.entered frame hbelow) (Nat.le_add_right _ _)
    loaded := fun frame hframe count hcount => by
      rcases List.mem_cons.mp hframe with rfl | hbelow
      · cases hcount
      · exact h.loaded frame hbelow count hcount
    interrupting := fun hint => by
      have hold := h.interrupting hint
      change 0 < Function.update s.process.handled sig (s.process.handled sig + 1) SIGINT
      rw [hhandled]
      omega
    settled := fun huser => by
      rw [hkernel] at huser
      cases huser
    ended := fun hexited => by
      have hended := (h.ended hexited).1
      rw [hkernel] at hended
      cases hended }

theorem Stacked.signals_nodup {mask : Signo → Bool} {frames : List (Frame Signo Body)}
    (h : Stacked blocks mask frames) : (frames.map Frame.signal).Nodup :=
  h.nodup fun _ => decide_eq_true rfl

theorem Sound.moved (h : Sound args s) {frame : Frame Signo Body}
    {frames : List (Frame Signo Body)} (hframes : s.process.frames = frame :: frames)
    (body : Body) {gStatistics : Signo → Nat} {gInterrupt : Bool}
    (hcounted : ∀ sig, sig ≠ SIGINT →
      gStatistics sig + (({ frame with body := body } : Frame Signo Body) :: frames).countP
        (counting sig) = s.process.handled sig)
    (huncounted : gStatistics SIGINT = 0)
    (hloaded : ∀ f ∈ ({ frame with body := body } : Frame Signo Body) :: frames, ∀ count,
      f.body = .loaded count → count = gStatistics f.signal ∧ f.signal ≠ SIGINT)
    (hinterrupting : gInterrupt = true → 0 < s.process.handled SIGINT) :
    Sound args { s with
      process := { s.process with frames := { frame with body := body } :: frames }
      gStatistics := gStatistics
      gInterrupt := gInterrupt } where
  awake := h.awake
  stacked := (hframes ▸ h.stacked : Stacked _ _ (frame :: frames)).moved body
  base := (Process.baseMask_moved hframes body).trans h.base
  asleep := fun hphase => by
    have hnone := h.asleep hphase
    rw [hframes] at hnone
    cases hnone
  accounted := h.accounted.of_eq rfl rfl rfl
  sentSigno := h.sentSigno
  sentInterrupt := h.sentInterrupt
  sentOther := h.sentOther
  bound := h.bound
  finished := h.finished
  counted := hcounted
  uncounted := huncounted
  entered := fun f hf => by
    have hentered := h.entered
    rw [hframes] at hentered
    rcases List.mem_cons.mp hf with rfl | hbelow
    · exact hentered frame List.mem_cons_self
    · exact hentered f (List.mem_cons_of_mem _ hbelow)
  loaded := hloaded
  interrupting := hinterrupting
  settled := h.settled
  ended := fun hexited => by
    have hnone := (h.ended hexited).2.1
    rw [hframes] at hnone
    cases hnone

theorem Sound.note (h : Sound args s) {saved : Signo → Bool} {frames : List (Frame Signo Body)}
    (hframes : s.process.frames = ⟨SIGINT, saved, .entered⟩ :: frames) :
    Sound args { s with
      process := { s.process with frames := ⟨SIGINT, saved, .returned⟩ :: frames }
      gInterrupt := true } := by
  have hcounted := h.counted
  have hloaded := h.loaded
  have hentered := h.entered
  rw [hframes] at hcounted hloaded hentered
  refine h.moved hframes .returned (fun t ht => ?_) h.uncounted ?_ fun _ =>
    hentered _ List.mem_cons_self
  · have hother : ∀ body, counting t ⟨SIGINT, saved, body⟩ = false := fun body => by
      rw [counting, decide_eq_false (Ne.symm ht), Bool.false_and]
    rw [← hcounted t ht, List.countP_cons, List.countP_cons, hother, hother]
  · intro frame hframe count hcount
    rcases List.mem_cons.mp hframe with rfl | hbelow
    · cases hcount
    · exact hloaded frame (List.mem_cons_of_mem _ hbelow) count hcount

theorem Sound.load (h : Sound args s) {sig : Signo} (hsig : sig ≠ SIGINT)
    {saved : Signo → Bool} {frames : List (Frame Signo Body)}
    (hframes : s.process.frames = ⟨sig, saved, .entered⟩ :: frames) :
    Sound args { s with
      process := { s.process with
        frames := ⟨sig, saved, .loaded (s.gStatistics sig)⟩ :: frames } } := by
  have hcounted := h.counted
  have hloaded := h.loaded
  rw [hframes] at hcounted hloaded
  refine h.moved hframes (.loaded (s.gStatistics sig)) (fun t ht => ?_) h.uncounted ?_
    h.interrupting
  · rw [← hcounted t ht]
    rfl
  · intro frame hframe count hcount
    rcases List.mem_cons.mp hframe with rfl | hbelow
    · cases hcount
      exact ⟨rfl, hsig⟩
    · exact hloaded frame (List.mem_cons_of_mem _ hbelow) count hcount

/-- What was loaded is still the count, since the handler does not interrupt itself. -/
theorem Sound.store (h : Sound args s) {sig : Signo} {count : Nat}
    {saved : Signo → Bool} {frames : List (Frame Signo Body)}
    (hframes : s.process.frames = ⟨sig, saved, .loaded count⟩ :: frames) :
    Sound args { s with
      process := { s.process with frames := ⟨sig, saved, .returned⟩ :: frames }
      gStatistics := Function.update s.gStatistics sig (count + 1) } := by
  have hcounted := h.counted
  have hloaded := h.loaded
  have hdistinct := Stacked.signals_nodup h.stacked
  rw [hframes] at hcounted hloaded hdistinct
  rcases hloaded _ List.mem_cons_self count rfl with ⟨hcount, hsig⟩
  have hbelow : ∀ frame ∈ frames, frame.signal ≠ sig := fun frame hframe heq =>
    (List.nodup_cons.mp hdistinct).1 (List.mem_map.mpr ⟨frame, hframe, heq⟩)
  refine h.moved hframes .returned (fun t ht => ?_) ?_ ?_ h.interrupting
  · rw [← hcounted t ht, List.countP_cons, List.countP_cons]
    have hdone : counting t ⟨sig, saved, .returned⟩ = false := Bool.and_false _
    rcases Decidable.em (sig = t) with rfl | hne
    · have hcounting : counting sig ⟨sig, saved, .loaded count⟩ = true := by
        rw [counting, decide_eq_true rfl]
        rfl
      have hstored : count = s.gStatistics sig := hcount
      rw [Function.update_self, hdone, hcounting, hstored]
      simp only [Bool.false_eq_true, if_true, if_false]
      omega
    · have hcounting : counting t ⟨sig, saved, .loaded count⟩ = false := by
        rw [counting, decide_eq_false hne, Bool.false_and]
      rw [Function.update_of_ne (Ne.symm hne), hdone, hcounting]
  · rw [Function.update_of_ne (Ne.symm hsig)]
    exact h.uncounted
  · intro frame hframe n hn
    rcases List.mem_cons.mp hframe with rfl | hin
    · cases hn
    · rw [Function.update_of_ne (hbelow frame hin)]
      exact hloaded frame (List.mem_cons_of_mem _ hin) n hn

theorem Sound.handle (h : Sound args s) (hstep : step args s .handle = some s') :
    Sound args s' := by
  rcases Option.ite_none_right_eq_some.mp hstep with ⟨_, hhandle⟩
  rw [Statistics.handle] at hhandle
  split at hhandle
  · rename_i sig saved frames hframes
    split at hhandle
    · rename_i hsig
      obtain rfl := Option.some.inj hhandle
      rw [hsig] at hframes ⊢
      exact h.note hframes
    · rename_i hsig
      obtain rfl := Option.some.inj hhandle
      exact h.load hsig hframes
  · rename_i sig saved count frames hframes
    obtain rfl := Option.some.inj hhandle
    exact h.store hframes
  · cases hhandle

theorem Sound.sigreturn (h : Sound args s) (hstep : step args s .sigreturn = some s') :
    Sound args s' := by
  rcases Option.ite_none_right_eq_some.mp hstep with ⟨⟨_, hbody⟩, hbind⟩
  rcases Option.bind_eq_some_iff.mp hbind with ⟨process, hreturn, ⟨⟩⟩
  have hstacked := h.stacked.sigreturn hreturn
  have hbase := (Process.baseMask_sigreturn h.awake hreturn).trans h.base
  have haccounted := h.accounted.sigreturn hreturn
  obtain ⟨frame, frames, hframes, rfl⟩ := Process.sigreturn_eq_some hreturn
  have hcounted := h.counted
  have hloaded := h.loaded
  have hentered := h.entered
  rw [hframes] at hcounted hloaded hentered hbody
  have hreturned : frame.body = .returned := Option.some.inj hbody
  exact { h with
    stacked := hstacked
    base := hbase
    asleep := fun hphase => by
      have hnone := h.asleep hphase
      rw [hframes] at hnone
      cases hnone
    accounted := haccounted
    counted := fun t ht => by
      have hdone : counting t frame = false := by
        rw [counting, hreturned]
        exact Bool.and_false _
      refine Eq.trans ?_ (hcounted t ht)
      rw [List.countP_cons, hdone]
      rfl
    entered := fun f hf => hentered f (List.mem_cons_of_mem _ hf)
    loaded := fun f hf => hloaded f (List.mem_cons_of_mem _ hf)
    settled := nofun
    ended := fun hexited => by
      have hnone := (h.ended hexited).2.1
      rw [hframes] at hnone
      cases hnone }

theorem Sound.step (h : Sound args s) (hsigno : args.signo ≠ SIGINT) {action : Action}
    (hstep : step args s action = some s') : Sound args s' := by
  cases action with
  | kill => exact h.kill hsigno hstep
  | killInterrupt => exact h.killInterrupt hsigno hstep
  | main call => exact h.main hstep
  | trap => exact h.trap hstep
  | deliver sig => exact h.deliver hstep
  | resume => exact h.resume hstep
  | handle => exact h.handle hstep
  | sigreturn => exact h.sigreturn hstep

theorem sound_of_run (hsigno : args.signo ≠ SIGINT) {actions : List Action}
    (hrun : run (step args) .start actions = some s) : Sound args s := by
  have hinv : EveryState (Statistics.step args) (Sound args) .start actions :=
    invariant (.start args) (fun _ _ _ hs hstep => hs.step hsigno hstep) actions
  exact hinv.reached hrun

theorem Sound.exited (h : Sound args s) (hexit : s.phase = .exited) :
    s.interrupted = true ∧ (∀ sig, s.process.pending sig = 0) ∧
      ∀ sig, sig ≠ SIGINT → s.gStatistics sig = s.process.handled sig := by
  obtain ⟨huser, hframes, hint⟩ := h.ended hexit
  have hhandled := h.interrupting hint
  refine ⟨h.interrupted hhandled, fun sig => ?_, fun sig hsig => ?_⟩
  · have hsettled := h.settled huser hhandled sig
    have hmask : s.process.mask sig = false := by
      rw [h.mask hframes, hexit]
      rfl
    by_contra hpending
    exact hsettled ⟨Nat.pos_of_ne_zero hpending, hmask⟩
  · have hcounted := h.counted sig hsig
    rw [hframes] at hcounted
    exact hcounted

theorem flatMap_eq_of_single {α β : Type} {l : List α} {a : α} {f : α → List β} (hl : l.Nodup)
    (ha : a ∈ l) (hf : ∀ b, b ≠ a → f b = []) : l.flatMap f = f a := by
  rcases List.append_of_mem ha with ⟨s, t, rfl⟩
  rw [List.nodup_middle, List.nodup_cons, List.mem_append, not_or] at hl
  have hnone : ∀ m : List α, a ∉ m → m.flatMap f = [] := fun m hm =>
    List.flatMap_eq_nil_iff.mpr fun b hb => hf b fun hba => hm (hba ▸ hb)
  rw [List.flatMap_append, List.flatMap_cons, hnone s hl.1.1, hnone t hl.1.2, List.nil_append,
    List.append_nil]

theorem nodup_signals : signals.Nodup := (List.nodup_finRange NSIG).tail

theorem mem_signals : ∀ sig : Signo, sig.val ≠ 0 → sig ∈ signals := by decide

theorem Sound.statisticsText (h : Sound args s) (hsigno : args.signo ≠ SIGINT)
    (hexit : s.phase = .exited) :
    statisticsText s.gStatistics = statisticsLine args.signo (s.process.handled args.signo) := by
  obtain ⟨_, _, hcounted⟩ := h.exited hexit
  have hzero : args.signo.val ≠ 0 := fun hzero =>
    args.handler (hzero ▸ List.mem_cons_self)
  rw [← hcounted args.signo hsigno]
  refine flatMap_eq_of_single nodup_signals (mem_signals _ hzero) fun sig hsig => ?_
  have hnone : s.gStatistics sig = 0 := by
    rcases Decidable.em (sig = SIGINT) with rfl | hint
    · exact h.uncounted
    · have hle := h.accounted.handled_le sig
      rw [h.sentOther sig hsig hint] at hle
      rw [hcounted sig hint]
      exact Nat.le_zero.mp hle
  rw [hnone]
  rfl

/-- However the sender and the receiver take turns. -/
theorem report_counts (args : Arguments) (hsigno : args.signo ≠ SIGINT) (actions : List Action)
    (s : System) (hrun : run (step args) .start actions = some s) (hexit : s.phase = .exited) :
    ∃ n, statisticsText s.gStatistics = statisticsLine args.signo n ∧ n ≤ args.times ∧
      (0 < args.times → 0 < n) ∧
      (queued args.signo = true → args.times ≤ args.limit → n = args.times) := by
  have h := sound_of_run hsigno hrun
  obtain ⟨hinterrupted, hpending, _⟩ := h.exited hexit
  have hsent : s.process.sent args.signo = args.times :=
    h.sentSigno.trans (h.finished hinterrupted)
  have hle := h.accounted.handled_le args.signo
  have hkept := h.accounted.kept (capacity_pos args args.signo)
  rw [hsent] at hle
  rw [hsent, hpending, Nat.add_zero] at hkept
  refine ⟨_, h.statisticsText hsigno hexit, hle, hkept, fun hqueued hlimit => ?_⟩
  have hroom : s.process.sent args.signo ≤ args.capacity args.signo := by
    rw [hsent, Arguments.capacity, if_pos hqueued]
    exact Nat.le_trans hlimit (Nat.le_max_left _ _)
  have hcounted := h.accounted.counted hroom
  rw [hpending, hsent] at hcounted
  exact hcounted

def realtimeArguments : Arguments where
  signo := ⟨34, by decide⟩
  times := 2
  sleepSecond := 0
  limit := 100
  handler := by decide

/-- The second signal arrives while the handler of the first runs. -/
def realtimeRun : List Action :=
  [.main .skip, .kill, .trap, .deliver ⟨34, by decide⟩, .resume, .handle, .kill, .killInterrupt,
    .handle, .trap, .deliver SIGINT, .resume, .handle, .sigreturn, .resume, .sigreturn,
    .deliver ⟨34, by decide⟩, .resume, .handle, .handle, .sigreturn, .resume, .main .leave]

theorem report_counts_realtimeRun : ∃ s,
    run (step realtimeArguments) .start realtimeRun = some s ∧ s.phase = .exited ∧
      ∃ n, statisticsText s.gStatistics = statisticsLine realtimeArguments.signo n ∧
        n ≤ 2 ∧ (0 < 2 → 0 < n) ∧
        (queued realtimeArguments.signo = true → 2 ≤ 100 → n = 2) :=
  ⟨_, rfl, rfl, report_counts realtimeArguments (by decide) realtimeRun _ rfl rfl⟩

def Phase.rank : Phase → Nat
  | .installed => 0
  | .sleeping => 1
  | .reported => 2
  | .spinning => 3
  | .exited => 4

def Action.sends : Action → Bool
  | .kill => true
  | .killInterrupt => true
  | _ => false

/-- What a step has to do with the sleep and with the sender. -/
structure Stepped (s s' : System) (action : Action) : Prop where
  rank : s.phase.rank ≤ s'.phase.rank
  handled : (∃ sig, s.process.Deliverable sig ∧ s'.phase = s.phase) ∨
    s'.process.handled = s.process.handled
  shown : s.phase ≠ .sleeping → s'.pendingShown = s.pendingShown
  unsent : action.sends = false → s'.i = s.i ∧ s'.interrupted = s.interrupted ∧
    ∀ sig, s'.process.handled sig + s'.process.pending sig =
      s.process.handled sig + s.process.pending sig

theorem stepped_of_fields {action : Action} {phase phase' : Phase} (hphase : s.phase = phase)
    (hphase' : s'.phase = phase') (hrank : phase.rank ≤ phase'.rank)
    (hhandled : s'.process.handled = s.process.handled)
    (hpending : s'.process.pending = s.process.pending)
    (hshown : s.phase ≠ .sleeping → s'.pendingShown = s.pendingShown)
    (hi : s'.i = s.i) (hinterrupted : s'.interrupted = s.interrupted) : Stepped s s' action where
  rank := by
    rw [hphase, hphase']
    exact hrank
  handled := Or.inr hhandled
  shown := hshown
  unsent := fun _ => ⟨hi, hinterrupted, fun sig => by rw [hhandled, hpending]⟩

theorem stepped_main {call : Call} (hstep : step args s (.main call) = some s') :
    Stepped s s' (.main call) := by
  rcases call with - | - | - | - | -
  · rcases Option.ite_none_right_eq_some.mp hstep with ⟨⟨⟨_, _, hphase⟩, _⟩, ⟨⟩⟩
    exact stepped_of_fields hphase rfl (Nat.le_of_ble_eq_true rfl) rfl rfl (fun _ => rfl) rfl rfl
  · rcases Option.ite_none_right_eq_some.mp hstep with ⟨⟨⟨_, _, hphase⟩, _⟩, ⟨⟩⟩
    exact stepped_of_fields hphase rfl (Nat.le_of_ble_eq_true rfl) rfl rfl (fun _ => rfl) rfl rfl
  · rcases Option.ite_none_right_eq_some.mp hstep with ⟨⟨_, _, hphase⟩, ⟨⟩⟩
    exact stepped_of_fields hphase rfl (Nat.le_of_ble_eq_true rfl) rfl rfl
      (fun hawake => absurd hphase hawake) rfl rfl
  · rcases Option.ite_none_right_eq_some.mp hstep with ⟨⟨_, _, hphase⟩, ⟨⟩⟩
    exact stepped_of_fields hphase rfl (Nat.le_of_ble_eq_true rfl) rfl rfl (fun _ => rfl) rfl rfl
  · rcases Option.ite_none_right_eq_some.mp hstep with ⟨⟨⟨_, _, hphase⟩, _⟩, ⟨⟩⟩
    exact stepped_of_fields hphase rfl (Nat.le_of_ble_eq_true rfl) rfl rfl (fun _ => rfl) rfl rfl

theorem stepped_deliver {sig : Signo} (hstep : step args s (.deliver sig) = some s') :
    Stepped s s' (.deliver sig) := by
  rcases Option.ite_none_right_eq_some.mp hstep with ⟨_, hbind⟩
  rcases Option.bind_eq_some_iff.mp hbind with ⟨process, hdeliver, ⟨⟩⟩
  have hsum := Process.handled_add_pending_deliver hdeliver
  obtain ⟨hdeliverable, rfl⟩ := Process.deliver_eq_some hdeliver
  exact ⟨Nat.le_refl _, Or.inl ⟨sig, hdeliverable, rfl⟩, fun _ => rfl, fun _ => ⟨rfl, rfl, hsum⟩⟩

theorem stepped_handle (hstep : step args s .handle = some s') : Stepped s s' .handle := by
  rcases Option.ite_none_right_eq_some.mp hstep with ⟨_, hhandle⟩
  rw [handle] at hhandle
  have hstepped : s'.phase = s.phase ∧ s'.process.handled = s.process.handled ∧
      s'.process.pending = s.process.pending ∧ s'.pendingShown = s.pendingShown ∧
      s'.i = s.i ∧ s'.interrupted = s.interrupted := by
    split at hhandle
    · split at hhandle
      · obtain rfl := Option.some.inj hhandle
        exact ⟨rfl, rfl, rfl, rfl, rfl, rfl⟩
      · obtain rfl := Option.some.inj hhandle
        exact ⟨rfl, rfl, rfl, rfl, rfl, rfl⟩
    · obtain rfl := Option.some.inj hhandle
      exact ⟨rfl, rfl, rfl, rfl, rfl, rfl⟩
    · cases hhandle
  obtain ⟨hphase, hhandled, hpending, hshown, hi, hinterrupted⟩ := hstepped
  exact stepped_of_fields rfl hphase (Nat.le_refl _) hhandled hpending (fun _ => hshown) hi
    hinterrupted

theorem stepped {action : Action} (hstep : step args s action = some s') :
    Stepped s s' action := by
  cases action with
  | kill =>
      rcases Option.ite_none_right_eq_some.mp hstep with ⟨_, ⟨⟩⟩
      exact ⟨Nat.le_refl _, Or.inr rfl, fun _ => rfl, nofun⟩
  | killInterrupt =>
      rcases Option.ite_none_right_eq_some.mp hstep with ⟨_, ⟨⟩⟩
      exact ⟨Nat.le_refl _, Or.inr rfl, fun _ => rfl, nofun⟩
  | main call => exact stepped_main hstep
  | trap =>
      rcases Option.ite_none_right_eq_some.mp hstep with ⟨_, ⟨⟩⟩
      exact stepped_of_fields rfl rfl (Nat.le_refl _) rfl rfl (fun _ => rfl) rfl rfl
  | deliver sig => exact stepped_deliver hstep
  | resume =>
      rcases Option.ite_none_right_eq_some.mp hstep with ⟨_, ⟨⟩⟩
      exact stepped_of_fields rfl rfl (Nat.le_refl _) rfl rfl (fun _ => rfl) rfl rfl
  | handle => exact stepped_handle hstep
  | sigreturn =>
      rcases Option.ite_none_right_eq_some.mp hstep with ⟨_, hbind⟩
      rcases Option.bind_eq_some_iff.mp hbind with ⟨process, hreturn, ⟨⟩⟩
      obtain ⟨frame, frames, _, rfl⟩ := Process.sigreturn_eq_some hreturn
      exact stepped_of_fields rfl rfl (Nat.le_refl _) rfl rfl (fun _ => rfl) rfl rfl

/-- The sleep has begun, and up to its end nothing is handled. -/
def Asleep (s : System) : Prop :=
  1 ≤ s.phase.rank ∧ (s.phase = .sleeping → ∀ sig, s.process.handled sig = 0)

theorem Asleep.step (hsound : Sound args s) (h : Asleep s) {action : Action}
    (hstep : step args s action = some s') : Asleep s' := by
  have hstepped := stepped hstep
  refine ⟨Nat.le_trans h.1 hstepped.rank, fun hphase sig => ?_⟩
  have hsleeping : s.phase = .sleeping := by
    have hrank := hstepped.rank
    have hbegun := h.1
    rw [hphase] at hrank
    rcases hold : s.phase with - | - | - | - | -
    · rw [hold] at hbegun
      cases hbegun
    · rfl
    all_goals
      rw [hold] at hrank
      exact absurd hrank (by decide)
  rcases hstepped.handled with ⟨sig', hdeliverable, _⟩ | hhandled
  · exact absurd (Or.inl hsleeping) (hsound.frames_deliverable hdeliverable)
  · rw [hhandled]
    exact h.2 hsleeping sig

/-- Behind `t`, where nothing more is sent, the signals are handled that are pending there. -/
structure Draining (t s : System) : Prop where
  rank : 2 ≤ s.phase.rank
  shown : s.pendingShown = t.pendingShown
  i : s.i = t.i
  interrupted : s.interrupted = t.interrupted
  sum : ∀ sig, s.process.handled sig + s.process.pending sig =
    t.process.handled sig + t.process.pending sig

theorem Draining.step {t : System} (h : Draining t s) {action : Action}
    (hsends : action.sends = false) (hstep : step args s action = some s') : Draining t s' := by
  have hstepped := stepped hstep
  obtain ⟨hi, hinterrupted, hsum⟩ := hstepped.unsent hsends
  have hawake : s.phase ≠ .sleeping := by
    intro hphase
    have hrank := h.rank
    rw [hphase] at hrank
    exact absurd hrank (by decide)
  exact ⟨Nat.le_trans h.rank hstepped.rank, (hstepped.shown hawake).trans h.shown,
    hi.trans h.i, hinterrupted.trans h.interrupted, fun sig => (hsum sig).trans (h.sum sig)⟩

theorem draining_of_run {t : System} {actions : List Action}
    (hrun : run (step args) t actions = some s) (hsends : ∀ a ∈ actions, a.sends = false)
    (ht : 2 ≤ t.phase.rank) : Draining t s := by
  have hinv : EveryState (Statistics.step args) (Draining t) t actions :=
    invariant_of_everyStep ⟨ht, rfl, rfl, rfl, fun _ => rfl⟩
      (fun _ _ _ h hquiet hstep => h.step hquiet hstep)
      (everyStep_of_forall (fun a ha _ => hsends a ha) t)
  exact hinv.reached hrun

theorem asleep_of_run (hsigno : args.signo ≠ SIGINT) {t : System} (ht : Sound args t)
    (hasleep : Asleep t) {actions : List Action} (hrun : run (step args) t actions = some s) :
    Sound args s ∧ Asleep s := by
  have hinv : EveryState (Statistics.step args) (fun s => Sound args s ∧ Asleep s) t actions :=
    invariant ⟨ht, hasleep⟩
      (fun _ _ _ h hstep => ⟨h.1.step hsigno hstep, h.2.step h.1 hstep⟩) actions
  exact hinv.reached hrun

theorem quiet_of_run {actions : List Action}
    (hsends : ∀ a ∈ actions, a.sends = false) (hrun : run (step args) .start actions = some s) :
    ∀ sig, s.process.handled sig = 0 := by
  have hinv : EveryState (Statistics.step args) (fun s => ∀ sig,
      s.process.handled sig + s.process.pending sig = 0) .start actions :=
    invariant_of_everyStep (fun _ => rfl)
      (fun _ _ _ h hquiet hstep sig => (((stepped hstep).unsent hquiet).2.2 sig).trans (h sig))
      (everyStep_of_forall (fun a ha _ => hsends a ha) System.start)
  exact fun sig => (Nat.add_eq_zero_iff.mp (hinv.reached hrun sig)).1

theorem Sound.pending_pos_iff (h : Sound args s) (hnone : ∀ sig, s.process.handled sig = 0)
    (hinterrupted : s.interrupted = true) (sig : Signo) :
    0 < s.process.pending sig ↔ sig = SIGINT ∨ sig = args.signo ∧ 0 < s.i := by
  have hmost := h.accounted.atMost sig
  have hkept := h.accounted.kept (capacity_pos args sig)
  rw [hnone, Nat.zero_add] at hmost hkept
  constructor
  · intro hpending
    rcases Decidable.em (sig = SIGINT) with hint | hint
    · exact Or.inl hint
    · refine Or.inr ?_
      rcases Decidable.em (sig = args.signo) with rfl | hother
      · rw [h.sentSigno] at hmost
        exact ⟨rfl, Nat.lt_of_lt_of_le hpending hmost⟩
      · rw [h.sentOther sig hother hint] at hmost
        exact absurd hpending (Nat.not_lt.mpr hmost)
  · rintro (rfl | ⟨rfl, hi⟩)
    · refine hkept ?_
      rw [h.sentInterrupt, hinterrupted]
      exact Nat.one_pos
    · refine hkept ?_
      rw [h.sentSigno]
      exact hi

/-- Where all signals are sent during the sleep: `sigpending` shows both signals, and
as many are counted as could be pending. -/
theorem report_asleep (args : Arguments) (hsigno : args.signo ≠ SIGINT)
    (before during behind : List Action)
    (hbefore : ∀ a ∈ before, a.sends = false) (hbehind : ∀ a ∈ behind, a.sends = false)
    (s : System)
    (hrun : run (step args) .start
      (before ++ [.main .block] ++ during ++ [.main .sigpending] ++ behind) = some s)
    (hexit : s.phase = .exited) :
    s.pendingShown =
        printPenddingSignal (fun i => i = SIGINT || (i = args.signo && 0 < args.times)) ∧
      statisticsText s.gStatistics =
        statisticsLine args.signo (min args.times (args.capacity args.signo)) := by
  have hsound := sound_of_run hsigno hrun
  rw [run_append] at hrun
  rcases Option.bind_eq_some_iff.mp hrun with ⟨t, ht, hdrain⟩
  rcases run_concat_eq_some.mp ht with ⟨u, hu, hpendingCall⟩
  rw [run_append] at hu
  rcases Option.bind_eq_some_iff.mp hu with ⟨v, hv, hduring⟩
  rcases run_concat_eq_some.mp hv with ⟨w, hw, hblock⟩
  have hasleep : Asleep v := by
    have hquiet := quiet_of_run hbefore hw
    rcases Option.ite_none_right_eq_some.mp hblock with ⟨_, ⟨⟩⟩
    exact ⟨Nat.le_refl 1, fun _ => hquiet⟩
  obtain ⟨hsoundU, hasleepU⟩ := asleep_of_run hsigno (sound_of_run hsigno hv) hasleep hduring
  rcases Option.ite_none_right_eq_some.mp hpendingCall with ⟨⟨_, hframes, hphase⟩, ⟨⟩⟩
  have hnone := hasleepU.2 hphase
  have hdraining := draining_of_run hdrain hbehind (Nat.le_refl 2)
  obtain ⟨hinterrupted, hpending, _⟩ := hsound.exited hexit
  have hinterruptedU : u.interrupted = true := hdraining.interrupted.symm.trans hinterrupted
  have hi : u.i = args.times := hdraining.i.symm.trans (hsound.finished hinterrupted)
  have hhandled : ∀ sig, s.process.handled sig = u.process.pending sig := by
    intro sig
    have hsum : _ = u.process.handled sig + u.process.pending sig := hdraining.sum sig
    rw [hpending, hnone, Nat.add_zero, Nat.zero_add] at hsum
    exact hsum
  constructor
  · have hshown : s.pendingShown = printPenddingSignal fun i =>
        0 < u.process.pending i && u.process.mask i := hdraining.shown
    refine hshown.trans (congrArg printPenddingSignal (funext fun sig => ?_))
    have hmask : u.process.mask sig = true := by
      rw [hsoundU.mask hframes, hphase]
      rfl
    rw [hmask, Bool.and_true, Bool.eq_iff_iff, decide_eq_true_eq, Bool.or_eq_true,
      Bool.and_eq_true, decide_eq_true_eq, decide_eq_true_eq, decide_eq_true_eq, ← hi]
    exact hsoundU.pending_pos_iff hnone hinterruptedU sig
  · rw [hsound.statisticsText hsigno hexit, hhandled,
      hsoundU.accounted.pending_eq (hnone args.signo), hsoundU.sentSigno, hi]

def standardArguments : Arguments where
  signo := ⟨10, by decide⟩
  times := 2
  sleepSecond := 1
  limit := 100
  handler := by decide

def wakeUp : List Action :=
  [.resume, .main .unblock, .deliver SIGINT, .deliver ⟨10, by decide⟩, .resume, .handle, .handle,
    .sigreturn, .resume, .handle, .sigreturn, .resume, .main .leave]

theorem report_asleep_wakeUp : ∃ s,
    run (step standardArguments) .start ([] ++ [.main .block] ++
      [.resume, .kill, .kill, .killInterrupt] ++ [.main .sigpending] ++ wakeUp) = some s ∧
      s.phase = .exited ∧
      s.pendingShown =
        printPenddingSignal (fun i => i = SIGINT || (i = standardArguments.signo && 0 < 2)) ∧
      statisticsText s.gStatistics = statisticsLine standardArguments.signo 1 :=
  ⟨_, rfl, rfl, report_asleep standardArguments (by decide) []
    [.resume, .kill, .kill, .killInterrupt] wakeUp (by decide) (by decide) _ rfl rfl⟩

end StudyLinuxKernel.Signal.Statistics
