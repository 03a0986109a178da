import StudyLinuxKernel.Library.PartialStep
import StudyLinuxKernel.Library.Signals
import StudyLinuxKernel.Library.StepBound

namespace StudyLinuxKernel.Signal.SyncProcess

open StudyLinuxKernel.Library.PartialStep
open StudyLinuxKernel.Library.Signals
open StudyLinuxKernel.Library.StepBound

/-- Nobody sends another signal; the others are there for the masks. -/
inductive Sig where
  | SIGUSR1
  | other (number : Nat)
  deriving DecidableEq

/-- A handler whose `sa_mask` is empty blocks its own signal. -/
def blocks (sig t : Sig) : Bool := t = sig

/-- A standard signal is not queued. -/
def capacity (_ : Sig) : Nat := 1

/-- `SIG_BLOCK` with the mask that has SIGUSR1 in it. -/
def blocking (mask : Sig → Bool) (t : Sig) : Bool := mask t || t = .SIGUSR1

/-- Where `handler` is. -/
inductive Body where
  | entered
  | printed
  deriving DecidableEq

/-- Where the parent is, behind the call of that name. -/
inductive ParentPlace where
  | started
  | blocked
  | installed
  | forked
  | announced
  | suspended
  | resumed
  | ended (ok : Bool)
  | failed
  deriving DecidableEq

inductive ChildPlace where
  | forked
  | started
  | sending
  | sent
  | ended (ok : Bool)
  deriving DecidableEq

/-- The lines that are printed. -/
inductive Event where
  | forkFailed
  | fatherStart
  | fatherGotSignal
  | childStart
  | childSendSignal
  | childOver
  | gotSignal
  deriving DecidableEq

/-- `process` has the signals of the parent, and `origMask` is its variable. -/
structure System where
  process : Process Sig Body
  origMask : Sig → Bool
  parent : ParentPlace
  child : Option ChildPlace
  log : List Event

/-- The shell starts the program with the mask. -/
def System.start (mask origMask : Sig → Bool) : System where
  process := { Process.start Sig Body with mask := mask }
  origMask := origMask
  parent := .started
  child := none
  log := []

inductive ParentCall where
  | block (ok : Bool)
  | sigaction (ok : Bool)
  | fork (ok : Bool)
  | printStart
  | sigsuspend
  | printGotSignal
  | restore (ok : Bool)

inductive ChildCall where
  | printStart
  | printSendSignal
  | kill (ok : Bool)
  | printOver

inductive Action where
  | parent (call : ParentCall)
  | child (call : ChildCall)
  | deliver
  | handle
  | sigreturn

def ParentPlace.Gone : ParentPlace → Bool
  | .ended _ | .failed => true
  | _ => false

/-- The parent goes on itself, and runs no handler. -/
def System.Main (s : System) (place : ParentPlace) : Prop :=
  s.parent = place ∧ s.process.frames = [] ∧ s.process.waiting = none

instance (s : System) (place : ParentPlace) : Decidable (s.Main place) :=
  inferInstanceAs (Decidable (_ ∧ _ = [] ∧ _ = none))

def System.print (s : System) (event : Event) : System := { s with log := s.log ++ [event] }

def parentStep (s : System) : ParentCall → Option System
  | .block ok =>
      if s.Main .started then
        some (if ok then { s with
          process := s.process.setMask (blocking s.process.mask)
          origMask := s.process.mask
          parent := .blocked }
        else { s with parent := .failed })
      else none
  | .sigaction ok =>
      if s.Main .blocked then some { s with parent := if ok then .installed else .failed }
      else none
  | .fork ok =>
      if s.Main .installed then
        some (if ok then { s with parent := .forked, child := some .forked }
          else { s.print .forkFailed with parent := .failed })
      else none
  | .printStart =>
      if s.Main .forked then some { s.print .fatherStart with parent := .announced } else none
  | .sigsuspend =>
      if s.Main .announced then
        some { s with process := s.process.suspend fun _ => false, parent := .suspended }
      else none
  | .printGotSignal =>
      if s.Main .suspended then some { s.print .fatherGotSignal with parent := .resumed }
      else none
  | .restore ok =>
      if s.Main .resumed then
        some (if ok then { s with
          process := s.process.setMask s.origMask
          parent := .ended true }
        else { s with parent := .ended false })
      else none

def childStep (s : System) : ChildCall → Option System
  | .printStart =>
      if s.child = some .forked then some { s.print .childStart with child := some .started }
      else none
  | .printSendSignal =>
      if s.child = some .started then
        some { s.print .childSendSignal with child := some .sending }
      else none
  | .kill ok =>
      if s.child = some .sending then
        -- A parent that has ended is no longer the one that gets the signal.
        some (if ok then { s with
          process := if s.parent.Gone then s.process else s.process.generate capacity .SIGUSR1
          child := some .sent }
        else { s with child := some (.ended false) })
      else none
  | .printOver =>
      if s.child = some .sent then some { s.print .childOver with child := some (.ended true) }
      else none

def step (s : System) : Action → Option System
  | .parent call => parentStep s call
  | .child call => childStep s call
  | .deliver =>
      if s.parent.Gone then none
      -- Without a handler the signal ends the process.
      else if s.parent = .started ∨ s.parent = .blocked then
        if s.process.Deliverable .SIGUSR1 then some { s with parent := .failed } else none
      else do
        let process ← s.process.deliver blocks .entered .SIGUSR1
        some { s with process := process }
  | .handle =>
      match s.process.frames with
      | ⟨sig, saved, .entered⟩ :: frames => some { s.print .gotSignal with
          process := { s.process with frames := ⟨sig, saved, .printed⟩ :: frames } }
      | _ => none
  | .sigreturn =>
      match s.process.frames with
      | ⟨_, _, .printed⟩ :: _ => do
          let process ← s.process.sigreturn
          some { s with process := process }
      | _ => none

/-- The lines whose order the program is about. -/
def Event.Synchronising : Event → Bool
  | .childSendSignal | .gotSignal | .fatherGotSignal => true
  | _ => false

/-- First the child sends, then the handler runs, then the parent goes on. -/
def Ordered (s : System) : Prop :=
  s.log.filter Event.Synchronising <+: [.childSendSignal, .gotSignal, .fatherGotSignal]

/-- No process can go on, where no call fails. -/
def Action.Regular : Action → Prop
  | .parent (.block ok) | .parent (.sigaction ok) | .parent (.fork ok) | .parent (.restore ok)
  | .child (.kill ok) => ok = true
  | _ => True

def Stuck (s : System) : Prop := ∀ action : Action, action.Regular → step s action = none

/-- Both processes have ended with success, the signal was handled once, and the
parent has the mask that it was started with. -/
structure Completed (mask : Sig → Bool) (s : System) : Prop where
  parent : s.parent = .ended true
  child : s.child = some (.ended true)
  handled : s.process.handled .SIGUSR1 = 1 ∧ s.process.pending .SIGUSR1 = 0
  mask : s.process.mask = mask
  log : s.log.filter Event.Synchronising = [.childSendSignal, .gotSignal, .fatherGotSignal]

/-- The parent runs, and is not in `sigsuspend`. -/
def ParentPlace.Runs : ParentPlace → Bool
  | .suspended | .ended _ | .failed => false
  | _ => true

/-- The mask of the parent, which was started with `mask`. -/
def ParentPlace.mask (mask : Sig → Bool) : ParentPlace → Sig → Bool
  | .started => mask
  | _ => blocking mask

/-- `origMask` has been set. -/
def ParentPlace.Saved : ParentPlace → Bool
  | .started | .failed => false
  | _ => true

def ParentPlace.handled : ParentPlace → Nat
  | .resumed | .ended _ => 1
  | _ => 0

/-- There is a child. -/
def ParentPlace.Forked : ParentPlace → Bool
  | .started | .blocked | .installed | .failed => false
  | _ => true

def ChildPlace.kills : ChildPlace → Nat
  | .sent | .ended true => 1
  | _ => 0

/-- The child has said that it sends the signal. -/
def ChildPlace.Announced : ChildPlace → Bool
  | .forked | .started => false
  | _ => true

variable {mask : Sig → Bool}

/-- What the place of the parent says of its signals. -/
inductive Shape (mask : Sig → Bool) : ParentPlace → Process Sig Body → Prop
  | running {place : ParentPlace} {p : Process Sig Body} (runs : place.Runs = true)
      (masked : p.mask = place.mask mask) (frames : p.frames = []) (waiting : p.waiting = none)
      (handled : p.handled .SIGUSR1 = place.handled) : Shape mask place p
  | asleep {p : Process Sig Body} (masked : p.mask = fun _ => false) (frames : p.frames = [])
      (waiting : p.waiting = some (blocking mask)) (handled : p.handled .SIGUSR1 = 0) :
      Shape mask .suspended p
  | handling {p : Process Sig Body} {frame : Frame Sig Body} (masked : p.mask .SIGUSR1 = true)
      (frames : p.frames = [frame]) (saved : frame.saved = blocking mask)
      (waiting : p.waiting = none) (handled : p.handled .SIGUSR1 = 1) : Shape mask .suspended p
  | awake {p : Process Sig Body} (masked : p.mask = blocking mask) (frames : p.frames = [])
      (waiting : p.waiting = none) (handled : p.handled .SIGUSR1 = 1) : Shape mask .suspended p
  | ended {p : Process Sig Body} {ok : Bool} (masked : ok = true → p.mask = mask)
      (frames : p.frames = []) (handled : p.handled .SIGUSR1 = 1) : Shape mask (.ended ok) p
  | failed {p : Process Sig Body} (frames : p.frames = []) (handled : p.handled .SIGUSR1 = 0) :
      Shape mask .failed p

/-- `handler` has printed its line. -/
def handlerPrinted (p : Process Sig Body) : Bool :=
  p.handled .SIGUSR1 = 1 && p.frames.all fun frame => frame.body = .printed

def ParentPlace.Got : ParentPlace → Bool
  | .resumed | .ended _ => true
  | _ => false

/-- The synchronising lines, by what has been printed. -/
def lines (announced printed got : Bool) : List Event :=
  (if announced then [.childSendSignal] else []) ++ (if printed then [.gotSignal] else []) ++
    (if got then [.fatherGotSignal] else [])

def System.announced (s : System) : Bool := (s.child.map ChildPlace.Announced).getD false

structure Invariant (mask : Sig → Bool) (s : System) : Prop where
  shape : Shape mask s.parent s.process
  saved : s.parent.Saved = true → s.origMask = mask
  counted : s.process.handled .SIGUSR1 + s.process.pending .SIGUSR1 =
    (s.child.map ChildPlace.kills).getD 0
  child : s.child.isSome = s.parent.Forked
  log : s.log.filter Event.Synchronising =
    lines s.announced (handlerPrinted s.process) s.parent.Got

theorem blocking_self (mask : Sig → Bool) : blocking mask .SIGUSR1 = true :=
  Bool.or_true (mask .SIGUSR1)

theorem invariant_start (mask origMask : Sig → Bool) : Invariant mask (.start mask origMask) :=
  ⟨.running rfl rfl rfl rfl rfl, (fun hsaved => by cases hsaved), rfl, rfl, rfl⟩

variable {s s' : System}

theorem handlerPrinted_of_unhandled {p : Process Sig Body} (h : p.handled .SIGUSR1 = 0) :
    handlerPrinted p = false := by
  rw [handlerPrinted, h]
  rfl

theorem handlerPrinted_of_entered {p : Process Sig Body} {sig : Sig} {saved : Sig → Bool}
    {frames : List (Frame Sig Body)} (h : p.frames = ⟨sig, saved, .entered⟩ :: frames) :
    handlerPrinted p = false := by
  rw [handlerPrinted, h]
  exact Bool.and_false _

theorem handlerPrinted_of_printed {p : Process Sig Body} (hhandled : p.handled .SIGUSR1 = 1)
    (hframes : ∀ frame ∈ p.frames, frame.body = .printed) : handlerPrinted p = true := by
  rw [handlerPrinted, hhandled]
  exact List.all_eq_true.mpr fun frame hframe => decide_eq_true (hframes frame hframe)

theorem filter_print {event : Event} (h : event.Synchronising = false) (log : List Event) :
    (log ++ [event]).filter Event.Synchronising = log.filter Event.Synchronising := by
  rw [List.filter_append, List.filter_singleton, h]
  exact List.append_nil _

theorem filter_synchronising {event : Event} (h : event.Synchronising = true) (log : List Event) :
    (log ++ [event]).filter Event.Synchronising = log.filter Event.Synchronising ++ [event] := by
  rw [List.filter_append, List.filter_singleton, h]
  rfl

theorem Invariant.moved (h : Invariant mask s) {old : ParentPlace} (hplace : s.parent = old)
    {process : Process Sig Body} {place : ParentPlace} {origMask : Sig → Bool} {log : List Event}
    (hshape : Shape mask place process) (hsaved : place.Saved = true → origMask = mask)
    (hframes : process.frames = s.process.frames)
    (hhandled : process.handled = s.process.handled)
    (hpending : process.pending = s.process.pending)
    (hforked : place.Forked = old.Forked) (hgot : place.Got = old.Got)
    (hlog : log.filter Event.Synchronising = s.log.filter Event.Synchronising) :
    Invariant mask { s with
      process := process
      origMask := origMask
      parent := place
      log := log } := by
  rw [← hplace] at hforked hgot
  refine ⟨hshape, hsaved, ?_, h.child.trans hforked.symm, ?_⟩
  · change process.handled .SIGUSR1 + process.pending .SIGUSR1 = _
    rw [hhandled, hpending]
    exact h.counted
  · have hprinted : handlerPrinted process = handlerPrinted s.process := by
      rw [handlerPrinted, handlerPrinted, hframes, hhandled]
    rw [hlog, h.log]
    change _ = lines s.announced (handlerPrinted process) place.Got
    rw [hprinted, hgot]

theorem Invariant.runs (h : Invariant mask s) {place : ParentPlace} (hmain : s.Main place)
    (hruns : place.Runs = true) :
    s.process.mask = place.mask mask ∧ s.process.handled .SIGUSR1 = place.handled := by
  have hshape := h.shape
  rw [hmain.1] at hshape
  cases hshape with
  | running _ hmask _ _ hhandled => exact ⟨hmask, hhandled⟩
  | asleep _ _ _ _ | handling _ _ _ _ _ | awake _ _ _ _ | ended _ _ _ | failed _ _ =>
      cases hruns

theorem Invariant.awake (h : Invariant mask s) (hmain : s.Main .suspended) :
    s.process.mask = blocking mask ∧ s.process.handled .SIGUSR1 = 1 := by
  have hshape := h.shape
  rw [hmain.1] at hshape
  cases hshape with
  | running runs _ _ _ _ => cases runs
  | asleep _ _ hasleep _ => cases hasleep.symm.trans hmain.2.2
  | handling _ hrunning _ _ _ => cases hrunning.symm.trans hmain.2.1
  | awake hmask _ _ hhandled => exact ⟨hmask, hhandled⟩

theorem Invariant.unforked (h : Invariant mask s) (hforked : s.parent.Forked = false) :
    s.child = none := by
  have hchild := h.child
  rw [hforked] at hchild
  cases hnone : s.child with
  | none => rfl
  | some child =>
      rw [hnone] at hchild
      cases hchild

theorem Invariant.fork (h : Invariant mask s) (hmain : s.Main .installed) :
    Invariant mask { s with parent := .forked, child := some .forked } := by
  obtain ⟨hmask, hhandled⟩ := h.runs hmain rfl
  have hchild : s.child = none := h.unforked (by rw [hmain.1]; rfl)
  have hcounted := h.counted
  have hlog := h.log
  rw [hchild] at hcounted
  rw [System.announced, hchild, hmain.1] at hlog
  exact ⟨.running rfl hmask hmain.2.1 hmain.2.2 hhandled,
    fun _ => h.saved (by rw [hmain.1]; rfl), hcounted, rfl, hlog⟩

theorem Invariant.printGotSignal (h : Invariant mask s) (hmain : s.Main .suspended) :
    Invariant mask { s.print .fatherGotSignal with parent := .resumed } := by
  obtain ⟨hmask, hhandled⟩ := h.awake hmain
  have hchild := h.child
  rw [hmain.1] at hchild
  refine ⟨.running rfl hmask hmain.2.1 hmain.2.2 hhandled,
    fun _ => h.saved (by rw [hmain.1]; rfl), h.counted, hchild, ?_⟩
  change (s.log ++ [Event.fatherGotSignal]).filter _ =
    lines s.announced (handlerPrinted s.process) true
  rw [filter_synchronising rfl, h.log, hmain.1]
  exact congrArg (· ++ _) (List.append_nil _)

theorem Invariant.parentStep {call : ParentCall} (h : Invariant mask s)
    (hstep : parentStep s call = some s') : Invariant mask s' := by
  have hfailed : ParentPlace.failed.Saved = true → s.origMask = mask := fun hsaved => by
    cases hsaved
  cases call with
  | block ok =>
      obtain ⟨hmain, heq⟩ := Option.ite_none_right_eq_some.mp hstep
      obtain rfl := Option.some.inj heq
      obtain ⟨hmask, hhandled⟩ := h.runs hmain rfl
      cases ok with
      | true =>
          have hblocked : (s.process.setMask (blocking s.process.mask)).mask =
              ParentPlace.blocked.mask mask := congrArg blocking hmask
          exact h.moved hmain.1 (.running rfl hblocked hmain.2.1 hmain.2.2 hhandled)
            (fun _ => hmask) rfl rfl rfl rfl rfl rfl
      | false => exact h.moved hmain.1 (.failed hmain.2.1 hhandled) hfailed rfl rfl rfl rfl rfl rfl
  | sigaction ok =>
      obtain ⟨hmain, heq⟩ := Option.ite_none_right_eq_some.mp hstep
      obtain rfl := Option.some.inj heq
      obtain ⟨hmask, hhandled⟩ := h.runs hmain rfl
      cases ok with
      | true =>
          exact h.moved hmain.1 (.running rfl hmask hmain.2.1 hmain.2.2 hhandled)
            (fun _ => h.saved (by rw [hmain.1]; rfl)) rfl rfl rfl rfl rfl rfl
      | false => exact h.moved hmain.1 (.failed hmain.2.1 hhandled) hfailed rfl rfl rfl rfl rfl rfl
  | fork ok =>
      obtain ⟨hmain, heq⟩ := Option.ite_none_right_eq_some.mp hstep
      obtain rfl := Option.some.inj heq
      cases ok with
      | true => exact h.fork hmain
      | false =>
          exact h.moved hmain.1 (.failed hmain.2.1 (h.runs hmain rfl).2) hfailed rfl rfl rfl rfl
            rfl (filter_print rfl _)
  | printStart =>
      obtain ⟨hmain, heq⟩ := Option.ite_none_right_eq_some.mp hstep
      obtain rfl := Option.some.inj heq
      obtain ⟨hmask, hhandled⟩ := h.runs hmain rfl
      exact h.moved hmain.1 (.running rfl hmask hmain.2.1 hmain.2.2 hhandled)
        (fun _ => h.saved (by rw [hmain.1]; rfl)) rfl rfl rfl rfl rfl (filter_print rfl _)
  | sigsuspend =>
      obtain ⟨hmain, heq⟩ := Option.ite_none_right_eq_some.mp hstep
      obtain rfl := Option.some.inj heq
      obtain ⟨hmask, hhandled⟩ := h.runs hmain rfl
      exact h.moved hmain.1 (.asleep rfl hmain.2.1 (congrArg some hmask) hhandled)
        (fun _ => h.saved (by rw [hmain.1]; rfl)) rfl rfl rfl rfl rfl rfl
  | printGotSignal =>
      obtain ⟨hmain, heq⟩ := Option.ite_none_right_eq_some.mp hstep
      obtain rfl := Option.some.inj heq
      exact h.printGotSignal hmain
  | restore ok =>
      obtain ⟨hmain, heq⟩ := Option.ite_none_right_eq_some.mp hstep
      obtain rfl := Option.some.inj heq
      have hhandled := (h.runs hmain rfl).2
      have hsaved : s.origMask = mask := h.saved (by rw [hmain.1]; rfl)
      cases ok with
      | true =>
          exact h.moved hmain.1 (.ended (fun _ => hsaved) hmain.2.1 hhandled) (fun _ => hsaved)
            rfl rfl rfl rfl rfl rfl
      | false =>
          exact h.moved hmain.1 (.ended (fun hok => by cases hok) hmain.2.1 hhandled)
            (fun _ => hsaved) rfl rfl rfl rfl rfl rfl

theorem Invariant.unsent (h : Invariant mask s) {child : ChildPlace}
    (hchild : s.child = some child) (hkills : child.kills = 0) :
    s.process.handled .SIGUSR1 = 0 ∧ s.process.pending .SIGUSR1 = 0 := by
  have hcounted := h.counted
  rw [hchild] at hcounted
  change _ = child.kills at hcounted
  omega

theorem Invariant.not_gone (h : Invariant mask s) (hchild : s.child.isSome = true)
    (hhandled : s.process.handled .SIGUSR1 = 0) : s.parent.Gone = false := by
  have hforked := h.child.symm.trans hchild
  have hshape := h.shape
  cases hplace : s.parent with
  | ended ok =>
      rw [hplace] at hshape
      cases hshape with
      | running runs _ _ _ _ => cases runs
      | ended _ _ hone => cases hone.symm.trans hhandled
  | failed =>
      rw [hplace] at hforked
      cases hforked
  | _ => rfl

theorem Invariant.handled_of_got (h : Invariant mask s) (hgot : s.parent.Got = true) :
    s.process.handled .SIGUSR1 = 1 := by
  have hshape := h.shape
  cases hplace : s.parent with
  | resumed =>
      rw [hplace] at hshape
      cases hshape with
      | running _ _ _ _ hhandled => exact hhandled
  | ended ok =>
      rw [hplace] at hshape
      cases hshape with
      | running runs _ _ _ _ => cases runs
      | ended _ _ hhandled => exact hhandled
  | _ =>
      rw [hplace] at hgot
      cases hgot

theorem Shape.of_pending {place : ParentPlace} {p : Process Sig Body} (h : Shape mask place p)
    (pending sent : Sig → Nat) : Shape mask place { p with pending := pending, sent := sent } := by
  cases h with
  | running runs masked frames waiting handled => exact .running runs masked frames waiting handled
  | asleep masked frames waiting handled => exact .asleep masked frames waiting handled
  | handling masked frames saved waiting handled =>
      exact .handling masked frames saved waiting handled
  | awake masked frames waiting handled => exact .awake masked frames waiting handled
  | ended masked frames handled => exact .ended masked frames handled
  | failed frames handled => exact .failed frames handled

theorem Invariant.childStep {call : ChildCall} (h : Invariant mask s)
    (hstep : childStep s call = some s') : Invariant mask s' := by
  have hforked := h.child
  have hlog := h.log
  cases call with
  | printStart =>
      obtain ⟨hchild, heq⟩ := Option.ite_none_right_eq_some.mp hstep
      obtain rfl := Option.some.inj heq
      have hcounted := h.counted
      rw [hchild] at hcounted hforked
      rw [System.announced, hchild] at hlog
      exact ⟨h.shape, h.saved, hcounted, hforked, (filter_print rfl _).trans hlog⟩
  | printSendSignal =>
      obtain ⟨hchild, heq⟩ := Option.ite_none_right_eq_some.mp hstep
      obtain rfl := Option.some.inj heq
      have hhandled := (h.unsent hchild rfl).1
      have hcounted := h.counted
      rw [hchild] at hcounted hforked
      have hgot : s.parent.Got = false := by
        cases hgot : s.parent.Got with
        | false => rfl
        | true => cases (h.handled_of_got hgot).symm.trans hhandled
      refine ⟨h.shape, h.saved, hcounted, hforked, ?_⟩
      change (s.log ++ [Event.childSendSignal]).filter Event.Synchronising =
        lines true (handlerPrinted s.process) s.parent.Got
      rw [filter_synchronising rfl, hlog, System.announced, hchild,
        handlerPrinted_of_unhandled hhandled, hgot]
      rfl
  | kill ok =>
      obtain ⟨hchild, heq⟩ := Option.ite_none_right_eq_some.mp hstep
      obtain rfl := Option.some.inj heq
      obtain ⟨hhandled, hpending⟩ := h.unsent hchild rfl
      rw [hchild] at hforked
      rw [System.announced, hchild] at hlog
      cases ok with
      | true =>
          have hgone := h.not_gone (by rw [hchild]; rfl) hhandled
          rw [hgone]
          refine ⟨h.shape.of_pending _ _, h.saved, ?_, hforked, hlog⟩
          change s.process.handled .SIGUSR1 + Function.update s.process.pending .SIGUSR1
            (min (s.process.pending .SIGUSR1 + 1) 1) .SIGUSR1 = 1
          rw [Function.update_self, hhandled, hpending]
          rfl
      | false =>
          have hcounted := h.counted
          rw [hchild] at hcounted
          exact ⟨h.shape, h.saved, hcounted, hforked, hlog⟩
  | printOver =>
      obtain ⟨hchild, heq⟩ := Option.ite_none_right_eq_some.mp hstep
      obtain rfl := Option.some.inj heq
      have hcounted := h.counted
      rw [hchild] at hcounted hforked
      rw [System.announced, hchild] at hlog
      exact ⟨h.shape, h.saved, hcounted, hforked, (filter_print rfl _).trans hlog⟩

/-- Nothing is delivered but in `sigsuspend`. -/
theorem Invariant.deliverable (h : Invariant mask s) (hgone : s.parent.Gone = false)
    (hdeliverable : s.process.Deliverable .SIGUSR1) : s.parent = .suspended ∧
      s.process.frames = [] ∧ s.process.handled .SIGUSR1 = 0 ∧
        s.process.waiting = some (blocking mask) := by
  obtain ⟨hpending, hmask⟩ := hdeliverable
  have hshape := h.shape
  cases hplace : s.parent with
  | started =>
      have hcounted := h.counted
      rw [h.unforked (by rw [hplace]; rfl)] at hcounted
      exact absurd (Nat.le_of_eq hcounted) (Nat.not_le_of_lt (Nat.lt_of_lt_of_le hpending
        (Nat.le_add_left _ _)))
  | suspended =>
      rw [hplace] at hshape
      cases hshape with
      | running runs _ _ _ _ => cases runs
      | asleep _ hframes hwaiting hhandled => exact ⟨rfl, hframes, hhandled, hwaiting⟩
      | handling htrue _ _ _ _ => cases htrue.symm.trans hmask
      | awake hblocking _ _ _ =>
          rw [hblocking, blocking_self] at hmask
          cases hmask
  | blocked | installed | forked | announced | resumed =>
      rw [hplace] at hshape
      cases hshape with
      | running _ hblocking _ _ _ =>
          rw [hblocking] at hmask
          cases (blocking_self mask).symm.trans hmask
  | ended _ | failed =>
      rw [hplace] at hgone
      cases hgone

theorem Invariant.deliver_cases (h : Invariant mask s) (hstep : step s .deliver = some s') :
    ∃ process, s.parent.Gone = false ∧ s.process.deliver blocks .entered .SIGUSR1 = some process ∧
      s' = { s with process := process } := by
  rw [step] at hstep
  split at hstep
  · cases hstep
  · rename_i hgone
    have halive : s.parent.Gone = false := Bool.eq_false_iff.mpr hgone
    split at hstep
    · rename_i hplace
      split at hstep
      · rename_i hdeliverable
        rw [(h.deliverable halive hdeliverable).1] at hplace
        rcases hplace with hplace | hplace
        · cases hplace
        · cases hplace
      · cases hstep
    · obtain ⟨process, hdeliver, heq⟩ := Option.bind_eq_some_iff.mp hstep
      exact ⟨process, halive, hdeliver, (Option.some.inj heq).symm⟩

theorem Invariant.deliver (h : Invariant mask s) (hgone : s.parent.Gone = false)
    {process : Process Sig Body}
    (hdeliver : s.process.deliver blocks .entered .SIGUSR1 = some process) :
    Invariant mask { s with process := process } := by
  have hsum := Process.handled_add_pending_deliver hdeliver .SIGUSR1
  obtain ⟨hdeliverable, rfl⟩ := Process.deliver_eq_some hdeliver
  obtain ⟨hplace, hframes, hhandled, hwaiting⟩ := h.deliverable hgone hdeliverable
  have hone : Function.update s.process.handled .SIGUSR1 (s.process.handled .SIGUSR1 + 1)
      .SIGUSR1 = 1 := by
    rw [Function.update_self, hhandled]
  refine ⟨?_, h.saved, hsum.trans h.counted, h.child, ?_⟩
  · rw [hplace]
    refine .handling (Bool.or_true _) (congrArg _ hframes) ?_ rfl hone
    change s.process.waiting.getD s.process.mask = _
    rw [hwaiting]
    rfl
  · rw [h.log, handlerPrinted_of_unhandled hhandled]
    exact (congrArg (lines s.announced · s.parent.Got) (handlerPrinted_of_entered rfl)).symm

theorem Invariant.handling (h : Invariant mask s) {frame : Frame Sig Body}
    {frames : List (Frame Sig Body)} (hframes : s.process.frames = frame :: frames) :
    s.parent = .suspended ∧ frames = [] ∧ frame.saved = blocking mask ∧
      s.process.mask .SIGUSR1 = true ∧ s.process.waiting = none ∧
      s.process.handled .SIGUSR1 = 1 := by
  have hshape := h.shape
  generalize s.parent = place at hshape
  cases hshape with
  | handling hmask hframe hsaved hwaiting hhandled =>
      obtain ⟨rfl, rfl⟩ := List.cons.inj (hframe.symm.trans hframes)
      exact ⟨rfl, rfl, hsaved, hmask, hwaiting, hhandled⟩
  | running _ _ hnone _ _ | asleep _ hnone _ _ | awake _ hnone _ _ | ended _ hnone _
  | failed hnone _ => cases hnone.symm.trans hframes

theorem Invariant.handle (h : Invariant mask s) {sig : Sig} {saved : Sig → Bool}
    {frames : List (Frame Sig Body)}
    (hframes : s.process.frames = ⟨sig, saved, .entered⟩ :: frames) :
    Invariant mask { s.print .gotSignal with
      process := { s.process with frames := ⟨sig, saved, .printed⟩ :: frames } } := by
  obtain ⟨hplace, rfl, hsaved, hmask, hwaiting, hhandled⟩ := h.handling hframes
  refine ⟨?_, h.saved, h.counted, h.child, ?_⟩
  · change Shape mask s.parent _
    rw [hplace]
    exact .handling hmask rfl hsaved hwaiting hhandled
  · have hprinted : handlerPrinted { s.process with frames := [⟨sig, saved, .printed⟩] } = true :=
      handlerPrinted_of_printed hhandled fun frame hframe => by
        rw [List.mem_singleton.mp hframe]
    change (s.log ++ [Event.gotSignal]).filter Event.Synchronising =
      lines s.announced (handlerPrinted { s.process with frames := [⟨sig, saved, .printed⟩] })
        s.parent.Got
    rw [filter_synchronising rfl, h.log, handlerPrinted_of_entered hframes, hprinted, hplace]
    cases s.announced with
    | true => rfl
    | false => rfl

theorem Invariant.sigreturn (h : Invariant mask s) {sig : Sig} {saved : Sig → Bool}
    {frames : List (Frame Sig Body)}
    (hframes : s.process.frames = ⟨sig, saved, .printed⟩ :: frames) {process : Process Sig Body}
    (hreturn : s.process.sigreturn = some process) :
    Invariant mask { s with process := process } := by
  obtain ⟨top, rest, htop, rfl⟩ := Process.sigreturn_eq_some hreturn
  obtain ⟨rfl, rfl⟩ := List.cons.inj (htop.symm.trans hframes)
  obtain ⟨hplace, rfl, hsaved, _, hwaiting, hhandled⟩ := h.handling hframes
  have hbefore : handlerPrinted s.process = true :=
    handlerPrinted_of_printed hhandled fun frame hframe => by
      rw [hframes] at hframe
      rw [List.mem_singleton.mp hframe]
  have hbehind : handlerPrinted { s.process with mask := saved, frames := [] } = true :=
    handlerPrinted_of_printed hhandled fun frame hframe => by cases hframe
  refine ⟨?_, h.saved, h.counted, h.child, ?_⟩
  · rw [hplace]
    exact .awake hsaved rfl hwaiting hhandled
  · rw [h.log, hbefore]
    exact (congrArg (lines s.announced · s.parent.Got) hbehind).symm

theorem Invariant.step {action : Action} (h : Invariant mask s) (hstep : step s action = some s') :
    Invariant mask s' := by
  cases action with
  | parent call => exact h.parentStep hstep
  | child call => exact h.childStep hstep
  | deliver =>
      obtain ⟨process, halive, hdeliver, rfl⟩ := h.deliver_cases hstep
      exact h.deliver halive hdeliver
  | handle =>
      rw [SyncProcess.step] at hstep
      split at hstep
      · rename_i hframes
        obtain rfl := Option.some.inj hstep
        exact h.handle hframes
      · cases hstep
  | sigreturn =>
      rw [SyncProcess.step] at hstep
      split at hstep
      · rename_i hframes
        obtain ⟨process, hreturn, heq⟩ := Option.bind_eq_some_iff.mp hstep
        obtain rfl := Option.some.inj heq
        exact h.sigreturn hframes hreturn
      · cases hstep

theorem lines_prefix {announced printed got : Bool} (hprinted : printed = true → announced = true)
    (hgot : got = true → printed = true) :
    lines announced printed got <+: [.childSendSignal, .gotSignal, .fatherGotSignal] := by
  revert announced printed got
  decide

theorem Invariant.announced_of_handled (h : Invariant mask s)
    (hhandled : s.process.handled .SIGUSR1 = 1) : s.announced = true := by
  have hcounted := h.counted
  rw [System.announced]
  rcases hchild : s.child with - | child
  · rw [hchild, hhandled] at hcounted
    exact absurd hcounted (Nat.ne_of_gt (Nat.lt_of_lt_of_le Nat.one_pos (Nat.le_add_right 1 _)))
  · rw [hchild, hhandled] at hcounted
    cases child with
    | forked | started =>
        exact absurd hcounted (Nat.ne_of_gt (Nat.lt_of_lt_of_le Nat.one_pos
          (Nat.le_add_right 1 _)))
    | sending | sent | ended _ => rfl

theorem Invariant.ordered (h : Invariant mask s) : Ordered s := by
  rw [Ordered, h.log]
  refine lines_prefix (fun hprinted => h.announced_of_handled ?_) (fun hgot => ?_)
  · rw [handlerPrinted, Bool.and_eq_true] at hprinted
    exact of_decide_eq_true hprinted.1
  · refine handlerPrinted_of_printed (h.handled_of_got hgot) fun frame hframe => ?_
    have hframes : s.process.frames = [] := by
      cases hrunning : s.process.frames with
      | nil => rfl
      | cons top rest =>
          rw [(h.handling hrunning).1] at hgot
          cases hgot
    rw [hframes] at hframe
    cases hframe

/-- No process has met a call that failed. -/
structure Untroubled (s : System) : Prop where
  parent : s.parent ≠ .failed ∧ s.parent ≠ .ended false
  child : s.child ≠ some (.ended false)

theorem Invariant.main (h : Invariant mask s) (hruns : s.parent.Runs = true) : s.Main s.parent := by
  have hshape := h.shape
  refine ⟨rfl, ?_⟩
  generalize s.parent = place at hshape hruns
  cases hshape with
  | running _ _ hframes hwaiting _ => exact ⟨hframes, hwaiting⟩
  | asleep _ _ _ _ | handling _ _ _ _ _ | awake _ _ _ _ | ended _ _ _ | failed _ _ =>
      cases hruns

theorem exists_parentStep {place : ParentPlace} (hmain : s.Main place)
    (hruns : place.Runs = true) :
    ∃ call, (Action.parent call).Regular ∧ parentStep s call ≠ none := by
  cases place with
  | started => exact ⟨.block true, rfl, by rw [parentStep, if_pos hmain]; exact nofun⟩
  | blocked => exact ⟨.sigaction true, rfl, by rw [parentStep, if_pos hmain]; exact nofun⟩
  | installed => exact ⟨.fork true, rfl, by rw [parentStep, if_pos hmain]; exact nofun⟩
  | forked => exact ⟨.printStart, trivial, by rw [parentStep, if_pos hmain]; exact nofun⟩
  | announced => exact ⟨.sigsuspend, trivial, by rw [parentStep, if_pos hmain]; exact nofun⟩
  | resumed => exact ⟨.restore true, rfl, by rw [parentStep, if_pos hmain]; exact nofun⟩
  | suspended | ended _ | failed => cases hruns

theorem child_of_stuck (h : Untroubled s) (hstuck : Stuck s) {child : ChildPlace}
    (hchild : s.child = some child) : child = .ended true := by
  cases child with
  | forked =>
      have hnone := hstuck (.child .printStart) trivial
      rw [step, childStep, if_pos hchild] at hnone
      cases hnone
  | started =>
      have hnone := hstuck (.child .printSendSignal) trivial
      rw [step, childStep, if_pos hchild] at hnone
      cases hnone
  | sending =>
      have hnone := hstuck (.child (.kill true)) rfl
      rw [step, childStep, if_pos hchild] at hnone
      cases hnone
  | sent =>
      have hnone := hstuck (.child .printOver) trivial
      rw [step, childStep, if_pos hchild] at hnone
      cases hnone
  | ended ok =>
      cases ok with
      | true => rfl
      | false => exact absurd hchild h.child

theorem not_suspended_of_stuck (h : Invariant mask s) (huntroubled : Untroubled s)
    (hstuck : Stuck s) : s.parent ≠ .suspended := by
  intro hplace
  have hchild := h.child
  rw [hplace] at hchild
  obtain ⟨child, hchild⟩ := Option.isSome_iff_exists.mp hchild
  obtain rfl := child_of_stuck huntroubled hstuck hchild
  have hcounted := h.counted
  rw [hchild] at hcounted
  have hshape := h.shape
  rw [hplace] at hshape
  cases hshape with
  | running runs _ _ _ _ => cases runs
  | asleep hmask hframes hwaiting hhandled =>
      have hpending : 0 < s.process.pending .SIGUSR1 := by
        rw [hhandled, Nat.zero_add] at hcounted
        rw [hcounted]
        exact Nat.one_pos
      have hnone := hstuck .deliver trivial
      simp [step, hplace, ParentPlace.Gone, Process.deliver, Process.Deliverable, hpending,
        hmask] at hnone
  | @handling _ frame _ hframes _ _ _ =>
      rcases frame with ⟨sig, saved, body⟩
      cases body with
      | entered =>
          have hnone := hstuck .handle trivial
          rw [step, hframes] at hnone
          cases hnone
      | printed =>
          have hnone := hstuck .sigreturn trivial
          rw [step, hframes] at hnone
          change (s.process.sigreturn.bind fun process => _) = none at hnone
          rw [Process.sigreturn, hframes] at hnone
          cases hnone
  | awake _ hframes hwaiting _ =>
      have hnone := hstuck (.parent .printGotSignal) trivial
      rw [step, parentStep, if_pos ⟨hplace, hframes, hwaiting⟩] at hnone
      cases hnone

theorem completed_of_invariant (h : Invariant mask s) (huntroubled : Untroubled s)
    (hstuck : Stuck s) : Completed mask s := by
  have hruns : s.parent.Runs = false := by
    refine Bool.eq_false_iff.mpr fun hruns => ?_
    obtain ⟨call, hregular, hstep⟩ := exists_parentStep (h.main hruns) hruns
    exact hstep (hstuck (.parent call) hregular)
  have hplace : s.parent = .ended true := by
    have hsuspended := not_suspended_of_stuck h huntroubled hstuck
    have hfailed := huntroubled.parent
    generalize s.parent = place at hruns hsuspended hfailed
    cases place with
    | suspended => exact absurd rfl hsuspended
    | failed => exact absurd rfl hfailed.1
    | ended ok =>
        cases ok with
        | true => rfl
        | false => exact absurd rfl hfailed.2
    | _ => cases hruns
  have hforked := h.child
  rw [hplace] at hforked
  obtain ⟨child, hchild⟩ := Option.isSome_iff_exists.mp hforked
  obtain rfl := child_of_stuck huntroubled hstuck hchild
  have hhandled : s.process.handled .SIGUSR1 = 1 := h.handled_of_got (by rw [hplace]; rfl)
  have hcounted := h.counted
  rw [hchild, hhandled] at hcounted
  have hshape := h.shape
  rw [hplace] at hshape
  cases hshape with
  | running runs _ _ _ _ => cases runs
  | ended hmask hframes _ =>
      refine ⟨hplace, hchild, ⟨hhandled, Nat.add_left_cancel hcounted⟩, hmask rfl, ?_⟩
      have hprinted : handlerPrinted s.process = true :=
        handlerPrinted_of_printed hhandled fun frame hframe => by
          rw [hframes] at hframe
          cases hframe
      rw [h.log, hprinted, h.announced_of_handled hhandled, hplace]
      rfl

theorem Untroubled.parentStep {call : ParentCall} (h : Untroubled s)
    (hregular : (Action.parent call).Regular) (hstep : parentStep s call = some s') :
    Untroubled s' := by
  cases call with
  | block ok | sigaction ok =>
      obtain rfl : ok = true := hregular
      obtain ⟨_, heq⟩ := Option.ite_none_right_eq_some.mp hstep
      obtain rfl := Option.some.inj heq
      exact ⟨⟨nofun, nofun⟩, h.child⟩
  | fork ok =>
      obtain rfl : ok = true := hregular
      obtain ⟨_, heq⟩ := Option.ite_none_right_eq_some.mp hstep
      obtain rfl := Option.some.inj heq
      exact ⟨⟨nofun, nofun⟩, nofun⟩
  | printStart | sigsuspend | printGotSignal =>
      obtain ⟨_, heq⟩ := Option.ite_none_right_eq_some.mp hstep
      obtain rfl := Option.some.inj heq
      exact ⟨⟨nofun, nofun⟩, h.child⟩
  | restore ok =>
      obtain rfl : ok = true := hregular
      obtain ⟨_, heq⟩ := Option.ite_none_right_eq_some.mp hstep
      obtain rfl := Option.some.inj heq
      exact ⟨⟨nofun, nofun⟩, h.child⟩

theorem Untroubled.childStep {call : ChildCall} (h : Untroubled s)
    (hregular : (Action.child call).Regular) (hstep : childStep s call = some s') :
    Untroubled s' := by
  cases call with
  | kill ok =>
      obtain rfl : ok = true := hregular
      obtain ⟨_, heq⟩ := Option.ite_none_right_eq_some.mp hstep
      obtain rfl := Option.some.inj heq
      exact ⟨h.parent, nofun⟩
  | printStart | printSendSignal | printOver =>
      obtain ⟨_, heq⟩ := Option.ite_none_right_eq_some.mp hstep
      obtain rfl := Option.some.inj heq
      exact ⟨h.parent, nofun⟩

theorem Untroubled.step {action : Action} (hinvariant : Invariant mask s) (h : Untroubled s)
    (hregular : action.Regular) (hstep : step s action = some s') : Untroubled s' := by
  cases action with
  | parent call => exact h.parentStep hregular hstep
  | child call => exact h.childStep hregular hstep
  | deliver =>
      obtain ⟨process, _, _, rfl⟩ := hinvariant.deliver_cases hstep
      exact ⟨h.parent, h.child⟩
  | handle =>
      rw [SyncProcess.step] at hstep
      split at hstep
      · obtain rfl := Option.some.inj hstep
        exact ⟨h.parent, h.child⟩
      · cases hstep
  | sigreturn =>
      rw [SyncProcess.step] at hstep
      split at hstep
      · obtain ⟨process, _, heq⟩ := Option.bind_eq_some_iff.mp hstep
        obtain rfl := Option.some.inj heq
        exact ⟨h.parent, h.child⟩
      · cases hstep

def ParentPlace.rank : ParentPlace → Nat
  | .started => 0
  | .blocked => 1
  | .installed => 2
  | .forked => 3
  | .announced => 4
  | .suspended => 5
  | .resumed => 6
  | .ended _ | .failed => 7

def ChildPlace.rank : ChildPlace → Nat
  | .forked => 0
  | .started => 1
  | .sending => 2
  | .sent => 3
  | .ended _ => 4

/-- What has become of the signal. -/
def signalRank (p : Process Sig Body) : Nat :=
  match p.frames with
  | [] => 3 * p.handled .SIGUSR1
  | frame :: _ => if frame.body = .entered then 1 else 2

def rank (s : System) : Nat :=
  s.parent.rank + (s.child.map ChildPlace.rank).getD 0 + signalRank s.process

theorem rank_parent {old : ParentPlace} (hplace : s.parent = old)
    (hless : old.rank < s'.parent.rank)
    (hchild : s'.child = s.child ∨ s.child = none)
    (hsignal : signalRank s'.process = signalRank s.process) : rank s + 1 ≤ rank s' := by
  have hrank : (s.child.map ChildPlace.rank).getD 0 ≤ (s'.child.map ChildPlace.rank).getD 0 := by
    rcases hchild with hsame | hnone
    · exact Nat.le_of_eq (by rw [hsame])
    · rw [hnone]
      exact Nat.zero_le _
  rw [rank, rank, hsignal, hplace]
  omega

theorem rank_parentStep {call : ParentCall} (h : Invariant mask s)
    (hstep : parentStep s call = some s') : rank s + 1 ≤ rank s' := by
  cases call with
  | block ok =>
      obtain ⟨hmain, heq⟩ := Option.ite_none_right_eq_some.mp hstep
      obtain rfl := Option.some.inj heq
      cases ok with
      | true => exact rank_parent hmain.1 (Nat.le_of_ble_eq_true rfl) (Or.inl rfl) rfl
      | false => exact rank_parent hmain.1 (Nat.le_of_ble_eq_true rfl) (Or.inl rfl) rfl
  | sigaction ok =>
      obtain ⟨hmain, heq⟩ := Option.ite_none_right_eq_some.mp hstep
      obtain rfl := Option.some.inj heq
      cases ok with
      | true => exact rank_parent hmain.1 (Nat.le_of_ble_eq_true rfl) (Or.inl rfl) rfl
      | false => exact rank_parent hmain.1 (Nat.le_of_ble_eq_true rfl) (Or.inl rfl) rfl
  | fork ok =>
      obtain ⟨hmain, heq⟩ := Option.ite_none_right_eq_some.mp hstep
      obtain rfl := Option.some.inj heq
      cases ok with
      | true =>
          have hchild : s.child = none := h.unforked (by rw [hmain.1]; rfl)
          exact rank_parent hmain.1 (Nat.le_of_ble_eq_true rfl) (Or.inr hchild) rfl
      | false => exact rank_parent hmain.1 (Nat.le_of_ble_eq_true rfl) (Or.inl rfl) rfl
  | printStart | sigsuspend | printGotSignal =>
      obtain ⟨hmain, heq⟩ := Option.ite_none_right_eq_some.mp hstep
      obtain rfl := Option.some.inj heq
      exact rank_parent hmain.1 (Nat.le_of_ble_eq_true rfl) (Or.inl rfl) rfl
  | restore ok =>
      obtain ⟨hmain, heq⟩ := Option.ite_none_right_eq_some.mp hstep
      obtain rfl := Option.some.inj heq
      cases ok with
      | true => exact rank_parent hmain.1 (Nat.le_of_ble_eq_true rfl) (Or.inl rfl) rfl
      | false => exact rank_parent hmain.1 (Nat.le_of_ble_eq_true rfl) (Or.inl rfl) rfl

theorem rank_child {old new : ChildPlace} (hold : s.child = some old)
    (hnew : s'.child = some new) (hless : old.rank < new.rank) (hparent : s'.parent = s.parent)
    (hsignal : signalRank s'.process = signalRank s.process) : rank s + 1 ≤ rank s' := by
  rw [rank, rank, hsignal, hparent, hold, hnew]
  change s.parent.rank + old.rank + _ + 1 ≤ s.parent.rank + new.rank + _
  omega

theorem rank_childStep {call : ChildCall} (hstep : childStep s call = some s') :
    rank s + 1 ≤ rank s' := by
  cases call with
  | printStart | printSendSignal | printOver =>
      obtain ⟨hchild, heq⟩ := Option.ite_none_right_eq_some.mp hstep
      obtain rfl := Option.some.inj heq
      exact rank_child hchild rfl (Nat.le_of_ble_eq_true rfl) rfl rfl
  | kill ok =>
      obtain ⟨hchild, heq⟩ := Option.ite_none_right_eq_some.mp hstep
      obtain rfl := Option.some.inj heq
      cases ok with
      | true =>
          refine rank_child hchild rfl (Nat.le_of_ble_eq_true rfl) rfl ?_
          change signalRank (if s.parent.Gone then _ else _) = _
          split
          · rfl
          · rfl
      | false => exact rank_child hchild rfl (Nat.le_of_ble_eq_true rfl) rfl rfl

theorem rank_signal (hparent : s'.parent = s.parent) (hchild : s'.child = s.child)
    (hless : signalRank s.process < signalRank s'.process) : rank s + 1 ≤ rank s' := by
  rw [rank, rank, hparent, hchild]
  omega

theorem rank_step {action : Action} (h : Invariant mask s) (hstep : step s action = some s') :
    rank s + 1 ≤ rank s' := by
  cases action with
  | parent call => exact rank_parentStep h hstep
  | child call => exact rank_childStep hstep
  | deliver =>
      obtain ⟨process, halive, hdeliver, rfl⟩ := h.deliver_cases hstep
      obtain ⟨hdeliverable, rfl⟩ := Process.deliver_eq_some hdeliver
      obtain ⟨_, hframes, hhandled, _⟩ := h.deliverable halive hdeliverable
      refine rank_signal rfl rfl ?_
      rw [signalRank, hframes, hhandled]
      exact Nat.one_pos
  | handle =>
      rw [step] at hstep
      split at hstep
      · rename_i hframes
        obtain rfl := Option.some.inj hstep
        refine rank_signal rfl rfl ?_
        rw [signalRank, hframes]
        exact Nat.lt_succ_self 1
      · cases hstep
  | sigreturn =>
      rw [step] at hstep
      split at hstep
      · rename_i hframes
        obtain ⟨process, hreturn, heq⟩ := Option.bind_eq_some_iff.mp hstep
        obtain rfl := Option.some.inj heq
        obtain ⟨top, rest, htop, rfl⟩ := Process.sigreturn_eq_some hreturn
        obtain ⟨rfl, rfl⟩ := List.cons.inj (htop.symm.trans hframes)
        obtain ⟨_, rfl, _, _, _, hhandled⟩ := h.handling hframes
        refine rank_signal rfl rfl ?_
        rw [signalRank, hframes]
        change 2 < 3 * s.process.handled .SIGUSR1
        rw [hhandled]
        exact Nat.lt_succ_self 2
      · cases hstep

theorem rank_le (h : Invariant mask s) : rank s ≤ 14 := by
  have hparent : s.parent.rank ≤ 7 := by
    cases s.parent <;> exact Nat.le_of_ble_eq_true rfl
  have hchild : (s.child.map ChildPlace.rank).getD 0 ≤ 4 := by
    rcases s.child with - | child
    · exact Nat.zero_le 4
    · cases child <;> exact Nat.le_of_ble_eq_true rfl
  have hsignal : signalRank s.process ≤ 3 := by
    rw [signalRank]
    split
    · have hcounted := h.counted
      have hkills : (s.child.map ChildPlace.kills).getD 0 ≤ 1 := by
        rcases s.child with - | child
        · exact Nat.zero_le 1
        · rcases child with - | - | - | - | (- | -) <;> decide
      omega
    · split
      · decide
      · decide
  rw [rank]
  omega

/-- In every run, whichever calls fail. -/
theorem signal_ordered (mask origMask : Sig → Bool) (actions : List Action) :
    EveryState step Ordered (.start mask origMask) actions := by
  have hinvariant : EveryState step (Invariant mask) (.start mask origMask) actions :=
    invariant (invariant_start mask origMask) (fun _ _ _ h hstep => h.step hstep) actions
  exact fun visited hvisited s hrun => (hinvariant visited hvisited s hrun).ordered

/-- Where no call fails, the parent does not wait for ever. -/
theorem signal_awaited (mask origMask : Sig → Bool) (actions : List Action) (s : System)
    (hregular : ∀ action ∈ actions, action.Regular)
    (hrun : run step (.start mask origMask) actions = some s) :
    (Stuck s → Completed mask s) ∧ actions.length ≤ 14 := by
  have hstart := invariant_start mask origMask
  have hinvariant : Invariant mask s :=
    (invariant hstart (fun _ _ _ h hstep => h.step hstep) actions).reached hrun
  have huntroubled : Invariant mask s ∧ Untroubled s :=
    (@invariant_of_everyStep _ _ _ (fun s => Invariant mask s ∧ Untroubled s)
      (fun _ action => action.Regular) (.start mask origMask) actions
      ⟨hstart, ⟨⟨nofun, nofun⟩, nofun⟩⟩
      (fun _ _ _ h hcond hstep => ⟨h.1.step hstep, h.2.step h.1 hcond hstep⟩)
      (everyStep_of_forall (fun action hmem _ => hregular action hmem) _)).reached hrun
  have hlength : rank (.start mask origMask) + actions.countP (fun _ => true) ≤ rank s :=
    @countP_le_rank _ _ step (Invariant mask) rank (fun _ => true)
      (fun _ _ _ h hstep => h.step hstep) (fun _ _ _ h hstep => rank_step h hstep)
      actions (.start mask origMask) s hstart hrun
  rw [List.countP_true] at hlength
  exact ⟨completed_of_invariant hinvariant huntroubled.2,
    Nat.le_trans (Nat.le_trans (Nat.le_add_left _ _) hlength) (rank_le hinvariant)⟩

/-- The child sends the signal before its parent has called `sigsuspend`. -/
def early : List Action :=
  [.parent (.block true), .parent (.sigaction true), .parent (.fork true), .child .printStart,
    .child .printSendSignal, .child (.kill true), .child .printOver, .parent .printStart,
    .parent .sigsuspend, .deliver, .handle, .sigreturn, .parent .printGotSignal,
    .parent (.restore true)]

theorem stuck_of_ended (hparent : s.parent = .ended true) (hchild : s.child = some (.ended true))
    (hframes : s.process.frames = []) : Stuck s := by
  intro action _
  cases action with
  | parent call =>
      cases call <;>
        exact if_neg fun hmain => by cases hparent.symm.trans hmain.1
  | child call =>
      cases call <;> exact if_neg fun hplace => by cases hchild.symm.trans hplace
  | deliver =>
      rw [step, hparent]
      rfl
  | handle | sigreturn =>
      rw [step, hframes]

theorem signal_awaited_early : ∃ s,
    run step (.start (fun _ => false) fun _ => true) early = some s ∧
      Completed (fun _ => false) s :=
  ⟨_, rfl, (signal_awaited _ _ early _ (by simp [early, Action.Regular]) rfl).1
    (stuck_of_ended rfl rfl rfl)⟩

end StudyLinuxKernel.Signal.SyncProcess
