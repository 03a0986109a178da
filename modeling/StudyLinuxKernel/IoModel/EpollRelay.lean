import StudyLinuxKernel.Libc.Text
import StudyLinuxKernel.Library.PartialStep
import StudyLinuxKernel.Library.UncheckedWrite

/-!
`terminal-io-epoll.c`: a child copies the terminal into a pipe, and the parent prints
what it reads there when `epoll_wait` says so.  It reads only for an event that is
EPOLLIN alone, and there is none once the child has closed its end of the pipe.
Whether what it prints is taken is not looked at.
-/

namespace StudyLinuxKernel.IoModel.EpollRelay

open StudyLinuxKernel.Libc.Text
open StudyLinuxKernel.Library.PartialStep
open StudyLinuxKernel.Library.UncheckedWrite

def messageSize : Nat := 1024

structure Events where
  EPOLLIN : Bool
  EPOLLHUP : Bool
  deriving DecidableEq

def EPOLLIN : Events := { EPOLLIN := true, EPOLLHUP := false }

inductive ChildPlace where
  | reading
  | writing (msg : Bytes)
  | ended
  deriving DecidableEq

inductive ParentPlace where
  | waiting
  | ready (events : Events)
  | ended
  deriving DecidableEq

/-- `input` is what the child has read of the terminal. -/
structure System where
  child : ChildPlace
  parent : ParentPlace
  input : Bytes
  pipe : Bytes
  output : Output UInt8

/-- Behind `fork`, where each process has closed the end that it does not use. -/
def System.start : System where
  child := .reading
  parent := .waiting
  input := []
  pipe := []
  output := .empty

inductive Action where
  | read (msg : Bytes)
  | readFails
  | write
  | writeFails
  | epollWait
  | epollFails
  | handle (n : Nat)
  | handleFails

/-- What `epoll_wait` reports of the read end. -/
def System.events (s : System) : Events where
  EPOLLIN := s.pipe ≠ []
  EPOLLHUP := s.child = .ended

def step (capacity : Nat) (s : System) : Action → Option System
  | .read msg =>
      match s.child with
      | .reading =>
          if msg.length ≤ messageSize then
            some { s with child := .writing msg, input := s.input ++ msg }
          else none
      | _ => none
  | .readFails =>
      match s.child with
      | .reading => some { s with child := .ended }
      | _ => none
  | .write =>
      match s.child with
      | .writing msg =>
          -- At the end of the input nothing is written, and the child reads again.
          if msg = [] then some { s with child := .reading }
          -- A pipe without a reader ends the child with SIGPIPE.
          else if s.parent = .ended then some { s with child := .ended }
          else if s.pipe.length + msg.length ≤ capacity then
            some { s with child := .reading, pipe := s.pipe ++ msg }
          else none
      | _ => none
  | .writeFails =>
      match s.child with
      | .writing _ => some { s with child := .ended }
      | _ => none
  | .epollWait =>
      match s.parent with
      | .waiting =>
          if s.pipe ≠ [] ∨ s.child = .ended then some { s with parent := .ready s.events }
          else none
      | _ => none
  | .epollFails =>
      match s.parent with
      | .waiting => some { s with parent := .ended }
      | _ => none
  | .handle n =>
      match s.parent with
      | .ready events =>
          if events = EPOLLIN then some { s with
            parent := .waiting
            pipe := s.pipe.drop messageSize
            output := s.output.write (s.pipe.take messageSize) n }
          else some { s with parent := .waiting }
      | _ => none
  | .handleFails =>
      match s.parent with
      | .ready _ => some { s with parent := .waiting }
      | _ => none

def ChildPlace.held : ChildPlace → Bytes
  | .writing msg => msg
  | .reading | .ended => []

/-- What the terminal gave has been handed over to be printed, is in the pipe or with
the child, in this order; only the end of the child and a `write` that falls short lose
something. -/
structure Copied (s : System) : Prop where
  printed : s.output.Ordered
  order : s.output.handed ++ s.pipe ++ s.child.held <+: s.input
  whole : s.child ≠ .ended → s.output.handed ++ s.pipe ++ s.child.held = s.input

variable {capacity : Nat} {s s' : System}

theorem copied_start : Copied .start := ⟨ordered_empty, List.prefix_refl [], fun _ => rfl⟩

theorem Copied.of_eq (hprinted : s.output.Ordered)
    (h : s.output.handed ++ s.pipe ++ s.child.held = s.input) : Copied s where
  printed := hprinted
  order := h ▸ List.prefix_refl _
  whole := fun _ => h

theorem Copied.ended (h : Copied s) : Copied { s with child := .ended } := by
  refine ⟨h.printed, ?_, fun hne => absurd rfl hne⟩
  change s.output.handed ++ s.pipe ++ [] <+: s.input
  rw [List.append_nil]
  exact (List.prefix_append _ _).trans h.order

/-- The steps, each with its guard. -/
inductive Moves (capacity : Nat) (s : System) : System → Prop where
  | read (msg : Bytes) : s.child = .reading → msg.length ≤ messageSize →
      Moves capacity s { s with child := .writing msg, input := s.input ++ msg }
  | nothingWritten : s.child = .writing [] → Moves capacity s { s with child := .reading }
  | written (msg : Bytes) : s.child = .writing msg →
      s.pipe.length + msg.length ≤ capacity →
      Moves capacity s { s with child := .reading, pipe := s.pipe ++ msg }
  | childEnded : s.child ≠ .ended → Moves capacity s { s with child := .ended }
  | reported : s.pipe ≠ [] ∨ s.child = .ended →
      Moves capacity s { s with parent := .ready s.events }
  | printed (n : Nat) : s.parent = .ready EPOLLIN → Moves capacity s { s with
      parent := .waiting
      pipe := s.pipe.drop messageSize
      output := s.output.write (s.pipe.take messageSize) n }
  | parentMoved (parent : ParentPlace) : (∀ events, parent ≠ .ready events) →
      Moves capacity s { s with parent := parent }

theorem moves_of_step {action : Action} (h : step capacity s action = some s') :
    Moves capacity s s' := by
  cases action with
  | read msg =>
      rw [step] at h
      split at h
      · rename_i hchild
        obtain ⟨hfits, heq⟩ := Option.ite_none_right_eq_some.mp h
        obtain rfl := Option.some.inj heq
        exact .read msg hchild hfits
      · cases h
  | write =>
      rw [step] at h
      split at h
      · rename_i msg hchild
        split at h
        · rename_i hmsg
          obtain rfl := Option.some.inj h
          rw [hmsg] at hchild
          exact .nothingWritten hchild
        · split at h
          · obtain rfl := Option.some.inj h
            exact .childEnded (by rw [hchild]; exact nofun)
          · obtain ⟨hroom, heq⟩ := Option.ite_none_right_eq_some.mp h
            obtain rfl := Option.some.inj heq
            exact .written msg hchild hroom
      · cases h
  | readFails | writeFails =>
      rw [step] at h
      split at h
      · rename_i hchild
        obtain rfl := Option.some.inj h
        exact .childEnded (by rw [hchild]; exact nofun)
      · cases h
  | epollWait =>
      rw [step] at h
      split at h
      · obtain ⟨hready, heq⟩ := Option.ite_none_right_eq_some.mp h
        obtain rfl := Option.some.inj heq
        exact .reported hready
      · cases h
  | epollFails | handleFails =>
      rw [step] at h
      split at h
      · obtain rfl := Option.some.inj h
        exact .parentMoved _ fun _ hready => by cases hready
      · cases h
  | handle n =>
      rw [step] at h
      split at h
      · rename_i events hready
        split at h
        · rename_i hevents
          obtain rfl := Option.some.inj h
          rw [hevents] at hready
          exact .printed n hready
        · obtain rfl := Option.some.inj h
          exact .parentMoved _ fun _ hready => by cases hready
      · cases h

theorem Copied.step (h : Copied s) (hmoves : Moves capacity s s') : Copied s' := by
  cases hmoves with
  | read msg hchild _ =>
      have hwhole := h.whole (by rw [hchild]; exact nofun)
      rw [hchild] at hwhole
      refine Copied.of_eq h.printed ?_
      change s.output.handed ++ s.pipe ++ msg = s.input ++ msg
      rw [← hwhole]
      exact congrArg (· ++ msg) (List.append_nil _).symm
  | nothingWritten hchild =>
      have hwhole := h.whole (by rw [hchild]; exact nofun)
      rw [hchild] at hwhole
      exact Copied.of_eq h.printed hwhole
  | written msg hchild _ =>
      have hwhole := h.whole (by rw [hchild]; exact nofun)
      rw [hchild] at hwhole
      refine Copied.of_eq h.printed ?_
      change s.output.handed ++ (s.pipe ++ msg) ++ [] = s.input
      rw [List.append_nil, ← List.append_assoc]
      exact hwhole
  | childEnded _ => exact h.ended
  | reported _ => exact ⟨h.printed, h.order, h.whole⟩
  | printed n _ =>
      have hsplit : s.output.handed ++ s.pipe.take messageSize ++ s.pipe.drop messageSize ++
          s.child.held = s.output.handed ++ s.pipe ++ s.child.held := by
        rw [List.append_assoc s.output.handed, List.take_append_drop]
      refine ⟨h.printed.write _ n, ?_, fun hne => ?_⟩
      · change s.output.handed ++ s.pipe.take messageSize ++ s.pipe.drop messageSize ++
          s.child.held <+: s.input
        rw [hsplit]
        exact h.order
      · exact hsplit.trans (h.whole hne)
  | parentMoved _ _ => exact ⟨h.printed, h.order, h.whole⟩

/-- The parent has printed what was in the pipe, as far as its array has room. -/
def PrintedOnce (s t : System) : Prop :=
  s.parent = .ready EPOLLIN ∧ ∃ n, t.output = s.output.write (s.pipe.take messageSize) n

/-- Behind a state `s` in which the child has ended: the parent reads once more at
most, for an event that it got before. -/
structure Drained (s t : System) : Prop where
  child : t.child = .ended
  output : (t.parent = s.parent ∧ t.pipe = s.pipe ∧ t.output = s.output) ∨
    (t.parent ≠ .ready EPOLLIN ∧ (t.output = s.output ∨ PrintedOnce s t))

theorem Drained.quiet {t : System} (h : Drained s t) {parent : ParentPlace}
    (hnew : parent ≠ .ready EPOLLIN) : Drained s { t with parent := parent } := by
  refine ⟨h.child, Or.inr ⟨hnew, ?_⟩⟩
  rcases h.output with ⟨_, _, houtput⟩ | ⟨_, houtput⟩
  · exact Or.inl houtput
  · exact houtput

theorem Drained.step {t t' : System} (h : Drained s t) (hmoves : Moves capacity t t') :
    Drained s t' := by
  have hended := h.child
  cases hmoves with
  | read _ hchild _ | nothingWritten hchild | written _ hchild _ =>
      rw [hended] at hchild
      cases hchild
  | childEnded hliving => exact absurd hended hliving
  | reported _ =>
      -- The end of the child comes with EPOLLHUP.
      refine h.quiet fun hready => ?_
      have hhup := congrArg Events.EPOLLHUP (ParentPlace.ready.inj hready)
      exact absurd (of_decide_eq_false hhup) (not_not_intro hended)
  | printed n hready =>
      refine ⟨hended, Or.inr ⟨nofun, Or.inr ?_⟩⟩
      rcases h.output with ⟨hparent, hpipe, houtput⟩ | ⟨hnot, _⟩
      · refine ⟨hparent.symm.trans hready, n, ?_⟩
        change t.output.write (t.pipe.take messageSize) n = _
        rw [hpipe, houtput]
      · exact absurd hready hnot
  | parentMoved parent hnew => exact h.quiet (hnew EPOLLIN)

/-- In every run what the terminal gave is printed in its order; what is in the pipe
when the child ends is lost, but for what the parent reads at most once. -/
theorem relay_drained (capacity : Nat) (before after : List Action) (s t : System)
    (hbefore : run (step capacity) .start before = some s)
    (hafter : run (step capacity) s after = some t) :
    Copied s ∧ (s.child = .ended → t.output = s.output ∨ PrintedOnce s t) := by
  have hcopied : EveryState (step capacity) Copied .start before :=
    invariant copied_start (fun _ _ _ h hstep => h.step (moves_of_step hstep)) before
  refine ⟨hcopied.reached hbefore, fun hended => ?_⟩
  have hdrained : EveryState (step capacity) (Drained s) s after :=
    invariant ⟨hended, Or.inl ⟨rfl, rfl, rfl⟩⟩
      (fun _ _ _ h hstep => h.step (moves_of_step hstep)) after
  rcases (hdrained.reached hafter).output with ⟨_, _, houtput⟩ | ⟨_, houtput⟩
  · exact Or.inl houtput
  · exact houtput

/-- A line that is written before the child ends, and is still in the pipe then. -/
def late : List Action := [.read (literal "a\n"), .write, .readFails]

theorem relay_drained_late : ∃ s t, run (step 4096) .start late = some s ∧
    run (step 4096) s [.epollWait, .handle 2, .epollWait, .handle 2] = some t ∧
      s.pipe = literal "a\n" ∧
      (Copied s ∧ (s.child = .ended → t.output = s.output ∨ PrintedOnce s t)) :=
  ⟨_, _, rfl, rfl, rfl, relay_drained 4096 late [.epollWait, .handle 2, .epollWait, .handle 2] _ _
    rfl rfl⟩

end StudyLinuxKernel.IoModel.EpollRelay
