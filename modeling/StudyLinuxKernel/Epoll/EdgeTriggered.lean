import StudyLinuxKernel.Epoll.EventLoop
import StudyLinuxKernel.Libc.Text
import StudyLinuxKernel.Library.StepBound
import StudyLinuxKernel.Library.UncheckedWrite

/-!
`terminal-io-epoll-et.c` as a whole: the child copies the terminal into a pipe, and
the loop of the parent reads the pipe when it is on the list of ready descriptors.
The kernel reports the pipe once for what comes into it.  The allocations of the parent
are taken to succeed; whether the terminal, which does not block, takes what the parent
prints is not looked at.
-/

namespace StudyLinuxKernel.Epoll.EdgeTriggered

open StudyLinuxKernel.Epoll.EventLoop
open StudyLinuxKernel.Epoll.ReadyList
open StudyLinuxKernel.Libc.Text
open StudyLinuxKernel.Library.OrderedSet
open StudyLinuxKernel.Library.PartialStep
open StudyLinuxKernel.Library.StepBound
open StudyLinuxKernel.Library.UncheckedWrite

/-- `sizeof msg` of the child and of the parent. -/
def childSize : Nat := 512

def parentSize : Nat := 4

inductive ChildPlace where
  | reading
  | writing (msg : Bytes)
  | ended
  deriving DecidableEq

/-- `passing` is behind `epoll_wait`, which has reported an event or none. -/
inductive ParentPlace where
  | adding
  | waiting
  | passing (event : Option EpollEvent)
  | ended
  deriving DecidableEq

/-- `edge` says that something has come to the pipe that was not reported; `input`
is what the child has read. -/
structure System where
  child : ChildPlace
  parent : ParentPlace
  edge : Bool
  loop : LoopState
  input : Bytes
  pipe : Bytes
  output : Output UInt8

def System.start : System where
  child := .reading
  parent := .adding
  edge := false
  loop := .start
  input := []
  pipe := []
  output := .empty

/-- A pass of the parent goes with the memory that its allocations get, and with the
number of bytes that the terminal takes of its message. -/
inductive Action where
  | childRead (msg : Bytes)
  | childWrite
  | childEnds
  | epollAdd
  | epollWait
  | epollFails
  | pass (addJunk removeJunk : Nat → Nat → EpollEvent) (n : Nat)

def EPOLLIN : UInt32 := 0x1

def EPOLLHUP : UInt32 := 0x10

/-- There is something to read, or the end of the input. -/
def System.Ready (s : System) : Prop := s.pipe ≠ [] ∨ s.child = .ended

instance (s : System) : Decidable s.Ready := inferInstanceAs (Decidable (_ ≠ [] ∨ _))

/-- The event of the pipe, with the `data` that it was added with. -/
def System.event (s : System) (data : UInt64) : EpollEvent where
  events := (if s.pipe ≠ [] then EPOLLIN else 0) ||| (if s.child = .ended then EPOLLHUP else 0)
  data := data

/-- `read` of the pipe, which does not block. -/
def System.numread (s : System) : ReadResult :=
  if s.pipe ≠ [] then .bytes (min parentSize s.pipe.length)
  else if s.child = .ended then .bytes 0
  else .error EAGAIN

/-- What a pass is given: one event at most, and the same read for every index. -/
def System.passOf (s : System) (event : Option EpollEvent)
    (addJunk removeJunk : Nat → Nat → EpollEvent) : Pass where
  eventReady := event.toList
  ready_le := by
    cases event with
    | none => exact Nat.zero_le 8
    | some event => exact Nat.le_of_ble_eq_true rfl
  numread := fun _ => s.numread
  addJunk := addJunk
  removeJunk := removeJunk

/-- The parent behind a pass that has read the pipe. -/
def System.read (s : System) (loop : LoopState) (n : Nat) : System :=
  { s with
    parent := .waiting
    loop := loop
    pipe := s.pipe.drop parentSize
    output := s.output.write (s.pipe.take parentSize) n }

def step (data : UInt64) (capacity : Nat) (s : System) : Action → Option System
  | .childRead msg =>
      match s.child with
      | .reading =>
          if msg ≠ [] ∧ msg.length ≤ childSize then
            some { s with child := .writing msg, input := s.input ++ msg }
          else none
      | _ => none
  | .childWrite =>
      match s.child with
      | .writing msg =>
          -- A pipe without a reader ends the child with SIGPIPE.
          if s.parent = .ended then some { s with child := .ended, edge := true }
          else if s.pipe.length + msg.length ≤ capacity then
            some { s with child := .reading, pipe := s.pipe ++ msg, edge := true }
          else none
      | _ => none
  -- Its `write` fails, or it is killed.
  | .childEnds =>
      if s.child = .ended then none else some { s with child := .ended, edge := true }
  | .epollAdd =>
      match s.parent with
      | .adding => some { s with parent := .waiting, edge := s.Ready }
      | _ => none
  | .epollWait =>
      match s.parent with
      | .waiting =>
          if s.edge = true ∧ s.Ready then
            some { s with parent := .passing (some (s.event data)), edge := false }
          else if s.loop.timeout = 0 then some { s with parent := .passing none }
          else none
      | _ => none
  | .epollFails =>
      match s.parent with
      | .waiting => some { s with parent := .ended }
      | _ => none
  | .pass addJunk removeJunk n =>
      match s.parent with
      | .passing event => do
          let loop ← mainPass s.loop (s.passOf event addJunk removeJunk)
          if loop.reads = [] then some { s with parent := .waiting, loop := loop }
          else some (s.read loop n)
      | _ => none

def ChildPlace.held : ChildPlace → Bytes
  | .writing msg => msg
  | .reading | .ended => []

/-- The parent is in `epoll_wait`, and does not come back by itself. -/
def Blocked (data : UInt64) (capacity : Nat) (s : System) : Prop :=
  s.parent = .waiting ∧ step data capacity s .epollWait = none

/-- Where the parent waits, the child is there, and all that it has written has been
handed over to be printed. -/
structure Settled (s : System) : Prop where
  child : s.child ≠ .ended
  pipe : s.pipe = []
  output : s.output.handed ++ s.child.held = s.input
  printed : s.output.Ordered

/-- The list has the pipe on it, or nothing. -/
def Single (data : UInt64) (listed : List EpollEvent) : Prop :=
  listed = [] ∨ ∃ event, listed = [event] ∧ event.data = data

structure Invariant (data : UInt64) (s : System) : Prop where
  loop : s.loop.Invariant
  single : Single data s.loop.readyFds.listed
  timeout : s.loop.timeout = if s.loop.readyFds.listed = [] then -1 else 0
  reported : ∀ event, s.parent = .passing (some event) → event.data = data
  printed : s.output.Ordered
  order : s.output.handed ++ s.pipe ++ s.child.held <+: s.input
  whole : s.child ≠ .ended → s.output.handed ++ s.pipe ++ s.child.held = s.input
  awake : s.Ready → s.edge = true ∨ s.loop.readyFds.listed ≠ [] ∨
    (∃ event, s.parent = .passing (some event)) ∨ s.parent = .adding

variable {data : UInt64} {capacity : Nat} {s s' : System}

theorem invariant_start (data : UInt64) : Invariant data .start where
  loop := EventLoop.invariant_start
  single := Or.inl rfl
  timeout := rfl
  reported := fun _ h => by cases h
  printed := ordered_empty
  order := List.prefix_refl []
  whole := fun _ => rfl
  awake := fun _ => Or.inr (Or.inr (Or.inr rfl))

theorem Single.length_le {listed : List EpollEvent} (h : Single data listed) :
    listed.length ≤ 1 := by
  rcases h with rfl | ⟨event, rfl, _⟩
  · exact Nat.zero_le 1
  · exact Nat.le_refl 1

theorem Single.dropLast {listed : List EpollEvent} (h : Single data listed) :
    listed.dropLast = [] := by
  rcases h with rfl | ⟨event, rfl, _⟩
  · rfl
  · rfl

theorem Single.listReady {listed : List EpollEvent} (h : Single data listed)
    {event : Option EpollEvent} (hevent : ∀ e, event = some e → e.data = data) :
    Single data (listReady listed event.toList) ∧
      (EventLoop.listReady listed event.toList = [] ↔ listed = [] ∧ event = none) := by
  rcases event with _ | e
  · exact ⟨h, (and_iff_left rfl).symm⟩
  · change Single data (insertLast EpollEvent.fd e listed) ∧
      (insertLast EpollEvent.fd e listed = [] ↔ _)
    rcases h with rfl | ⟨listedEvent, rfl, hdata⟩
    · have hinsert : insertLast EpollEvent.fd e [] = [e] :=
        insertLast_of_not_mem List.not_mem_nil
      rw [hinsert]
      exact ⟨Or.inr ⟨e, rfl, hevent e rfl⟩, by simp⟩
    · have hfd : e.fd = listedEvent.fd := by
        rw [EpollEvent.fd, EpollEvent.fd, hevent e rfl, hdata]
      have hinsert : insertLast EpollEvent.fd e [listedEvent] = [listedEvent] :=
        insertLast_of_mem (List.mem_singleton.mpr hfd)
      rw [hinsert]
      exact ⟨Or.inr ⟨listedEvent, rfl, hdata⟩, by simp⟩

/-- One pass reads the pipe once if its event is on the list or has come, and the
pipe leaves the list where there was nothing to read. -/
theorem mainPass_single {loop loop' : LoopState} (h : loop.Invariant)
    (hsingle : Single data loop.readyFds.listed) {event : Option EpollEvent}
    (hevent : ∀ e, event = some e → e.data = data) {addJunk removeJunk : Nat → Nat → EpollEvent}
    (hmain : mainPass loop (s.passOf event addJunk removeJunk) = some loop') :
    loop'.Invariant ∧ Single data loop'.readyFds.listed ∧
      loop'.timeout = (if loop'.readyFds.listed = [] then -1 else 0) ∧
      (loop'.reads = [] ↔ loop.readyFds.listed = [] ∧ event = none) ∧
      (loop'.readyFds.listed = [] ↔
        (loop.readyFds.listed = [] ∧ event = none) ∨ s.numread.again) := by
  generalize hpass : s.passOf event addJunk removeJunk = pass at hmain
  have hready : pass.eventReady = event.toList := by
    rw [← hpass]
    rfl
  have hnumread : ∀ i, pass.numread i = s.numread := by
    intro i
    rw [← hpass]
    rfl
  obtain ⟨hone, hempty⟩ := hsingle.listReady hevent
  rw [← hready] at hone hempty
  have honly : OnlyLastAgain loop pass := fun i hi =>
    absurd (hone.length_le) (Nat.not_le.mpr (Nat.lt_of_le_of_lt (Nat.le_add_left 1 i) hi))
  obtain ⟨added, hadd, hfits, hlisted⟩ := addReady_spec pass.addJunk pass.eventReady 0 h.fits
  have hdistinct := nodup_listReady pass.eventReady h.distinct
  rw [← hlisted] at hdistinct hone hempty
  have hsize := hfits.length_listed
  obtain ⟨after, hloop, hafter, hkept⟩ :=
    readLoop_reads pass added.size 0 [] hfits hdistinct (Nat.zero_le _) (Nat.le_add_left _ _)
      (fun j _ hj => by
        have hle := hone.length_le
        omega)
  rw [List.drop_zero, List.nil_append] at hloop
  have hinvariant := invariant_mainPass h honly hmain
  rw [mainPass, hadd] at hmain
  simp only [Option.bind_eq_bind, Option.bind_some, hloop] at hmain
  obtain rfl := Option.some.inj hmain
  rw [hnumread, ← hsize, hone.dropLast] at hkept
  refine ⟨hinvariant, ?_, ?_, ?_, ?_⟩
  · change Single data after.listed
    rw [hkept]
    split
    · exact Or.inl rfl
    · exact hone
  · exact if_congr (listed_eq_nil_iff hafter).symm rfl rfl
  · rw [← hempty]
    rcases added.listed with _ | ⟨first, rest⟩
    · exact iff_of_true rfl rfl
    · exact iff_of_false (List.cons_ne_nil _ _) (List.cons_ne_nil _ _)
  · change after.listed = [] ↔ _
    rw [hkept, ← hempty]
    rcases Decidable.em (added.listed = []) with hnil | hsome
    · rw [if_neg fun hboth => List.length_pos_iff.mp hboth.1 hnil]
      exact (or_iff_left_of_imp fun _ => hnil).symm
    · rcases Decidable.em s.numread.again with hagain | hread
      · rw [if_pos ⟨List.length_pos_iff.mpr hsome, hagain⟩]
        exact iff_of_true rfl (Or.inr hagain)
      · rw [if_neg fun hboth => hread hboth.2]
        exact (or_iff_left hread).symm

theorem numread_again_iff (s : System) : s.numread.again ↔ ¬ s.Ready := by
  rw [System.numread, System.Ready, ReadResult.again]
  rcases Decidable.em (s.pipe = []) with hempty | hfull
  · rw [if_neg fun hfull => hfull hempty]
    rcases Decidable.em (s.child = .ended) with hended | hlives
    · rw [if_pos hended]
      exact iff_of_false (by simp) fun hnot => hnot (Or.inr hended)
    · rw [if_neg hlives]
      exact iff_of_true rfl (not_or.mpr ⟨fun hfull => hfull hempty, hlives⟩)
  · rw [if_pos hfull]
    exact iff_of_false (by simp) fun hnot => hnot (Or.inl hfull)

inductive Moves (data : UInt64) (s : System) : Action → System → Prop
  | childRead {msg : Bytes} (reading : s.child = .reading) :
      Moves data s (.childRead msg)
        { s with child := .writing msg, input := s.input ++ msg }
  | childWrite {msg : Bytes} (writing : s.child = .writing msg) :
      Moves data s .childWrite
        { s with child := .reading, pipe := s.pipe ++ msg, edge := true }
  | childKilled {msg : Bytes} (writing : s.child = .writing msg) :
      Moves data s .childWrite { s with child := .ended, edge := true }
  | childEnds (there : s.child ≠ .ended) :
      Moves data s .childEnds { s with child := .ended, edge := true }
  | epollAdd (adding : s.parent = .adding) :
      Moves data s .epollAdd { s with parent := .waiting, edge := s.Ready }
  | reported (waiting : s.parent = .waiting) (ready : s.Ready) :
      Moves data s .epollWait { s with parent := .passing (some (s.event data)), edge := false }
  | polled (waiting : s.parent = .waiting) (timeout : s.loop.timeout = 0) :
      Moves data s .epollWait { s with parent := .passing none }
  | epollFails (waiting : s.parent = .waiting) :
      Moves data s .epollFails { s with parent := .ended }
  | passIdle {event : Option EpollEvent} {addJunk removeJunk : Nat → Nat → EpollEvent}
      {loop : LoopState} (n : Nat) (passing : s.parent = .passing event)
      (pass : mainPass s.loop (s.passOf event addJunk removeJunk) = some loop)
      (reads : loop.reads = []) :
      Moves data s (.pass addJunk removeJunk n) { s with parent := .waiting, loop := loop }
  | passRead {event : Option EpollEvent} {addJunk removeJunk : Nat → Nat → EpollEvent}
      {loop : LoopState} (n : Nat) (passing : s.parent = .passing event)
      (pass : mainPass s.loop (s.passOf event addJunk removeJunk) = some loop)
      (reads : loop.reads ≠ []) :
      Moves data s (.pass addJunk removeJunk n) (s.read loop n)

theorem moves_of_step {action : Action} (hstep : step data capacity s action = some s') :
    Moves data s action s' := by
  cases action with
  | childRead msg =>
      rw [step] at hstep
      split at hstep
      · rename_i hchild
        obtain ⟨_, heq⟩ := Option.ite_none_right_eq_some.mp hstep
        obtain rfl := Option.some.inj heq
        exact .childRead hchild
      · cases hstep
  | childWrite =>
      rw [step] at hstep
      split at hstep
      · rename_i msg hchild
        split at hstep
        · obtain rfl := Option.some.inj hstep
          exact .childKilled hchild
        · obtain ⟨_, heq⟩ := Option.ite_none_right_eq_some.mp hstep
          obtain rfl := Option.some.inj heq
          exact .childWrite hchild
      · cases hstep
  | childEnds =>
      obtain ⟨hthere, heq⟩ := Option.ite_none_left_eq_some.mp hstep
      obtain rfl := Option.some.inj heq
      exact .childEnds hthere
  | epollAdd =>
      rw [step] at hstep
      split at hstep
      · rename_i hadding
        obtain rfl := Option.some.inj hstep
        exact .epollAdd hadding
      · cases hstep
  | epollWait =>
      rw [step] at hstep
      split at hstep
      · rename_i hwaiting
        split at hstep
        · rename_i hready
          obtain rfl := Option.some.inj hstep
          exact .reported hwaiting hready.2
        · obtain ⟨htimeout, heq⟩ := Option.ite_none_right_eq_some.mp hstep
          obtain rfl := Option.some.inj heq
          exact .polled hwaiting htimeout
      · cases hstep
  | epollFails =>
      rw [step] at hstep
      split at hstep
      · rename_i hwaiting
        obtain rfl := Option.some.inj hstep
        exact .epollFails hwaiting
      · cases hstep
  | pass addJunk removeJunk n =>
      rw [step] at hstep
      split at hstep
      · rename_i event hpassing
        obtain ⟨loop, hpass, hnext⟩ := Option.bind_eq_some_iff.mp hstep
        split at hnext
        · rename_i hreads
          obtain rfl := Option.some.inj hnext
          exact .passIdle n hpassing hpass hreads
        · rename_i hreads
          obtain rfl := Option.some.inj hnext
          exact .passRead n hpassing hpass hreads
      · cases hstep

theorem Invariant.child (h : Invariant data s) {child : ChildPlace} {edge : Bool}
    {input pipe : Bytes} (horder : s.output.handed ++ pipe ++ child.held <+: input)
    (hwhole : child ≠ .ended → s.output.handed ++ pipe ++ child.held = input)
    (hedge : edge = true ∨ edge = s.edge ∧ (pipe ≠ [] ∨ child = .ended → s.Ready)) :
    Invariant data { s with child := child, edge := edge, input := input, pipe := pipe } where
  loop := h.loop
  single := h.single
  timeout := h.timeout
  reported := h.reported
  printed := h.printed
  order := horder
  whole := hwhole
  awake := by
    intro hready
    rcases hedge with hedge | ⟨hsame, hbefore⟩
    · exact Or.inl hedge
    · change edge = true ∨ _
      rw [hsame]
      exact h.awake (hbefore hready)

theorem Invariant.childRead (h : Invariant data s) (hchild : s.child = .reading) (msg : Bytes) :
    Invariant data { s with child := .writing msg, input := s.input ++ msg } := by
  have hwhole := h.whole (by rw [hchild]; exact fun hended => by cases hended)
  rw [hchild, ChildPlace.held, List.append_nil] at hwhole
  have hnext : s.output.handed ++ s.pipe ++ msg = s.input ++ msg := by rw [hwhole]
  refine h.child (hnext ▸ List.prefix_refl _) (fun _ => hnext) (Or.inr ⟨rfl, ?_⟩)
  rintro (hfull | hended)
  · exact Or.inl hfull
  · cases hended

theorem Invariant.childWrite (h : Invariant data s) {msg : Bytes}
    (hchild : s.child = .writing msg) :
    Invariant data { s with child := .reading, pipe := s.pipe ++ msg, edge := true } := by
  have hwhole := h.whole (by rw [hchild]; exact fun hended => by cases hended)
  rw [hchild, ChildPlace.held] at hwhole
  have hnext : s.output.handed ++ (s.pipe ++ msg) ++ ChildPlace.reading.held = s.input := by
    rw [ChildPlace.held, List.append_nil, ← List.append_assoc, hwhole]
  exact h.child (hnext ▸ List.prefix_refl _) (fun _ => hnext) (Or.inl rfl)

theorem Invariant.childEnds (h : Invariant data s) :
    Invariant data { s with child := .ended, edge := true } := by
  refine h.child ?_ (fun hended => absurd rfl hended) (Or.inl rfl)
  rw [ChildPlace.held, List.append_nil]
  exact (List.prefix_append _ _).trans h.order

theorem Invariant.awake_of (h : Invariant data s) (hready : s.Ready)
    (hparent : s.parent = .waiting ∨ s.parent = .passing none) :
    s.edge = true ∨ s.loop.readyFds.listed ≠ [] := by
  rcases h.awake hready with hedge | hlisted | ⟨event, hevent⟩ | hadding
  · exact Or.inl hedge
  · exact Or.inr hlisted
  · rcases hparent with hparent | hparent
    · rw [hparent] at hevent
      cases hevent
    · rw [hparent] at hevent
      cases hevent
  · rcases hparent with hparent | hparent
    · rw [hparent] at hadding
      cases hadding
    · rw [hparent] at hadding
      cases hadding

theorem Invariant.moved (h : Invariant data s) {parent : ParentPlace} {edge : Bool}
    (hreported : ∀ event, parent = .passing (some event) → event.data = data)
    (hawake : s.Ready → edge = true ∨ s.loop.readyFds.listed ≠ [] ∨
      (∃ event, parent = .passing (some event)) ∨ parent = .adding) :
    Invariant data { s with parent := parent, edge := edge } where
  loop := h.loop
  single := h.single
  timeout := h.timeout
  reported := hreported
  printed := h.printed
  order := h.order
  whole := h.whole
  awake := hawake

theorem Invariant.mainPass (h : Invariant data s) {event : Option EpollEvent}
    (hparent : s.parent = .passing event) {addJunk removeJunk : Nat → Nat → EpollEvent}
    {loop : LoopState}
    (hpass : EventLoop.mainPass s.loop (s.passOf event addJunk removeJunk) = some loop) :
    loop.Invariant ∧ Single data loop.readyFds.listed ∧
      loop.timeout = (if loop.readyFds.listed = [] then -1 else 0) ∧
      (loop.reads = [] ↔ s.loop.readyFds.listed = [] ∧ event = none) ∧
      (loop.readyFds.listed = [] ↔
        (s.loop.readyFds.listed = [] ∧ event = none) ∨ ¬ s.Ready) := by
  have hevent : ∀ e, event = some e → e.data = data := by
    rintro e rfl
    exact h.reported e hparent
  rw [← numread_again_iff]
  exact mainPass_single h.loop h.single hevent hpass

theorem Invariant.passIdle (h : Invariant data s) {event : Option EpollEvent}
    (hparent : s.parent = .passing event) {addJunk removeJunk : Nat → Nat → EpollEvent}
    {loop : LoopState}
    (hpass : EventLoop.mainPass s.loop (s.passOf event addJunk removeJunk) = some loop)
    (hnone : loop.reads = []) : Invariant data { s with parent := .waiting, loop := loop } := by
  obtain ⟨hloop, hsingle, htimeout, hreads, _⟩ := h.mainPass hparent hpass
  obtain ⟨hempty, rfl⟩ := hreads.mp hnone
  exact {
    loop := hloop
    single := hsingle
    timeout := htimeout
    reported := fun _ hpassing => by cases hpassing
    printed := h.printed
    order := h.order
    whole := h.whole
    awake := fun hready => Or.inl
      ((h.awake_of hready (Or.inr hparent)).resolve_right fun hlisted => hlisted hempty) }

theorem Invariant.passRead (h : Invariant data s) {event : Option EpollEvent}
    (hparent : s.parent = .passing event) {addJunk removeJunk : Nat → Nat → EpollEvent}
    {loop : LoopState}
    (hpass : EventLoop.mainPass s.loop (s.passOf event addJunk removeJunk) = some loop)
    (hread : loop.reads ≠ []) (n : Nat) : Invariant data (s.read loop n) := by
  obtain ⟨hloop, hsingle, htimeout, hreads, hlisted⟩ := h.mainPass hparent hpass
  rw [← hreads] at hlisted
  have hbytes : (s.read loop n).output.handed ++ (s.read loop n).pipe =
      s.output.handed ++ s.pipe := by
    change s.output.handed ++ s.pipe.take parentSize ++ s.pipe.drop parentSize = _
    rw [List.append_assoc, List.take_append_drop]
  have hchild : (s.read loop n).child = s.child := rfl
  exact {
    loop := hloop
    single := hsingle
    timeout := htimeout
    reported := fun _ hpassing => by cases hpassing
    printed := h.printed.write _ n
    order := by
      rw [hbytes, hchild]
      exact h.order
    whole := fun hlives => by
      rw [hbytes, hchild]
      exact h.whole hlives
    awake := by
      intro hready
      refine Or.inr (Or.inl fun hempty => ?_)
      refine (hlisted.mp hempty).resolve_left hread ?_
      rcases hready with hfull | hended
      · refine Or.inl fun hnil => hfull ?_
        change s.pipe.drop parentSize = []
        rw [hnil, List.drop_nil]
      · exact Or.inr hended }

theorem Invariant.step {action : Action} (h : Invariant data s)
    (hstep : step data capacity s action = some s') : Invariant data s' := by
  cases moves_of_step hstep with
  | childRead reading => exact h.childRead reading _
  | childWrite writing => exact h.childWrite writing
  | childKilled _ | childEnds _ => exact h.childEnds
  | epollAdd adding =>
      exact h.moved (fun _ hpassing => by cases hpassing)
        (fun hready => Or.inl (decide_eq_true hready))
  | reported waiting ready =>
      refine h.moved (fun event hevent => ?_) (fun _ => Or.inr (Or.inr (Or.inl ⟨_, rfl⟩)))
      obtain rfl := Option.some.inj (ParentPlace.passing.inj hevent)
      rfl
  | polled waiting timeout =>
      refine h.moved (fun _ hpassing => by cases hpassing)
        (fun _ => Or.inr (Or.inl fun hempty => ?_))
      rw [h.timeout, if_pos hempty] at timeout
      cases timeout
  | epollFails waiting =>
      refine h.moved (fun _ hpassing => by cases hpassing) (fun hready => ?_)
      rcases h.awake_of hready (Or.inl waiting) with hedge | hlisted
      · exact Or.inl hedge
      · exact Or.inr (Or.inl hlisted)
  | passIdle _ passing pass reads => exact h.passIdle passing pass reads
  | passRead n passing pass reads => exact h.passRead passing pass reads n

theorem Invariant.settled (h : Invariant data s) (hblocked : Blocked data capacity s) :
    Settled s := by
  obtain ⟨hwaiting, hstuck⟩ := hblocked
  rw [EdgeTriggered.step, hwaiting] at hstuck
  change (if s.edge = true ∧ s.Ready then _ else _) = _ at hstuck
  split at hstuck
  · cases hstuck
  · rename_i hquiet
    split at hstuck
    · cases hstuck
    · rename_i htimeout
      have hempty : s.loop.readyFds.listed = [] := by
        by_contra hlisted
        rw [h.timeout, if_neg hlisted] at htimeout
        exact htimeout rfl
      have hidle : ¬ s.Ready := by
        intro hready
        rcases h.awake_of hready (Or.inl hwaiting) with hedge | hlisted
        · exact hquiet ⟨hedge, hready⟩
        · exact hlisted hempty
      obtain ⟨hpipe, hlives⟩ := not_or.mp hidle
      have hwhole := h.whole hlives
      rw [not_not.mp hpipe, List.append_nil] at hwhole
      exact ⟨hlives, not_not.mp hpipe, hwhole, h.printed⟩

/-- Where `epoll_wait` does not come back, nothing is left behind: the child is
there and what it has written has been handed over to be printed. -/
theorem blocked_settled (data : UInt64) (capacity : Nat) (actions : List Action) :
    EveryState (step data capacity) (fun s => Blocked data capacity s → Settled s) .start
      actions := by
  have hinvariant : EveryState (step data capacity) (Invariant data) .start actions :=
    invariant (invariant_start data) (fun _ _ _ h hstep => h.step hstep) actions
  intro before s hbefore hrun hblocked
  exact (hinvariant before s hbefore hrun).settled hblocked

/-- `epoll_wait` comes back, with an event or without one. -/
def Action.waits : Action → Bool
  | .epollWait => true
  | .childRead _ | .childWrite | .childEnds | .epollAdd | .epollFails | .pass _ _ _ => false

/-- How often `epoll_wait` may have come back, by what the parent has read. -/
def System.credit (s : System) : Nat :=
  match s.parent with
  | .passing _ =>
      if s.loop.readyFds.listed = [] then 2 * s.output.handed.length + 1
      else 2 * s.output.handed.length
  | .adding | .waiting | .ended =>
      if s.loop.readyFds.listed = [] then 2 * s.output.handed.length
      else 2 * s.output.handed.length - 1

/-- What the parent has found, while the child is there. -/
structure Spent (s : System) : Prop where
  listed : s.child ≠ .ended → s.loop.readyFds.listed ≠ [] → s.output.handed ≠ []
  found : s.child ≠ .ended → ∀ event, s.parent = .passing (some event) → s.pipe ≠ []
  polled : s.parent = .passing none → s.loop.readyFds.listed ≠ []

theorem spent_start : Spent .start where
  listed := fun _ hlisted => absurd rfl hlisted
  found := fun _ _ hpassing => by cases hpassing
  polled := fun hpassing => by cases hpassing

theorem child_lives {action : Action} (hstep : step data capacity s action = some s')
    (hlives : s'.child ≠ .ended) : s.child ≠ .ended := by
  cases moves_of_step hstep with
  | childRead reading =>
      rw [reading]
      exact fun hended => by cases hended
  | childWrite writing =>
      rw [writing]
      exact fun hended => by cases hended
  | childKilled _ | childEnds _ => exact absurd rfl hlives
  | epollAdd _ | reported _ _ | polled _ _ | epollFails _ => exact hlives
  | passIdle _ _ _ _ | passRead _ _ _ _ => exact hlives

theorem ready_iff (hlives : s.child ≠ .ended) : s.Ready ↔ s.pipe ≠ [] :=
  or_iff_left hlives

theorem take_parentSize_pos {pipe : Bytes} (hpipe : pipe ≠ []) :
    0 < (pipe.take parentSize).length := by
  have hpos := List.length_pos_iff.mpr hpipe
  rw [List.length_take, parentSize]
  omega

theorem Spent.child (h : Spent s) {child : ChildPlace} {edge : Bool} {input pipe : Bytes}
    (hlives : child ≠ .ended → s.child ≠ .ended)
    (hpipe : child ≠ .ended → s.pipe ≠ [] → pipe ≠ []) :
    Spent { s with child := child, edge := edge, input := input, pipe := pipe } where
  listed := fun halive => h.listed (hlives halive)
  found := fun halive event hpassing => hpipe halive (h.found (hlives halive) event hpassing)
  polled := h.polled

theorem Spent.mainPass (h : Spent s) (hinvariant : Invariant data s) {event : Option EpollEvent}
    (hparent : s.parent = .passing event) {addJunk removeJunk : Nat → Nat → EpollEvent}
    {loop : LoopState}
    (hpass : EventLoop.mainPass s.loop (s.passOf event addJunk removeJunk) = some loop) :
    loop.reads ≠ [] ∧ (loop.readyFds.listed = [] ↔ ¬ s.Ready) := by
  obtain ⟨_, _, _, hreads, hlisted⟩ := hinvariant.mainPass hparent hpass
  have hread : ¬ (s.loop.readyFds.listed = [] ∧ event = none) := by
    rintro ⟨hempty, rfl⟩
    exact h.polled hparent hempty
  exact ⟨fun hnone => hread (hreads.mp hnone), hlisted.trans (or_iff_right hread)⟩

theorem Spent.read (h : Spent s) (hinvariant : Invariant data s) {event : Option EpollEvent}
    (hparent : s.parent = .passing event) {addJunk removeJunk : Nat → Nat → EpollEvent}
    {loop : LoopState}
    (hpass : EventLoop.mainPass s.loop (s.passOf event addJunk removeJunk) = some loop)
    (n : Nat) : Spent (s.read loop n) := by
  obtain ⟨_, hlisted⟩ := h.mainPass hinvariant hparent hpass
  refine ⟨fun hlives hkept => ?_, (fun _ _ hpassing => by cases hpassing),
    fun hpassing => by cases hpassing⟩
  have hpipe : s.pipe ≠ [] := by
    rw [← @ready_iff s hlives]
    exact not_not.mp fun hidle => hkept (hlisted.mpr hidle)
  change s.output.handed ++ s.pipe.take parentSize ≠ []
  rw [← List.length_pos_iff, List.length_append]
  exact Nat.lt_of_lt_of_le (take_parentSize_pos hpipe) (Nat.le_add_left _ _)

theorem Spent.step {action : Action} (h : Spent s) (hinvariant : Invariant data s)
    (hstep : step data capacity s action = some s') : Spent s' := by
  cases moves_of_step hstep with
  | childRead reading =>
      exact h.child (fun _ => by rw [reading]; exact fun hended => by cases hended)
        (fun _ hpipe => hpipe)
  | childWrite writing =>
      exact h.child (fun _ => by rw [writing]; exact fun hended => by cases hended)
        (fun _ hpipe => List.append_ne_nil_of_left_ne_nil hpipe _)
  | childKilled _ | childEnds _ =>
      exact h.child (fun hended => absurd rfl hended) (fun _ hpipe => hpipe)
  | epollAdd _ | epollFails _ =>
      exact ⟨h.listed, (fun _ _ hpassing => by cases hpassing),
        fun hpassing => by cases hpassing⟩
  | reported waiting ready =>
      exact ⟨h.listed, fun hlives _ _ => (ready_iff hlives).mp ready,
        fun hpassing => by cases hpassing⟩
  | polled waiting timeout =>
      refine ⟨h.listed, (fun _ _ hpassing => by cases hpassing), fun _ hempty => ?_⟩
      rw [hinvariant.timeout, if_pos hempty] at timeout
      cases timeout
  | passIdle _ passing pass reads => exact absurd reads (h.mainPass hinvariant passing pass).1
  | passRead n passing pass reads => exact h.read hinvariant passing pass n

/-- A pass pays for itself and for the next one by what it reads, or takes the pipe
off the list. -/
theorem Spent.credit_read (h : Spent s) (hinvariant : Invariant data s)
    (hlives : s.child ≠ .ended) {event : Option EpollEvent} (hparent : s.parent = .passing event)
    {addJunk removeJunk : Nat → Nat → EpollEvent} {loop : LoopState}
    (hpass : EventLoop.mainPass s.loop (s.passOf event addJunk removeJunk) = some loop)
    (n : Nat) : s.credit ≤ (s.read loop n).credit := by
  obtain ⟨_, hlisted⟩ := h.mainPass hinvariant hparent hpass
  rw [ready_iff hlives, not_not] at hlisted
  have hcredit : (s.read loop n).credit = if loop.readyFds.listed = [] then
      2 * (s.output.handed ++ s.pipe.take parentSize).length
      else 2 * (s.output.handed ++ s.pipe.take parentSize).length - 1 := rfl
  rw [hcredit, System.credit, hparent, List.length_append]
  rcases Decidable.em (s.pipe = []) with hempty | hfull
  · -- Where there is nothing, the pipe was on the list: an event comes with bytes.
    have hkept : s.loop.readyFds.listed ≠ [] := by
      rcases event with _ | event
      · exact h.polled hparent
      · exact absurd hempty (h.found hlives event hparent)
    rw [if_pos (hlisted.mpr hempty)]
    change (if s.loop.readyFds.listed = [] then _ else _) ≤ _
    rw [if_neg hkept]
    exact Nat.mul_le_mul_left 2 (Nat.le_add_right _ _)
  · have hpos := take_parentSize_pos hfull
    rw [if_neg fun hnil => hfull (hlisted.mp hnil)]
    change (if s.loop.readyFds.listed = [] then _ else _) ≤ _
    split
    · omega
    · omega

theorem Spent.credit_waits (h : Spent s) (hlives : s.child ≠ .ended)
    (hwaiting : s.parent = .waiting) (event : Option EpollEvent) :
    s.credit + 1 ≤ { s with parent := .passing event }.credit := by
  have hprinted : s.loop.readyFds.listed ≠ [] → 0 < s.output.handed.length := fun hlisted =>
    List.length_pos_iff.mpr (h.listed hlives hlisted)
  rw [System.credit, System.credit, hwaiting]
  change (if s.loop.readyFds.listed = [] then _ else _) + 1 ≤
    if s.loop.readyFds.listed = [] then _ else _
  split
  · exact Nat.le_refl _
  · rename_i hlisted
    have hpos := hprinted hlisted
    change 2 * s.output.handed.length - 1 + 1 ≤ 2 * s.output.handed.length
    omega

theorem Spent.credit_le {action : Action} (h : Spent s) (hinvariant : Invariant data s)
    (hlives : s.child ≠ .ended) (hstep : EdgeTriggered.step data capacity s action = some s') :
    s.credit + (if action.waits then 1 else 0) ≤ s'.credit := by
  cases moves_of_step hstep with
  | childRead _ | childWrite _ | childKilled _ | childEnds _ => exact Nat.le_refl _
  | epollAdd adding =>
      rw [System.credit, adding]
      exact Nat.le_refl _
  | reported waiting _ => exact h.credit_waits hlives waiting (some (s.event data))
  | polled waiting _ => exact h.credit_waits hlives waiting none
  | epollFails waiting =>
      rw [System.credit, waiting]
      exact Nat.le_refl _
  | passIdle _ passing pass reads => exact absurd reads (h.mainPass hinvariant passing pass).1
  | passRead n passing pass _ => exact h.credit_read hinvariant hlives passing pass n

theorem System.credit_le (s : System) : s.credit ≤ 2 * s.output.handed.length + 1 := by
  rw [System.credit]
  split
  · split
    · exact Nat.le_refl _
    · exact Nat.le_succ _
  all_goals
    split
    · exact Nat.le_succ _
    · omega

/-- While the child is there, `epoll_wait` comes back twice at most for each byte
that it has read, and once more: the parent does not poll a silent pipe. -/
theorem waits_bounded {actions : List Action}
    (hrun : run (step data capacity) .start actions = some s) (hlives : s.child ≠ .ended) :
    actions.countP Action.waits ≤ 2 * s.output.handed.length + 1 := by
  obtain ⟨_, hthere⟩ := @everyStep_of_end _ _ (step data capacity) (fun s => s.child ≠ .ended)
    (fun _ _ _ hstep => child_lives hstep) actions .start s hrun hlives
  have hcount := @countP_le_rank_of_everyStep _ _ (step data capacity)
    (fun s => Spent s ∧ Invariant data s) (fun s _ => s.child ≠ .ended) System.credit Action.waits
    (fun _ _ _ h _ hstep => ⟨h.1.step h.2 hstep, h.2.step hstep⟩)
    (fun _ _ _ h hthere hstep => h.1.credit_le h.2 hthere hstep) actions .start s
    ⟨spent_start, invariant_start data⟩ hthere hrun
  exact (Nat.le_trans (Nat.le_add_left _ _) hcount).trans s.credit_le

/-- Six bytes are typed before the pipe is added, and the terminal does not take the
last two. -/
def session : List Action :=
  [.childRead (literal "hello!"), .childWrite, .epollAdd,
    .epollWait, .pass (fun _ _ => ⟨0, 0⟩) (fun _ _ => ⟨0, 0⟩) 4,
    .epollWait, .pass (fun _ _ => ⟨0, 0⟩) (fun _ _ => ⟨0, 0⟩) 0,
    .epollWait, .pass (fun _ _ => ⟨0, 0⟩) (fun _ _ => ⟨0, 0⟩) 0]

theorem waits_bounded_session : ∃ s, run (step 3 4096) .start session = some s ∧
    s.output.handed = literal "hello!" ∧ s.output.written = literal "hell" ∧
    session.countP Action.waits = 3 ∧
    session.countP Action.waits ≤ 2 * s.output.handed.length + 1 := by
  refine ⟨_, rfl, rfl, rfl, rfl, ?_⟩
  exact @waits_bounded 3 4096 _ session rfl (fun hended => by cases hended)

end StudyLinuxKernel.Epoll.EdgeTriggered
