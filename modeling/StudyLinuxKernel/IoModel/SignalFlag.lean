import StudyLinuxKernel.IoModel.LineInput
import StudyLinuxKernel.Library.PartialStep
import StudyLinuxKernel.Library.Signals
import StudyLinuxKernel.Library.UncheckedWrite

/-!
`terminal-io-signal-drive-v1.c`: the handler of SIGIO sets a flag, and the loop of
`main` reads the terminal once for each flag that it finds.  The terminal sends SIGIO
also where it can be written again, and as it does not block any more a `write` may
fail or fall short.
-/

namespace StudyLinuxKernel.IoModel.SignalFlag

open StudyLinuxKernel.IoModel.LineInput
open StudyLinuxKernel.Libc.Text
open StudyLinuxKernel.Library.PartialStep
open StudyLinuxKernel.Library.Signals
open StudyLinuxKernel.Library.UncheckedWrite

/-- SIGIO is the only signal; its handler blocks it. -/
def blocks (_ _ : Unit) : Bool := true

/-- SIGIO is a standard signal: it is pending once at most. -/
def capacity (_ : Unit) : Nat := 1

/-- Where `sigHandler` is. -/
inductive Body where
  | entered
  | returned

/-- Where `main` is: behind `sigaction`, and then in its loop. -/
inductive Place where
  | installed
  | looping
  | reading
  | writing (msg : Bytes)
  | clearing

/-- `found` counts the handlers that found the flag set, and `writables` the signals
that did not come for a line. -/
structure Program where
  terminal : Terminal
  process : Process Unit Body
  gotSigio : Bool
  place : Place
  output : Output UInt8
  found : Nat
  writables : Nat

def Program.start : Program where
  terminal := .start
  process := .start Unit Body
  gotSigio := false
  place := .installed
  output := .empty
  found := 0
  writables := 0

inductive Action where
  | enter (line : Bytes)
  | writable
  | setAsync
  | check
  | read
  | write (n : Nat)
  | clear
  | deliver
  | handle
  | sigreturn

/-- Where `main` is behind its `read`. -/
def Program.read (p : Program) : Program :=
  match p.terminal.read with
  | some (msg, terminal) => { p with terminal := terminal, place := .writing msg }
  | none => { p with place := .clearing }

/-- The loop of `main`, where no handler runs. -/
def loop (p : Program) : Action → Option Program
  | .check =>
      match p.place with
      | .looping => if p.gotSigio then some { p with place := .reading } else none
      | _ => none
  | .read =>
      match p.place with
      | .reading => some p.read
      | _ => none
  | .write n =>
      match p.place with
      | .writing msg => some { p with output := p.output.write msg n, place := .clearing }
      | _ => none
  | .clear =>
      match p.place with
      | .clearing => some { p with gotSigio := false, place := .looping }
      | _ => none
  | _ => none

def step (p : Program) (action : Action) : Option Program :=
  match action with
  | .enter line =>
      let p := { p with terminal := p.terminal.enter line }
      some (if p.terminal.async then { p with process := p.process.generate capacity () } else p)
  | .writable =>
      if p.terminal.async then some { p with
        process := p.process.generate capacity ()
        writables := p.writables + 1 }
      else none
  | .setAsync =>
      match p.place with
      | .installed =>
          some { p with terminal := { p.terminal with async := true }, place := .looping }
      | _ => none
  | .deliver => do
      let process ← p.process.deliver blocks .entered ()
      some { p with process := process }
  | .handle =>
      match p.process.frames with
      | ⟨sig, saved, .entered⟩ :: frames => some { p with
          process := { p.process with frames := ⟨sig, saved, .returned⟩ :: frames }
          gotSigio := true
          found := if p.gotSigio then p.found + 1 else p.found }
      | _ => none
  | .sigreturn =>
      match p.process.frames with
      | ⟨_, _, .returned⟩ :: _ => do
          let process ← p.process.sigreturn
          some { p with process := process }
      | _ => none
  | action =>
      match p.process.frames with
      | [] => loop p action
      | _ :: _ => none

/-- What `main` has read and not written. -/
def Place.held : Place → Bytes
  | .writing msg => msg
  | .installed | .looping | .reading | .clearing => []

/-- `main` still has to read where it finds the flag set. -/
def Place.reads : Place → Nat
  | .installed | .looping | .reading => 1
  | .writing _ | .clearing => 0

/-- A handler that still has to set the flag. -/
def sets (frame : Frame Unit Body) : Bool :=
  match frame.body with
  | .entered => true
  | .returned => false

def Program.flagged (p : Program) : Nat := if p.gotSigio then p.place.reads else 0

/-- The signals that are not handled: they are pending, or have been merged with one
that was. -/
def Program.unhandled (p : Program) : Nat := p.process.sent () - p.process.handled ()

/-- No handler runs, there is no signal for one, and `main` has seen the flag. -/
def Program.AtRest (p : Program) : Prop :=
  p.process.frames = [] ∧ p.process.pending () = 0 ∧ p.gotSigio = false

/-- The lines for which no read has been made: they came before O_ASYNC, or their
signals are not handled, found the flag set or are still to be seen by `main`. -/
def Program.owed (p : Program) : Nat :=
  p.terminal.early + p.unhandled + p.found + p.process.frames.countP sets + p.flagged

/-- The unread lines are those that are owed, up to the signals that did not come for a
line. -/
def Program.Owes (p : Program) : Prop :=
  p.terminal.input.length ≤ p.owed ∧ p.owed ≤ p.terminal.input.length + p.writables

/-- What is typed is handed over to `write` as it is and in its order.  Where the lines
fit into `msg`, as many lines stay unread in the end as came before O_ASYNC, as signals
were merged and as handlers found the flag set. -/
structure Echoes (p : Program) : Prop where
  bytes : p.output.handed ++ p.place.held ++ p.terminal.input.flatten = p.terminal.typed.flatten
  written : p.output.Ordered
  unread : p.terminal.Fits → p.Owes
  rest : p.terminal.Fits → p.AtRest → ∃ unread,
    unread ≤ p.terminal.early + p.unhandled + p.found ∧
    p.terminal.early + p.unhandled + p.found ≤ unread + p.writables ∧
    p.output.handed ++ p.place.held =
      (p.terminal.typed.take (p.terminal.typed.length - unread)).flatten

/-- What the steps keep; one handler runs at most. -/
structure Invariant (p : Program) : Prop where
  serves : p.terminal.Serves (p.output.handed ++ p.place.held)
  written : p.output.Ordered
  single : p.process.frames = [] ∨
    ∃ frame, p.process.frames = [frame] ∧ p.process.mask () = true
  flagged : p.place.reads = 0 → p.gotSigio = true
  reading : p.place = .reading → p.gotSigio = true
  accounted : Accounted capacity p.process
  unread : p.terminal.Fits → p.Owes

variable {p p' : Program}

theorem invariant_start : Invariant .start where
  serves := Terminal.serves_start
  written := ordered_empty
  single := Or.inl rfl
  flagged := fun h => absurd h Nat.one_ne_zero
  reading := nofun
  accounted := accounted_start
  unread := fun _ => ⟨Nat.le_refl 0, Nat.le_refl 0⟩

theorem Invariant.echoes (h : Invariant p) : Echoes p := by
  refine ⟨h.serves.bytes, h.written, h.unread, fun hfits hrest => ?_⟩
  have howed : p.owed = p.terminal.early + p.unhandled + p.found := by
    rw [Program.owed, Program.flagged, hrest.1, hrest.2.2]
    rfl
  obtain ⟨hmost, hleast⟩ := h.unread hfits
  rw [howed] at hmost hleast
  exact ⟨_, hmost, hleast, h.serves.eq_take hfits rfl⟩

theorem Invariant.generate (h : Invariant p) {terminal : Terminal} {writables : Nat}
    (hserves : terminal.Serves (p.output.handed ++ p.place.held))
    (hfits : terminal.Fits → p.terminal.Fits)
    (hearly : terminal.early = p.terminal.early)
    (hline : terminal.input.length ≤ p.terminal.input.length + 1)
    (hcount : terminal.input.length + writables = p.terminal.input.length + p.writables + 1) :
    Invariant { p with
      terminal := terminal
      process := p.process.generate capacity ()
      writables := writables } where
  serves := hserves
  written := h.written
  single := h.single
  flagged := h.flagged
  reading := h.reading
  accounted := h.accounted.generate ()
  unread := fun hfit => by
    obtain ⟨hmost, hleast⟩ := h.unread (hfits hfit)
    have hhandled := h.accounted.handled_le ()
    have hsent : (p.process.generate capacity ()).sent () = p.process.sent () + 1 := by
      change Function.update p.process.sent () (p.process.sent () + 1) () = _
      rw [Function.update_self]
    constructor
    · change terminal.input.length ≤ terminal.early +
        ((p.process.generate capacity ()).sent () - p.process.handled ()) + p.found +
          p.process.frames.countP sets + p.flagged
      rw [Program.owed, Program.unhandled] at hmost
      rw [hsent, hearly]
      omega
    · change terminal.early + ((p.process.generate capacity ()).sent () - p.process.handled ()) +
        p.found + p.process.frames.countP sets + p.flagged ≤ terminal.input.length + writables
      rw [Program.owed, Program.unhandled] at hleast
      rw [hsent, hearly]
      omega

theorem Invariant.enter (h : Invariant p) (line : Bytes) :
    Invariant (if (p.terminal.enter line).async then
      { p with
        terminal := p.terminal.enter line
        process := p.process.generate capacity () }
      else { p with terminal := p.terminal.enter line }) := by
  have hserves := h.serves.enter line
  have hlength := p.terminal.length_enter line
  split
  · rename_i hasync
    have hearly : (p.terminal.enter line).early = p.terminal.early := if_pos hasync
    refine @Invariant.generate p h (p.terminal.enter line) p.writables hserves
      Terminal.Fits.before hearly (Nat.le_of_eq hlength) ?_
    rw [hlength]
    omega
  · rename_i hasync
    have hearly : (p.terminal.enter line).early = p.terminal.early + 1 := if_neg hasync
    refine ⟨hserves, h.written, h.single, h.flagged, h.reading, h.accounted, fun hfits => ?_⟩
    obtain ⟨hmost, hleast⟩ := h.unread hfits.before
    rw [Program.owed] at hmost hleast
    constructor
    · change (p.terminal.enter line).input.length ≤ (p.terminal.enter line).early + p.unhandled +
        p.found + p.process.frames.countP sets + p.flagged
      rw [hlength, hearly]
      omega
    · change (p.terminal.enter line).early + p.unhandled + p.found +
        p.process.frames.countP sets + p.flagged ≤
          (p.terminal.enter line).input.length + p.writables
      rw [hlength, hearly]
      omega

theorem Program.Owes.of_eq {p' : Program} (h : p.Owes) (howed : p'.owed = p.owed)
    (hinput : p'.terminal.input = p.terminal.input) (hwritables : p'.writables = p.writables) :
    p'.Owes := by
  rw [Program.Owes, howed, hinput, hwritables]
  exact h

theorem Invariant.deliver (h : Invariant p) {process : Process Unit Body}
    (hdeliver : p.process.deliver blocks .entered () = some process) :
    Invariant { p with process := process } := by
  have haccounted := h.accounted.deliver hdeliver
  have hafter := haccounted.handled_le ()
  obtain ⟨hdeliverable, rfl⟩ := Process.deliver_eq_some hdeliver
  have hidle := hdeliverable.idle (h.single.imp_right fun ⟨_, _, hmask⟩ => hmask)
  refine ⟨h.serves, h.written, Or.inr ⟨_, congrArg _ hidle, Bool.or_true _⟩, h.flagged, h.reading,
    haccounted, fun hfits => (h.unread hfits).of_eq ?_ rfl rfl⟩
  change Function.update p.process.handled () (p.process.handled () + 1) () ≤
    p.process.sent () at hafter
  change p.terminal.early + (p.process.sent () -
    Function.update p.process.handled () (p.process.handled () + 1) ()) + p.found +
      List.countP sets (_ :: p.process.frames) + p.flagged = _
  rw [Function.update_self] at hafter ⊢
  rw [Program.owed, Program.unhandled, hidle]
  change p.terminal.early + (p.process.sent () - (p.process.handled () + 1)) + p.found + 1 +
    p.flagged = p.terminal.early + (p.process.sent () - p.process.handled ()) + p.found + 0 +
      p.flagged
  omega

theorem Invariant.handle (h : Invariant p) {saved : Unit → Bool}
    {frames : List (Frame Unit Body)}
    (hframes : p.process.frames = ⟨(), saved, .entered⟩ :: frames) :
    Invariant { p with
      process := { p.process with frames := ⟨(), saved, .returned⟩ :: frames }
      gotSigio := true
      found := if p.gotSigio then p.found + 1 else p.found } := by
  obtain ⟨rfl, hmask⟩ := Process.only_frame h.single hframes
  refine ⟨h.serves, h.written, Or.inr ⟨_, rfl, hmask⟩, fun _ => rfl, fun _ => rfl,
    h.accounted.of_eq rfl rfl rfl, fun hfits => (h.unread hfits).of_eq ?_ rfl rfl⟩
  change p.terminal.early + p.unhandled + (if p.gotSigio then p.found + 1 else p.found) + 0 +
    p.place.reads = p.terminal.early + p.unhandled + p.found + p.process.frames.countP sets +
      if p.gotSigio then p.place.reads else 0
  rw [hframes]
  change _ = p.terminal.early + p.unhandled + p.found + 1 + if p.gotSigio then _ else 0
  cases hflag : p.gotSigio with
  | true =>
      rw [if_pos rfl, if_pos rfl]
      omega
  | false =>
      -- Where the flag is clear, `main` reads when it next finds it set.
      have hreads : p.place.reads = 1 := by
        have hflagged := h.flagged
        cases hplace : p.place with
        | writing _ | clearing =>
            rw [hplace, hflag] at hflagged
            cases hflagged rfl
        | _ => rfl
      rw [if_neg Bool.false_ne_true, if_neg Bool.false_ne_true, hreads]

theorem Invariant.sigreturn (h : Invariant p) {process : Process Unit Body}
    {saved : Unit → Bool} {frames : List (Frame Unit Body)}
    (hframes : p.process.frames = ⟨(), saved, .returned⟩ :: frames)
    (hreturn : p.process.sigreturn = some process) : Invariant { p with process := process } := by
  have haccounted := h.accounted.sigreturn hreturn
  obtain ⟨top, rest, htop, rfl⟩ := Process.sigreturn_eq_some hreturn
  obtain ⟨rfl, _⟩ := Process.only_frame h.single hframes
  obtain ⟨rfl, rfl⟩ := List.cons.inj (hframes.symm.trans htop)
  refine ⟨h.serves, h.written, Or.inl rfl, h.flagged, h.reading, haccounted,
    fun hfits => (h.unread hfits).of_eq ?_ rfl rfl⟩
  change _ = p.terminal.early + p.unhandled + p.found + p.process.frames.countP sets + p.flagged
  rw [hframes]
  rfl

theorem Invariant.main (h : Invariant p) {terminal : Terminal} {gotSigio : Bool} {place : Place}
    {output : Output UInt8} (hserves : terminal.Serves (output.handed ++ place.held))
    (hwritten : output.Ordered)
    (hflagged : place.reads = 0 → gotSigio = true) (hreading : place = .reading → gotSigio = true)
    (hfits : terminal.Fits → p.terminal.Fits)
    (hunread : terminal.Fits → terminal.input.length + p.terminal.early + p.flagged =
      p.terminal.input.length + terminal.early + if gotSigio then place.reads else 0) :
    Invariant { p with
      terminal := terminal, gotSigio := gotSigio, place := place, output := output } := by
  refine ⟨hserves, hwritten, h.single, hflagged, hreading, h.accounted, fun hfit => ?_⟩
  obtain ⟨hmost, hleast⟩ := h.unread (hfits hfit)
  have hchange := hunread hfit
  rw [Program.owed] at hmost hleast
  constructor
  · change terminal.input.length ≤ terminal.early + p.unhandled + p.found +
      p.process.frames.countP sets + if gotSigio then place.reads else 0
    omega
  · change terminal.early + p.unhandled + p.found + p.process.frames.countP sets +
      (if gotSigio then place.reads else 0) ≤ terminal.input.length + p.writables
    omega

theorem flagged_of {place : Place} (hplace : p.place = place) (hflag : p.gotSigio = true) :
    p.flagged = place.reads := by
  rw [Program.flagged, if_pos hflag, hplace]

theorem Invariant.readNothing (h : Invariant p) (hplace : p.place = .reading)
    (hinput : p.terminal.input = []) : Invariant { p with place := .clearing } where
  serves := by
    have hserves := h.serves
    rw [hplace] at hserves
    exact hserves
  written := h.written
  single := h.single
  flagged := fun _ => h.reading hplace
  reading := fun heq => by cases heq
  accounted := h.accounted
  unread := fun hfits => by
    have hflagged : p.flagged = 1 := flagged_of hplace (h.reading hplace)
    have hafter : Program.flagged { p with place := .clearing } = 0 :=
      flagged_of rfl (h.reading hplace)
    obtain ⟨_, hleast⟩ := h.unread hfits
    rw [Program.owed, hflagged] at hleast
    constructor
    · change p.terminal.input.length ≤ _
      rw [hinput]
      exact Nat.zero_le _
    · change p.terminal.early + p.unhandled + p.found + p.process.frames.countP sets +
        Program.flagged { p with place := .clearing } ≤ p.terminal.input.length + p.writables
      rw [hafter]
      omega

theorem Invariant.read (h : Invariant p) (hplace : p.place = .reading) : Invariant p.read := by
  have hflag := h.reading hplace
  have hflagged : p.flagged = 1 := flagged_of hplace hflag
  have hserves := h.serves
  rw [hplace, Place.held, List.append_nil] at hserves
  rw [Program.read]
  cases hread : p.terminal.read with
  | none => exact h.readNothing hplace (Terminal.read_eq_none hread)
  | some read =>
      rcases read with ⟨msg, terminal⟩
      have hsame := Terminal.read_same hread
      have hbefore : terminal.Fits → p.terminal.Fits := by
        intro hfits
        rw [Terminal.Fits, hsame.1] at hfits
        exact hfits
      refine h.main (hserves.read hread) h.written (fun _ => hflag) (fun _ => hflag) hbefore
        (fun hfits => ?_)
      have hlength := hserves.length_read (hbefore hfits) hread
      rw [hflagged, hsame.2.1, hflag]
      change _ = p.terminal.input.length + p.terminal.early + 0
      omega

theorem Invariant.loop {action : Action} (h : Invariant p) (hstep : loop p action = some p') :
    Invariant p' := by
  have hserves := h.serves
  cases action with
  | check =>
      rw [SignalFlag.loop] at hstep
      split at hstep
      · rename_i hplace
        obtain ⟨hflag, heq⟩ := Option.ite_none_right_eq_some.mp hstep
        obtain rfl := Option.some.inj heq
        rw [hplace] at hserves
        refine h.main hserves h.written (fun _ => hflag) (fun _ => hflag) id (fun _ => ?_)
        rw [flagged_of hplace hflag, hflag]
        rfl
      · cases hstep
  | read =>
      rw [SignalFlag.loop] at hstep
      split at hstep
      · rename_i hplace
        obtain rfl := Option.some.inj hstep
        exact h.read hplace
      · cases hstep
  | write n =>
      rw [SignalFlag.loop] at hstep
      split at hstep
      · rename_i msg hplace
        obtain rfl := Option.some.inj hstep
        have hflag : p.gotSigio = true := h.flagged (by rw [hplace]; rfl)
        rw [hplace] at hserves
        refine h.main ?_ (h.written.write msg n) (fun _ => hflag) (fun _ => hflag) id
          (fun _ => ?_)
        · change p.terminal.Serves (p.output.handed ++ msg ++ [])
          rw [List.append_nil]
          exact hserves
        · rw [flagged_of hplace hflag, hflag]
          rfl
      · cases hstep
  | clear =>
      rw [SignalFlag.loop] at hstep
      split at hstep
      · rename_i hplace
        obtain rfl := Option.some.inj hstep
        have hflag : p.gotSigio = true := h.flagged (by rw [hplace]; rfl)
        rw [hplace] at hserves
        refine h.main hserves h.written (fun hreads => absurd hreads Nat.one_ne_zero)
          (fun heq => by cases heq) id (fun _ => ?_)
        rw [flagged_of hplace hflag]
        rfl
      · cases hstep
  | enter _ | writable | setAsync | deliver | handle | sigreturn => cases hstep

theorem Invariant.step {action : Action} (h : Invariant p) (hstep : step p action = some p') :
    Invariant p' := by
  rw [SignalFlag.step.eq_def] at hstep
  split at hstep
  · obtain rfl := Option.some.inj hstep
    exact h.enter _
  · obtain ⟨_, heq⟩ := Option.ite_none_right_eq_some.mp hstep
    obtain rfl := Option.some.inj heq
    exact @Invariant.generate p h p.terminal (p.writables + 1) h.serves id rfl (Nat.le_succ _) rfl
  · split at hstep
    · rename_i hplace
      obtain rfl := Option.some.inj hstep
      have hserves := h.serves
      rw [hplace] at hserves
      refine @Invariant.main p h { p.terminal with async := true } p.gotSigio .looping p.output
        (hserves.of_eq rfl rfl) h.written (fun hreads => absurd hreads Nat.one_ne_zero)
        (fun heq => by cases heq) id (fun _ => ?_)
      rw [Program.flagged, hplace]
      rfl
    · cases hstep
  · obtain ⟨process, hdeliver, heq⟩ := Option.bind_eq_some_iff.mp hstep
    obtain rfl := Option.some.inj heq
    exact h.deliver hdeliver
  · split at hstep
    · rename_i hframes
      obtain rfl := Option.some.inj hstep
      exact h.handle hframes
    · cases hstep
  · split at hstep
    · rename_i hframes
      obtain ⟨process, hreturn, heq⟩ := Option.bind_eq_some_iff.mp hstep
      obtain rfl := Option.some.inj heq
      exact h.sigreturn hframes hreturn
    · cases hstep
  · split at hstep
    · exact h.loop hstep
    · cases hstep

/-- Of `terminal-io-signal-drive-v1.c`, in every run. -/
theorem lines_behind (actions : List Action) (p : Program)
    (hrun : run step .start actions = some p) : Echoes p := by
  have hinvariant : EveryState step Invariant .start actions :=
    invariant invariant_start (fun _ _ _ h hstep => h.step hstep) actions
  exact (hinvariant.reached hrun).echoes

/-- The second line comes before the signal of the first is handled, and the terminal
does not take the first one. -/
def mergedSignal : List Action :=
  [.setAsync, .enter (literal "a\n"), .enter (literal "b\n"), .deliver, .handle, .sigreturn,
    .check, .read, .write 0, .clear]

theorem lines_behind_mergedSignal : ∃ p, run step .start mergedSignal = some p ∧ p.AtRest ∧
    p.terminal.input = [literal "b\n"] ∧ p.output.written = [] ∧ Echoes p :=
  ⟨_, rfl, ⟨rfl, rfl, rfl⟩, rfl, rfl, lines_behind mergedSignal _ rfl⟩

end StudyLinuxKernel.IoModel.SignalFlag
