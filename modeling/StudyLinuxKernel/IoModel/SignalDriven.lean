import StudyLinuxKernel.IoModel.LineInput
import StudyLinuxKernel.Library.PartialStep
import StudyLinuxKernel.Library.Signals
import StudyLinuxKernel.Library.UncheckedWrite

/-!
`terminal-io-signal-drive-v2.c`: the handler of a realtime signal reads the terminal,
and `main` waits for it in `sigsuspend`.  The terminal does not block any more, so that
the `write` of the handler may fail or fall short.
-/

namespace StudyLinuxKernel.IoModel.SignalDriven

open StudyLinuxKernel.IoModel.LineInput
open StudyLinuxKernel.Libc.Text
open StudyLinuxKernel.Library.PartialStep
open StudyLinuxKernel.Library.Signals
open StudyLinuxKernel.Library.UncheckedWrite

/-- `si_code` of a signal that the terminal sends. -/
inductive Readiness where
  | POLL_IN
  | POLL_OUT
  deriving DecidableEq

/-- There is one signal, which its handler blocks. -/
def blocks (_ _ : Readiness) : Bool := true

/-- Where `sigHandler` is. -/
inductive Body where
  | entered
  | read (msg : Bytes)
  | returned

/-- Where `main` is: behind `sigaction` and F_SETSIG, behind O_ASYNC, in its loop. -/
inductive Place where
  | installed
  | async
  | looping
  deriving DecidableEq

structure Program where
  terminal : Terminal
  process : Process Readiness Body
  place : Place
  output : Output UInt8
  killed : Bool

def Program.start : Program where
  terminal := .start
  process := .start Readiness Body
  place := .installed
  output := .empty
  killed := false

inductive Action where
  | enter (line : Bytes)
  | writable
  | setAsync
  | block
  | sigsuspend
  | deliver (si : Readiness)
  | read
  | write (n : Nat)
  | sigreturn

/-- The terminal sends its signal, a realtime one; where the queue is full it is SIGIO
instead, which kills the process. -/
def Program.notify (limit : Nat) (p : Program) (si : Readiness) : Program :=
  if p.process.pending .POLL_IN + p.process.pending .POLL_OUT < limit then
    { p with process := p.process.generate (fun _ => limit) si }
  else { p with killed := true }

def Program.setBody (p : Program) (frame : Frame Readiness Body)
    (frames : List (Frame Readiness Body)) (body : Body) : Program :=
  { p with process := { p.process with frames := { frame with body := body } :: frames } }

/-- `sigHandler`, up to its `write`. -/
def Program.handle (p : Program) (frame : Frame Readiness Body)
    (frames : List (Frame Readiness Body)) : Program :=
  match frame.signal with
  | .POLL_IN =>
      match p.terminal.read with
      | some (msg, terminal) => { p.setBody frame frames (.read msg) with terminal := terminal }
      | none => p.setBody frame frames .returned
  | .POLL_OUT => p.setBody frame frames .returned

def step (limit : Nat) (p : Program) (action : Action) : Option Program :=
  if p.killed then none
  else
    match action with
    | .enter line =>
        let p := { p with terminal := p.terminal.enter line }
        some (if p.terminal.async then p.notify limit .POLL_IN else p)
    | .writable => if p.terminal.async then some (p.notify limit .POLL_OUT) else none
    | .setAsync =>
        if p.place = .installed then
          some { p with terminal := { p.terminal with async := true }, place := .async }
        else none
    | .block =>
        if p.place = .async ∧ p.process.frames = [] ∧ p.process.waiting = none then
          some { p with process := p.process.setMask fun _ => true, place := .looping }
        else none
    | .sigsuspend =>
        if p.place = .looping ∧ p.process.frames = [] ∧ p.process.waiting = none then
          some { p with process := p.process.suspend fun _ => false }
        else none
    | .deliver si => do
        let process ← p.process.deliver blocks .entered si
        some { p with process := process }
    | .read =>
        match p.process.frames with
        | ⟨si, saved, .entered⟩ :: frames => some (p.handle ⟨si, saved, .entered⟩ frames)
        | _ => none
    | .write n =>
        match p.process.frames with
        | ⟨si, saved, .read msg⟩ :: frames =>
            some { p.setBody ⟨si, saved, .read msg⟩ frames .returned with
              output := p.output.write msg n }
        | _ => none
    | .sigreturn =>
        match p.process.frames with
        | ⟨_, _, .returned⟩ :: _ => do
            let process ← p.process.sigreturn
            some { p with process := process }
        | _ => none

def Body.held : Body → Bytes
  | .read msg => msg
  | .entered | .returned => []

/-- What the handler that runs has read and not written. -/
def Program.held (p : Program) : Bytes := p.process.frames.flatMap fun frame => frame.body.held

/-- A handler that still has to read. -/
def reads (frame : Frame Readiness Body) : Bool :=
  match frame.signal, frame.body with
  | .POLL_IN, .entered => true
  | _, _ => false

/-- No handler runs, and there is no signal for one. -/
def Program.AtRest (p : Program) : Prop :=
  p.process.frames = [] ∧ p.process.pending .POLL_IN = 0

/-- What is typed is handed over to `write` as it is and in its order.  While the
process lives, and where the lines fit into `msg`, those that came before O_ASYNC are as
many as stay unread in the end. -/
structure Echoes (p : Program) : Prop where
  bytes : p.output.handed ++ p.held ++ p.terminal.input.flatten = p.terminal.typed.flatten
  written : p.output.Ordered
  unread : p.killed = false → p.terminal.Fits → p.terminal.input.length =
    p.terminal.early + p.process.pending .POLL_IN + p.process.frames.countP reads
  rest : p.killed = false → p.terminal.Fits → p.AtRest → p.output.handed =
    (p.terminal.typed.take (p.terminal.typed.length - p.terminal.early)).flatten

/-- What the steps keep; one handler runs at most. -/
structure Invariant (p : Program) : Prop where
  serves : p.terminal.Serves (p.output.handed ++ p.held)
  written : p.output.Ordered
  single : p.process.frames = [] ∨
    ∃ frame, p.process.frames = [frame] ∧ ∀ si, p.process.mask si = true
  unread : p.killed = false → p.terminal.Fits → p.terminal.input.length =
    p.terminal.early + p.process.pending .POLL_IN + p.process.frames.countP reads
  installed : p.place = .installed → p.terminal.async = false

variable {limit : Nat} {p p' : Program}

theorem invariant_start : Invariant .start :=
  ⟨Terminal.serves_start, ordered_empty, Or.inl rfl, fun _ _ => rfl, fun _ => rfl⟩

theorem Invariant.echoes (h : Invariant p) : Echoes p := by
  refine ⟨h.serves.bytes, h.written, h.unread, fun hlive hfits hrest => ?_⟩
  have hunread := h.unread hlive hfits
  rw [hrest.1, hrest.2] at hunread
  have houtput := h.serves.eq_take hfits hunread
  rw [Program.held, hrest.1, List.flatMap_nil, List.append_nil] at houtput
  exact houtput

theorem Invariant.notify (h : Invariant p) (si : Readiness)
    {terminal : Terminal} (hserves : terminal.Serves (p.output.handed ++ p.held))
    (hasync : terminal.async = p.terminal.async)
    (hunread : terminal.Fits → terminal.input.length = terminal.early +
      (p.process.pending .POLL_IN + if si = .POLL_IN then 1 else 0) +
        p.process.frames.countP reads) :
    Invariant ({ p with terminal := terminal }.notify limit si) := by
  rw [Program.notify]
  split
  · rename_i hroom
    refine ⟨hserves, h.written, h.single, fun _ hfits => ?_, fun hplace => ?_⟩
    · change _ = terminal.early + Function.update p.process.pending si
        (min (p.process.pending si + 1) limit) .POLL_IN + p.process.frames.countP reads
      rw [hunread hfits]
      cases si with
      | POLL_IN =>
          rw [Function.update_self, if_pos rfl, Nat.min_eq_left]
          change p.process.pending .POLL_IN + p.process.pending .POLL_OUT < limit at hroom
          omega
      | POLL_OUT =>
          rw [Function.update_of_ne (show Readiness.POLL_IN ≠ .POLL_OUT by decide),
            if_neg (by decide), Nat.add_zero]
    · exact hasync.trans (h.installed hplace)
  · refine ⟨hserves, h.written, h.single, nofun, fun hplace => ?_⟩
    exact hasync.trans (h.installed hplace)

theorem Invariant.enter (h : Invariant p) (hlive : p.killed = false) (line : Bytes) :
    Invariant (if (p.terminal.enter line).async then
      { p with terminal := p.terminal.enter line }.notify limit .POLL_IN
      else { p with terminal := p.terminal.enter line }) := by
  have hserves := h.serves.enter line
  have hlength := p.terminal.length_enter line
  split
  · rename_i hasync
    refine h.notify .POLL_IN hserves rfl fun hfits => ?_
    have hearly : (p.terminal.enter line).early = p.terminal.early := if_pos hasync
    rw [hlength, h.unread hlive hfits.before, hearly, if_pos rfl]
    omega
  · rename_i hasync
    refine ⟨hserves, h.written, h.single, fun _ hfits => ?_, h.installed⟩
    have hearly : (p.terminal.enter line).early = p.terminal.early + 1 := if_neg hasync
    change (p.terminal.enter line).input.length = (p.terminal.enter line).early +
      p.process.pending .POLL_IN + p.process.frames.countP reads
    rw [hlength, h.unread hlive hfits.before, hearly]
    omega

theorem Invariant.deliver (h : Invariant p) {si : Readiness} {process : Process Readiness Body}
    (hdeliver : p.process.deliver blocks .entered si = some process) :
    Invariant { p with process := process } := by
  obtain ⟨hdeliverable, rfl⟩ := Process.deliver_eq_some hdeliver
  have hpending := hdeliverable.1
  have hidle := hdeliverable.idle (h.single.imp_right fun ⟨_, _, hmask⟩ => hmask si)
  have hunread := h.unread
  have hserves := h.serves
  rw [Program.held, hidle] at hserves
  rw [hidle] at hunread
  refine ⟨?_, h.written, Or.inr ⟨_, congrArg _ hidle, fun other => Bool.or_true _⟩,
    fun hlive hfits => ?_, h.installed⟩
  · rw [Program.held]
    change p.terminal.Serves (p.output.handed ++ List.flatMap _ (_ :: p.process.frames))
    rw [hidle]
    exact hserves
  · change _ = p.terminal.early + Function.update p.process.pending si
      (p.process.pending si - 1) .POLL_IN + List.countP reads (_ :: p.process.frames)
    rw [hunread hlive hfits, hidle]
    cases si with
    | POLL_IN =>
        rw [Function.update_self]
        change p.terminal.early + _ + 0 = _ + _ + 1
        omega
    | POLL_OUT =>
        rw [Function.update_of_ne (show Readiness.POLL_IN ≠ .POLL_OUT by decide)]
        rfl

theorem held_of_frames {frame : Frame Readiness Body} (h : p.process.frames = [frame]) :
    p.held = frame.body.held := by
  rw [Program.held, h, List.flatMap_singleton]

theorem Invariant.setBody (h : Invariant p) {frame : Frame Readiness Body}
    {frames : List (Frame Readiness Body)} (hframes : p.process.frames = frame :: frames)
    (body : Body) {terminal : Terminal} {output : Output UInt8}
    (hasync : terminal.async = p.terminal.async) (hwritten : output.Ordered)
    (hserves : p.terminal.Serves (p.output.handed ++ frame.body.held) →
      terminal.Serves (output.handed ++ body.held))
    (hunread : p.terminal.Serves (p.output.handed ++ frame.body.held) → terminal.Fits →
      p.terminal.input.length = p.terminal.early + p.process.pending .POLL_IN +
        [frame].countP reads →
      terminal.input.length = terminal.early + p.process.pending .POLL_IN +
        [{ frame with body := body }].countP reads) (hfits : terminal.Fits → p.terminal.Fits) :
    Invariant { p.setBody frame frames body with terminal := terminal, output := output } := by
  obtain ⟨rfl, hmask⟩ := Process.only_frame h.single hframes
  have hold := h.serves
  rw [held_of_frames hframes] at hold
  refine ⟨?_, hwritten, Or.inr ⟨_, rfl, hmask⟩, fun hlive hfit => ?_,
    fun hplace => hasync.trans (h.installed hplace)⟩
  · rw [held_of_frames rfl]
    exact hserves hold
  · have hbefore := h.unread hlive (hfits hfit)
    rw [hframes] at hbefore
    exact hunread hold hfit hbefore

theorem Invariant.read (h : Invariant p) {si : Readiness} {saved : Readiness → Bool}
    {frames : List (Frame Readiness Body)}
    (hframes : p.process.frames = ⟨si, saved, .entered⟩ :: frames) :
    Invariant (p.handle ⟨si, saved, .entered⟩ frames) := by
  rw [Program.handle]
  cases si with
  | POLL_IN =>
      change Invariant (match p.terminal.read with | some (msg, terminal) => _ | none => _)
      cases hread : p.terminal.read with
      | none =>
          have hinput : p.terminal.input = [] := Terminal.read_eq_none hread
          refine h.setBody hframes .returned rfl h.written id (fun _ _ hunread => ?_) id
          -- A signal for the handler says that there is a line.
          rw [hinput] at hunread
          exact absurd hunread (Nat.ne_of_lt (Nat.succ_pos _))
      | some found =>
          rcases found with ⟨msg, terminal⟩
          have hsame := Terminal.read_same hread
          refine h.setBody hframes (.read msg) hsame.2.2 h.written (fun hserves => ?_)
            (fun hserves hfits hunread => ?_) (fun hfits => ?_)
          · rw [Body.held, List.append_nil] at hserves
            exact hserves.read hread
          · rw [Terminal.Fits, hsame.1] at hfits
            have hlength := hserves.length_read hfits hread
            change terminal.input.length = terminal.early + p.process.pending .POLL_IN + 0
            change p.terminal.input.length =
              p.terminal.early + p.process.pending .POLL_IN + 1 at hunread
            rw [hsame.2.1]
            omega
          · rw [Terminal.Fits, hsame.1] at hfits
            exact hfits
  | POLL_OUT =>
      exact h.setBody hframes .returned rfl h.written id (fun _ _ hunread => hunread) id

theorem Invariant.write (h : Invariant p) {si : Readiness} {saved : Readiness → Bool} {msg : Bytes}
    {frames : List (Frame Readiness Body)}
    (hframes : p.process.frames = ⟨si, saved, .read msg⟩ :: frames) (n : Nat) :
    Invariant { p.setBody ⟨si, saved, .read msg⟩ frames .returned with
      output := p.output.write msg n } := by
  refine h.setBody hframes .returned rfl (h.written.write msg n) (fun hserves => ?_)
    (fun _ _ hunread => ?_) id
  · rw [Body.held, List.append_nil]
    exact hserves
  · cases si <;> exact hunread

theorem Invariant.sigreturn (h : Invariant p) {process : Process Readiness Body}
    {frame : Frame Readiness Body} {frames : List (Frame Readiness Body)}
    (hframes : p.process.frames = frame :: frames) (hbody : frame.body = .returned)
    (hreturn : p.process.sigreturn = some process) : Invariant { p with process := process } := by
  obtain ⟨top, rest, htop, rfl⟩ := Process.sigreturn_eq_some hreturn
  obtain ⟨rfl, _⟩ := Process.only_frame h.single hframes
  obtain ⟨rfl, rfl⟩ := List.cons.inj (hframes.symm.trans htop)
  have hserves := h.serves
  have hunread := h.unread
  rw [held_of_frames hframes, hbody] at hserves
  rw [hframes] at hunread
  refine ⟨hserves, h.written, Or.inl rfl, fun hlive hfits => ?_, h.installed⟩
  have hreads : [frame].countP reads = 0 := by
    rcases frame with ⟨si, saved, body⟩
    obtain rfl : body = .returned := hbody
    cases si <;> rfl
  have hbefore := hunread hlive hfits
  rw [hreads] at hbefore
  exact hbefore

theorem Invariant.main (h : Invariant p) (hidle : p.process.frames = [])
    {process : Process Readiness Body} (hframes : process.frames = [])
    (hpending : process.pending = p.process.pending) {place : Place} (hplace : place ≠ .installed) :
    Invariant { p with process := process, place := place } := by
  have hserves := h.serves
  have hunread := h.unread
  rw [Program.held, hidle] at hserves
  rw [hidle, ← hpending] at hunread
  refine ⟨?_, h.written, Or.inl hframes, fun hlive hfits => ?_,
    fun hinstalled => absurd hinstalled hplace⟩
  · rw [Program.held]
    change p.terminal.Serves (p.output.handed ++ process.frames.flatMap _)
    rw [hframes]
    exact hserves
  · change p.terminal.input.length = p.terminal.early + process.pending .POLL_IN +
      process.frames.countP reads
    rw [hframes]
    exact hunread hlive hfits

theorem Invariant.step {action : Action} (h : Invariant p)
    (hstep : step limit p action = some p') : Invariant p' := by
  rw [SignalDriven.step.eq_def] at hstep
  split at hstep
  · cases hstep
  · rename_i hkilled
    have hlive : p.killed = false := Bool.eq_false_iff.mpr hkilled
    cases action with
    | enter line =>
        obtain rfl := Option.some.inj hstep
        exact h.enter hlive line
    | writable =>
        obtain ⟨_, heq⟩ := Option.ite_none_right_eq_some.mp hstep
        obtain rfl := Option.some.inj heq
        exact h.notify .POLL_OUT h.serves rfl (h.unread hlive)
    | setAsync =>
        obtain ⟨_, heq⟩ := Option.ite_none_right_eq_some.mp hstep
        obtain rfl := Option.some.inj heq
        exact ⟨h.serves.of_eq rfl rfl, h.written, h.single, h.unread, nofun⟩
    | block =>
        obtain ⟨hplace, heq⟩ := Option.ite_none_right_eq_some.mp hstep
        obtain rfl := Option.some.inj heq
        exact @Invariant.main p h hplace.2.1 (p.process.setMask fun _ => true)
          hplace.2.1 rfl .looping (by decide)
    | sigsuspend =>
        obtain ⟨hplace, heq⟩ := Option.ite_none_right_eq_some.mp hstep
        obtain rfl := Option.some.inj heq
        have hmain := @Invariant.main p h hplace.2.1 (p.process.suspend fun _ => false)
          hplace.2.1 rfl .looping (by decide)
        rw [← hplace.1] at hmain
        exact hmain
    | deliver si =>
        obtain ⟨process, hdeliver, heq⟩ := Option.bind_eq_some_iff.mp hstep
        obtain rfl := Option.some.inj heq
        exact h.deliver hdeliver
    | read =>
        change (match p.process.frames with | ⟨si, saved, .entered⟩ :: frames => _ | _ => _) = _
          at hstep
        split at hstep
        · rename_i hframes
          obtain rfl := Option.some.inj hstep
          exact h.read hframes
        · cases hstep
    | write n =>
        change (match p.process.frames with | ⟨si, saved, .read msg⟩ :: frames => _ | _ => _) = _
          at hstep
        split at hstep
        · rename_i hframes
          obtain rfl := Option.some.inj hstep
          exact h.write hframes n
        · cases hstep
    | sigreturn =>
        change (match p.process.frames with | ⟨_, _, .returned⟩ :: _ => _ | _ => _) = _ at hstep
        split at hstep
        · rename_i hframes
          obtain ⟨process, hreturn, heq⟩ := Option.bind_eq_some_iff.mp hstep
          obtain rfl := Option.some.inj heq
          exact h.sigreturn hframes rfl hreturn
        · cases hstep

/-- Of `terminal-io-signal-drive-v2.c`, in every run and for every limit of the queue. -/
theorem lines_echoed (limit : Nat) (actions : List Action) (p : Program)
    (hrun : run (step limit) .start actions = some p) : Echoes p := by
  have hinvariant : EveryState (step limit) Invariant .start actions :=
    invariant invariant_start (fun _ _ _ h hstep => h.step hstep) actions
  exact (hinvariant.reached hrun).echoes

/-- One line comes before O_ASYNC and one behind it: the signal of the second has the
first one read, of which the terminal takes one byte. -/
def lateLine : List Action :=
  [.enter (literal "a\n"), .setAsync, .block, .sigsuspend, .enter (literal "b\n"),
    .deliver .POLL_IN, .read, .write 1, .sigreturn]

theorem lines_echoed_lateLine : ∃ p, run (step 8) .start lateLine = some p ∧ p.AtRest ∧
    p.output.handed = literal "a\n" ∧ p.output.written = literal "a" ∧ Echoes p :=
  ⟨_, rfl, ⟨rfl, rfl⟩, rfl, rfl, lines_echoed 8 lateLine _ rfl⟩

end StudyLinuxKernel.IoModel.SignalDriven
