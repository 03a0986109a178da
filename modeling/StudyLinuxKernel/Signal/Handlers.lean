import StudyLinuxKernel.Libc.Decimal
import StudyLinuxKernel.Libc.Text
import StudyLinuxKernel.Library.PartialStep
import StudyLinuxKernel.Library.Signals

/-!
`signal_handler.c` and `signal_handler_ex.c`, which have the same handler for
SIGINT and SIGQUIT and wait in `pause`.  The first installs it with `signal`, the
second with `sigaction` and a mask that has the other signal in it.  They are
compiled with `-std=c11`, and `signal` then has the semantics of System V: it blocks
nothing, and a handler that is entered is installed no more.
-/

namespace StudyLinuxKernel.Signal.Handlers

open StudyLinuxKernel.Libc.Decimal
open StudyLinuxKernel.Libc.Text
open StudyLinuxKernel.Library.PartialStep
open StudyLinuxKernel.Library.Signals

inductive Sig where
  | SIGINT
  | SIGQUIT
  deriving DecidableEq

def Sig.number : Sig → Nat
  | .SIGINT => 2
  | .SIGQUIT => 3

inductive Program where
  | signalHandler
  | signalHandlerEx
  deriving DecidableEq

def saMask : Sig → Sig → Bool
  | .SIGINT, t => t = .SIGQUIT
  | .SIGQUIT, t => t = .SIGINT

/-- What is blocked while the handler runs; `sigaction` blocks its own signal too. -/
def Program.blocks : Program → Sig → Sig → Bool
  | .signalHandler, _, _ => false
  | .signalHandlerEx, s, t => t = s || saMask s t

/-- Whether the default action is back when the handler is entered. -/
def Program.resets : Program → Bool
  | .signalHandler => true
  | .signalHandlerEx => false

/-- Where `sign_handler` is. -/
inductive Body where
  | entered
  | printed
  deriving DecidableEq

inductive Event where
  | sent (s : Sig)
  | entered (s : Sig)
  | printed (text : Bytes)
  | returned (s : Sig)
  deriving DecidableEq

/-- `installed` says for which signals there is a handler. -/
structure System where
  process : Process Sig Body
  installed : Sig → Bool
  killed : Bool
  log : List Event

/-- The handler for SIGQUIT is installed where there is an argument. -/
def installedBy (bSetSigQuit : Bool) : Sig → Bool
  | .SIGINT => true
  | .SIGQUIT => bSetSigQuit

def System.start (bSetSigQuit : Bool) : System where
  process := .start Sig Body
  installed := installedBy bSetSigQuit
  killed := false
  log := []

/-- These are standard signals, of which one can be pending. -/
def capacity (_ : Sig) : Nat := 1

/-- What `sign_handler` prints. -/
def triggerText (s : Sig) : Bytes :=
  let signName := if s = .SIGINT then literal "SIGINT" else literal "SIGQUIT"
  literal "Trigger the " ++ signName ++ literal "(" ++ decimal s.number ++ literal ") signal.\n"

inductive Action where
  | send (s : Sig)
  | deliver (s : Sig)
  | print
  | sigreturn

def step (program : Program) (s : System) (action : Action) : Option System :=
  if s.killed then none
  else
    match action with
    | .send sig => some { s with
        process := s.process.generate capacity sig
        log := s.log ++ [.sent sig] }
    | .deliver sig =>
        if s.installed sig then do
          let process ← s.process.deliver program.blocks .entered sig
          some { s with
            process := process
            installed :=
              if program.resets then Function.update s.installed sig false else s.installed
            log := s.log ++ [.entered sig] }
        -- Without a handler the signal ends the process.
        else if s.process.Deliverable sig then some { s with killed := true }
        else none
    | .print =>
        match s.process.frames with
        | ⟨sig, saved, .entered⟩ :: frames => some { s with
            process := { s.process with frames := ⟨sig, saved, .printed⟩ :: frames }
            log := s.log ++ [.printed (triggerText sig)] }
        | _ => none
    | .sigreturn =>
        match s.process.frames with
        | ⟨sig, _, .printed⟩ :: _ => do
            let process ← s.process.sigreturn
            some { s with process := process, log := s.log ++ [.returned sig] }
        | _ => none

/-- The handlers that are entered and not returned, the last of them first; a
handler returns in front of those that it has interrupted. -/
def open_ : List Event → List Sig → Option (List Sig)
  | [], running => some running
  | .sent _ :: events, running => open_ events running
  | .entered s :: events, running => open_ events (s :: running)
  | .printed _ :: events, running => open_ events running
  | .returned s :: events, running =>
      match running with
      | [] => none
      | s' :: rest => if s' = s then open_ events rest else none

/-- The handler was entered after each time that its signal was sent, or the signal
is pending. -/
def Followed (s : System) : Prop :=
  ∀ sig before after, s.log = before ++ .sent sig :: after →
    .entered sig ∈ after ∨ 0 < s.process.pending sig

/-- Handlers interrupt each other like calls, none interrupts itself, none is entered
more often than its signal was sent, and no signal goes without its handler.  A handler
that `signal` has installed is entered once at most. -/
structure Nested (program : Program) (s : System) : Prop where
  bracketed : open_ s.log [] = some (s.process.frames.map Frame.signal)
  distinct : (s.process.frames.map Frame.signal).Nodup
  atMost : ∀ sig, s.log.count (.entered sig) + s.process.pending sig ≤ s.log.count (.sent sig)
  followed : Followed s
  once : program.resets = true → ∀ sig, s.log.count (.entered sig) ≤ 1

/-- What a handler leaves in the log when nothing interrupts it. -/
def whole (sig : Sig) : List Event := [.entered sig, .printed (triggerText sig), .returned sig]

def behind (frame : Frame Sig Body) : List Event :=
  match frame.body with
  | .entered => [.printed (triggerText frame.signal), .returned frame.signal]
  | .printed => [.returned frame.signal]

def ofHandler : Event → Bool
  | .sent _ => false
  | _ => true

/-- What the handlers have left in the log. -/
def System.trace (s : System) : List Event := s.log.filter ofHandler

/-- The handlers run one after the other. -/
def Serial (s : System) : Prop :=
  ∃ ended : List Sig, (s.process.frames = [] ∧ s.trace = ended.flatMap whole) ∨
    ∃ frame, s.process.frames = [frame] ∧
      s.trace ++ behind frame = ended.flatMap whole ++ whole frame.signal

/-- The steps of the program, each with what it does. -/
inductive Moves (program : Program) (s : System) : System → Prop where
  | sent (sig : Sig) : Moves program s { s with
      process := s.process.generate capacity sig
      log := s.log ++ [.sent sig] }
  | delivered (sig : Sig) (process : Process Sig Body) (installed : Sig → Bool) :
      s.installed sig = true → s.process.deliver program.blocks .entered sig = some process →
      installed = (if program.resets then Function.update s.installed sig false
        else s.installed) →
      Moves program s { s with
        process := process
        installed := installed
        log := s.log ++ [.entered sig] }
  | killed : Moves program s { s with killed := true }
  | printed (sig : Sig) (saved : Sig → Bool) (frames : List (Frame Sig Body)) :
      s.process.frames = ⟨sig, saved, .entered⟩ :: frames →
      Moves program s { s with
        process := { s.process with frames := ⟨sig, saved, .printed⟩ :: frames }
        log := s.log ++ [.printed (triggerText sig)] }
  | returned (sig : Sig) (saved : Sig → Bool) (frames : List (Frame Sig Body)) :
      s.process.frames = ⟨sig, saved, .printed⟩ :: frames →
      Moves program s { s with
        process := { s.process with mask := saved, frames := frames }
        log := s.log ++ [.returned sig] }

theorem moves_of_step {program : Program} {s s' : System} {action : Action}
    (h : step program s action = some s') : Moves program s s' := by
  rw [step.eq_def] at h
  split at h
  · cases h
  · split at h
    · obtain rfl := Option.some.inj h
      exact .sent _
    · split at h
      · rename_i hinstalled
        obtain ⟨process, hprocess, hs'⟩ := Option.bind_eq_some_iff.mp h
        obtain rfl := Option.some.inj hs'
        exact .delivered _ process _ hinstalled hprocess rfl
      · split at h
        · obtain rfl := Option.some.inj h
          exact .killed
        · cases h
    · split at h
      · rename_i sig saved frames hframes
        obtain rfl := Option.some.inj h
        exact .printed sig saved frames hframes
      · cases h
    · split at h
      · rename_i sig saved frames hframes
        obtain ⟨process, hprocess, hs'⟩ := Option.bind_eq_some_iff.mp h
        obtain ⟨frame, rest, hframe, rfl⟩ := Process.sigreturn_eq_some hprocess
        obtain ⟨rfl, rfl⟩ := List.cons.inj (hframes.symm.trans hframe)
        obtain rfl := Option.some.inj hs'
        exact .returned sig saved frames hframes
      · cases h

theorem open_concat (event : Event) (events : List Event) (running : List Sig) :
    open_ (events ++ [event]) running = (open_ events running).bind (open_ [event]) := by
  induction events generalizing running with
  | nil => rfl
  | cons first events ih =>
      rcases first with sig | sig | text | sig
      · exact ih running
      · exact ih (sig :: running)
      · exact ih running
      · rcases running with - | ⟨top, rest⟩
        · rfl
        · change (if top = sig then open_ (events ++ [event]) rest else none) =
            Option.bind (if top = sig then open_ events rest else none) (open_ [event])
          split
          · exact ih rest
          · rfl

theorem Followed.concat {s : System} (h : Followed s) {process : Process Sig Body}
    {installed : Sig → Bool} {event : Event} (hevent : ∀ sig, event ≠ .sent sig)
    (hpending : ∀ sig, 0 < s.process.pending sig →
      event = .entered sig ∨ 0 < process.pending sig) :
    Followed { s with
      process := process
      installed := installed
      log := s.log ++ [event] } := by
  intro sig before after hsplit
  rcases List.eq_nil_or_concat after with rfl | ⟨front, last, rfl⟩
  · obtain ⟨_, hlast⟩ := List.append_inj' hsplit rfl
    exact absurd (List.singleton_inj.mp hlast) (hevent sig)
  · rw [List.concat_eq_append, ← List.cons_append, ← List.append_assoc] at hsplit
    obtain ⟨hfront, hlast⟩ := List.append_inj' hsplit rfl
    obtain rfl := List.singleton_inj.mp hlast
    rw [List.concat_eq_append]
    rcases h sig before front hfront with hentered | hold
    · exact Or.inl (List.mem_append_left _ hentered)
    · rcases hpending sig hold with rfl | hpending
      · exact Or.inl (List.mem_append_right _ (List.mem_singleton_self _))
      · exact Or.inr hpending

theorem Followed.send {s : System} (h : Followed s) (sig : Sig) :
    Followed { s with
      process := s.process.generate capacity sig
      log := s.log ++ [.sent sig] } := by
  have hsent : 0 < (s.process.generate capacity sig).pending sig := by
    change 0 < Function.update s.process.pending sig _ sig
    rw [Function.update_self, capacity]
    omega
  intro other before after hsplit
  rcases List.eq_nil_or_concat after with rfl | ⟨front, last, rfl⟩
  · obtain ⟨_, hlast⟩ := List.append_inj' hsplit rfl
    obtain rfl := Event.sent.inj (List.singleton_inj.mp hlast)
    exact Or.inr hsent
  · rw [List.concat_eq_append, ← List.cons_append, ← List.append_assoc] at hsplit
    rw [List.concat_eq_append]
    rcases h other before front (List.append_inj' hsplit rfl).1 with hentered | hold
    · exact Or.inl (List.mem_append_left _ hentered)
    · rcases Decidable.em (other = sig) with rfl | hne
      · exact Or.inr hsent
      · refine Or.inr ?_
        change 0 < Function.update s.process.pending sig _ other
        rw [Function.update_of_ne hne]
        exact hold

/-- What the steps keep for the account and for the brackets. -/
structure Interrupting (program : Program) (s : System) : Prop where
  bracketed : open_ s.log [] = some (s.process.frames.map Frame.signal)
  stacked : Stacked program.blocks s.process.mask s.process.frames
  distinct : (s.process.frames.map Frame.signal).Nodup
  awake : s.process.waiting = none
  accounted : Accounted capacity s.process
  sent : ∀ sig, s.log.count (.sent sig) = s.process.sent sig
  handled : ∀ sig, s.log.count (.entered sig) = s.process.handled sig
  entered : ∀ frame ∈ s.process.frames, 0 < s.process.handled frame.signal
  followed : Followed s
  unused : program.resets = true → ∀ sig, s.process.handled sig ≤ 1 ∧
    (s.installed sig = true → s.process.handled sig = 0)

theorem Interrupting.start (program : Program) (bSetSigQuit : Bool) :
    Interrupting program (.start bSetSigQuit) where
  bracketed := rfl
  stacked := .main _
  distinct := List.nodup_nil
  awake := rfl
  accounted := accounted_start
  sent := fun _ => rfl
  handled := fun _ => rfl
  entered := fun _ hnone => absurd hnone List.not_mem_nil
  followed := fun sig before after h => by
    change [] = _ at h
    simp at h
  unused := fun _ _ => ⟨Nat.zero_le 1, fun _ => rfl⟩

theorem count_concat_of_ne {log : List Event} {event other : Event} (h : event ≠ other) :
    (log ++ [event]).count other = log.count other := by
  rw [List.count_append, List.count_singleton, beq_eq_false_iff_ne.mpr h]
  rfl

theorem count_update {f : Sig → Nat} {log : List Event} {event : Sig → Event}
    (hinj : Function.Injective event) (h : ∀ sig, log.count (event sig) = f sig) (sig t : Sig) :
    (log ++ [event sig]).count (event t) = Function.update f sig (f sig + 1) t := by
  rcases Decidable.em (t = sig) with rfl | hne
  · rw [Function.update_self, List.count_append, h, List.count_singleton_self]
  · rw [Function.update_of_ne hne, count_concat_of_ne fun heq => hne (hinj heq).symm, h]

theorem Interrupting.send {program : Program} {s : System} (h : Interrupting program s)
    (sig : Sig) : Interrupting program { s with
      process := s.process.generate capacity sig
      log := s.log ++ [.sent sig] } where
  bracketed := by
    rw [open_concat, h.bracketed]
    rfl
  stacked := h.stacked
  distinct := h.distinct
  awake := h.awake
  accounted := h.accounted.generate sig
  sent := count_update (fun _ _ => Event.sent.inj) h.sent sig
  handled := fun t => (count_concat_of_ne fun heq => by cases heq).trans (h.handled t)
  entered := h.entered
  followed := h.followed.send sig
  unused := h.unused

/-- The handler that is entered is not one that runs: its signal is blocked then, or
its handler is installed no more. -/
theorem Interrupting.not_running {program : Program} {s : System} (h : Interrupting program s)
    {sig : Sig} (hinstalled : s.installed sig = true) (hopen : s.process.mask sig = false) :
    sig ∉ s.process.frames.map Frame.signal := by
  intro hrunning
  rcases List.mem_map.mp hrunning with ⟨frame, hframe, rfl⟩
  cases program with
  | signalHandler =>
      have hentered := h.entered frame hframe
      rw [((h.unused rfl) frame.signal).2 hinstalled] at hentered
      exact absurd hentered (Nat.lt_irrefl 0)
  | signalHandlerEx =>
      have hblocked := h.stacked.not_blocked hopen hframe
      change (decide (frame.signal = frame.signal) || _) = false at hblocked
      rw [decide_eq_true rfl] at hblocked
      cases hblocked

theorem Interrupting.deliver {program : Program} {s : System} (h : Interrupting program s)
    {sig : Sig} {process : Process Sig Body} (hinstalled : s.installed sig = true)
    (hdeliver : s.process.deliver program.blocks .entered sig = some process) :
    Interrupting program { s with
      process := process
      installed :=
        if program.resets then Function.update s.installed sig false else s.installed
      log := s.log ++ [.entered sig] } := by
  have hstacked := h.stacked.deliver (Or.inr h.awake) hdeliver
  have haccounted := h.accounted.deliver hdeliver
  obtain ⟨⟨_, hopen⟩, rfl⟩ := Process.deliver_eq_some hdeliver
  have hfresh := h.not_running hinstalled hopen
  refine ⟨?_, hstacked, List.nodup_cons.mpr ⟨hfresh, h.distinct⟩, rfl, haccounted,
    fun t => (count_concat_of_ne fun heq => by cases heq).trans (h.sent t),
    count_update (fun _ _ => Event.entered.inj) h.handled sig, ?_, ?_, fun hresets t => ?_⟩
  · rw [open_concat, h.bracketed]
    rfl
  · intro frame hframe
    change 0 < Function.update s.process.handled sig _ frame.signal
    rcases Decidable.em (frame.signal = sig) with hsame | hne
    · rw [hsame, Function.update_self]
      exact Nat.succ_pos _
    · rw [Function.update_of_ne hne]
      rcases List.mem_cons.mp hframe with rfl | hbelow
      · exact absurd rfl hne
      · exact h.entered frame hbelow
  · refine h.followed.concat (fun _ heq => by cases heq) fun t hpending => ?_
    rcases Decidable.em (t = sig) with rfl | hne
    · exact Or.inl rfl
    · refine Or.inr ?_
      change 0 < Function.update s.process.pending sig _ t
      rw [Function.update_of_ne hne]
      exact hpending
  · have hunused := h.unused hresets
    change Function.update s.process.handled sig _ t ≤ 1 ∧ ((if program.resets = true then
      Function.update s.installed sig false else s.installed) t = true → _)
    rw [if_pos hresets]
    rcases Decidable.em (t = sig) with rfl | hne
    · rw [Function.update_self, Function.update_self, (hunused t).2 hinstalled]
      exact ⟨Nat.le_refl 1, fun hfalse => by cases hfalse⟩
    · change _ ∧ (_ → Function.update s.process.handled sig _ t = 0)
      rw [Function.update_of_ne hne, Function.update_of_ne hne]
      exact hunused t

theorem Interrupting.print {program : Program} {s : System} (h : Interrupting program s)
    {sig : Sig} {saved : Sig → Bool} {frames : List (Frame Sig Body)}
    (hframes : s.process.frames = ⟨sig, saved, .entered⟩ :: frames) :
    Interrupting program { s with
      process := { s.process with frames := ⟨sig, saved, .printed⟩ :: frames }
      log := s.log ++ [.printed (triggerText sig)] } := by
  obtain ⟨hbracketed, hstacked, hdistinct, hawake, haccounted, hsent, hhandled, hentered,
    hfollowed, hunused⟩ := h
  rw [hframes] at hbracketed hstacked hdistinct hentered
  refine ⟨?_, hstacked.moved .printed, hdistinct, hawake, haccounted.of_eq rfl rfl rfl,
    fun t => (count_concat_of_ne fun heq => by cases heq).trans (hsent t),
    fun t => (count_concat_of_ne fun heq => by cases heq).trans (hhandled t), ?_,
    hfollowed.concat (fun _ heq => by cases heq) (fun _ hpending => Or.inr hpending), hunused⟩
  · rw [open_concat, hbracketed]
    rfl
  · intro frame hframe
    rcases List.mem_cons.mp hframe with rfl | hbelow
    · exact hentered ⟨sig, saved, .entered⟩ List.mem_cons_self
    · exact hentered frame (List.mem_cons_of_mem _ hbelow)

theorem Interrupting.return {program : Program} {s : System} (h : Interrupting program s)
    {sig : Sig} {saved : Sig → Bool} {frames : List (Frame Sig Body)}
    (hframes : s.process.frames = ⟨sig, saved, .printed⟩ :: frames) :
    Interrupting program { s with
      process := { s.process with mask := saved, frames := frames }
      log := s.log ++ [.returned sig] } := by
  obtain ⟨hbracketed, hstacked, hdistinct, hawake, haccounted, hsent, hhandled, hentered,
    hfollowed, hunused⟩ := h
  rw [hframes] at hbracketed hstacked hdistinct hentered
  refine ⟨?_, hstacked.returned, (List.nodup_cons.mp hdistinct).2, hawake,
    haccounted.of_eq rfl rfl rfl,
    fun t => (count_concat_of_ne fun heq => by cases heq).trans (hsent t),
    fun t => (count_concat_of_ne fun heq => by cases heq).trans (hhandled t),
    fun frame hframe => hentered frame (List.mem_cons_of_mem _ hframe),
    hfollowed.concat (fun _ heq => by cases heq) (fun _ hpending => Or.inr hpending), hunused⟩
  rw [open_concat, hbracketed]
  change (if sig = sig then _ else _) = _
  rw [if_pos rfl]
  rfl

theorem Interrupting.step {program : Program} {s s' : System} {action : Action}
    (h : Interrupting program s) (hstep : step program s action = some s') :
    Interrupting program s' := by
  rcases moves_of_step hstep with ⟨sig⟩ | ⟨sig, process, installed, hinstalled, hdeliver, rfl⟩ |
    _ | ⟨sig, saved, frames, hframes⟩ | ⟨sig, saved, frames, hframes⟩
  · exact h.send sig
  · exact h.deliver hinstalled hdeliver
  · exact ⟨h.bracketed, h.stacked, h.distinct, h.awake, h.accounted, h.sent, h.handled,
      h.entered, h.followed, h.unused⟩
  · exact h.print hframes
  · exact h.return hframes

theorem Interrupting.nested {program : Program} {s : System} (h : Interrupting program s) :
    Nested program s where
  bracketed := h.bracketed
  distinct := h.distinct
  atMost := fun sig => by
    rw [h.handled, h.sent]
    exact h.accounted.atMost sig
  followed := h.followed
  once := fun hresets sig => (h.handled sig).trans_le ((h.unused hresets) sig).1

/-- In every run of both programs, also where signals arrive while handlers run. -/
theorem handlers_nested (program : Program) (bSetSigQuit : Bool) (actions : List Action)
    (s : System) (hrun : run (step program) (.start bSetSigQuit) actions = some s) :
    Nested program s := by
  have hinv : EveryState (step program) (Interrupting program) (.start bSetSigQuit) actions :=
    invariant (.start program bSetSigQuit) (fun _ _ _ hs hstep => hs.step hstep) actions
  exact (hinv.reached hrun).nested

/-- While SIGQUIT is sent twice, the handler of SIGINT is interrupted once. -/
def interruption : List Action :=
  [.send .SIGINT, .deliver .SIGINT, .send .SIGQUIT, .send .SIGQUIT, .deliver .SIGQUIT, .print]

theorem handlers_nested_interruption : ∃ s,
    run (step .signalHandler) (.start true) interruption = some s ∧
      s.process.frames.length = 2 ∧ Nested .signalHandler s :=
  ⟨_, rfl, rfl, handlers_nested .signalHandler true interruption _ rfl⟩

/-- With the masks of `signal_handler_ex.c` a handler blocks all signals there are. -/
theorem blocks_signalHandlerEx (s t : Sig) : Program.signalHandlerEx.blocks s t = true := by
  cases s <;> cases t <;> rfl

/-- Each handler blocks both signals until it returns. -/
def Alone (s : System) : Prop :=
  s.process.waiting = none ∧ ∃ ended : List Sig,
    (s.process.frames = [] ∧ s.trace = ended.flatMap whole) ∨
      ∃ frame, s.process.frames = [frame] ∧ (∀ t, s.process.mask t = true) ∧
        s.trace ++ behind frame = ended.flatMap whole ++ whole frame.signal

theorem filter_concat (log : List Event) {event : Event} (h : ofHandler event = true) :
    (log ++ [event]).filter ofHandler = log.filter ofHandler ++ [event] := by
  rw [List.filter_append, List.filter_singleton, h]
  rfl

theorem Alone.step {s s' : System} {action : Action} (h : Alone s)
    (hstep : step .signalHandlerEx s action = some s') : Alone s' := by
  rcases h with ⟨hawake, ended, hserial⟩
  rcases moves_of_step hstep with ⟨sig⟩ | ⟨sig, process, installed, _, hdeliver, _⟩ | _ |
    ⟨sig, saved, frames, hframes⟩ | ⟨sig, saved, frames, hframes⟩
  · refine ⟨hawake, ended, ?_⟩
    have htrace : (s.log ++ [Event.sent sig]).filter ofHandler = s.trace := by
      rw [List.filter_append]
      exact List.append_nil _
    rw [System.trace, htrace]
    exact hserial
  · obtain ⟨⟨_, hopen⟩, rfl⟩ := Process.deliver_eq_some hdeliver
    rcases hserial with ⟨hidle, hlog⟩ | ⟨frame, _, hmask, _⟩
    · refine ⟨rfl, ended, Or.inr ⟨⟨sig, s.process.waiting.getD s.process.mask, .entered⟩,
        ?_, fun t => ?_, ?_⟩⟩
      · change _ :: s.process.frames = _
        rw [hidle]
      · change (_ || _) = true
        rw [blocks_signalHandlerEx, Bool.or_true]
      · change (s.log ++ [Event.entered sig]).filter ofHandler ++ _ = _
        rw [filter_concat s.log rfl]
        change (s.trace ++ [.entered sig]) ++ _ = _
        rw [hlog, List.append_assoc]
        rfl
    · rw [hmask] at hopen
      cases hopen
  · exact ⟨hawake, ended, hserial⟩
  · rcases hserial with ⟨hidle, _⟩ | ⟨frame, hframe, hmask, hlog⟩
    · rw [hidle] at hframes
      cases hframes
    · obtain ⟨rfl, rfl⟩ := List.cons.inj (hframe.symm.trans hframes)
      refine ⟨hawake, ended, Or.inr ⟨⟨sig, saved, .printed⟩, rfl, hmask, ?_⟩⟩
      change (s.log ++ [Event.printed (triggerText sig)]).filter ofHandler ++ _ = _
      rw [filter_concat s.log rfl, List.append_assoc]
      exact hlog
  · rcases hserial with ⟨hidle, _⟩ | ⟨frame, hframe, _, hlog⟩
    · rw [hidle] at hframes
      cases hframes
    · obtain ⟨rfl, rfl⟩ := List.cons.inj (hframe.symm.trans hframes)
      refine ⟨hawake, ended ++ [sig], Or.inl ⟨rfl, ?_⟩⟩
      change (s.log ++ [Event.returned sig]).filter ofHandler = _
      rw [filter_concat s.log rfl, List.flatMap_append, List.flatMap_singleton]
      exact hlog

theorem Alone.serial {s : System} (h : Alone s) : Serial s := by
  rcases h with ⟨_, ended, hidle | ⟨frame, hframe, _, hlog⟩⟩
  · exact ⟨ended, Or.inl hidle⟩
  · exact ⟨ended, Or.inr ⟨frame, hframe, hlog⟩⟩

/-- The promise of `signal_handler_ex.c`: what one handler prints is never inside
the run of another. -/
theorem handlers_serial (bSetSigQuit : Bool) (actions : List Action) (s : System)
    (hrun : run (step .signalHandlerEx) (.start bSetSigQuit) actions = some s) : Serial s := by
  have hstart : Alone (.start bSetSigQuit) := ⟨rfl, [], Or.inl ⟨rfl, rfl⟩⟩
  have hinv : EveryState (step .signalHandlerEx) Alone (.start bSetSigQuit) actions :=
    invariant hstart (fun _ _ _ hs hstep => hs.step hstep) actions
  exact (hinv.reached hrun).serial

/-- The second signal waits for the handler of the first. -/
def waitingTurn : List Action :=
  [.send .SIGINT, .deliver .SIGINT, .send .SIGQUIT, .print, .sigreturn, .deliver .SIGQUIT]

theorem handlers_serial_waitingTurn : ∃ s,
    run (step .signalHandlerEx) (.start true) waitingTurn = some s ∧
      s.trace.length = 4 ∧ Serial s :=
  ⟨_, rfl, rfl, handlers_serial true waitingTurn _ rfl⟩

end StudyLinuxKernel.Signal.Handlers
