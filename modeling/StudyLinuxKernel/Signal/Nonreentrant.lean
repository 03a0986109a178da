import StudyLinuxKernel.Libc.Text
import StudyLinuxKernel.Library.PartialStep
import StudyLinuxKernel.Library.Signals
import StudyLinuxKernel.Library.UncheckedWrite

namespace StudyLinuxKernel.Signal.Nonreentrant

open StudyLinuxKernel.Libc.Text
open StudyLinuxKernel.Library.PartialStep
open StudyLinuxKernel.Library.Signals
open StudyLinuxKernel.Library.UncheckedWrite

/-- SIGINT is the only signal; its handler blocks it. -/
def blocks (_ _ : Unit) : Bool := true

/-- SIGINT is a standard signal: it is pending once at most. -/
def capacity (_ : Unit) : Nat := 1

/-- What the program is built and called with: `syncLock` says whether SYNC_LOCK is
defined, and `crypt key` is the right answer for the salt of the program. -/
structure Setting where
  syncLock : Bool
  crypt : Bytes → Bytes
  argv1 : Bytes
  argv2 : Bytes

def Setting.cr1 (s : Setting) : Bytes := s.crypt s.argv1

/-- `pthread_mutex_lock`, where it is compiled in.  Who holds the mutex waits for
ever if he locks it again. -/
def Setting.lock (s : Setting) (gMtx : Bool) : Option Bool :=
  if s.syncLock then
    if gMtx then none else some true
  else some gMtx

def Setting.unlock (s : Setting) (gMtx : Bool) : Bool :=
  if s.syncLock then false else gMtx

/-- Where `sig_handler` is. -/
inductive Body where
  | locking
  | calling
  | crypting
  | unlocking
  | counting
  | returned
  deriving DecidableEq

/-- Where `main` is in its loop; it compares the strings byte by byte. -/
inductive Place where
  | locking
  | calling
  | crypting
  | unlocking
  | comparing (i : Nat)
  | mismatched
  | reporting
  deriving DecidableEq

/-- What a line of the output shows. -/
structure Report where
  call : Int32
  mismatch : Int32
  handled : Int32

/-- `crypted` is the static memory of `crypt`, and `disturbed` says that the handler has
called `crypt` since `main` did.  The `int` counters are taken to wrap around. -/
structure Program where
  process : Process Unit Body
  place : Place
  gMtx : Bool
  crypted : Bytes
  disturbed : Bool
  gHandled : Int32
  call : Int32
  mismatch : Int32
  reports : Output Report

/-- Behind `sigaction`. -/
def Program.start (s : Setting) : Program where
  process := .start Unit Body
  place := .locking
  gMtx := false
  crypted := s.cr1
  disturbed := false
  gHandled := 0
  call := 1
  mismatch := 0
  reports := .empty

inductive Action where
  | interrupt
  | deliver
  | sigreturn
  | lock
  | crypt
  | cryptReturns (answer : Bytes)
  | unlock
  | compare
  | count
  | report (shown : Bool)

/-- `strcmp` goes on at index `i`; past its end a string has the byte 0. -/
def Program.compare (p : Program) (cr1 : Bytes) (i : Nat) : Program :=
  if p.crypted.getD i 0 ≠ cr1.getD i 0 then { p with place := .mismatched }
  else if cr1.getD i 0 = 0 then { p with place := .locking, call := p.call + 1 }
  else { p with place := .comparing (i + 1) }

/-- `fprintf`, which may fail, as where the handler interrupts it: SA_RESTART is not set. -/
def Program.report (p : Program) (shown : Bool) : Output Report :=
  p.reports.write [⟨p.call, p.mismatch, p.gHandled⟩] (if shown then 1 else 0)

/-- The loop of `main`, where the handler does not run. -/
def main (s : Setting) (p : Program) (action : Action) : Option Program :=
  match p.place, action with
  | .locking, .lock => do
      let gMtx ← s.lock p.gMtx
      some { p with gMtx := gMtx, place := .calling }
  | .calling, .crypt => some { p with disturbed := false, place := .crypting }
  | .crypting, .cryptReturns answer =>
      if p.disturbed = false → answer = s.cr1 then
        some { p with crypted := answer, place := .unlocking }
      else none
  | .unlocking, .unlock => some { p with gMtx := s.unlock p.gMtx, place := .comparing 0 }
  | .comparing i, .compare => some (p.compare s.cr1 i)
  | .mismatched, .count => some { p with mismatch := p.mismatch + 1, place := .reporting }
  | .reporting, .report shown => some { p with
      reports := p.report shown
      call := p.call + 1
      place := .locking }
  | _, _ => none

/-- The handler goes on with `body`. -/
def Program.goOn (p : Program) (frame : Frame Unit Body) (frames : List (Frame Unit Body))
    (body : Body) : Program :=
  { p with process := { p.process with frames := { frame with body := body } :: frames } }

/-- `sig_handler`.  Its call of `crypt` may go wrong where it comes into that of `main`. -/
def sigHandler (s : Setting) (p : Program) (frame : Frame Unit Body)
    (frames : List (Frame Unit Body)) (action : Action) : Option Program :=
  match frame.body, action with
  | .locking, .lock => do
      let gMtx ← s.lock p.gMtx
      some { p.goOn frame frames .calling with gMtx := gMtx }
  | .calling, .crypt => some { p.goOn frame frames .crypting with disturbed := true }
  | .crypting, .cryptReturns answer =>
      if p.place ≠ .crypting → answer = s.crypt s.argv2 then
        some { p.goOn frame frames .unlocking with crypted := answer }
      else none
  | .unlocking, .unlock =>
      some { p.goOn frame frames .counting with gMtx := s.unlock p.gMtx }
  | .counting, .count => some { p.goOn frame frames .returned with gHandled := p.gHandled + 1 }
  | .returned, .sigreturn => do
      let process ← p.process.sigreturn
      some { p with process := process }
  | _, _ => none

def step (s : Setting) (p : Program) (action : Action) : Option Program :=
  match action with
  | .interrupt => some { p with process := p.process.generate capacity () }
  | .deliver => do
      let process ← p.process.deliver blocks .locking ()
      some { p with process := process }
  | action =>
      match p.process.frames with
      | [] => main s p action
      | frame :: frames => sigHandler s p frame frames action

/-- The reports have rising numbers of the calls, and the mismatches one by one; between
two of them, and before the first, a handler has ended. -/
structure Explained (reports : List Report) : Prop where
  calls : (reports.map Report.call).Pairwise (· < ·)
  mismatches : reports.map Report.mismatch = (List.range' 1 reports.length).map Int32.ofNat
  handlers : (0 :: reports.map Report.handled).Pairwise (· < ·)

/-- The counters that a step may raise have not come to the end of `int`. -/
def NoOverflow (p : Program) : Prop := p.call < Int32.maxValue ∧ p.gHandled < Int32.maxValue

/-- Nothing goes on any more, whatever signals come. -/
def Halted (s : Setting) (p : Program) : Prop :=
  ∀ action, action ≠ .interrupt → step s p action = none

/-- The handler waits for the mutex, which `main` holds. -/
def SelfLocked (s : Setting) (p : Program) : Prop :=
  s.syncLock = true ∧ p.gMtx = true ∧ p.process.frames.map Frame.body = [.locking]

/-- With SYNC_LOCK no call of the handler comes into one of `main`; but a signal that
comes while `main` holds the mutex stops the program, and nothing else does. -/
structure Guarded (s : Setting) (p : Program) : Prop where
  calm : s.syncLock = true → p.place = .crypting → p.disturbed = false
  halted_iff : Halted s p ↔ SelfLocked s p
  forever : SelfLocked s p → ∀ actions p', run (step s) p actions = some p' →
    SelfLocked s p' ∧ p'.reports = p.reports

/-- What `main` can do, by the place where it is. -/
inductive MainStep (s : Setting) (p : Program) : Program → Prop
  | lock {gMtx : Bool} (place : p.place = .locking) (mutex : s.lock p.gMtx = some gMtx) :
      MainStep s p { p with gMtx := gMtx, place := .calling }
  | crypt (place : p.place = .calling) :
      MainStep s p { p with disturbed := false, place := .crypting }
  | cryptReturns {answer : Bytes} (place : p.place = .crypting)
      (right : p.disturbed = false → answer = s.cr1) :
      MainStep s p { p with crypted := answer, place := .unlocking }
  | unlock (place : p.place = .unlocking) :
      MainStep s p { p with gMtx := s.unlock p.gMtx, place := .comparing 0 }
  | differ {i : Nat} (place : p.place = .comparing i)
      (differ : p.crypted.getD i 0 ≠ s.cr1.getD i 0) :
      MainStep s p { p with place := .mismatched }
  | equal {i : Nat} (place : p.place = .comparing i) :
      MainStep s p { p with place := .locking, call := p.call + 1 }
  | next {i : Nat} (place : p.place = .comparing i) :
      MainStep s p { p with place := .comparing (i + 1) }
  | count (place : p.place = .mismatched) :
      MainStep s p { p with mismatch := p.mismatch + 1, place := .reporting }
  | report (shown : Bool) (place : p.place = .reporting) :
      MainStep s p { p with
        reports := p.report shown
        call := p.call + 1
        place := .locking }

inductive HandlerStep (s : Setting) (p : Program) (frame : Frame Unit Body)
    (frames : List (Frame Unit Body)) : Program → Prop
  | lock {gMtx : Bool} (body : frame.body = .locking) (mutex : s.lock p.gMtx = some gMtx) :
      HandlerStep s p frame frames { p.goOn frame frames .calling with gMtx := gMtx }
  | crypt (body : frame.body = .calling) :
      HandlerStep s p frame frames { p.goOn frame frames .crypting with disturbed := true }
  | cryptReturns {answer : Bytes} (body : frame.body = .crypting) :
      HandlerStep s p frame frames { p.goOn frame frames .unlocking with crypted := answer }
  | unlock (body : frame.body = .unlocking) :
      HandlerStep s p frame frames
        { p.goOn frame frames .counting with gMtx := s.unlock p.gMtx }
  | count (body : frame.body = .counting) :
      HandlerStep s p frame frames
        { p.goOn frame frames .returned with gHandled := p.gHandled + 1 }
  | sigreturn (body : frame.body = .returned) :
      HandlerStep s p frame frames
        { p with process := { p.process with mask := frame.saved, frames := frames } }

inductive Step (s : Setting) (p : Program) : Program → Prop
  | interrupt : Step s p { p with process := p.process.generate capacity () }
  | deliver {process : Process Unit Body}
      (deliver : p.process.deliver blocks .locking () = some process) :
      Step s p { p with process := process }
  | main {p' : Program} (idle : p.process.frames = []) (goes : MainStep s p p') : Step s p p'
  | handler {frame : Frame Unit Body} {frames : List (Frame Unit Body)} {p' : Program}
      (running : p.process.frames = frame :: frames) (goes : HandlerStep s p frame frames p') :
      Step s p p'

variable {s : Setting} {p p' : Program}

theorem main_cases {action : Action} (hstep : main s p action = some p') : MainStep s p p' := by
  rw [main.eq_def] at hstep
  split at hstep
  · rename_i hplace
    obtain ⟨gMtx, hmutex, hnext⟩ := Option.bind_eq_some_iff.mp hstep
    obtain rfl := Option.some.inj hnext
    exact .lock hplace hmutex
  · rename_i hplace
    obtain rfl := Option.some.inj hstep
    exact .crypt hplace
  · rename_i hplace
    obtain ⟨hright, hnext⟩ := Option.ite_none_right_eq_some.mp hstep
    obtain rfl := Option.some.inj hnext
    exact .cryptReturns hplace hright
  · rename_i hplace
    obtain rfl := Option.some.inj hstep
    exact .unlock hplace
  · rename_i hplace
    obtain rfl := Option.some.inj hstep
    rw [Program.compare]
    split
    · rename_i hdiffer
      exact .differ hplace hdiffer
    · split
      · exact .equal hplace
      · exact .next hplace
  · rename_i hplace
    obtain rfl := Option.some.inj hstep
    exact .count hplace
  · rename_i hplace
    obtain rfl := Option.some.inj hstep
    exact .report _ hplace
  · cases hstep

theorem sigHandler_cases {frame : Frame Unit Body} {frames : List (Frame Unit Body)}
    {action : Action} (hframes : p.process.frames = frame :: frames)
    (hstep : sigHandler s p frame frames action = some p') : HandlerStep s p frame frames p' := by
  rw [sigHandler.eq_def] at hstep
  split at hstep
  · rename_i hbody
    obtain ⟨gMtx, hmutex, hnext⟩ := Option.bind_eq_some_iff.mp hstep
    obtain rfl := Option.some.inj hnext
    exact .lock hbody hmutex
  · rename_i hbody
    obtain rfl := Option.some.inj hstep
    exact .crypt hbody
  · rename_i hbody
    obtain ⟨_, hnext⟩ := Option.ite_none_right_eq_some.mp hstep
    obtain rfl := Option.some.inj hnext
    exact .cryptReturns hbody
  · rename_i hbody
    obtain rfl := Option.some.inj hstep
    exact .unlock hbody
  · rename_i hbody
    obtain rfl := Option.some.inj hstep
    exact .count hbody
  · rename_i hbody
    obtain ⟨process, hreturn, hnext⟩ := Option.bind_eq_some_iff.mp hstep
    obtain rfl := Option.some.inj hnext
    obtain ⟨top, rest, htop, rfl⟩ := Process.sigreturn_eq_some hreturn
    obtain ⟨rfl, rfl⟩ := List.cons.inj (hframes.symm.trans htop)
    exact .sigreturn hbody
  · cases hstep

theorem step_cases {action : Action} (hstep : step s p action = some p') : Step s p p' := by
  rw [step.eq_def] at hstep
  split at hstep
  · obtain rfl := Option.some.inj hstep
    exact .interrupt
  · obtain ⟨process, hdeliver, hnext⟩ := Option.bind_eq_some_iff.mp hstep
    obtain rfl := Option.some.inj hnext
    exact .deliver hdeliver
  · split at hstep
    · rename_i hidle
      exact .main hidle (main_cases hstep)
    · rename_i hrunning
      exact .handler hrunning (sigHandler_cases hrunning hstep)

/-- `main` has an answer of `crypt`, and has not found it to be wrong. -/
def Place.answered : Place → Bool
  | .unlocking | .comparing _ => true
  | .locking | .calling | .crypting | .mismatched | .reporting => false

/-- `main` has found a wrong answer. -/
def Place.differs : Place → Bool
  | .mismatched | .reporting => true
  | .locking | .calling | .crypting | .unlocking | .comparing _ => false

/-- `main` has called `crypt` and is not done with the answer. -/
def Place.calls : Place → Bool
  | .crypting | .unlocking | .comparing _ | .mismatched | .reporting => true
  | .locking | .calling => false

/-- The mismatch that is counted and not reported. -/
def Place.unreported : Place → Nat
  | .reporting => 1
  | .locking | .calling | .crypting | .unlocking | .comparing _ | .mismatched => 0

/-- The handler has called `crypt` and has not counted itself. -/
def Body.calls : Body → Bool
  | .crypting | .unlocking | .counting => true
  | .locking | .calling | .returned => false

def Program.uncounted (p : Program) : Nat :=
  p.process.frames.countP fun frame => frame.body.calls

/-- A wrong answer comes from a handler that is not in the reports. -/
structure Counted (s : Setting) (p : Program) : Prop where
  disturbs : ∀ frame ∈ p.process.frames, frame.body = .crypting → p.disturbed = true
  right : p.disturbed = false → p.place.answered = true → p.crypted = s.cr1
  wrong : p.place.differs = true → p.disturbed = true
  fresh : p.place.calls = true → p.disturbed = true →
    ∀ n ∈ 0 :: p.reports.handed.map Report.handled, n.toInt < p.gHandled.toInt + p.uncounted
  bounded : ∀ n ∈ 0 :: p.reports.handed.map Report.handled, n.toInt ≤ p.gHandled.toInt
  called : ∀ n ∈ p.reports.handed.map Report.call, n.toInt < p.call.toInt
  numbered : p.mismatch = Int32.ofNat (p.reports.handed.length + p.place.unreported)
  explained : Explained p.reports.handed
  shown : p.reports.Ordered

theorem counted_start (s : Setting) : Counted s (.start s) where
  disturbs := fun _ hframe => absurd hframe List.not_mem_nil
  right := fun _ _ => rfl
  wrong := fun h => absurd h Bool.false_ne_true
  fresh := fun h => absurd h Bool.false_ne_true
  bounded := fun n hn => by
    rw [List.mem_singleton.mp hn]
    exact Int.le_refl _
  called := fun _ hn => absurd hn List.not_mem_nil
  numbered := rfl
  explained := ⟨List.Pairwise.nil, rfl, List.pairwise_singleton _ _⟩
  shown := ordered_empty

theorem toInt_add_one {n : Int32} (h : n < Int32.maxValue) : (n + 1).toInt = n.toInt + 1 := by
  have hmax := Int32.lt_iff_toInt_lt.mp h
  have hmin := n.le_toInt
  rw [Int32.toInt_maxValue] at hmax
  rw [Int32.toInt_add]
  change (n.toInt + 1).bmod _ = _
  exact Int.bmod_eq_of_le (by omega) (by omega)

theorem Explained.concat {reports : List Report} (h : Explained reports) {report : Report}
    (hcall : ∀ n ∈ reports.map Report.call, n < report.call)
    (hmismatch : report.mismatch = Int32.ofNat (reports.length + 1))
    (hhandled : ∀ n ∈ 0 :: reports.map Report.handled, n < report.handled) :
    Explained (reports ++ [report]) where
  calls := by
    rw [List.map_append, List.pairwise_append]
    refine ⟨h.calls, List.pairwise_singleton _ _, fun n hn m hm => ?_⟩
    rw [List.mem_singleton.mp hm]
    exact hcall n hn
  mismatches := by
    rw [List.map_append, h.mismatches, List.length_append, List.length_singleton,
      List.range'_concat, List.map_append, List.map_singleton, List.map_singleton, hmismatch,
      Nat.one_mul, Nat.add_comm 1]
  handlers := by
    rw [List.map_append, ← List.cons_append, List.pairwise_append]
    refine ⟨h.handlers, List.pairwise_singleton _ _, fun n hn m hm => ?_⟩
    rw [List.mem_singleton.mp hm]
    exact hhandled n hn

theorem Counted.moved (h : Counted s p) {place : Place} {gMtx disturbed : Bool} {crypted : Bytes}
    (hdisturbs : ∀ frame ∈ p.process.frames, frame.body = .crypting → disturbed = true)
    (hright : disturbed = false → place.answered = true → crypted = s.cr1)
    (hwrong : place.differs = true → disturbed = true)
    (hcalls : place.calls = true → disturbed = true → p.place.calls = true ∧ p.disturbed = true)
    (hunreported : place.unreported = p.place.unreported) :
    Counted s { p with
      place := place, gMtx := gMtx, disturbed := disturbed, crypted := crypted } where
  disturbs := hdisturbs
  right := hright
  wrong := hwrong
  fresh := fun hplace hdisturbed => by
    obtain ⟨hplace, hdisturbed⟩ := hcalls hplace hdisturbed
    exact h.fresh hplace hdisturbed
  bounded := h.bounded
  called := h.called
  numbered := by
    have hnumbered := h.numbered
    rw [← hunreported] at hnumbered
    exact hnumbered
  explained := h.explained
  shown := h.shown

theorem Counted.called_succ (h : Counted s p) (hcall : p.call < Int32.maxValue) {n : Int32}
    (hn : n ∈ p.reports.handed.map Report.call) : n.toInt < (p.call + 1).toInt := by
  have hbefore := h.called n hn
  rw [toInt_add_one hcall]
  omega

theorem Counted.report (h : Counted s p) (hidle : p.process.frames = [])
    (hplace : p.place = .reporting) (hcall : p.call < Int32.maxValue) (shown : Bool) :
    Counted s { p with
      reports := p.report shown, call := p.call + 1, place := .locking } := by
  have hfresh := h.fresh
  have hnumbered := h.numbered
  rw [Program.uncounted, hidle] at hfresh
  rw [hplace] at hfresh hnumbered
  have hdisturbed : p.disturbed = true := h.wrong (by rw [hplace]; rfl)
  have hhandled : ∀ n ∈ 0 :: p.reports.handed.map Report.handled, n < p.gHandled := by
    intro n hn
    have hless := hfresh rfl hdisturbed n hn
    rw [Int32.lt_iff_toInt_lt]
    change n.toInt < p.gHandled.toInt + 0 at hless
    omega
  have hmember : ∀ {field : Report → Int32} {n : Int32},
      n ∈ (p.reports.handed ++ [Report.mk p.call p.mismatch p.gHandled]).map field →
        n ∈ p.reports.handed.map field ∨ n = field (.mk p.call p.mismatch p.gHandled) := by
    intro field n hn
    rw [List.map_append, List.mem_append] at hn
    exact hn.imp_right List.mem_singleton.mp
  exact {
    disturbs := h.disturbs
    right := fun _ hanswered => absurd hanswered Bool.false_ne_true
    wrong := fun hdiffers => absurd hdiffers Bool.false_ne_true
    fresh := fun hcalls => absurd hcalls Bool.false_ne_true
    bounded := fun n hn => by
      rcases List.mem_cons.mp hn with rfl | hn
      · exact h.bounded 0 List.mem_cons_self
      · rcases @hmember Report.handled n hn with hold | rfl
        · exact h.bounded n (List.mem_cons_of_mem 0 hold)
        · exact Int.le_refl _
    called := fun n hn => by
      rcases @hmember Report.call n hn with hold | rfl
      · exact h.called_succ hcall hold
      · change p.call.toInt < (p.call + 1).toInt
        rw [toInt_add_one hcall]
        exact Int.lt_succ _
    numbered := by
      change p.mismatch = Int32.ofNat ((p.reports.handed ++ [_]).length + 0)
      rw [List.length_append]
      exact hnumbered
    explained := h.explained.concat
      (fun n hn => Int32.lt_iff_toInt_lt.mpr (h.called n hn)) hnumbered hhandled
    shown := h.shown.write _ _ }

theorem Counted.main (h : Counted s p) (hidle : p.process.frames = [])
    (hcall : p.call < Int32.maxValue) (hstep : MainStep s p p') : Counted s p' := by
  have hwrong := h.wrong
  have hright' := h.right
  rcases hstep with
    ⟨hplace, _⟩ | hplace | ⟨hplace, hright⟩ | hplace | ⟨hplace, hdiffer⟩ | hplace | hplace |
      hplace | ⟨shown, hplace⟩
  all_goals rw [hplace] at hwrong hright'
  case lock =>
    exact h.moved h.disturbs (fun _ hanswered => absurd hanswered Bool.false_ne_true)
      (fun hdiffers => absurd hdiffers Bool.false_ne_true)
      (fun hcalls => absurd hcalls Bool.false_ne_true) (by rw [hplace]; rfl)
  case crypt =>
    refine h.moved (fun frame hframe => ?_)
      (fun _ hanswered => absurd hanswered Bool.false_ne_true)
      (fun hdiffers => absurd hdiffers Bool.false_ne_true)
      (fun _ hdisturbed => absurd hdisturbed Bool.false_ne_true) (by rw [hplace]; rfl)
    rw [hidle] at hframe
    exact absurd hframe List.not_mem_nil
  case cryptReturns =>
    exact h.moved h.disturbs (fun hcalm _ => hright hcalm)
      (fun hdiffers => absurd hdiffers Bool.false_ne_true)
      (fun _ hdisturbed => ⟨by rw [hplace]; rfl, hdisturbed⟩) (by rw [hplace]; rfl)
  case unlock =>
    exact h.moved h.disturbs (fun hcalm _ => hright' hcalm rfl)
      (fun hdiffers => absurd hdiffers Bool.false_ne_true)
      (fun _ hdisturbed => ⟨by rw [hplace]; rfl, hdisturbed⟩) (by rw [hplace]; rfl)
  case differ =>
    have hdisturbed : p.disturbed = true := by
      rw [← Bool.not_eq_false]
      intro hcalm
      rw [hright' hcalm rfl] at hdiffer
      exact hdiffer rfl
    exact h.moved h.disturbs (fun _ hanswered => absurd hanswered Bool.false_ne_true)
      (fun _ => hdisturbed) (fun _ _ => ⟨by rw [hplace]; rfl, hdisturbed⟩) (by rw [hplace]; rfl)
  case equal =>
    have hmoved := @Counted.moved s p h .locking p.gMtx p.disturbed p.crypted h.disturbs
      (fun _ hanswered => absurd hanswered Bool.false_ne_true)
      (fun hdiffers => absurd hdiffers Bool.false_ne_true)
      (fun hcalls => absurd hcalls Bool.false_ne_true) (by rw [hplace]; rfl)
    exact { hmoved with called := fun n hn => h.called_succ hcall hn }
  case next =>
    exact h.moved h.disturbs (fun hcalm _ => hright' hcalm rfl)
      (fun hdiffers => absurd hdiffers Bool.false_ne_true)
      (fun _ hdisturbed => ⟨by rw [hplace]; rfl, hdisturbed⟩) (by rw [hplace]; rfl)
  case count =>
    have hnumbered := h.numbered
    rw [hplace] at hnumbered
    exact {
      disturbs := h.disturbs
      right := fun _ hanswered => absurd hanswered Bool.false_ne_true
      wrong := fun _ => hwrong rfl
      fresh := fun _ => h.fresh (by rw [hplace]; rfl)
      bounded := h.bounded
      called := h.called
      numbered := by
        change p.mismatch + 1 = Int32.ofNat (p.reports.handed.length + 1)
        rw [hnumbered]
        exact (Int32.ofNat_add _ 1).symm
      explained := h.explained
      shown := h.shown }
  case report => exact h.report hidle hplace hcall shown

theorem uncounted_goOn {frame : Frame Unit Body} {frames : List (Frame Unit Body)}
    (hframes : p.process.frames = frame :: frames) (body : Body) :
    (p.goOn frame frames body).uncounted + (if frame.body.calls then 1 else 0) =
      p.uncounted + if body.calls then 1 else 0 := by
  rw [Program.uncounted, Program.uncounted, Program.goOn, hframes, List.countP_cons,
    List.countP_cons]
  exact Nat.add_right_comm _ _ _

theorem Counted.goOn (h : Counted s p) {process : Process Unit Body} {gMtx disturbed : Bool}
    {crypted : Bytes} {gHandled : Int32}
    (hdisturbs : ∀ frame ∈ process.frames, frame.body = .crypting → disturbed = true)
    (hright : disturbed = false → p.disturbed = false ∧ crypted = p.crypted)
    (hwrong : p.disturbed = true → disturbed = true)
    (hfresh : p.place.calls = true → disturbed = true →
      ∀ n ∈ 0 :: p.reports.handed.map Report.handled,
        n.toInt < gHandled.toInt + process.frames.countP fun frame => frame.body.calls)
    (hbounded : p.gHandled.toInt ≤ gHandled.toInt) :
    Counted s { p with
      process := process, gMtx := gMtx, disturbed := disturbed, crypted := crypted
      gHandled := gHandled } where
  disturbs := hdisturbs
  right := fun hcalm hanswered => by
    obtain ⟨hbefore, hcrypted⟩ := hright hcalm
    exact hcrypted.trans (h.right hbefore hanswered)
  wrong := fun hdiffers => hwrong (h.wrong hdiffers)
  fresh := hfresh
  bounded := fun n hn => Int.le_trans (h.bounded n hn) hbounded
  called := h.called
  numbered := h.numbered
  explained := h.explained
  shown := h.shown

theorem Counted.handler (h : Counted s p) {frame : Frame Unit Body}
    {frames : List (Frame Unit Body)} (hframes : p.process.frames = frame :: frames)
    (hhandled : p.gHandled < Int32.maxValue) (hstep : HandlerStep s p frame frames p') :
    Counted s p' := by
  have hdisturbs := h.disturbs
  rw [hframes] at hdisturbs
  have hbelow : ∀ body : Body, body ≠ .crypting → ∀ other ∈ { frame with body := body } :: frames,
      other.body = .crypting → p.disturbed = true := by
    intro body hbody other hother hcrypting
    rcases List.mem_cons.mp hother with rfl | hother
    · exact absurd hcrypting hbody
    · exact hdisturbs other (List.mem_cons_of_mem _ hother) hcrypting
  have hfresh : ∀ body : Body, body.calls = frame.body.calls → p.place.calls = true →
      p.disturbed = true → ∀ n ∈ 0 :: p.reports.handed.map Report.handled,
        n.toInt < p.gHandled.toInt + (p.goOn frame frames body).uncounted := by
    intro body hsame hcalls hdisturbed n hn
    have huncounted := uncounted_goOn hframes body
    rw [hsame] at huncounted
    rw [Nat.add_right_cancel huncounted]
    exact h.fresh hcalls hdisturbed n hn
  rcases hstep with ⟨hbody, _⟩ | hbody | hbody | hbody | hbody | hbody
  case lock =>
    exact h.goOn (hbelow .calling (by decide)) (fun hcalm => ⟨hcalm, rfl⟩) id
      (hfresh .calling (by rw [hbody]; rfl)) (Int.le_refl _)
  case crypt =>
    have huncounted : 0 < (p.goOn frame frames .crypting).uncounted := by
      rw [Program.uncounted, List.countP_pos_iff]
      exact ⟨_, List.mem_cons_self, rfl⟩
    refine h.goOn (fun _ _ _ => rfl) (fun hcalm => absurd hcalm.symm Bool.false_ne_true)
      (fun _ => rfl) (fun _ _ n hn => ?_) (Int.le_refl _)
    have hbefore := h.bounded n hn
    change n.toInt < p.gHandled.toInt + (p.goOn frame frames .crypting).uncounted
    omega
  case cryptReturns =>
    have hdisturbed := hdisturbs frame List.mem_cons_self hbody
    refine h.goOn (hbelow .unlocking (by decide)) (fun hcalm => ?_) id
      (hfresh .unlocking (by rw [hbody]; rfl)) (Int.le_refl _)
    exact absurd (hdisturbed.symm.trans hcalm).symm Bool.false_ne_true
  case unlock =>
    exact h.goOn (hbelow .counting (by decide)) (fun hcalm => ⟨hcalm, rfl⟩) id
      (hfresh .counting (by rw [hbody]; rfl)) (Int.le_refl _)
  case count =>
    have hmore := toInt_add_one hhandled
    refine h.goOn (hbelow .returned (by decide)) (fun hcalm => ⟨hcalm, rfl⟩) id
      (fun hcalls hdisturbed n hn => ?_) (by omega)
    have huncounted := uncounted_goOn hframes .returned
    rw [hbody] at huncounted
    change _ + 1 = _ + 0 at huncounted
    have hbefore := h.fresh hcalls hdisturbed n hn
    change n.toInt < (p.gHandled + 1).toInt + (p.goOn frame frames .returned).uncounted
    omega
  case sigreturn =>
    refine h.goOn (fun other hother => hdisturbs other (List.mem_cons_of_mem _ hother))
      (fun hcalm => ⟨hcalm, rfl⟩) id (fun hcalls hdisturbed n hn => ?_) (Int.le_refl _)
    have hbefore := h.fresh hcalls hdisturbed n hn
    rw [Program.uncounted, hframes, List.countP_cons, hbody] at hbefore
    exact hbefore

theorem Counted.step {action : Action} (h : Counted s p) (hcounters : NoOverflow p)
    (hstep : step s p action = some p') : Counted s p' := by
  rcases step_cases hstep with _ | hdeliver | ⟨hidle, hgoes⟩ | ⟨hrunning, hgoes⟩
  case interrupt =>
    exact h.goOn h.disturbs (fun hcalm => ⟨hcalm, rfl⟩) id h.fresh (Int.le_refl _)
  case deliver =>
    obtain ⟨_, rfl⟩ := Process.deliver_eq_some hdeliver
    refine h.goOn (fun frame hframe hcrypting => ?_) (fun hcalm => ⟨hcalm, rfl⟩) id h.fresh
      (Int.le_refl _)
    rcases List.mem_cons.mp hframe with rfl | hframe
    · cases hcrypting
    · exact h.disturbs frame hframe hcrypting
  case main => exact h.main hidle hcounters.1 hgoes
  case handler => exact h.handler hrunning hcounters.2 hgoes

/-- Wherever signals come, a mismatch that is reported has its own handler, which has
called `crypt` since `main` did and has ended. -/
theorem reports_explained (s : Setting) (actions : List Action)
    (hcounters : EveryStep (step s) (fun p _ => NoOverflow p) (.start s) actions) :
    EveryState (step s) (fun p => Explained p.reports.handed ∧ p.reports.Ordered) (.start s)
      actions := by
  have hcounted : EveryState (step s) (Counted s) (.start s) actions :=
    invariant_of_everyStep (counted_start s)
      (fun _ _ _ h hcounters hstep => h.step hcounters hstep) hcounters
  intro before p hbefore hrun
  have h := hcounted before p hbefore hrun
  exact ⟨h.explained, h.shown⟩

/-- SYNC_LOCK, and strings that `crypt` leaves as they are. -/
def locked : Setting where
  syncLock := true
  crypt := fun key => key
  argv1 := [1]
  argv2 := [2]

/-- The answer of `main` is compared when the mutex is free again. -/
def lateHandler : List Action :=
  [.lock, .crypt, .cryptReturns [1], .unlock, .interrupt, .deliver, .lock, .crypt,
    .cryptReturns [2], .unlock, .count, .sigreturn, .compare, .count, .report true]

theorem reports_explained_lateHandler :
    (run (step locked) (.start locked) lateHandler).map (fun p => p.reports.written) =
      some [⟨1, 1, 1⟩] ∧
    EveryState (step locked) (fun p => Explained p.reports.handed ∧ p.reports.Ordered)
      (.start locked) lateHandler := by
  have hbelow : (1 : Int32) < Int32.maxValue ∧ (0 : Int32) < Int32.maxValue := by decide
  have hcounted : (1 : Int32) < Int32.maxValue ∧ (1 : Int32) < Int32.maxValue := by decide
  have hcounters : EveryStep (step locked) (fun p _ => NoOverflow p) (.start locked)
      lateHandler :=
    .cons rfl hbelow <| .cons rfl hbelow <| .cons rfl hbelow <| .cons rfl hbelow <|
    .cons rfl hbelow <| .cons rfl hbelow <| .cons rfl hbelow <| .cons rfl hbelow <|
    .cons rfl hbelow <| .cons rfl hbelow <| .cons rfl hbelow <| .cons rfl hcounted <|
    .cons rfl hcounted <| .cons rfl hcounted <| .cons rfl hcounted <| everyStep_nil _ _
  exact ⟨rfl, reports_explained locked lateHandler hcounters⟩

/-- `main` has the mutex, where it is compiled in. -/
def Place.holds : Place → Bool
  | .calling | .crypting | .unlocking => true
  | .locking | .comparing _ | .mismatched | .reporting => false

def Body.holds : Body → Bool
  | .calling | .crypting | .unlocking => true
  | .locking | .counting | .returned => false

/-- The handler has the mutex. -/
def Program.holding (p : Program) : Bool := p.process.frames.any fun frame => frame.body.holds

/-- The mutex is taken by `main` or by the handler, and not by both. -/
structure Owned (s : Setting) (p : Program) : Prop where
  single : p.process.frames = [] ∨
    ∃ frame, p.process.frames = [frame] ∧ p.process.mask () = true
  mutex : s.syncLock = true → p.gMtx = (p.place.holds || p.holding)
  exclusive : s.syncLock = true → (p.place.holds && p.holding) = false
  calm : s.syncLock = true → p.place = .crypting → p.disturbed = false

theorem owned_start (s : Setting) : Owned s (.start s) where
  single := Or.inl rfl
  mutex := fun _ => rfl
  exclusive := fun _ => rfl
  calm := fun _ hplace => by cases hplace

theorem Setting.lock_eq_some {gMtx gMtx' : Bool} (h : s.lock gMtx = some gMtx')
    (hsync : s.syncLock = true) : gMtx = false ∧ gMtx' = true := by
  rw [Setting.lock, if_pos hsync] at h
  obtain ⟨hfree, htaken⟩ := Option.ite_none_left_eq_some.mp h
  exact ⟨Bool.eq_false_iff.mpr hfree, (Option.some.inj htaken).symm⟩

theorem Setting.unlock_of_syncLock (hsync : s.syncLock = true) (gMtx : Bool) :
    s.unlock gMtx = false :=
  if_pos hsync

theorem Setting.lock_eq_none {gMtx : Bool} (h : s.lock gMtx = none) :
    s.syncLock = true ∧ gMtx = true := by
  rw [Setting.lock] at h
  split at h
  · rename_i hsync
    split at h
    · rename_i htaken
      exact ⟨hsync, htaken⟩
    · cases h
  · cases h

theorem holding_of_idle (hidle : p.process.frames = []) : p.holding = false := by
  rw [Program.holding, hidle]
  rfl

theorem holding_of_running {frame : Frame Unit Body} (hframes : p.process.frames = [frame]) :
    p.holding = frame.body.holds := by
  rw [Program.holding, hframes]
  exact Bool.or_false _

theorem Owned.main (h : Owned s p) (hidle : p.process.frames = []) (hstep : MainStep s p p') :
    Owned s p' := by
  have hholding := holding_of_idle hidle
  have hmutex := h.mutex
  rw [hholding, Bool.or_false] at hmutex
  have hsteps : ∀ {q : Program}, q.process = p.process →
      (s.syncLock = true → q.gMtx = q.place.holds) →
      (s.syncLock = true → q.place = .crypting → q.disturbed = false) → Owned s q := by
    intro q hprocess hgMtx hcalm
    have hquiet : q.holding = false := holding_of_idle (by rw [hprocess, hidle])
    refine ⟨Or.inl (by rw [hprocess, hidle]), fun hsync => ?_, fun _ => ?_, hcalm⟩
    · rw [hquiet, Bool.or_false]
      exact hgMtx hsync
    · rw [hquiet, Bool.and_false]
  rcases hstep with
    ⟨hplace, hlock⟩ | hplace | ⟨hplace, _⟩ | hplace | ⟨hplace, _⟩ | hplace | hplace | hplace |
      ⟨_, hplace⟩
  all_goals rw [hplace] at hmutex
  case lock =>
    exact hsteps rfl (fun hsync => (Setting.lock_eq_some hlock hsync).2)
      (fun _ hcrypting => by cases hcrypting)
  case crypt => exact hsteps rfl hmutex (fun _ _ => rfl)
  case unlock =>
    exact hsteps rfl (fun hsync => Setting.unlock_of_syncLock hsync _)
      (fun _ hcrypting => by cases hcrypting)
  all_goals exact hsteps rfl hmutex (fun _ hcrypting => by cases hcrypting)

theorem Owned.handler (h : Owned s p) {frame : Frame Unit Body}
    {frames : List (Frame Unit Body)} (hframes : p.process.frames = frame :: frames)
    (hstep : HandlerStep s p frame frames p') : Owned s p' := by
  obtain ⟨rfl, hmask⟩ := Process.only_frame h.single hframes
  have hholding := holding_of_running hframes
  have hmutex := h.mutex
  have hexclusive := h.exclusive
  rw [hholding] at hmutex hexclusive
  have hsteps : ∀ {q : Program} (body : Body),
      q.process.frames = [{ frame with body := body }] → q.process.mask = p.process.mask →
      q.place = p.place →
      (s.syncLock = true → q.gMtx = (p.place.holds || body.holds)) →
      (s.syncLock = true → (p.place.holds && body.holds) = false) →
      (s.syncLock = true → p.place = .crypting → q.disturbed = false) → Owned s q := by
    intro q body hbody hsame hplace hgMtx hapart hcalm
    have hheld := holding_of_running hbody
    refine ⟨Or.inr ⟨_, hbody, by rw [hsame, hmask]⟩, ?_, ?_, ?_⟩
    · rw [hheld, hplace]
      exact hgMtx
    · rw [hheld, hplace]
      exact hapart
    · rw [hplace]
      exact hcalm
  rcases hstep with ⟨hbody, hlock⟩ | hbody | hbody | hbody | hbody | hbody
  all_goals rw [hbody] at hmutex hexclusive
  case lock =>
    have hfree : s.syncLock = true → p.place.holds = false := by
      intro hsync
      have hold := hmutex hsync
      rw [(Setting.lock_eq_some hlock hsync).1] at hold
      exact (Bool.or_eq_false_iff.mp hold.symm).1
    refine hsteps .calling rfl rfl rfl (fun hsync => ?_) (fun hsync => ?_) h.calm
    · rw [hfree hsync]
      exact (Setting.lock_eq_some hlock hsync).2
    · rw [hfree hsync]
      rfl
  case crypt =>
    refine hsteps .crypting rfl rfl rfl hmutex hexclusive (fun hsync hplace => ?_)
    have hboth := hexclusive hsync
    rw [hplace] at hboth
    cases hboth
  case cryptReturns => exact hsteps .unlocking rfl rfl rfl hmutex hexclusive h.calm
  case unlock =>
    have hfree : s.syncLock = true → p.place.holds = false := by
      intro hsync
      have hboth := hexclusive hsync
      rw [Body.holds, Bool.and_true] at hboth
      exact hboth
    refine hsteps .counting rfl rfl rfl (fun hsync => ?_) (fun hsync => ?_) h.calm
    · rw [hfree hsync]
      exact Setting.unlock_of_syncLock hsync _
    · rw [hfree hsync]
      rfl
  case count => exact hsteps .returned rfl rfl rfl hmutex hexclusive h.calm
  case sigreturn => exact ⟨Or.inl rfl, hmutex, hexclusive, h.calm⟩

theorem Owned.step {action : Action} (h : Owned s p) (hstep : step s p action = some p') :
    Owned s p' := by
  rcases step_cases hstep with _ | hdeliver | ⟨hidle, hgoes⟩ | ⟨hrunning, hgoes⟩
  case interrupt => exact ⟨h.single, h.mutex, h.exclusive, h.calm⟩
  case deliver =>
    obtain ⟨hdeliverable, rfl⟩ := Process.deliver_eq_some hdeliver
    have hidle := hdeliverable.idle (h.single.imp_right fun ⟨_, _, hmask⟩ => hmask)
    have hmutex := h.mutex
    have hexclusive := h.exclusive
    rw [holding_of_idle hidle] at hmutex hexclusive
    refine ⟨Or.inr ⟨_, congrArg _ hidle, Bool.or_true _⟩, ?_, ?_, h.calm⟩
    · rw [holding_of_running (congrArg _ hidle)]
      exact hmutex
    · rw [holding_of_running (congrArg _ hidle)]
      exact hexclusive
  case main => exact h.main hidle hgoes
  case handler => exact h.handler hrunning hgoes

theorem main_goes (h : Owned s p) (hidle : p.process.frames = []) :
    ∃ action p', action ≠ .interrupt ∧ step s p action = some p' := by
  have hmain : ∀ action, action ≠ .interrupt → action ≠ .deliver →
      step s p action = main s p action := by
    intro action hinterrupt hdeliver
    rw [step.eq_def]
    split
    · exact absurd rfl hinterrupt
    · exact absurd rfl hdeliver
    · rw [hidle]
  have hgoes : ∀ {action : Action} {p' : Program}, action ≠ .interrupt → action ≠ .deliver →
      main s p action = some p' →
        ∃ action p', action ≠ .interrupt ∧ step s p action = some p' := by
    intro action p' hinterrupt hdeliver hstep
    exact ⟨action, p', hinterrupt, (hmain action hinterrupt hdeliver).trans hstep⟩
  rcases hplace : p.place with _ | _ | _ | _ | i | _ | _
  case locking =>
    have hlock : ∃ gMtx, s.lock p.gMtx = some gMtx := by
      rw [Setting.lock]
      split
      · rename_i hsync
        have hfree := h.mutex hsync
        rw [hplace, holding_of_idle hidle] at hfree
        rw [hfree]
        exact ⟨true, rfl⟩
      · exact ⟨p.gMtx, rfl⟩
    obtain ⟨gMtx, hlock⟩ := hlock
    refine @hgoes .lock { p with gMtx := gMtx, place := .calling } ?_ ?_ ?_
    · exact fun hsame => by cases hsame
    · exact fun hsame => by cases hsame
    · rw [main.eq_def, hplace, hlock]
      rfl
  case crypting =>
    refine @hgoes (.cryptReturns s.cr1) { p with crypted := s.cr1, place := .unlocking } ?_ ?_ ?_
    · exact fun hsame => by cases hsame
    · exact fun hsame => by cases hsame
    · rw [main.eq_def, hplace]
      exact if_pos fun _ => rfl
  case calling =>
    exact @hgoes .crypt _ (fun hsame => by cases hsame) (fun hsame => by cases hsame)
      (by rw [main.eq_def, hplace])
  case unlocking =>
    exact @hgoes .unlock _ (fun hsame => by cases hsame) (fun hsame => by cases hsame)
      (by rw [main.eq_def, hplace])
  case comparing =>
    exact @hgoes .compare _ (fun hsame => by cases hsame) (fun hsame => by cases hsame)
      (by rw [main.eq_def, hplace])
  case mismatched =>
    exact @hgoes .count _ (fun hsame => by cases hsame) (fun hsame => by cases hsame)
      (by rw [main.eq_def, hplace])
  case reporting =>
    exact @hgoes (.report true) _ (fun hsame => by cases hsame) (fun hsame => by cases hsame)
      (by rw [main.eq_def, hplace])

theorem handler_goes {frame : Frame Unit Body} (hframes : p.process.frames = [frame]) :
    SelfLocked s p ∨ ∃ action p', action ≠ .interrupt ∧ step s p action = some p' := by
  have hgoes : ∀ {action : Action} {p' : Program}, action ≠ .interrupt → action ≠ .deliver →
      sigHandler s p frame [] action = some p' →
        SelfLocked s p ∨ ∃ action p', action ≠ .interrupt ∧ step s p action = some p' := by
    intro action p' hinterrupt hdeliver hhandler
    refine Or.inr ⟨action, p', hinterrupt, ?_⟩
    rw [step.eq_def]
    split
    · exact absurd rfl hinterrupt
    · exact absurd rfl hdeliver
    · rw [hframes]
      exact hhandler
  rcases hbody : frame.body with _ | _ | _ | _ | _ | _
  case locking =>
    cases hlock : s.lock p.gMtx with
    | none =>
        obtain ⟨hsync, htaken⟩ := Setting.lock_eq_none hlock
        refine Or.inl ⟨hsync, htaken, ?_⟩
        rw [hframes, List.map_singleton, hbody]
    | some gMtx =>
        refine @hgoes .lock { p.goOn frame [] .calling with gMtx := gMtx } ?_ ?_ ?_
        · exact fun hsame => by cases hsame
        · exact fun hsame => by cases hsame
        · rw [sigHandler.eq_def, hbody, hlock]
          rfl
  case crypting =>
    refine @hgoes (.cryptReturns (s.crypt s.argv2))
      { p.goOn frame [] .unlocking with crypted := s.crypt s.argv2 } ?_ ?_ ?_
    · exact fun hsame => by cases hsame
    · exact fun hsame => by cases hsame
    · rw [sigHandler.eq_def, hbody]
      exact if_pos fun _ => rfl
  case calling =>
    exact @hgoes .crypt _ (fun hsame => by cases hsame) (fun hsame => by cases hsame)
      (by rw [sigHandler.eq_def, hbody])
  case unlocking =>
    exact @hgoes .unlock _ (fun hsame => by cases hsame) (fun hsame => by cases hsame)
      (by rw [sigHandler.eq_def, hbody])
  case counting =>
    exact @hgoes .count _ (fun hsame => by cases hsame) (fun hsame => by cases hsame)
      (by rw [sigHandler.eq_def, hbody])
  case returned =>
    refine @hgoes .sigreturn
      { p with process := { p.process with mask := frame.saved, frames := [] } } ?_ ?_ ?_
    · exact fun hsame => by cases hsame
    · exact fun hsame => by cases hsame
    · rw [sigHandler.eq_def, hbody, Process.sigreturn, hframes]
      rfl

/-- A handler that waits for the mutex of `main` is all that there is for good. -/
structure Stopped (s : Setting) (reports : Output Report) (p : Program) : Prop where
  selfLocked : SelfLocked s p
  masked : p.process.mask () = true
  reports : p.reports = reports

theorem SelfLocked.frames (h : SelfLocked s p) :
    ∃ frame, p.process.frames = [frame] ∧ frame.body = .locking := by
  rcases List.map_eq_singleton_iff.mp h.2.2 with ⟨frame, hframes, hbody⟩
  exact ⟨frame, hframes, hbody⟩

theorem Stopped.step {reports : Output Report} {action : Action} (h : Stopped s reports p)
    (hstep : step s p action = some p') : action = .interrupt ∧ Stopped s reports p' := by
  obtain ⟨frame, hframes, hbody⟩ := h.selfLocked.frames
  rw [Nonreentrant.step.eq_def] at hstep
  split at hstep
  · obtain rfl := Option.some.inj hstep
    exact ⟨rfl, h.selfLocked, h.masked, h.reports⟩
  · obtain ⟨process, hdeliver, _⟩ := Option.bind_eq_some_iff.mp hstep
    obtain ⟨⟨_, hopen⟩, _⟩ := Process.deliver_eq_some hdeliver
    rw [h.masked] at hopen
    cases hopen
  · rw [hframes] at hstep
    rcases sigHandler_cases hframes hstep with
      ⟨_, hlock⟩ | hother | hother | hother | hother | hother
    · have hfree := (Setting.lock_eq_some hlock h.selfLocked.1).1
      rw [h.selfLocked.2.1] at hfree
      cases hfree
    all_goals
      rw [hbody] at hother
      cases hother

theorem Owned.stopped (h : Owned s p) (hlocked : SelfLocked s p) : Stopped s p.reports p := by
  obtain ⟨frame, hframes, _⟩ := hlocked.frames
  exact ⟨hlocked, (Process.only_frame h.single hframes).2, rfl⟩

theorem Owned.guarded (h : Owned s p) : Guarded s p where
  calm := h.calm
  halted_iff := by
    constructor
    · intro hhalted
      have hgoes : SelfLocked s p ∨
          ∃ action p', action ≠ .interrupt ∧ Nonreentrant.step s p action = some p' := by
        rcases h.single with hidle | ⟨frame, hframes, _⟩
        · exact Or.inr (main_goes h hidle)
        · exact handler_goes hframes
      rcases hgoes with hlocked | ⟨action, p', hother, hstep⟩
      · exact hlocked
      · rw [hhalted action hother] at hstep
        cases hstep
    · intro hlocked action hother
      rcases hstep : Nonreentrant.step s p action with _ | p'
      · rfl
      · exact absurd ((h.stopped hlocked).step hstep).1 hother
  forever := by
    intro hlocked actions p' hrun
    have hstopped : EveryState (Nonreentrant.step s) (Stopped s p.reports) p actions :=
      invariant (h.stopped hlocked) (fun _ _ _ hs hstep => (hs.step hstep).2) actions
    have hend := hstopped.reached hrun
    exact ⟨hend.selfLocked, hend.reports⟩

/-- With SYNC_LOCK the answers of `crypt` are right, and the program stops for good where
a signal comes to `main` while it holds the mutex; without it the program never stops. -/
theorem lock_guards (s : Setting) (actions : List Action) :
    EveryState (step s) (Guarded s) (.start s) actions := by
  have howned : EveryState (step s) (Owned s) (.start s) actions :=
    invariant (owned_start s) (fun _ _ _ h hstep => h.step hstep) actions
  intro before p hbefore hrun
  exact (howned before p hbefore hrun).guarded

example : ∃ p, run (step locked) (.start locked) [.lock, .interrupt, .deliver] = some p ∧
    SelfLocked locked p := ⟨_, rfl, rfl, rfl, rfl⟩

end StudyLinuxKernel.Signal.Nonreentrant
