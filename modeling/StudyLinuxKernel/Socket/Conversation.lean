import StudyLinuxKernel.Library.Exclusion
import StudyLinuxKernel.Library.PartialStep
import StudyLinuxKernel.Libc.CharArray

/-!
The conversations of `socket-server-tcp-mt.c` and `socket-server-tcp-mp.c` with
their clients.  `_thread_func` and `process_connection` are the same loop; the
threads have one mutex `g_mtx`, and every process has a copy of its own.
-/

namespace StudyLinuxKernel.Socket.Conversation

open StudyLinuxKernel.Libc.CharArray
open StudyLinuxKernel.Libc.Text
open StudyLinuxKernel.Library.Exclusion
open StudyLinuxKernel.Library.PartialStep

inductive Kind where
  | threads
  | processes
  deriving DecidableEq

/-- Where the `g_mtx` of a worker is. -/
def Kind.mutexOf : Kind → Nat → Nat
  | .threads, _ => 0
  | .processes, k => k

def msgSize : Nat := 1024

/-- The call that comes next; `nRead` is `_n_read`, `none` for -1. -/
inductive Place where
  | receiving
  | locking (nRead : Nat)
  | prompting (nRead : Nat)
  | reading
  | unlocking (nRead : Option Nat)
  | sending
  | closing
  | gone
  deriving DecidableEq

structure Worker where
  sock : Nat
  szMsg : Bytes
  place : Place

inductive Event where
  | received (k : Nat) (bytes : Bytes)
  | prompted (k : Nat)
  | read (k : Nat) (chunk : Option Bytes)
  | sent (k sock : Nat) (bytes : Bytes)

structure Server where
  mutexes : Nat → Bool
  workers : List Worker
  log : List Event

def Server.start : Server := { mutexes := fun _ => false, workers := [], log := [] }

/-- The calls of a worker with their results, `none` for -1. -/
inductive Call where
  | recv (result : Option Bytes)
  | lock
  | prompt
  | read (result : Option Bytes)
  | unlock
  | send (result : Option Nat)
  | close

inductive Action where
  | join (sock : Nat)
  | call (k : Nat) (call : Call)

/-- The tests behind `pthread_mutex_unlock`. -/
def afterRead (szMsg : Bytes) : Option Nat → Place
  | none => .receiving
  | some 0 => .receiving
  | some (n + 1) => if n + 1 = 2 ∧ szMsg.head? = some 113 then .closing else .sending

/-- A call of the worker `k`, and what becomes known of it outside.  A call that
does not come next has no result, and neither has an access outside `szMsg`. -/
def turn (k : Nat) (worker : Worker) : Call → Option (Worker × List Event)
  | .recv none =>
      match worker.place with
      | .receiving => some ({ worker with place := .closing }, [])
      | _ => none
  | .recv (some bytes) =>
      match worker.place with
      | .receiving => do
          let szMsg ← store (List.replicate msgSize 0) 0 bytes
          some ({ worker with szMsg := szMsg, place := .locking bytes.length },
            [.received k bytes])
      | _ => none
  | .lock =>
      match worker.place with
      | .locking nRead => some ({ worker with place := .prompting nRead }, [])
      | _ => none
  | .prompt =>
      match worker.place with
      | .prompting nRead => do
          let szMsg ← store worker.szMsg 0 (List.replicate nRead 0)
          some ({ worker with szMsg := szMsg, place := .reading }, [.prompted k])
      | _ => none
  | .read none =>
      match worker.place with
      | .reading => some ({ worker with place := .unlocking none }, [.read k none])
      | _ => none
  | .read (some chunk) =>
      match worker.place with
      | .reading => do
          let szMsg ← store worker.szMsg 0 chunk
          some ({ worker with szMsg := szMsg, place := .unlocking (some chunk.length) },
            [.read k (some chunk)])
      | _ => none
  | .unlock =>
      match worker.place with
      | .unlocking nRead => some ({ worker with place := afterRead worker.szMsg nRead }, [])
      | _ => none
  | .send none =>
      match worker.place with
      | .sending => some ({ worker with place := .closing }, [])
      | _ => none
  | .send (some n) =>
      match worker.place with
      | .sending => do
          let text ← stringAt worker.szMsg 0
          if n ≤ text.length then
            some ({ worker with place := .receiving }, [.sent k worker.sock (text.take n)])
          else none
      | _ => none
  | .close =>
      match worker.place with
      | .closing => some ({ worker with place := .gone }, [])
      | _ => none

/-- What a call does to the mutexes; `pthread_mutex_lock` blocks where the mutex is
held. -/
def passMutex (kind : Kind) (mutexes : Nat → Bool) (k : Nat) : Call → Option (Nat → Bool)
  | .lock =>
      if mutexes (kind.mutexOf k) then none
      else some (Function.update mutexes (kind.mutexOf k) true)
  | .unlock => some (Function.update mutexes (kind.mutexOf k) false)
  | _ => some mutexes

def step (kind : Kind) (s : Server) : Action → Option Server
  | .join sock => some { s with
      workers := s.workers ++ [{ sock := sock, szMsg := [], place := .receiving }] }
  | .call k call => do
      let worker ← s.workers[k]?
      let mutexes ← passMutex kind s.mutexes k call
      let (worker, events) ← turn k worker call
      some { mutexes := mutexes, workers := s.workers.set k worker, log := s.log ++ events }

/-- The worker has the mutex. -/
def Inside (worker : Worker) : Prop :=
  match worker.place with
  | .prompting _ => True
  | .reading => True
  | .unlocking _ => True
  | _ => False

/-- What the user of the server sees and types. -/
def onConsole : Event → Bool
  | .prompted _ => true
  | .read _ _ => true
  | _ => false

def console (log : List Event) : List Event := log.filter onConsole

/-- Before an input stands the prompt of the worker that reads it. -/
def ReadsPrompted (events : List Event) : Prop :=
  ∀ before after k chunk, events = before ++ .read k chunk :: after →
    before.getLast? = some (.prompted k)

/-- Each input goes to the worker whose prompt was the last thing to be seen. -/
structure Prompted (s : Server) : Prop where
  waiting : ∀ (k : Nat) (worker : Worker), s.workers[k]? = some worker →
    worker.place = .reading → (console s.log).getLast? = some (.prompted k)
  reads : ReadsPrompted (console s.log)

/-- Nobody waits for input when a worker prompts for it. -/
def Alone (s : Server) : Action → Prop
  | .call _ .prompt => ∀ worker ∈ s.workers, worker.place ≠ .reading
  | _ => True

/-- The calls, each with its place in the loop. -/
inductive Turned (k : Nat) (worker : Worker) : Call → Worker → List Event → Prop where
  | refused : worker.place = .receiving →
      Turned k worker (.recv none) { worker with place := .closing } []
  | received (bytes szMsg : Bytes) : worker.place = .receiving →
      store (List.replicate msgSize 0) 0 bytes = some szMsg →
      Turned k worker (.recv (some bytes))
        { worker with szMsg := szMsg, place := .locking bytes.length } [.received k bytes]
  | locked (nRead : Nat) : worker.place = .locking nRead →
      Turned k worker .lock { worker with place := .prompting nRead } []
  | prompted (nRead : Nat) (szMsg : Bytes) : worker.place = .prompting nRead →
      store worker.szMsg 0 (List.replicate nRead 0) = some szMsg →
      Turned k worker .prompt { worker with szMsg := szMsg, place := .reading } [.prompted k]
  | unread : worker.place = .reading →
      Turned k worker (.read none) { worker with place := .unlocking none } [.read k none]
  | read (chunk szMsg : Bytes) : worker.place = .reading →
      store worker.szMsg 0 chunk = some szMsg →
      Turned k worker (.read (some chunk))
        { worker with szMsg := szMsg, place := .unlocking (some chunk.length) }
        [.read k (some chunk)]
  | unlocked (nRead : Option Nat) : worker.place = .unlocking nRead →
      Turned k worker .unlock { worker with place := afterRead worker.szMsg nRead } []
  | unsent : worker.place = .sending →
      Turned k worker (.send none) { worker with place := .closing } []
  | sent (text : Bytes) (n : Nat) : worker.place = .sending →
      stringAt worker.szMsg 0 = some text → n ≤ text.length →
      Turned k worker (.send (some n)) { worker with place := .receiving }
        [.sent k worker.sock (text.take n)]
  | closed : worker.place = .closing →
      Turned k worker .close { worker with place := .gone } []

theorem turned_of_turn {k : Nat} {worker worker' : Worker} {call : Call} {events : List Event}
    (h : turn k worker call = some (worker', events)) : Turned k worker call worker' events := by
  cases call with
  | recv result =>
      cases result with
      | none =>
          rw [turn] at h
          split at h
          · rename_i hplace
            obtain ⟨rfl, rfl⟩ := Prod.mk.inj (Option.some.inj h)
            exact .refused hplace
          · cases h
      | some bytes =>
          rw [turn] at h
          split at h
          · rename_i hplace
            rcases Option.bind_eq_some_iff.mp h with ⟨szMsg, hstore, hsome⟩
            obtain ⟨rfl, rfl⟩ := Prod.mk.inj (Option.some.inj hsome)
            exact .received bytes szMsg hplace hstore
          · cases h
  | lock =>
      rw [turn] at h
      split at h
      · rename_i nRead hplace
        obtain ⟨rfl, rfl⟩ := Prod.mk.inj (Option.some.inj h)
        exact .locked nRead hplace
      · cases h
  | prompt =>
      rw [turn] at h
      split at h
      · rename_i nRead hplace
        rcases Option.bind_eq_some_iff.mp h with ⟨szMsg, hstore, hsome⟩
        obtain ⟨rfl, rfl⟩ := Prod.mk.inj (Option.some.inj hsome)
        exact .prompted nRead szMsg hplace hstore
      · cases h
  | read result =>
      cases result with
      | none =>
          rw [turn] at h
          split at h
          · rename_i hplace
            obtain ⟨rfl, rfl⟩ := Prod.mk.inj (Option.some.inj h)
            exact .unread hplace
          · cases h
      | some chunk =>
          rw [turn] at h
          split at h
          · rename_i hplace
            rcases Option.bind_eq_some_iff.mp h with ⟨szMsg, hstore, hsome⟩
            obtain ⟨rfl, rfl⟩ := Prod.mk.inj (Option.some.inj hsome)
            exact .read chunk szMsg hplace hstore
          · cases h
  | unlock =>
      rw [turn] at h
      split at h
      · rename_i nRead hplace
        obtain ⟨rfl, rfl⟩ := Prod.mk.inj (Option.some.inj h)
        exact .unlocked nRead hplace
      · cases h
  | send result =>
      cases result with
      | none =>
          rw [turn] at h
          split at h
          · rename_i hplace
            obtain ⟨rfl, rfl⟩ := Prod.mk.inj (Option.some.inj h)
            exact .unsent hplace
          · cases h
      | some n =>
          rw [turn] at h
          split at h
          · rename_i hplace
            rcases Option.bind_eq_some_iff.mp h with ⟨text, htext, hsome⟩
            change (if n ≤ text.length then _ else none) = some (worker', events) at hsome
            split at hsome
            · rename_i hn
              obtain ⟨rfl, rfl⟩ := Prod.mk.inj (Option.some.inj hsome)
              exact .sent text n hplace htext hn
            · cases hsome
          · cases h
  | close =>
      rw [turn] at h
      split at h
      · rename_i hplace
        obtain ⟨rfl, rfl⟩ := Prod.mk.inj (Option.some.inj h)
        exact .closed hplace
      · cases h

theorem call_done {kind : Kind} {s s' : Server} {k : Nat} {call : Call}
    (h : step kind s (.call k call) = some s') :
    ∃ worker mutexes worker' events, s.workers[k]? = some worker ∧
      passMutex kind s.mutexes k call = some mutexes ∧ Turned k worker call worker' events ∧
      s' = { mutexes := mutexes, workers := s.workers.set k worker', log := s.log ++ events } := by
  rcases Option.bind_eq_some_iff.mp h with ⟨worker, hworker, hrest⟩
  rcases Option.bind_eq_some_iff.mp hrest with ⟨mutexes, hmutexes, hrest⟩
  rcases Option.bind_eq_some_iff.mp hrest with ⟨⟨worker', events⟩, hturn, hsome⟩
  exact ⟨worker, mutexes, worker', events, hworker, hmutexes, turned_of_turn hturn,
    (Option.some.inj hsome).symm⟩

theorem not_inside_of_place {worker : Worker} {place : Place} (hplace : worker.place = place)
    (h : ¬ Inside { worker with place := place }) : ¬ Inside worker := by
  rw [← hplace] at h
  exact h

theorem inside_of_place {worker : Worker} {place : Place} (hplace : worker.place = place)
    (h : Inside { worker with place := place }) : Inside worker := by
  rw [← hplace] at h
  exact h

theorem afterRead_outside (worker : Worker) (nRead : Option Nat) :
    ¬ Inside { worker with place := afterRead worker.szMsg nRead } := by
  rcases nRead with _ | _ | n
  · exact id
  · exact id
  · change ¬ Inside { worker with place := if _ then _ else _ }
    split
    · exact id
    · exact id

abbrev GuardedBy (kind : Kind) (s : Server) : Prop :=
  Guarded kind.mutexOf Inside s.mutexes s.workers

theorem guarded_step {kind : Kind} {s s' : Server} {action : Action} (h : GuardedBy kind s)
    (hstep : step kind s action = some s') : GuardedBy kind s' := by
  cases action with
  | join sock =>
      obtain rfl := Option.some.inj hstep
      exact h.concat id
  | call k call =>
      obtain ⟨worker, mutexes, worker', events, hworker, hmutexes, hturned, rfl⟩ := call_done hstep
      rcases hturned with hplace | ⟨bytes, szMsg, hplace, _⟩ | ⟨nRead, hplace⟩ |
        ⟨nRead, szMsg, hplace, _⟩ | hplace | ⟨chunk, szMsg, hplace, _⟩ | ⟨nRead, hplace⟩ | hplace |
        ⟨text, n, hplace, _, _⟩ | hplace
      · obtain rfl := Option.some.inj hmutexes
        exact h.stay hworker ⟨False.elim, not_inside_of_place hplace id⟩
      · obtain rfl := Option.some.inj hmutexes
        exact h.stay hworker ⟨False.elim, not_inside_of_place hplace id⟩
      · rw [passMutex] at hmutexes
        split at hmutexes
        · cases hmutexes
        · rename_i hfree
          obtain rfl := Option.some.inj hmutexes
          exact h.enter hworker (Bool.eq_false_iff.mpr hfree) trivial
      · obtain rfl := Option.some.inj hmutexes
        exact h.stay hworker ⟨fun _ => inside_of_place hplace trivial, fun _ => trivial⟩
      · obtain rfl := Option.some.inj hmutexes
        exact h.stay hworker ⟨fun _ => inside_of_place hplace trivial, fun _ => trivial⟩
      · obtain rfl := Option.some.inj hmutexes
        exact h.stay hworker ⟨fun _ => inside_of_place hplace trivial, fun _ => trivial⟩
      · obtain rfl := Option.some.inj hmutexes
        exact h.leave hworker (inside_of_place hplace trivial) (afterRead_outside worker nRead)
      · obtain rfl := Option.some.inj hmutexes
        exact h.stay hworker ⟨False.elim, not_inside_of_place hplace id⟩
      · obtain rfl := Option.some.inj hmutexes
        exact h.stay hworker ⟨False.elim, not_inside_of_place hplace id⟩
      · obtain rfl := Option.some.inj hmutexes
        exact h.stay hworker ⟨False.elim, not_inside_of_place hplace id⟩

theorem ReadsPrompted.concat {events : List Event} (h : ReadsPrompted events) {event : Event}
    (hevent : ∀ k chunk, event = .read k chunk → events.getLast? = some (.prompted k)) :
    ReadsPrompted (events ++ [event]) := by
  intro before after k chunk hsplit
  rcases List.eq_nil_or_concat after with rfl | ⟨after, last, rfl⟩
  · obtain ⟨rfl, hlast⟩ := List.append_inj' hsplit rfl
    exact hevent k chunk (List.singleton_inj.mp hlast)
  · rw [List.concat_eq_append, ← List.cons_append, ← List.append_assoc] at hsplit
    exact h before after k chunk (List.append_inj' hsplit rfl).1

theorem console_append (log events : List Event) :
    console (log ++ events) = console log ++ console events := List.filter_append log events

theorem Prompted.silent {s : Server} (h : Prompted s) {k : Nat} {worker worker' : Worker}
    (hworker : s.workers[k]? = some worker) (hplace : worker'.place ≠ .reading)
    {events : List Event} (hevents : console events = []) (mutexes : Nat → Bool) :
    Prompted
      { mutexes := mutexes, workers := s.workers.set k worker', log := s.log ++ events } := by
  have hconsole : console (s.log ++ events) = console s.log := by
    rw [console_append, hevents, List.append_nil]
  refine ⟨fun j other hother hreading => ?_, ?_⟩
  · change (console (s.log ++ events)).getLast? = _
    rw [hconsole]
    rw [getElem?_set_of_some hworker] at hother
    split at hother
    · obtain rfl := Option.some.inj hother
      exact absurd hreading hplace
    · exact h.waiting j other hother hreading
  · change ReadsPrompted (console (s.log ++ events))
    rw [hconsole]
    exact h.reads

theorem Prompted.read {s : Server} (h : Prompted s) {k : Nat} {worker worker' : Worker}
    (hworker : s.workers[k]? = some worker) (hreading : worker.place = .reading)
    (hplace : worker'.place ≠ .reading) (chunk : Option Bytes) (mutexes : Nat → Bool) :
    Prompted {
      mutexes := mutexes
      workers := s.workers.set k worker'
      log := s.log ++ [.read k chunk] } := by
  have hlast := h.waiting k worker hworker hreading
  refine ⟨fun j other hother hwaits => ?_, ?_⟩
  · rw [getElem?_set_of_some hworker] at hother
    split at hother
    · obtain rfl := Option.some.inj hother
      exact absurd hwaits hplace
    · rename_i hne
      have hsame := hlast.symm.trans (h.waiting j other hother hwaits)
      rw [Option.some.injEq, Event.prompted.injEq] at hsame
      exact absurd hsame hne
  · change ReadsPrompted (console (s.log ++ _))
    rw [console_append]
    refine h.reads.concat fun j other hevent => ?_
    rw [Event.read.injEq] at hevent
    rw [← hevent.1]
    exact hlast

theorem Prompted.prompt {s : Server} (h : Prompted s) {k : Nat} {worker : Worker}
    (hworker : s.workers[k]? = some worker) (halone : ∀ worker ∈ s.workers, worker.place ≠ .reading)
    (worker' : Worker) (mutexes : Nat → Bool) :
    Prompted {
      mutexes := mutexes
      workers := s.workers.set k worker'
      log := s.log ++ [.prompted k] } := by
  refine ⟨fun j other hother hwaits => ?_, ?_⟩
  · change (console (s.log ++ _)).getLast? = _
    rw [console_append]
    rw [getElem?_set_of_some hworker] at hother
    split at hother
    · rename_i hsame
      rw [hsame]
      exact List.getLast?_concat
    · exact absurd hwaits (halone other (List.mem_of_getElem? hother))
  · change ReadsPrompted (console (s.log ++ _))
    rw [console_append]
    exact h.reads.concat nofun

theorem afterRead_ne_reading (szMsg : Bytes) (nRead : Option Nat) :
    afterRead szMsg nRead ≠ .reading := by
  rcases nRead with _ | _ | n
  · exact nofun
  · exact nofun
  · rw [afterRead]
    split
    · exact nofun
    · exact nofun

theorem prompted_step {kind : Kind} {s s' : Server} {action : Action} (h : Prompted s)
    (halone : Alone s action) (hstep : step kind s action = some s') : Prompted s' := by
  cases action with
  | join sock =>
      obtain rfl := Option.some.inj hstep
      refine ⟨fun j other hother hwaits => ?_, h.reads⟩
      rcases Nat.lt_trichotomy j s.workers.length with hlt | heq | hgt
      · rw [List.getElem?_append_left hlt] at hother
        exact h.waiting j other hother hwaits
      · rw [heq, List.getElem?_append_right (Nat.le_refl _), Nat.sub_self] at hother
        obtain rfl := Option.some.inj hother
        cases hwaits
      · rw [List.getElem?_eq_none (by rw [List.length_append]; exact hgt)] at hother
        cases hother
  | call k call =>
      obtain ⟨worker, mutexes, worker', events, hworker, _, hturned, rfl⟩ := call_done hstep
      rcases hturned with _ | ⟨bytes, szMsg, _, _⟩ | ⟨nRead, _⟩ | ⟨nRead, szMsg, _, _⟩ | hplace |
        ⟨chunk, szMsg, hplace, _⟩ | ⟨nRead, _⟩ | _ | ⟨text, n, _, _, _⟩ | _
      · exact h.silent hworker (by exact nofun) rfl mutexes
      · exact h.silent hworker (by exact nofun) rfl mutexes
      · exact h.silent hworker (by exact nofun) rfl mutexes
      · exact h.prompt hworker halone _ mutexes
      · exact h.read hworker hplace (by exact nofun) none mutexes
      · exact h.read hworker hplace (by exact nofun) (some chunk) mutexes
      · exact h.silent hworker (afterRead_ne_reading _ _) rfl mutexes
      · exact h.silent hworker (by exact nofun) rfl mutexes
      · exact h.silent hworker (by exact nofun) rfl mutexes
      · exact h.silent hworker (by exact nofun) rfl mutexes

theorem prompted_start : Prompted .start where
  waiting := fun k worker hworker => by
    change ([] : List Worker)[k]? = some worker at hworker
    simp at hworker
  reads := fun before after k chunk h => by
    change [] = _ at h
    simp at h

theorem alone_of_guarded {s s' : Server} {action : Action} (h : GuardedBy .threads s)
    (hstep : step .threads s action = some s') : Alone s action := by
  cases action with
  | join sock => trivial
  | call k call =>
      cases call with
      | recv result | lock | read result | unlock | send result | close => trivial
      | prompt =>
          obtain ⟨worker, mutexes, worker', events, hworker, _, hturned, rfl⟩ := call_done hstep
          rcases hturned with _ | _ | _ | ⟨nRead, szMsg, hplace, _⟩ | _ | _ | _ | _ | _ | _
          intro other hmem hwaits
          rcases List.mem_iff_getElem?.mp hmem with ⟨j, hj⟩
          have hsame := h.exclusive k j worker other hworker hj rfl
            (inside_of_place hplace trivial) (inside_of_place hwaits trivial)
          rw [hsame] at hworker
          obtain rfl := Option.some.inj (hworker.symm.trans hj)
          rw [hplace] at hwaits
          cases hwaits

/-- With threads, an input goes to the client that is prompted for, in every
interleaving. -/
theorem threads_prompted (actions : List Action) :
    EveryState (step .threads) Prompted .start actions := by
  have hall : EveryState (step .threads) (fun s => GuardedBy .threads s ∧ Prompted s) .start
      actions := by
    refine invariant ⟨guarded_nil, prompted_start⟩ ?_ actions
    intro s action s' ⟨hguarded, hprompted⟩ hstep
    exact ⟨guarded_step hguarded hstep,
      prompted_step hprompted (alone_of_guarded hguarded hstep) hstep⟩
  intro visited hvisited s hrun
  exact (hall visited hvisited s hrun).2

end StudyLinuxKernel.Socket.Conversation
