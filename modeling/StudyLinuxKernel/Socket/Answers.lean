import Mathlib.Data.List.Forall2
import StudyLinuxKernel.Socket.Conversation

namespace StudyLinuxKernel.Socket.Answers

open StudyLinuxKernel.Libc.CharArray
open StudyLinuxKernel.Libc.Text
open StudyLinuxKernel.Library.Exclusion
open StudyLinuxKernel.Library.PartialStep
open StudyLinuxKernel.Socket.Conversation

/-- The input is neither empty nor the command to leave. -/
def PassedOn (chunk : Bytes) : Prop :=
  chunk ≠ [] ∧ ¬ (chunk.length = 2 ∧ chunk.head? = some 113)

instance (chunk : Bytes) : Decidable (PassedOn chunk) :=
  inferInstanceAs (Decidable (_ ∧ _))

def inputOf (k : Nat) : Event → Option Bytes
  | .read j (some chunk) => if j = k ∧ PassedOn chunk then some chunk else none
  | _ => none

def answerOf (k : Nat) : Event → Option Bytes
  | .sent j _ bytes => if j = k then some bytes else none
  | _ => none

/-- What the worker `k` has read for its client. -/
def inputs (k : Nat) (log : List Event) : List Bytes := log.filterMap (inputOf k)

/-- What it has sent. -/
def answers (k : Nat) (log : List Event) : List Bytes := log.filterMap (answerOf k)

/-- All inputs but the `rest` are answered in their order; `send` may take only a
part of the string. -/
def Dialogue (log : List Event) (k : Nat) (rest : List Bytes) : Prop :=
  ∃ done, inputs k log = done ++ rest ∧
    List.Forall₂ (fun answer chunk => answer <+: cStr chunk) (answers k log) done

def OwnSocket (s : Server) : Prop :=
  ∀ k sock bytes, .sent k sock bytes ∈ s.log →
    ∃ worker, s.workers[k]? = some worker ∧ worker.sock = sock

/-- Every worker has sent nothing but on its own socket, and has answered its own
inputs but perhaps the last. -/
structure Answered (s : Server) : Prop where
  socket : OwnSocket s
  dialogue : ∀ k, ∃ rest, rest.length ≤ 1 ∧ Dialogue s.log k rest

/-- What is in `szMsg`, and what is not answered, by the place of the worker. -/
def Holds (szMsg : Bytes) (rest : List Bytes) : Place → Prop
  | .receiving => rest = []
  | .locking nRead => rest = [] ∧
      ∃ bytes, bytes.length = nRead ∧ nRead ≤ msgSize ∧ szMsg = zeroFilled msgSize bytes
  | .prompting nRead => rest = [] ∧
      ∃ bytes, bytes.length = nRead ∧ nRead ≤ msgSize ∧ szMsg = zeroFilled msgSize bytes
  | .reading => rest = [] ∧ szMsg = zeroFilled msgSize []
  | .unlocking none => rest = []
  | .unlocking (some nRead) => ∃ chunk, chunk.length = nRead ∧
      szMsg = zeroFilled msgSize chunk ∧ rest = if PassedOn chunk then [chunk] else []
  | .sending => ∃ chunk, szMsg = zeroFilled msgSize chunk ∧ rest = [chunk]
  | .closing => rest.length ≤ 1
  | .gone => rest.length ≤ 1

structure Sound (s : Server) : Prop where
  workers : ∀ (k : Nat) (worker : Worker), s.workers[k]? = some worker →
    ∃ rest, Holds worker.szMsg rest worker.place ∧ Dialogue s.log k rest
  others : ∀ k, s.workers.length ≤ k → inputs k s.log = [] ∧ answers k s.log = []

theorem length_le_of_holds {szMsg : Bytes} {rest : List Bytes} {place : Place}
    (h : Holds szMsg rest place) : rest.length ≤ 1 := by
  have hnil : rest = [] → rest.length ≤ 1 := by
    rintro rfl
    exact Nat.zero_le 1
  rcases place with _ | _ | _ | _ | (_ | nRead) | _ | _ | _
  · exact hnil h
  · exact hnil h.1
  · exact hnil h.1
  · exact hnil h.1
  · exact hnil h
  · obtain ⟨chunk, _, _, rfl⟩ := h
    split
    · exact Nat.le_refl 1
    · exact Nat.zero_le 1
  · obtain ⟨chunk, _, rfl⟩ := h
    exact Nat.le_refl 1
  · exact h
  · exact h

theorem zeroFilled_of_store {bytes szMsg : Bytes}
    (h : store (zeroFilled msgSize []) 0 bytes = some szMsg) :
    bytes.length ≤ msgSize ∧ szMsg = zeroFilled msgSize bytes := by
  rcases Nat.lt_or_ge msgSize bytes.length with hlong | hfits
  · rw [store, if_neg] at h
    · cases h
    · rw [length_zeroFilled (Nat.zero_le _)]
      omega
  · have hstore := @store_zeroFilled msgSize [] bytes (by simpa using hfits)
    exact ⟨hfits, Option.some.inj (h.symm.trans hstore)⟩

theorem cleared_of_store {bytes szMsg : Bytes} (hfits : bytes.length ≤ msgSize)
    (h : store (zeroFilled msgSize bytes) 0 (List.replicate bytes.length 0) = some szMsg) :
    szMsg = zeroFilled msgSize [] := by
  have hlength := length_zeroFilled hfits
  rw [store_zero (by rw [List.length_replicate, hlength]; exact hfits)] at h
  obtain rfl := Option.some.inj h
  rw [List.length_replicate, zeroFilled, List.drop_left, ← List.replicate_add, zeroFilled]
  congr 1
  change bytes.length + (msgSize - bytes.length) = msgSize - 0
  omega

theorem cStr_zeroFilled_eq (chunk : Bytes) : cStr (zeroFilled msgSize chunk) = cStr chunk := by
  rcases Decidable.em (0 ∈ chunk) with hzero | hnoNul
  · exact cStr_append_of_mem hzero _
  · rw [cStr_zeroFilled hnoNul, cStr_eq_self hnoNul]

theorem inputs_append (k : Nat) (log events : List Event) :
    inputs k (log ++ events) = inputs k log ++ inputs k events := List.filterMap_append

theorem answers_append (k : Nat) (log events : List Event) :
    answers k (log ++ events) = answers k log ++ answers k events := List.filterMap_append

theorem Dialogue.other {log events : List Event} {k : Nat} {rest : List Bytes}
    (h : Dialogue log k rest) (hinputs : inputs k events = []) (hanswers : answers k events = []) :
    Dialogue (log ++ events) k rest := by
  rw [Dialogue, inputs_append, answers_append, hinputs, hanswers, List.append_nil, List.append_nil]
  exact h

theorem Dialogue.input {log : List Event} {k : Nat} (h : Dialogue log k []) (chunk : Bytes) :
    Dialogue (log ++ [.read k (some chunk)]) k (if PassedOn chunk then [chunk] else []) := by
  obtain ⟨done, hinputs, hanswers⟩ := h
  rw [List.append_nil] at hinputs
  refine ⟨done, ?_, ?_⟩
  · have hread : inputs k [.read k (some chunk)] = if PassedOn chunk then [chunk] else [] := by
      simp only [inputs, List.filterMap_cons, inputOf, true_and, List.filterMap_nil]
      split
      · rename_i hnone
        split at hnone
        · cases hnone
        · rename_i hpassed
          rw [if_neg hpassed]
      · rename_i found hfound
        split at hfound
        · rename_i hpassed
          rw [if_pos hpassed, Option.some.inj hfound]
        · cases hfound
    rw [inputs_append, hinputs, hread]
  · rw [answers_append]
    exact (List.append_nil (answers k log)).symm ▸ hanswers

theorem Dialogue.answer {log : List Event} {k : Nat} {chunk : Bytes} (h : Dialogue log k [chunk])
    (sock : Nat) {bytes : Bytes} (hbytes : bytes <+: cStr chunk) :
    Dialogue (log ++ [.sent k sock bytes]) k [] := by
  obtain ⟨done, hinputs, hanswers⟩ := h
  refine ⟨done ++ [chunk], ?_, ?_⟩
  · rw [inputs_append, hinputs, List.append_nil]
    exact List.append_nil _
  · have hsent : answers k [.sent k sock bytes] = [bytes] := by simp [answers, answerOf]
    rw [answers_append, hsent]
    exact List.rel_append hanswers (.cons hbytes .nil)

theorem holds_afterRead (chunk : Bytes) :
    Holds (zeroFilled msgSize chunk) (if PassedOn chunk then [chunk] else [])
      (afterRead (zeroFilled msgSize chunk) (some chunk.length)) := by
  cases chunk with
  | nil => exact if_neg fun hpassed => hpassed.1 rfl
  | cons ch rest =>
      have hhead : (zeroFilled msgSize (ch :: rest)).head? = (ch :: rest).head? := rfl
      change Holds _ _ (if rest.length + 1 = 2 ∧ _ then Place.closing else Place.sending)
      rw [hhead]
      rcases Decidable.em (rest.length + 1 = 2 ∧ (ch :: rest).head? = some 113) with hquit | hstay
      · have hkept : ¬ PassedOn (ch :: rest) := fun hpassed => hpassed.2 hquit
        rw [if_pos hquit, if_neg hkept]
        exact Nat.zero_le 1
      · have hpassed : PassedOn (ch :: rest) := ⟨List.cons_ne_nil ch rest, hstay⟩
        rw [if_neg hstay, if_pos hpassed]
        exact ⟨_, rfl, rfl⟩

theorem others_of_turned {k j : Nat} (hne : k ≠ j) {worker worker' : Worker} {call : Call}
    {events : List Event} (h : Turned k worker call worker' events) :
    inputs j events = [] ∧ answers j events = [] := by
  rcases h with _ | _ | _ | _ | _ | ⟨chunk, szMsg, _, _⟩ | _ | _ | _ | _
  · exact ⟨rfl, rfl⟩
  · exact ⟨rfl, rfl⟩
  · exact ⟨rfl, rfl⟩
  · exact ⟨rfl, rfl⟩
  · exact ⟨rfl, rfl⟩
  · simp [inputs, inputOf, answers, answerOf, hne]
  · exact ⟨rfl, rfl⟩
  · exact ⟨rfl, rfl⟩
  · simp [inputs, inputOf, answers, answerOf, hne]
  · exact ⟨rfl, rfl⟩

theorem OwnSocket.join {s : Server} (h : OwnSocket s) (worker : Worker) :
    OwnSocket { s with workers := s.workers ++ [worker] } := by
  intro k sock bytes hsent
  obtain ⟨sender, hsender, hsock⟩ := h k sock bytes hsent
  have hlength := (List.getElem?_eq_some_iff.mp hsender).1
  exact ⟨sender, (List.getElem?_append_left hlength).trans hsender, hsock⟩

theorem OwnSocket.turned {s : Server} (h : OwnSocket s) {k : Nat} {worker worker' : Worker}
    (hworker : s.workers[k]? = some worker) {call : Call} {events : List Event}
    (hturned : Turned k worker call worker' events) (mutexes : Nat → Bool) :
    OwnSocket {
      mutexes := mutexes
      workers := s.workers.set k worker'
      log := s.log ++ events } := by
  have hkept : worker'.sock = worker.sock := by
    rcases hturned with _ | _ | _ | _ | _ | _ | _ | _ | _ | _ <;> rfl
  have hevent : ∀ j sock bytes, .sent j sock bytes ∈ events → j = k ∧ sock = worker.sock := by
    intro j sock bytes hmem
    rcases hturned with _ | _ | _ | _ | _ | _ | _ | _ | ⟨text, n, _, _, _⟩ | _ <;>
      simp_all
  intro j sock bytes hsent
  rw [getElem?_set_of_some hworker]
  rcases List.mem_append.mp hsent with hold | hnew
  · obtain ⟨sender, hsender, hsock⟩ := h j sock bytes hold
    split
    · rename_i hsame
      obtain rfl := hsame
      obtain rfl := Option.some.inj (hworker.symm.trans hsender)
      exact ⟨worker', rfl, hkept.trans hsock⟩
    · exact ⟨sender, hsender, hsock⟩
  · obtain ⟨rfl, rfl⟩ := hevent j sock bytes hnew
    rw [if_pos rfl]
    exact ⟨worker', rfl, hkept⟩

theorem holds_of_turned {k : Nat} {worker worker' : Worker} {call : Call} {events : List Event}
    (h : Turned k worker call worker' events) {log : List Event} {rest : List Bytes}
    (hholds : Holds worker.szMsg rest worker.place) (hdialogue : Dialogue log k rest) :
    ∃ rest', Holds worker'.szMsg rest' worker'.place ∧ Dialogue (log ++ events) k rest' := by
  rcases h with hplace | ⟨bytes, szMsg, hplace, hstore⟩ | ⟨nRead, hplace⟩ |
    ⟨nRead, szMsg, hplace, hstore⟩ | hplace | ⟨chunk, szMsg, hplace, hstore⟩ | ⟨nRead, hplace⟩ |
    hplace | ⟨text, n, hplace, htext, hn⟩ | hplace
  · refine ⟨rest, length_le_of_holds hholds, hdialogue.other rfl rfl⟩
  · rw [hplace] at hholds
    obtain rfl : rest = [] := hholds
    obtain ⟨hfits, rfl⟩ := @zeroFilled_of_store bytes szMsg hstore
    exact ⟨[], ⟨rfl, bytes, rfl, hfits, rfl⟩, hdialogue.other rfl rfl⟩
  · rw [hplace] at hholds
    exact ⟨rest, hholds, hdialogue.other rfl rfl⟩
  · rw [hplace] at hholds
    obtain ⟨rfl, bytes, rfl, hfits, hszMsg⟩ := hholds
    rw [hszMsg] at hstore
    exact ⟨[], ⟨rfl, cleared_of_store hfits hstore⟩, hdialogue.other rfl rfl⟩
  · rw [hplace] at hholds
    obtain ⟨rfl, _⟩ := hholds
    exact ⟨[], rfl, hdialogue.other rfl rfl⟩
  · rw [hplace] at hholds
    obtain ⟨rfl, hszMsg⟩ := hholds
    rw [hszMsg] at hstore
    obtain ⟨_, rfl⟩ := zeroFilled_of_store hstore
    exact ⟨_, ⟨chunk, rfl, rfl, rfl⟩, hdialogue.input chunk⟩
  · rw [hplace] at hholds
    refine ⟨rest, ?_, hdialogue.other rfl rfl⟩
    change Holds worker.szMsg rest (afterRead worker.szMsg nRead)
    rcases nRead with _ | nRead
    · exact hholds
    · obtain ⟨chunk, rfl, hszMsg, rfl⟩ := hholds
      rw [hszMsg]
      exact holds_afterRead chunk
  · exact ⟨rest, length_le_of_holds hholds, hdialogue.other rfl rfl⟩
  · rw [hplace] at hholds
    obtain ⟨chunk, hszMsg, rfl⟩ := hholds
    have hprefix : text.take n <+: cStr chunk := by
      rw [stringAt] at htext
      split at htext
      · obtain rfl := Option.some.inj htext
        rw [List.drop_zero, hszMsg, cStr_zeroFilled_eq]
        exact List.take_prefix n _
      · cases htext
    exact ⟨[], rfl, hdialogue.answer worker.sock hprefix⟩
  · exact ⟨rest, length_le_of_holds hholds, hdialogue.other rfl rfl⟩

theorem Sound.step {kind : Kind} {s s' : Server} {action : Action} (h : Sound s)
    (hstep : step kind s action = some s') : Sound s' := by
  cases action with
  | join sock =>
      obtain rfl := Option.some.inj hstep
      refine ⟨fun k worker hworker => ?_, fun k hk => ?_⟩
      · rcases Nat.lt_trichotomy k s.workers.length with hlt | heq | hgt
        · rw [List.getElem?_append_left hlt] at hworker
          exact h.workers k worker hworker
        · rw [heq, List.getElem?_append_right (Nat.le_refl _), Nat.sub_self] at hworker
          obtain rfl := Option.some.inj hworker
          obtain ⟨hinputs, hanswers⟩ := h.others k heq.ge
          refine ⟨[], rfl, [], hinputs, ?_⟩
          change List.Forall₂ _ (answers k s.log) []
          rw [hanswers]
          exact .nil
        · rw [List.getElem?_eq_none (by rw [List.length_append]; exact hgt)] at hworker
          cases hworker
      · rw [List.length_append] at hk
        exact h.others k (Nat.le_of_succ_le hk)
  | call k call =>
      obtain ⟨worker, mutexes, worker', events, hworker, _, hturned, rfl⟩ := call_done hstep
      have hlength := (List.getElem?_eq_some_iff.mp hworker).1
      refine ⟨fun j other hother => ?_, fun j hj => ?_⟩
      · rw [getElem?_set_of_some hworker] at hother
        split at hother
        · rename_i hsame
          obtain rfl := hsame
          obtain rfl := Option.some.inj hother
          obtain ⟨rest, hholds, hdialogue⟩ := h.workers k worker hworker
          exact holds_of_turned hturned hholds hdialogue
        · rename_i hne
          obtain ⟨rest, hholds, hdialogue⟩ := h.workers j other hother
          obtain ⟨hinputs, hanswers⟩ := others_of_turned hne hturned
          exact ⟨rest, hholds, hdialogue.other hinputs hanswers⟩
      · rw [List.length_set] at hj
        have hne : k ≠ j := by omega
        obtain ⟨hinputs, hanswers⟩ := others_of_turned hne hturned
        rw [inputs_append, answers_append, hinputs, hanswers, List.append_nil, List.append_nil]
        exact h.others j hj

theorem sound_start : Sound .start where
  workers := fun k worker hworker => by
    change ([] : List Worker)[k]? = some worker at hworker
    simp at hworker
  others := fun _ _ => ⟨rfl, rfl⟩

theorem ownSocket_of_run (kind : Kind) (actions : List Action) :
    EveryState (step kind) OwnSocket .start actions := by
  refine invariant (fun _ _ _ hnone => absurd hnone List.not_mem_nil) ?_ actions
  intro s action s' h hstep
  cases action with
  | join sock =>
      obtain rfl := Option.some.inj hstep
      exact h.join _
  | call k call =>
      obtain ⟨worker, mutexes, worker', events, hworker, _, hturned, rfl⟩ := call_done hstep
      exact h.turned hworker hturned mutexes

theorem Sound.dialogue {s : Server} (h : Sound s) (k : Nat) :
    ∃ rest, rest.length ≤ 1 ∧ Dialogue s.log k rest := by
  rcases Nat.lt_or_ge k s.workers.length with hlt | hge
  · obtain ⟨rest, hholds, hdialogue⟩ := h.workers k _ (List.getElem?_eq_getElem hlt)
    exact ⟨rest, length_le_of_holds hholds, hdialogue⟩
  · obtain ⟨hinputs, hanswers⟩ := h.others k hge
    refine ⟨[], Nat.zero_le 1, [], hinputs, ?_⟩
    rw [hanswers]
    exact .nil

/-- Whichever way the workers interleave, and whether or not they share the mutex,
each socket is answered by what its own worker has read. -/
theorem workers_answered (kind : Kind) (actions : List Action) :
    EveryState (step kind) Answered .start actions := by
  intro visited hvisited s hrun
  have hsound : EveryState (step kind) Sound .start actions :=
    invariant sound_start (fun _ _ _ h hstep => h.step hstep) actions
  exact ⟨(ownSocket_of_run kind actions) visited hvisited s hrun,
    (hsound visited hvisited s hrun).dialogue⟩

end StudyLinuxKernel.Socket.Answers
