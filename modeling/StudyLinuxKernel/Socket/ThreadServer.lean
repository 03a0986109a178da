import Mathlib.Logic.ExistsUnique
import Mathlib.Logic.Function.Basic
import StudyLinuxKernel.Library.PartialStep
import StudyLinuxKernel.Socket.AcceptedSet

namespace StudyLinuxKernel.Socket.ThreadServer

open StudyLinuxKernel.Library.PartialStep
open StudyLinuxKernel.Socket.AcceptedSet (update_eq_some_iff)

/-- A thread that runs `_thread_func`.  `conn` is the connection that was open
under `sock` when it was read. -/
inductive Worker where
  | created
  | serving (sock conn : Option Nat)
  | ended (conn : Option Nat)
  deriving DecidableEq

def Worker.conn : Worker → Option Nat
  | .created => none
  | .serving _ conn => conn
  | .ended conn => conn

/-- Where the loop of `main` is. -/
inductive Place where
  | accepting
  | creating
  deriving DecidableEq

/-- `table` says which connection is open under a number; `sockClient` is `none`
where the variable holds -1. -/
structure Server where
  table : Nat → Option Nat
  nextConn : Nat
  sockClient : Option Nat
  place : Place
  workers : List Worker

/-- In front of the loop; `sock_client` is not set yet. -/
def Server.start : Server :=
  { table := fun _ => none, nextConn := 0, sockClient := none, place := .accepting, workers := [] }

/-- `fd` is the result of `accept`, `none` for -1; `ok` is false where
`pthread_create` returns an error number. -/
inductive Action where
  | accept (fd : Option Nat)
  | create (ok : Bool)
  | start (k : Nat)
  | finish (k : Nat)

def step (s : Server) : Action → Option Server
  | .accept fd =>
      match s.place, fd with
      | .accepting, none => some { s with sockClient := none }
      | .accepting, some fd =>
          if s.table fd = none then
            some { s with
              table := Function.update s.table fd (some s.nextConn)
              nextConn := s.nextConn + 1
              sockClient := some fd
              place := .creating }
          else none
      | .creating, _ => none
  | .create ok =>
      match s.place with
      -- An error number is positive, so that the comparison with 0 does not find it.
      | .creating => some { s with
          place := .accepting
          workers := if ok then s.workers ++ [.created] else s.workers }
      | .accepting => none
  | .start k =>
      match s.workers[k]? with
      | some .created => some { s with
          workers := s.workers.set k (.serving s.sockClient (s.sockClient.bind s.table)) }
      | _ => none
  | .finish k =>
      match s.workers[k]? with
      | some (.serving sock conn) => some { s with
          table := match sock with
            | none => s.table
            | some fd => Function.update s.table fd none
          workers := s.workers.set k (.ended conn) }
      | _ => none

/-- The worker `k` has read the descriptor of the connection. -/
def Server.Serves (s : Server) (k conn : Nat) : Prop :=
  ∃ worker, s.workers[k]? = some worker ∧ worker.conn = some conn

/-- The connection is in `sock_client` for a worker that is yet to come or yet
to read it. -/
structure Waits (s : Server) (conn : Nat) : Prop where
  slot : s.sockClient.bind s.table = some conn
  worker : s.place = .creating ∨ .created ∈ s.workers
  unserved : ∀ k, ¬ s.Serves k conn

/-- Each accepted connection has exactly one worker, or waits for it. -/
def HandedOver (s : Server) : Prop :=
  ∀ conn < s.nextConn, (∃! k, s.Serves k conn) ∨ Waits s conn

/-- The loop goes on only when the worker for the last connection is there and
has read the variable. -/
def HandsOver (s : Server) : Action → Prop
  | .accept _ => .created ∉ s.workers
  | .create ok => ok = true
  | _ => True

/-- What the steps need besides: the descriptor of a worker that is serving is
still open, and a worker that has not read the variable is the last one. -/
structure Sound (s : Server) : Prop where
  fresh : ∀ fd conn, s.table fd = some conn → conn < s.nextConn
  serving : ∀ (k : Nat) sock conn, s.workers[k]? = some (Worker.serving sock conn) →
    ∃ fd opened, sock = some fd ∧ conn = some opened ∧ s.table fd = some opened
  served : ∀ k conn, s.Serves k conn → conn < s.nextConn
  last : ∀ k k' : Nat, s.workers[k]? = some Worker.created →
    s.workers[k']? = some Worker.created → k = k'
  creating : s.place = .creating → .created ∉ s.workers
  waiting : s.place = .creating ∨ .created ∈ s.workers → ∃ conn, Waits s conn
  handedOver : HandedOver s

inductive Moves (s : Server) : Action → Server → Prop where
  | refused : s.place = .accepting → Moves s (.accept none) { s with sockClient := none }
  | accepted (fd : Nat) : s.place = .accepting → s.table fd = none →
      Moves s (.accept (some fd)) { s with
        table := Function.update s.table fd (some s.nextConn)
        nextConn := s.nextConn + 1
        sockClient := some fd
        place := .creating }
  | failed : s.place = .creating → Moves s (.create false) { s with place := .accepting }
  | created : s.place = .creating →
      Moves s (.create true) { s with place := .accepting, workers := s.workers ++ [.created] }
  | started (k : Nat) : s.workers[k]? = some .created →
      Moves s (.start k) { s with
        workers := s.workers.set k (.serving s.sockClient (s.sockClient.bind s.table)) }
  | unnamed (k : Nat) (conn : Option Nat) : s.workers[k]? = some (.serving none conn) →
      Moves s (.finish k) { s with workers := s.workers.set k (.ended conn) }
  | closed (k fd : Nat) (conn : Option Nat) : s.workers[k]? = some (.serving (some fd) conn) →
      Moves s (.finish k) { s with
        table := Function.update s.table fd none
        workers := s.workers.set k (.ended conn) }

theorem moves_of_step {s s' : Server} {action : Action} (h : step s action = some s') :
    Moves s action s' := by
  cases action with
  | accept fd =>
      simp only [step] at h
      split at h
      · rename_i hplace
        obtain rfl := Option.some.inj h
        exact .refused hplace
      · rename_i fd hplace
        rw [Option.ite_none_right_eq_some] at h
        obtain ⟨hfree, hresult⟩ := h
        obtain rfl := Option.some.inj hresult
        exact .accepted fd hplace hfree
      · cases h
  | create ok =>
      rw [step] at h
      split at h
      · rename_i hplace
        obtain rfl := Option.some.inj h
        cases ok with
        | false => exact .failed hplace
        | true => exact .created hplace
      · cases h
  | start k =>
      rw [step] at h
      split at h
      · rename_i hworker
        obtain rfl := Option.some.inj h
        exact .started k hworker
      · cases h
  | finish k =>
      rw [step] at h
      split at h
      · rename_i sock conn hworker
        obtain rfl := Option.some.inj h
        cases sock with
        | none => exact .unnamed k conn hworker
        | some fd => exact .closed k fd conn hworker
      · cases h

theorem worker_of_set {workers : List Worker} {k k' : Nat} {worker other : Worker}
    (h : (workers.set k worker)[k']? = some other) :
    k' = k ∧ other = worker ∨ k' ≠ k ∧ workers[k']? = some other := by
  rcases eq_or_ne k' k with rfl | hne
  · have hlt := (List.getElem?_eq_some_iff.mp h).1
    rw [List.length_set] at hlt
    rw [List.getElem?_set_self hlt] at h
    exact Or.inl ⟨rfl, (Option.some.inj h).symm⟩
  · rw [List.getElem?_set_ne hne.symm] at h
    exact Or.inr ⟨hne, h⟩

theorem created_mem_set_iff {workers : List Worker} {k : Nat} {old worker : Worker}
    (h : workers[k]? = some old) (hold : old ≠ .created) (hnew : worker ≠ .created) :
    .created ∈ workers.set k worker ↔ .created ∈ workers := by
  constructor
  · intro hmem
    obtain ⟨k', hmem⟩ := List.mem_iff_getElem?.mp hmem
    rcases worker_of_set hmem with ⟨_, hclash⟩ | ⟨_, hbefore⟩
    · exact absurd hclash.symm hnew
    · exact List.mem_of_getElem? hbefore
  · intro hmem
    obtain ⟨k', hmem⟩ := List.mem_iff_getElem?.mp hmem
    have hne : k ≠ k' := by
      rintro rfl
      exact hold (Option.some.inj (h.symm.trans hmem))
    exact List.mem_of_getElem? (by rw [List.getElem?_set_ne hne, hmem])

theorem serves_set {s : Server} {k : Nat} {old worker : Worker} (h : s.workers[k]? = some old)
    (k' conn : Nat) : (∃ other, (s.workers.set k worker)[k']? = some other ∧
      other.conn = some conn) ↔
        k' = k ∧ worker.conn = some conn ∨ k' ≠ k ∧ s.Serves k' conn := by
  have hlt : k < s.workers.length := (List.getElem?_eq_some_iff.mp h).1
  rcases eq_or_ne k' k with rfl | hne
  · simp [hlt]
  · rw [List.getElem?_set_ne hne.symm]
    simp [hne, Server.Serves]

theorem serves_set_same {s : Server} {k : Nat} {old worker : Worker}
    (h : s.workers[k]? = some old) (hconn : worker.conn = old.conn) (k' conn : Nat) :
    (∃ other, (s.workers.set k worker)[k']? = some other ∧ other.conn = some conn) ↔
      s.Serves k' conn := by
  rw [serves_set h]
  rcases eq_or_ne k' k with rfl | hne
  · simp [Server.Serves, h, hconn]
  · simp [hne]

theorem serves_append_created {s : Server} (k conn : Nat) :
    (∃ other, (s.workers ++ [Worker.created])[k]? = some other ∧ other.conn = some conn) ↔
      s.Serves k conn := by
  constructor
  · rintro ⟨worker, hworker, hconn⟩
    rw [List.getElem?_append] at hworker
    split at hworker
    · exact ⟨worker, hworker, hconn⟩
    · obtain rfl := List.mem_singleton.mp (List.mem_of_getElem? hworker)
      cases hconn
  · rintro ⟨worker, hworker, hconn⟩
    have hlt : k < s.workers.length := (List.getElem?_eq_some_iff.mp hworker).1
    exact ⟨worker, by rw [List.getElem?_append_left hlt, hworker], hconn⟩

section Steps

variable {s : Server} (h : Sound s)
include h

theorem Sound.unique {k k' conn : Nat} (hk : s.Serves k conn) (hk' : s.Serves k' conn) :
    k = k' := by
  rcases h.handedOver conn (h.served k conn hk) with hone | hwaits
  · exact hone.unique hk hk'
  · exact absurd hk (hwaits.unserved k)

theorem Sound.exactlyOne (hplace : s.place = .accepting) (hnone : .created ∉ s.workers)
    {conn : Nat} (hconn : conn < s.nextConn) : ∃! k, s.Serves k conn := by
  rcases h.handedOver conn hconn with hone | hwaits
  · exact hone
  · rcases hwaits.worker with hcreating | hcreated
    · rw [hplace] at hcreating
      cases hcreating
    · exact absurd hcreated hnone

theorem sound_refused (hplace : s.place = .accepting) (hnone : .created ∉ s.workers) :
    Sound { s with sockClient := none } where
  fresh := h.fresh
  serving := h.serving
  served := h.served
  last := h.last
  creating := h.creating
  waiting := by
    rintro (hcreating | hcreated)
    · rw [hplace] at hcreating
      cases hcreating
    · exact absurd hcreated hnone
  handedOver := fun _ hconn => Or.inl (h.exactlyOne hplace hnone hconn)

theorem sound_accepted {fd : Nat} (hplace : s.place = .accepting) (hfree : s.table fd = none)
    (hnone : .created ∉ s.workers) :
    Sound { s with
      table := Function.update s.table fd (some s.nextConn)
      nextConn := s.nextConn + 1
      sockClient := some fd
      place := .creating } := by
  have hunserved : ∀ k, ¬ s.Serves k s.nextConn := fun k hk =>
    Nat.lt_irrefl _ (h.served k s.nextConn hk)
  have hslot : (some fd).bind (Function.update s.table fd (some s.nextConn)) =
      some s.nextConn := Function.update_self _ _ _
  refine ⟨fun fd' conn hopen => ?_, fun k sock conn hserving => ?_, fun k conn hk => ?_, h.last,
    fun _ => hnone, fun _ => ⟨s.nextConn, hslot, Or.inl rfl, hunserved⟩, fun conn hconn => ?_⟩
  · rcases update_eq_some_iff.mp hopen with ⟨_, hnew⟩ | ⟨_, hold⟩
    · obtain rfl := Option.some.inj hnew
      exact Nat.lt_succ_self _
    · exact Nat.lt_succ_of_lt (h.fresh fd' conn hold)
  · rcases h.serving k sock conn hserving with ⟨fd', opened, rfl, rfl, hopen⟩
    refine ⟨fd', opened, rfl, rfl, update_eq_some_iff.mpr (Or.inr ⟨?_, hopen⟩)⟩
    rintro rfl
    rw [hfree] at hopen
    cases hopen
  · exact Nat.lt_succ_of_lt (h.served k conn hk)
  · rcases Nat.lt_succ_iff_lt_or_eq.mp hconn with hold | rfl
    · exact Or.inl (h.exactlyOne hplace hnone hold)
    · exact Or.inr ⟨hslot, Or.inl rfl, hunserved⟩

theorem sound_created (hplace : s.place = .creating) :
    Sound { s with place := .accepting, workers := s.workers ++ [.created] } := by
  have hserves : ∀ k conn, Server.Serves { s with
      place := .accepting, workers := s.workers ++ [.created] } k conn ↔ s.Serves k conn :=
    serves_append_created
  have hmem : Worker.created ∈ s.workers ++ [.created] :=
    List.mem_append_right _ List.mem_cons_self
  have hold : ∀ (k : Nat) worker, (s.workers ++ [Worker.created])[k]? = some worker →
      worker ≠ .created → s.workers[k]? = some worker := by
    intro k worker hworker hne
    rw [List.getElem?_append] at hworker
    split at hworker
    · exact hworker
    · exact absurd (List.mem_singleton.mp (List.mem_of_getElem? hworker)) hne
  have hlast : ∀ k : Nat, (s.workers ++ [Worker.created])[k]? = some .created →
      k = s.workers.length := by
    intro k hworker
    rw [List.getElem?_append] at hworker
    split at hworker
    · exact absurd (List.mem_of_getElem? hworker) (h.creating hplace)
    · have hlt := (List.getElem?_eq_some_iff.mp hworker).1
      rw [List.length_singleton] at hlt
      omega
  have hwaits : ∀ {conn}, Waits s conn → Waits { s with
      place := .accepting, workers := s.workers ++ [.created] } conn := fun hconn =>
    ⟨hconn.slot, Or.inr hmem, fun k hk => hconn.unserved k ((hserves k _).mp hk)⟩
  refine ⟨h.fresh, fun k sock conn hserving => ?_, fun k conn hk => ?_, fun k k' hk hk' => ?_,
    fun hcreating => ?_, fun _ => ?_, fun conn hconn => ?_⟩
  · exact h.serving k sock conn (hold k _ hserving (by simp))
  · exact h.served k conn ((hserves k conn).mp hk)
  · exact (hlast k hk).trans (hlast k' hk').symm
  · cases hcreating
  · rcases h.waiting (Or.inl hplace) with ⟨conn, hconn⟩
    exact ⟨conn, hwaits hconn⟩
  · simp only [hserves]
    exact (h.handedOver conn hconn).imp_right hwaits

theorem sound_started {k : Nat} (hcreated : s.workers[k]? = some .created) :
    Sound { s with
      workers := s.workers.set k (.serving s.sockClient (s.sockClient.bind s.table)) } := by
  have hmem : Worker.created ∈ s.workers := List.mem_of_getElem? hcreated
  have hplace : s.place ≠ .creating := fun hcreating => h.creating hcreating hmem
  rcases h.waiting (Or.inr hmem) with ⟨conn, hwaits⟩
  obtain ⟨fd, hslot, hopen⟩ := Option.bind_eq_some_iff.mp hwaits.slot
  rw [hwaits.slot, hslot]
  have hserves := fun k' conn' =>
    @serves_set s k _ (.serving (some fd) (some conn)) hcreated k' conn'
  have hnone : .created ∉ s.workers.set k (.serving (some fd) (some conn)) := by
    intro hleft
    obtain ⟨k', hleft⟩ := List.mem_iff_getElem?.mp hleft
    rcases worker_of_set hleft with ⟨_, hclash⟩ | ⟨hne, hother⟩
    · cases hclash
    · exact hne (h.last k' k hother hcreated)
  refine ⟨h.fresh, fun k' sock conn' hserving => ?_, fun k' conn' hk => ?_, fun k' _ hk _ => ?_,
    fun hcreating => absurd hcreating hplace, ?_, fun conn' hconn => ?_⟩
  · rcases worker_of_set hserving with ⟨_, hnew⟩ | ⟨_, hold⟩
    · obtain ⟨rfl, rfl⟩ := Worker.serving.inj hnew
      exact ⟨fd, conn, rfl, rfl, hopen⟩
    · exact h.serving k' sock conn' hold
  · rcases (hserves k' conn').mp hk with ⟨_, hnew⟩ | ⟨_, hold⟩
    · obtain rfl := Option.some.inj hnew
      exact h.fresh fd _ hopen
    · exact h.served k' conn' hold
  · exact absurd (List.mem_of_getElem? hk) hnone
  · rintro (hcreating | hleft)
    · exact absurd hcreating hplace
    · exact absurd hleft hnone
  · refine Or.inl ?_
    rcases h.handedOver conn' hconn with ⟨k', hk', hone⟩ | hother
    · have hne : k' ≠ k := by
        rintro rfl
        obtain ⟨worker, hworker, hconn'⟩ := hk'
        rw [hcreated] at hworker
        obtain rfl := Option.some.inj hworker
        cases hconn'
      refine ⟨k', (hserves k' conn').mpr (Or.inr ⟨hne, hk'⟩), fun k'' hk'' => ?_⟩
      rcases (hserves k'' conn').mp hk'' with ⟨_, hnew⟩ | ⟨_, hold⟩
      · obtain rfl := Option.some.inj hnew
        exact absurd hk' (hwaits.unserved k')
      · exact hone k'' hold
    · have hsame : conn = conn' := Option.some.inj (hwaits.slot.symm.trans hother.slot)
      refine ⟨k, (hserves k conn').mpr (Or.inl ⟨rfl, congrArg some hsame⟩), fun k'' hk'' => ?_⟩
      rcases (hserves k'' conn').mp hk'' with ⟨hk, _⟩ | ⟨_, hold⟩
      · exact hk
      · exact absurd hold (hother.unserved k'')

theorem sound_closed {k fd : Nat} {conn : Option Nat}
    (hserving : s.workers[k]? = some (.serving (some fd) conn)) :
    Sound { s with
      table := Function.update s.table fd none
      workers := s.workers.set k (.ended conn) } := by
  rcases h.serving k _ conn hserving with ⟨_, opened, ⟨⟩, rfl, hopen⟩
  have hk : s.Serves k opened := ⟨_, hserving, rfl⟩
  have hserves := fun k' conn' =>
    @serves_set_same s k _ (.ended (some opened)) hserving rfl k' conn'
  have hcreated : .created ∈ s.workers.set k (.ended (some opened)) ↔ .created ∈ s.workers :=
    created_mem_set_iff hserving nofun nofun
  have hwaits : ∀ {conn'}, Waits s conn' → Waits { s with
      table := Function.update s.table fd none
      workers := s.workers.set k (.ended (some opened)) } conn' := by
    intro conn' hwaiting
    obtain ⟨fd', hslot, hopen'⟩ := Option.bind_eq_some_iff.mp hwaiting.slot
    have hne : fd' ≠ fd := by
      rintro rfl
      obtain rfl := Option.some.inj (hopen.symm.trans hopen')
      exact hwaiting.unserved k hk
    refine ⟨?_, hwaiting.worker.imp_right hcreated.mpr, fun k' hk' =>
      hwaiting.unserved k' ((hserves k' conn').mp hk')⟩
    rw [hslot]
    exact update_eq_some_iff.mpr (Or.inr ⟨hne, hopen'⟩)
  refine ⟨fun fd' conn' hopen' => ?_, fun k' sock conn' hserving' => ?_, fun k' conn' hk' => ?_,
    fun k' k'' hk' hk'' => ?_, fun hcreating hleft => ?_, fun hnext => ?_, fun conn' hconn => ?_⟩
  · rcases update_eq_some_iff.mp hopen' with ⟨_, hnew⟩ | ⟨_, hold⟩
    · cases hnew
    · exact h.fresh fd' conn' hold
  · rcases worker_of_set hserving' with ⟨_, hclash⟩ | ⟨hne, hold⟩
    · cases hclash
    · rcases h.serving k' sock conn' hold with ⟨fd', opened', rfl, rfl, hopen'⟩
      refine ⟨fd', opened', rfl, rfl, update_eq_some_iff.mpr (Or.inr ⟨?_, hopen'⟩)⟩
      rintro rfl
      obtain rfl := Option.some.inj (hopen.symm.trans hopen')
      exact hne (h.unique ⟨_, hold, rfl⟩ hk)
  · exact h.served k' conn' ((hserves k' conn').mp hk')
  · rcases worker_of_set hk' with ⟨_, hclash⟩ | ⟨_, hold⟩
    · cases hclash
    · rcases worker_of_set hk'' with ⟨_, hclash⟩ | ⟨_, hold'⟩
      · cases hclash
      · exact h.last k' k'' hold hold'
  · exact h.creating hcreating (hcreated.mp hleft)
  · rcases h.waiting (hnext.imp_right hcreated.mp) with ⟨conn', hwaiting⟩
    exact ⟨conn', hwaits hwaiting⟩
  · rcases h.handedOver conn' hconn with ⟨k', hk', hone⟩ | hother
    · exact Or.inl ⟨k', (hserves k' conn').mpr hk', fun k'' hk'' =>
        hone k'' ((hserves k'' conn').mp hk'')⟩
    · exact Or.inr (hwaits hother)

end Steps

theorem sound_step {s s' : Server} {action : Action} (h : Sound s) (hcond : HandsOver s action)
    (hstep : step s action = some s') : Sound s' := by
  cases moves_of_step hstep with
  | refused hplace => exact sound_refused h hplace hcond
  | accepted fd hplace hfree => exact sound_accepted h hplace hfree hcond
  | failed hplace => cases hcond
  | created hplace => exact sound_created h hplace
  | started k hcreated => exact sound_started h hcreated
  | unnamed k conn hserving =>
      rcases h.serving k _ conn hserving with ⟨fd, opened, hnone, _⟩
      cases hnone
  | closed k fd conn hserving => exact sound_closed h hserving

/-- The connection that was waiting is lost when the variable is written or no
worker is made. -/
theorem handsOver_of_handedOver {s s' : Server} {action : Action} (h : Sound s)
    (hstep : step s action = some s') (hkept : HandedOver s') : HandsOver s action := by
  cases moves_of_step hstep with
  | refused hplace =>
      intro hcreated
      rcases h.waiting (Or.inr hcreated) with ⟨conn, hwaits⟩
      obtain ⟨fd, _, hopen⟩ := Option.bind_eq_some_iff.mp hwaits.slot
      rcases hkept conn (h.fresh fd conn hopen) with ⟨k, hk, _⟩ | hstill
      · exact hwaits.unserved k hk
      · cases hstill.slot
  | accepted fd hplace hfree =>
      intro hcreated
      rcases h.waiting (Or.inr hcreated) with ⟨conn, hwaits⟩
      obtain ⟨fd', _, hopen⟩ := Option.bind_eq_some_iff.mp hwaits.slot
      have hconn : conn < s.nextConn := h.fresh fd' conn hopen
      rcases hkept conn (Nat.lt_succ_of_lt hconn) with ⟨k, hk, _⟩ | hstill
      · exact hwaits.unserved k hk
      · have hslot : Function.update s.table fd (some s.nextConn) fd = some conn := hstill.slot
        rw [Function.update_self] at hslot
        obtain rfl := Option.some.inj hslot
        exact Nat.lt_irrefl _ hconn
  | failed hplace =>
      rcases h.waiting (Or.inl hplace) with ⟨conn, hwaits⟩
      obtain ⟨fd, _, hopen⟩ := Option.bind_eq_some_iff.mp hwaits.slot
      rcases hkept conn (h.fresh fd conn hopen) with ⟨k, hk, _⟩ | hstill
      · exact absurd hk (hwaits.unserved k)
      · rcases hstill.worker with hcreating | hcreated
        · cases hcreating
        · exact absurd hcreated (h.creating hplace)
  | created hplace => rfl
  | started k hcreated => trivial
  | unnamed k conn hserving => trivial
  | closed k fd conn hserving => trivial

theorem sound_start : Sound .start where
  fresh := fun _ _ hopen => nomatch hopen
  serving := fun _ _ _ hserving => nomatch hserving
  served := by
    rintro k conn ⟨worker, hworker, _⟩
    cases hworker
  last := fun _ _ hcreated => nomatch hcreated
  creating := fun hcreating => nomatch hcreating
  waiting := by
    rintro (hcreating | hcreated)
    · cases hcreating
    · exact absurd hcreated List.not_mem_nil
  handedOver := fun _ hconn => absurd hconn (Nat.not_lt_zero _)

/-- In a run of the server each connection comes to exactly one worker if and
only if the loop never runs ahead of a worker and makes one for each connection. -/
theorem handedOver_iff (actions : List Action) :
    EveryState step HandedOver .start actions ↔ EveryStep step HandsOver .start actions := by
  have hexact := @everyState_iff_everyStep _ _ step Sound HandedOver HandsOver .start sound_start
    (fun _ hs => hs.handedOver) (fun _ _ _ hs hcond hstep => sound_step hs hcond hstep)
    (fun _ _ _ hs hstep hkept => handsOver_of_handedOver hs hstep hkept)
  exact hexact actions

/-- Two connections come in before the worker for the first one runs. -/
def overtakenSchedule : List Action :=
  [.accept (some 5), .create true, .accept (some 6), .create true, .start 0, .start 1]

theorem run_overtakenSchedule : run step .start overtakenSchedule =
    some
      { table := Function.update (Function.update (fun _ => none) 5 (some 0)) 6 (some 1)
        nextConn := 2
        sockClient := some 6
        place := .accepting
        workers := [.serving (some 6) (some 1), .serving (some 6) (some 1)] } := rfl

/-- The second one gets two workers and the first one none. -/
theorem first_connection_lost :
    ∃ s, run step .start overtakenSchedule = some s ∧ s.Serves 0 1 ∧ s.Serves 1 1 ∧
      (∀ k, ¬ s.Serves k 0) ∧ ¬ HandedOver s := by
  have hlost : ∀ (k : Nat) worker,
      [Worker.serving (some 6) (some 1), .serving (some 6) (some 1)][k]? = some worker →
        worker.conn ≠ some 0 := by
    intro k worker hworker
    have hmem := List.mem_of_getElem? hworker
    rcases List.mem_cons.mp hmem with rfl | hmem
    · exact nofun
    · obtain rfl := List.mem_singleton.mp hmem
      exact nofun
  refine ⟨_, run_overtakenSchedule, ⟨_, rfl, rfl⟩, ⟨_, rfl, rfl⟩, ?_, fun h => ?_⟩
  · rintro k ⟨worker, hworker, hconn⟩
    exact hlost k worker hworker hconn
  · rcases h 0 (by decide) with ⟨k, ⟨worker, hworker, hconn⟩, _⟩ | hwaits
    · exact hlost k worker hworker hconn
    · exact absurd hwaits.slot (by decide)

end StudyLinuxKernel.Socket.ThreadServer
