import Mathlib.Logic.Function.Basic
import StudyLinuxKernel.Library.PartialStep
import StudyLinuxKernel.Socket.AcceptedSet

namespace StudyLinuxKernel.Socket.ProcessServer

open StudyLinuxKernel.Library.PartialStep
open StudyLinuxKernel.Socket.AcceptedSet (update_eq_some_iff)

/-- The connection that is open under each number, in one process. -/
abbrev Table := Nat → Option Nat

def Table.Holds (table : Table) (conn : Nat) : Prop := ∃ fd, table fd = some conn

/-- `process_connection` ends with `close(sock)`, and then the child exits. -/
inductive ChildPlace where
  | serving
  | exiting
  | exited
  deriving DecidableEq

/-- A child; `conn` is the connection that was open under its `sock` as it was
forked. -/
structure Child where
  sock : Nat
  conn : Option Nat
  table : Table
  place : ChildPlace

/-- Where the loop of `main` is. -/
inductive Place where
  | accepting
  | forking (sockClient : Nat)
  deriving DecidableEq

structure System where
  table : Table
  nextConn : Nat
  place : Place
  children : List Child

def System.start : System :=
  { table := fun _ => none, nextConn := 0, place := .accepting, children := [] }

/-- `fd` is the result of `accept`, `none` for -1; `ok` is false where `fork`
returns -1. -/
inductive Action where
  | accept (fd : Option Nat)
  | fork (ok : Bool)
  | childClose (k : Nat)
  | childExit (k : Nat)

/-- The child gets a copy of what is open in the parent. -/
def forked (s : System) (sockClient : Nat) : Child :=
  { sock := sockClient, conn := s.table sockClient, table := s.table, place := .serving }

def childStep (child : Child) : Action → Option Child
  | .childClose _ =>
      match child.place with
      | .serving => some { child with
          table := Function.update child.table child.sock none
          place := .exiting }
      | _ => none
  | .childExit _ =>
      match child.place with
      | .exiting => some { child with table := fun _ => none, place := .exited }
      | _ => none
  | _ => none

def stepOfChild (s : System) (k : Nat) (action : Action) : Option System := do
  let child ← s.children[k]?
  let child ← childStep child action
  some { s with children := s.children.set k child }

def step (s : System) (action : Action) : Option System :=
  match action with
  | .accept fd =>
      match s.place, fd with
      | .accepting, none => some s
      | .accepting, some fd =>
          if s.table fd = none then
            some { s with
              table := Function.update s.table fd (some s.nextConn)
              nextConn := s.nextConn + 1
              place := .forking fd }
          else none
      | .forking _, _ => none
  | .fork ok =>
      match s.place with
      -- The parent goes back to `accept` and does not close the descriptor.
      | .forking sockClient => some { s with
          place := .accepting
          children := if ok then s.children ++ [forked s sockClient] else s.children }
      | .accepting => none
  | .childClose k => stepOfChild s k action
  | .childExit k => stepOfChild s k action

/-- The connection is open in the parent or in a child. -/
def System.Open (s : System) (conn : Nat) : Prop :=
  s.table.Holds conn ∨ ∃ child ∈ s.children, child.table.Holds conn

/-- A connection belongs to the child that serves it, and to nobody when this
child is gone. -/
structure Released (s : System) : Prop where
  exited : ∀ child ∈ s.children, child.place = .exited → ∀ conn, child.conn = some conn →
    ¬ s.Open conn
  serving : ∀ (k : Nat) child, s.children[k]? = some child → child.place = .serving →
    ∀ conn, child.conn = some conn → ¬ s.table.Holds conn ∧
      ∀ (k' : Nat) other, s.children[k']? = some other → other.table.Holds conn → k' = k

/-- The step makes no child. -/
def ForksNone : Action → Prop
  | .fork ok => ok = false
  | _ => True

/-- The parent keeps every connection that it has accepted, and children are
made for no others. -/
structure Sound (s : System) : Prop where
  fresh : ∀ fd conn, s.table fd = some conn → conn < s.nextConn
  held : ∀ conn < s.nextConn, s.table.Holds conn
  forking : ∀ fd, s.place = .forking fd → ∃ conn, s.table fd = some conn
  served : ∀ child ∈ s.children, ∃ conn < s.nextConn, child.conn = some conn

inductive Moves (s : System) : Action → System → Prop where
  | refused : Moves s (.accept none) s
  | accepted (fd : Nat) : s.table fd = none → Moves s (.accept (some fd)) { s with
      table := Function.update s.table fd (some s.nextConn)
      nextConn := s.nextConn + 1
      place := .forking fd }
  | forked (fd : Nat) (ok : Bool) : s.place = .forking fd → Moves s (.fork ok) { s with
      place := .accepting
      children := if ok then s.children ++ [forked s fd] else s.children }
  | child (k : Nat) (action : Action) (before after : Child) : s.children[k]? = some before →
      childStep before action = some after →
      Moves s action { s with children := s.children.set k after }

theorem moves_of_stepOfChild {s s' : System} {k : Nat} {action : Action}
    (h : stepOfChild s k action = some s') : Moves s action s' := by
  obtain ⟨before, hbefore, hrest⟩ := Option.bind_eq_some_iff.mp h
  obtain ⟨after, hmoved, hresult⟩ := Option.bind_eq_some_iff.mp hrest
  obtain rfl := Option.some.inj hresult
  exact .child k action before after hbefore hmoved

theorem moves_of_step {s s' : System} {action : Action} (h : step s action = some s') :
    Moves s action s' := by
  cases action with
  | accept fd =>
      simp only [step] at h
      split at h
      · obtain rfl := Option.some.inj h
        exact .refused
      · rename_i fd _
        rw [Option.ite_none_right_eq_some] at h
        obtain ⟨hfree, hresult⟩ := h
        obtain rfl := Option.some.inj hresult
        exact .accepted fd hfree
      · cases h
  | fork ok =>
      simp only [step] at h
      split at h
      · rename_i fd hplace
        obtain rfl := Option.some.inj h
        exact .forked fd ok hplace
      · cases h
  | childClose k => exact moves_of_stepOfChild h
  | childExit k => exact moves_of_stepOfChild h

theorem conn_of_childStep {child child' : Child} {action : Action}
    (h : childStep child action = some child') : child'.conn = child.conn := by
  cases action with
  | childClose k =>
      rw [childStep] at h
      split at h
      · obtain rfl := Option.some.inj h
        rfl
      · cases h
  | childExit k =>
      rw [childStep] at h
      split at h
      · obtain rfl := Option.some.inj h
        rfl
      · cases h
  | accept fd => cases h
  | fork ok => cases h

section Steps

variable {s s' : System} (h : Sound s)
include h

theorem sound_child {k : Nat} {action : Action} {before after : Child}
    (hbefore : s.children[k]? = some before) (hmoved : childStep before action = some after) :
    Sound { s with children := s.children.set k after } := by
  refine ⟨h.fresh, h.held, h.forking, fun other hother => ?_⟩
  rcases List.mem_or_eq_of_mem_set hother with hold | rfl
  · exact h.served other hold
  · rw [conn_of_childStep hmoved]
    exact h.served before (List.mem_of_getElem? hbefore)

theorem sound_accept {fd : Nat} (hfree : s.table fd = none) :
    Sound { s with
      table := Function.update s.table fd (some s.nextConn)
      nextConn := s.nextConn + 1
      place := .forking fd } where
  fresh := by
    intro fd' conn hopen
    rcases update_eq_some_iff.mp hopen with ⟨_, hnew⟩ | ⟨_, hold⟩
    · obtain rfl := Option.some.inj hnew
      exact Nat.lt_succ_self _
    · exact Nat.lt_succ_of_lt (h.fresh fd' conn hold)
  held := by
    intro conn hconn
    rcases Nat.lt_succ_iff_lt_or_eq.mp hconn with hold | rfl
    · rcases h.held conn hold with ⟨fd', hopen⟩
      refine ⟨fd', update_eq_some_iff.mpr (Or.inr ⟨?_, hopen⟩)⟩
      rintro rfl
      rw [hfree] at hopen
      cases hopen
    · exact ⟨fd, Function.update_self _ _ _⟩
  forking := by
    rintro fd' ⟨⟩
    exact ⟨s.nextConn, Function.update_self _ _ _⟩
  served := by
    intro child hchild
    rcases h.served child hchild with ⟨conn, hlt, hconn⟩
    exact ⟨conn, Nat.lt_succ_of_lt hlt, hconn⟩

theorem sound_fork {fd : Nat} (hplace : s.place = .forking fd) (ok : Bool) :
    Sound { s with
      place := .accepting
      children := if ok then s.children ++ [forked s fd] else s.children } where
  fresh := h.fresh
  held := h.held
  forking := fun _ hforking => nomatch hforking
  served := by
    intro child hchild
    cases ok with
    | false => exact h.served child hchild
    | true =>
        rcases List.mem_append.mp hchild with hold | hnew
        · exact h.served child hold
        · obtain rfl := List.mem_singleton.mp hnew
          rcases h.forking fd hplace with ⟨conn, hopen⟩
          exact ⟨conn, h.fresh fd conn hopen, hopen⟩

theorem sound_step {action : Action} (hstep : step s action = some s') : Sound s' := by
  cases moves_of_step hstep with
  | refused => exact h
  | accepted fd hfree => exact sound_accept h hfree
  | forked fd ok hplace => exact sound_fork h hplace ok
  | child k action before after hbefore hmoved => exact sound_child h hbefore hmoved

theorem forksNone_of_released {action : Action} (hstep : step s action = some s')
    (hreleased : Released s') : ForksNone action := by
  have hsound : Sound s' := sound_step h hstep
  cases moves_of_step hstep with
  | refused => trivial
  | accepted fd hfree => trivial
  | forked fd ok hplace =>
      cases ok with
      | false => rfl
      | true =>
          have hlast : (s.children ++ [forked s fd])[s.children.length]? =
              some (forked s fd) := List.getElem?_concat_length
          rcases h.forking fd hplace with ⟨conn, hopen⟩
          have halone := (hreleased.serving _ _ hlast rfl conn hopen).1
          exact absurd (hsound.held conn (h.fresh fd conn hopen)) halone
  | child k action before after hbefore hmoved =>
      cases action with
      | fork ok => cases hmoved
      | accept fd => trivial
      | childClose k => trivial
      | childExit k => trivial

end Steps

theorem sound_start : Sound .start where
  fresh := fun _ _ hopen => nomatch hopen
  held := fun _ hconn => absurd hconn (Nat.not_lt_zero _)
  forking := fun _ hforking => nomatch hforking
  served := fun _ hchild => absurd hchild List.not_mem_nil

theorem sound_of_run (actions : List Action) : EveryState step Sound .start actions :=
  @invariant _ _ step Sound .start sound_start (fun _ _ _ hs hstep => sound_step hs hstep) actions

theorem children_eq_nil_of_step {s s' : System} {action : Action} (h : s.children = [])
    (hcond : ForksNone action) (hstep : step s action = some s') : s'.children = [] := by
  cases moves_of_step hstep with
  | refused => exact h
  | accepted fd hfree => exact h
  | forked fd ok hplace =>
      obtain rfl : ok = false := hcond
      exact h
  | child k action before after hbefore hmoved =>
      rw [h] at hbefore
      cases hbefore

theorem released_of_children_eq_nil {s : System} (h : s.children = []) : Released s where
  exited := by
    intro child hchild
    rw [h] at hchild
    exact absurd hchild List.not_mem_nil
  serving := by
    intro k child hchild
    rw [h] at hchild
    cases hchild

/-- In a run of the server the connections are released if and only if no child
is ever made to serve one. -/
theorem released_iff (actions : List Action) :
    EveryState step Released .start actions ↔
      EveryStep step (fun _ action => ForksNone action) .start actions := by
  constructor
  · intro h visited action hvisited s s' hrun hstep
    exact forksNone_of_released ((sound_of_run visited).reached hrun) hstep
      (h _ hvisited s' (run_concat_eq_some.mpr ⟨s, hrun, hstep⟩))
  · intro h visited hvisited s hrun
    have hnone := @invariant_of_everyStep _ _ step (fun s => s.children = [])
      (fun _ action => ForksNone action) .start actions rfl
      (fun _ _ _ hs hcond hstep => children_eq_nil_of_step hs hcond hstep) h
    exact released_of_children_eq_nil (hnone visited hvisited s hrun)

/-- One connection, which is served and closed. -/
def servedSchedule : List Action := [.accept (some 4), .fork true, .childClose 0, .childExit 0]

/-- The child is gone, and the parent still has the connection open. -/
theorem connection_open_behind_child :
    ∃ s, run step .start servedSchedule = some s ∧
      (∃ child ∈ s.children, child.place = .exited ∧ child.conn = some 0) ∧
      s.table.Holds 0 ∧ ¬ Released s := by
  refine ⟨_, rfl, ⟨_, List.mem_cons_self, rfl, rfl⟩, ⟨4, rfl⟩, fun h => ?_⟩
  exact h.exited _ List.mem_cons_self rfl 0 rfl (Or.inl ⟨4, rfl⟩)

end StudyLinuxKernel.Socket.ProcessServer
