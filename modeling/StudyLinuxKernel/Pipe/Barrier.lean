import StudyLinuxKernel.Library.PartialStep

/-!
The synchronisation of a parent with its children in `multiprocess-sync.cpp` and
`pipe-multiprocess-sync.cpp`, which have the same `main`: the parent waits for
the end of a pipe whose write end the children have inherited.
-/

namespace StudyLinuxKernel.Pipe.Barrier

open StudyLinuxKernel.Library.PartialStep

/-- The ends of the pipe that a process has open. -/
structure Ends where
  read : Bool
  write : Bool

/-- What is left to a process that has exited. -/
def Ends.none : Ends := { read := false, write := false }

inductive ParentPlace where
  | forking (i : Nat)
  | closingWrite
  | reading
  | closingRead
  | printing
  | ready
  | exited

inductive ChildPlace where
  | closingRead
  | sleeping
  | closingWrite
  | exiting
  | exited

structure Child where
  place : ChildPlace
  ends : Ends

structure System where
  place : ParentPlace
  ends : Ends
  children : List Child
  pipe : List UInt8

/-- Behind the call of `pipe`. -/
def System.start : System :=
  { place := .forking 1, ends := { read := true, write := true }, children := [], pipe := [] }

/-- A call is told apart by its result where that is not determined: `ok` is
false where it returns -1. -/
inductive Action where
  | fork (ok : Bool)
  | endFor
  | closeWrite (ok : Bool)
  | read (ok : Bool)
  | closeRead (ok : Bool)
  | print
  | exit
  | childCloseRead (k : Nat) (ok : Bool)
  | childSleep (k : Nat)
  | childCloseWrite (k : Nat) (ok : Bool)
  | childExit (k : Nat)

/-- The processes that hold the write end. -/
def System.writers (s : System) : Nat :=
  ((s.ends :: s.children.map Child.ends).filter Ends.write).length

def System.exit (s : System) : System := { s with place := .exited, ends := .none }

def Child.exit (child : Child) : Child := { child with place := .exited, ends := .none }

/-- The steps of a child; they do not depend on the others. -/
def childStep (child : Child) : Action → Option Child
  | .childCloseRead _ ok =>
      match child.place with
      | .closingRead =>
          if ok then
            some { child with place := .sleeping, ends := { child.ends with read := false } }
          else some child.exit
      | _ => none
  | .childSleep _ =>
      match child.place with
      | .sleeping => some { child with place := .closingWrite }
      | _ => none
  | .childCloseWrite _ ok =>
      match child.place with
      | .closingWrite =>
          if ok then
            some { child with place := .exiting, ends := { child.ends with write := false } }
          else some child.exit
      | _ => none
  | .childExit _ =>
      match child.place with
      | .exiting => some child.exit
      | _ => none
  | _ => none

def stepOfChild (s : System) (k : Nat) (action : Action) : Option System := do
  let child ← s.children[k]?
  let child ← childStep child action
  some { s with children := s.children.set k child }

def step (argc : Nat) (s : System) (action : Action) : Option System :=
  match action with
  | .fork ok =>
      match s.place with
      | .forking i =>
          if i < argc then
            if ok then
              some { s with
                place := .forking (i + 1)
                children := s.children ++ [{ place := .closingRead, ends := s.ends }] }
            else some s.exit
          else none
      | _ => none
  | .endFor =>
      match s.place with
      | .forking i => if i < argc then none else some { s with place := .closingWrite }
      | _ => none
  | .closeWrite ok =>
      match s.place with
      | .closingWrite =>
          if ok then some { s with place := .reading, ends := { s.ends with write := false } }
          else some s.exit
      | _ => none
  | .read ok =>
      match s.place with
      | .reading =>
          if ok then
            match s.pipe with
            -- A byte is read, so that the result is not 0.
            | _ :: _ => some s.exit
            | [] => if s.writers = 0 then some { s with place := .closingRead } else none
          else some s.exit
      | _ => none
  | .closeRead ok =>
      match s.place with
      | .closingRead =>
          if ok then some { s with place := .printing, ends := { s.ends with read := false } }
          else some s.exit
      | _ => none
  | .print =>
      match s.place with
      | .printing => some { s with place := .ready }
      | _ => none
  | .exit =>
      match s.place with
      | .ready => some s.exit
      | _ => none
  | .childCloseRead k _ => stepOfChild s k action
  | .childSleep k => stepOfChild s k action
  | .childCloseWrite k _ => stepOfChild s k action
  | .childExit k => stepOfChild s k action

/-- The parent is out of the loop that forks. -/
def ParentPlace.Forked : ParentPlace → Prop
  | .forking _ => False
  | .exited => False
  | _ => True

/-- The read of the parent has returned 0. -/
def ParentPlace.Passed : ParentPlace → Prop
  | .closingRead => True
  | .printing => True
  | .ready => True
  | _ => False

/-- The child has closed the write end. -/
structure Closed (child : Child) : Prop where
  ends : child.ends.write = false
  place : child.place = .exiting ∨ child.place = .exited

/-- What the parent waits for has happened when it goes on, and the end of the
waiting is not held up. -/
structure Synchronised (argc : Nat) (s : System) : Prop where
  passed : s.place.Passed → s.children.length = argc - 1 ∧ ∀ child ∈ s.children, Closed child
  unblocked : (∀ child ∈ s.children, Closed child) → s.ends.write = false →
    s.writers = 0 ∧ (s.place = .reading →
      ∃ s', step argc s (.read true) = some s' ∧ s'.place = .closingRead)

structure Sound (argc : Nat) (s : System) : Prop where
  forking : ∀ i, s.place = .forking i → s.children.length + 1 = i ∧ s.children.length ≤ argc - 1
  forked : s.place.Forked → s.children.length = argc - 1
  pipe : s.pipe = []
  closed : ∀ child ∈ s.children, child.ends.write = false →
    child.place = .exiting ∨ child.place = .exited
  writes : ∀ i, s.place = .forking i → s.ends.write = true
  passed : s.place.Passed → ∀ child ∈ s.children, child.ends.write = false

/-- The steps, each with its guard.  All failures end in an exit. -/
inductive Moves (argc : Nat) (s : System) : Action → System → Prop where
  | forked (i : Nat) : s.place = .forking i → i < argc → Moves argc s (.fork true) { s with
      place := .forking (i + 1)
      children := s.children ++ [{ place := .closingRead, ends := s.ends }] }
  | endedFor (i : Nat) : s.place = .forking i → ¬ i < argc →
      Moves argc s .endFor { s with place := .closingWrite }
  | closedWrite : s.place = .closingWrite → Moves argc s (.closeWrite true) { s with
      place := .reading, ends := { s.ends with write := false } }
  | readEnd : s.place = .reading → s.writers = 0 →
      Moves argc s (.read true) { s with place := .closingRead }
  | closedRead : s.place = .closingRead → Moves argc s (.closeRead true) { s with
      place := .printing, ends := { s.ends with read := false } }
  | printed : s.place = .printing → Moves argc s .print { s with place := .ready }
  | exited (action : Action) : Moves argc s action s.exit
  | child (k : Nat) (action : Action) (before after : Child) : s.children[k]? = some before →
      childStep before action = some after →
      Moves argc s action { s with children := s.children.set k after }

theorem moves_of_stepOfChild {argc k : Nat} {s s' : System} {action : Action}
    (h : stepOfChild s k action = some s') : Moves argc s action s' := by
  rcases Option.bind_eq_some_iff.mp h with ⟨before, hbefore, hrest⟩
  rcases Option.bind_eq_some_iff.mp hrest with ⟨after, hstep, hresult⟩
  obtain rfl := Option.some.inj hresult
  exact .child k action before after hbefore hstep

theorem moves_of_call {argc : Nat} {s s' after : System} {ok : Bool} (action : Bool → Action)
    (hok : Moves argc s (action true) after)
    (h : (if ok then some after else some s.exit) = some s') : Moves argc s (action ok) s' := by
  cases ok with
  | false =>
      obtain rfl := Option.some.inj h
      exact .exited _
  | true =>
      obtain rfl := Option.some.inj h
      exact hok

theorem moves_of_step {argc : Nat} {s s' : System} {action : Action}
    (h : step argc s action = some s') : Moves argc s action s' := by
  cases action with
  | fork ok =>
      rw [step] at h
      split at h
      · rename_i i hplace
        split at h
        · rename_i hmore
          exact moves_of_call .fork (.forked i hplace hmore) h
        · cases h
      · cases h
  | endFor =>
      rw [step] at h
      split at h
      · rename_i i hplace
        split at h
        · cases h
        · rename_i hlast
          obtain rfl := Option.some.inj h
          exact .endedFor i hplace hlast
      · cases h
  | closeWrite ok =>
      rw [step] at h
      split at h
      · rename_i hplace
        exact moves_of_call .closeWrite (.closedWrite hplace) h
      · cases h
  | read ok =>
      rw [step] at h
      split at h
      · rename_i hplace
        cases ok with
        | false =>
            obtain rfl := Option.some.inj h
            exact .exited _
        | true =>
            rw [if_pos rfl] at h
            split at h
            · obtain rfl := Option.some.inj h
              exact .exited _
            · split at h
              · rename_i hnone
                obtain rfl := Option.some.inj h
                exact .readEnd hplace hnone
              · cases h
      · cases h
  | closeRead ok =>
      rw [step] at h
      split at h
      · rename_i hplace
        exact moves_of_call .closeRead (.closedRead hplace) h
      · cases h
  | print =>
      rw [step] at h
      split at h
      · rename_i hplace
        obtain rfl := Option.some.inj h
        exact .printed hplace
      · cases h
  | exit =>
      rw [step] at h
      split at h
      · obtain rfl := Option.some.inj h
        exact .exited _
      · cases h
  | childCloseRead k ok => exact moves_of_stepOfChild h
  | childSleep k => exact moves_of_stepOfChild h
  | childCloseWrite k ok => exact moves_of_stepOfChild h
  | childExit k => exact moves_of_stepOfChild h

theorem writers_eq_zero_iff (s : System) :
    s.writers = 0 ↔ s.ends.write = false ∧ ∀ child ∈ s.children, child.ends.write = false := by
  rw [System.writers, List.length_eq_zero_iff, List.filter_eq_nil_iff, List.forall_mem_cons,
    List.forall_mem_map]
  simp only [Bool.not_eq_true]

theorem write_of_childStep {child child' : Child} {action : Action}
    (h : childStep child action = some child')
    (hclosed : child.ends.write = false → child.place = .exiting ∨ child.place = .exited) :
    (child.ends.write = false → child'.ends.write = false) ∧
      (child'.ends.write = false → child'.place = .exiting ∨ child'.place = .exited) := by
  have hwriting : child.place ≠ .exiting ∧ child.place ≠ .exited → child.ends.write ≠ false := by
    rintro ⟨hexiting, hexited⟩ hwrite
    rcases hclosed hwrite with hplace | hplace
    · exact hexiting hplace
    · exact hexited hplace
  unfold childStep at h
  split at h
  · split at h
    · rename_i hplace
      split at h
      · obtain rfl := Option.some.inj h
        refine ⟨id, fun hwrite => absurd hwrite (hwriting ?_)⟩
        rw [hplace]
        exact ⟨nofun, nofun⟩
      · obtain rfl := Option.some.inj h
        exact ⟨fun _ => rfl, fun _ => Or.inr rfl⟩
    · cases h
  · split at h
    · rename_i hplace
      obtain rfl := Option.some.inj h
      refine ⟨id, fun hwrite => absurd hwrite (hwriting ?_)⟩
      rw [hplace]
      exact ⟨nofun, nofun⟩
    · cases h
  · split at h
    · split at h
      · obtain rfl := Option.some.inj h
        exact ⟨fun _ => rfl, fun _ => Or.inl rfl⟩
      · obtain rfl := Option.some.inj h
        exact ⟨fun _ => rfl, fun _ => Or.inr rfl⟩
    · cases h
  · split at h
    · obtain rfl := Option.some.inj h
      exact ⟨fun _ => rfl, fun _ => Or.inr rfl⟩
    · cases h
  · cases h

theorem sound_child {argc k : Nat} {s : System} {action : Action} {before after : Child}
    (hs : Sound argc s) (hbefore : s.children[k]? = some before)
    (hstep : childStep before action = some after) :
    Sound argc { s with children := s.children.set k after } := by
  have hmem : before ∈ s.children := List.mem_of_getElem? hbefore
  rcases write_of_childStep hstep (hs.closed before hmem) with ⟨hkeeps, hclosed⟩
  have hlength : (s.children.set k after).length = s.children.length := List.length_set
  refine ⟨fun i hplace => ?_, fun hforked => hlength.trans (hs.forked hforked), hs.pipe,
    fun other hother hwrite => ?_, hs.writes, fun hpassed other hother => ?_⟩
  · rw [hlength]
    exact hs.forking i hplace
  · rcases List.mem_or_eq_of_mem_set hother with hold | rfl
    · exact hs.closed other hold hwrite
    · exact hclosed hwrite
  · rcases List.mem_or_eq_of_mem_set hother with hold | rfl
    · exact hs.passed hpassed other hold
    · exact hkeeps (hs.passed hpassed before hmem)

theorem sound_exit {argc : Nat} {s : System} (hs : Sound argc s) : Sound argc s.exit where
  forking := fun _ h => nomatch h
  forked := fun h => h.elim
  pipe := hs.pipe
  closed := hs.closed
  writes := fun _ h => nomatch h
  passed := fun h => h.elim

theorem Sound.move {argc : Nat} {s : System} (hs : Sound argc s)
    (hall : s.children.length = argc - 1) {place : ParentPlace} {ends : Ends}
    (hplace : ∀ i, place ≠ .forking i)
    (hpassed : place.Passed → ∀ child ∈ s.children, child.ends.write = false) :
    Sound argc { s with place := place, ends := ends } where
  forking := fun i h => absurd h (hplace i)
  forked := fun _ => hall
  pipe := hs.pipe
  closed := hs.closed
  writes := fun i h => absurd h (hplace i)
  passed := hpassed

theorem sound_forked {argc i : Nat} {s : System} (hs : Sound argc s)
    (hplace : s.place = .forking i) (hmore : i < argc) :
    Sound argc { s with
      place := .forking (i + 1)
      children := s.children ++ [{ place := .closingRead, ends := s.ends }] } := by
  rcases hs.forking i hplace with ⟨hcount, _⟩
  refine ⟨fun j hj => ?_, fun h => h.elim, hs.pipe, fun child hchild hwrite => ?_,
    fun _ _ => hs.writes i hplace, fun h => h.elim⟩
  · obtain rfl := ParentPlace.forking.inj hj
    rw [List.length_append, List.length_singleton]
    exact ⟨congrArg _ hcount, by omega⟩
  · rcases List.mem_append.mp hchild with hold | hnew
    · exact hs.closed child hold hwrite
    · rw [List.mem_singleton.mp hnew] at hwrite
      cases (hs.writes i hplace).symm.trans hwrite

theorem sound_step {argc : Nat} {s s' : System} {action : Action} (hs : Sound argc s)
    (h : step argc s action = some s') : Sound argc s' := by
  cases moves_of_step h with
  | forked i hplace hmore => exact sound_forked hs hplace hmore
  | endedFor i hplace hlast =>
      rcases hs.forking i hplace with ⟨hcount, hmost⟩
      have hall : s.children.length = argc - 1 := by omega
      exact hs.move hall (fun _ h => nomatch h) fun h => h.elim
  | closedWrite hplace =>
      have hall := hs.forked (by rw [hplace]; trivial)
      exact hs.move hall (fun _ h => nomatch h) fun h => h.elim
  | readEnd hplace hnone =>
      have hall := hs.forked (by rw [hplace]; trivial)
      exact hs.move hall (fun _ h => nomatch h) fun _ => ((writers_eq_zero_iff s).mp hnone).2
  | closedRead hplace =>
      have hall := hs.forked (by rw [hplace]; trivial)
      have hpassed := hs.passed (by rw [hplace]; trivial)
      exact hs.move hall (fun _ h => nomatch h) fun _ => hpassed
  | printed hplace =>
      have hall := hs.forked (by rw [hplace]; trivial)
      have hpassed := hs.passed (by rw [hplace]; trivial)
      exact hs.move hall (fun _ h => nomatch h) fun _ => hpassed
  | exited action => exact sound_exit hs
  | child k action before after hbefore hmoved => exact sound_child hs hbefore hmoved

theorem sound_start (argc : Nat) : Sound argc System.start where
  forking := fun _ h => ⟨ParentPlace.forking.inj h, Nat.zero_le _⟩
  forked := fun h => h.elim
  pipe := rfl
  closed := fun _ hchild => absurd hchild List.not_mem_nil
  writes := fun _ _ => rfl
  passed := fun h => h.elim

theorem Sound.synchronised {argc : Nat} {s : System} (hs : Sound argc s) : Synchronised argc s where
  passed := by
    intro hpassed
    have hforked : s.place.Forked := by
      cases hplace : s.place with
      | closingRead => trivial
      | printing => trivial
      | ready => trivial
      | _ =>
          rw [hplace] at hpassed
          exact hpassed.elim
    have hwrite := hs.passed hpassed
    exact ⟨hs.forked hforked, fun child hchild =>
      ⟨hwrite child hchild, hs.closed child hchild (hwrite child hchild)⟩⟩
  unblocked := by
    intro hclosed hparent
    have hnone : s.writers = 0 :=
      (writers_eq_zero_iff s).mpr ⟨hparent, fun child hchild => (hclosed child hchild).ends⟩
    refine ⟨hnone, fun hplace => ⟨{ s with place := .closingRead }, ?_, rfl⟩⟩
    rw [step, hplace, hs.pipe]
    exact if_pos hnone

/-- In every run the parent goes on only when all its children have been forked
and have closed the write end, and then it can. -/
theorem parent_waits (argc : Nat) (actions : List Action) :
    EveryState (step argc) (Synchronised argc) .start actions := by
  intro visited hvisited s hrun
  exact (invariant (sound_start argc) (fun _ _ _ => sound_step) actions visited hvisited s
    hrun).synchronised

end StudyLinuxKernel.Pipe.Barrier
