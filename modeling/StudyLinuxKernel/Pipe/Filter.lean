import StudyLinuxKernel.Libc.Text
import StudyLinuxKernel.Library.DescriptorTable
import StudyLinuxKernel.Library.PartialStep

/-!
`pipe-filter.cpp`: `ls` and `wc -l` at the two ends of a pipe.  What the programs
themselves do is to write `listing` to descriptor 1 and to read descriptor 0 to its
end.
-/

namespace StudyLinuxKernel.Pipe.Filter

open StudyLinuxKernel.Libc.Text
open StudyLinuxKernel.Library.DescriptorTable
open StudyLinuxKernel.Library.PartialStep

/-- What a descriptor stands for; `other` are the files that are open at the start. -/
inductive File where
  | other (id : Nat)
  | readEnd
  | writeEnd
  deriving DecidableEq

inductive Program where
  | ls
  | wc
  deriving DecidableEq

def STDIN_FILENO : Nat := 0

def STDOUT_FILENO : Nat := 1

/-- The end of the pipe that the program uses. -/
def Program.file : Program → File
  | .ls => .writeEnd
  | .wc => .readEnd

/-- The descriptor at which the program expects it. -/
def Program.target : Program → Nat
  | .ls => STDOUT_FILENO
  | .wc => STDIN_FILENO

structure Pfd where
  read : Nat
  write : Nat

def Pfd.own (pfd : Pfd) : Program → Nat
  | .ls => pfd.write
  | .wc => pfd.read

def Pfd.other (pfd : Pfd) : Program → Nat
  | .ls => pfd.read
  | .wc => pfd.write

inductive ParentPlace where
  | piping
  | forkingLs
  | forkingWc
  | closingRead
  | closingWrite
  | waiting
  | ended
  | failed
  deriving DecidableEq

inductive ChildPlace where
  | closingOther
  | duplicating
  | closingOwn
  | execing
  | running
  | ended
  | failed
  deriving DecidableEq

/-- `data` is what `ls` has written, and what `wc` has read. -/
structure Child where
  place : ChildPlace
  table : Table File
  data : Bytes

structure System where
  place : ParentPlace
  table : Table File
  pfd : Pfd
  children : Program → Option Child
  pipe : Bytes

/-- `open_` are the files that the shell has left open. -/
def System.start (open_ : Table Nat) : System where
  place := .piping
  table := open_.map .other
  pfd := { read := 0, write := 0 }
  children := fun _ => none
  pipe := []

def System.holds (s : System) (file : File) : Bool :=
  s.table.holds file ||
    [Program.ls, .wc].any fun program =>
      ((s.children program).map fun child => child.table.holds file).getD false

inductive ParentAction where
  | pipe (ok : Bool)
  | fork (ok : Bool)
  | close (ok : Bool)
  | wait

inductive ChildAction where
  | close (ok : Bool)
  | dup2 (ok : Bool)
  | exec (ok : Bool)
  | write (n : Nat)
  | sigpipe
  | read (n : Nat)
  | finish

inductive Action where
  | parent (action : ParentAction)
  | child (program : Program) (action : ChildAction)

def System.exit (s : System) (place : ParentPlace) : System :=
  { s with place := place, table := .empty }

def System.setChild (s : System) (program : Program) (child : Child) : System :=
  { s with children := Function.update s.children program (some child) }

def Child.exit (child : Child) (place : ChildPlace) : Child :=
  { child with place := place, table := .empty }

def System.fork (s : System) (program : Program) (place : ParentPlace) : System :=
  { s.setChild program { place := .closingOther, table := s.table, data := [] } with
    place := place }

def ChildPlace.Exited : ChildPlace → Bool
  | .ended => true
  | .failed => true
  | _ => false

def parentStep (s : System) : ParentAction → Option System
  | .pipe ok =>
      match s.place with
      | .piping =>
          if ok then
            let (read, table) := s.table.install .readEnd
            let (write, table) := table.install .writeEnd
            some { s with
              place := .forkingLs, table := table, pfd := { read := read, write := write } }
          else some (s.exit .failed)
      | _ => none
  | .fork ok =>
      match s.place with
      | .forkingLs => some (if ok then s.fork .ls .forkingWc else s.exit .failed)
      | .forkingWc => some (if ok then s.fork .wc .closingRead else s.exit .failed)
      | _ => none
  | .close ok =>
      match s.place with
      | .closingRead =>
          match if ok then s.table.close s.pfd.read else none with
          | some table => some { s with place := .closingWrite, table := table }
          | none => some (s.exit .failed)
      | .closingWrite =>
          match if ok then s.table.close s.pfd.write else none with
          | some table => some { s with place := .waiting, table := table }
          | none => some (s.exit .failed)
      | _ => none
  -- One of the children is enough.
  | .wait =>
      match s.place with
      | .waiting =>
          if [Program.ls, .wc].any fun program =>
              ((s.children program).map fun child => child.place.Exited).getD false then
            some (s.exit .ended)
          else none
      | _ => none

/-- The calls of `close` in front of `execlp`. -/
def closeEnd (ok : Bool) (pfd : Pfd) (program : Program) (child : Child) : Option Child :=
  match child.place with
  | .closingOther =>
      match if ok then child.table.close (pfd.other program) else none with
      | some table => some { child with
          place := if pfd.own program ≠ program.target then .duplicating else .execing
          table := table }
      | none => some (child.exit .failed)
  | .closingOwn =>
      match if ok then child.table.close (pfd.own program) else none with
      | some table => some { child with place := .execing, table := table }
      | none => some (child.exit .failed)
  | _ => none

/-- The call of `dup2`, of which a failure is only reported. -/
def redirect (ok : Bool) (pfd : Pfd) (program : Program) (child : Child) : Option Child :=
  match child.place with
  | .duplicating =>
      let table := if ok then child.table.dup2 (pfd.own program) program.target else none
      some { child with place := .closingOwn, table := table.getD child.table }
  | _ => none

/-- The program runs, and its standard input or output is its end of the pipe. -/
def Child.Connected (program : Program) (child : Child) : Prop :=
  child.place = .running ∧ child.table.entries program.target = some program.file

instance (program : Program) (child : Child) : Decidable (child.Connected program) :=
  inferInstanceAs (Decidable (_ ∧ _))

def childStep (listing : Bytes) (capacity : Nat) (s : System) (program : Program) (child : Child) :
    ChildAction → Option System
  | .close ok => (closeEnd ok s.pfd program child).map (s.setChild program)
  | .dup2 ok => (redirect ok s.pfd program child).map (s.setChild program)
  | .exec ok =>
      if child.place = .execing then
        some (s.setChild program (if ok then { child with place := .running }
          else child.exit .failed))
      else none
  | .write n =>
      let bytes := (listing.drop child.data.length).take n
      if program = .ls ∧ child.Connected .ls ∧ 0 < n ∧ child.data.length + n ≤ listing.length ∧
          s.pipe.length + n ≤ capacity ∧ s.holds .readEnd = true then
        some { s.setChild .ls { child with data := child.data ++ bytes } with
          pipe := s.pipe ++ bytes }
      else none
  | .sigpipe =>
      if program = .ls ∧ child.Connected .ls ∧ child.data.length < listing.length ∧
          s.holds .readEnd = false then
        some (s.setChild .ls (child.exit .failed))
      else none
  | .read n =>
      if program = .wc ∧ child.Connected .wc ∧ 0 < n ∧ n ≤ s.pipe.length then
        some { s.setChild .wc { child with data := child.data ++ s.pipe.take n } with
          pipe := s.pipe.drop n }
      else none
  | .finish =>
      match program with
      | .ls =>
          if child.Connected .ls ∧ child.data.length = listing.length then
            some (s.setChild .ls (child.exit .ended))
          else none
      | .wc =>
          if child.Connected .wc ∧ s.pipe = [] ∧ s.holds .writeEnd = false then
            some (s.setChild .wc (child.exit .ended))
          else none

def step (listing : Bytes) (capacity : Nat) (s : System) : Action → Option System
  | .parent action => parentStep s action
  | .child program action => do
      let child ← s.children program
      childStep listing capacity s program child action

/-- No call fails. -/
def Regular : Action → Prop
  | .parent (.pipe ok) => ok = true
  | .parent (.fork ok) => ok = true
  | .parent (.close ok) => ok = true
  | .child _ (.close ok) => ok = true
  | .child _ (.dup2 ok) => ok = true
  | .child _ (.exec ok) => ok = true
  | _ => True

/-- No call of `dup2` fails. -/
def Redirecting : Action → Prop
  | .child _ (.dup2 ok) => ok = true
  | _ => True

/-- The two descriptors of the pipe were free. -/
structure Fresh (open_ : Table Nat) (pfd : Pfd) : Prop where
  ne : pfd.read ≠ pfd.write
  read : open_.entries pfd.read = none
  write : open_.entries pfd.write = none

def base (open_ : Table Nat) : Nat → Option File := (open_.map File.other).entries

/-- What the children inherit. -/
def piped (open_ : Table Nat) (pfd : Pfd) : Nat → Option File :=
  Function.update (Function.update (base open_) pfd.read (some .readEnd)) pfd.write
    (some .writeEnd)

def parentEntries (open_ : Table Nat) (pfd : Pfd) : ParentPlace → Nat → Option File
  | .piping => base open_
  | .forkingLs => piped open_ pfd
  | .forkingWc => piped open_ pfd
  | .closingRead => piped open_ pfd
  | .closingWrite => Function.update (piped open_ pfd) pfd.read none
  | .waiting => base open_
  | .ended => fun _ => none
  | .failed => fun _ => none

def childEntries (open_ : Table Nat) (pfd : Pfd) (program : Program) :
    ChildPlace → Nat → Option File
  | .closingOther => piped open_ pfd
  | .duplicating => Function.update (piped open_ pfd) (pfd.other program) none
  | .closingOwn =>
      Function.update (Function.update (piped open_ pfd) (pfd.other program) none)
        program.target (some program.file)
  | .execing => Function.update (base open_) program.target (some program.file)
  | .running => Function.update (base open_) program.target (some program.file)
  | .ended => fun _ => none
  | .failed => fun _ => none

variable {open_ : Table Nat} {pfd : Pfd} {program : Program} {listing : Bytes} {capacity : Nat}
  {s s' : System} {child child' : Child}

theorem base_ne (open_ : Table Nat) (fd : Nat) (program : Program) :
    base open_ fd ≠ some program.file := by
  change (open_.entries fd).map File.other ≠ _
  rcases open_.entries fd with - | id
  · nofun
  · cases program <;> nofun

theorem base_eq_none {fd : Nat} (h : open_.entries fd = none) : base open_ fd = none :=
  congrArg (Option.map File.other) h

theorem Fresh.own_ne_other (h : Fresh open_ pfd) (program : Program) :
    pfd.own program ≠ pfd.other program := by
  cases program with
  | ls => exact h.ne.symm
  | wc => exact h.ne

theorem Fresh.own (h : Fresh open_ pfd) (program : Program) :
    base open_ (pfd.own program) = none := by
  cases program with
  | ls => exact base_eq_none h.write
  | wc => exact base_eq_none h.read

theorem Fresh.other (h : Fresh open_ pfd) (program : Program) :
    base open_ (pfd.other program) = none := by
  cases program with
  | ls => exact base_eq_none h.read
  | wc => exact base_eq_none h.write

theorem piped_own (h : Fresh open_ pfd) (program : Program) :
    piped open_ pfd (pfd.own program) = some program.file := by
  cases program with
  | ls => exact Function.update_self _ _ _
  | wc => exact (Function.update_of_ne h.ne _ _).trans (Function.update_self _ _ _)

theorem piped_other (h : Fresh open_ pfd) (program : Program) :
    ∃ file, piped open_ pfd (pfd.other program) = some file := by
  cases program with
  | ls => exact ⟨_, piped_own h .wc⟩
  | wc => exact ⟨_, piped_own h .ls⟩

theorem piped_of_ne {fd : Nat} (hown : fd ≠ pfd.own program) (hother : fd ≠ pfd.other program) :
    piped open_ pfd fd = base open_ fd := by
  cases program with
  | ls =>
      exact (Function.update_of_ne hown _ _).trans (Function.update_of_ne hother _ _)
  | wc =>
      exact (Function.update_of_ne hother _ _).trans (Function.update_of_ne hown _ _)

theorem update_other (h : Fresh open_ pfd) (program : Program) :
    Function.update (piped open_ pfd) (pfd.other program) none =
      Function.update (base open_) (pfd.own program) (some program.file) := by
  funext fd
  rcases Decidable.em (fd = pfd.other program) with rfl | hother
  · rw [Function.update_self, Function.update_of_ne (h.own_ne_other program).symm,
      h.other program]
  · rw [Function.update_of_ne hother]
    rcases Decidable.em (fd = pfd.own program) with rfl | hown
    · rw [Function.update_self, piped_own h program]
    · rw [Function.update_of_ne hown, piped_of_ne hown hother]

theorem update_both (h : Fresh open_ pfd) :
    Function.update (Function.update (piped open_ pfd) pfd.read none) pfd.write none =
      base open_ := by
  have hread : Function.update (piped open_ pfd) pfd.read none =
      Function.update (base open_) pfd.write (some .writeEnd) := update_other h .ls
  have hwrite : none = base open_ pfd.write := (h.own .ls).symm
  rw [hread, Function.update_idem, hwrite, Function.update_eq_self]

theorem update_own (h : Fresh open_ pfd) (htarget : pfd.own program ≠ program.target) :
    Function.update
        (Function.update (Function.update (piped open_ pfd) (pfd.other program) none)
          program.target (some program.file))
        (pfd.own program) none =
      Function.update (base open_) program.target (some program.file) := by
  rw [update_other h]
  funext fd
  rcases Decidable.em (fd = pfd.own program) with rfl | hown
  · rw [Function.update_self, Function.update_of_ne htarget, h.own program]
  · rw [Function.update_of_ne hown]
    rcases Decidable.em (fd = program.target) with rfl | htarget'
    · rw [Function.update_self, Function.update_self]
    · rw [Function.update_of_ne htarget', Function.update_of_ne htarget',
        Function.update_of_ne hown]

def ChildPlace.rank : ChildPlace → Nat
  | .closingOther => 1
  | .duplicating => 2
  | .closingOwn => 3
  | .execing => 4
  | .running => 5
  | .ended => 6
  | .failed => 6

/-- What a child has open; the calls of `dup2` and of the second `close` are made
only where the end is not at its place already. -/
structure Inherits (open_ : Table Nat) (pfd : Pfd) (program : Program) (child : Child) : Prop where
  entries : child.table.entries = childEntries open_ pfd program child.place
  moving : child.place = .duplicating ∨ child.place = .closingOwn →
    pfd.own program ≠ program.target

/-- What a call in front of `execlp` does to the child. -/
structure Prepared (open_ : Table Nat) (pfd : Pfd) (program : Program) (ok : Bool)
    (child child' : Child) : Prop where
  inherits : Inherits open_ pfd program child'
  early : child.place.rank < 4
  later : child.place.rank < child'.place.rank
  going : child'.place.rank ≤ 4 ∨ ok = false ∧ child'.place = .failed
  data : child'.data = child.data

theorem Prepared.not_failed (h : Prepared open_ pfd program true child child') :
    child'.place ≠ .failed := by
  intro hfailed
  rcases h.going with hrank | ⟨hfalse, _⟩
  · rw [hfailed] at hrank
    exact absurd hrank (by decide)
  · cases hfalse

theorem inherits_exit {place : ChildPlace} (hplace : place = .ended ∨ place = .failed)
    (child : Child) : Inherits open_ pfd program (child.exit place) := by
  rcases hplace with rfl | rfl
  · exact ⟨rfl, by rintro (hplace | hplace) <;> cases hplace⟩
  · exact ⟨rfl, by rintro (hplace | hplace) <;> cases hplace⟩

theorem prepared_of_failed {child : Child} (hplace : child.place.rank < 4) :
    Prepared open_ pfd program false child (child.exit .failed) where
  inherits := inherits_exit (Or.inr rfl) child
  early := hplace
  later := Nat.lt_of_lt_of_le hplace (Nat.le_of_ble_eq_true rfl : 4 ≤ ChildPlace.failed.rank)
  going := Or.inr ⟨rfl, rfl⟩
  data := rfl

theorem prepared_of_closeEnd {ok : Bool} (hfresh : Fresh open_ pfd)
    (h : Inherits open_ pfd program child)
    (hclose : closeEnd ok pfd program child = some child') :
    Prepared open_ pfd program ok child child' := by
  have hentries := h.entries
  rw [closeEnd] at hclose
  split at hclose
  · rename_i hchild
    rw [hchild] at hentries
    have hrank : child.place.rank = 1 := by rw [hchild]; rfl
    cases ok with
    | false =>
        obtain rfl := Option.some.inj hclose
        exact prepared_of_failed (hrank ▸ by decide)
    | true =>
        rcases piped_other hfresh program with ⟨file, hfile⟩
        rcases Table.entries_close ((congrFun hentries _).trans hfile) with ⟨table, hopen, htable⟩
        have hupdate : table.entries =
            Function.update (piped open_ pfd) (pfd.other program) none := by
          rw [htable, hentries]
          rfl
        rw [if_pos rfl, hopen] at hclose
        obtain rfl := Option.some.inj hclose
        rcases Decidable.em (pfd.own program ≠ program.target) with hmove | hthere
        · rw [if_pos hmove]
          exact ⟨⟨hupdate, fun _ => hmove⟩, hrank ▸ by decide, hrank ▸ Nat.le_refl 2,
            Or.inl (Nat.le_of_ble_eq_true rfl), rfl⟩
        · rw [if_neg hthere]
          refine ⟨⟨?_, nofun⟩, hrank ▸ by decide, hrank ▸ Nat.le_of_ble_eq_true rfl,
            Or.inl (Nat.le_refl 4), rfl⟩
          change table.entries = Function.update (base open_) program.target _
          rw [hupdate, update_other hfresh, not_not.mp hthere]
  · rename_i hchild
    rw [hchild] at hentries
    have hrank : child.place.rank = 3 := by rw [hchild]; rfl
    cases ok with
    | false =>
        obtain rfl := Option.some.inj hclose
        exact prepared_of_failed (hrank ▸ by decide)
    | true =>
        have hmove := h.moving (Or.inr hchild)
        have hown : child.table.entries (pfd.own program) = some program.file := by
          rw [hentries]
          exact (Function.update_of_ne hmove _ _).trans
            ((Function.update_of_ne (hfresh.own_ne_other program) _ _).trans
              (piped_own hfresh program))
        rcases Table.entries_close hown with ⟨table, hopen, htable⟩
        rw [if_pos rfl, hopen] at hclose
        obtain rfl := Option.some.inj hclose
        refine ⟨⟨?_, nofun⟩, hrank ▸ by decide, hrank ▸ Nat.le_refl 4, Or.inl (Nat.le_refl 4), rfl⟩
        change table.entries = _
        rw [htable, hentries]
        exact update_own hfresh hmove
  · cases hclose

theorem prepared_of_redirect (hfresh : Fresh open_ pfd) (h : Inherits open_ pfd program child)
    (hredirect : redirect true pfd program child = some child') :
    Prepared open_ pfd program true child child' := by
  have hentries := h.entries
  rw [redirect] at hredirect
  split at hredirect
  · rename_i hchild
    rw [hchild] at hentries
    have hrank : child.place.rank = 2 := by rw [hchild]; rfl
    have hmove := h.moving (Or.inl hchild)
    have hown : child.table.entries (pfd.own program) = some program.file := by
      rw [hentries]
      exact (Function.update_of_ne (hfresh.own_ne_other program) _ _).trans
        (piped_own hfresh program)
    rcases Table.entries_dup2 hown hmove with ⟨table, hdup, htable⟩
    rw [if_pos rfl, hdup] at hredirect
    obtain rfl := Option.some.inj hredirect
    refine ⟨⟨?_, fun _ => hmove⟩, hrank ▸ by decide, hrank ▸ Nat.le_refl 3,
      Or.inl (Nat.le_of_ble_eq_true rfl), rfl⟩
    change table.entries = _
    rw [htable, hentries]
    rfl
  · cases hredirect

theorem exited_of_rank {place : ChildPlace} (h : place.rank < 6) : place.Exited = false := by
  cases place with
  | ended => exact absurd h (Nat.lt_irrefl 6)
  | failed => exact absurd h (Nat.lt_irrefl 6)
  | _ => rfl

theorem Inherits.own (hfresh : Fresh open_ pfd) (h : Inherits open_ pfd program child)
    (hlive : child.place.rank < 6) : child.table.holds program.file = true := by
  rw [Table.holds_iff, h.entries]
  rcases hplace : child.place with - | - | - | - | - | - | -
  all_goals rw [hplace] at hlive
  · exact ⟨_, piped_own hfresh program⟩
  · exact ⟨_, (Function.update_of_ne (hfresh.own_ne_other program) _ _).trans
      (piped_own hfresh program)⟩
  · exact ⟨program.target, Function.update_self _ _ _⟩
  · exact ⟨program.target, Function.update_self _ _ _⟩
  · exact ⟨program.target, Function.update_self _ _ _⟩
  all_goals exact absurd hlive (by decide)

def System.data (s : System) (program : Program) : Bytes :=
  ((s.children program).map Child.data).getD []

/-- Both children have been forked. -/
def ParentPlace.Forked : ParentPlace → Prop
  | .closingRead => True
  | .closingWrite => True
  | .waiting => True
  | .ended => True
  | _ => False

/-- Where the processes are, and what they have open. -/
structure Placed (open_ : Table Nat) (s : System) : Prop where
  fresh : Fresh open_ s.pfd ∨
    (∀ program, s.children program = none) ∧ (s.place = .piping ∨ s.place = .failed)
  table : s.table.entries = parentEntries open_ s.pfd s.place
  inherits : ∀ program child, s.children program = some child →
    Inherits open_ s.pfd program child
  unforked : s.place = .piping ∨ s.place = .forkingLs → ∀ program, s.children program = none
  forkedLs : s.place = .forkingWc → s.children .wc = none ∧ s.children .ls ≠ none
  forked : s.place.Forked → ∀ program, s.children program ≠ none

/-- What has gone through the pipe. -/
structure Flows (listing : Bytes) (s : System) : Prop where
  conserved : s.data .ls = s.data .wc ++ s.pipe
  written : s.data .ls = listing.take (s.data .ls).length
  lsEnded : ∀ child, s.children .ls = some child → child.place = .ended → child.data = listing
  wcEnded : ∀ child, s.children .wc = some child → child.place = .ended →
    s.pipe = [] ∧ ∀ ls, s.children .ls = some ls → ls.place.Exited = true

theorem placed_start (open_ : Table Nat) : Placed open_ (.start open_) where
  fresh := Or.inr ⟨fun _ => rfl, Or.inl rfl⟩
  table := rfl
  inherits := nofun
  unforked := fun _ _ => rfl
  forkedLs := nofun
  forked := nofun

theorem flows_start (open_ : Table Nat) (listing : Bytes) : Flows listing (.start open_) where
  conserved := rfl
  written := rfl
  lsEnded := nofun
  wcEnded := nofun

def ParentPlace.rank : ParentPlace → Nat
  | .piping => 0
  | .forkingLs => 1
  | .forkingWc => 2
  | .closingRead => 3
  | .closingWrite => 4
  | .waiting => 5
  | .ended => 6
  | .failed => 6

/-- The steps of the parent, each with its guard. -/
inductive ParentMoves (s : System) : ParentAction → System → Prop where
  | piped : s.place = .piping → ParentMoves s (.pipe true) { s with
      place := .forkingLs
      table := ((s.table.install .readEnd).2.install .writeEnd).2
      pfd := {
        read := (s.table.install .readEnd).1
        write := ((s.table.install .readEnd).2.install .writeEnd).1 } }
  | forkedLs : s.place = .forkingLs → ParentMoves s (.fork true) (s.fork .ls .forkingWc)
  | forkedWc : s.place = .forkingWc → ParentMoves s (.fork true) (s.fork .wc .closingRead)
  | closedRead (table : Table File) : s.place = .closingRead →
      s.table.close s.pfd.read = some table →
      ParentMoves s (.close true) { s with place := .closingWrite, table := table }
  | closedWrite (table : Table File) : s.place = .closingWrite →
      s.table.close s.pfd.write = some table →
      ParentMoves s (.close true) { s with place := .waiting, table := table }
  | waited (program : Program) (child : Child) : s.place = .waiting →
      s.children program = some child → child.place.Exited = true →
      ParentMoves s .wait (s.exit .ended)
  | failed (action : ParentAction) : s.place.rank < 5 →
      ¬ Regular (.parent action) ∨
        s.place = .closingRead ∧ s.table.close s.pfd.read = none ∨
        s.place = .closingWrite ∧ s.table.close s.pfd.write = none →
      ParentMoves s action (s.exit .failed)

theorem moves_of_parentStep {action : ParentAction} (h : parentStep s action = some s') :
    ParentMoves s action s' := by
  unfold parentStep at h
  split at h
  · split at h
    · rename_i ok _ hplace
      cases ok with
      | true =>
          obtain rfl := Option.some.inj h
          exact .piped hplace
      | false =>
          obtain rfl := Option.some.inj h
          exact .failed _ (by rw [hplace]; decide) (Or.inl nofun)
    · cases h
  · split at h
    · rename_i ok _ hplace
      cases ok with
      | true =>
          obtain rfl := Option.some.inj h
          exact .forkedLs hplace
      | false =>
          obtain rfl := Option.some.inj h
          exact .failed _ (by rw [hplace]; decide) (Or.inl nofun)
    · rename_i ok _ hplace
      cases ok with
      | true =>
          obtain rfl := Option.some.inj h
          exact .forkedWc hplace
      | false =>
          obtain rfl := Option.some.inj h
          exact .failed _ (by rw [hplace]; decide) (Or.inl nofun)
    · cases h
  · split at h
    · rename_i ok _ hplace
      cases ok with
      | true =>
          rw [if_pos rfl] at h
          split at h
          · rename_i table hclose
            obtain rfl := Option.some.inj h
            exact .closedRead table hplace hclose
          · rename_i hclose
            obtain rfl := Option.some.inj h
            exact .failed _ (by rw [hplace]; decide) (Or.inr (Or.inl ⟨hplace, hclose⟩))
      | false =>
          obtain rfl := Option.some.inj h
          exact .failed _ (by rw [hplace]; decide) (Or.inl nofun)
    · rename_i ok _ hplace
      cases ok with
      | true =>
          rw [if_pos rfl] at h
          split at h
          · rename_i table hclose
            obtain rfl := Option.some.inj h
            exact .closedWrite table hplace hclose
          · rename_i hclose
            obtain rfl := Option.some.inj h
            exact .failed _ (by rw [hplace]; decide) (Or.inr (Or.inr ⟨hplace, hclose⟩))
      | false =>
          obtain rfl := Option.some.inj h
          exact .failed _ (by rw [hplace]; decide) (Or.inl nofun)
    · cases h
  · split at h
    · rename_i hplace
      rcases Option.ite_none_right_eq_some.mp h with ⟨hany, ⟨⟩⟩
      rcases List.any_eq_true.mp hany with ⟨program, _, hexited⟩
      rcases hchild : s.children program with - | child
      · rw [hchild] at hexited
        cases hexited
      · rw [hchild] at hexited
        exact .waited program child hplace hchild hexited
    · cases h

/-- The steps of a child, each with its guard. -/
inductive ChildMoves (listing : Bytes) (s : System) (child : Child) :
    Program → ChildAction → System → Prop where
  | closed (program : Program) (ok : Bool) (child' : Child) :
      closeEnd ok s.pfd program child = some child' →
      ChildMoves listing s child program (.close ok) (s.setChild program child')
  | redirected (program : Program) (ok : Bool) (child' : Child) :
      redirect ok s.pfd program child = some child' →
      ChildMoves listing s child program (.dup2 ok) (s.setChild program child')
  | execed (program : Program) : child.place = .execing →
      ChildMoves listing s child program (.exec true)
        (s.setChild program { child with place := .running })
  | execFailed (program : Program) : child.place = .execing →
      ChildMoves listing s child program (.exec false) (s.setChild program (child.exit .failed))
  | wrote (n : Nat) : child.Connected .ls → 0 < n → child.data.length + n ≤ listing.length →
      ChildMoves listing s child .ls (.write n)
        { s.setChild .ls { child with
            data := child.data ++ (listing.drop child.data.length).take n } with
          pipe := s.pipe ++ (listing.drop child.data.length).take n }
  | broken : child.Connected .ls → s.holds .readEnd = false →
      ChildMoves listing s child .ls .sigpipe (s.setChild .ls (child.exit .failed))
  | read (n : Nat) : child.Connected .wc → 0 < n → n ≤ s.pipe.length →
      ChildMoves listing s child .wc (.read n)
        { s.setChild .wc { child with data := child.data ++ s.pipe.take n } with
          pipe := s.pipe.drop n }
  | lsEnded : child.Connected .ls → child.data.length = listing.length →
      ChildMoves listing s child .ls .finish (s.setChild .ls (child.exit .ended))
  | wcEnded : child.Connected .wc → s.pipe = [] → s.holds .writeEnd = false →
      ChildMoves listing s child .wc .finish (s.setChild .wc (child.exit .ended))

theorem moves_of_childStep {action : ChildAction}
    (h : childStep listing capacity s program child action = some s') :
    ChildMoves listing s child program action s' := by
  unfold childStep at h
  split at h
  · rcases Option.map_eq_some_iff.mp h with ⟨child', hclose, rfl⟩
    exact .closed program _ child' hclose
  · rcases Option.map_eq_some_iff.mp h with ⟨child', hredirect, rfl⟩
    exact .redirected program _ child' hredirect
  · rename_i ok
    rcases Option.ite_none_right_eq_some.mp h with ⟨hplace, ⟨⟩⟩
    cases ok with
    | true => exact .execed program hplace
    | false => exact .execFailed program hplace
  · rcases Option.ite_none_right_eq_some.mp h with ⟨⟨rfl, hconnected, hpos, hle, _, _⟩, ⟨⟩⟩
    exact .wrote _ hconnected hpos hle
  · rcases Option.ite_none_right_eq_some.mp h with ⟨⟨rfl, hconnected, _, hreaders⟩, ⟨⟩⟩
    exact .broken hconnected hreaders
  · rcases Option.ite_none_right_eq_some.mp h with ⟨⟨rfl, hconnected, hpos, hle⟩, ⟨⟩⟩
    exact .read _ hconnected hpos hle
  · split at h
    · rcases Option.ite_none_right_eq_some.mp h with ⟨⟨hconnected, hlength⟩, ⟨⟩⟩
      exact .lsEnded hconnected hlength
    · rcases Option.ite_none_right_eq_some.mp h with ⟨⟨hconnected, hpipe, hwriters⟩, ⟨⟩⟩
      exact .wcEnded hconnected hpipe hwriters

theorem Placed.fresh_of_child (h : Placed open_ s)
    (hchild : s.children program = some child) : Fresh open_ s.pfd := by
  rcases h.fresh with hfresh | ⟨hnone, _⟩
  · exact hfresh
  · rw [hnone] at hchild
    cases hchild

theorem Placed.exit (h : Placed open_ s) {place : ParentPlace}
    (hplace : place = .ended ∧ s.place = .waiting ∨ place = .failed) :
    Placed open_ (s.exit place) :=
  { h with
    fresh := by
      refine h.fresh.imp_right fun hnone => ⟨hnone.1, Or.inr ?_⟩
      rcases hplace with ⟨_, hwaiting⟩ | hfailed
      · rcases hnone.2 with hplace | hplace
        · rw [hplace] at hwaiting
          cases hwaiting
        · rw [hplace] at hwaiting
          cases hwaiting
      · exact hfailed
    table := by
      rcases hplace with ⟨rfl, _⟩ | rfl
      · rfl
      · rfl
    unforked := by
      rcases hplace with ⟨rfl, _⟩ | rfl
      · rintro (hplace | hplace) <;> cases hplace
      · rintro (hplace | hplace) <;> cases hplace
    forkedLs := by
      rcases hplace with ⟨rfl, _⟩ | rfl
      · nofun
      · nofun
    forked := by
      rcases hplace with ⟨rfl, hwaiting⟩ | rfl
      · exact fun _ => h.forked (hwaiting ▸ trivial)
      · exact fun hforked => hforked.elim }

theorem Placed.pipe (h : Placed open_ s) (hplace : s.place = .piping) :
    Placed open_ { s with
      place := .forkingLs
      table := ((s.table.install .readEnd).2.install .writeEnd).2
      pfd := {
        read := (s.table.install .readEnd).1
        write := ((s.table.install .readEnd).2.install .writeEnd).1 } } := by
  have htable := h.table
  rw [hplace] at htable
  have hnone := h.unforked (Or.inl hplace)
  have hbase : ∀ fd, s.table.entries fd = none → open_.entries fd = none := by
    intro fd hfd
    rw [htable] at hfd
    exact Option.map_eq_none_iff.mp hfd
  have hread := Table.lowestFree_free s.table
  have hwrite := Table.lowestFree_free (s.table.install .readEnd).2
  have hne : s.table.lowestFree ≠ (s.table.install .readEnd).2.lowestFree := by
    intro heq
    rw [← heq] at hwrite
    cases (Function.update_self _ _ _).symm.trans hwrite
  exact { h with
    fresh := Or.inl ⟨hne, hbase _ hread,
      hbase _ ((Function.update_of_ne hne.symm _ _).symm.trans hwrite)⟩
    table := by
      change Function.update (Function.update s.table.entries _ _) _ _ = piped _ _
      rw [htable]
      rfl
    inherits := fun program child hchild => by
      rw [hnone] at hchild
      cases hchild
    unforked := fun _ => hnone
    forkedLs := nofun
    forked := fun hforked => hforked.elim }

@[simp] theorem children_setChild_self (s : System) (program : Program) (child : Child) :
    (s.setChild program child).children program = some child := Function.update_self _ _ _

theorem children_setChild_of_ne {p q : Program} (h : q ≠ p) (s : System) (child : Child) :
    (s.setChild p child).children q = s.children q := Function.update_of_ne h _ _

theorem data_setChild_self (s : System) (program : Program) (child : Child) :
    (s.setChild program child).data program = child.data := by
  rw [System.data, children_setChild_self]
  rfl

theorem data_setChild_of_ne {p q : Program} (h : q ≠ p) (s : System) (child : Child) :
    (s.setChild p child).data q = s.data q := by
  rw [System.data, System.data, children_setChild_of_ne h]

theorem children_setChild {p q : Program} {s : System} {child child' : Child}
    (h : (s.setChild p child).children q = some child') :
    q = p ∧ child' = child ∨ q ≠ p ∧ s.children q = some child' := by
  rcases Decidable.em (q = p) with rfl | hne
  · rw [children_setChild_self] at h
    exact Or.inl ⟨rfl, (Option.some.inj h).symm⟩
  · rw [children_setChild_of_ne hne] at h
    exact Or.inr ⟨hne, h⟩

theorem Placed.fork (h : Placed open_ s) {place : ParentPlace}
    (hplace : s.place = .forkingLs ∧ program = .ls ∧ place = .forkingWc ∨
      s.place = .forkingWc ∧ program = .wc ∧ place = .closingRead) :
    Placed open_ (s.fork program place) := by
  have hfresh : Fresh open_ s.pfd := by
    rcases h.fresh with hfresh | ⟨_, hnot⟩
    · exact hfresh
    · rcases hplace with ⟨hforking, _⟩ | ⟨hforking, _⟩
      · rw [hforking] at hnot
        rcases hnot with hnot | hnot <;> cases hnot
      · rw [hforking] at hnot
        rcases hnot with hnot | hnot <;> cases hnot
  have htable : s.table.entries = piped open_ s.pfd := by
    rw [h.table]
    rcases hplace with ⟨hforking, _⟩ | ⟨hforking, _⟩
    · rw [hforking]
      rfl
    · rw [hforking]
      rfl
  have hself : (s.fork program place).children program =
      some { place := .closingOther, table := s.table, data := [] } :=
    children_setChild_self s program _
  have hother : ∀ q, q ≠ program → (s.fork program place).children q = s.children q :=
    fun q hq => children_setChild_of_ne hq s _
  exact {
    fresh := Or.inl hfresh
    table := by
      refine htable.trans ?_
      rcases hplace with ⟨_, _, rfl⟩ | ⟨_, _, rfl⟩
      · rfl
      · rfl
    inherits := fun q child hchild => by
      rcases children_setChild hchild with ⟨rfl, rfl⟩ | ⟨_, hold⟩
      · exact ⟨htable, by rintro (hplace | hplace) <;> cases hplace⟩
      · exact h.inherits q child hold
    unforked := by
      rcases hplace with ⟨_, _, rfl⟩ | ⟨_, _, rfl⟩
      · rintro (hplace | hplace) <;> cases hplace
      · rintro (hplace | hplace) <;> cases hplace
    forkedLs := by
      rcases hplace with ⟨hforking, rfl, rfl⟩ | ⟨_, _, rfl⟩
      · refine fun _ => ⟨(hother .wc (by decide)).trans (h.unforked (Or.inr hforking) .wc), ?_⟩
        rw [hself]
        nofun
      · nofun
    forked := by
      rcases hplace with ⟨_, _, rfl⟩ | ⟨hforking, rfl, rfl⟩
      · exact fun hforked => hforked.elim
      · intro _ q
        cases q with
        | ls =>
            rw [hother .ls (by decide)]
            exact (h.forkedLs hforking).2
        | wc =>
            rw [hself]
            nofun }

theorem Flows.fork (h : Flows listing s) (hplaced : Placed open_ s) {place : ParentPlace}
    (hplace : s.place = .forkingLs ∧ program = .ls ∨ s.place = .forkingWc ∧ program = .wc) :
    Flows listing (s.fork program place) := by
  have hnone : s.children program = none := by
    rcases hplace with ⟨hforking, rfl⟩ | ⟨hforking, rfl⟩
    · exact hplaced.unforked (Or.inr hforking) .ls
    · exact (hplaced.forkedLs hforking).1
  have hdata : ∀ q, (s.fork program place).data q = s.data q := by
    intro q
    rcases Decidable.em (q = program) with rfl | hne
    · refine (data_setChild_self s q _).trans ?_
      rw [System.data, hnone]
      rfl
    · exact data_setChild_of_ne hne s _
  refine ⟨?_, ?_, fun child hchild hended => ?_, fun child hchild hended => ?_⟩
  · rw [hdata, hdata]
    exact h.conserved
  · rw [hdata]
    exact h.written
  · rcases children_setChild hchild with ⟨_, rfl⟩ | ⟨_, hold⟩
    · cases hended
    · exact h.lsEnded child hold hended
  · rcases children_setChild hchild with ⟨_, rfl⟩ | ⟨hne, hold⟩
    · cases hended
    · rcases hplace with ⟨hforking, _⟩ | ⟨_, rfl⟩
      · rw [hplaced.unforked (Or.inr hforking)] at hold
        cases hold
      · exact absurd rfl hne

theorem Placed.parentMoves {action : ParentAction} (h : Placed open_ s)
    (hmoves : ParentMoves s action s') : Placed open_ s' := by
  have hfresh := h.fresh
  have htable := h.table
  have hforked := h.forked
  cases hmoves with
  | piped hplace => exact h.pipe hplace
  | forkedLs hplace => exact h.fork (Or.inl ⟨hplace, rfl, rfl⟩)
  | forkedWc hplace => exact h.fork (Or.inr ⟨hplace, rfl, rfl⟩)
  | closedRead table hplace hclose =>
      rw [hplace] at hfresh htable hforked
      have hpfd : Fresh open_ s.pfd := hfresh.resolve_right nofun
      rcases Table.entries_close ((congrFun htable _).trans (piped_own hpfd .wc)) with
        ⟨table', hclose', htable'⟩
      obtain rfl := Option.some.inj (hclose.symm.trans hclose')
      exact { h with
        fresh := Or.inl hpfd
        table := by
          change table.entries = _
          rw [htable', htable]
          rfl
        unforked := nofun
        forkedLs := nofun
        forked := fun _ => hforked trivial }
  | closedWrite table hplace hclose =>
      rw [hplace] at hfresh htable hforked
      have hpfd : Fresh open_ s.pfd := hfresh.resolve_right nofun
      have hwrite : s.table.entries s.pfd.write = some .writeEnd := by
        rw [htable]
        exact (Function.update_of_ne hpfd.ne.symm _ _).trans (piped_own hpfd .ls)
      rcases Table.entries_close hwrite with ⟨table', hclose', htable'⟩
      obtain rfl := Option.some.inj (hclose.symm.trans hclose')
      exact { h with
        fresh := Or.inl hpfd
        table := by
          change table.entries = base open_
          rw [htable', htable]
          exact update_both hpfd
        unforked := nofun
        forkedLs := nofun
        forked := fun _ => hforked trivial }
  | waited program child hplace _ _ => exact h.exit (Or.inl ⟨rfl, hplace⟩)
  | failed _ _ _ => exact h.exit (Or.inr rfl)

theorem Flows.parentMoves {action : ParentAction} (h : Flows listing s) (hplaced : Placed open_ s)
    (hmoves : ParentMoves s action s') : Flows listing s' := by
  cases hmoves with
  | forkedLs hplace => exact h.fork hplaced (Or.inl ⟨hplace, rfl⟩)
  | forkedWc hplace => exact h.fork hplaced (Or.inr ⟨hplace, rfl⟩)
  | piped _ => exact { h with }
  | closedRead _ _ _ => exact { h with }
  | closedWrite _ _ _ => exact { h with }
  | waited _ _ _ _ _ => exact { h with }
  | failed _ _ _ => exact { h with }

theorem Placed.setChild (h : Placed open_ s) (hchild : s.children program = some child)
    (hinherits : Inherits open_ s.pfd program child') :
    Placed open_ (s.setChild program child') := by
  have hsome : ∀ q, s.children q ≠ none → (s.setChild program child').children q ≠ none := by
    intro q hq
    rcases Decidable.em (q = program) with rfl | hne
    · rw [children_setChild_self]
      nofun
    · rw [children_setChild_of_ne hne]
      exact hq
  have hforking : ¬ (s.place = .piping ∨ s.place = .forkingLs) := by
    intro hplace
    rw [h.unforked hplace] at hchild
    cases hchild
  exact {
    fresh := Or.inl (h.fresh_of_child hchild)
    table := h.table
    inherits := fun q c hc => by
      rcases children_setChild hc with ⟨rfl, rfl⟩ | ⟨_, hold⟩
      · exact hinherits
      · exact h.inherits q c hold
    unforked := fun hplace => absurd hplace hforking
    forkedLs := fun hplace => by
      have hold := h.forkedLs hplace
      have hne : Program.wc ≠ program := by
        rintro rfl
        rw [hold.1] at hchild
        cases hchild
      exact ⟨(children_setChild_of_ne hne s child').trans hold.1, hsome .ls hold.2⟩
    forked := fun hplace q => hsome q (h.forked hplace q) }

theorem Placed.childMoves {action : ChildAction} (h : Placed open_ s)
    (hredirecting : Redirecting (.child program action))
    (hchild : s.children program = some child)
    (hmoves : ChildMoves listing s child program action s') : Placed open_ s' := by
  have hinherits := h.inherits program child hchild
  have hfresh := h.fresh_of_child hchild
  have hdata : ∀ data, Inherits open_ s.pfd program { child with data := data } :=
    fun _ => ⟨hinherits.entries, hinherits.moving⟩
  cases hmoves with
  | closed _ ok child' hclose =>
      exact h.setChild hchild (prepared_of_closeEnd hfresh hinherits hclose).inherits
  | redirected _ ok child' hredirect =>
      obtain rfl : ok = true := hredirecting
      exact h.setChild hchild (prepared_of_redirect hfresh hinherits hredirect).inherits
  | execed _ hplace =>
      refine h.setChild hchild ⟨?_, by rintro (hplace | hplace) <;> cases hplace⟩
      refine hinherits.entries.trans ?_
      rw [hplace]
      rfl
  | execFailed _ _ => exact h.setChild hchild (inherits_exit (Or.inr rfl) child)
  | wrote n _ _ _ => exact { h.setChild hchild (hdata _) with }
  | broken _ _ => exact h.setChild hchild (inherits_exit (Or.inr rfl) child)
  | read n _ _ _ => exact { h.setChild hchild (hdata _) with }
  | lsEnded _ _ => exact h.setChild hchild (inherits_exit (Or.inl rfl) child)
  | wcEnded _ _ _ => exact h.setChild hchild (inherits_exit (Or.inl rfl) child)

theorem Flows.kept (h : Flows listing s) (hchild : s.children program = some child)
    (hdata : child'.data = child.data) (hlive : child.place.Exited = false)
    (hls : program = .ls → child'.place = .ended → child'.data = listing)
    (hwc : program = .wc → child'.place = .ended →
      s.pipe = [] ∧ ∀ ls, s.children .ls = some ls → ls.place.Exited = true) :
    Flows listing (s.setChild program child') := by
  have hdata' : ∀ q, (s.setChild program child').data q = s.data q := by
    intro q
    rcases Decidable.em (q = program) with rfl | hne
    · rw [data_setChild_self, hdata, System.data, hchild]
      rfl
    · exact data_setChild_of_ne hne s child'
  refine ⟨?_, ?_, fun c hc hended => ?_, fun c hc hended => ?_⟩
  · rw [hdata', hdata']
    exact h.conserved
  · rw [hdata']
    exact h.written
  · rcases children_setChild hc with ⟨hprogram, rfl⟩ | ⟨_, hold⟩
    · exact hls hprogram.symm hended
    · exact h.lsEnded c hold hended
  · rcases children_setChild hc with ⟨hprogram, rfl⟩ | ⟨hne, hold⟩
    · obtain ⟨hpipe, hexited⟩ := hwc hprogram.symm hended
      refine ⟨hpipe, fun ls hold => hexited ls ?_⟩
      rwa [children_setChild_of_ne (hprogram ▸ (by decide))] at hold
    · obtain ⟨hpipe, hexited⟩ := h.wcEnded c hold hended
      refine ⟨hpipe, fun ls hls' => ?_⟩
      rcases children_setChild hls' with ⟨rfl, rfl⟩ | ⟨_, hold'⟩
      · rw [hexited child hchild] at hlive
        cases hlive
      · exact hexited ls hold'

theorem Flows.write (h : Flows listing s) (hchild : s.children .ls = some child)
    (hrunning : child.place = .running) {n : Nat} (hle : child.data.length + n ≤ listing.length)
    (hplace : child'.place = child.place)
    (hdata' : child'.data = child.data ++ (listing.drop child.data.length).take n) :
    Flows listing { s.setChild .ls child' with
      pipe := s.pipe ++ (listing.drop child.data.length).take n } := by
  have hdata : s.data .ls = child.data := by
    rw [System.data, hchild]
    rfl
  have hwritten := h.written
  have hconserved := h.conserved
  rw [hdata] at hwritten hconserved
  have hls : ∀ pipe, System.data { s.setChild .ls child' with pipe := pipe } .ls =
      child.data ++ (listing.drop child.data.length).take n :=
    fun _ => (data_setChild_self s .ls child').trans hdata'
  have hwc : ∀ pipe, System.data { s.setChild .ls child' with pipe := pipe } .wc = s.data .wc :=
    fun _ => data_setChild_of_ne (by decide : Program.wc ≠ .ls) s child'
  refine ⟨?_, ?_, fun c hc hended => ?_, fun c hc hended => ?_⟩
  · rw [hls, hwc, ← List.append_assoc, ← hconserved]
  · rw [hls, List.length_append, List.length_take, List.length_drop,
      Nat.min_eq_left (by omega), List.take_add, ← hwritten]
  · change (s.setChild .ls child').children .ls = some c at hc
    rcases children_setChild hc with ⟨_, rfl⟩ | ⟨hne, _⟩
    · rw [hplace, hrunning] at hended
      cases hended
    · exact absurd rfl hne
  · change (s.setChild .ls child').children .wc = some c at hc
    rcases children_setChild hc with ⟨hprogram, _⟩ | ⟨_, hold⟩
    · cases hprogram
    · have hexited := (h.wcEnded c hold hended).2 child hchild
      rw [hrunning] at hexited
      cases hexited

theorem Flows.read (h : Flows listing s) (hchild : s.children .wc = some child)
    (hrunning : child.place = .running) {n : Nat} (hplace : child'.place = child.place)
    (hdata' : child'.data = child.data ++ s.pipe.take n) :
    Flows listing { s.setChild .wc child' with pipe := s.pipe.drop n } := by
  have hdata : s.data .wc = child.data := by
    rw [System.data, hchild]
    rfl
  have hls : ∀ pipe, System.data { s.setChild .wc child' with pipe := pipe } .ls = s.data .ls :=
    fun _ => data_setChild_of_ne (by decide : Program.ls ≠ .wc) s child'
  have hwc : ∀ pipe, System.data { s.setChild .wc child' with pipe := pipe } .wc =
      child.data ++ s.pipe.take n :=
    fun _ => (data_setChild_self s .wc child').trans hdata'
  refine ⟨?_, ?_, fun c hc hended => ?_, fun c hc hended => ?_⟩
  · rw [hls, hwc, List.append_assoc, List.take_append_drop, ← hdata]
    exact h.conserved
  · rw [hls]
    exact h.written
  · change (s.setChild .wc child').children .ls = some c at hc
    rcases children_setChild hc with ⟨hprogram, _⟩ | ⟨_, hold⟩
    · cases hprogram
    · exact h.lsEnded c hold hended
  · change (s.setChild .wc child').children .wc = some c at hc
    rcases children_setChild hc with ⟨_, rfl⟩ | ⟨hne, _⟩
    · rw [hplace, hrunning] at hended
      cases hended
    · exact absurd rfl hne

theorem not_exited_of_connected (h : child.Connected program) : child.place.Exited = false := by
  rw [h.1]
  rfl

/-- Where the end of the pipe is read, `ls` has exited. -/
theorem Placed.lsExited (h : Placed open_ s) (hwriters : s.holds .writeEnd = false)
    (ls : Child) (hls : s.children .ls = some ls) : ls.place.Exited = true := by
  rw [System.holds, Bool.or_eq_false_iff] at hwriters
  have hclosed := List.any_eq_false.mp hwriters.2 .ls List.mem_cons_self
  rw [hls] at hclosed
  by_contra hlive
  refine hclosed ((h.inherits .ls ls hls).own (h.fresh_of_child hls) ?_)
  rcases hplace : ls.place with - | - | - | - | - | - | -
  all_goals first | decide | exact absurd (hplace ▸ rfl) hlive

theorem Flows.prepared (h : Flows listing s) (hchild : s.children program = some child)
    {ok : Bool} (hprepared : Prepared open_ pfd program ok child child') :
    Flows listing (s.setChild program child') := by
  have hnot : child'.place ≠ .ended := by
    intro hended
    rcases hprepared.going with hrank | ⟨_, hfailed⟩
    · rw [hended] at hrank
      exact absurd hrank (by decide)
    · cases hended.symm.trans hfailed
  exact h.kept hchild hprepared.data (exited_of_rank (Nat.lt_trans hprepared.early (by decide)))
    (fun _ hended => absurd hended hnot) (fun _ hended => absurd hended hnot)

theorem Flows.childMoves {action : ChildAction} (h : Flows listing s) (hplaced : Placed open_ s)
    (hredirecting : Redirecting (.child program action))
    (hchild : s.children program = some child)
    (hmoves : ChildMoves listing s child program action s') : Flows listing s' := by
  have hinherits := hplaced.inherits program child hchild
  have hfresh := hplaced.fresh_of_child hchild
  have hdata : s.data program = child.data := by
    rw [System.data, hchild]
    rfl
  cases hmoves with
  | closed _ ok child' hclose =>
      exact h.prepared hchild (prepared_of_closeEnd hfresh hinherits hclose)
  | redirected _ ok child' hredirect =>
      obtain rfl : ok = true := hredirecting
      exact h.prepared hchild (prepared_of_redirect hfresh hinherits hredirect)
  | execed _ hplace =>
      exact h.kept hchild rfl (by rw [hplace]; rfl) nofun nofun
  | execFailed _ hplace =>
      exact h.kept hchild rfl (by rw [hplace]; rfl) nofun nofun
  | broken hconnected _ =>
      exact h.kept hchild rfl (not_exited_of_connected hconnected) nofun nofun
  | lsEnded hconnected hlength =>
      refine h.kept hchild rfl (not_exited_of_connected hconnected) (fun _ _ => ?_) nofun
      change child.data = listing
      rw [← hdata, h.written, hdata, hlength, List.take_length]
  | wcEnded hconnected hpipe hwriters =>
      exact h.kept hchild rfl (not_exited_of_connected hconnected) nofun
        fun _ _ => ⟨hpipe, hplaced.lsExited hwriters⟩
  | wrote n hconnected hpos hle => exact h.write hchild hconnected.1 hle rfl rfl
  | read n hconnected hpos hle => exact h.read hchild hconnected.1 rfl rfl

theorem step_invariant {action : Action} (hplaced : Placed open_ s) (hflows : Flows listing s)
    (hredirecting : Redirecting action) (hstep : step listing capacity s action = some s') :
    Placed open_ s' ∧ Flows listing s' := by
  cases action with
  | parent action =>
      have hmoves := moves_of_parentStep hstep
      exact ⟨hplaced.parentMoves hmoves, hflows.parentMoves hplaced hmoves⟩
  | child program action =>
      rcases Option.bind_eq_some_iff.mp hstep with ⟨child, hchild, hchildStep⟩
      have hmoves := moves_of_childStep hchildStep
      exact ⟨hplaced.childMoves hredirecting hchild hmoves,
        hflows.childMoves hplaced hredirecting hchild hmoves⟩

theorem invariant_of_run (open_ : Table Nat) {actions : List Action}
    (hredirecting : ∀ action ∈ actions, Redirecting action)
    (hrun : run (step listing capacity) (.start open_) actions = some s) :
    Placed open_ s ∧ Flows listing s := by
  have hinv : EveryState (step listing capacity) (fun s => Placed open_ s ∧ Flows listing s)
      (.start open_) actions :=
    invariant_of_everyStep ⟨placed_start open_, flows_start open_ listing⟩
      (fun _ _ _ h hredirecting hstep => step_invariant h.1 h.2 hredirecting hstep)
      (everyStep_of_forall (fun action haction _ => hredirecting action haction) _)
  exact hinv.reached hrun

/-- Each program has its end of the pipe at its standard descriptor and is otherwise
left with the files of the shell, as is the parent. -/
structure Redirected (open_ : Table Nat) (s : System) : Prop where
  programs : ∀ program child, s.children program = some child → child.place = .running →
    ∀ fd, child.table.entries fd =
      if fd = program.target then some program.file else (open_.entries fd).map File.other
  parent : s.place = .waiting → ∀ fd, s.table.entries fd = (open_.entries fd).map File.other

/-- Whatever was open at the start, also where the pipe gets the descriptors 0 or 1,
and whichever calls but `dup2` fail. -/
theorem programs_redirected (open_ : Table Nat) (listing : Bytes) (capacity : Nat)
    (actions : List Action) (hredirecting : ∀ action ∈ actions, Redirecting action) (s : System)
    (hrun : run (step listing capacity) (.start open_) actions = some s) :
    Redirected open_ s := by
  have h := (invariant_of_run open_ hredirecting hrun).1
  constructor
  · intro program child hchild hrunning fd
    have hentries := (h.inherits program child hchild).entries
    rw [hrunning] at hentries
    rw [hentries]
    exact Function.update_apply _ _ _ _
  · intro hwaiting fd
    rw [h.table, hwaiting]
    rfl

/-- A shell with its standard input closed, so that the pipe gets the descriptors 0
and 2. -/
def shell : Table Nat := Table.empty.set 1 (some 7)

def session : List Action :=
  [.parent (.pipe true), .parent (.fork true), .child .ls (.close true), .parent (.fork true),
    .child .ls (.dup2 true), .child .ls (.close true), .child .ls (.exec true),
    .child .ls (.write 1), .child .wc (.close true), .child .wc (.exec true),
    .parent (.close true), .parent (.close true), .child .wc (.read 1), .child .ls (.write 1),
    .child .ls .finish, .child .wc (.read 1), .child .wc .finish, .parent .wait]

theorem redirecting_session : ∀ action ∈ session, Redirecting action := by
  simp [session, Redirecting]

theorem programs_redirected_session : ∃ s,
    run (step (literal "a\n") 1) (.start shell) (session.take 13) = some s ∧
      s.pfd.read = 0 ∧ s.pfd.write = 2 ∧ Redirected shell s :=
  ⟨_, rfl, rfl, rfl, programs_redirected shell (literal "a\n") 1 (session.take 13)
    (fun action haction => redirecting_session action (List.mem_of_mem_take haction)) _ rfl⟩

/-- `wc` reads what `ls` writes, and comes to the end when all is read. -/
structure Filtered (listing : Bytes) (s : System) : Prop where
  reads : ∃ rest, s.data .ls = s.data .wc ++ rest ∧ s.data .ls <+: listing
  atEnd : ∀ wc, s.children .wc = some wc → wc.place = .ended →
    wc.data = s.data .ls ∧ ∀ ls, s.children .ls = some ls → ls.place.Exited = true
  whole : ∀ ls wc, s.children .ls = some ls → s.children .wc = some wc → ls.place = .ended →
    wc.place = .ended → wc.data = listing

/-- In every interleaving of the three processes, and whichever of their calls but
`dup2` fail. -/
theorem wc_filtered (open_ : Table Nat) (listing : Bytes) (capacity : Nat)
    (actions : List Action) (hredirecting : ∀ action ∈ actions, Redirecting action) (s : System)
    (hrun : run (step listing capacity) (.start open_) actions = some s) :
    Filtered listing s := by
  have h := (invariant_of_run open_ hredirecting hrun).2
  have hdata : ∀ program child, s.children program = some child →
      s.data program = child.data := by
    intro program child hchild
    rw [System.data, hchild]
    rfl
  have hatEnd : ∀ wc, s.children .wc = some wc → wc.place = .ended → wc.data = s.data .ls := by
    intro wc hwc hended
    rw [h.conserved, (h.wcEnded wc hwc hended).1, List.append_nil, hdata .wc wc hwc]
  refine ⟨⟨s.pipe, h.conserved, ?_⟩, fun wc hwc hended => ⟨hatEnd wc hwc hended, ?_⟩, ?_⟩
  · rw [h.written]
    exact List.take_prefix _ _
  · exact (h.wcEnded wc hwc hended).2
  · intro ls wc hls hwc hlsEnded hwcEnded
    rw [hatEnd wc hwc hwcEnded, hdata .ls ls hls]
    exact h.lsEnded ls hls hlsEnded

theorem wc_filtered_session : ∃ s,
    run (step (literal "a\n") 1) (.start shell) session = some s ∧ s.place = .ended ∧
      Filtered (literal "a\n") s :=
  ⟨_, rfl, rfl, wc_filtered shell (literal "a\n") 1 session redirecting_session _ rfl⟩

end StudyLinuxKernel.Pipe.Filter
