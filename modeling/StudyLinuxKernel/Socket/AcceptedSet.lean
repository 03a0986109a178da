import Mathlib.Data.List.Sort
import Mathlib.Logic.Function.Basic

/-!
The socket descriptors of the select servers: the set that the accept loop of
`main` and the select loop of `_thread_func` share, and the table of the kernel
behind it.  A connection has an identity of its own, as the kernel gives the
number of a closed descriptor to a later connection.
-/

namespace StudyLinuxKernel.Socket.AcceptedSet

/-- `table` says which connection is open under a number; `incoming` is the
accepted descriptor that `main` has yet to insert. -/
structure Descriptors where
  accepted : List Nat
  incoming : Option Nat
  table : Nat → Option Nat
  nextConn : Nat

def Descriptors.start : Descriptors :=
  { accepted := [], incoming := none, table := fun _ => none, nextConn := 0 }

/-- `std::set<int>::insert`; the set is kept in ascending order. -/
def insertFd (fd : Nat) (accepted : List Nat) : List Nat :=
  if fd ∈ accepted then accepted else accepted.orderedInsert (· ≤ ·) fd

/-- The kernel opens a new connection under a free number. -/
def Descriptors.accept (d : Descriptors) (fd : Nat) : Option Descriptors :=
  if d.incoming = none ∧ d.table fd = none then
    some { d with
      incoming := some fd
      table := Function.update d.table fd (some d.nextConn)
      nextConn := d.nextConn + 1 }
  else none

def Descriptors.insert (d : Descriptors) : Option Descriptors :=
  match d.incoming with
  | none => none
  | some fd => some { d with accepted := insertFd fd d.accepted, incoming := none }

/-- `close`, and the erasure from the set. -/
def Descriptors.close (d : Descriptors) (fd : Nat) : Descriptors :=
  { d with accepted := d.accepted.erase fd, table := Function.update d.table fd none }

/-- The accepted connections. -/
def Descriptors.conns (d : Descriptors) : List Nat := d.accepted.filterMap d.table

structure Sound (d : Descriptors) : Prop where
  nodup : d.accepted.Nodup
  opened : ∀ fd ∈ d.accepted, ∃ conn, d.table fd = some conn
  incoming : ∀ fd, d.incoming = some fd → fd ∉ d.accepted ∧ ∃ conn, d.table fd = some conn
  fresh : ∀ fd conn, d.table fd = some conn → conn < d.nextConn
  distinct : ∀ fd fd' conn, d.table fd = some conn → d.table fd' = some conn → fd = fd'

theorem update_eq_some_iff {table : Nat → Option Nat} {fd fd' : Nat} {slot : Option Nat}
    {conn : Nat} : Function.update table fd slot fd' = some conn ↔
      fd' = fd ∧ slot = some conn ∨ fd' ≠ fd ∧ table fd' = some conn := by
  rcases eq_or_ne fd' fd with rfl | hne
  · simp
  · simp [hne]

theorem mem_insertFd {fd other : Nat} {accepted : List Nat} :
    other ∈ insertFd fd accepted ↔ other = fd ∨ other ∈ accepted := by
  rw [insertFd]
  split
  · rename_i hmem
    refine ⟨Or.inr, ?_⟩
    rintro (rfl | hother)
    · exact hmem
    · exact hother
  · rw [List.mem_orderedInsert]

theorem nodup_insertFd {fd : Nat} {accepted : List Nat} (h : accepted.Nodup) :
    (insertFd fd accepted).Nodup := by
  rw [insertFd]
  split
  · exact h
  · rename_i hnew
    exact (List.perm_orderedInsert _ fd accepted).nodup_iff.mpr (List.nodup_cons.mpr ⟨hnew, h⟩)

section Accept

variable {d d' : Descriptors} {fd : Nat}

theorem accept_eq_some (h : d.accept fd = some d') :
    d.incoming = none ∧ d.table fd = none ∧
      d' = { d with
        incoming := some fd
        table := Function.update d.table fd (some d.nextConn)
        nextConn := d.nextConn + 1 } := by
  rw [Descriptors.accept] at h
  split at h
  · rename_i hguard
    exact ⟨hguard.1, hguard.2, (Option.some.inj h).symm⟩
  · cases h

theorem accepted_of_accept (h : d.accept fd = some d') : d'.accepted = d.accepted := by
  obtain ⟨_, _, rfl⟩ := accept_eq_some h
  rfl

theorem nextConn_of_accept (h : d.accept fd = some d') : d'.nextConn = d.nextConn + 1 := by
  obtain ⟨_, _, rfl⟩ := accept_eq_some h
  rfl

theorem open_of_accept_iff (h : d.accept fd = some d') {fd' conn : Nat} :
    d'.table fd' = some conn ↔
      fd' = fd ∧ conn = d.nextConn ∨ fd' ≠ fd ∧ d.table fd' = some conn := by
  obtain ⟨_, _, rfl⟩ := accept_eq_some h
  rw [update_eq_some_iff]
  exact or_congr_left (and_congr_right fun _ => by rw [Option.some.injEq, eq_comm])

theorem open_of_accept (h : d.accept fd = some d') {fd' conn : Nat}
    (hopen : d.table fd' = some conn) : d'.table fd' = some conn := by
  refine (open_of_accept_iff h).mpr (Or.inr ⟨?_, hopen⟩)
  rintro rfl
  cases (accept_eq_some h).2.1.symm.trans hopen

theorem Sound.accept (hd : Sound d) (h : d.accept fd = some d') : Sound d' := by
  have haccepted := accepted_of_accept h
  have hnextConn := nextConn_of_accept h
  refine ⟨?_, fun fd' hmem => ?_, fun fd' hin => ?_, fun fd' conn hopen => ?_,
    fun fd' fd'' conn hopen hopen' => ?_⟩
  · rw [haccepted]
    exact hd.nodup
  · rw [haccepted] at hmem
    obtain ⟨conn, hopen⟩ := hd.opened fd' hmem
    exact ⟨conn, open_of_accept h hopen⟩
  · obtain rfl : fd = fd' := by
      obtain ⟨_, _, rfl⟩ := accept_eq_some h
      exact Option.some.inj hin
    refine ⟨fun hmem => ?_, d.nextConn, (open_of_accept_iff h).mpr (Or.inl ⟨rfl, rfl⟩)⟩
    rw [haccepted] at hmem
    obtain ⟨conn, hopen⟩ := hd.opened fd hmem
    cases (accept_eq_some h).2.1.symm.trans hopen
  · rw [hnextConn]
    rcases (open_of_accept_iff h).mp hopen with ⟨_, rfl⟩ | ⟨_, hold⟩
    · exact Nat.lt_succ_self _
    · exact Nat.lt_succ_of_lt (hd.fresh fd' conn hold)
  · rcases (open_of_accept_iff h).mp hopen with ⟨hfd, rfl⟩ | ⟨_, hold⟩
    · rcases (open_of_accept_iff h).mp hopen' with ⟨hfd', _⟩ | ⟨_, hold'⟩
      · exact hfd.trans hfd'.symm
      · exact absurd (hd.fresh fd'' _ hold') (Nat.lt_irrefl _)
    · rcases (open_of_accept_iff h).mp hopen' with ⟨_, rfl⟩ | ⟨_, hold'⟩
      · exact absurd (hd.fresh fd' _ hold) (Nat.lt_irrefl _)
      · exact hd.distinct fd' fd'' conn hold hold'

end Accept

section Insert

variable {d d' : Descriptors}

theorem insert_eq_some (h : d.insert = some d') :
    ∃ fd, d.incoming = some fd ∧
      d' = { d with accepted := insertFd fd d.accepted, incoming := none } := by
  rw [Descriptors.insert] at h
  split at h
  · cases h
  · rename_i fd hincoming
    exact ⟨fd, hincoming, (Option.some.inj h).symm⟩

theorem table_of_insert (h : d.insert = some d') : d'.table = d.table := by
  obtain ⟨fd, _, rfl⟩ := insert_eq_some h
  rfl

theorem subset_of_insert (h : d.insert = some d') : d.accepted ⊆ d'.accepted := by
  obtain ⟨fd, _, rfl⟩ := insert_eq_some h
  exact fun fd' hmem => mem_insertFd.mpr (Or.inr hmem)

theorem Sound.insert (hd : Sound d) (h : d.insert = some d') : Sound d' := by
  obtain ⟨fd, hincoming, rfl⟩ := insert_eq_some h
  refine ⟨nodup_insertFd hd.nodup, fun fd' hmem => ?_, (fun _ hin => nomatch hin), hd.fresh,
    hd.distinct⟩
  rcases mem_insertFd.mp hmem with rfl | hmem
  · exact (hd.incoming _ hincoming).2
  · exact hd.opened fd' hmem

end Insert

section Close

variable {d : Descriptors} {fd : Nat}

theorem open_of_close_iff {fd' conn : Nat} :
    (d.close fd).table fd' = some conn ↔ fd' ≠ fd ∧ d.table fd' = some conn := by
  change Function.update d.table fd none fd' = some conn ↔ _
  rw [update_eq_some_iff]
  exact ⟨fun h => h.resolve_left (fun hnone => nomatch hnone.2), Or.inr⟩

theorem mem_close_iff (hd : Sound d) {fd' : Nat} :
    fd' ∈ (d.close fd).accepted ↔ fd' ≠ fd ∧ fd' ∈ d.accepted :=
  hd.nodup.mem_erase_iff

theorem conn_of_close (hd : Sound d) {conn fd' conn' : Nat} (hconn : d.table fd = some conn)
    (hopen : (d.close fd).table fd' = some conn') : conn' ≠ conn := by
  obtain ⟨hne, hopen⟩ := open_of_close_iff.mp hopen
  rintro rfl
  exact hne (hd.distinct fd' fd conn' hopen hconn)

theorem Sound.close (hd : Sound d) (hfd : fd ∈ d.accepted) : Sound (d.close fd) := by
  refine ⟨hd.nodup.erase fd, fun fd' hmem => ?_, fun fd' hin => ?_, fun fd' conn hopen => ?_,
    fun fd' fd'' conn hopen hopen' => ?_⟩
  · obtain ⟨hne, hmem⟩ := (mem_close_iff hd).mp hmem
    obtain ⟨conn, hopen⟩ := hd.opened fd' hmem
    exact ⟨conn, open_of_close_iff.mpr ⟨hne, hopen⟩⟩
  · obtain ⟨hnot, conn, hopen⟩ := hd.incoming fd' hin
    refine ⟨fun hmem => hnot ((mem_close_iff hd).mp hmem).2, conn,
      open_of_close_iff.mpr ⟨?_, hopen⟩⟩
    rintro rfl
    exact hnot hfd
  · exact hd.fresh fd' conn (open_of_close_iff.mp hopen).2
  · exact hd.distinct fd' fd'' conn (open_of_close_iff.mp hopen).2
      (open_of_close_iff.mp hopen').2

end Close

theorem sound_start : Sound Descriptors.start where
  nodup := List.nodup_nil
  opened := fun _ hmem => absurd hmem List.not_mem_nil
  incoming := fun _ h => nomatch h
  fresh := fun _ _ h => nomatch h
  distinct := fun _ _ _ h => nomatch h

section Conns

variable {d : Descriptors}

theorem length_conns (hd : Sound d) : d.conns.length = d.accepted.length := by
  apply List.filterMap_length_eq_length.mpr
  intro fd hfd
  obtain ⟨conn, hopen⟩ := hd.opened fd hfd
  rw [hopen]
  rfl

theorem nodup_conns (hd : Sound d) : d.conns.Nodup := by
  apply hd.nodup.filterMap
  intro fd fd' conn hopen hopen'
  exact hd.distinct fd fd' conn hopen hopen'

end Conns

/-- The descriptors that a pass has yet to visit. -/
structure Visitable (d : Descriptors) (rest : List Nat) : Prop where
  nodup : rest.Nodup
  subset : rest ⊆ d.accepted

theorem Sound.visitable {d : Descriptors} (hd : Sound d) : Visitable d d.accepted :=
  ⟨hd.nodup, List.Subset.refl _⟩

theorem Visitable.tail {d : Descriptors} {fd : Nat} {rest : List Nat}
    (h : Visitable d (fd :: rest)) : Visitable d rest :=
  ⟨(List.nodup_cons.mp h.nodup).2, fun _ hmem => h.subset (List.mem_cons_of_mem fd hmem)⟩

theorem Visitable.accept {d d' : Descriptors} {fd : Nat} {rest : List Nat} (h : Visitable d rest)
    (haccept : d.accept fd = some d') : Visitable d' rest := by
  refine ⟨h.nodup, ?_⟩
  rw [accepted_of_accept haccept]
  exact h.subset

theorem Visitable.close {d : Descriptors} (hd : Sound d) {fd : Nat} {rest : List Nat}
    (h : Visitable d (fd :: rest)) : Visitable (d.close fd) rest := by
  refine ⟨h.tail.nodup, fun fd' hmem => (mem_close_iff hd).mpr ⟨?_, h.tail.subset hmem⟩⟩
  rintro rfl
  exact (List.nodup_cons.mp h.nodup).1 hmem

section Visit

variable {d d' : Descriptors} {fd : Nat} {closes : Prop}

theorem nextConn_of_visit (hcloses : closes → d' = d.close fd) (hstays : ¬ closes → d' = d) :
    d'.nextConn = d.nextConn := by
  rcases Classical.em closes with h | h
  · rw [hcloses h]
    rfl
  · rw [hstays h]

theorem open_of_visit (hcloses : closes → d' = d.close fd) (hstays : ¬ closes → d' = d)
    (hd : Sound d) {conn fd' conn' : Nat} (hconn : d.table fd = some conn)
    (hopen : d'.table fd' = some conn') :
    d.table fd' = some conn' ∧ (conn' = conn → ¬ closes) := by
  rcases Classical.em closes with h | h
  · rw [hcloses h] at hopen
    exact ⟨(open_of_close_iff.mp hopen).2, fun hsame =>
      absurd hsame (conn_of_close hd hconn hopen)⟩
  · rw [hstays h] at hopen
    exact ⟨hopen, fun _ => h⟩

theorem sound_of_visit (hcloses : closes → d' = d.close fd) (hstays : ¬ closes → d' = d)
    (hd : Sound d) {rest : List Nat} (hvisitable : Visitable d (fd :: rest)) :
    Sound d' ∧ Visitable d' rest := by
  rcases Classical.em closes with h | h
  · rw [hcloses h]
    exact ⟨hd.close (hvisitable.subset List.mem_cons_self), hvisitable.close hd⟩
  · rw [hstays h]
    exact ⟨hd, hvisitable.tail⟩

end Visit

end StudyLinuxKernel.Socket.AcceptedSet
