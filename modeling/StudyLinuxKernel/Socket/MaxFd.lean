import Mathlib.Algebra.Ring.Parity
import Mathlib.Data.Finset.Sort
import StudyLinuxKernel.Broadcast.SelectServer

namespace StudyLinuxKernel.Socket.MaxFd

open StudyLinuxKernel.Broadcast.SelectServer

/-- The loop of both `_thread_func` over the accepted descriptors. -/
def maxfdLoop (maxfd : Nat) : List Nat → Nat
  | [] => maxfd
  | fd :: rest => maxfdLoop (if fd > maxfd then fd + 1 else maxfd) rest

/-- `maxfd` in `socket-server-http-select.cpp`; a `std::set` is gone through in
ascending order. -/
def httpMaxfd (accepted : Finset Nat) : Nat := maxfdLoop 0 accepted.sort

/-- `maxfd` in `socket-server-tcp-select.cpp`. -/
def tcpMaxfd (accepted : Finset Nat) : Nat := maxfdLoop STDIN_FILENO accepted.sort

/-- `select` examines the descriptors below `nfds`. -/
def Watched (accepted : Finset Nat) (nfds : Nat) : Prop := ∀ fd ∈ accepted, fd < nfds

/-- How many of the descriptors up to `fd` follow on one another without a gap,
the descriptor 0 not counted. -/
def stretch (accepted : Finset Nat) : Nat → Nat
  | 0 => 0
  | fd + 1 => if fd + 1 ∈ accepted then stretch accepted fd + 1 else 0

theorem maxfdLoop_append (maxfd : Nat) (accepted more : List Nat) :
    maxfdLoop maxfd (accepted ++ more) = maxfdLoop (maxfdLoop maxfd accepted) more := by
  induction accepted generalizing maxfd with
  | nil => rfl
  | cons fd rest ih => exact ih _

theorem sort_insert_greatest {accepted : Finset Nat} {fd : Nat} (h : ∀ x ∈ accepted, x < fd) :
    (insert fd accepted).sort = accepted.sort ++ [fd] := by
  apply (Finset.sortedLT_sort _).pairwise.eq_of_mem_iff
  · refine List.pairwise_append.mpr ⟨(Finset.sortedLT_sort _).pairwise,
      List.pairwise_singleton _ _, fun x hx y hy => ?_⟩
    obtain rfl := List.mem_singleton.mp hy
    exact h x ((Finset.mem_sort _).mp hx)
  · intro x
    rw [List.mem_append, List.mem_singleton, Finset.mem_sort, Finset.mem_sort, Finset.mem_insert,
      or_comm]

theorem stretch_congr {accepted accepted' : Finset Nat} {fd : Nat}
    (h : ∀ x ≤ fd, x ∈ accepted ↔ x ∈ accepted') : stretch accepted fd = stretch accepted' fd := by
  induction fd with
  | zero => rfl
  | succ fd ih =>
      rw [stretch, stretch, ih fun x hx => h x (Nat.le_succ_of_le hx)]
      simp only [h (fd + 1) (Nat.le_refl _)]

theorem stretch_insert_succ (accepted : Finset Nat) (fd : Nat) :
    stretch (insert (fd + 1) accepted) (fd + 1) = stretch accepted fd + 1 := by
  rw [stretch, if_pos (Finset.mem_insert_self _ _)]
  refine congrArg (· + 1) (stretch_congr fun x hx => ?_)
  rw [Finset.mem_insert, or_iff_right (Nat.ne_of_lt (Nat.lt_succ_of_le hx))]

theorem stretch_of_not_mem {accepted : Finset Nat} {fd : Nat} (h : fd ∉ accepted) :
    stretch accepted fd = 0 := by
  cases fd with
  | zero => rfl
  | succ fd => exact if_neg h

/-- The value that the loop should end with is above `fd`, but within a stretch
without gaps it gets there by every second step only. -/
def Reaches (accepted : Finset Nat) (fd maxfd : Nat) : Prop :=
  if Odd (stretch accepted fd) then maxfd = fd + 1 else maxfd ≤ fd

theorem reaches_next {accepted : Finset Nat} {fd maxfd : Nat} (h : Reaches accepted fd maxfd) :
    (if fd + 1 > maxfd then fd + 1 + 1 else maxfd) =
      if Odd (stretch accepted fd + 1) then fd + 1 + 1 else fd + 1 := by
  rw [Reaches] at h
  simp only [Nat.odd_add_one]
  split at h
  · rename_i hodd
    rw [if_neg (Nat.not_lt.mpr h.ge), if_neg (not_not.mpr hodd), h]
  · rename_i heven
    rw [if_pos (Nat.lt_succ_of_le h), if_pos heven]

theorem reaches_of_le {accepted : Finset Nat} {fd : Nat} (hall : ∀ x ∈ accepted, x ≤ fd)
    (h : ∀ top, IsGreatest (accepted : Set Nat) top →
      maxfdLoop 0 accepted.sort = if Odd (stretch accepted top) then top + 1 else top) :
    Reaches accepted fd (maxfdLoop 0 accepted.sort) := by
  rcases accepted.eq_empty_or_nonempty with rfl | hne
  · rw [Reaches, stretch_of_not_mem (Finset.notMem_empty fd), if_neg Nat.not_odd_zero,
      Finset.sort_empty]
    exact Nat.zero_le fd
  · have hgreatest := accepted.isGreatest_max' hne
    have hloop := h _ hgreatest
    rcases Nat.eq_or_lt_of_le (hall _ hgreatest.1) with heq | hlt
    · rw [heq] at hloop
      rw [Reaches, hloop]
      split
      · rfl
      · exact Nat.le_refl fd
    · have hnot : fd ∉ accepted := fun hmem => Nat.not_lt.mpr (hgreatest.2 hmem) hlt
      rw [Reaches, stretch_of_not_mem hnot, if_neg Nat.not_odd_zero, hloop]
      split
      · exact hlt
      · exact hlt.le

/-- Behind the loop `maxfd` is the largest descriptor or one more, by turns from
the beginning of a stretch without gaps. -/
theorem maxfdLoop_sort (accepted : Finset Nat) :
    ∀ top, IsGreatest (accepted : Set Nat) top →
      maxfdLoop 0 accepted.sort = if Odd (stretch accepted top) then top + 1 else top := by
  induction accepted using Finset.induction_on_max with
  | empty =>
      intro top htop
      exact absurd htop.1 (Finset.notMem_empty top)
  | insert fd accepted hgreatest ih =>
      intro top htop
      obtain rfl : top = fd := by
        have hle : fd ≤ top := htop.2 (Finset.mem_insert_self fd accepted)
        rcases Finset.mem_insert.mp htop.1 with heq | hold
        · exact heq
        · exact absurd (hgreatest top hold) (Nat.not_lt.mpr hle)
      rw [sort_insert_greatest hgreatest, maxfdLoop_append, maxfdLoop, maxfdLoop]
      cases top with
      | zero =>
          have hnone : accepted = ∅ :=
            Finset.eq_empty_of_forall_notMem fun x hx => Nat.not_lt_zero x (hgreatest x hx)
          rw [hnone, Finset.sort_empty]
          rfl
      | succ fd =>
          rw [stretch_insert_succ]
          exact reaches_next (reaches_of_le (fun x hx => Nat.le_of_lt_succ (hgreatest x hx)) ih)

/-- A server watches all of its clients exactly if the number of positive
descriptors in the last stretch is odd. -/
theorem watched_iff (accepted : Finset Nat) (h : accepted.Nonempty) :
    (Watched accepted (httpMaxfd accepted) ∧ Watched accepted (tcpMaxfd accepted)) ↔
      Odd (stretch accepted (accepted.max' h)) := by
  have hgreatest : IsGreatest (accepted : Set Nat) (accepted.max' h) := accepted.isGreatest_max' h
  have hloop := maxfdLoop_sort accepted _ hgreatest
  change Watched accepted (maxfdLoop 0 accepted.sort) ∧
    Watched accepted (maxfdLoop 0 accepted.sort) ↔ _
  rw [and_self, hloop, Watched]
  split
  · rename_i hodd
    refine iff_of_true (fun fd hfd => ?_) hodd
    exact Nat.lt_succ_of_le (hgreatest.2 hfd)
  · rename_i heven
    exact iff_of_false (fun hall => Nat.lt_irrefl _ (hall _ hgreatest.1)) heven

theorem watched_one_client : Watched {4} (httpMaxfd {4}) ∧ Watched {4} (tcpMaxfd {4}) := by
  apply (watched_iff {4} (Finset.singleton_nonempty 4)).mpr
  decide

/-- Of two clients with consecutive numbers the second one is not examined. -/
theorem second_client_not_watched :
    ({4, 5} : Finset Nat).Nonempty ∧ httpMaxfd {4, 5} = 5 ∧ tcpMaxfd {4, 5} = 5 ∧
      ¬ (Watched {4, 5} (httpMaxfd {4, 5}) ∧ Watched {4, 5} (tcpMaxfd {4, 5})) := by
  have hsort : ({4, 5} : Finset Nat).sort = [4, 5] := by
    rw [Finset.sort_insert _ (by decide) (by decide), Finset.sort_singleton]
  have hhttp : httpMaxfd {4, 5} = 5 := by
    rw [httpMaxfd, hsort]
    rfl
  refine ⟨⟨4, by decide⟩, hhttp, hhttp, fun h => ?_⟩
  have hlast := h.1 5 (by decide)
  rw [hhttp] at hlast
  exact Nat.lt_irrefl 5 hlast

end StudyLinuxKernel.Socket.MaxFd
