import Mathlib.Data.List.Nodup

namespace StudyLinuxKernel.Library.OrderedSet

variable {α κ : Type*} [DecidableEq κ] (key : α → κ)

/-- Add `x` behind the others, unless an element has its key. -/
def insertLast (x : α) (l : List α) : List α :=
  if key x ∈ l.map key then l else l ++ [x]

/-- Take out the element with the key `k`, if there is one. -/
def eraseKey (k : κ) (l : List α) : List α :=
  l.filter fun x => key x ≠ k

variable {key}

theorem insertLast_of_mem {x : α} {l : List α} (h : key x ∈ l.map key) :
    insertLast key x l = l := by
  simp [insertLast, h]

theorem insertLast_of_not_mem {x : α} {l : List α} (h : key x ∉ l.map key) :
    insertLast key x l = l ++ [x] := by
  simp [insertLast, h]

theorem nodup_insertLast {l : List α} (hl : (l.map key).Nodup) (x : α) :
    ((insertLast key x l).map key).Nodup := by
  rw [insertLast]
  split
  · exact hl
  · rename_i hx
    rw [List.map_append, List.map_singleton]
    exact List.nodup_append.mpr ⟨hl, List.nodup_singleton _, by
      rintro a ha b hb rfl
      exact hx (List.mem_singleton.mp hb ▸ ha)⟩

theorem eraseKey_of_not_mem {k : κ} {l : List α} (h : k ∉ l.map key) :
    eraseKey key k l = l := by
  apply List.filter_eq_self.mpr
  intro x hx
  rw [decide_eq_true_eq]
  rintro rfl
  exact h (List.mem_map_of_mem hx)

theorem nodup_eraseKey {l : List α} (hl : (l.map key).Nodup) (k : κ) :
    ((eraseKey key k l).map key).Nodup :=
  hl.sublist (List.filter_sublist.map key)

theorem eraseKey_append_cons {front rest : List α} {x : α}
    (hl : ((front ++ x :: rest).map key).Nodup) :
    eraseKey key (key x) (front ++ x :: rest) = front ++ rest := by
  rw [List.map_append, List.map_cons, List.nodup_append, List.nodup_cons] at hl
  obtain ⟨_, ⟨hrest, _⟩, hapart⟩ := hl
  have hfront : key x ∉ front.map key := fun hmem =>
    hapart (key x) hmem (key x) List.mem_cons_self rfl
  have herase : ∀ l l' : List α, eraseKey key (key x) (l ++ l') =
      eraseKey key (key x) l ++ eraseKey key (key x) l' := fun l l' => List.filter_append l l'
  have hhead : eraseKey key (key x) (x :: rest) = eraseKey key (key x) rest := by
    simp [eraseKey]
  rw [herase, hhead, eraseKey_of_not_mem hfront, eraseKey_of_not_mem hrest]

theorem find?_insertLast (k : κ) (x : α) (l : List α) :
    (insertLast key x l).find? (key · = k) =
      (l.find? (key · = k)).or (if key x = k then some x else none) := by
  rw [insertLast]
  split
  · rename_i hmem
    split
    · rename_i hkey
      have hfound : (l.find? (key · = k)).isSome := by
        rw [List.find?_isSome]
        rcases List.mem_map.mp hmem with ⟨y, hy, hsame⟩
        exact ⟨y, hy, decide_eq_true (hsame.trans hkey)⟩
      obtain ⟨y, hy⟩ := Option.isSome_iff_exists.mp hfound
      rw [hy, Option.some_or]
    · rw [Option.or_none]
  · rw [List.find?_append, List.find?_singleton]
    simp only [decide_eq_true_eq]

theorem find?_foldl_insertLast (k : κ) (xs l : List α) :
    (xs.foldl (fun l x => insertLast key x l) l).find? (key · = k) =
      (l.find? (key · = k)).or (xs.find? (key · = k)) := by
  induction xs generalizing l with
  | nil => rw [List.foldl_nil, List.find?_nil, Option.or_none]
  | cons x xs ih =>
      rw [List.foldl_cons, ih, find?_insertLast, Option.or_assoc, List.find?_cons]
      congr 1
      rcases eq_or_ne (key x) k with hkey | hother
      · simp [hkey]
      · simp [hother]

theorem find?_perm {k : κ} {l l' : List α} (hperm : l.Perm l')
    (hone : l.countP (key · = k) ≤ 1) : l.find? (key · = k) = l'.find? (key · = k) := by
  have hkept : (l.filter (key · = k)).Perm (l'.filter (key · = k)) := hperm.filter _
  rw [List.countP_eq_length_filter] at hone
  rw [← List.head?_filter, ← List.head?_filter]
  rcases hfilter : l.filter (key · = k) with _ | ⟨x, _ | ⟨y, more⟩⟩
  · rw [hfilter] at hkept
    rw [List.nil_perm.mp hkept]
  · rw [hfilter] at hkept
    rw [← List.singleton_perm.mp hkept]
  · simp [hfilter] at hone

end StudyLinuxKernel.Library.OrderedSet
