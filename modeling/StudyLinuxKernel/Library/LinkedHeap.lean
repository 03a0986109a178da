import Mathlib.Data.List.Nodup
import Mathlib.Data.List.Perm.Subperm

namespace StudyLinuxKernel.Library.LinkedHeap

variable {ν : Type*} (next : ν → Option Nat)

/-- The nodes passed on the way from the pointer `p` to the pointer `q`, with
their addresses. -/
def Segment (heap : List ν) : Option Nat → Option Nat → List (Nat × ν) → Prop
  | p, q, [] => p = q
  | p, q, (a, node) :: l => p = some a ∧ heap[a]? = some node ∧ Segment heap (next node) q l

/-- All nodes that are reached from `p`. -/
def Chain (heap : List ν) (p : Option Nat) (l : List (Nat × ν)) : Prop :=
  Segment next heap p none l

variable {next} {heap : List ν}

theorem segment_append {l r : List (Nat × ν)} :
    ∀ {p q : Option Nat}, Segment next heap p q (l ++ r) ↔
      ∃ m, Segment next heap p m l ∧ Segment next heap m q r := by
  induction l with
  | nil =>
      intro p q
      exact ⟨fun h => ⟨p, rfl, h⟩, fun ⟨_, hm, h⟩ => hm ▸ h⟩
  | cons entry l ih =>
      intro p q
      simp only [List.cons_append, Segment, ih]
      constructor
      · rintro ⟨hp, hread, m, hl, hr⟩
        exact ⟨m, ⟨hp, hread, hl⟩, hr⟩
      · rintro ⟨m, ⟨hp, hread, hl⟩, hr⟩
        exact ⟨hp, hread, m, hl, hr⟩

theorem Segment.read {l : List (Nat × ν)} {a : Nat} {node : ν} (hmem : (a, node) ∈ l) :
    ∀ {p q : Option Nat}, Segment next heap p q l → heap[a]? = some node := by
  induction l with
  | nil => simp at hmem
  | cons entry l ih =>
      intro p q h
      rcases List.mem_cons.mp hmem with rfl | hmem
      · exact h.2.1
      · exact ih hmem h.2.2

theorem Segment.lt_length {l : List (Nat × ν)} {p q : Option Nat}
    (h : Segment next heap p q l) {a : Nat} (ha : a ∈ l.map Prod.fst) : a < heap.length := by
  obtain ⟨⟨a, node⟩, hmem, rfl⟩ := List.mem_map.mp ha
  exact (List.getElem?_eq_some_iff.mp (h.read hmem)).1

theorem Chain.unique {l : List (Nat × ν)} :
    ∀ {p : Option Nat} {l' : List (Nat × ν)}, Chain next heap p l → Chain next heap p l' →
      l = l' := by
  induction l with
  | nil =>
      intro p l' h h'
      cases l' with
      | nil => rfl
      | cons entry l' =>
          obtain rfl : p = none := h
          cases h'.1
  | cons entry l ih =>
      intro p l' h h'
      cases l' with
      | nil =>
          obtain rfl : p = none := h'
          cases h.1
      | cons entry' l' =>
          obtain ⟨a, node⟩ := entry
          obtain ⟨a', node'⟩ := entry'
          obtain ⟨rfl, hread, hl⟩ := h
          obtain ⟨ha, hread', hl'⟩ := h'
          obtain rfl := Option.some.inj ha
          obtain rfl := Option.some.inj (hread.symm.trans hread')
          rw [ih hl hl']

theorem Chain.nodup {l : List (Nat × ν)} :
    ∀ {p : Option Nat}, Chain next heap p l → (l.map Prod.fst).Nodup := by
  induction l with
  | nil =>
      intro p _
      exact List.nodup_nil
  | cons entry l ih =>
      intro p h
      obtain ⟨a, node⟩ := entry
      refine List.nodup_cons.mpr ⟨fun hmem => ?_, ih h.2.2⟩
      obtain ⟨⟨_, node'⟩, hentry, rfl⟩ := List.mem_map.mp hmem
      obtain ⟨front, rest, rfl⟩ := List.append_of_mem hentry
      obtain ⟨m, _, hm⟩ := segment_append.mp h.2.2
      obtain rfl : m = p := hm.1.trans h.1.symm
      have hsame := congrArg List.length (Chain.unique hm h)
      rw [List.length_cons, List.length_cons, List.length_append, List.length_cons] at hsame
      omega

theorem Chain.length_le {l : List (Nat × ν)} {p : Option Nat} (h : Chain next heap p l) :
    l.length ≤ heap.length := by
  have hsubset : l.map Prod.fst ⊆ List.range heap.length := fun a ha =>
    List.mem_range.mpr (Segment.lt_length h ha)
  have hle := (List.subperm_of_subset h.nodup hsubset).length_le
  rwa [List.length_map, List.length_range] at hle

theorem Segment.write {l : List (Nat × ν)} {b : Nat} {x : ν} (hb : b ∉ l.map Prod.fst) :
    ∀ {p q : Option Nat}, Segment next heap p q l → Segment next (heap.set b x) p q l := by
  induction l with
  | nil =>
      intro p q h
      exact h
  | cons entry l ih =>
      intro p q h
      obtain ⟨a, node⟩ := entry
      rw [List.map_cons, List.mem_cons, not_or] at hb
      obtain ⟨hp, hread, hl⟩ := h
      refine ⟨hp, ?_, ih hb.2 hl⟩
      rw [List.getElem?_set_ne hb.1]
      exact hread

theorem Segment.grow {l : List (Nat × ν)} (more : List ν) :
    ∀ {p q : Option Nat}, Segment next heap p q l → Segment next (heap ++ more) p q l := by
  induction l with
  | nil =>
      intro p q h
      exact h
  | cons entry l ih =>
      intro p q h
      obtain ⟨hp, hread, hl⟩ := h
      refine ⟨hp, ?_, ih hl⟩
      rw [List.getElem?_append_left (List.getElem?_eq_some_iff.mp hread).1]
      exact hread

theorem Chain.not_mem_sides {front rest : List (Nat × ν)} {a : Nat} {node : ν}
    {p : Option Nat} (h : Chain next heap p (front ++ (a, node) :: rest)) :
    a ∉ front.map Prod.fst ∧ a ∉ rest.map Prod.fst := by
  have hnodup := h.nodup
  rw [List.map_append, List.map_cons, List.nodup_append, List.nodup_cons] at hnodup
  exact ⟨fun hmem => hnodup.2.2 a hmem a List.mem_cons_self rfl, hnodup.2.1.1⟩

theorem Chain.update {front rest : List (Nat × ν)} {a : Nat} {node node' : ν} {p : Option Nat}
    (h : Chain next heap p (front ++ (a, node) :: rest)) (hnext : next node' = next node) :
    Chain next (heap.set a node') p (front ++ (a, node') :: rest) := by
  obtain ⟨hfront, hrest⟩ := h.not_mem_sides
  obtain ⟨m, hbefore, hm, hread, hafter⟩ := segment_append.mp h
  refine segment_append.mpr ⟨m, hbefore.write hfront, hm, ?_, ?_⟩
  · exact List.getElem?_set_self (List.getElem?_eq_some_iff.mp hread).1
  · rw [hnext]
    exact hafter.write hrest

theorem Chain.link {front : List (Nat × ν)} {a : Nat} {node node' x : ν} {p : Option Nat}
    (h : Chain next heap p (front ++ [(a, node)])) (hnext : next node' = some heap.length)
    (hx : next x = none) :
    Chain next ((heap ++ [x]).set a node') p
      (front ++ [(a, node'), (heap.length, x)]) := by
  obtain ⟨hfront, _⟩ := h.not_mem_sides
  obtain ⟨m, hbefore, hm, hread, _⟩ := segment_append.mp h
  have ha : a < heap.length := (List.getElem?_eq_some_iff.mp hread).1
  have hgrown : a < (heap ++ [x]).length := by
    rw [List.length_append]
    exact Nat.lt_add_right _ ha
  refine segment_append.mpr ⟨m, (hbefore.grow [x]).write hfront, hm, ?_, hnext, ?_, hx⟩
  · exact List.getElem?_set_self hgrown
  · rw [List.getElem?_set_ne (Nat.ne_of_lt ha), List.getElem?_concat_length]

end StudyLinuxKernel.Library.LinkedHeap
