import StudyLinuxKernel.Hashtable.Table
import StudyLinuxKernel.Library.PartialStep

namespace StudyLinuxKernel.Hashtable.Refinement

open StudyLinuxKernel.Hashtable.Table
open StudyLinuxKernel.Library.PartialStep

/-- A call of `hash_table_put` with a key that fits its array, and what
`malloc` answers in it. -/
structure Put where
  key : Key
  short : key.chars.length < MAX_KEY_LEN
  value : Value
  allocated : Bool

def putStep (table : HashTable) (put : Put) : Option HashTable :=
  hashTablePut table put.key put.value put.allocated

/-- A put takes effect if its key is there or can be allocated. -/
def record (done : List Put) (put : Put) : List Put :=
  if put.key ∈ done.map Put.key ∨ put.allocated then done ++ [put] else done

/-- The puts that take effect. -/
def effective (puts : List Put) : List Put := puts.foldl record []

def lastValue (key : Key) (done : List Put) : Option Value :=
  (done.reverse.find? (·.key = key)).map Put.value

/-- The value that the buckets hold for a key. -/
def valueOf (entries : Fin HASH_SIZE → List Entry) (key : Key) : Option Value :=
  ((entries (hashFunc key)).find? (·.key = key)).map Entry.value

structure Represents (table : HashTable) (entries : Fin HASH_SIZE → List Entry)
    (done : List Put) : Prop where
  layout : Layout table entries
  value : ∀ key, valueOf entries key = lastValue key done

theorem lastValue_concat (key : Key) (done : List Put) (put : Put) :
    lastValue key (done ++ [put]) =
      if put.key = key then some put.value else lastValue key done := by
  rw [lastValue, List.reverse_append, List.reverse_singleton, List.singleton_append,
    List.find?_cons]
  split
  · rename_i hkey
    rw [if_pos (of_decide_eq_true hkey)]
    rfl
  · rename_i hkey
    rw [if_neg (of_decide_eq_false hkey)]
    rfl

theorem map_find?_eq_none_iff {α : Type*} (key : α → Key) (value : α → Value) (k : Key)
    (l : List α) : (l.find? (key · = k)).map value = none ↔ k ∉ l.map key := by
  rw [Option.map_eq_none_iff, List.find?_eq_none]
  constructor
  · intro h hmem
    obtain ⟨x, hx, rfl⟩ := List.mem_map.mp hmem
    exact h x hx (decide_eq_true rfl)
  · rintro h x hx heq
    exact h (List.mem_map.mpr ⟨x, hx, of_decide_eq_true heq⟩)

theorem Represents.mem_iff {table : HashTable} {entries : Fin HASH_SIZE → List Entry}
    {done : List Put} (h : Represents table entries done) (key : Key) :
    key ∈ (entries (hashFunc key)).map Entry.key ↔ key ∈ done.map Put.key := by
  have hentries := map_find?_eq_none_iff Entry.key Entry.value key (entries (hashFunc key))
  have hdone := map_find?_eq_none_iff Put.key Put.value key done.reverse
  have hvalue := h.value key
  rw [valueOf, lastValue] at hvalue
  rw [hvalue, hdone, List.map_reverse, List.mem_reverse, not_iff_not] at hentries
  exact hentries.symm

theorem Represents.get {table : HashTable} {entries : Fin HASH_SIZE → List Entry}
    {done : List Put} (h : Represents table entries done) (key : Key) :
    hashTableGet table key = some ((lastValue key done).getD NULL) := by
  rw [hashTableGet_eq h.layout, ← h.value key]
  rfl

theorem find?_of_set {front rest : List Entry} {e : Entry} (value : Value) {k : Key}
    (hk : k ≠ e.key) :
    (front ++ { e with value := value } :: rest).find? (·.key = k) =
      (front ++ e :: rest).find? (·.key = k) := by
  rw [List.find?_append, List.find?_append, List.find?_cons_of_neg (by simpa using hk.symm),
    List.find?_cons_of_neg (by simpa using hk.symm)]

theorem find?_at_key {front rest : List Entry} {e : Entry} {key : Key} (he : e.key = key)
    (hfront : key ∉ front.map Entry.key) :
    (front ++ e :: rest).find? (·.key = key) = some e := by
  have hnone : front.find? (·.key = key) = none := by
    refine List.find?_eq_none.mpr fun x hx heq => hfront ?_
    exact List.mem_map.mpr ⟨x, hx, of_decide_eq_true heq⟩
  rw [List.find?_append, hnone, List.find?_cons_of_pos (by simpa using he)]
  rfl

theorem valueOf_update_of_ne {entries : Fin HASH_SIZE → List Entry} {b : Fin HASH_SIZE}
    (bucket : List Entry) {key : Key} (hkey : hashFunc key ≠ b) :
    valueOf (Function.update entries b bucket) key = valueOf entries key := by
  rw [valueOf, Function.update_of_ne hkey, valueOf]

theorem Represents.put_of_mem {table : HashTable} {entries : Fin HASH_SIZE → List Entry}
    {done : List Put} (h : Represents table entries done) (put : Put)
    (hmem : put.key ∈ done.map Put.key) :
    ∃ table' entries', putStep table put = some table' ∧
      Represents table' entries' (done ++ [put]) ∧ Grows entries entries' := by
  obtain ⟨key, short, value, allocated⟩ := put
  obtain ⟨e, he, rfl⟩ := List.mem_map.mp ((h.mem_iff key).mpr hmem)
  obtain ⟨front, rest, hentries⟩ := List.append_of_mem he
  obtain ⟨table', hput, hlayout⟩ := hashTablePut_of_mem h.layout hentries value allocated
  have hgrows : Grows entries (Function.update entries (hashFunc e.key)
      (front ++ { e with value := value } :: rest)) := by
    apply grows_update
    rw [hentries, List.map_append, List.map_append]
    exact List.prefix_rfl
  refine ⟨table', _, hput, ⟨hlayout, fun k => ?_⟩, hgrows⟩
  rw [lastValue_concat, ← h.value k]
  have hfront : e.key ∉ front.map Entry.key := by
    have hdistinct := h.layout.distinct (hashFunc e.key)
    rw [hentries, List.map_append, List.nodup_append] at hdistinct
    exact fun hk => hdistinct.2.2 e.key hk e.key List.mem_cons_self rfl
  rcases eq_or_ne k e.key with rfl | hk
  · rw [valueOf, Function.update_self, if_pos rfl]
    refine (congrArg (Option.map Entry.value) (find?_at_key ?_ hfront)).trans ?_
    all_goals rfl
  · rw [if_neg hk.symm]
    rcases eq_or_ne (hashFunc k) (hashFunc e.key) with hsame | hother
    · rw [valueOf, hsame, Function.update_self, find?_of_set value hk, ← hentries, ← hsame]
      rfl
    · exact valueOf_update_of_ne _ hother

theorem Represents.put_of_allocated {table : HashTable}
    {entries : Fin HASH_SIZE → List Entry} {done : List Put}
    (h : Represents table entries done) (put : Put) (hnew : put.key ∉ done.map Put.key)
    (hallocated : put.allocated = true) :
    ∃ table' entries', putStep table put = some table' ∧
      Represents table' entries' (done ++ [put]) ∧ Grows entries entries' := by
  obtain ⟨key, short, value, allocated⟩ := put
  obtain rfl : allocated = true := hallocated
  have habsent : key ∉ (entries (hashFunc key)).map Entry.key :=
    fun hmem => hnew ((h.mem_iff key).mp hmem)
  obtain ⟨table', hput, hlayout⟩ := hashTablePut_of_not_mem h.layout short habsent value
  have hgrows : Grows entries (Function.update entries (hashFunc key)
      (entries (hashFunc key) ++ [{ addr := table.heap.length, key, value }])) := by
    apply grows_update
    rw [List.map_append]
    exact List.prefix_append _ _
  refine ⟨table', _, hput, ⟨hlayout, fun k => ?_⟩, hgrows⟩
  rw [lastValue_concat, ← h.value k]
  rcases eq_or_ne key k with rfl | hk
  · rw [valueOf, Function.update_self, if_pos rfl]
    refine (congrArg (Option.map Entry.value) (find?_at_key ?_ habsent)).trans ?_
    all_goals rfl
  · rw [if_neg hk]
    rcases eq_or_ne (hashFunc k) (hashFunc key) with hsame | hother
    · rw [valueOf, hsame, Function.update_self, List.find?_append,
        List.find?_cons_of_neg (by simpa using hk), List.find?_nil, Option.or_none, ← hsame]
      rfl
    · exact valueOf_update_of_ne _ hother

theorem Represents.put_of_malloc_failed {table : HashTable}
    {entries : Fin HASH_SIZE → List Entry} {done : List Put}
    (h : Represents table entries done) (put : Put) (hnew : put.key ∉ done.map Put.key)
    (hfailed : put.allocated = false) : putStep table put = some table := by
  rw [putStep, hfailed]
  exact hashTablePut_of_malloc_failed h.layout
    (fun hmem => hnew ((h.mem_iff put.key).mp hmem)) put.value

theorem Represents.put {table : HashTable} {entries : Fin HASH_SIZE → List Entry}
    {done : List Put} (h : Represents table entries done) (put : Put) :
    ∃ table' entries', putStep table put = some table' ∧
      Represents table' entries' (record done put) ∧ Grows entries entries' := by
  rw [record]
  split
  · rename_i heffective
    rcases Decidable.em (put.key ∈ done.map Put.key) with hmem | hnew
    · exact h.put_of_mem put hmem
    · exact h.put_of_allocated put hnew (heffective.resolve_left hnew)
  · rename_i hlost
    rw [not_or, Bool.not_eq_true] at hlost
    exact ⟨table, entries, h.put_of_malloc_failed put hlost.1 hlost.2, h, Grows.refl entries⟩

theorem Represents.run (puts : List Put) :
    ∀ {table : HashTable} {entries : Fin HASH_SIZE → List Entry} {done : List Put},
      Represents table entries done →
      ∃ table' entries', run putStep table puts = some table' ∧
        Represents table' entries' (puts.foldl record done) := by
  induction puts with
  | nil =>
      intro table entries done h
      exact ⟨table, entries, rfl, h⟩
  | cons put puts ih =>
      intro table entries done h
      obtain ⟨table', entries', hput, h', _⟩ := h.put put
      rw [run_cons, hput]
      exact ih h'

theorem represents_hashTableInit (memory : HashTable) :
    Represents (hashTableInit memory) (fun _ => []) [] :=
  ⟨layout_hashTableInit memory, fun _ => rfl⟩

theorem hashTable_refines_map (memory : HashTable) (puts : List Put) :
    ∃ table, run putStep (hashTableInit memory) puts = some table ∧
      (∀ key, hashTableGet table key = some ((lastValue key (effective puts)).getD NULL)) ∧
      ∀ put : Put, ∃ table', putStep table put = some table' ∧
        (put.key ∈ (effective puts).map Put.key →
          hashTableGet table' put.key = some put.value ∧
          ∀ key, key ≠ put.key → hashTableGet table' key = hashTableGet table key) ∧
        (put.key ∉ (effective puts).map Put.key → put.allocated = false → table' = table) := by
  obtain ⟨table, entries, hrun, h⟩ :=
    Represents.run puts (represents_hashTableInit memory)
  refine ⟨table, hrun, h.get, fun put => ?_⟩
  obtain ⟨table', entries', hput, h', _⟩ := h.put put
  refine ⟨table', hput, fun hmem => ?_, fun hnew hfailed => ?_⟩
  · have hrecord : record (effective puts) put = effective puts ++ [put] :=
      if_pos (Or.inl hmem)
    rw [← effective, hrecord] at h'
    refine ⟨?_, fun key hkey => ?_⟩
    · rw [h'.get, lastValue_concat, if_pos rfl]
      rfl
    · rw [h'.get, lastValue_concat, if_neg hkey.symm, h.get]
      rfl
  · exact Option.some.inj (hput.symm.trans (h.put_of_malloc_failed put hnew hfailed))

end StudyLinuxKernel.Hashtable.Refinement
