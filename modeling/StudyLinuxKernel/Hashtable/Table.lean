import Mathlib.Data.List.FinRange
import Mathlib.Logic.Function.Basic
import StudyLinuxKernel.Library.LinkedHeap

/-!
The chained hash table of `common_hashtable_dll.c`.  The nodes that `malloc`
handed out are the list `heap`, and a pointer to a node is its index; an access
to memory that is no node has no result.
-/

namespace StudyLinuxKernel.Hashtable.Table

open StudyLinuxKernel.Library.LinkedHeap

def MAX_KEY_LEN : Nat := 128
def HASH_SIZE : Nat := 1024

/-- The characters of a C string, without the final NUL. -/
structure Key where
  chars : List UInt8
  noNul : 0 ∉ chars
  deriving DecidableEq

abbrev Value := UInt64
def NULL : Value := 0

/-- `hash_node_t`; the key is stored in an array of `MAX_KEY_LEN` characters. -/
structure HashNode where
  key : Key
  short : key.chars.length < MAX_KEY_LEN
  value : Value
  next : Option Nat
  deriving DecidableEq

structure HashTable where
  heap : List HashNode
  buckets : Fin HASH_SIZE → Option Nat

theorem hashSize_pos : 0 < HASH_SIZE := by decide

/-- `char` is signed. -/
def charToUnsigned (c : UInt8) : UInt32 := c.toInt8.toInt32.toUInt32

def hashFunc (key : Key) : Fin HASH_SIZE :=
  let hash := key.chars.foldl (fun hash p => hash * 31 + charToUnsigned p) 0
  ⟨hash.toNat % HASH_SIZE, Nat.mod_lt _ hashSize_pos⟩

/-- The new node, or NULL where `malloc` fails, and the heap.  A key that does
not fit its array has no result. -/
def hashNodeCreate (heap : List HashNode) (key : Key) (value : Value) (allocated : Bool) :
    Option (Option Nat × List HashNode) :=
  if allocated then
    if short : key.chars.length < MAX_KEY_LEN then
      some (some heap.length, heap ++ [{ key, short, value, next := none }])
    else none
  else some (none, heap)

def hashTableInit (table : HashTable) : HashTable :=
  { table with
    buckets := (List.finRange HASH_SIZE).foldl
      (fun buckets i => Function.update buckets i none) table.buckets }

/-- The loop of `hash_table_put` and what follows it, at the node `a`. -/
def putLoop (table : HashTable) (key : Key) (value : Value) (allocated : Bool) :
    Nat → Nat → Option HashTable
  | 0, _ => none
  | fuel + 1, a => do
      let node ← table.heap[a]?
      match node.next with
      | some next =>
          if node.key = key then
            some { table with heap := table.heap.set a { node with value := value } }
          else putLoop table key value allocated fuel next
      | none =>
          if node.key = key then
            some { table with heap := table.heap.set a { node with value := value } }
          else
            let (created, heap) ← hashNodeCreate table.heap key value allocated
            some { table with heap := heap.set a { node with next := created } }

/-- `hash_table_put`, with the answer of `malloc` if it is called. -/
def hashTablePut (table : HashTable) (key : Key) (value : Value) (allocated : Bool) :
    Option HashTable :=
  let hash := hashFunc key
  match table.buckets hash with
  | none => do
      let (created, heap) ← hashNodeCreate table.heap key value allocated
      some { heap := heap, buckets := Function.update table.buckets hash created }
  | some a => putLoop table key value allocated table.heap.length a

def getLoop (heap : List HashNode) (key : Key) : Nat → Option Nat → Option Value
  | _, none => some NULL
  | 0, some _ => none
  | fuel + 1, some a => do
      let node ← heap[a]?
      if node.key = key then some node.value else getLoop heap key fuel node.next

def hashTableGet (table : HashTable) (key : Key) : Option Value :=
  getLoop table.heap key table.heap.length (table.buckets (hashFunc key))

/-- What a node holds, with its address. -/
structure Entry where
  addr : Nat
  key : Key
  value : Value
  deriving DecidableEq

def entryOf (cell : Nat × HashNode) : Entry :=
  { addr := cell.1, key := cell.2.key, value := cell.2.value }

/-- What a put leaves of an entry. -/
def Entry.slot (e : Entry) : Nat × Key := (e.addr, e.key)

/-- Every bucket keeps its slots, and new ones come behind them. -/
def Grows (entries entries' : Fin HASH_SIZE → List Entry) : Prop :=
  ∀ b, (entries b).map Entry.slot <+: (entries' b).map Entry.slot

/-- The table holds `entries b` in the bucket `b`, in this order. -/
structure Layout (table : HashTable) (entries : Fin HASH_SIZE → List Entry) : Prop where
  chained : ∀ b, ∃ nodes, Chain HashNode.next table.heap (table.buckets b) nodes ∧
    nodes.map entryOf = entries b
  hashed : ∀ b, ∀ e ∈ entries b, hashFunc e.key = b
  distinct : ∀ b, ((entries b).map Entry.key).Nodup

theorem Grows.refl (entries : Fin HASH_SIZE → List Entry) : Grows entries entries :=
  fun _ => List.prefix_rfl

theorem grows_update {entries : Fin HASH_SIZE → List Entry} {b : Fin HASH_SIZE}
    {bucket : List Entry} (h : (entries b).map Entry.slot <+: bucket.map Entry.slot) :
    Grows entries (Function.update entries b bucket) := by
  intro other
  rcases eq_or_ne other b with rfl | hother
  · rw [Function.update_self]
    exact h
  · have hsame := Function.update_of_ne hother bucket entries
    exact hsame.symm ▸ List.prefix_rfl

theorem foldl_clear {n : Nat} {b : Fin n} (l : List (Fin n)) :
    ∀ buckets : Fin n → Option Nat, b ∈ l ∨ buckets b = none →
      l.foldl (fun buckets i => Function.update buckets i none) buckets b = none := by
  induction l with
  | nil =>
      intro buckets h
      exact h.resolve_left List.not_mem_nil
  | cons i l ih =>
      intro buckets h
      apply ih _
      rcases eq_or_ne b i with rfl | hne
      · exact Or.inr (Function.update_self b none buckets)
      · apply h.imp (fun hmem => (List.mem_cons.mp hmem).resolve_left hne)
        intro hb
        exact (Function.update_of_ne hne none buckets).trans hb

theorem buckets_hashTableInit (table : HashTable) (b : Fin HASH_SIZE) :
    (hashTableInit table).buckets b = none := by
  have hvisited : b ∈ List.finRange HASH_SIZE := List.mem_finRange b
  rw [hashTableInit]
  generalize List.finRange HASH_SIZE = visited at hvisited ⊢
  exact foldl_clear visited table.buckets (Or.inl hvisited)

theorem layout_hashTableInit (table : HashTable) :
    Layout (hashTableInit table) fun _ => [] where
  chained := fun b => ⟨[], buckets_hashTableInit table b, rfl⟩
  hashed := fun _ _ he => absurd he List.not_mem_nil
  distinct := fun _ => List.nodup_nil

theorem Layout.bucket_eq {table : HashTable} {entries : Fin HASH_SIZE → List Entry}
    (h : Layout table entries) (b : Fin HASH_SIZE) :
    table.buckets b = (entries b).head?.map Entry.addr := by
  obtain ⟨nodes, hchain, hnodes⟩ := h.chained b
  rw [← hnodes]
  cases nodes with
  | nil => exact hchain
  | cons cell nodes => exact hchain.1

theorem Layout.node_at {table : HashTable} {entries : Fin HASH_SIZE → List Entry}
    (h : Layout table entries) {b : Fin HASH_SIZE} {front rest : List Entry} {e : Entry}
    (hentries : entries b = front ++ e :: rest) :
    ∃ node, table.heap[e.addr]? = some node ∧ node.key = e.key ∧ node.value = e.value ∧
      node.next = rest.head?.map Entry.addr := by
  obtain ⟨nodes, hchain, hnodes⟩ := h.chained b
  rw [hentries] at hnodes
  obtain ⟨frontNodes, nodes, rfl, _, hnodes⟩ := List.map_eq_append_iff.mp hnodes
  obtain ⟨⟨x, node⟩, restNodes, rfl, rfl, hrest⟩ := List.map_eq_cons_iff.mp hnodes
  obtain ⟨m, _, _, hread, hafter⟩ := segment_append.mp hchain
  refine ⟨node, hread, rfl, rfl, ?_⟩
  rw [← hrest]
  cases restNodes with
  | nil => exact hafter
  | cons cell restNodes => exact hafter.1

theorem getLoop_of_chain {heap : List HashNode} (key : Key) (nodes : List (Nat × HashNode)) :
    ∀ {fuel p}, Chain HashNode.next heap p nodes → nodes.length ≤ fuel →
      getLoop heap key fuel p =
        some ((((nodes.map entryOf).find? (·.key = key)).map Entry.value).getD NULL) := by
  induction nodes with
  | nil =>
      intro fuel p h _
      obtain rfl : p = none := h
      cases fuel with
      | zero => rfl
      | succ fuel => rfl
  | cons cell nodes ih =>
      intro fuel p h hfuel
      obtain ⟨a, node⟩ := cell
      obtain ⟨rfl, hread, hrest⟩ := h
      cases fuel with
      | zero => cases hfuel
      | succ fuel =>
          have hshorter : nodes.length ≤ fuel := Nat.le_of_succ_le_succ hfuel
          rw [getLoop, hread]
          simp only [Option.bind_eq_bind, Option.bind_some]
          rcases eq_or_ne node.key key with heq | hne
          · rw [if_pos heq]
            simp [entryOf, heq]
          · rw [if_neg hne, ih hrest hshorter]
            simp [entryOf, hne]

theorem hashTableGet_eq {table : HashTable} {entries : Fin HASH_SIZE → List Entry}
    (h : Layout table entries) (key : Key) :
    hashTableGet table key =
      some ((((entries (hashFunc key)).find? (·.key = key)).map Entry.value).getD NULL) := by
  obtain ⟨nodes, hchain, hnodes⟩ := h.chained (hashFunc key)
  rw [hashTableGet, getLoop_of_chain key nodes hchain hchain.length_le, hnodes]

theorem putLoop_walk {table : HashTable} {key : Key} (value : Value) (allocated : Bool)
    {x : Nat} {node : HashNode} {rest : List (Nat × HashNode)}
    (front : List (Nat × HashNode)) :
    ∀ {fuel a}, Chain HashNode.next table.heap (some a) (front ++ (x, node) :: rest) →
      (∀ cell ∈ front, cell.2.key ≠ key) →
      putLoop table key value allocated (front.length + fuel) a =
        putLoop table key value allocated fuel x := by
  induction front with
  | nil =>
      intro fuel a h _
      obtain rfl := Option.some.inj h.1
      rw [List.length_nil, Nat.zero_add]
  | cons cell front ih =>
      intro fuel a h hfront
      obtain ⟨ha, hread, hrest⟩ := h
      obtain rfl := Option.some.inj ha
      have hother : cell.2.key ≠ key := hfront _ List.mem_cons_self
      obtain ⟨next, hnext⟩ : ∃ next, cell.2.next = some next := by
        cases front with
        | nil => exact ⟨_, hrest.1⟩
        | cons cell front => exact ⟨_, hrest.1⟩
      rw [hnext] at hrest
      rw [List.length_cons, Nat.add_right_comm, putLoop, hread]
      simp only [Option.bind_eq_bind, Option.bind_some, hnext, if_neg hother]
      exact ih hrest fun cell hcell => hfront cell (List.mem_cons_of_mem _ hcell)

theorem putLoop_at_key {table : HashTable} {key : Key} (value : Value) (allocated : Bool)
    {x : Nat} {node : HashNode} (hread : table.heap[x]? = some node) (hkey : node.key = key)
    (fuel : Nat) :
    putLoop table key value allocated (fuel + 1) x =
      some { table with heap := table.heap.set x { node with value := value } } := by
  rw [putLoop, hread]
  simp only [Option.bind_eq_bind, Option.bind_some, if_pos hkey]
  split <;> rfl

theorem putLoop_at_end {table : HashTable} {key : Key} (value : Value) (allocated : Bool)
    {x : Nat} {node : HashNode} (hread : table.heap[x]? = some node) (hkey : node.key ≠ key)
    (hnext : node.next = none) (fuel : Nat) :
    putLoop table key value allocated (fuel + 1) x =
      (hashNodeCreate table.heap key value allocated).bind fun created =>
        some { table with heap := created.2.set x { node with next := created.1 } } := by
  rw [putLoop, hread]
  simp only [Option.bind_eq_bind, Option.bind_some, hnext, if_neg hkey]

/-- What a changed heap leaves of the other buckets: `x` is an address of the
bucket `b`, or of none. -/
theorem Layout.beside {table : HashTable} {entries : Fin HASH_SIZE → List Entry}
    (h : Layout table entries) {b : Fin HASH_SIZE} {x : Nat} {node : HashNode}
    (hread : table.heap[x]? = some node) (hnode : hashFunc node.key = b)
    (more : List HashNode) (node' : HashNode) {other : Fin HASH_SIZE} (hother : other ≠ b) :
    ∃ nodes, Chain HashNode.next ((table.heap ++ more).set x node') (table.buckets other) nodes ∧
      nodes.map entryOf = entries other := by
  obtain ⟨nodes, hchain, hnodes⟩ := h.chained other
  refine ⟨nodes, Segment.write ?_ (Segment.grow more hchain), hnodes⟩
  intro hx
  obtain ⟨⟨_, node''⟩, hcell, rfl⟩ := List.mem_map.mp hx
  obtain rfl := Option.some.inj (hread.symm.trans (hchain.read hcell))
  apply hother
  rw [← hnode]
  exact (h.hashed other _ (hnodes ▸ List.mem_map_of_mem hcell)).symm

theorem Layout.update {table table' : HashTable} {entries : Fin HASH_SIZE → List Entry}
    (h : Layout table entries) {b : Fin HASH_SIZE} {bucket : List Entry}
    (hbucket : ∃ nodes, Chain HashNode.next table'.heap (table'.buckets b) nodes ∧
      nodes.map entryOf = bucket)
    (hothers : ∀ other, other ≠ b →
      ∃ nodes, Chain HashNode.next table'.heap (table'.buckets other) nodes ∧
        nodes.map entryOf = entries other)
    (hhashed : ∀ e ∈ bucket, hashFunc e.key = b) (hdistinct : (bucket.map Entry.key).Nodup) :
    Layout table' (Function.update entries b bucket) := by
  refine ⟨fun other => ?_, fun other => ?_, fun other => ?_⟩
  all_goals rcases eq_or_ne other b with rfl | hother
  · rw [Function.update_self]
    exact hbucket
  · rw [Function.update_of_ne hother]
    exact hothers other hother
  · rw [Function.update_self]
    exact hhashed
  · rw [Function.update_of_ne hother]
    exact h.hashed other
  · rw [Function.update_self]
    exact hdistinct
  · rw [Function.update_of_ne hother]
    exact h.distinct other

theorem hashTablePut_of_mem {table : HashTable} {entries : Fin HASH_SIZE → List Entry}
    (h : Layout table entries) {front rest : List Entry} {e : Entry}
    (hentries : entries (hashFunc e.key) = front ++ e :: rest) (value : Value)
    (allocated : Bool) :
    ∃ table', hashTablePut table e.key value allocated = some table' ∧
      Layout table' (Function.update entries (hashFunc e.key)
        (front ++ { e with value := value } :: rest)) := by
  obtain ⟨nodes, hchain, hnodes⟩ := h.chained (hashFunc e.key)
  rw [hentries] at hnodes
  obtain ⟨frontNodes, nodes, rfl, hfront, hnodes⟩ := List.map_eq_append_iff.mp hnodes
  obtain ⟨⟨x, node⟩, restNodes, rfl, hcell, hrest⟩ := List.map_eq_cons_iff.mp hnodes
  subst hcell
  have hread : table.heap[x]? = some node := Segment.read (by simp) hchain
  have hdistinct := h.distinct (hashFunc node.key)
  rw [show entries (hashFunc node.key) = _ from hentries] at hdistinct
  have hpassed : ∀ cell ∈ frontNodes, cell.2.key ≠ node.key := by
    intro cell hmem hkey
    rw [List.map_append, List.nodup_append] at hdistinct
    refine hdistinct.2.2 cell.2.key ?_ node.key List.mem_cons_self hkey
    rw [← hfront, List.map_map]
    exact List.mem_map_of_mem hmem
  obtain ⟨a, hhead⟩ : ∃ a, table.buckets (hashFunc node.key) = some a := by
    cases frontNodes with
    | nil => exact ⟨_, hchain.1⟩
    | cons cell frontNodes => exact ⟨_, hchain.1⟩
  obtain ⟨fuel, hfuel⟩ : ∃ fuel, table.heap.length = frontNodes.length + (fuel + 1) := by
    have hlength := hchain.length_le
    rw [List.length_append, List.length_cons] at hlength
    exact ⟨table.heap.length - frontNodes.length - 1, by omega⟩
  have hput : hashTablePut table node.key value allocated =
      some { table with heap := table.heap.set x { node with value := value } } := by
    rw [hashTablePut]
    simp only [hhead]
    rw [hfuel, putLoop_walk value allocated frontNodes (hhead ▸ hchain) hpassed,
      putLoop_at_key value allocated hread rfl]
  refine ⟨_, hput, h.update ⟨_, Chain.update hchain rfl, ?_⟩ ?_ ?_ ?_⟩
  · rw [List.map_append, List.map_cons, hfront, hrest]
    rfl
  · intro other hother
    have hbeside := h.beside hread rfl [] { node with value := value } hother
    rwa [List.append_nil] at hbeside
  · intro entry hentry
    have hsame : entry.key ∈ (entries (hashFunc node.key)).map Entry.key := by
      rw [show entries (hashFunc node.key) = _ from hentries]
      have hmem := List.mem_map_of_mem (f := Entry.key) hentry
      simpa using hmem
    obtain ⟨old, hold, hkey⟩ := List.mem_map.mp hsame
    rw [← hkey]
    exact h.hashed _ old hold
  · simpa using hdistinct

theorem hashTablePut_at_end {table : HashTable} {entries : Fin HASH_SIZE → List Entry}
    (h : Layout table entries) {key : Key}
    (hkey : key ∉ (entries (hashFunc key)).map Entry.key) (value : Value) (allocated : Bool)
    {a : Nat} (hhead : table.buckets (hashFunc key) = some a) :
    ∃ front x node,
      Chain HashNode.next table.heap (some a) (front ++ [(x, node)]) ∧
      (front ++ [(x, node)]).map entryOf = entries (hashFunc key) ∧
      hashTablePut table key value allocated =
        (hashNodeCreate table.heap key value allocated).bind fun created =>
          some { table with heap := created.2.set x { node with next := created.1 } } := by
  obtain ⟨nodes, hchain, hnodes⟩ := h.chained (hashFunc key)
  rw [hhead] at hchain
  rcases List.eq_nil_or_concat nodes with rfl | ⟨front, ⟨x, node⟩, rfl⟩
  · cases show some a = none from hchain
  · rw [List.concat_eq_append] at hchain hnodes
    refine ⟨front, x, node, hchain, hnodes, ?_⟩
    have hothers : ∀ cell ∈ front ++ [(x, node)], cell.2.key ≠ key := by
      rintro cell hcell rfl
      apply hkey
      rw [← hnodes, List.map_map]
      exact List.mem_map.mpr ⟨cell, hcell, rfl⟩
    have hread : table.heap[x]? = some node := Segment.read (by simp) hchain
    have hnext : node.next = none := by
      obtain ⟨m, _, hm⟩ := segment_append.mp hchain
      exact hm.2.2
    obtain ⟨fuel, hfuel⟩ : ∃ fuel, table.heap.length = front.length + (fuel + 1) := by
      have hlength := hchain.length_le
      rw [List.length_append, List.length_singleton] at hlength
      exact ⟨table.heap.length - front.length - 1, by omega⟩
    rw [hashTablePut]
    simp only [hhead]
    rw [hfuel, putLoop_walk value allocated front hchain
        fun cell hcell => hothers cell (List.mem_append_left _ hcell),
      putLoop_at_end value allocated hread (hothers (x, node) (by simp)) hnext]

theorem hashTablePut_of_malloc_failed {table : HashTable}
    {entries : Fin HASH_SIZE → List Entry} (h : Layout table entries) {key : Key}
    (hkey : key ∉ (entries (hashFunc key)).map Entry.key) (value : Value) :
    hashTablePut table key value false = some table := by
  cases hhead : table.buckets (hashFunc key) with
  | none =>
      rw [hashTablePut]
      simp only [hhead, hashNodeCreate]
      rw [if_neg Bool.false_ne_true]
      simp only [Option.bind_eq_bind, Option.bind_some, ← hhead, Function.update_eq_self]
  | some a =>
      obtain ⟨front, x, node, hchain, _, hput⟩ :=
        hashTablePut_at_end h hkey value false hhead
      obtain ⟨m, _, _, hread, hnext⟩ := segment_append.mp hchain
      have hnode : { node with next := none } = node := by
        cases node
        cases show _ = none from hnext
        rfl
      obtain ⟨hx, hget⟩ := List.getElem?_eq_some_iff.mp hread
      have hset : table.heap.set x node = table.heap := by
        rw [← hget, List.set_getElem_self]
      rw [hput, hashNodeCreate, if_neg Bool.false_ne_true, Option.bind_some]
      simp only [hnode, hset]

theorem Layout.hashed_concat {table : HashTable} {entries : Fin HASH_SIZE → List Entry}
    (h : Layout table entries) (entry : Entry) :
    ∀ e ∈ entries (hashFunc entry.key) ++ [entry], hashFunc e.key = hashFunc entry.key := by
  intro e he
  rcases List.mem_append.mp he with he | he
  · exact h.hashed _ e he
  · rw [List.mem_singleton.mp he]

theorem Layout.distinct_concat {table : HashTable} {entries : Fin HASH_SIZE → List Entry}
    (h : Layout table entries) {entry : Entry}
    (hkey : entry.key ∉ (entries (hashFunc entry.key)).map Entry.key) :
    ((entries (hashFunc entry.key) ++ [entry]).map Entry.key).Nodup := by
  rw [List.map_append, List.map_singleton]
  apply (h.distinct _).append (List.nodup_singleton _)
  rw [List.disjoint_singleton]
  exact hkey

theorem Layout.bucket_eq_nil {table : HashTable} {entries : Fin HASH_SIZE → List Entry}
    (h : Layout table entries) {b : Fin HASH_SIZE} (hhead : table.buckets b = none) :
    entries b = [] := by
  rw [h.bucket_eq, Option.map_eq_none_iff, List.head?_eq_none_iff] at hhead
  exact hhead

theorem hashTablePut_of_not_mem {table : HashTable} {entries : Fin HASH_SIZE → List Entry}
    (h : Layout table entries) {key : Key} (short : key.chars.length < MAX_KEY_LEN)
    (hkey : key ∉ (entries (hashFunc key)).map Entry.key) (value : Value) :
    ∃ table', hashTablePut table key value true = some table' ∧
      Layout table' (Function.update entries (hashFunc key)
        (entries (hashFunc key) ++ [{ addr := table.heap.length, key, value }])) := by
  let created : HashNode := { key, short, value, next := none }
  have hcreate : hashNodeCreate table.heap key value true =
      some (some table.heap.length, table.heap ++ [created]) := by
    rw [hashNodeCreate, if_pos rfl, dif_pos short]
  let entry : Entry := { addr := table.heap.length, key, value }
  have hhashed : ∀ e ∈ entries (hashFunc key) ++ [entry], hashFunc e.key = hashFunc key :=
    h.hashed_concat entry
  have hdistinct : ((entries (hashFunc key) ++ [entry]).map Entry.key).Nodup :=
    @Layout.distinct_concat _ _ h entry hkey
  cases hhead : table.buckets (hashFunc key) with
  | none =>
      have hput : hashTablePut table key value true =
          some { heap := table.heap ++ [created]
                 buckets := Function.update table.buckets (hashFunc key)
                  (some table.heap.length) } := by
        rw [hashTablePut]
        simp only [hhead, hcreate]
        rfl
      refine ⟨_, hput, h.update ⟨[(table.heap.length, created)], ?_, ?_⟩ ?_ hhashed hdistinct⟩
      · exact ⟨Function.update_self _ _ _, List.getElem?_concat_length, rfl⟩
      · rw [h.bucket_eq_nil hhead]
        rfl
      · intro other hother
        obtain ⟨nodes, hchain, hnodes⟩ := h.chained other
        refine ⟨nodes, ?_, hnodes⟩
        change Chain _ _ (Function.update table.buckets _ _ other) nodes
        rw [Function.update_of_ne hother]
        exact Segment.grow [created] hchain
  | some a =>
      obtain ⟨front, x, node, hchain, hnodes, hput⟩ :=
        hashTablePut_at_end h hkey value true hhead
      have hread : table.heap[x]? = some node := Segment.read (by simp) hchain
      have hnode : hashFunc node.key = hashFunc key := by
        apply h.hashed _ (entryOf (x, node))
        rw [← hnodes]
        exact List.mem_map_of_mem (by simp)
      rw [hcreate, Option.bind_some] at hput
      refine ⟨_, hput, h.update
        ⟨front ++ [(x, { node with next := some table.heap.length }),
          (table.heap.length, created)], ?_, ?_⟩ ?_ hhashed hdistinct⟩
      · change Chain _ _ (table.buckets (hashFunc key)) _
        rw [hhead]
        exact Chain.link hchain rfl rfl
      · rw [← hnodes, List.map_append, List.map_append, List.append_assoc]
        rfl
      · intro other hother
        exact h.beside hread hnode [created] _ hother

end StudyLinuxKernel.Hashtable.Table
