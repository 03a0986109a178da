import Mathlib.Data.List.Dedup
import StudyLinuxKernel.Hashtable.Refinement

namespace StudyLinuxKernel.Hashtable.Iteration

open StudyLinuxKernel.Hashtable.Table
open StudyLinuxKernel.Hashtable.Refinement
open StudyLinuxKernel.Library.LinkedHeap
open StudyLinuxKernel.Library.PartialStep

structure Context where
  bucketIndex : Int
  currentNode : Option Nat
  deriving DecidableEq

def nextNodeLoop (buckets : Fin HASH_SIZE → Option Nat) : Nat → Nat → Int
  | 0, _ => -1
  | fuel + 1, i =>
      if h : i < HASH_SIZE then
        if buckets ⟨i, h⟩ ≠ none then i else nextNodeLoop buckets fuel (i + 1)
      else -1

def hashTableNextNode (table : HashTable) (startNodeIdx : Nat) : Int :=
  if HASH_SIZE ≤ startNodeIdx then -1
  else nextNodeLoop table.buckets (HASH_SIZE - startNodeIdx) startNodeIdx

def bucketAt (table : HashTable) (i : Int) : Option (Option Nat) :=
  if h : i.toNat < HASH_SIZE then
    if 0 ≤ i then some (table.buckets ⟨i.toNat, h⟩) else none
  else none

/-- `hash_table_begin`, with memory for the context. -/
def hashTableBegin (table : HashTable) : Option Context :=
  let bucketIndex := hashTableNextNode table 0
  if bucketIndex ≠ -1 then do
    let currentNode ← bucketAt table bucketIndex
    some { bucketIndex, currentNode }
  else some { bucketIndex, currentNode := none }

def hashTableEnd (context : Context) : Bool := context.currentNode.isNone

def hashTableNext (table : HashTable) (context : Context) : Option Context := do
  let a ← context.currentNode
  let node ← table.heap[a]?
  match node.next with
  | none =>
      let bucketIndex := hashTableNextNode table (context.bucketIndex + 1).toNat
      if bucketIndex = -1 ∨ (HASH_SIZE : Int) ≤ bucketIndex then
        some { bucketIndex, currentNode := none }
      else do
        let currentNode ← bucketAt table bucketIndex
        some { bucketIndex, currentNode }
  | some next => some { context with currentNode := some next }

/-- The key is copied whole, as it is shorter than the array. -/
def hashTableCurrentValue (table : HashTable) (context : Context) : Option (Key × Value) := do
  let a ← context.currentNode
  let node ← table.heap[a]?
  some (node.key, node.value)

inductive Phase where
  | test
  | body
  | advance
  | done
  deriving DecidableEq

/-- A pair that the loop got, and what `hash_table_get` returns at that moment. -/
structure Yield where
  key : Key
  value : Value
  stored : Option Value

structure LoopState where
  table : HashTable
  context : Context
  phase : Phase
  yielded : List Yield

inductive Action where
  | put (put : Put)
  | loop

/-- The next call of the loop, or a put between two of them. -/
def loopStep (s : LoopState) : Action → Option LoopState
  | .put put => do
      let table ← putStep s.table put
      some { s with table := table }
  | .loop =>
      match s.phase with
      | .test =>
          some { s with phase := if hashTableEnd s.context then .done else .body }
      | .body => do
          let (key, value) ← hashTableCurrentValue s.table s.context
          let pair : Yield := { key, value, stored := hashTableGet s.table key }
          some { s with phase := .advance, yielded := s.yielded ++ [pair] }
      | .advance => do
          let context ← hashTableNext s.table s.context
          some { s with phase := .test, context := context }
      | .done => none

def LoopState.start (table : HashTable) (context : Context) : LoopState :=
  { table, context, phase := .test, yielded := [] }

/-- The entries of the buckets from index `i` on. -/
def entriesFrom (entries : Fin HASH_SIZE → List Entry) (i : Nat) : List Entry :=
  ((List.finRange HASH_SIZE).drop i).flatMap entries

theorem entriesFrom_eq_cons (entries : Fin HASH_SIZE → List Entry) {i : Nat}
    (h : i < HASH_SIZE) :
    entriesFrom entries i = entries ⟨i, h⟩ ++ entriesFrom entries (i + 1) := by
  have hlength : i < (List.finRange HASH_SIZE).length := by
    rw [List.length_finRange]
    exact h
  rw [entriesFrom, List.drop_eq_getElem_cons hlength, List.flatMap_cons, List.getElem_finRange]
  rfl

theorem entriesFrom_of_le (entries : Fin HASH_SIZE → List Entry) {i : Nat}
    (h : HASH_SIZE ≤ i) : entriesFrom entries i = [] := by
  have hlength : (List.finRange HASH_SIZE).length ≤ i := by
    rw [List.length_finRange]
    exact h
  rw [entriesFrom, List.drop_eq_nil_of_le hlength, List.flatMap_nil]

theorem mem_drop_finRange {n i : Nat} {b : Fin n} :
    b ∈ (List.finRange n).drop i ↔ i ≤ b.val := by
  rw [List.mem_drop_iff_getElem]
  constructor
  · rintro ⟨j, hj, hget⟩
    rw [List.getElem_finRange] at hget
    rw [← hget]
    exact Nat.le_add_right i j
  · intro h
    refine ⟨b.val - i, ?_, ?_⟩
    · rw [List.length_finRange]
      omega
    · rw [List.getElem_finRange]
      exact Fin.ext (Nat.add_sub_cancel' h)

theorem mem_entriesFrom {table : HashTable} {entries : Fin HASH_SIZE → List Entry}
    (h : Layout table entries) {i : Nat} {key : Key} :
    key ∈ (entriesFrom entries i).map Entry.key ↔
      i ≤ (hashFunc key).val ∧ key ∈ (entries (hashFunc key)).map Entry.key := by
  rw [entriesFrom, List.mem_map]
  constructor
  · rintro ⟨e, he, rfl⟩
    obtain ⟨b, hb, he⟩ := List.mem_flatMap.mp he
    obtain rfl := h.hashed b e he
    exact ⟨mem_drop_finRange.mp hb, List.mem_map_of_mem he⟩
  · rintro ⟨hi, hkey⟩
    obtain ⟨e, he, rfl⟩ := List.mem_map.mp hkey
    exact ⟨e, List.mem_flatMap.mpr ⟨_, mem_drop_finRange.mpr hi, he⟩, rfl⟩

theorem nodup_entriesFrom {table : HashTable} {entries : Fin HASH_SIZE → List Entry}
    (h : Layout table entries) (i : Nat) :
    ((entriesFrom entries i).map Entry.key).Nodup := by
  rw [entriesFrom, List.map_flatMap]
  refine List.nodup_flatMap.mpr ⟨fun b _ => h.distinct b, ?_⟩
  have hbuckets : ((List.finRange HASH_SIZE).drop i).Nodup :=
    (List.nodup_finRange HASH_SIZE).sublist (List.drop_sublist i _)
  refine hbuckets.imp fun {b b'} hne key hkey hkey' => ?_
  obtain ⟨e, he, rfl⟩ := List.mem_map.mp hkey
  obtain ⟨e', he', heq⟩ := List.mem_map.mp hkey'
  apply hne
  rw [← h.hashed b e he, ← h.hashed b' e' he', heq]

theorem nextNodeLoop_spec {table : HashTable} {entries : Fin HASH_SIZE → List Entry}
    (h : Layout table entries) (fuel : Nat) :
    ∀ i, i + fuel = HASH_SIZE →
      nextNodeLoop table.buckets fuel i = -1 ∧ entriesFrom entries i = [] ∨
      ∃ (j : Fin HASH_SIZE) (e : Entry) (rest : List Entry),
        nextNodeLoop table.buckets fuel i = (j.val : Int) ∧ entries j = e :: rest ∧
        entriesFrom entries i = e :: rest ++ entriesFrom entries (j.val + 1) := by
  induction fuel with
  | zero =>
      intro i hi
      exact Or.inl ⟨rfl, entriesFrom_of_le entries (Nat.le_of_eq hi.symm)⟩
  | succ fuel ih =>
      intro i hi
      have hlt : i < HASH_SIZE := by omega
      rw [nextNodeLoop, dif_pos hlt, entriesFrom_eq_cons entries hlt]
      cases hbucket : entries ⟨i, hlt⟩ with
      | nil =>
          have hnull : table.buckets ⟨i, hlt⟩ = none := by
            rw [h.bucket_eq, hbucket]
            rfl
          rw [hnull, if_neg (not_not_intro rfl), List.nil_append]
          exact ih (i + 1) (by omega)
      | cons e rest =>
          have hnode : table.buckets ⟨i, hlt⟩ = some e.addr := by
            rw [h.bucket_eq, hbucket]
            rfl
          rw [hnode, if_pos (Option.some_ne_none _)]
          exact Or.inr ⟨⟨i, hlt⟩, e, rest, rfl, hbucket, rfl⟩

theorem hashTableNextNode_spec {table : HashTable} {entries : Fin HASH_SIZE → List Entry}
    (h : Layout table entries) (i : Nat) :
    hashTableNextNode table i = -1 ∧ entriesFrom entries i = [] ∨
      ∃ (j : Fin HASH_SIZE) (e : Entry) (rest : List Entry),
        hashTableNextNode table i = (j.val : Int) ∧ entries j = e :: rest ∧
        entriesFrom entries i = e :: rest ++ entriesFrom entries (j.val + 1) := by
  rw [hashTableNextNode]
  rcases Nat.lt_or_ge i HASH_SIZE with hlt | hge
  · rw [if_neg (Nat.not_le.mpr hlt)]
    exact nextNodeLoop_spec h (HASH_SIZE - i) i (by omega)
  · rw [if_pos hge]
    exact Or.inl ⟨rfl, entriesFrom_of_le entries hge⟩

theorem bucketAt_val (table : HashTable) (j : Fin HASH_SIZE) :
    bucketAt table (j.val : Int) = some (table.buckets j) := by
  rw [bucketAt, dif_pos (show (j.val : Int).toNat < HASH_SIZE from j.isLt),
    if_pos (Int.natCast_nonneg _)]
  rfl

/-- The context stands in front of the entries `ahead`. -/
inductive Cursor (entries : Fin HASH_SIZE → List Entry) (context : Context) :
    List Entry → Prop
  | finished (hnode : context.currentNode = none) : Cursor entries context []
  | within (b : Fin HASH_SIZE) (front rest : List Entry) (e : Entry)
      (hindex : context.bucketIndex = (b.val : Int))
      (hnode : context.currentNode = some e.addr)
      (hentries : entries b = front ++ e :: rest) :
      Cursor entries context (e :: (rest ++ entriesFrom entries (b.val + 1)))

theorem cursor_at_bucket {table : HashTable} {entries : Fin HASH_SIZE → List Entry}
    (h : Layout table entries) (i : Nat) :
    hashTableNextNode table i = -1 ∧ entriesFrom entries i = [] ∨
      ∃ (j : Fin HASH_SIZE) (currentNode : Option Nat),
        hashTableNextNode table i = (j.val : Int) ∧
        bucketAt table (hashTableNextNode table i) = some currentNode ∧
        Cursor entries { bucketIndex := hashTableNextNode table i, currentNode }
          (entriesFrom entries i) := by
  rcases hashTableNextNode_spec h i with hend | ⟨j, e, rest, hindex, hentries, hfrom⟩
  · exact Or.inl hend
  · refine Or.inr ⟨j, some e.addr, hindex, ?_, ?_⟩
    · rw [hindex, bucketAt_val, h.bucket_eq, hentries]
      rfl
    · rw [hfrom, List.cons_append]
      exact Cursor.within j [] rest e hindex rfl hentries

theorem hashTableBegin_spec {table : HashTable} {entries : Fin HASH_SIZE → List Entry}
    (h : Layout table entries) :
    ∃ context, hashTableBegin table = some context ∧
      Cursor entries context (entriesFrom entries 0) := by
  rw [hashTableBegin]
  rcases cursor_at_bucket h 0 with ⟨hindex, hempty⟩ | ⟨j, currentNode, hindex, hread, hcursor⟩
  · rw [hempty, hindex]
    exact ⟨_, rfl, Cursor.finished rfl⟩
  · have hne : hashTableNextNode table 0 ≠ -1 := by
      rw [hindex]
      omega
    simp only [if_pos hne, hread, Option.bind_eq_bind, Option.bind_some]
    exact ⟨_, rfl, hcursor⟩

theorem hashTableNext_spec {table : HashTable} {entries : Fin HASH_SIZE → List Entry}
    (h : Layout table entries) {context : Context} {e : Entry} {ahead : List Entry}
    (hcursor : Cursor entries context (e :: ahead)) :
    ∃ context', hashTableNext table context = some context' ∧
      Cursor entries context' ahead := by
  cases hcursor with
  | within b front rest _ hindex hnode hentries =>
      obtain ⟨node, hread, _, _, hnext⟩ := h.node_at hentries
      rw [hashTableNext, hnode]
      simp only [Option.bind_eq_bind, Option.bind_some, hread]
      cases rest with
      | cons e' rest =>
          rw [show node.next = some e'.addr from hnext]
          refine ⟨_, rfl, Cursor.within b (front ++ [e]) rest e' hindex rfl ?_⟩
          rw [hentries, List.append_assoc]
          rfl
      | nil =>
          have hstart : (context.bucketIndex + 1).toNat = b.val + 1 := by
            rw [hindex]
            rfl
          rw [show node.next = none from hnext, List.nil_append]
          simp only [hstart]
          rcases cursor_at_bucket h (b.val + 1) with
            ⟨hend, hempty⟩ | ⟨j, currentNode, hj, hslot, hcursor⟩
          · rw [hempty, hend]
            exact ⟨_, rfl, Cursor.finished rfl⟩
          · have hinside : ¬ (hashTableNextNode table (b.val + 1) = -1 ∨
                (HASH_SIZE : Int) ≤ hashTableNextNode table (b.val + 1)) := by
              rw [hj]
              have := j.isLt
              omega
            rw [if_neg hinside, hslot]
            exact ⟨_, rfl, hcursor⟩

theorem map_key_eq (l : List Entry) : l.map Entry.key = (l.map Entry.slot).map Prod.snd := by
  rw [List.map_map]
  rfl

theorem mem_of_grows {entries entries' : Fin HASH_SIZE → List Entry} (h : Grows entries entries')
    {b : Fin HASH_SIZE} {key : Key} (hkey : key ∈ (entries b).map Entry.key) :
    key ∈ (entries' b).map Entry.key := by
  rw [map_key_eq] at hkey ⊢
  exact ((h b).map Prod.snd).subset hkey

theorem Cursor.suffix {entries : Fin HASH_SIZE → List Entry} {context : Context}
    {e : Entry} {ahead : List Entry} (h : Cursor entries context (e :: ahead)) :
    ∃ (b : Fin HASH_SIZE) (front : List Entry),
      entriesFrom entries b.val = front ++ e :: ahead := by
  cases h with
  | within b front rest _ _ _ hentries =>
      refine ⟨b, front, ?_⟩
      rw [entriesFrom_eq_cons entries b.isLt, show entries ⟨b.val, b.isLt⟩ = _ from hentries,
        List.append_assoc]
      rfl

theorem Cursor.nodup {table : HashTable} {entries : Fin HASH_SIZE → List Entry}
    (h : Layout table entries) {context : Context} {ahead : List Entry}
    (hcursor : Cursor entries context ahead) : (ahead.map Entry.key).Nodup := by
  cases ahead with
  | nil => exact List.nodup_nil
  | cons e ahead =>
      obtain ⟨b, front, hfrom⟩ := hcursor.suffix
      have hnodup := nodup_entriesFrom h b.val
      rw [hfrom] at hnodup
      exact hnodup.sublist ((List.sublist_append_right front _).map Entry.key)

theorem Cursor.grow {table table' : HashTable} {entries entries' : Fin HASH_SIZE → List Entry}
    (h : Layout table entries) (h' : Layout table' entries') (hgrows : Grows entries entries')
    {context : Context} {ahead : List Entry} (hcursor : Cursor entries context ahead) :
    ∃ ahead', Cursor entries' context ahead' ∧
      ahead'.head?.map Entry.key = ahead.head?.map Entry.key ∧
      (∀ key ∈ ahead.map Entry.key, key ∈ ahead'.map Entry.key) ∧
      ∀ key ∈ ahead'.map Entry.key, key ∈ (entries (hashFunc key)).map Entry.key →
        key ∈ ahead.map Entry.key := by
  cases hcursor with
  | finished hnode =>
      exact ⟨[], Cursor.finished hnode, rfl, fun _ hkey => hkey, fun _ hkey _ => hkey⟩
  | within b front rest e hindex hnode hentries =>
      obtain ⟨more, hmore⟩ := hgrows b
      rw [hentries, List.map_append, List.map_cons, List.append_assoc, List.cons_append] at hmore
      obtain ⟨front', behind, hsplit, hfront, hbehind⟩ :=
        List.map_eq_append_iff.mp hmore.symm
      obtain ⟨e', rest', rfl, he, hrest⟩ := List.map_eq_cons_iff.mp hbehind
      obtain ⟨haddr, hkey⟩ := Prod.mk.inj he
      have hfrontKeys : front'.map Entry.key = front.map Entry.key := by
        rw [map_key_eq, hfront, ← map_key_eq]
      have hbucket : ∀ key, key ∈ (e :: rest).map Entry.key → hashFunc key = b := by
        intro key hmem
        obtain ⟨entry, hentry, rfl⟩ := List.mem_map.mp hmem
        exact h.hashed b entry (hentries ▸ List.mem_append_right front hentry)
      have hbucket' : ∀ key, key ∈ (e' :: rest').map Entry.key → hashFunc key = b := by
        intro key hmem
        obtain ⟨entry, hentry, rfl⟩ := List.mem_map.mp hmem
        exact h'.hashed b entry (hsplit ▸ List.mem_append_right front' hentry)
      refine ⟨_, Cursor.within b front' rest' e' hindex (haddr ▸ hnode) hsplit,
        congrArg some hkey, fun key hmem => ?_, fun key hmem hpresent => ?_⟩
      · rw [← List.cons_append, List.map_append, List.mem_append] at hmem ⊢
        refine hmem.imp (fun hmem => ?_) fun hmem => ?_
        · rw [map_key_eq, List.map_cons, he, hrest, ← List.cons_append, List.map_append,
            ← List.map_cons, ← map_key_eq]
          exact List.mem_append_left _ hmem
        · obtain ⟨hlater, hkeys⟩ := (mem_entriesFrom h).mp hmem
          exact (mem_entriesFrom h').mpr ⟨hlater, mem_of_grows hgrows hkeys⟩
      · rw [← List.cons_append, List.map_append, List.mem_append] at hmem ⊢
        refine hmem.imp (fun hmem => ?_) fun hmem => ?_
        · rw [hbucket' key hmem, hentries, List.map_append, List.mem_append] at hpresent
          apply hpresent.resolve_left
          intro hpassed
          have hdistinct := h'.distinct b
          rw [hsplit, List.map_append, List.nodup_append, hfrontKeys] at hdistinct
          exact hdistinct.2.2 key hpassed key hmem rfl
        · exact (mem_entriesFrom h).mpr ⟨((mem_entriesFrom h').mp hmem).1, hpresent⟩

/-- What the loop still has to yield. -/
def pending (phase : Phase) (ahead : List Entry) : List Entry :=
  if phase = .advance then ahead.tail else ahead

theorem mem_pending_iff {phase : Phase} {ahead : List Entry}
    (hdistinct : (ahead.map Entry.key).Nodup) (key : Key) :
    key ∈ (pending phase ahead).map Entry.key ↔
      key ∈ ahead.map Entry.key ∧
        ¬ (phase = .advance ∧ ahead.head?.map Entry.key = some key) := by
  rw [pending]
  split
  · rename_i hphase
    cases ahead with
    | nil => simp
    | cons e ahead =>
        rw [List.map_cons, List.nodup_cons] at hdistinct
        simp only [List.tail_cons, List.map_cons, List.mem_cons, List.head?_cons,
          Option.map_some, Option.some.injEq, hphase, true_and]
        constructor
        · intro hmem
          refine ⟨Or.inr hmem, ?_⟩
          rintro rfl
          exact hdistinct.1 hmem
        · rintro ⟨hmem, hne⟩
          exact hmem.resolve_left fun heq => hne heq.symm
  · rename_i hphase
    simp [hphase]

theorem loopStep_test {s : LoopState} (hphase : s.phase = .test)
    {entries : Fin HASH_SIZE → List Entry} {ahead : List Entry}
    (hcursor : Cursor entries s.context ahead) :
    loopStep s .loop =
      some { s with phase := if ahead = [] then .done else .body } := by
  have hend : hashTableEnd s.context = true ↔ ahead = [] := by
    rw [hashTableEnd, Option.isNone_iff_eq_none]
    cases hcursor with
    | finished hnode => exact iff_of_true hnode rfl
    | within b front rest e hindex hnode hentries =>
        rw [hnode]
        exact iff_of_false (Option.some_ne_none _) (List.cons_ne_nil _ _)
  rw [loopStep]
  simp only [hphase, hend]

theorem loopStep_body {s : LoopState} (hphase : s.phase = .body)
    {entries : Fin HASH_SIZE → List Entry} (h : Layout s.table entries)
    {e : Entry} {ahead : List Entry} (hcursor : Cursor entries s.context (e :: ahead)) :
    loopStep s .loop =
      some { s with
        phase := .advance
        yielded := s.yielded ++ [{ key := e.key, value := e.value, stored := some e.value }] } := by
  cases hcursor with
  | within b front rest _ hindex hnode hentries =>
      obtain ⟨node, hread, hkey, hvalue, _⟩ := h.node_at hentries
      have hbucket : hashFunc e.key = b := h.hashed b e (by simp [hentries])
      have hfront : e.key ∉ front.map Entry.key := by
        have hdistinct := h.distinct b
        rw [hentries, List.map_append, List.nodup_append] at hdistinct
        exact fun hmem => hdistinct.2.2 e.key hmem e.key List.mem_cons_self rfl
      have hget : hashTableGet s.table e.key = some e.value := by
        rw [hashTableGet_eq h, hbucket, hentries, find?_at_key rfl hfront]
        rfl
      rw [loopStep]
      simp only [hphase, hashTableCurrentValue, hnode, Option.bind_eq_bind, Option.bind_some,
        hread, hkey, hvalue, hget]

theorem loopStep_advance {s : LoopState} (hphase : s.phase = .advance)
    {entries : Fin HASH_SIZE → List Entry} (h : Layout s.table entries)
    {e : Entry} {ahead : List Entry} (hcursor : Cursor entries s.context (e :: ahead)) :
    ∃ context, loopStep s .loop = some { s with phase := .test, context := context } ∧
      Cursor entries context ahead := by
  obtain ⟨context, hnext, hcursor'⟩ := hashTableNext_spec h hcursor
  refine ⟨context, ?_, hcursor'⟩
  rw [loopStep]
  simp only [hphase, hnext, Option.bind_eq_bind, Option.bind_some]

/-- Without puts the loop yields all entries ahead, three calls for each. -/
theorem loop_finishes {entries : Fin HASH_SIZE → List Entry} (ahead : List Entry) :
    ∀ s : LoopState, s.phase = .test → Layout s.table entries →
      Cursor entries s.context ahead →
      ∃ s', run loopStep s (List.replicate (3 * ahead.length + 1) .loop) = some s' ∧
        s'.phase = .done ∧ s'.yielded.length = s.yielded.length + ahead.length := by
  induction ahead with
  | nil =>
      intro s hphase _ hcursor
      refine ⟨{ s with phase := .done }, ?_, rfl, rfl⟩
      change run loopStep s [.loop] = _
      rw [run_cons, loopStep_test hphase hcursor, if_pos rfl]
      rfl
  | cons e ahead ih =>
      intro s hphase h hcursor
      let body : LoopState := { s with phase := .body }
      let after : LoopState :=
        { s with
          phase := .advance
          yielded := s.yielded ++ [{ key := e.key, value := e.value, stored := some e.value }] }
      have htest : loopStep s .loop = some body := by
        rw [loopStep_test hphase hcursor, if_neg (List.cons_ne_nil e ahead)]
      have hbody : loopStep body .loop = some after := loopStep_body (s := body) rfl h hcursor
      obtain ⟨context, hadvance, hcursor'⟩ := loopStep_advance (s := after) rfl h hcursor
      obtain ⟨s', hrun, hdone, hlength⟩ :=
        ih { after with phase := .test, context := context } rfl h hcursor'
      refine ⟨s', ?_, hdone, ?_⟩
      · change run loopStep s (.loop :: .loop :: .loop ::
          List.replicate (3 * ahead.length + 1) .loop) = some s'
        rw [run_cons, htest, Option.bind_some, run_cons, hbody, Option.bind_some, run_cons,
          hadvance]
        exact hrun
      · have hafter : after.yielded.length = s.yielded.length + 1 := List.length_append
        apply hlength.trans
        change after.yielded.length + ahead.length = _
        rw [hafter, List.length_cons, Nat.add_assoc, Nat.add_comm 1]

/-- The invariant of the loop: `keys` were there when it began, and `ahead` is
what the cursor has not passed. -/
structure Progress (keys : List Key) (s : LoopState) (entries : Fin HASH_SIZE → List Entry)
    (puts : List Put) (ahead : List Entry) : Prop where
  represents : Represents s.table entries puts
  cursor : Cursor entries s.context ahead
  busy : s.phase = .body ∨ s.phase = .advance → ahead ≠ []
  ended : s.phase = .done → ahead = []
  distinct : (s.yielded.map Yield.key).Nodup
  current : ∀ pair ∈ s.yielded, pair.stored = some pair.value
  known : ∀ key ∈ s.yielded.map Yield.key, key ∈ puts.map Put.key
  apart : ∀ key ∈ s.yielded.map Yield.key, key ∉ (pending s.phase ahead).map Entry.key
  covered : ∀ key ∈ keys,
    key ∈ s.yielded.map Yield.key ∨ key ∈ (pending s.phase ahead).map Entry.key

theorem Progress.put {keys : List Key} {s : LoopState} {entries : Fin HASH_SIZE → List Entry}
    {puts : List Put} {ahead : List Entry} (h : Progress keys s entries puts ahead)
    (put : Put) :
    ∃ table entries' ahead', loopStep s (.put put) = some { s with table := table } ∧
      Progress keys { s with table := table } entries' (record puts put) ahead' := by
  obtain ⟨table, entries', hput, hrepresents, hgrows⟩ := h.represents.put put
  obtain ⟨ahead', hcursor, hhead, hkept, hnew⟩ :=
    h.cursor.grow h.represents.layout hrepresents.layout hgrows
  have hempty : ahead' = [] ↔ ahead = [] := by
    rw [← List.head?_eq_none_iff, ← List.head?_eq_none_iff, ← Option.map_eq_none_iff, hhead,
      Option.map_eq_none_iff]
  have hdistinct := h.cursor.nodup h.represents.layout
  have hdistinct' := hcursor.nodup hrepresents.layout
  refine ⟨table, entries', ahead', ?_, hrepresents, hcursor, ?_, ?_, h.distinct, h.current,
    ?_, ?_, ?_⟩
  · rw [loopStep, hput]
    rfl
  · exact fun hphase => mt hempty.mp (h.busy hphase)
  · exact fun hphase => hempty.mpr (h.ended hphase)
  · intro key hkey
    rw [record]
    split
    · rw [List.map_append]
      exact List.mem_append_left _ (h.known key hkey)
    · exact h.known key hkey
  · intro key hkey hmem
    obtain ⟨hmem, hhead'⟩ := (mem_pending_iff hdistinct' key).mp hmem
    have hpresent := (h.represents.mem_iff key).mpr (h.known key hkey)
    rw [hhead] at hhead'
    exact h.apart key hkey ((mem_pending_iff hdistinct key).mpr
      ⟨hnew key hmem hpresent, hhead'⟩)
  · intro key hkey
    apply (h.covered key hkey).imp_right
    intro hmem
    obtain ⟨hmem, hhead'⟩ := (mem_pending_iff hdistinct key).mp hmem
    rw [← hhead] at hhead'
    exact (mem_pending_iff hdistinct' key).mpr ⟨hkept key hmem, hhead'⟩

section Loop

variable {keys : List Key} {s s' : LoopState} {entries : Fin HASH_SIZE → List Entry}
  {puts : List Put} {ahead : List Entry}

theorem pending_of_test (ahead : List Entry) :
    pending (if ahead = [] then .done else .body) ahead = ahead := by
  rcases eq_or_ne ahead [] with rfl | hne
  · rfl
  · rw [if_neg hne]
    rfl

theorem Progress.test (h : Progress keys s entries puts ahead) (hphase : s.phase = .test)
    (hstep : loopStep s .loop = some s') : Progress keys s' entries puts ahead := by
  have hpending := h.apart
  have hcovered := h.covered
  rw [hphase] at hpending hcovered
  rw [loopStep_test hphase h.cursor] at hstep
  obtain rfl := Option.some.inj hstep
  refine ⟨h.represents, h.cursor, ?_, ?_, h.distinct, h.current, h.known, ?_, ?_⟩
  · rintro hbusy rfl
    rcases hbusy with hbusy | hbusy
    · cases hbusy
    · cases hbusy
  · intro hended
    rcases eq_or_ne ahead [] with hempty | hne
    · exact hempty
    · cases (if_neg hne).symm.trans hended
  · rw [pending_of_test]
    exact hpending
  · rw [pending_of_test]
    exact hcovered

theorem Progress.body (h : Progress keys s entries puts ahead) (hphase : s.phase = .body)
    (hstep : loopStep s .loop = some s') : Progress keys s' entries puts ahead := by
  have hlayout := h.represents.layout
  have hpending := h.apart
  have hcovered := h.covered
  rw [hphase] at hpending hcovered
  obtain ⟨e, rest, rfl⟩ := List.exists_cons_of_ne_nil (h.busy (Or.inl hphase))
  rw [loopStep_body hphase hlayout h.cursor] at hstep
  obtain rfl := Option.some.inj hstep
  have hdistinct := h.cursor.nodup hlayout
  rw [List.map_cons, List.nodup_cons] at hdistinct
  have hfresh : e.key ∉ s.yielded.map Yield.key := fun hmem =>
    hpending e.key hmem (List.mem_map_of_mem List.mem_cons_self)
  refine ⟨h.represents, h.cursor, fun _ => List.cons_ne_nil e rest,
    (fun hended => nomatch hended), ?_, ?_, ?_, ?_, ?_⟩
  · rw [List.map_append, List.nodup_append]
    refine ⟨h.distinct, List.nodup_singleton _, ?_⟩
    rintro key hkey key' hkey' rfl
    obtain rfl : key = e.key := List.mem_singleton.mp hkey'
    exact hfresh hkey
  · intro pair hpair
    rcases List.mem_append.mp hpair with hpair | hpair
    · exact h.current pair hpair
    · rw [List.mem_singleton.mp hpair]
  · intro key hkey
    rw [List.map_append, List.mem_append, List.map_singleton, List.mem_singleton] at hkey
    rcases hkey with hkey | rfl
    · exact h.known key hkey
    · obtain ⟨b, front, hfrom⟩ := h.cursor.suffix
      have hmem : e.key ∈ (entriesFrom entries b.val).map Entry.key := by
        rw [hfrom]
        exact List.mem_map_of_mem (List.mem_append_right front List.mem_cons_self)
      exact (h.represents.mem_iff e.key).mp ((mem_entriesFrom hlayout).mp hmem).2
  · intro key hkey hmem
    rw [List.map_append, List.mem_append, List.map_singleton, List.mem_singleton] at hkey
    have hrest : key ∈ rest.map Entry.key := hmem
    rcases hkey with hkey | rfl
    · exact hpending key hkey (List.mem_cons_of_mem e.key hrest)
    · exact hdistinct.1 hrest
  · intro key hkey
    rw [List.map_append, List.mem_append, List.map_singleton, List.mem_singleton]
    rcases hcovered key hkey with hmem | hmem
    · exact Or.inl (Or.inl hmem)
    · rcases List.mem_cons.mp hmem with hhead | hrest
      · exact Or.inl (Or.inr hhead)
      · exact Or.inr hrest

theorem Progress.advance (h : Progress keys s entries puts ahead) (hphase : s.phase = .advance)
    (hstep : loopStep s .loop = some s') : Progress keys s' entries puts ahead.tail := by
  have hlayout := h.represents.layout
  have hpending := h.apart
  have hcovered := h.covered
  rw [hphase] at hpending hcovered
  obtain ⟨e, rest, rfl⟩ := List.exists_cons_of_ne_nil (h.busy (Or.inr hphase))
  obtain ⟨context, hadvance, hcursor⟩ := loopStep_advance hphase hlayout h.cursor
  obtain rfl := Option.some.inj (hadvance.symm.trans hstep)
  refine ⟨h.represents, hcursor, ?_, (fun hended => nomatch hended), h.distinct, h.current,
    h.known, hpending, hcovered⟩
  rintro (hbusy | hbusy)
  · cases hbusy
  · cases hbusy

theorem Progress.loop (h : Progress keys s entries puts ahead)
    (hstep : loopStep s .loop = some s') : ∃ ahead', Progress keys s' entries puts ahead' := by
  cases hphase : s.phase with
  | test => exact ⟨ahead, h.test hphase hstep⟩
  | body => exact ⟨ahead, h.body hphase hstep⟩
  | advance => exact ⟨ahead.tail, h.advance hphase hstep⟩
  | done =>
      rw [loopStep] at hstep
      simp only [hphase] at hstep
      cases hstep

end Loop

theorem Progress.finishes {keys : List Key} {s : LoopState}
    {entries : Fin HASH_SIZE → List Entry} {puts : List Put} {ahead : List Entry}
    (h : Progress keys s entries puts ahead) :
    ∃ n s', run loopStep s (List.replicate n .loop) = some s' ∧ s'.phase = .done := by
  have hlayout := h.represents.layout
  have hadvance : ∀ s : LoopState, s.phase = .advance → Layout s.table entries →
      Cursor entries s.context ahead → ahead ≠ [] →
      ∃ n s', run loopStep s (List.replicate n .loop) = some s' ∧ s'.phase = .done := by
    intro s hphase hlayout hcursor hne
    obtain ⟨e, rest, rfl⟩ := List.exists_cons_of_ne_nil hne
    obtain ⟨context, hstep, hcursor'⟩ := loopStep_advance hphase hlayout hcursor
    obtain ⟨s', hrun, hdone, _⟩ :=
      loop_finishes rest { s with phase := .test, context := context } rfl hlayout hcursor'
    refine ⟨3 * rest.length + 1 + 1, s', ?_, hdone⟩
    rw [List.replicate_succ, run_cons, hstep]
    exact hrun
  cases hphase : s.phase with
  | test =>
      obtain ⟨s', hrun, hdone, _⟩ := loop_finishes ahead s hphase hlayout h.cursor
      exact ⟨_, s', hrun, hdone⟩
  | body =>
      have hne := h.busy (Or.inl hphase)
      obtain ⟨e, rest, rfl⟩ := List.exists_cons_of_ne_nil hne
      obtain ⟨n, s', hrun, hdone⟩ := hadvance
        { s with
          phase := .advance
          yielded := s.yielded ++ [{ key := e.key, value := e.value, stored := some e.value }] }
        rfl hlayout h.cursor hne
      refine ⟨n + 1, s', ?_, hdone⟩
      rw [List.replicate_succ, run_cons, loopStep_body hphase hlayout h.cursor]
      exact hrun
  | advance => exact hadvance s hphase hlayout h.cursor (h.busy (Or.inr hphase))
  | done => exact ⟨0, s, rfl, hphase⟩

/-- What the loop guarantees in every state about the keys that were there when
it began. -/
structure Iterates (keys : List Key) (s : LoopState) : Prop where
  distinct : (s.yielded.map Yield.key).Nodup
  current : ∀ pair ∈ s.yielded, pair.stored = some pair.value
  complete : s.phase = .done → ∀ key ∈ keys, key ∈ s.yielded.map Yield.key
  putRuns : ∀ put, ∃ s', loopStep s (.put put) = some s'
  finishes : ∃ n s', run loopStep s (List.replicate n .loop) = some s' ∧ s'.phase = .done

theorem Progress.iterates {keys : List Key} {s : LoopState}
    {entries : Fin HASH_SIZE → List Entry} {puts : List Put} {ahead : List Entry}
    (h : Progress keys s entries puts ahead) : Iterates keys s where
  distinct := h.distinct
  current := h.current
  complete := by
    intro hdone key hkey
    obtain rfl := h.ended hdone
    apply (h.covered key hkey).resolve_right
    rw [hdone]
    exact List.not_mem_nil
  putRuns := fun put => by
    obtain ⟨table, _, _, hstep, _⟩ := h.put put
    exact ⟨_, hstep⟩
  finishes := h.finishes

theorem progress_loopStep {keys : List Key} {s s' : LoopState} {action : Action}
    (h : ∃ entries puts ahead, Progress keys s entries puts ahead)
    (hstep : loopStep s action = some s') :
    ∃ entries puts ahead, Progress keys s' entries puts ahead := by
  obtain ⟨entries, puts, ahead, h⟩ := h
  cases action with
  | put put =>
      obtain ⟨table, entries', ahead', hput, h'⟩ := h.put put
      obtain rfl := Option.some.inj (hput.symm.trans hstep)
      exact ⟨entries', _, ahead', h'⟩
  | loop =>
      obtain ⟨ahead', h'⟩ := h.loop hstep
      exact ⟨entries, puts, ahead', h'⟩

theorem keys_perm {table : HashTable} {entries : Fin HASH_SIZE → List Entry}
    {puts : List Put} (h : Represents table entries puts) :
    ((entriesFrom entries 0).map Entry.key).Perm (puts.map Put.key).dedup := by
  refine (List.perm_ext_iff_of_nodup (nodup_entriesFrom h.layout 0)
    (List.nodup_dedup _)).mpr fun key => ?_
  rw [mem_entriesFrom h.layout, List.mem_dedup, h.mem_iff key]
  exact and_iff_right (Nat.zero_le _)

theorem hashTableEnd_nil {entries : Fin HASH_SIZE → List Entry} {context : Context}
    (h : Cursor entries context []) : hashTableEnd context = true := by
  cases h with
  | finished hnode =>
      rw [hashTableEnd, hnode]
      rfl

theorem hashTableEnd_cons {entries : Fin HASH_SIZE → List Entry} {context : Context} {e : Entry}
    {ahead : List Entry} (h : Cursor entries context (e :: ahead)) :
    hashTableEnd context = false := by
  cases h with
  | within b front rest _ hindex hnode hentries =>
      rw [hashTableEnd, hnode]
      rfl

theorem hashTableCurrentValue_cons {table : HashTable} {entries : Fin HASH_SIZE → List Entry}
    (h : Layout table entries) {context : Context} {e : Entry} {ahead : List Entry}
    (hcursor : Cursor entries context (e :: ahead)) :
    hashTableCurrentValue table context = some (e.key, e.value) := by
  cases hcursor with
  | within b front rest _ hindex hnode hentries =>
      obtain ⟨node, hread, hkey, hvalue, _⟩ := h.node_at hentries
      rw [hashTableCurrentValue, hnode]
      simp only [Option.bind_eq_bind, Option.bind_some, hread, hkey, hvalue]

theorem mem_entriesFrom_zero {table : HashTable} {entries : Fin HASH_SIZE → List Entry}
    (h : Layout table entries) {e : Entry} :
    e ∈ entriesFrom entries 0 ↔ e ∈ entries (hashFunc e.key) := by
  rw [entriesFrom, List.drop_zero, List.mem_flatMap]
  constructor
  · rintro ⟨b, _, he⟩
    rw [h.hashed b e he]
    exact he
  · intro he
    exact ⟨hashFunc e.key, List.mem_finRange _, he⟩

theorem length_entriesFrom_le {table : HashTable} {entries : Fin HASH_SIZE → List Entry}
    (h : Layout table entries) : (entriesFrom entries 0).length ≤ table.heap.length := by
  have hkey : ∀ e ∈ entriesFrom entries 0, table.heap[e.addr]?.map HashNode.key = some e.key := by
    intro e he
    obtain ⟨front, rest, hentries⟩ := List.append_of_mem ((mem_entriesFrom_zero h).mp he)
    obtain ⟨node, hread, hkey, _⟩ := h.node_at hentries
    rw [hread, Option.map_some, hkey]
  have hkeys : ((entriesFrom entries 0).map Entry.addr).map
      (fun a => table.heap[a]?.map HashNode.key) =
      ((entriesFrom entries 0).map Entry.key).map some := by
    rw [List.map_map, List.map_map]
    exact List.map_congr_left hkey
  have hnodup : ((entriesFrom entries 0).map Entry.addr).Nodup := by
    apply List.Nodup.of_map (fun a => table.heap[a]?.map HashNode.key)
    rw [hkeys]
    exact (nodup_entriesFrom h 0).map (Option.some_injective Key)
  have hsubset : (entriesFrom entries 0).map Entry.addr ⊆ List.range table.heap.length := by
    intro a ha
    obtain ⟨e, he, rfl⟩ := List.mem_map.mp ha
    have hread := hkey e he
    rw [List.mem_range]
    rw [Option.map_eq_some_iff] at hread
    obtain ⟨node, hnode, _⟩ := hread
    exact (List.getElem?_eq_some_iff.mp hnode).1
  have hlength := (List.subperm_of_subset hnodup hsubset).length_le
  rw [List.length_map, List.length_range] at hlength
  exact hlength

theorem find?_key_eq_some_iff {α : Type*} {key : α → Key} {k : Key} {x : α} {l : List α}
    (hl : (l.map key).Nodup) : l.find? (key · = k) = some x ↔ x ∈ l ∧ key x = k := by
  induction l with
  | nil => simp
  | cons y l ih =>
      rw [List.map_cons, List.nodup_cons] at hl
      rw [List.find?_cons]
      split
      · rename_i hy
        have hy := of_decide_eq_true hy
        constructor
        · rintro ⟨⟩
          exact ⟨List.mem_cons_self, hy⟩
        · rintro ⟨hx, hkey⟩
          rcases List.mem_cons.mp hx with rfl | hx
          · rfl
          · exact absurd (hkey.trans hy.symm ▸ List.mem_map_of_mem hx) hl.1
      · rename_i hy
        have hy := of_decide_eq_false hy
        rw [ih hl.2]
        constructor
        · rintro ⟨hx, hkey⟩
          exact ⟨List.mem_cons_of_mem _ hx, hkey⟩
        · rintro ⟨hx, hkey⟩
          rcases List.mem_cons.mp hx with rfl | hx
          · exact absurd hkey hy
          · exact ⟨hx, hkey⟩

theorem map_find?_key_eq_some_iff {α : Type*} {key : α → Key} {value : α → Value} {k : Key}
    {v : Value} {l : List α} (hl : (l.map key).Nodup) :
    (l.find? (key · = k)).map value = some v ↔ (k, v) ∈ l.map fun x => (key x, value x) := by
  rw [Option.map_eq_some_iff, List.mem_map]
  constructor
  · rintro ⟨x, hfind, rfl⟩
    obtain ⟨hx, rfl⟩ := (find?_key_eq_some_iff hl).mp hfind
    exact ⟨x, hx, rfl⟩
  · rintro ⟨x, hx, hpair⟩
    obtain ⟨hkey, hvalue⟩ := Prod.mk.inj hpair
    exact ⟨x, (find?_key_eq_some_iff hl).mpr ⟨hx, hkey⟩, hvalue⟩

theorem pairs_perm {table : HashTable} {entries : Fin HASH_SIZE → List Entry} {puts : List Put}
    (h : Represents table entries puts) (hputs : (puts.map Put.key).Nodup) :
    ((entriesFrom entries 0).map fun e => (e.key, e.value)).Perm
      (puts.map fun put => (put.key, put.value)) := by
  have hleft : ((entriesFrom entries 0).map fun e => (e.key, e.value)).Nodup := by
    apply List.Nodup.of_map Prod.fst
    rw [List.map_map]
    exact nodup_entriesFrom h.layout 0
  have hright : (puts.map fun put => (put.key, put.value)).Nodup := by
    apply List.Nodup.of_map Prod.fst
    rw [List.map_map]
    exact hputs
  have hreverse : (puts.reverse.map Put.key).Nodup := by
    rw [List.map_reverse]
    exact List.nodup_reverse.mpr hputs
  apply (List.perm_ext_iff_of_nodup hleft hright).mpr
  rintro ⟨key, value⟩
  have hlookup := h.value key
  rw [valueOf, lastValue] at hlookup
  calc (key, value) ∈ (entriesFrom entries 0).map (fun e => (e.key, e.value))
      ↔ (key, value) ∈ (entries (hashFunc key)).map (fun e => (e.key, e.value)) := by
        simp only [List.mem_map, Prod.mk.injEq]
        constructor
        · rintro ⟨e, he, rfl, rfl⟩
          exact ⟨e, (mem_entriesFrom_zero h.layout).mp he, rfl, rfl⟩
        · rintro ⟨e, he, rfl, rfl⟩
          exact ⟨e, (mem_entriesFrom_zero h.layout).mpr he, rfl, rfl⟩
    _ ↔ ((entries (hashFunc key)).find? (·.key = key)).map Entry.value = some value :=
        (map_find?_key_eq_some_iff (h.layout.distinct _)).symm
    _ ↔ (puts.reverse.find? (·.key = key)).map Put.value = some value := by
        rw [hlookup]
    _ ↔ (key, value) ∈ puts.reverse.map (fun put => (put.key, put.value)) :=
        map_find?_key_eq_some_iff hreverse
    _ ↔ (key, value) ∈ puts.map (fun put => (put.key, put.value)) := by
        rw [List.map_reverse, List.mem_reverse]

/-- The iteration over a table that was built by puts. -/
theorem iteration_complete (memory : HashTable) (puts : List Put) :
    ∃ table context, run putStep (hashTableInit memory) puts = some table ∧
      hashTableBegin table = some context ∧
      (∀ actions, EveryState loopStep (Iterates ((effective puts).map Put.key))
        (.start table context) actions) ∧
      ∃ s', run loopStep (.start table context)
          (List.replicate (3 * ((effective puts).map Put.key).dedup.length + 1) .loop) =
            some s' ∧
        s'.phase = .done ∧
        s'.yielded.length = ((effective puts).map Put.key).dedup.length := by
  obtain ⟨table, entries, hrun, h⟩ :=
    Represents.run puts (represents_hashTableInit memory)
  have hall : puts.foldl record [] = effective puts := rfl
  rw [hall] at h
  obtain ⟨context, hbegin, hcursor⟩ := hashTableBegin_spec h.layout
  have hkeys := keys_perm h
  have hlength : (entriesFrom entries 0).length =
      ((effective puts).map Put.key).dedup.length := by
    rw [← hkeys.length_eq, List.length_map]
  have hstart : Progress ((effective puts).map Put.key) (.start table context) entries
      (effective puts) (entriesFrom entries 0) := by
    refine ⟨h, hcursor, ?_, (fun hended => nomatch hended), List.nodup_nil, ?_, ?_, ?_, ?_⟩
    · rintro (hbusy | hbusy)
      · cases hbusy
      · cases hbusy
    · exact fun _ hpair => absurd hpair List.not_mem_nil
    · exact fun _ hkey => absurd hkey List.not_mem_nil
    · exact fun _ hkey => absurd hkey List.not_mem_nil
    · intro key hkey
      have hahead : pending (LoopState.start table context).phase (entriesFrom entries 0) =
          entriesFrom entries 0 := if_neg (show ¬ Phase.test = Phase.advance by decide)
      rw [hahead, hkeys.mem_iff]
      exact Or.inr (List.mem_dedup.mpr hkey)
  refine ⟨table, context, hrun, hbegin, fun actions => ?_, ?_⟩
  · intro visited hvisited s' hreached
    obtain ⟨_, _, _, hprogress⟩ :=
      invariant ⟨entries, effective puts, _, hstart⟩
        (fun _ _ _ hs hstep => progress_loopStep hs hstep) actions visited hvisited s' hreached
    exact hprogress.iterates
  · obtain ⟨s', hfinish, hdone, hcount⟩ :=
      loop_finishes (entriesFrom entries 0) (.start table context) rfl h.layout hcursor
    rw [hlength] at hfinish hcount
    refine ⟨s', hfinish, hdone, hcount.trans ?_⟩
    change 0 + _ = _
    rw [Nat.zero_add]

end StudyLinuxKernel.Hashtable.Iteration
