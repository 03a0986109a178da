import StudyLinuxKernel.Chatroom.Server

namespace StudyLinuxKernel.Chatroom.Broadcast

open StudyLinuxKernel.Chatroom.Server
open StudyLinuxKernel.Hashtable.Iteration hiding Action
open StudyLinuxKernel.Hashtable.Table
open StudyLinuxKernel.Libc.CharArray
open StudyLinuxKernel.Libc.Text

/-- What is sent on account of a pair of the table. -/
def sendingOf (message : Bytes) (pair : Key × Value) : Option Sending :=
  (decodeKey pair.1.chars).map fun dest => { fd := valueFd pair.2, dest, message }

theorem broadcastLoop_eq {table : HashTable} {entries : Fin HASH_SIZE → List Entry}
    (h : Layout table entries) (message : Bytes) {sent : Nat → Bool}
    (hsent : ∀ n, sent n = true) (ahead : List Entry) :
    ∀ {fuel : Nat} {iter : Context} (sendings : List Sending), Cursor entries iter ahead →
      ahead.length < fuel → (∀ e ∈ ahead, (decodeKey e.key.chars).isSome) →
      broadcastLoop table message sent fuel iter sendings =
        some (sendings ++
          (ahead.map fun e => (e.key, e.value)).filterMap (sendingOf (cStr message))) := by
  induction ahead with
  | nil =>
      intro fuel iter sendings hcursor hfuel _
      cases fuel with
      | zero => cases hfuel
      | succ fuel =>
          rw [broadcastLoop, hashTableEnd_nil hcursor, if_pos rfl]
          exact congrArg some (List.append_nil sendings).symm
  | cons e ahead ih =>
      intro fuel iter sendings hcursor hfuel hdecode
      cases fuel with
      | zero => cases hfuel
      | succ fuel =>
          rcases hashTableNext_spec h hcursor with ⟨iter', hnext, hcursor'⟩
          rcases Option.isSome_iff_exists.mp (hdecode e List.mem_cons_self) with ⟨dest, hdest⟩
          have hsending : sendingOf (cStr message) (e.key, e.value) =
              some { fd := valueFd e.value, dest, message := cStr message } := by
            rw [sendingOf, hdest]
            rfl
          rw [broadcastLoop, hashTableEnd_cons hcursor, if_neg Bool.false_ne_true,
            hashTableCurrentValue_cons h hcursor]
          simp only [Option.bind_eq_bind, Option.bind_some, hdest, hsent, if_true, hnext]
          rw [ih _ hcursor' (Nat.lt_of_succ_lt_succ hfuel) fun e' he' =>
            hdecode e' (List.mem_cons_of_mem e he')]
          rw [List.map_cons, List.filterMap_cons_some hsending, List.append_assoc]
          rfl

theorem broadcastLoop_of_sent {table : HashTable} {message : Bytes} {sent : Nat → Bool}
    {result : List Sending} {fuel : Nat} :
    ∀ {iter : Context} {sendings : List Sending},
      broadcastLoop table message sent fuel iter sendings = some result →
      broadcastLoop table message (fun _ => true) fuel iter sendings = some result := by
  induction fuel with
  | zero => exact fun h => nomatch h
  | succ fuel ih =>
      intro iter sendings h
      rw [broadcastLoop] at h ⊢
      split at h
      · rename_i hend
        rw [if_pos hend]
        exact h
      · rename_i hend
        rcases Option.bind_eq_some_iff.mp h with ⟨pair, hpair, hrest⟩
        rcases Option.bind_eq_some_iff.mp hrest with ⟨dest, hdest, hrest⟩
        split at hrest
        · rcases Option.bind_eq_some_iff.mp hrest with ⟨iter', hnext, hrest⟩
          rw [if_neg hend, hpair]
          simp only [Option.bind_eq_bind, Option.bind_some, hdest, if_true, hnext]
          exact ih hrest
        · cases hrest

theorem broadcast_of_sent {table : HashTable} {message : Bytes} {sent : Nat → Bool}
    {sendings : List Sending} (h : broadcast table message sent = some sendings) :
    broadcast table message (fun _ => true) = some sendings := by
  rcases Option.bind_eq_some_iff.mp h with ⟨iter, hbegin, hloop⟩
  simp only [broadcast, Option.bind_eq_bind, hbegin, Option.bind_some]
  exact broadcastLoop_of_sent hloop

theorem broadcast_eq {table : HashTable} {entries : Fin HASH_SIZE → List Entry}
    (h : Layout table entries) (message : Bytes) {sent : Nat → Bool}
    (hsent : ∀ n, sent n = true)
    (hdecode : ∀ e ∈ entriesFrom entries 0, (decodeKey e.key.chars).isSome) :
    broadcast table message sent =
      some (((entriesFrom entries 0).map fun e => (e.key, e.value)).filterMap
        (sendingOf (cStr message))) := by
  rcases hashTableBegin_spec h with ⟨iter, hbegin, hcursor⟩
  have hloop := broadcastLoop_eq h message hsent _ [] hcursor
    (Nat.lt_succ_of_le (length_entriesFrom_le h)) hdecode
  rw [List.nil_append] at hloop
  simp only [broadcast, hbegin, Option.bind_eq_bind, Option.bind_some, hloop]

/-- The pair of the table for a socket. -/
def pairOf (socket : Socket) : Key × Value := (addressKey socket.peer, fdValue socket.fd)

def sendingTo (message : Bytes) (socket : Socket) : Sending where
  fd := socket.fd
  dest := socket.peer
  message := message

theorem sendingOf_pairOf (message : Bytes) (socket : Socket) :
    sendingOf message (pairOf socket) = some (sendingTo message socket) := by
  rw [sendingOf, pairOf, chars_addressKey, decodeKey_addressText, valueFd_fdValue]
  rfl

theorem broadcast_perm {table : HashTable} {entries : Fin HASH_SIZE → List Entry}
    {sockets : List Socket} (h : Layout table entries)
    (hpairs : ((entriesFrom entries 0).map fun e => (e.key, e.value)).Perm (sockets.map pairOf))
    (message : Bytes) {sent : Nat → Bool} (hsent : ∀ n, sent n = true) :
    ∃ sendings, broadcast table message sent = some sendings ∧
      sendings.Perm (sockets.map (sendingTo (cStr message))) := by
  have hdecode : ∀ e ∈ entriesFrom entries 0, (decodeKey e.key.chars).isSome := by
    intro e he
    have hmem := hpairs.subset (List.mem_map_of_mem he)
    rcases List.mem_map.mp hmem with ⟨socket, _, hpair⟩
    rw [← (Prod.mk.inj hpair).1, chars_addressKey, decodeKey_addressText]
    rfl
  refine ⟨_, broadcast_eq h message hsent hdecode, ?_⟩
  have hsendings := hpairs.filterMap (sendingOf (cStr message))
  have hall : (sockets.map pairOf).filterMap (sendingOf (cStr message)) =
      sockets.map (sendingTo (cStr message)) := by
    rw [List.filterMap_map]
    change sockets.filterMap (fun socket => sendingOf (cStr message) (pairOf socket)) = _
    simp only [sendingOf_pairOf]
    exact congrFun List.filterMap_eq_map' sockets
  rw [hall] at hsendings
  exact hsendings

end StudyLinuxKernel.Chatroom.Broadcast
