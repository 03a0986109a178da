import StudyLinuxKernel.Chatroom.Broadcast
import StudyLinuxKernel.Library.CheckedRun

namespace StudyLinuxKernel.Chatroom.Bounds

open StudyLinuxKernel.Chatroom.Broadcast
open StudyLinuxKernel.Chatroom.Server
open StudyLinuxKernel.Hashtable.Iteration hiding Action
open StudyLinuxKernel.Hashtable.Refinement
open StudyLinuxKernel.Hashtable.Table
open StudyLinuxKernel.Libc.CharArray
open StudyLinuxKernel.Libc.Decimal
open StudyLinuxKernel.Libc.Inet
open StudyLinuxKernel.Libc.Text
open StudyLinuxKernel.Library.CheckedRun
open StudyLinuxKernel.Library.PartialStep

/-- An event of the loop of `main`; `received` is what `recvfrom` or `recv` finds,
if it does not fail. -/
inductive Event where
  | select
  | datagram (source : SockaddrIn) (received : Option Bytes) (answers : Answers)
  | receipt (i : Nat) (received : Option Bytes)

/-- `recvfrom` or `recv` with the limit `MAX_MSG_LEN`, and `msg[len] = '\0'`. -/
def receiveInto (msg : Bytes) : Option Bytes → Checked (Bytes × Nat)
  | none => .error .exited
  | some bytes => do
      let len := min bytes.length MAX_MSG_LEN
      let msg ← access (store msg 0 (bytes.take len))
      let msg ← access (store msg len [0])
      .ok (msg, len)

/-- A key that a function of the hash table is given as a C string. -/
def readKey (array : Bytes) : Checked Key :=
  if 0 ∈ array then .ok { chars := cStr array, noNul := zero_not_mem_cStr array }
  else .error .fault

def loadFd (clientFds : Vector Int32 MAX_CLIENTS) (i : Nat) : Checked Int32 :=
  access clientFds.toList[i]?

/-- The loop over `client_fds` with `n` entries to go from index `i` on. -/
def loadFds (clientFds : Vector Int32 MAX_CLIENTS) : Nat → Nat → Checked Unit
  | 0, _ => .ok ()
  | n + 1, i => do
      let _ ← loadFd clientFds i
      loadFds clientFds n (i + 1)

/-- The block with `client_addr_ip`. -/
def register (s : ChatServer) (source : SockaddrIn) (answers : Answers) :
    Checked ChatServer := do
  let clientAddrIp ← access
    (store (List.replicate 32 0) 0 (snprintf 32 (addressText source) ++ [0]))
  if s.numClients < MAX_CLIENTS then do
    let key ← readKey clientAddrIp
    let value ← access (hashTableGet s.table key)
    if value = NULL then do
      let table ← access (hashTablePut s.table key (fdValue answers.sock) answers.allocated)
      succeeds (answers.sock ≠ -1)
      let clientFds ← access (storeFd s.clientFds s.numClients answers.sock)
      let _ ← loadFd clientFds s.numClients
      succeeds answers.connected
      .ok
        { s with
          table := table
          clientFds := clientFds
          numClients := s.numClients + 1
          sockets := s.sockets ++ [{ fd := answers.sock, peer := source }] }
    else .ok s
  else .ok s

/-- `strncat`, which looks for the end of its destination and reads at most `n`
characters of its source. -/
def strncatInto (dest src : Bytes) (n : Nat) : Checked Bytes :=
  if 0 ∈ dest ∧ (0 ∈ src ∨ n ≤ src.length) then access (strncat dest src n)
  else .error .fault

def compose (ip msg : Bytes) (len : Nat) : Checked Bytes := do
  let message ← access (strncpy (List.replicate 2048 0) ip (cStr ip).length)
  let message ← strncatInto message (literal "> ") 2
  strncatInto message msg len

/-- What is done to `client_ip`; the pointer `port` is not checked for NULL. -/
def decodeClientIp (clientIp : Bytes) : Checked SockaddrIn := do
  let text ← access (stringAt clientIp 0)
  let port ← access (strrchr colon text)
  let clientIp ← access (store clientIp port [0])
  let ip ← access (stringAt clientIp 0)
  let digits ← access (stringAt clientIp (port + 1))
  .ok { sinAddr := inetAddr ip, sinPort := htons (atoi digits) }

/-- The loop over the table. -/
def sendLoop (table : HashTable) (message : Bytes) (sent : Nat → Bool) :
    Nat → Context → List Sending → Checked (List Sending)
  | 0, _, _ => .error .fault
  | fuel + 1, iter, sendings =>
      if hashTableEnd iter then .ok sendings
      else do
        let (key, clientFd) ← access (hashTableCurrentValue table iter)
        let clientIp ← access (strncpy (List.replicate MAX_KEY_LEN 0) key.chars MAX_KEY_LEN)
        let dest ← decodeClientIp clientIp
        let text ← access (stringAt message 0)
        succeeds (sent sendings.length)
        let iter ← access (hashTableNext table iter)
        sendLoop table message sent fuel iter
          (sendings ++ [{ fd := valueFd clientFd, dest, message := text }])

def sendAll (table : HashTable) (message : Bytes) (sent : Nat → Bool) :
    Checked (List Sending) := do
  let iter ← access (hashTableBegin table)
  sendLoop table message sent (table.heap.length + 1) iter []

/-- A loop over the clients comes only to those that are there. -/
def serve (s : ChatServer) : Event → Checked ChatServer
  | .select => do
      loadFds s.clientFds s.numClients 0
      .ok s
  | .datagram source received answers => do
      let (msg, len) ← receiveInto s.msg received
      let s ← register { s with msg := msg } source answers
      let message ← compose (inetNtoa source.sinAddr) s.msg len
      let sendings ← sendAll s.table message answers.sent
      .ok { s with log := s.log ++ [{ source, datagram := received.getD [], sendings }] }
  | .receipt i received =>
      if i < s.numClients then do
        let _ ← loadFd s.clientFds i
        let (msg, _) ← receiveInto s.msg received
        let _ ← access (stringAt msg 0)
        .ok { s with msg := msg }
      else .ok s

/-- What keeps the accesses inside: the size of `msg`, a table whose keys are
addresses, and a count of the clients that the array has room for. -/
structure Bounded (s : ChatServer) : Prop where
  msg : s.msg.length = MAX_MSG_LEN
  table : ∃ entries puts, Represents s.table entries puts ∧
    ∀ put ∈ puts, ∃ addr, put.key = addressKey addr
  clients : s.numClients ≤ MAX_CLIENTS

/-- What is received leaves room for the NUL in `msg`. -/
def LeavesRoom (s : ChatServer) : Event → Prop
  | .select => True
  | .datagram _ received _ => ∀ bytes, received = some bytes → bytes.length < MAX_MSG_LEN
  | .receipt i received => i < s.numClients →
      ∀ bytes, received = some bytes → bytes.length < MAX_MSG_LEN

theorem receiveInto_of_short {msg bytes : Bytes} (hmsg : msg.length = MAX_MSG_LEN)
    (hshort : bytes.length < MAX_MSG_LEN) :
    receiveInto msg (some bytes) = .ok (terminated msg bytes, min bytes.length MAX_MSG_LEN) := by
  have hlen : min bytes.length MAX_MSG_LEN = bytes.length := Nat.min_eq_left hshort.le
  have hfits : bytes.length ≤ msg.length := by omega
  have hroom : bytes.length < (bytes ++ msg.drop bytes.length).length := by
    rw [List.length_append, List.length_drop]
    omega
  rw [receiveInto, terminated, hlen, List.take_length, store_zero hfits]
  simp only [access_some, ok_bind, store_singleton hroom]

theorem receiveInto_of_full {msg bytes : Bytes} (hmsg : msg.length = MAX_MSG_LEN)
    (hfull : MAX_MSG_LEN ≤ bytes.length) :
    receiveInto msg (some bytes) = .error .fault := by
  have hlen : min bytes.length MAX_MSG_LEN = MAX_MSG_LEN := Nat.min_eq_right hfull
  have htake : (bytes.take MAX_MSG_LEN).length = MAX_MSG_LEN := List.length_take_of_le hfull
  have hstored := @store_zero msg (bytes.take MAX_MSG_LEN) (by rw [htake, hmsg])
  have hout : store (bytes.take MAX_MSG_LEN ++ msg.drop (bytes.take MAX_MSG_LEN).length)
      MAX_MSG_LEN [0] = none := by
    rw [store, if_neg]
    rw [List.length_append, htake, List.length_drop, hmsg, List.length_singleton]
    omega
  rw [receiveInto, hlen, hstored]
  simp only [access_some, ok_bind, hout, access_none, error_bind]

theorem length_terminated {msg bytes : Bytes} (hmsg : msg.length = MAX_MSG_LEN) :
    (terminated msg bytes).length = MAX_MSG_LEN := by
  rw [terminated, List.length_set, List.length_append, List.length_take, List.length_drop]
  omega

theorem zero_mem_terminated {msg bytes : Bytes} (hmsg : msg.length = MAX_MSG_LEN)
    (hshort : bytes.length < MAX_MSG_LEN) : 0 ∈ terminated msg bytes := by
  have hlength := @length_terminated msg bytes hmsg
  rw [terminated, List.length_set] at hlength
  exact List.mem_set (by omega) 0

theorem receiveInto_safe {msg : Bytes} (hmsg : msg.length = MAX_MSG_LEN)
    {received : Option Bytes}
    (hshort : ∀ bytes, received = some bytes → bytes.length < MAX_MSG_LEN) :
    Safe (receiveInto msg received) fun result => ∃ bytes, received = some bytes ∧
      result = (terminated msg bytes, min bytes.length MAX_MSG_LEN) := by
  rcases received with _ | bytes
  · exact Safe.exited
  · rw [receiveInto_of_short hmsg (hshort bytes rfl)]
    exact Safe.ok ⟨bytes, rfl, rfl⟩

theorem short_of_not_fault {msg : Bytes} (hmsg : msg.length = MAX_MSG_LEN)
    {received : Option Bytes} {α : Type} {f : Bytes × Nat → Checked α}
    (h : (receiveInto msg received >>= f) ≠ .error .fault) :
    ∀ bytes, received = some bytes → bytes.length < MAX_MSG_LEN := by
  rintro bytes rfl
  by_contra hfull
  rw [receiveInto_of_full hmsg (Nat.not_lt.mp hfull)] at h
  exact h rfl

theorem loadFd_eq (clientFds : Vector Int32 MAX_CLIENTS) {i : Nat} (h : i < MAX_CLIENTS) :
    loadFd clientFds i = .ok clientFds[i] := by
  have hlength : i < clientFds.toList.length := by
    rw [Vector.length_toList]
    exact h
  rw [loadFd, List.getElem?_eq_getElem hlength, Vector.getElem_toList]
  rfl

theorem loadFd_safe (clientFds : Vector Int32 MAX_CLIENTS) {i : Nat} (h : i < MAX_CLIENTS) :
    Safe (loadFd clientFds i) fun _ => True := by
  rw [loadFd_eq clientFds h]
  exact Safe.ok trivial

theorem loadFds_safe (clientFds : Vector Int32 MAX_CLIENTS) (n : Nat) :
    ∀ i, i + n ≤ MAX_CLIENTS → Safe (loadFds clientFds n i) fun _ => True := by
  induction n with
  | zero => exact fun _ _ => Safe.ok trivial
  | succ n ih =>
      intro i hi
      exact (loadFd_safe clientFds (by omega)).bind fun _ _ => ih (i + 1) (by omega)

theorem clientAddrIp_stored (source : SockaddrIn) :
    store (List.replicate 32 0) 0 (snprintf 32 (addressText source) ++ [0]) =
      some (zeroFilled 32 (addressText source ++ [0])) := by
  have hlength := length_addressText_le source
  have hwhole : snprintf 32 (addressText source) = addressText source :=
    List.take_of_length_le (Nat.le_trans hlength (by decide))
  have hstore := @store_zeroFilled 32 [] (addressText source ++ [0]) (by
    rw [List.length_append, List.length_singleton, List.length_nil]
    omega)
  rw [hwhole]
  exact hstore

theorem readKey_clientAddrIp (source : SockaddrIn) :
    readKey (zeroFilled 32 (addressText source ++ [0])) = .ok (addressKey source) := by
  have hzero : 0 ∈ zeroFilled 32 (addressText source ++ [0]) := by
    simp [zeroFilled]
  have hchars : cStr (zeroFilled 32 (addressText source ++ [0])) = (addressKey source).chars := by
    rw [zeroFilled, List.append_assoc, cStr_append (zero_not_mem_addressText source),
      chars_addressKey]
    exact List.append_nil _
  rw [readKey, if_pos hzero]
  exact congrArg Except.ok (Key.mk.injEq _ _ _ _ ▸ hchars)

theorem Bounded.received {s : ChatServer} (h : Bounded s) (bytes : Bytes) :
    Bounded { s with msg := terminated s.msg bytes } :=
  ⟨length_terminated h.msg, h.table, h.clients⟩

theorem put_address {s : ChatServer} (h : Bounded s) (source : SockaddrIn) (value : Value)
    (allocated : Bool) :
    ∃ table, hashTablePut s.table (addressKey source) value allocated = some table ∧
      ∃ entries puts, Represents table entries puts ∧
        ∀ put ∈ puts, ∃ addr, put.key = addressKey addr := by
  obtain ⟨entries, puts, hrep, hkeys⟩ := h.table
  obtain ⟨table, entries', hput, hrep', _⟩ :=
    hrep.put ⟨addressKey source, short_addressKey source, value, allocated⟩
  refine ⟨table, hput, entries', _, hrep', ?_⟩
  intro put hmem
  rw [record] at hmem
  split at hmem
  · rcases List.mem_append.mp hmem with hold | hnew
    · exact hkeys put hold
    · exact ⟨source, by rw [List.mem_singleton.mp hnew]⟩
  · exact hkeys put hmem

theorem register_safe {s : ChatServer} (h : Bounded s) (source : SockaddrIn)
    (answers : Answers) :
    Safe (register s source answers) fun s' =>
      registerClient s source answers = some s' ∧ Bounded s' ∧ s'.msg = s.msg := by
  rw [register, registerClient]
  refine Safe.bind_access (clientAddrIp_stored source) ?_
  split
  · rename_i hroom
    obtain ⟨entries, puts, hrep, _⟩ := h.table
    have hget := hrep.get (addressKey source)
    refine Safe.bind_ok (readKey_clientAddrIp source) (Safe.bind_access hget ?_)
    rw [hget, Option.bind_eq_bind, Option.bind_some]
    split
    · obtain ⟨table, hput, htable⟩ := put_address h source (fdValue answers.sock)
        answers.allocated
      refine Safe.bind_access hput ((safe_succeeds _).bind fun _ hsock => ?_)
      have hstore : storeFd s.clientFds s.numClients answers.sock =
          some (s.clientFds.set s.numClients answers.sock hroom) := dif_pos hroom
      refine Safe.bind_access hstore ((loadFd_safe _ hroom).bind fun _ _ => ?_)
      refine (safe_succeeds _).bind fun _ hconnected => ?_
      refine Safe.ok ⟨?_, ⟨h.msg, htable, hroom⟩, rfl⟩
      rw [hput]
      simp only [Option.bind_eq_bind, Option.bind_some, if_neg (of_decide_eq_true hsock), hstore,
        hconnected, if_true]
    · exact Safe.ok ⟨rfl, h, rfl⟩
  · exact Safe.ok ⟨rfl, h, rfl⟩

theorem strncatInto_eq {dest src result : Bytes} {n : Nat} (hdest : 0 ∈ dest)
    (hsrc : 0 ∈ src ∨ n ≤ src.length) (hresult : strncat dest src n = some result) :
    strncatInto dest src n = .ok result := by
  rw [strncatInto, if_pos ⟨hdest, hsrc⟩, hresult]
  rfl

theorem compose_eq (source : SockaddrIn) {msg bytes : Bytes} (hmsg : 0 ∈ terminated msg bytes) :
    compose (inetNtoa source.sinAddr) (terminated msg bytes) (min bytes.length MAX_MSG_LEN) =
      .ok (zeroFilled 2048 (broadcastText source bytes)) := by
  have hip := length_inetNtoa_le source.sinAddr
  have hmarkLength : (literal "> ").length = 2 := by decide
  have hcopied : 0 ∈ zeroFilled 2048 (inetNtoa source.sinAddr) := zero_mem_zeroFilled (by omega)
  have hmarked : 0 ∈ zeroFilled 2048 (inetNtoa source.sinAddr ++ literal "> ") := by
    apply zero_mem_zeroFilled
    rw [List.length_append, hmarkLength]
    omega
  rw [compose, strncpy_ip, access_some, ok_bind,
    strncatInto_eq hcopied (Or.inr hmarkLength.ge) (strncat_mark source), ok_bind]
  exact strncatInto_eq hmarked (Or.inl hmsg) (strncat_terminated source msg bytes)

theorem decodeClientIp_address (addr : SockaddrIn) :
    decodeClientIp (zeroFilled MAX_KEY_LEN (addressText addr)) = .ok addr := by
  have hlength := length_addressText_le addr
  have hshort : (addressText addr).length < MAX_KEY_LEN :=
    Nat.lt_of_le_of_lt hlength (by decide)
  have hdigits : 0 ∉ decimal (ntohs addr.sinPort) := not_mem_decimal rfl _
  have hzeros : 0 ∈ List.replicate (MAX_KEY_LEN - (addressText addr).length) (0 : UInt8) :=
    List.mem_replicate.mpr ⟨by omega, rfl⟩
  have htext := stringAt_of_mem (zero_mem_zeroFilled hshort)
  rw [cStr_zeroFilled (zero_not_mem_addressText addr)] at htext
  have hcolon : strrchr colon (addressText addr) = some (inetNtoa addr.sinAddr).length :=
    strrchr_append_cons _ (not_mem_decimal rfl _)
  have hport : (inetNtoa addr.sinAddr).length <
      (zeroFilled MAX_KEY_LEN (addressText addr)).length := by
    rw [length_zeroFilled hshort.le]
    rw [addressText, List.length_append, List.length_cons] at hshort
    omega
  -- the colon becomes the end of the first string
  have hcut : (zeroFilled MAX_KEY_LEN (addressText addr)).set (inetNtoa addr.sinAddr).length 0 =
      inetNtoa addr.sinAddr ++ 0 :: (decimal (ntohs addr.sinPort) ++
        List.replicate (MAX_KEY_LEN - (addressText addr).length) 0) := by
    rw [zeroFilled, addressText, List.append_assoc, List.set_append_right _ _ (Nat.le_refl _),
      Nat.sub_self]
    rfl
  have hip : stringAt (inetNtoa addr.sinAddr ++ 0 :: (decimal (ntohs addr.sinPort) ++
      List.replicate (MAX_KEY_LEN - (addressText addr).length) 0)) 0 =
        some (inetNtoa addr.sinAddr) := by
    rw [stringAt_of_mem (by simp), cStr_append (zero_not_mem_inetNtoa _)]
    exact congrArg some (List.append_nil _)
  have hrest : stringAt (inetNtoa addr.sinAddr ++ 0 :: (decimal (ntohs addr.sinPort) ++
      List.replicate (MAX_KEY_LEN - (addressText addr).length) 0))
        ((inetNtoa addr.sinAddr).length + 1) = some (decimal (ntohs addr.sinPort)) := by
    rw [stringAt, List.drop_length_add_append, List.drop_one, List.tail_cons,
      if_pos (List.mem_append_right _ hzeros), cStr_append hdigits, cStr_replicate_zero,
      List.append_nil]
  rw [decodeClientIp, htext]
  simp only [access_some, ok_bind, hcolon, store_singleton hport, hcut, hip, hrest]
  rw [inetAddr_inetNtoa, atoi_decimal, htons_ntohs]

/-- The loop over a table of addresses, one round for each entry ahead of the
cursor. -/
theorem sendLoop_safe {table : HashTable} {entries : Fin HASH_SIZE → List Entry}
    (h : Layout table entries) {message : Bytes} (hmessage : 0 ∈ message) (sent : Nat → Bool)
    (ahead : List Entry) :
    ∀ {fuel : Nat} {iter : Context} (sendings : List Sending), Cursor entries iter ahead →
      ahead.length < fuel → (∀ e ∈ ahead, ∃ addr, e.key = addressKey addr) →
      Safe (sendLoop table message sent fuel iter sendings) fun result =>
        broadcastLoop table message sent fuel iter sendings = some result := by
  induction ahead with
  | nil =>
      intro fuel iter sendings hcursor hfuel _
      cases fuel with
      | zero => cases hfuel
      | succ fuel =>
          rw [sendLoop, broadcastLoop, hashTableEnd_nil hcursor, if_pos rfl, if_pos rfl]
          exact Safe.ok rfl
  | cons e ahead ih =>
      intro fuel iter sendings hcursor hfuel hkeys
      cases fuel with
      | zero => cases hfuel
      | succ fuel =>
          obtain ⟨iter', hnext, hcursor'⟩ := hashTableNext_spec h hcursor
          obtain ⟨addr, hkey⟩ := hkeys e List.mem_cons_self
          have hvalue := hashTableCurrentValue_cons h hcursor
          have hclientIp : strncpy (List.replicate MAX_KEY_LEN 0) e.key.chars MAX_KEY_LEN =
              some (zeroFilled MAX_KEY_LEN (addressText addr)) := by
            rw [hkey, chars_addressKey]
            refine strncpy_whole (zero_not_mem_addressText addr) ?_
            exact Nat.le_trans (length_addressText_le addr) (by decide)
          rw [sendLoop, broadcastLoop, hashTableEnd_cons hcursor, if_neg Bool.false_ne_true,
            if_neg Bool.false_ne_true]
          refine Safe.bind_access hvalue (Safe.bind_access hclientIp ?_)
          refine Safe.bind_ok (decodeClientIp_address addr) ?_
          refine Safe.bind_access (stringAt_of_mem hmessage) ?_
          refine (safe_succeeds _).bind fun _ hsent => Safe.bind_access hnext ?_
          have hdecode : decodeKey e.key.chars = some addr := by
            rw [hkey, chars_addressKey, decodeKey_addressText]
          rw [hvalue]
          simp only [Option.bind_eq_bind, Option.bind_some, hdecode, hsent, if_true, hnext]
          exact ih _ hcursor' (Nat.lt_of_succ_lt_succ hfuel) fun e' he' =>
            hkeys e' (List.mem_cons_of_mem e he')

theorem sendAll_safe {s : ChatServer} (h : Bounded s) {message : Bytes} (hmessage : 0 ∈ message)
    (sent : Nat → Bool) :
    Safe (sendAll s.table message sent) fun sendings =>
      broadcast s.table message sent = some sendings := by
  obtain ⟨entries, puts, hrep, hkeys⟩ := h.table
  obtain ⟨iter, hbegin, hcursor⟩ := hashTableBegin_spec hrep.layout
  rw [sendAll, broadcast, hbegin]
  refine Safe.bind_access rfl ?_
  refine sendLoop_safe hrep.layout hmessage sent _ [] hcursor
    (Nat.lt_succ_of_le (length_entriesFrom_le hrep.layout)) fun e he => ?_
  have hmem := (hrep.mem_iff e.key).mp
    (List.mem_map_of_mem ((mem_entriesFrom_zero hrep.layout).mp he))
  obtain ⟨put, hput, hkey⟩ := List.mem_map.mp hmem
  obtain ⟨addr, haddr⟩ := hkeys put hput
  exact ⟨addr, hkey ▸ haddr⟩

theorem length_broadcastText_lt (source : SockaddrIn) (bytes : Bytes) :
    (broadcastText source bytes).length < 2048 := by
  have hip := length_inetNtoa_le source.sinAddr
  have hmark : (literal "> ").length = 2 := by decide
  have htext : (cStr (bytes.take MAX_MSG_LEN)).length ≤ 1024 :=
    Nat.le_trans (length_cStr_le _) (List.length_take_le _ _)
  rw [broadcastText, List.length_append, List.length_append, hmark]
  omega

theorem datagram_safe {s : ChatServer} (h : Bounded s) (source : SockaddrIn)
    {received : Option Bytes} (answers : Answers)
    (hshort : ∀ bytes, received = some bytes → bytes.length < MAX_MSG_LEN) :
    Safe (serve s (.datagram source received answers)) fun s' => Bounded s' ∧
      ∃ bytes, received = some bytes ∧ step s (.datagram source bytes answers) = some s' := by
  refine (receiveInto_safe h.msg hshort).bind ?_
  rintro _ ⟨bytes, rfl, rfl⟩
  refine (register_safe (h.received bytes) source answers).bind ?_
  rintro s' ⟨hregister, hbounded, hmsg⟩
  have hzero := zero_mem_terminated h.msg (hshort bytes rfl)
  have hmessage := zero_mem_zeroFilled (length_broadcastText_lt source bytes)
  replace hmsg : s'.msg = terminated s.msg bytes := hmsg
  rw [hmsg]
  refine Safe.bind_ok (compose_eq source hzero) ?_
  refine (sendAll_safe hbounded hmessage answers.sent).bind fun sendings hsendings => ?_
  refine Safe.ok ⟨⟨length_terminated h.msg, hbounded.table, hbounded.clients⟩, bytes, rfl, ?_⟩
  rw [step, receive_of_lt s.msg (hshort bytes rfl)]
  simp only [Option.bind_eq_bind, Option.bind_some, hregister, hmsg,
    composeMessage_terminated source s.msg bytes, hsendings]
  rfl

theorem receipt_safe {s : ChatServer} (h : Bounded s) (i : Nat) {received : Option Bytes}
    (hshort : i < s.numClients → ∀ bytes, received = some bytes → bytes.length < MAX_MSG_LEN) :
    Safe (serve s (.receipt i received)) Bounded := by
  rw [serve]
  split
  · rename_i hclient
    refine (loadFd_safe s.clientFds (Nat.lt_of_lt_of_le hclient h.clients)).bind fun _ _ => ?_
    refine (receiveInto_safe h.msg (hshort hclient)).bind ?_
    rintro _ ⟨bytes, hreceived, rfl⟩
    have hzero := zero_mem_terminated h.msg (hshort hclient bytes hreceived)
    refine Safe.bind_access (stringAt_of_mem hzero) (Safe.ok ?_)
    exact ⟨length_terminated h.msg, h.table, h.clients⟩
  · exact Safe.ok h

theorem serve_safe {s : ChatServer} (h : Bounded s) {event : Event}
    (hroom : LeavesRoom s event) : Safe (serve s event) Bounded := by
  cases event with
  | select =>
      have hclients : 0 + s.numClients ≤ MAX_CLIENTS := by
        rw [Nat.zero_add]
        exact h.clients
      exact (loadFds_safe s.clientFds s.numClients 0 hclients).bind fun _ _ => Safe.ok h
  | datagram source received answers =>
      exact (datagram_safe h source answers hroom).mono fun s' hs' => hs'.1
  | receipt i received => exact receipt_safe h i hroom

theorem leavesRoom_of_not_fault {s : ChatServer} (h : Bounded s) {event : Event}
    (hserve : serve s event ≠ .error .fault) : LeavesRoom s event := by
  cases event with
  | select => exact trivial
  | datagram source received answers => exact short_of_not_fault h.msg hserve
  | receipt i received =>
      intro hclient
      rw [serve, if_pos hclient] at hserve
      have hload := loadFd_eq s.clientFds (Nat.lt_of_lt_of_le hclient h.clients)
      rw [hload] at hserve
      exact short_of_not_fault h.msg hserve

/-- What the array `msg` holds when it has not been written yet. -/
structure MsgArray where
  bytes : Bytes
  length_bytes : bytes.length = MAX_MSG_LEN

theorem bounded_start (memory : HashTable) (msg : MsgArray) :
    Bounded (.start memory msg.bytes) :=
  ⟨msg.length_bytes, ⟨fun _ => [], [], represents_hashTableInit memory, nofun⟩, Nat.zero_le _⟩

/-- Every access of the server is inside its array, and every string has its NUL. -/
def ServerInBounds (memory : HashTable) (msg : MsgArray) (events : List Event) : Prop :=
  EveryState (processStep serve) Process.NotFaulted (.running (.start memory msg.bytes)) events

theorem serverInBounds_iff (memory : HashTable) (msg : MsgArray) (events : List Event) :
    ServerInBounds memory msg events ↔
      EveryStep (processStep serve) (WhileRunning LeavesRoom)
        (.running (.start memory msg.bytes)) events := by
  refine notFaulted_iff ?_ ?_ (bounded_start memory msg) events
  · exact fun s event hs => serve_safe hs
  · exact fun s event hs => leavesRoom_of_not_fault hs

end StudyLinuxKernel.Chatroom.Bounds
