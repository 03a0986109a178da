import StudyLinuxKernel.Hashtable.Iteration
import StudyLinuxKernel.Library.PartialStep
import StudyLinuxKernel.Libc.CharArray
import StudyLinuxKernel.Libc.Inet

/-!
`chatroom_server.c`: the registration of the senders in the hash table, and the
broadcast of their messages.  A call that fails ends the process, so that such a
step has no result.
-/

namespace StudyLinuxKernel.Chatroom.Server

open StudyLinuxKernel.Hashtable.Iteration hiding Action
open StudyLinuxKernel.Hashtable.Table
open StudyLinuxKernel.Libc.CharArray
open StudyLinuxKernel.Libc.Decimal
open StudyLinuxKernel.Libc.Inet
open StudyLinuxKernel.Libc.Text

def MAX_MSG_LEN : Nat := 1024
def MAX_CLIENTS : Nat := 100

/-- A socket that the server has connected to a client. -/
structure Socket where
  fd : Int32
  peer : SockaddrIn

structure Sending where
  fd : Int32
  dest : SockaddrIn
  message : Bytes
  deriving DecidableEq

/-- A datagram and what is sent on account of it. -/
structure Round where
  source : SockaddrIn
  datagram : Bytes
  sendings : List Sending

/-- What the calls answer while a datagram is dealt with: `sent` says which
calls of `sendto` succeed. -/
structure Answers where
  sock : Int32
  allocated : Bool
  connected : Bool
  sent : Nat → Bool

/-- `msg` is what the array holds.  The sockets are those of the kernel. -/
structure ChatServer where
  table : HashTable
  clientFds : Vector Int32 MAX_CLIENTS
  numClients : Nat
  msg : Bytes
  sockets : List Socket
  log : List Round

def ChatServer.start (memory : HashTable) (msg : Bytes) : ChatServer where
  table := hashTableInit memory
  clientFds := Vector.replicate MAX_CLIENTS 0
  numClients := 0
  msg := msg
  sockets := []
  log := []

inductive Action where
  | datagram (source : SockaddrIn) (bytes : Bytes) (answers : Answers)
  | receipt (i : Nat) (bytes : Bytes)

/-- The array with what `recvfrom` or `recv` has stored and the terminator. -/
def terminated (msg bytes : Bytes) : Bytes :=
  let len := min bytes.length MAX_MSG_LEN
  (bytes.take len ++ msg.drop len).set len 0

/-- `recvfrom` or `recv`, and `msg[len] = '\0'`; there is no result where that is
behind the array. -/
def receive (msg bytes : Bytes) : Option Bytes :=
  if min bytes.length MAX_MSG_LEN < MAX_MSG_LEN then some (terminated msg bytes) else none

/-- What `%s:%d` makes of an address. -/
def addressText (addr : SockaddrIn) : Bytes :=
  inetNtoa addr.sinAddr ++ colon :: decimal (ntohs addr.sinPort)

def addressKey (addr : SockaddrIn) : Key where
  chars := cStr (snprintf 32 (addressText addr))
  noNul := zero_not_mem_cStr _

/-- `(void*)(intptr_t)sock`. -/
def fdValue (sock : Int32) : Value := sock.toInt64.toUInt64

/-- The descriptor of a pointer, where an `int` is expected. -/
def valueFd (value : Value) : Int32 := value.toInt64.toInt32

/-- `client_fds[i] = sock`; there is no result outside the array. -/
def storeFd (clientFds : Vector Int32 MAX_CLIENTS) (i : Nat) (sock : Int32) :
    Option (Vector Int32 MAX_CLIENTS) :=
  if h : i < MAX_CLIENTS then some (clientFds.set i sock h) else none

def registerClient (s : ChatServer) (source : SockaddrIn) (answers : Answers) :
    Option ChatServer :=
  if s.numClients < MAX_CLIENTS then do
    let value ← hashTableGet s.table (addressKey source)
    if value = NULL then
      let table ← hashTablePut s.table (addressKey source) (fdValue answers.sock) answers.allocated
      if answers.sock = -1 then none
      else
        let clientFds ← storeFd s.clientFds s.numClients answers.sock
        if answers.connected then
          some { s with
            table := table
            clientFds := clientFds
            numClients := s.numClients + 1
            sockets := s.sockets ++ [{ fd := answers.sock, peer := source }] }
        else none
    else some s
  else some s

/-- `message`, with the text that is sent. -/
def composeMessage (ip msg : Bytes) (len : Nat) : Option Bytes := do
  let message ← strncpy (List.replicate 2048 0) ip (cStr ip).length
  let message ← strncat message (literal "> ") 2
  strncat message msg len

/-- The destination that a key stands for; a key without a colon has no result. -/
def decodeKey (clientIp : Bytes) : Option SockaddrIn := do
  let i ← strrchr colon clientIp
  some { sinAddr := inetAddr (clientIp.take i), sinPort := htons (atoi (clientIp.drop (i + 1))) }

/-- The loop over the table; `sendings` are the calls of `sendto` so far. -/
def broadcastLoop (table : HashTable) (message : Bytes) (sent : Nat → Bool) :
    Nat → Context → List Sending → Option (List Sending)
  | 0, _, _ => none
  | fuel + 1, iter, sendings =>
      if hashTableEnd iter then some sendings
      else do
        let (clientIp, clientFd) ← hashTableCurrentValue table iter
        let dest ← decodeKey clientIp.chars
        if sent sendings.length then
          let iter ← hashTableNext table iter
          broadcastLoop table message sent fuel iter
            (sendings ++ [{ fd := valueFd clientFd, dest, message := cStr message }])
        else none

def broadcast (table : HashTable) (message : Bytes) (sent : Nat → Bool) :
    Option (List Sending) := do
  let iter ← hashTableBegin table
  broadcastLoop table message sent (table.heap.length + 1) iter []

def step (s : ChatServer) : Action → Option ChatServer
  | .datagram source bytes answers => do
      let msg ← receive s.msg bytes
      let s ← registerClient { s with msg := msg } source answers
      let message ← composeMessage (inetNtoa source.sinAddr) s.msg (min bytes.length MAX_MSG_LEN)
      let sendings ← broadcast s.table message answers.sent
      some { s with log := s.log ++ [{ source, datagram := bytes, sendings }] }
  | .receipt i bytes =>
      if i < s.numClients then do
        let msg ← receive s.msg bytes
        some { s with msg := msg }
      else none

/-- The calls of a registration succeed, and a socket has a positive descriptor
that is not in use. -/
structure Registers (s : ChatServer) (answers : Answers) : Prop where
  allocated : answers.allocated = true
  positive : 0 < answers.sock
  fresh : answers.sock ∉ s.sockets.map Socket.fd
  connected : answers.connected = true

structure Succeeds (s : ChatServer) (answers : Answers) : Prop extends Registers s answers where
  sent : ∀ n, answers.sent n = true

/-- The condition on the steps of a run. -/
def Granted (s : ChatServer) : Action → Prop
  | .datagram _ _ answers => Registers s answers
  | .receipt _ _ => True

theorem zero_not_mem_addressText (addr : SockaddrIn) : 0 ∉ addressText addr := by
  rw [addressText, List.mem_append, List.mem_cons]
  rintro (hmem | h | hmem)
  · exact zero_not_mem_inetNtoa _ hmem
  · cases h
  · exact not_mem_decimal rfl _ hmem

theorem length_addressText_le (addr : SockaddrIn) : (addressText addr).length ≤ 21 := by
  have hip := length_inetNtoa_le addr.sinAddr
  have hport : (decimal (ntohs addr.sinPort)).length ≤ 5 :=
    length_decimal_le (by decide) (Nat.lt_of_lt_of_le (ntohs_lt _) (by decide))
  rw [addressText, List.length_append, List.length_cons]
  omega

theorem chars_addressKey (addr : SockaddrIn) : (addressKey addr).chars = addressText addr := by
  have hfits : (addressText addr).length ≤ 32 - 1 :=
    Nat.le_trans (length_addressText_le addr) (by decide)
  change cStr (snprintf 32 (addressText addr)) = _
  rw [snprintf, List.take_of_length_le hfits]
  exact cStr_eq_self (zero_not_mem_addressText addr)

theorem short_addressKey (addr : SockaddrIn) : (addressKey addr).chars.length < MAX_KEY_LEN := by
  rw [chars_addressKey]
  exact Nat.lt_of_le_of_lt (length_addressText_le addr) (by decide)

theorem decodeKey_addressText (addr : SockaddrIn) : decodeKey (addressText addr) = some addr := by
  have hcolon : strrchr colon (addressText addr) = some (inetNtoa addr.sinAddr).length :=
    strrchr_append_cons _ (not_mem_decimal rfl _)
  rw [decodeKey, hcolon]
  change some (SockaddrIn.mk _ _) = _
  rw [addressText, List.take_left, List.drop_length_add_append]
  change some (SockaddrIn.mk _ (htons (atoi (decimal (ntohs addr.sinPort))))) = _
  rw [inetAddr_inetNtoa, atoi_decimal, htons_ntohs]

theorem addressKey_injective : Function.Injective addressKey := by
  intro addr addr' h
  have htext : addressText addr = addressText addr' := by
    rw [← chars_addressKey, h, chars_addressKey]
  have hdecode := congrArg decodeKey htext
  rw [decodeKey_addressText, decodeKey_addressText] at hdecode
  exact Option.some.inj hdecode

theorem valueFd_fdValue (sock : Int32) : valueFd (fdValue sock) = sock := by
  rw [valueFd, fdValue]
  simp

theorem fdValue_ne_NULL {sock : Int32} (h : 0 < sock) : fdValue sock ≠ NULL := by
  intro hnull
  have hzero : valueFd (fdValue sock) = valueFd NULL := congrArg valueFd hnull
  rw [valueFd_fdValue] at hzero
  rw [hzero] at h
  exact absurd h (by decide)

/-- What the clients are sent. -/
def broadcastText (source : SockaddrIn) (bytes : Bytes) : Bytes :=
  inetNtoa source.sinAddr ++ literal "> " ++ cStr (bytes.take MAX_MSG_LEN)

theorem receive_of_lt (msg : Bytes) {bytes : Bytes} (h : bytes.length < MAX_MSG_LEN) :
    receive msg bytes = some (terminated msg bytes) := by
  rw [receive, Nat.min_eq_left h.le, if_pos h]

theorem receive_of_le (msg : Bytes) {bytes : Bytes} (h : MAX_MSG_LEN ≤ bytes.length) :
    receive msg bytes = none := by
  rw [receive, Nat.min_eq_right h, if_neg (Nat.lt_irrefl _)]

theorem lt_of_receive {msg bytes msg' : Bytes} (h : receive msg bytes = some msg') :
    bytes.length < MAX_MSG_LEN := by
  by_contra hfull
  rw [receive_of_le msg (Nat.not_lt.mp hfull)] at h
  cases h

theorem terminated_eq (msg bytes : Bytes) : terminated msg bytes =
    bytes.take MAX_MSG_LEN ++ (msg.drop (min bytes.length MAX_MSG_LEN)).set 0 0 := by
  have hlength : (bytes.take MAX_MSG_LEN).length = min bytes.length MAX_MSG_LEN := by
    rw [List.length_take, Nat.min_comm]
  have htake : bytes.take (min bytes.length MAX_MSG_LEN) = bytes.take MAX_MSG_LEN := by
    rw [Nat.min_comm, ← List.take_take, List.take_length]
  rw [terminated, htake, List.set_append_right _ _ hlength.le, hlength, Nat.sub_self]

theorem take_cStr_terminated (msg bytes : Bytes) :
    (cStr (terminated msg bytes)).take (min bytes.length MAX_MSG_LEN) =
      cStr (bytes.take MAX_MSG_LEN) := by
  have hlength : min bytes.length MAX_MSG_LEN = (bytes.take MAX_MSG_LEN).length := by
    rw [List.length_take, Nat.min_comm]
  rw [terminated_eq, hlength, take_cStr_append (Nat.le_refl _)]
  exact List.take_of_length_le (List.takeWhile_prefix _).length_le

theorem zero_not_mem_broadcastText (source : SockaddrIn) (bytes : Bytes) :
    0 ∉ broadcastText source bytes := by
  rw [broadcastText, List.mem_append, List.mem_append]
  rintro ((hmem | hmem) | hmem)
  · exact zero_not_mem_inetNtoa _ hmem
  · exact absurd hmem (by decide)
  · exact zero_not_mem_cStr _ hmem

theorem strncpy_ip (source : SockaddrIn) :
    strncpy (List.replicate 2048 0) (inetNtoa source.sinAddr)
        (cStr (inetNtoa source.sinAddr)).length =
      some (zeroFilled 2048 (inetNtoa source.sinAddr)) := by
  have hip := zero_not_mem_inetNtoa source.sinAddr
  have hipLength := length_inetNtoa_le source.sinAddr
  rw [cStr_eq_self hip]
  exact strncpy_zeroFilled hip (by omega)

theorem strncat_mark (source : SockaddrIn) :
    strncat (zeroFilled 2048 (inetNtoa source.sinAddr)) (literal "> ") 2 =
      some (zeroFilled 2048 (inetNtoa source.sinAddr ++ literal "> ")) := by
  have hipLength := length_inetNtoa_le source.sinAddr
  have hmark : (cStr (literal "> ")).take 2 = literal "> " := by decide
  have hmarkLength : (literal "> ").length = 2 := by decide
  have hmarked := @strncat_zeroFilled 2048 _ (zero_not_mem_inetNtoa source.sinAddr)
    (literal "> ") 2 (by
      rw [hmark, hmarkLength]
      omega)
  rw [hmark] at hmarked
  exact hmarked

theorem strncat_terminated (source : SockaddrIn) (msg bytes : Bytes) :
    strncat (zeroFilled 2048 (inetNtoa source.sinAddr ++ literal "> ")) (terminated msg bytes)
        (min bytes.length MAX_MSG_LEN) =
      some (zeroFilled 2048 (broadcastText source bytes)) := by
  have hipLength := length_inetNtoa_le source.sinAddr
  have hmarkLength : (literal "> ").length = 2 := by decide
  have htext : (cStr (bytes.take MAX_MSG_LEN)).length ≤ 1024 := by
    apply Nat.le_trans (List.takeWhile_prefix _).length_le
    rw [List.length_take]
    exact Nat.min_le_left _ _
  have hhead : 0 ∉ inetNtoa source.sinAddr ++ literal "> " := by
    rw [List.mem_append]
    rintro (hmem | hmem)
    · exact zero_not_mem_inetNtoa source.sinAddr hmem
    · exact absurd hmem (by decide)
  have hwhole := @strncat_zeroFilled 2048 _ hhead (terminated msg bytes)
    (min bytes.length MAX_MSG_LEN) (by
      rw [take_cStr_terminated, List.length_append, hmarkLength]
      omega)
  rw [take_cStr_terminated] at hwhole
  exact hwhole

theorem composeMessage_terminated (source : SockaddrIn) (msg bytes : Bytes) :
    composeMessage (inetNtoa source.sinAddr) (terminated msg bytes)
        (min bytes.length MAX_MSG_LEN) =
      some (zeroFilled 2048 (broadcastText source bytes)) := by
  rw [composeMessage, strncpy_ip]
  change (strncat _ _ _).bind _ = _
  rw [strncat_mark]
  exact strncat_terminated source msg bytes

end StudyLinuxKernel.Chatroom.Server
