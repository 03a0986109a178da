import StudyLinuxKernel.Chatroom.Broadcast
import StudyLinuxKernel.Library.OrderedSet

namespace StudyLinuxKernel.Chatroom.Registration

open StudyLinuxKernel.Chatroom.Broadcast
open StudyLinuxKernel.Chatroom.Server
open StudyLinuxKernel.Hashtable.Iteration hiding Action
open StudyLinuxKernel.Hashtable.Refinement
open StudyLinuxKernel.Hashtable.Table
open StudyLinuxKernel.Libc.CharArray
open StudyLinuxKernel.Libc.Inet
open StudyLinuxKernel.Libc.Text
open StudyLinuxKernel.Library.OrderedSet
open StudyLinuxKernel.Library.PartialStep

/-- The senders in the order of their first datagrams. -/
def distinct (senders : List SockaddrIn) : List SockaddrIn :=
  senders.foldl (fun seen sender => insertLast id sender seen) []

def senders (s : ChatServer) : List SockaddrIn := s.log.map Round.source

/-- The table is built by one put for each socket. -/
structure Sound (heard : List SockaddrIn) (s : ChatServer) : Prop where
  puts : ∃ entries puts, Represents s.table entries puts ∧
    (puts.map fun put => (put.key, put.value)) = s.sockets.map pairOf
  count : s.sockets.length = s.numClients
  first : s.sockets.map Socket.peer = (distinct heard).take MAX_CLIENTS
  array : s.clientFds.toList.take s.numClients = s.sockets.map Socket.fd
  fds : (s.sockets.map Socket.fd).Nodup
  positive : ∀ socket ∈ s.sockets, 0 < socket.fd

theorem distinct_concat (heard : List SockaddrIn) (source : SockaddrIn) :
    distinct (heard ++ [source]) = insertLast id source (distinct heard) :=
  List.foldl_concat _ _ _ _

theorem nodup_distinct (heard : List SockaddrIn) : (distinct heard).Nodup := by
  have hmapped : ((distinct heard).map id).Nodup := by
    induction heard using List.reverseRecOn with
    | nil => exact List.nodup_nil
    | append_singleton heard source ih =>
        rw [distinct_concat]
        exact nodup_insertLast ih source
  rw [List.map_id] at hmapped
  exact hmapped

theorem Sound.once {heard : List SockaddrIn} {s : ChatServer} (h : Sound heard s) :
    (s.sockets.map Socket.peer).Nodup := by
  rw [h.first]
  exact (nodup_distinct heard).sublist (List.take_sublist _ _)

theorem Sound.bounded {heard : List SockaddrIn} {s : ChatServer} (h : Sound heard s) :
    s.numClients ≤ MAX_CLIENTS := by
  have hlength := congrArg List.length h.first
  rw [List.length_map, h.count, List.length_take] at hlength
  omega

theorem nodup_keys {puts : List Put} {sockets : List Socket}
    (hpairs : (puts.map fun put => (put.key, put.value)) = sockets.map pairOf)
    (honce : (sockets.map Socket.peer).Nodup) : (puts.map Put.key).Nodup := by
  have hkeys : puts.map Put.key = (sockets.map Socket.peer).map addressKey := by
    have hfirst := congrArg (List.map Prod.fst) hpairs
    rw [List.map_map, List.map_map] at hfirst
    rw [List.map_map]
    exact hfirst
  rw [hkeys]
  exact honce.map addressKey_injective

theorem Sound.get_of_mem {heard : List SockaddrIn} {s : ChatServer} (h : Sound heard s)
    {socket : Socket} (hsocket : socket ∈ s.sockets) :
    hashTableGet s.table (addressKey socket.peer) = some (fdValue socket.fd) := by
  rcases h.puts with ⟨entries, puts, hrep, hpairs⟩
  have hreverse : (puts.reverse.map Put.key).Nodup := by
    rw [List.map_reverse]
    exact List.nodup_reverse.mpr (nodup_keys hpairs h.once)
  have hmem : (addressKey socket.peer, fdValue socket.fd) ∈
      puts.reverse.map (fun put => (put.key, put.value)) := by
    rw [List.map_reverse, List.mem_reverse, hpairs]
    exact List.mem_map_of_mem hsocket
  have hlast : lastValue (addressKey socket.peer) puts = some (fdValue socket.fd) :=
    (map_find?_key_eq_some_iff hreverse).mpr hmem
  rw [hrep.get, hlast]
  rfl

theorem not_mem_keys {puts : List Put} {sockets : List Socket}
    (hpairs : (puts.map fun put => (put.key, put.value)) = sockets.map pairOf)
    {source : SockaddrIn} (hnew : source ∉ sockets.map Socket.peer) :
    addressKey source ∉ puts.map Put.key := by
  intro hmem
  rcases List.mem_map.mp hmem with ⟨put, hput, hkey⟩
  have hpair : (put.key, put.value) ∈ sockets.map pairOf :=
    hpairs ▸ List.mem_map_of_mem hput
  rcases List.mem_map.mp hpair with ⟨socket, hsocket, heq⟩
  have hpeer := addressKey_injective ((Prod.mk.inj heq).1.trans hkey)
  exact hnew (hpeer ▸ List.mem_map_of_mem hsocket)

theorem Sound.get_of_not_mem {heard : List SockaddrIn} {s : ChatServer} (h : Sound heard s)
    {source : SockaddrIn} (hnew : source ∉ s.sockets.map Socket.peer) :
    hashTableGet s.table (addressKey source) = some NULL := by
  rcases h.puts with ⟨entries, puts, hrep, hpairs⟩
  have hlast : lastValue (addressKey source) puts = none := by
    rw [lastValue, map_find?_eq_none_iff, List.map_reverse, List.mem_reverse]
    exact not_mem_keys hpairs hnew
  rw [hrep.get, hlast]
  rfl

theorem Sound.known {heard : List SockaddrIn} {s : ChatServer} (h : Sound heard s)
    {source : SockaddrIn}
    (hknown : MAX_CLIENTS ≤ s.numClients ∨ source ∈ s.sockets.map Socket.peer) :
    Sound (heard ++ [source]) s := by
  refine ⟨h.puts, h.count, ?_, h.array, h.fds, h.positive⟩
  rw [distinct_concat, h.first, insertLast]
  split
  · rfl
  · rename_i hnew
    rw [List.map_id] at hnew
    rcases hknown with hfull | hmem
    · have hlength := congrArg List.length h.first
      rw [List.length_map, h.count, List.length_take] at hlength
      rw [List.take_append_of_le_length (by omega)]
    · rw [h.first] at hmem
      exact absurd (List.mem_of_mem_take hmem) hnew

theorem storeFd_take {clientFds : Vector Int32 MAX_CLIENTS} {i : Nat} (sock : Int32)
    (h : i < MAX_CLIENTS) : ∃ clientFds', storeFd clientFds i sock = some clientFds' ∧
      clientFds'.toList.take (i + 1) = clientFds.toList.take i ++ [sock] := by
  have hlength : i < clientFds.toList.length := by
    rw [Vector.length_toList]
    exact h
  refine ⟨_, dif_pos h, ?_⟩
  rw [Vector.toList_set, List.take_succ_eq_append_getElem, List.take_set_of_le (Nat.le_refl i),
    List.getElem_set_self]
  rw [List.length_set]
  exact hlength

theorem Sound.new {heard : List SockaddrIn} {s : ChatServer} (h : Sound heard s)
    {source : SockaddrIn} {answers : Answers} (hanswers : Registers s answers)
    (hroom : s.numClients < MAX_CLIENTS) (hnew : source ∉ s.sockets.map Socket.peer) :
    ∃ table clientFds,
      hashTablePut s.table (addressKey source) (fdValue answers.sock) answers.allocated =
        some table ∧
      storeFd s.clientFds s.numClients answers.sock = some clientFds ∧
      Sound (heard ++ [source]) { s with
        table := table
        clientFds := clientFds
        numClients := s.numClients + 1
        sockets := s.sockets ++ [{ fd := answers.sock, peer := source }] } := by
  rcases h.puts with ⟨entries, puts, hrep, hpairs⟩
  let put : Put := {
    key := addressKey source
    short := short_addressKey source
    value := fdValue answers.sock
    allocated := answers.allocated }
  obtain ⟨table, entries', hput, hrep', _⟩ :=
    hrep.put_of_allocated put (not_mem_keys hpairs hnew) hanswers.allocated
  rcases storeFd_take answers.sock hroom with ⟨clientFds, hstore, htake⟩
  have hall : s.sockets.map Socket.peer = distinct heard := by
    have hlength := congrArg List.length h.first
    rw [List.length_map, h.count, List.length_take] at hlength
    rw [h.first, List.take_of_length_le (by omega)]
  refine ⟨table, clientFds, hput, hstore, ⟨entries', puts ++ [put], hrep', ?_⟩, ?_, ?_, ?_, ?_,
    fun socket hsocket => ?_⟩
  · rw [List.map_append, List.map_append, hpairs]
    rfl
  · rw [List.length_append, h.count, List.length_singleton]
  · have hfits : (distinct heard ++ [source]).length ≤ MAX_CLIENTS := by
      rw [List.length_append, ← hall, List.length_map, h.count, List.length_singleton]
      exact hroom
    rw [hall, ← List.map_id (distinct heard)] at hnew
    rw [distinct_concat, insertLast_of_not_mem hnew, List.take_of_length_le hfits, List.map_append,
      hall]
    rfl
  · rw [htake, h.array, List.map_append]
    rfl
  · rw [List.map_append, List.nodup_append]
    refine ⟨h.fds, List.nodup_singleton _, ?_⟩
    rintro fd hfd fd' hfd' rfl
    rw [List.mem_singleton.mp hfd'] at hfd
    exact hanswers.fresh hfd
  · rcases List.mem_append.mp hsocket with hsocket | hsocket
    · exact h.positive socket hsocket
    · rw [List.mem_singleton.mp hsocket]
      exact hanswers.positive

theorem Sound.register {heard : List SockaddrIn} {s : ChatServer} (h : Sound heard s)
    (source : SockaddrIn) {answers : Answers} (hanswers : Registers s answers) :
    ∃ s', registerClient s source answers = some s' ∧ Sound (heard ++ [source]) s' ∧
      s'.msg = s.msg ∧ s'.log = s.log ∧ s.sockets <+: s'.sockets := by
  rw [registerClient]
  split
  · rename_i hroom
    rcases Decidable.em (source ∈ s.sockets.map Socket.peer) with hmem | hnew
    · rcases List.mem_map.mp hmem with ⟨socket, hsocket, rfl⟩
      have hvalue : fdValue socket.fd ≠ NULL := fdValue_ne_NULL (h.positive socket hsocket)
      refine ⟨s, ?_, h.known (Or.inr hmem), rfl, rfl, List.prefix_rfl⟩
      rw [h.get_of_mem hsocket]
      simp only [Option.bind_eq_bind, Option.bind_some, if_neg hvalue]
    · rcases h.new hanswers hroom hnew with ⟨table, clientFds, hput, hstore, hsound⟩
      have hsock : answers.sock ≠ -1 := by
        intro hfailed
        have hpositive := hanswers.positive
        rw [hfailed] at hpositive
        exact absurd hpositive (by decide)
      refine ⟨_, ?_, hsound, rfl, rfl, List.prefix_append _ _⟩
      rw [h.get_of_not_mem hnew]
      simp only [Option.bind_eq_bind, Option.bind_some, if_true, hput, if_neg hsock, hstore,
        hanswers.connected]
  · rename_i hfull
    exact ⟨s, rfl, h.known (Or.inl (Nat.not_lt.mp hfull)), rfl, rfl, List.prefix_rfl⟩

theorem Sound.datagram {s : ChatServer} (h : Sound (senders s) s) (source : SockaddrIn)
    {bytes : Bytes} (hlength : bytes.length < MAX_MSG_LEN) {answers : Answers}
    (hanswers : Succeeds s answers) :
    ∃ s' sendings, step s (.datagram source bytes answers) = some s' ∧ Sound (senders s') s' ∧
      s'.log = s.log ++ [{ source, datagram := bytes, sendings }] ∧
      s.sockets <+: s'.sockets ∧
      sendings.Perm (s'.sockets.map (sendingTo (broadcastText source bytes))) := by
  have hreceived : Sound (senders s) { s with msg := terminated s.msg bytes } :=
    ⟨h.puts, h.count, h.first, h.array, h.fds, h.positive⟩
  obtain ⟨s', hregister, hsound, hmsg, hlog, hsockets⟩ :=
    @Sound.register _ _ hreceived source answers
      ⟨hanswers.allocated, hanswers.positive, hanswers.fresh, hanswers.connected⟩
  rcases hsound.puts with ⟨entries, puts, hrep, hpairs⟩
  have hperm := pairs_perm hrep (nodup_keys hpairs hsound.once)
  rw [hpairs] at hperm
  obtain ⟨sendings, hbroadcast, hsendings⟩ := broadcast_perm hrep.layout hperm
    (zeroFilled 2048 (broadcastText source bytes)) hanswers.sent
  rw [cStr_zeroFilled (zero_not_mem_broadcastText source bytes)] at hsendings
  have hsenders : senders { s' with log := s'.log ++ [{ source, datagram := bytes, sendings }] } =
      senders s ++ [source] := by
    rw [senders, List.map_append, hlog]
    rfl
  refine ⟨{ s' with log := s'.log ++ [{ source, datagram := bytes, sendings }] }, sendings, ?_, ?_,
    ?_, hsockets, hsendings⟩
  · have hcompose := composeMessage_terminated source s.msg bytes
    rw [step, receive_of_lt s.msg hlength]
    simp only [Option.bind_eq_bind, hregister, Option.bind_some, hmsg, hcompose, hbroadcast]
  · rw [hsenders]
    exact ⟨hsound.puts, hsound.count, hsound.first, hsound.array, hsound.fds, hsound.positive⟩
  · rw [hlog]

theorem Sound.datagram_done {s s' : ChatServer} (h : Sound (senders s) s) {source : SockaddrIn}
    {bytes : Bytes} {answers : Answers} (hanswers : Registers s answers)
    (hstep : step s (.datagram source bytes answers) = some s') :
    ∃ sendings, Sound (senders s') s' ∧
      s'.log = s.log ++ [{ source, datagram := bytes, sendings }] ∧
      s.sockets <+: s'.sockets ∧
      sendings.Perm (s'.sockets.map (sendingTo (broadcastText source bytes))) := by
  rcases Option.bind_eq_some_iff.mp hstep with ⟨msg, hreceive, hreceived⟩
  have hsent : step s (.datagram source bytes { answers with sent := fun _ => true }) =
      some s' := by
    rcases Option.bind_eq_some_iff.mp hreceived with ⟨registered, hregister, hrest⟩
    rcases Option.bind_eq_some_iff.mp hrest with ⟨message, hcompose, hrest⟩
    rcases Option.bind_eq_some_iff.mp hrest with ⟨sendings, hbroadcast, hsome⟩
    refine Option.bind_eq_some_iff.mpr ⟨msg, hreceive, ?_⟩
    refine Option.bind_eq_some_iff.mpr ⟨registered, hregister, ?_⟩
    refine Option.bind_eq_some_iff.mpr ⟨message, hcompose, ?_⟩
    exact Option.bind_eq_some_iff.mpr ⟨sendings, broadcast_of_sent hbroadcast, hsome⟩
  have hsucceeds : Succeeds s { answers with sent := fun _ => true } :=
    ⟨⟨hanswers.allocated, hanswers.positive, hanswers.fresh, hanswers.connected⟩, fun _ => rfl⟩
  rcases h.datagram source (lt_of_receive hreceive) hsucceeds with ⟨s'', sendings, hsome, hdone⟩
  obtain rfl := Option.some.inj (hsome.symm.trans hsent)
  exact ⟨sendings, hdone⟩

theorem sound_start (memory : HashTable) (msg : Bytes) : Sound [] (.start memory msg) where
  puts := ⟨fun _ => [], [], represents_hashTableInit memory, rfl⟩
  count := rfl
  first := rfl
  array := rfl
  fds := List.nodup_nil
  positive := nofun

theorem Sound.step {s s' : ChatServer} {action : Action} (h : Sound (senders s) s)
    (hgranted : Granted s action) (hstep : step s action = some s') : Sound (senders s') s' := by
  cases action with
  | datagram source bytes answers =>
      rcases h.datagram_done hgranted hstep with ⟨_, hsound, _⟩
      exact hsound
  | receipt i bytes =>
      rw [Server.step] at hstep
      split at hstep
      · rcases Option.bind_eq_some_iff.mp hstep with ⟨msg, _, hsome⟩
        obtain rfl := Option.some.inj hsome
        exact ⟨h.puts, h.count, h.first, h.array, h.fds, h.positive⟩
      · cases hstep

theorem sound_of_run {memory : HashTable} {msg : Bytes} {actions : List Action}
    (h : EveryStep step Granted (.start memory msg) actions) :
    EveryState step (fun s => Sound (senders s) s) (.start memory msg) actions :=
  invariant_of_everyStep (sound_start memory msg)
    (fun _ _ _ hsound hgranted hstep => hsound.step hgranted hstep) h

def firstClient : SockaddrIn where
  sinAddr := fun _ => 10
  sinPort := { high := 156, low := 64 }

def firstCalls : Answers where
  sock := 4
  allocated := true
  connected := true
  sent := fun _ => true

theorem succeeds_firstCalls (memory : HashTable) (msg : Bytes) :
    Succeeds (.start memory msg) firstCalls where
  allocated := rfl
  positive := by decide
  fresh := List.not_mem_nil
  connected := rfl
  sent := fun _ => rfl

def cleanMemory : HashTable where
  heap := []
  buckets := fun _ => none

end StudyLinuxKernel.Chatroom.Registration
