import StudyLinuxKernel.Chatroom.ClientBounds
import StudyLinuxKernel.Chatroom.EndToEnd
import StudyLinuxKernel.Library.DatagramNetwork

/-!
The chat server, the clients at all addresses and the network between them, which
may lose, duplicate and reorder datagrams.  A system call that fails ends its
process, and such a step has no result.
-/

namespace StudyLinuxKernel.Chatroom.Network

open StudyLinuxKernel.Chatroom.Bounds hiding Event
open StudyLinuxKernel.Chatroom.Broadcast
open StudyLinuxKernel.Chatroom.Client
open StudyLinuxKernel.Chatroom.ClientBounds
open StudyLinuxKernel.Chatroom.EndToEnd
open StudyLinuxKernel.Chatroom.Registration
open StudyLinuxKernel.Chatroom.RegistrationRuns (blankArray)
open StudyLinuxKernel.Chatroom.Server hiding Action step
open StudyLinuxKernel.Hashtable.Table
open StudyLinuxKernel.Libc.CharArray
open StudyLinuxKernel.Libc.Inet
open StudyLinuxKernel.Libc.Stdio
open StudyLinuxKernel.Libc.Text
open StudyLinuxKernel.Library.DatagramNetwork
open StudyLinuxKernel.Library.OrderedSet
open StudyLinuxKernel.Library.PartialStep

/-- The strings that the array of a client held when it sent them, which is what
`fgets` had read or, at the end of the input, what was there before, and what it has
printed. -/
structure ChatClient where
  texts : List Bytes
  output : List Bytes

/-- A request goes with the address of its sender, a reply with that of its
receiver. -/
structure ChatSystem where
  server : ChatServer
  clients : SockaddrIn → ChatClient
  requests : Network (SockaddrIn × Bytes)
  replies : Network (SockaddrIn × Bytes)

/-- `memory` is what the array of a client holds at its declaration, and `input`
what its standard input holds. -/
inductive Action where
  | sendLine (addr : SockaddrIn) (memory : MsgArray) (input : Bytes)
  | print (addr : SockaddrIn) (i : Nat) (memory : Bytes)
  | serve (i : Nat) (answers : Answers)
  | loseRequest (fault : Fault)
  | loseReply (fault : Fault)

def ChatSystem.start (memory : HashTable) (msg : Bytes) : ChatSystem where
  server := .start memory msg
  clients := fun _ => { texts := [], output := [] }
  requests := .empty
  replies := .empty

/-- The string in the array behind the call of `fgets`. -/
def readText (memory input : Bytes) : Bytes :=
  let line := (fgets (MAX_MSG_LEN - 1) input).1
  cStr (if line = [] then memory else line)

def ChatSystem.setClient (s : ChatSystem) (addr : SockaddrIn) (client : ChatClient) :
    ChatSystem :=
  { s with clients := Function.update s.clients addr client }

/-- The datagrams that the server sends in a round. -/
def replyOf (sending : Sending) : SockaddrIn × Bytes := (sending.dest, sending.message)

def step (s : ChatSystem) : Action → Option ChatSystem
  | .sendLine addr memory input =>
      match sendLine memory.bytes input true with
      | .error _ => none
      | .ok _ =>
          let text := readText memory.bytes input
          let client := s.clients addr
          some { s.setClient addr { client with texts := client.texts ++ [text] } with
            requests := s.requests.send [(addr, datagramOf text)] }
  | .print addr i memory => do
      let ((dest, message), replies) ← s.replies.receive i
      if dest = addr then
        let text ← printed memory message
        let client := s.clients addr
        some { s.setClient addr { client with output := client.output ++ [text] } with
          replies := replies }
      else none
  | .serve i answers => do
      let ((source, bytes), requests) ← s.requests.receive i
      let server ← Server.step s.server (.datagram source bytes answers)
      let rounds := server.log.drop s.server.log.length
      some { s with
        server := server
        requests := requests
        replies := s.replies.send (rounds.flatMap fun round => round.sendings.map replyOf) }
  | .loseRequest fault => do
      let requests ← s.requests.suffer fault
      some { s with requests := requests }
  | .loseReply fault => do
      let replies ← s.replies.suffer fault
      some { s with replies := replies }

/-- The calls of a registration succeed. -/
def Registering (s : ChatSystem) : Action → Prop
  | .serve _ answers => Registers s.server answers
  | _ => True

/-- What a client prints of a text of the sender, which loses its last character. -/
def display (sender : SockaddrIn) (text : Bytes) : Bytes := mark sender ++ text.dropLast

/-- The texts that are broadcast to a client, in the rounds in which it is among
the first `MAX_CLIENTS` senders; `heard` are the senders so far. -/
def broadcastsTo (addr : SockaddrIn) : List SockaddrIn → List Round → List Bytes
  | _, [] => []
  | heard, round :: rounds =>
      (if addr ∈ (distinct (heard ++ [round.source])).take MAX_CLIENTS then
        [broadcastText round.source round.datagram] else []) ++
        broadcastsTo addr (heard ++ [round.source]) rounds

/-- What the parts of the system have to do with each other. -/
structure Relayed (s : ChatSystem) : Prop where
  server : Sound (senders s.server) s.server
  received : s.server.log.map (fun round => (round.source, round.datagram)) = s.requests.received
  requested : ∀ addr, (s.requests.sent.filter (·.1 = addr)).map Prod.snd =
    (s.clients addr).texts.map datagramOf
  texts : ∀ addr, ∀ text ∈ (s.clients addr).texts,
    text ≠ [] ∧ 0 ∉ text ∧ text.length < MAX_MSG_LEN
  replied : ∀ addr, (s.replies.sent.filter (·.1 = addr)).map Prod.snd =
    broadcastsTo addr [] s.server.log
  printed : ∀ addr, (s.clients addr).output =
    (s.replies.received.filter (·.1 = addr)).map Prod.snd
  requestsGenuine : s.requests.Genuine
  repliesGenuine : s.replies.Genuine

theorem cStr_ne_nil {text : Bytes} (htext : text ≠ []) (hhead : text.head? ≠ some 0) :
    cStr text ≠ [] := by
  rcases List.exists_cons_of_ne_nil htext with ⟨ch, rest, rfl⟩
  have hch : ch ≠ 0 := fun hch => hhead (congrArg some hch)
  simp [cStr, hch]

/-- What a client sends without a fault is a string that is not empty and whose
NUL is inside the array. -/
theorem readText_spec {memory : MsgArray} {input msg : Bytes}
    (h : sendLine memory.bytes input true = .ok msg) :
    readText memory.bytes input ≠ [] ∧ 0 ∉ readText memory.bytes input ∧
      (readText memory.bytes input).length < MAX_MSG_LEN := by
  have hline : LineToSend memory.bytes input := by
    by_contra hline
    rw [sendLine_of_not_sendable memory.length_bytes hline] at h
    cases h
  have hinput : (fgets (MAX_MSG_LEN - 1) input).1 = [] → input = [] := by
    intro hempty
    by_contra hinput
    exact fgets_ne_nil (by decide) hinput hempty
  refine ⟨?_, zero_not_mem_cStr _, ?_⟩
  · rw [readText]
    split
    · rename_i hempty
      rcases hline.2 (hinput hempty) with ⟨hzero, hhead⟩
      exact cStr_ne_nil (List.ne_nil_of_mem hzero) hhead
    · rename_i hread
      have hhead := head?_fgets (by decide : 0 < MAX_MSG_LEN - 1) input
      rcases Decidable.em (input = []) with rfl | hinput
      · exact absurd rfl hread
      · exact cStr_ne_nil hread (hhead ▸ hline.1 hinput)
  · rw [readText]
    split
    · rename_i hempty
      have hshort := length_cStr_lt_iff.mpr (hline.2 (hinput hempty)).1
      rw [memory.length_bytes] at hshort
      exact hshort
    · have hread := length_fgets_le (MAX_MSG_LEN - 1) input
      have hcut := (List.takeWhile_prefix (· ≠ 0)
        (l := (fgets (MAX_MSG_LEN - 1) input).1)).length_le
      exact Nat.lt_of_le_of_lt (Nat.le_trans hcut hread) (by decide)

theorem broadcastsTo_concat (addr : SockaddrIn) (rounds : List Round) (round : Round) :
    ∀ heard, broadcastsTo addr heard (rounds ++ [round]) =
      broadcastsTo addr heard rounds ++
        if addr ∈ (distinct (heard ++ rounds.map Round.source ++ [round.source])).take
            MAX_CLIENTS then [broadcastText round.source round.datagram] else [] := by
  induction rounds with
  | nil =>
      intro heard
      rw [List.nil_append, broadcastsTo, broadcastsTo, broadcastsTo, List.append_nil,
        List.map_nil, List.append_nil, List.nil_append]
  | cons first rounds ih =>
      intro heard
      have hheard : heard ++ [first.source] ++ rounds.map Round.source =
          heard ++ (first :: rounds).map Round.source := List.append_assoc _ _ _
      rw [List.cons_append, broadcastsTo, ih, broadcastsTo, hheard]
      exact (List.append_assoc _ _ _).symm

theorem mem_of_mem_distinct {addr : SockaddrIn} {heard : List SockaddrIn}
    (h : addr ∈ distinct heard) : addr ∈ heard := by
  induction heard using List.reverseRecOn with
  | nil => exact h
  | append_singleton heard last ih =>
      rw [distinct_concat, insertLast] at h
      split at h
      · exact List.mem_append_left _ (ih h)
      · rcases List.mem_append.mp h with h | h
        · exact List.mem_append_left _ (ih h)
        · exact List.mem_append_right _ h

theorem of_mem_broadcastsTo {addr : SockaddrIn} {message : Bytes} {rounds : List Round} :
    ∀ {heard}, message ∈ broadcastsTo addr heard rounds →
      addr ∈ heard ++ rounds.map Round.source ∧
        ∃ round ∈ rounds, message = broadcastText round.source round.datagram := by
  induction rounds with
  | nil =>
      intro heard h
      cases h
  | cons first rounds ih =>
      intro heard h
      have hheard : heard ++ [first.source] ++ rounds.map Round.source =
          heard ++ (first :: rounds).map Round.source := List.append_assoc _ _ _
      rw [broadcastsTo, List.mem_append] at h
      rcases h with h | h
      · split at h
        · rename_i haddr
          have hmem := mem_of_mem_distinct (List.mem_of_mem_take haddr)
          rw [← hheard]
          exact ⟨List.mem_append_left _ hmem, first, List.mem_cons_self, List.mem_singleton.mp h⟩
        · cases h
      · rcases ih h with ⟨haddr, round, hround, hmessage⟩
        rw [← hheard]
        exact ⟨haddr, round, List.mem_cons_of_mem first hround, hmessage⟩

theorem replies_to {sockets : List Socket} {sendings : List Sending} {message : Bytes}
    (honce : (sockets.map Socket.peer).Nodup)
    (hperm : sendings.Perm (sockets.map (sendingTo message))) (addr : SockaddrIn) :
    ((sendings.map replyOf).filter (·.1 = addr)).map Prod.snd =
      if addr ∈ sockets.map Socket.peer then [message] else [] := by
  have hcount : (sockets.filter (·.peer = addr)).length = (sockets.map Socket.peer).count addr := by
    rw [← List.countP_eq_length_filter, List.count, List.countP_map]
    apply List.countP_congr
    intro socket _
    simp
  have hreplies := ((hperm.map replyOf).filter (·.1 = addr)).map Prod.snd
  have hall : ((((sockets.map (sendingTo message)).map replyOf).filter (·.1 = addr)).map Prod.snd) =
      List.replicate ((sockets.map Socket.peer).count addr) message := by
    rw [List.map_map, List.filter_map, List.map_map]
    change (sockets.filter (·.peer = addr)).map (fun _ => message) = _
    rw [List.map_const', hcount]
  rw [hall] at hreplies
  rw [List.perm_replicate.mp hreplies]
  split
  · rename_i hmem
    rw [List.count_eq_one_of_mem honce hmem]
    rfl
  · rename_i hnew
    rw [List.count_eq_zero_of_not_mem hnew]
    rfl

theorem setClient_self (s : ChatSystem) (addr : SockaddrIn) (client : ChatClient) :
    (s.setClient addr client).clients addr = client := by
  change Function.update s.clients addr client addr = client
  exact Function.update_self _ _ _

theorem setClient_of_ne {addr other : SockaddrIn} (h : other ≠ addr) (s : ChatSystem)
    (client : ChatClient) : (s.setClient addr client).clients other = s.clients other := by
  change Function.update s.clients addr client other = s.clients other
  exact Function.update_of_ne h _ _

/-- The steps, each with what it does to the parts of the system. -/
inductive Moves (s : ChatSystem) : Action → ChatSystem → Prop where
  | sentLine (addr : SockaddrIn) (memory : MsgArray) (input text : Bytes) :
      text ≠ [] ∧ 0 ∉ text ∧ text.length < MAX_MSG_LEN →
      Moves s (.sendLine addr memory input)
        { s.setClient addr { s.clients addr with texts := (s.clients addr).texts ++ [text] } with
          requests := s.requests.send [(addr, datagramOf text)] }
  | printed (addr : SockaddrIn) (i : Nat) (memory message text : Bytes)
      (replies : Network (SockaddrIn × Bytes)) :
      s.replies.receive i = some ((addr, message), replies) →
      Client.printed memory message = some text →
      Moves s (.print addr i memory)
        { s.setClient addr { s.clients addr with
            output := (s.clients addr).output ++ [text] } with
          replies := replies }
  | served (i : Nat) (answers : Answers) (source : SockaddrIn) (bytes : Bytes)
      (requests : Network (SockaddrIn × Bytes)) (server : ChatServer) :
      s.requests.receive i = some ((source, bytes), requests) →
      Server.step s.server (.datagram source bytes answers) = some server →
      Moves s (.serve i answers) { s with
        server := server
        requests := requests
        replies := s.replies.send
          ((server.log.drop s.server.log.length).flatMap fun round =>
            round.sendings.map replyOf) }
  | lostRequest (fault : Fault) (requests : Network (SockaddrIn × Bytes)) :
      s.requests.suffer fault = some requests →
      Moves s (.loseRequest fault) { s with requests := requests }
  | lostReply (fault : Fault) (replies : Network (SockaddrIn × Bytes)) :
      s.replies.suffer fault = some replies →
      Moves s (.loseReply fault) { s with replies := replies }

theorem moves_of_step {s s' : ChatSystem} {action : Action} (h : step s action = some s') :
    Moves s action s' := by
  cases action with
  | sendLine addr memory input =>
      rw [step] at h
      rcases hsend : sendLine memory.bytes input true with stop | msg
      · rw [hsend] at h
        cases h
      · rw [hsend] at h
        obtain rfl := Option.some.inj h
        exact .sentLine addr memory input _ (readText_spec hsend)
  | print addr i memory =>
      rcases Option.bind_eq_some_iff.mp h with ⟨⟨⟨dest, message⟩, replies⟩, hreceive, hrest⟩
      change (if dest = addr then _ else none) = some s' at hrest
      split at hrest
      · rename_i hdest
        obtain rfl := hdest
        rcases Option.bind_eq_some_iff.mp hrest with ⟨text, htext, hresult⟩
        obtain rfl := Option.some.inj hresult
        exact .printed dest i memory message text replies hreceive htext
      · cases hrest
  | serve i answers =>
      rcases Option.bind_eq_some_iff.mp h with ⟨⟨⟨source, bytes⟩, requests⟩, hreceive, hrest⟩
      rcases Option.bind_eq_some_iff.mp hrest with ⟨server, hserver, hresult⟩
      obtain rfl := Option.some.inj hresult
      exact .served i answers source bytes requests server hreceive hserver
  | loseRequest fault =>
      rcases Option.bind_eq_some_iff.mp h with ⟨requests, hsuffer, hresult⟩
      obtain rfl := Option.some.inj hresult
      exact .lostRequest fault requests hsuffer
  | loseReply fault =>
      rcases Option.bind_eq_some_iff.mp h with ⟨replies, hsuffer, hresult⟩
      obtain rfl := Option.some.inj hresult
      exact .lostReply fault replies hsuffer

theorem relayed_start (memory : HashTable) (msg : Bytes) : Relayed (.start memory msg) where
  server := sound_start memory msg
  received := rfl
  requested := fun _ => rfl
  texts := fun _ _ h => absurd h List.not_mem_nil
  replied := fun _ => rfl
  printed := fun _ => rfl
  requestsGenuine := genuine_empty
  repliesGenuine := genuine_empty

theorem filter_map_concat (sent : List (SockaddrIn × Bytes)) (addr other : SockaddrIn)
    (bytes : Bytes) :
    ((sent ++ [(addr, bytes)]).filter (·.1 = other)).map Prod.snd =
      (sent.filter (·.1 = other)).map Prod.snd ++ if addr = other then [bytes] else [] := by
  rw [List.filter_append, List.map_append]
  congr 1
  split
  · rename_i haddr
    rw [List.filter_singleton, decide_eq_true haddr]
    rfl
  · rename_i haddr
    rw [List.filter_singleton, decide_eq_false haddr]
    rfl

theorem Relayed.sentLine {s : ChatSystem} (h : Relayed s) (addr : SockaddrIn) {text : Bytes}
    (htext : text ≠ [] ∧ 0 ∉ text ∧ text.length < MAX_MSG_LEN) :
    Relayed { s.setClient addr
        { s.clients addr with texts := (s.clients addr).texts ++ [text] } with
      requests := s.requests.send [(addr, datagramOf text)] } := by
  refine ⟨h.server, h.received, fun other => ?_, fun other => ?_, h.replied, fun other => ?_,
    h.requestsGenuine.send _, h.repliesGenuine⟩
  · change ((s.requests.sent ++ [(addr, datagramOf text)]).filter _).map _ =
      List.map datagramOf ((s.setClient addr _).clients other).texts
    rw [filter_map_concat, h.requested]
    rcases Decidable.em (other = addr) with rfl | hother
    · rw [if_pos rfl, setClient_self, List.map_append]
      rfl
    · rw [if_neg (Ne.symm hother), setClient_of_ne hother, List.append_nil]
  · change ∀ text ∈ ((s.setClient addr _).clients other).texts, _
    rcases Decidable.em (other = addr) with rfl | hother
    · rw [setClient_self]
      intro sent hsent
      rcases List.mem_append.mp hsent with hsent | hsent
      · exact h.texts other sent hsent
      · rw [List.mem_singleton.mp hsent]
        exact htext
    · rw [setClient_of_ne hother]
      exact h.texts other
  · change ((s.setClient addr _).clients other).output = _
    rcases Decidable.em (other = addr) with rfl | hother
    · rw [setClient_self]
      exact h.printed other
    · rw [setClient_of_ne hother]
      exact h.printed other

theorem Relayed.zero_not_mem {s : ChatSystem} (h : Relayed s) {addr : SockaddrIn}
    {message : Bytes} (hsent : (addr, message) ∈ s.replies.sent) : 0 ∉ message := by
  have hmem : message ∈ (s.replies.sent.filter (·.1 = addr)).map Prod.snd :=
    List.mem_map.mpr ⟨_, List.mem_filter.mpr ⟨hsent, decide_eq_true rfl⟩, rfl⟩
  rw [h.replied] at hmem
  obtain ⟨_, round, _, rfl⟩ := of_mem_broadcastsTo hmem
  exact zero_not_mem_broadcastText _ _

theorem Relayed.print {s : ChatSystem} (h : Relayed s) {addr : SockaddrIn} {i : Nat}
    {memory message text : Bytes} {replies : Network (SockaddrIn × Bytes)}
    (hreceive : s.replies.receive i = some ((addr, message), replies))
    (htext : Client.printed memory message = some text) :
    Relayed { s.setClient addr { s.clients addr with
      output := (s.clients addr).output ++ [text] } with replies := replies } := by
  obtain ⟨hmem, hsent, hreceived, _⟩ := Network.receive_eq_some hreceive
  have hwhole : text = message := by
    rw [printed_of_not_mem memory (h.zero_not_mem (h.repliesGenuine.inFlight _ hmem)),
      Option.ite_none_right_eq_some] at htext
    exact (Option.some.inj htext.2).symm
  have hclient : ∀ other, ((s.setClient addr { s.clients addr with
      output := (s.clients addr).output ++ [text] }).clients other).texts =
        (s.clients other).texts := by
    intro other
    rcases Decidable.em (other = addr) with rfl | hother
    · rw [setClient_self]
    · rw [setClient_of_ne hother]
  refine ⟨h.server, h.received, fun other => ?_, fun other => ?_, fun other => ?_, fun other => ?_,
    h.requestsGenuine, h.repliesGenuine.receive hreceive⟩
  · change _ = List.map datagramOf ((s.setClient addr _).clients other).texts
    rw [hclient]
    exact h.requested other
  · change ∀ text ∈ ((s.setClient addr _).clients other).texts, _
    rw [hclient]
    exact h.texts other
  · change (replies.sent.filter _).map _ = _
    rw [hsent]
    exact h.replied other
  · change ((s.setClient addr _).clients other).output =
      (replies.received.filter (·.1 = other)).map Prod.snd
    rw [hreceived, filter_map_concat, ← h.printed]
    rcases Decidable.em (other = addr) with rfl | hother
    · rw [setClient_self, if_pos rfl, hwhole]
    · rw [setClient_of_ne hother, if_neg (Ne.symm hother)]
      exact (List.append_nil _).symm

theorem Relayed.serve {s : ChatSystem} (h : Relayed s) {i : Nat} {answers : Answers}
    (hanswers : Registers s.server answers) {source : SockaddrIn} {bytes : Bytes}
    {requests : Network (SockaddrIn × Bytes)} {server : ChatServer}
    (hreceive : s.requests.receive i = some ((source, bytes), requests))
    (hserver : Server.step s.server (.datagram source bytes answers) = some server) :
    Relayed { s with
      server := server
      requests := requests
      replies := s.replies.send ((server.log.drop s.server.log.length).flatMap fun round =>
        round.sendings.map replyOf) } := by
  obtain ⟨_, hsent, hreceived, _⟩ := Network.receive_eq_some hreceive
  obtain ⟨sendings, hsound, hlog, _, hsendings⟩ := h.server.datagram_done hanswers hserver
  have hpeers : server.sockets.map Socket.peer =
      (distinct (s.server.log.map Round.source ++ [source])).take MAX_CLIENTS := by
    rw [hsound.first, senders, hlog, List.map_append]
    rfl
  refine ⟨hsound, ?_, fun addr => ?_, h.texts, fun addr => ?_, h.printed,
    h.requestsGenuine.receive hreceive, h.repliesGenuine.send _⟩
  · change server.log.map _ = requests.received
    rw [hlog, hreceived, List.map_append, h.received]
    rfl
  · change (requests.sent.filter _).map _ = _
    rw [hsent]
    exact h.requested addr
  · change ((s.replies.sent ++ _).filter (·.1 = addr)).map Prod.snd =
      broadcastsTo addr [] server.log
    have hround : (server.log.drop s.server.log.length).flatMap
        (fun round => round.sendings.map replyOf) = sendings.map replyOf := by
      rw [hlog, List.drop_left]
      exact List.append_nil _
    rw [hround, List.filter_append, List.map_append, h.replied,
      replies_to hsound.once hsendings addr, hpeers, hlog, broadcastsTo_concat]
    rfl

theorem Relayed.step {s s' : ChatSystem} {action : Action} (h : Relayed s)
    (hregistering : Registering s action) (hstep : step s action = some s') : Relayed s' := by
  rcases moves_of_step hstep with ⟨addr, memory, input, text, htext⟩ |
    ⟨addr, i, memory, message, text, replies, hreceive, htext⟩ |
    ⟨i, answers, source, bytes, requests, server, hreceive, hserver⟩ |
    ⟨fault, requests, hsuffer⟩ | ⟨fault, replies, hsuffer⟩
  · exact h.sentLine addr htext
  · exact h.print hreceive htext
  · exact h.serve hregistering hreceive hserver
  · obtain ⟨hsent, hreceived⟩ := Network.suffer_eq_some hsuffer
    refine ⟨h.server, ?_, fun addr => ?_, h.texts, h.replied, h.printed,
      h.requestsGenuine.suffer hsuffer, h.repliesGenuine⟩
    · exact h.received.trans hreceived.symm
    · change (requests.sent.filter _).map _ = _
      rw [hsent]
      exact h.requested addr
  · obtain ⟨hsent, hreceived⟩ := Network.suffer_eq_some hsuffer
    refine ⟨h.server, h.received, h.requested, h.texts, fun addr => ?_, fun addr => ?_,
      h.requestsGenuine, h.repliesGenuine.suffer hsuffer⟩
    · change (replies.sent.filter _).map _ = _
      rw [hsent]
      exact h.replied addr
    · change _ = (replies.received.filter _).map _
      rw [hreceived]
      exact h.printed addr

theorem relayed_of_run {memory : HashTable} {msg : Bytes} {actions : List Action}
    (h : EveryStep step Registering (.start memory msg) actions) :
    EveryState step Relayed (.start memory msg) actions :=
  invariant_of_everyStep (relayed_start memory msg)
    (fun _ _ _ hrelayed hregistering hstep => hrelayed.step hregistering hstep) h

/-- What a client prints was sent by a client whose address is in front of it, and
only clients that have sent something themselves print anything. -/
def Attributed (s : ChatSystem) : Prop :=
  ∀ addr, ∀ shown ∈ (s.clients addr).output,
    (s.clients addr).texts ≠ [] ∧
      ∃ sender, ∃ text ∈ (s.clients sender).texts, shown = display sender text

theorem Relayed.of_mem_log {s : ChatSystem} (h : Relayed s) {round : Round}
    (hround : round ∈ s.server.log) :
    ∃ text ∈ (s.clients round.source).texts, round.datagram = datagramOf text := by
  have hreceived : (round.source, round.datagram) ∈ s.requests.received := by
    rw [← h.received]
    exact List.mem_map_of_mem hround
  have hsent := h.requestsGenuine.received _ hreceived
  have hrequested : round.datagram ∈ (s.clients round.source).texts.map datagramOf := by
    rw [← h.requested]
    exact List.mem_map.mpr ⟨_, List.mem_filter.mpr ⟨hsent, decide_eq_true rfl⟩, rfl⟩
  rcases List.mem_map.mp hrequested with ⟨text, htext, hdatagram⟩
  exact ⟨text, htext, hdatagram.symm⟩

theorem Relayed.attributed {s : ChatSystem} (h : Relayed s) : Attributed s := by
  intro addr shown hshown
  rw [h.printed] at hshown
  have hbroadcast : shown ∈ broadcastsTo addr [] s.server.log := by
    rw [← h.replied]
    rcases List.mem_map.mp hshown with ⟨reply, hreply, rfl⟩
    rcases List.mem_filter.mp hreply with ⟨hreceived, haddr⟩
    exact List.mem_map_of_mem (List.mem_filter.mpr ⟨h.repliesGenuine.received _ hreceived, haddr⟩)
  obtain ⟨haddr, round, hround, rfl⟩ := of_mem_broadcastsTo hbroadcast
  refine ⟨?_, ?_⟩
  · rw [List.nil_append] at haddr
    rcases List.mem_map.mp haddr with ⟨first, hfirst, rfl⟩
    obtain ⟨text, htext, _⟩ := h.of_mem_log hfirst
    exact List.ne_nil_of_mem htext
  · obtain ⟨text, htext, hdatagram⟩ := h.of_mem_log hround
    refine ⟨round.source, text, htext, ?_⟩
    rcases h.texts _ text htext with ⟨hne, hnoNul, hshort⟩
    rw [hdatagram, broadcastText_datagramOf round.source hne hnoNul hshort]
    rfl

/-- Whatever the network does, nothing is made up and nothing is ascribed to a
client that has not sent it. -/
theorem output_attributed (memory : HashTable) (msg : Bytes) (actions : List Action)
    (h : EveryStep step Registering (.start memory msg) actions) :
    EveryState step Attributed (.start memory msg) actions := by
  intro visited hvisited s hrun
  exact (relayed_of_run h visited hvisited s hrun).attributed

theorem Moves.server_of_sendLine {s s' : ChatSystem} {addr : SockaddrIn} {memory : MsgArray}
    {input : Bytes} (h : Moves s (.sendLine addr memory input) s') : s'.server = s.server := by
  cases h with
  | sentLine _ _ _ _ _ => rfl

/-- A client says hello and hears itself. -/
def greeting : List Action :=
  [.sendLine firstClient blankArray (literal "hello" ++ [lf]), .serve 0 firstCalls,
    .print firstClient 0 []]

theorem registering_greeting :
    EveryStep step Registering (.start cleanMemory []) greeting := by
  rw [greeting, everyStep_cons]
  refine fun s hsend => ⟨trivial, ?_⟩
  rw [everyStep_cons]
  refine fun s' _ => ⟨?_, ?_⟩
  · change Registers s.server firstCalls
    rw [(moves_of_step hsend).server_of_sendLine]
    exact (succeeds_firstCalls cleanMemory []).toRegisters
  · rw [everyStep_cons]
    exact fun _ _ => ⟨trivial, everyStep_nil _ _⟩

theorem output_attributed_greeting :
    EveryState step Attributed (.start cleanMemory []) greeting :=
  output_attributed cleanMemory [] greeting registering_greeting

def Action.Duplicates : Action → Prop
  | .loseRequest (.duplicate _) => True
  | .loseReply (.duplicate _) => True
  | _ => False

def Action.Faulty : Action → Prop
  | .loseRequest _ => True
  | .loseReply _ => True
  | _ => False

/-- The network loses datagrams and lets them overtake each other, and that is all
it does. -/
def Unduplicated (s : ChatSystem) (action : Action) : Prop :=
  Registering s action ∧ ¬ action.Duplicates

/-- The network only lets datagrams overtake each other. -/
def Faultless (s : ChatSystem) (action : Action) : Prop :=
  Registering s action ∧ ¬ action.Faulty

/-- The requests that the server has got from a client. -/
def ChatSystem.servedTo (s : ChatSystem) (addr : SockaddrIn) : List Bytes :=
  (s.server.log.filter (·.source = addr)).map Round.datagram

/-- What the rounds of the server have for a client. -/
def ChatSystem.meantFor (s : ChatSystem) (addr : SockaddrIn) : List Bytes :=
  broadcastsTo addr [] s.server.log

/-- A text is broadcast at most once for each time it was sent, and a broadcast is
shown at most once to each client. -/
structure AtMostOnce (s : ChatSystem) : Prop where
  served : ∀ addr, (s.servedTo addr).Subperm ((s.clients addr).texts.map datagramOf)
  shown : ∀ addr, (s.clients addr).output.Subperm (s.meantFor addr)

/-- Where nothing is left on its way, every text has been broadcast and every
broadcast been shown. -/
structure ExactlyOnce (s : ChatSystem) : Prop where
  served : ∀ addr, (∀ request ∈ s.requests.inFlight, request.1 ≠ addr) →
    (s.servedTo addr).Perm ((s.clients addr).texts.map datagramOf)
  shown : ∀ addr, (∀ reply ∈ s.replies.inFlight, reply.1 ≠ addr) →
    (s.clients addr).output.Perm (s.meantFor addr)

/-- The datagrams of an address. -/
def ofAddr (addr : SockaddrIn) (datagrams : List (SockaddrIn × Bytes)) : List Bytes :=
  (datagrams.filter (·.1 = addr)).map Prod.snd

theorem Relayed.servedTo_eq {s : ChatSystem} (h : Relayed s) (addr : SockaddrIn) :
    s.servedTo addr = ofAddr addr s.requests.received := by
  rw [ofAddr, ← h.received, List.filter_map, List.map_map]
  rfl

theorem Relayed.meantFor_eq {s : ChatSystem} (h : Relayed s) (addr : SockaddrIn) :
    s.meantFor addr = ofAddr addr s.replies.sent := by
  rw [ofAddr, h.replied, ChatSystem.meantFor]

theorem subperm_ofAddr {net : Network (SockaddrIn × Bytes)} (h : net.Accounted)
    (addr : SockaddrIn) : (ofAddr addr net.received).Subperm (ofAddr addr net.sent) := by
  have hreceived : net.received.Subperm net.sent :=
    (List.sublist_append_left net.received net.inFlight).subperm.trans h
  exact subperm_map (hreceived.filter _) _

theorem perm_ofAddr {net : Network (SockaddrIn × Bytes)} (h : net.Conserved) {addr : SockaddrIn}
    (hdone : ∀ datagram ∈ net.inFlight, datagram.1 ≠ addr) :
    (ofAddr addr net.received).Perm (ofAddr addr net.sent) := by
  have hperm := (h.filter (·.1 = addr)).map Prod.snd
  have hnone : net.inFlight.filter (·.1 = addr) = [] := by
    rw [List.filter_eq_nil_iff]
    intro datagram hmem haddr
    exact hdone datagram hmem (of_decide_eq_true haddr)
  rw [List.filter_append, hnone, List.append_nil] at hperm
  exact hperm

theorem Relayed.atMostOnce {s : ChatSystem} (h : Relayed s) (hrequests : s.requests.Accounted)
    (hreplies : s.replies.Accounted) : AtMostOnce s where
  served := fun addr => by
    rw [h.servedTo_eq, ← h.requested]
    exact subperm_ofAddr hrequests addr
  shown := fun addr => by
    rw [h.meantFor_eq, h.printed]
    exact subperm_ofAddr hreplies addr

theorem Relayed.exactlyOnce {s : ChatSystem} (h : Relayed s) (hrequests : s.requests.Conserved)
    (hreplies : s.replies.Conserved) : ExactlyOnce s where
  served := fun addr hdone => by
    rw [h.servedTo_eq, ← h.requested]
    exact perm_ofAddr hrequests hdone
  shown := fun addr hdone => by
    rw [h.meantFor_eq, h.printed]
    exact perm_ofAddr hreplies hdone

theorem accounted_step {s s' : ChatSystem} {action : Action}
    (h : s.requests.Accounted ∧ s.replies.Accounted) (honce : ¬ action.Duplicates)
    (hstep : step s action = some s') : s'.requests.Accounted ∧ s'.replies.Accounted := by
  rcases h with ⟨hrequests, hreplies⟩
  rcases moves_of_step hstep with ⟨addr, memory, input, text, _⟩ |
    ⟨addr, i, memory, message, text, replies, hreceive, htext⟩ |
    ⟨i, answers, source, bytes, requests, server, hreceive, _⟩ |
    ⟨fault, requests, hsuffer⟩ | ⟨fault, replies, hsuffer⟩
  · exact ⟨hrequests.send _, hreplies⟩
  · exact ⟨hrequests, hreplies.receive hreceive⟩
  · exact ⟨hrequests.receive hreceive, hreplies.send _⟩
  · cases fault with
    | drop i => exact ⟨hrequests.drop hsuffer, hreplies⟩
    | duplicate i => exact absurd trivial honce
  · cases fault with
    | drop i => exact ⟨hrequests, hreplies.drop hsuffer⟩
    | duplicate i => exact absurd trivial honce

theorem conserved_step {s s' : ChatSystem} {action : Action}
    (h : s.requests.Conserved ∧ s.replies.Conserved) (hfaultless : ¬ action.Faulty)
    (hstep : step s action = some s') : s'.requests.Conserved ∧ s'.replies.Conserved := by
  rcases h with ⟨hrequests, hreplies⟩
  rcases moves_of_step hstep with ⟨addr, memory, input, text, _⟩ |
    ⟨addr, i, memory, message, text, replies, hreceive, htext⟩ |
    ⟨i, answers, source, bytes, requests, server, hreceive, _⟩ |
    ⟨fault, requests, hsuffer⟩ | ⟨fault, replies, hsuffer⟩
  · exact ⟨hrequests.send _, hreplies⟩
  · exact ⟨hrequests, hreplies.receive hreceive⟩
  · exact ⟨hrequests.receive hreceive, hreplies.send _⟩
  · exact absurd trivial hfaultless
  · exact absurd trivial hfaultless

/-- Over a network that does not duplicate, nothing is repeated. -/
theorem output_atMostOnce (memory : HashTable) (msg : Bytes) (actions : List Action)
    (h : EveryStep step Unduplicated (.start memory msg) actions) :
    EveryState step AtMostOnce (.start memory msg) actions := by
  have hall : EveryState step
      (fun s => Relayed s ∧ s.requests.Accounted ∧ s.replies.Accounted) (.start memory msg)
      actions := by
    refine invariant_of_everyStep ⟨relayed_start memory msg, accounted_empty, accounted_empty⟩
      ?_ h
    intro s action s' ⟨hrelayed, haccounted⟩ ⟨hregistering, honce⟩ hstep
    exact ⟨hrelayed.step hregistering hstep, accounted_step haccounted honce hstep⟩
  intro visited hvisited s hrun
  obtain ⟨hrelayed, hrequests, hreplies⟩ := hall visited hvisited s hrun
  exact hrelayed.atMostOnce hrequests hreplies

/-- Over a network that only reorders, nothing is missing either. -/
theorem output_exactlyOnce (memory : HashTable) (msg : Bytes) (actions : List Action)
    (h : EveryStep step Faultless (.start memory msg) actions) :
    EveryState step ExactlyOnce (.start memory msg) actions := by
  have hall : EveryState step
      (fun s => Relayed s ∧ s.requests.Conserved ∧ s.replies.Conserved) (.start memory msg)
      actions := by
    refine invariant_of_everyStep ⟨relayed_start memory msg, conserved_empty, conserved_empty⟩
      ?_ h
    intro s action s' ⟨hrelayed, hconserved⟩ ⟨hregistering, hfaultless⟩ hstep
    exact ⟨hrelayed.step hregistering hstep, conserved_step hconserved hfaultless hstep⟩
  intro visited hvisited s hrun
  obtain ⟨hrelayed, hrequests, hreplies⟩ := hall visited hvisited s hrun
  exact hrelayed.exactlyOnce hrequests hreplies

theorem not_faulty_of_mem_greeting {action : Action} (h : action ∈ greeting) :
    ¬ action.Faulty ∧ ¬ action.Duplicates := by
  rw [greeting] at h
  rcases List.mem_cons.mp h with rfl | h
  · exact ⟨id, id⟩
  · rcases List.mem_cons.mp h with rfl | h
    · exact ⟨id, id⟩
    · rw [List.mem_singleton.mp h]
      exact ⟨id, id⟩

theorem output_atMostOnce_greeting :
    EveryState step AtMostOnce (.start cleanMemory []) greeting := by
  refine output_atMostOnce cleanMemory [] greeting fun visited action hvisited s s' hrun hstep => ?_
  have hmem := hvisited.subset (List.mem_append_right visited (List.mem_singleton_self action))
  exact ⟨registering_greeting visited action hvisited s s' hrun hstep,
    (not_faulty_of_mem_greeting hmem).2⟩

theorem output_exactlyOnce_greeting :
    EveryState step ExactlyOnce (.start cleanMemory []) greeting := by
  refine output_exactlyOnce cleanMemory [] greeting
    fun visited action hvisited s s' hrun hstep => ?_
  have hmem := hvisited.subset (List.mem_append_right visited (List.mem_singleton_self action))
  exact ⟨registering_greeting visited action hvisited s s' hrun hstep,
    (not_faulty_of_mem_greeting hmem).1⟩

end StudyLinuxKernel.Chatroom.Network
