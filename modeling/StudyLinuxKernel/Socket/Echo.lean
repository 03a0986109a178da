import Mathlib.Data.List.TakeDrop
import StudyLinuxKernel.Libc.Text
import StudyLinuxKernel.Library.DatagramNetwork
import StudyLinuxKernel.Library.PartialStep

/-!
The datagram echo server and its clients (echo_dgram_server.c, echo_dgram_client.c).
A client sends its arguments one by one and waits for a datagram behind each.
Each client has an address of its own; no port is used again.
-/

namespace StudyLinuxKernel.Socket.Echo

open StudyLinuxKernel.Libc.Text
open StudyLinuxKernel.Library.DatagramNetwork
open StudyLinuxKernel.Library.PartialStep

def messageSize : Nat := 1024

/-- A string of the argument vector. -/
structure Argument where
  text : Bytes
  zero_not_mem : 0 ∉ text

inductive ClientPlace where
  | starting
  | sending
  | receiving
  | ended
  deriving DecidableEq

/-- `next` is `i - 3`, and `output` has what is printed for each datagram. -/
structure Client where
  place : ClientPlace
  next : Nat
  output : List Bytes

/-- Where the server is: a datagram that it has received goes back to its sender. -/
inductive ServerPlace (A : Type) where
  | receiving
  | sending (remoteAddr : A) (message : Bytes)
  | ended

variable {A : Type}

def ServerPlace.held : ServerPlace A → List (A × Bytes)
  | .sending remoteAddr message => [(remoteAddr, message)]
  | _ => []

/-- A request goes with the address of its sender, a reply with that of its
receiver. -/
structure EchoSystem (A : Type) where
  server : ServerPlace A
  clients : A → Client
  requests : Network (A × Bytes)
  replies : Network (A × Bytes)

/-- `behind` is what the memory behind the array of a client holds. -/
inductive Action (A : Type) where
  | connect (addr : A) (ok : Bool)
  | send (addr : A) (ok : Bool)
  | receive (addr : A) (i : Nat) (behind : Bytes)
  | receiveFails (addr : A)
  | finish (addr : A)
  | serverReceive (i : Nat)
  | serverSend
  | serverFails
  | loseRequest (fault : Fault)
  | loseReply (fault : Fault)

/-- A client without a message prints its usage and ends. -/
def EchoSystem.start (arguments : A → List Argument) : EchoSystem A where
  server := .receiving
  clients := fun addr =>
    { place := if arguments addr = [] then .ended else .starting, next := 0, output := [] }
  requests := .empty
  replies := .empty

def EchoSystem.setClient [DecidableEq A] (s : EchoSystem A) (addr : A) (client : Client) :
    EchoSystem A :=
  { s with clients := Function.update s.clients addr client }

def EchoSystem.move [DecidableEq A] (s : EchoSystem A) (addr : A) (place : ClientPlace) :
    EchoSystem A :=
  s.setClient addr { s.clients addr with place := place }

/-- The array is cleared, filled and printed. -/
def EchoSystem.print [DecidableEq A] (s : EchoSystem A) (addr : A) (message behind : Bytes) :
    EchoSystem A :=
  s.setClient addr {
    place := .sending
    next := (s.clients addr).next + 1
    output := (s.clients addr).output ++
      [bufferText messageSize (message.take messageSize) behind] }

def step [DecidableEq A] (arguments : A → List Argument) (s : EchoSystem A) :
    Action A → Option (EchoSystem A)
  | .connect addr ok =>
      if (s.clients addr).place = .starting then
        some (s.move addr (if ok then .sending else .ended))
      else none
  | .send addr ok => do
      let argument ← (arguments addr)[(s.clients addr).next]?
      if (s.clients addr).place = .sending then
        if ok then
          some { s.move addr .receiving with requests := s.requests.send [(addr, argument.text)] }
        else some (s.move addr .ended)
      else none
  | .receive addr i behind => do
      let ((dest, message), replies) ← s.replies.receive i
      if dest = addr ∧ (s.clients addr).place = .receiving then
        some { s.print addr message behind with replies := replies }
      else none
  | .receiveFails addr =>
      if (s.clients addr).place = .receiving then some (s.move addr .ended) else none
  | .finish addr =>
      if (s.clients addr).place = .sending ∧ (arguments addr).length ≤ (s.clients addr).next then
        some (s.move addr .ended)
      else none
  | .serverReceive i =>
      match s.server with
      | .receiving => do
          let ((source, message), requests) ← s.requests.receive i
          some { s with
            server := .sending source (message.take messageSize)
            requests := requests }
      | _ => none
  | .serverSend =>
      match s.server with
      | .sending remoteAddr message =>
          some { s with server := .receiving, replies := s.replies.send [(remoteAddr, message)] }
      | _ => none
  | .serverFails =>
      match s.server with
      | .ended => none
      | _ => some { s with server := .ended }
  | .loseRequest fault => do
      let requests ← s.requests.suffer fault
      some { s with requests := requests }
  | .loseReply fault => do
      let replies ← s.replies.suffer fault
      some { s with replies := replies }

/-- What a step does, with what has to hold before it. -/
inductive Moves [DecidableEq A] (arguments : A → List Argument) (s : EchoSystem A) :
    Action A → EchoSystem A → Prop
  | connected (addr : A) (ok : Bool) (hplace : (s.clients addr).place = .starting) :
      Moves arguments s (.connect addr ok) (s.move addr (if ok then .sending else .ended))
  | sent (addr : A) (argument : Argument) (hplace : (s.clients addr).place = .sending)
      (hargument : (arguments addr)[(s.clients addr).next]? = some argument) :
      Moves arguments s (.send addr true)
        { s.move addr .receiving with requests := s.requests.send [(addr, argument.text)] }
  | sendFailed (addr : A) (hplace : (s.clients addr).place = .sending) :
      Moves arguments s (.send addr false) (s.move addr .ended)
  | received (addr : A) (i : Nat) (message behind : Bytes) (replies : Network (A × Bytes))
      (hplace : (s.clients addr).place = .receiving)
      (hreceive : s.replies.receive i = some ((addr, message), replies)) :
      Moves arguments s (.receive addr i behind)
        { s.print addr message behind with replies := replies }
  | receiveFailed (addr : A) (hplace : (s.clients addr).place = .receiving) :
      Moves arguments s (.receiveFails addr) (s.move addr .ended)
  | finished (addr : A) (hplace : (s.clients addr).place = .sending)
      (hall : (arguments addr).length ≤ (s.clients addr).next) :
      Moves arguments s (.finish addr) (s.move addr .ended)
  | serverReceived (i : Nat) (source : A) (message : Bytes) (requests : Network (A × Bytes))
      (hserver : s.server = .receiving)
      (hreceive : s.requests.receive i = some ((source, message), requests)) :
      Moves arguments s (.serverReceive i) { s with
        server := .sending source (message.take messageSize)
        requests := requests }
  | serverSent (remoteAddr : A) (message : Bytes)
      (hserver : s.server = .sending remoteAddr message) :
      Moves arguments s .serverSend
        { s with server := .receiving, replies := s.replies.send [(remoteAddr, message)] }
  | serverFailed : Moves arguments s .serverFails { s with server := .ended }
  | requestSuffered (fault : Fault) (requests : Network (A × Bytes))
      (hsuffer : s.requests.suffer fault = some requests) :
      Moves arguments s (.loseRequest fault) { s with requests := requests }
  | replySuffered (fault : Fault) (replies : Network (A × Bytes))
      (hsuffer : s.replies.suffer fault = some replies) :
      Moves arguments s (.loseReply fault) { s with replies := replies }

/-- What is left of a datagram in an array of the server or of a client. -/
def received (datagram : A × Bytes) : A × Bytes :=
  (datagram.1, datagram.2.take messageSize)

/-- The datagrams between the clients and the server, and the one that it holds. -/
def EchoSystem.circulating (s : EchoSystem A) : List (A × Bytes) :=
  (s.requests.inFlight ++ s.server.held ++ s.replies.inFlight).map received

/-- The text that is printed is that of the argument, as far as the array has room
for it. -/
def Shows (argument : Argument) (text : Bytes) : Prop :=
  argument.text.take messageSize <+: text ∧
    (argument.text.length < messageSize → text = argument.text)

/-- Among the messages that the client has sent so far. -/
def Origin (arguments : A → List Argument) (addr : A) (k : Nat) (property : Argument → Prop) :
    Prop :=
  ∃ j argument, j ≤ k ∧ (arguments addr)[j]? = some argument ∧ property argument

variable {arguments : A → List Argument} {s s' : EchoSystem A}

theorem Origin.mono {addr : A} {k l : Nat} {property : Argument → Prop}
    (h : Origin arguments addr k property) (hle : k ≤ l) : Origin arguments addr l property := by
  rcases h with ⟨j, argument, hj, hargument, hproperty⟩
  exact ⟨j, argument, Nat.le_trans hj hle, hargument, hproperty⟩

/-- What circulates was sent by the client that it comes back to. -/
structure Attributed (arguments : A → List Argument) (s : EchoSystem A) : Prop where
  circulating : ∀ datagram ∈ s.circulating,
    Origin arguments datagram.1 (s.clients datagram.1).next fun argument =>
      datagram.2 = argument.text.take messageSize
  counted : ∀ addr, (s.clients addr).output.length = (s.clients addr).next
  printed : ∀ addr k text, (s.clients addr).output[k]? = some text →
    Origin arguments addr k fun argument => Shows argument text

theorem attributed_start (arguments : A → List Argument) :
    Attributed arguments (EchoSystem.start arguments) where
  circulating := fun _ h => by cases h
  counted := fun _ => rfl
  printed := fun _ _ _ h => by cases h

theorem Attributed.quiet (h : Attributed arguments s)
    (hclients : ∀ addr, (s'.clients addr).next = (s.clients addr).next ∧
      (s'.clients addr).output = (s.clients addr).output)
    (hcirculating : s'.circulating ⊆ s.circulating) : Attributed arguments s' := by
  refine ⟨fun datagram hdatagram => ?_, fun addr => ?_, fun addr k text htext => ?_⟩
  · rw [(hclients _).1]
    exact h.circulating datagram (hcirculating hdatagram)
  · rw [(hclients addr).1, (hclients addr).2]
    exact h.counted addr
  · rw [(hclients addr).2] at htext
    exact h.printed addr k text htext

/-- The server cuts a datagram as the array of the client would. -/
theorem received_take (source : A) (message : Bytes) :
    received (source, message.take messageSize) = received (source, message) := by
  rw [received, received, List.take_take, Nat.min_self]

theorem perm_circulating_serverReceived {i : Nat} {source : A} {message : Bytes}
    {requests : Network (A × Bytes)} (hserver : s.server = .receiving)
    (hreceive : s.requests.receive i = some ((source, message), requests)) :
    ({ s with
        server := .sending source (message.take messageSize)
        requests := requests } : EchoSystem A).circulating.Perm s.circulating := by
  obtain ⟨_, _, _, hperm⟩ := Network.receive_eq_some hreceive
  rw [EchoSystem.circulating, EchoSystem.circulating, hserver]
  change ((requests.inFlight ++ [(source, message.take messageSize)] ++
    s.replies.inFlight).map received).Perm
      ((s.requests.inFlight ++ [] ++ s.replies.inFlight).map received)
  have hcut : (requests.inFlight ++ [(source, message.take messageSize)] ++
      s.replies.inFlight).map received =
        (requests.inFlight ++ [(source, message)] ++ s.replies.inFlight).map received := by
    simp only [List.map_append, List.map_cons, List.map_nil, received_take]
  rw [hcut, List.append_nil]
  refine List.Perm.map received (List.Perm.append_right _ ?_)
  exact (List.perm_append_singleton _ _).trans hperm

theorem perm_circulating_serverSent {remoteAddr : A} {message : Bytes}
    (hserver : s.server = .sending remoteAddr message) :
    ({ s with server := .receiving, replies := s.replies.send [(remoteAddr, message)] }
      : EchoSystem A).circulating.Perm s.circulating := by
  rw [EchoSystem.circulating, EchoSystem.circulating, hserver]
  change ((s.requests.inFlight ++ [] ++ (s.replies.inFlight ++ [(remoteAddr, message)])).map
    received).Perm
      ((s.requests.inFlight ++ [(remoteAddr, message)] ++ s.replies.inFlight).map received)
  refine List.Perm.map received ?_
  rw [List.append_nil, List.append_assoc]
  exact (List.perm_append_comm).append_left _

theorem sublist_circulating_serverFailed (s : EchoSystem A) :
    ({ s with server := .ended } : EchoSystem A).circulating.Sublist s.circulating := by
  refine List.Sublist.map received ?_
  exact ((List.nil_sublist _).append_left _).append_right _

theorem sublist_of_drop {M : Type} {net net' : Network M} {i : Nat}
    (h : net.suffer (.drop i) = some net') : net'.inFlight.Sublist net.inFlight := by
  rcases Option.map_eq_some_iff.mp h with ⟨_, _, rfl⟩
  exact List.eraseIdx_sublist _ i

theorem subset_of_suffer {M : Type} {net net' : Network M} {fault : Fault}
    (h : net.suffer fault = some net') : net'.inFlight ⊆ net.inFlight := by
  cases fault with
  | drop i => exact (sublist_of_drop h).subset
  | duplicate i =>
      rcases Option.map_eq_some_iff.mp h with ⟨message, hmessage, rfl⟩
      intro datagram hdatagram
      rcases List.mem_append.mp hdatagram with hold | hcopy
      · exact hold
      · rw [List.mem_singleton.mp hcopy]
        exact List.mem_of_getElem? hmessage

theorem subset_circulating {requests replies : Network (A × Bytes)}
    (hrequests : requests.inFlight ⊆ s.requests.inFlight)
    (hreplies : replies.inFlight ⊆ s.replies.inFlight) :
    ({ s with requests := requests, replies := replies } : EchoSystem A).circulating ⊆
      s.circulating := by
  refine List.map_subset received ?_
  intro datagram hdatagram
  rcases List.mem_append.mp hdatagram with hfirst | hreply
  · rcases List.mem_append.mp hfirst with hrequest | hheld
    · exact List.mem_append_left _ (List.mem_append_left _ (hrequests hrequest))
    · exact List.mem_append_left _ (List.mem_append_right _ hheld)
  · exact List.mem_append_right _ (hreplies hreply)

theorem sublist_circulating {requests replies : Network (A × Bytes)}
    (hrequests : requests.inFlight.Sublist s.requests.inFlight)
    (hreplies : replies.inFlight.Sublist s.replies.inFlight) :
    ({ s with requests := requests, replies := replies } : EchoSystem A).circulating.Sublist
      s.circulating :=
  List.Sublist.map received ((hrequests.append_right _).append hreplies)

theorem shows_bufferText {argument : Argument} {message : Bytes}
    (h : message.take messageSize = argument.text.take messageSize) (behind : Bytes) :
    Shows argument (bufferText messageSize (message.take messageSize) behind) := by
  have hnoNul : 0 ∉ argument.text.take messageSize :=
    fun hmem => argument.zero_not_mem (List.mem_of_mem_take hmem)
  rw [h, bufferText, cStr_eq_self hnoNul, cStr_append hnoNul]
  constructor
  · split
    · exact List.prefix_refl _
    · exact List.prefix_append _ _
  · intro hlength
    rw [List.take_of_length_le (Nat.le_of_lt hlength), if_pos hlength]

/-- What a client waits for. -/
def awaited (arguments : A → List Argument) (addr : A) (client : Client) : List (A × Bytes) :=
  match client.place with
  | .receiving => ((arguments addr)[client.next]?.toList).map fun argument =>
      received (addr, argument.text)
  | _ => []

theorem awaited_of_ne {addr : A} {client : Client} (h : client.place ≠ .receiving) :
    awaited arguments addr client = [] := by
  rw [awaited]
  split
  · contradiction
  · rfl

theorem awaited_of_receiving {addr : A} {client : Client} {argument : Argument}
    (hplace : client.place = .receiving)
    (hargument : (arguments addr)[client.next]? = some argument) :
    awaited arguments addr client = [received (addr, argument.text)] := by
  rw [awaited, hplace, hargument]
  rfl

variable [DecidableEq A]

theorem moves_of_step {action : Action A} (h : step arguments s action = some s') :
    Moves arguments s action s' := by
  cases action with
  | connect addr ok =>
      rcases Option.ite_none_right_eq_some.mp h with ⟨hplace, heq⟩
      obtain rfl := Option.some.inj heq
      exact .connected addr ok hplace
  | send addr ok =>
      rcases Option.bind_eq_some_iff.mp h with ⟨argument, hargument, hsend⟩
      rcases Option.ite_none_right_eq_some.mp hsend with ⟨hplace, heq⟩
      cases ok with
      | true =>
          obtain rfl := Option.some.inj heq
          exact .sent addr argument hplace hargument
      | false =>
          obtain rfl := Option.some.inj heq
          exact .sendFailed addr hplace
  | receive addr i behind =>
      rcases Option.bind_eq_some_iff.mp h with ⟨⟨⟨dest, message⟩, replies⟩, hreceive, hprint⟩
      rcases Option.ite_none_right_eq_some.mp hprint with ⟨⟨rfl, hplace⟩, heq⟩
      obtain rfl := Option.some.inj heq
      exact .received dest i message behind replies hplace hreceive
  | receiveFails addr =>
      rcases Option.ite_none_right_eq_some.mp h with ⟨hplace, heq⟩
      obtain rfl := Option.some.inj heq
      exact .receiveFailed addr hplace
  | finish addr =>
      rcases Option.ite_none_right_eq_some.mp h with ⟨⟨hplace, hall⟩, heq⟩
      obtain rfl := Option.some.inj heq
      exact .finished addr hplace hall
  | serverReceive i =>
      rw [step] at h
      split at h
      · rename_i hserver
        rcases Option.bind_eq_some_iff.mp h with ⟨⟨⟨source, message⟩, requests⟩, hreceive, heq⟩
        obtain rfl := Option.some.inj heq
        exact .serverReceived i source message requests hserver hreceive
      · cases h
  | serverSend =>
      rw [step] at h
      split at h
      · rename_i remoteAddr message hserver
        obtain rfl := Option.some.inj h
        exact .serverSent remoteAddr message hserver
      · cases h
  | serverFails =>
      rw [step] at h
      split at h
      · cases h
      · obtain rfl := Option.some.inj h
        exact .serverFailed
  | loseRequest fault =>
      rcases Option.bind_eq_some_iff.mp h with ⟨requests, hsuffer, heq⟩
      obtain rfl := Option.some.inj heq
      exact .requestSuffered fault requests hsuffer
  | loseReply fault =>
      rcases Option.bind_eq_some_iff.mp h with ⟨replies, hsuffer, heq⟩
      obtain rfl := Option.some.inj heq
      exact .replySuffered fault replies hsuffer

theorem clients_setClient_self (s : EchoSystem A) (addr : A) (client : Client) :
    (s.setClient addr client).clients addr = client :=
  Function.update_self _ _ _

theorem clients_setClient_of_ne {addr other : A} (h : other ≠ addr) (s : EchoSystem A)
    (client : Client) : (s.setClient addr client).clients other = s.clients other :=
  Function.update_of_ne h _ _

theorem perm_circulating_sent (s : EchoSystem A) (addr : A) (place : ClientPlace) (text : Bytes) :
    ({ s.move addr place with requests := s.requests.send [(addr, text)] } : EchoSystem A)
      |>.circulating.Perm (received (addr, text) :: s.circulating) := by
  change (((s.requests.inFlight ++ [(addr, text)]) ++ s.server.held ++ s.replies.inFlight).map
    received).Perm (((addr, text) :: (s.requests.inFlight ++ s.server.held ++
      s.replies.inFlight)).map received)
  refine List.Perm.map received ?_
  rw [List.append_assoc, List.append_assoc, List.append_assoc]
  exact List.perm_middle

theorem perm_circulating_received {addr : A} {i : Nat} {message : Bytes}
    {replies : Network (A × Bytes)}
    (hreceive : s.replies.receive i = some ((addr, message), replies))
    (behind : Bytes) :
    (received (addr, message) ::
      ({ s.print addr message behind with replies := replies } : EchoSystem A).circulating).Perm
        s.circulating := by
  obtain ⟨_, _, _, hperm⟩ := Network.receive_eq_some hreceive
  change (((addr, message) :: (s.requests.inFlight ++ s.server.held ++ replies.inFlight)).map
    received).Perm ((s.requests.inFlight ++ s.server.held ++ s.replies.inFlight).map received)
  refine List.Perm.map received ?_
  exact (List.perm_middle.symm).trans (hperm.append_left _)

theorem clients_move (s : EchoSystem A) (addr other : A) (place : ClientPlace) :
    ((s.move addr place).clients other).next = (s.clients other).next ∧
      ((s.move addr place).clients other).output = (s.clients other).output := by
  rcases Decidable.em (other = addr) with rfl | hne
  · rw [EchoSystem.move, clients_setClient_self]
    exact ⟨rfl, rfl⟩
  · rw [EchoSystem.move, clients_setClient_of_ne hne]
    exact ⟨rfl, rfl⟩

theorem Attributed.sent (h : Attributed arguments s) {addr : A} {argument : Argument}
    (hargument : (arguments addr)[(s.clients addr).next]? = some argument) (place : ClientPlace) :
    Attributed arguments
      { s.move addr place with requests := s.requests.send [(addr, argument.text)] } := by
  have hclients := fun other => clients_move s addr other place
  refine ⟨fun datagram hdatagram => ?_, fun other => ?_, fun other k text htext => ?_⟩
  · change Origin arguments datagram.1 ((s.move addr place).clients datagram.1).next _
    rw [(hclients _).1]
    rcases List.mem_cons.mp ((perm_circulating_sent s addr place argument.text).subset hdatagram)
      with rfl | hold
    · exact ⟨_, argument, Nat.le_refl _, hargument, rfl⟩
    · exact h.circulating datagram hold
  · change ((s.move addr place).clients other).output.length =
      ((s.move addr place).clients other).next
    rw [(hclients other).1, (hclients other).2]
    exact h.counted other
  · change ((s.move addr place).clients other).output[k]? = some text at htext
    rw [(hclients other).2] at htext
    exact h.printed other k text htext

theorem Attributed.received (h : Attributed arguments s) {addr : A} {i : Nat} {message : Bytes}
    {replies : Network (A × Bytes)}
    (hreceive : s.replies.receive i = some ((addr, message), replies)) (behind : Bytes) :
    Attributed arguments { s.print addr message behind with replies := replies } := by
  have hperm := perm_circulating_received hreceive behind
  have hself : (s.print addr message behind).clients addr = _ := clients_setClient_self _ _ _
  have hother : ∀ other, other ≠ addr →
      (s.print addr message behind).clients other = s.clients other :=
    fun other hne => clients_setClient_of_ne hne _ _
  have hmessage := h.circulating _ (hperm.subset List.mem_cons_self)
  refine ⟨fun datagram hdatagram => ?_, fun other => ?_, fun other k text htext => ?_⟩
  · change Origin arguments datagram.1 ((s.print addr message behind).clients datagram.1).next _
    have hold := h.circulating datagram (hperm.subset (List.mem_cons_of_mem _ hdatagram))
    rcases Decidable.em (datagram.1 = addr) with heq | hne
    · rw [heq] at hold ⊢
      rw [hself]
      exact hold.mono (Nat.le_succ _)
    · rw [hother _ hne]
      exact hold
  · change ((s.print addr message behind).clients other).output.length =
      ((s.print addr message behind).clients other).next
    rcases Decidable.em (other = addr) with rfl | hne
    · rw [hself, List.length_append, h.counted other]
      rfl
    · rw [hother other hne]
      exact h.counted other
  · change ((s.print addr message behind).clients other).output[k]? = some text at htext
    rcases Decidable.em (other = addr) with rfl | hne
    · rw [hself] at htext
      rcases Nat.lt_or_ge k (s.clients other).output.length with hless | hge
      · rw [List.getElem?_append_left hless] at htext
        exact h.printed other k text htext
      · rw [List.getElem?_append_right hge] at htext
        rcases List.mem_singleton.mp (List.mem_of_getElem? htext) with rfl
        rcases hmessage with ⟨j, argument, hj, hargument, htake⟩
        refine ⟨j, argument, ?_, hargument, shows_bufferText htake behind⟩
        exact Nat.le_trans hj (Nat.le_trans (Nat.le_of_eq (h.counted other).symm) hge)
    · rw [hother other hne] at htext
      exact h.printed other k text htext

theorem Attributed.moves {action : Action A} (h : Attributed arguments s)
    (hmoves : Moves arguments s action s') : Attributed arguments s' := by
  have hsame : ∀ addr, (s.clients addr).next = (s.clients addr).next ∧
      (s.clients addr).output = (s.clients addr).output := fun _ => ⟨rfl, rfl⟩
  cases hmoves with
  | connected addr ok _ =>
      exact h.quiet (fun other => clients_move s addr other _) (List.Subset.refl _)
  | sent addr argument _ hargument => exact h.sent hargument .receiving
  | sendFailed addr _ =>
      exact h.quiet (fun other => clients_move s addr other _) (List.Subset.refl _)
  | received addr i message behind replies _ hreceive => exact h.received hreceive behind
  | receiveFailed addr _ =>
      exact h.quiet (fun other => clients_move s addr other _) (List.Subset.refl _)
  | finished addr _ _ =>
      exact h.quiet (fun other => clients_move s addr other _) (List.Subset.refl _)
  | serverReceived i source message requests hserver hreceive =>
      exact h.quiet hsame (perm_circulating_serverReceived hserver hreceive).subset
  | serverSent remoteAddr message hserver =>
      exact h.quiet hsame (perm_circulating_serverSent hserver).subset
  | serverFailed => exact h.quiet hsame (sublist_circulating_serverFailed s).subset
  | requestSuffered fault requests hsuffer =>
      exact h.quiet hsame (subset_circulating (subset_of_suffer hsuffer) (List.Subset.refl _))
  | replySuffered fault replies hsuffer =>
      exact h.quiet hsame (subset_circulating (List.Subset.refl _) (subset_of_suffer hsuffer))

/-- Whatever the network does, a client prints only messages that it has sent itself,
and none before it has sent it. -/
theorem answers_own (arguments : A → List Argument) (actions : List (Action A)) :
    EveryState (step arguments)
      (fun s : EchoSystem A => ∀ addr (k : Nat) text, (s.clients addr).output[k]? = some text →
        ∃ j argument, j ≤ k ∧ (arguments addr)[j]? = some argument ∧ Shows argument text)
      (EchoSystem.start arguments) actions := by
  have hattributed : EveryState (step arguments) (Attributed arguments)
      (EchoSystem.start arguments) actions :=
    invariant (attributed_start arguments)
      (fun _ _ _ h hstep => h.moves (moves_of_step hstep)) actions
  exact fun visited hvisited s hrun => (hattributed visited hvisited s hrun).printed

/-- What circulates between a client and the server. -/
def EchoSystem.circulatingFor (s : EchoSystem A) (addr : A) : List (A × Bytes) :=
  s.circulating.filter fun datagram => datagram.1 = addr

theorem filter_received_self (addr : A) (text : Bytes) (datagrams : List (A × Bytes)) :
    (received (addr, text) :: datagrams).filter (fun datagram => datagram.1 = addr) =
      received (addr, text) :: datagrams.filter fun datagram => datagram.1 = addr :=
  List.filter_cons_of_pos (decide_eq_true rfl)

theorem filter_received_of_ne {addr other : A} (h : other ≠ addr) (text : Bytes)
    (datagrams : List (A × Bytes)) :
    (received (addr, text) :: datagrams).filter (fun datagram => datagram.1 = other) =
      datagrams.filter fun datagram => datagram.1 = other :=
  List.filter_cons_of_neg fun heq => h (of_decide_eq_true heq).symm

theorem circulatingFor_sent_self (s : EchoSystem A) (addr : A) (place : ClientPlace)
    (text : Bytes) :
    ({ s.move addr place with requests := s.requests.send [(addr, text)] } : EchoSystem A)
      |>.circulatingFor addr |>.Perm (received (addr, text) :: s.circulatingFor addr) := by
  refine ((perm_circulating_sent s addr place text).filter _).trans ?_
  rw [filter_received_self]
  exact List.Perm.refl _

theorem circulatingFor_sent_of_ne {addr other : A} (hne : other ≠ addr) (s : EchoSystem A)
    (place : ClientPlace) (text : Bytes) :
    ({ s.move addr place with requests := s.requests.send [(addr, text)] } : EchoSystem A)
      |>.circulatingFor other |>.Perm (s.circulatingFor other) := by
  refine ((perm_circulating_sent s addr place text).filter _).trans ?_
  rw [filter_received_of_ne hne]
  exact List.Perm.refl _

theorem circulatingFor_received_self {addr : A} {i : Nat} {message : Bytes}
    {replies : Network (A × Bytes)}
    (hreceive : s.replies.receive i = some ((addr, message), replies))
    (behind : Bytes) :
    (received (addr, message) ::
      ({ s.print addr message behind with replies := replies } : EchoSystem A).circulatingFor
        addr).Perm (s.circulatingFor addr) := by
  have hperm := (perm_circulating_received hreceive behind).filter fun datagram => datagram.1 = addr
  rw [filter_received_self] at hperm
  exact hperm

theorem circulatingFor_received_of_ne {addr other : A} (hne : other ≠ addr) {i : Nat}
    {message : Bytes} {replies : Network (A × Bytes)}
    (hreceive : s.replies.receive i = some ((addr, message), replies)) (behind : Bytes) :
    ({ s.print addr message behind with replies := replies } : EchoSystem A).circulatingFor
      other |>.Perm (s.circulatingFor other) := by
  have hperm := (perm_circulating_received hreceive behind).filter fun datagram =>
    datagram.1 = other
  rw [filter_received_of_ne hne] at hperm
  exact hperm

/-- No client has more on its way than the answer it waits for. -/
structure Alone (arguments : A → List Argument) (s : EchoSystem A) : Prop where
  circulating : ∀ addr, (s.clients addr).place ≠ .ended →
    (s.circulatingFor addr).Subperm (awaited arguments addr (s.clients addr))
  printed : ∀ addr, List.Forall₂ Shows ((arguments addr).take (s.clients addr).next)
    (s.clients addr).output

theorem alone_start (arguments : A → List Argument) :
    Alone arguments (EchoSystem.start arguments) where
  circulating := fun _ _ => (List.nil_sublist _).subperm
  printed := fun _ => List.Forall₂.nil

theorem Alone.nothing (h : Alone arguments s) {addr : A}
    (hplace : (s.clients addr).place = .starting ∨ (s.clients addr).place = .sending) :
    s.circulatingFor addr = [] := by
  have hnot : (s.clients addr).place ≠ .ended ∧ (s.clients addr).place ≠ .receiving := by
    rcases hplace with hplace | hplace
    · rw [hplace]
      exact ⟨nofun, nofun⟩
    · rw [hplace]
      exact ⟨nofun, nofun⟩
  have hold := h.circulating addr hnot.1
  rw [awaited_of_ne hnot.2] at hold
  exact List.subperm_nil.mp hold

theorem Alone.quiet (h : Alone arguments s) (hclients : s'.clients = s.clients)
    (hcirculating : s'.circulating.Subperm s.circulating) : Alone arguments s' := by
  refine ⟨fun addr hplace => ?_, fun addr => ?_⟩
  · rw [hclients] at hplace ⊢
    exact (hcirculating.filter _).trans (h.circulating addr hplace)
  · rw [hclients]
    exact h.printed addr

theorem Alone.move (h : Alone arguments s) {addr : A} {place : ClientPlace}
    (hplace : place = .ended ∨ (s.clients addr).place = .starting) :
    Alone arguments (s.move addr place) := by
  refine ⟨fun other hother => ?_, fun other => ?_⟩
  · rcases Decidable.em (other = addr) with rfl | hne
    · rcases hplace with rfl | hstarting
      · exact absurd (congrArg Client.place (clients_setClient_self _ _ _)) hother
      · change (s.circulatingFor other).Subperm _
        rw [h.nothing (Or.inl hstarting)]
        exact (List.nil_sublist _).subperm
    · have hsame : (s.move addr place).clients other = s.clients other :=
        clients_setClient_of_ne hne _ _
      rw [hsame] at hother ⊢
      exact h.circulating other hother
  · rw [(clients_move s addr other place).1, (clients_move s addr other place).2]
    exact h.printed other

theorem Alone.sent (h : Alone arguments s) {addr : A} {argument : Argument}
    (hplace : (s.clients addr).place = .sending)
    (hargument : (arguments addr)[(s.clients addr).next]? = some argument) :
    Alone arguments
      { s.move addr .receiving with requests := s.requests.send [(addr, argument.text)] } := by
  refine ⟨fun other hother => ?_, fun other => ?_⟩
  · change List.Subperm _ (awaited arguments other ((s.move addr .receiving).clients other))
    rcases Decidable.em (other = addr) with rfl | hne
    · have hself : (s.move other .receiving).clients other = _ := clients_setClient_self _ _ _
      have hawaited : awaited arguments other ((s.move other .receiving).clients other) =
          [received (other, argument.text)] := by
        rw [hself]
        exact awaited_of_receiving rfl hargument
      rw [hawaited]
      have hperm := circulatingFor_sent_self s other .receiving argument.text
      rw [h.nothing (Or.inr hplace)] at hperm
      exact hperm.subperm
    · have hsame : (s.move addr .receiving).clients other = s.clients other :=
        clients_setClient_of_ne hne _ _
      change ((s.move addr .receiving).clients other).place ≠ .ended at hother
      rw [hsame] at hother ⊢
      exact (circulatingFor_sent_of_ne hne s _ _).subperm.trans (h.circulating other hother)
  · change List.Forall₂ Shows ((arguments other).take ((s.move addr .receiving).clients other).next)
      ((s.move addr .receiving).clients other).output
    rw [(clients_move s addr other _).1, (clients_move s addr other _).2]
    exact h.printed other

/-- What arrives is the answer to the message sent last, and nothing comes behind it. -/
theorem Alone.answer (h : Alone arguments s) {addr : A} {i : Nat} {message : Bytes}
    {replies : Network (A × Bytes)} (hplace : (s.clients addr).place = .receiving)
    (hreceive : s.replies.receive i = some ((addr, message), replies)) (behind : Bytes) :
    (∃ argument, (arguments addr)[(s.clients addr).next]? = some argument ∧
      message.take messageSize = argument.text.take messageSize) ∧
      ({ s.print addr message behind with replies := replies } : EchoSystem A).circulatingFor
        addr = [] := by
  have hsubperm := (circulatingFor_received_self hreceive behind).subperm.trans
    (h.circulating addr (by rw [hplace]; exact nofun))
  cases hargument : (arguments addr)[(s.clients addr).next]? with
  | none =>
      rw [awaited, hplace, hargument] at hsubperm
      exact absurd (List.subperm_nil.mp hsubperm) (List.cons_ne_nil _ _)
  | some argument =>
      rw [awaited_of_receiving hplace hargument] at hsubperm
      have hmem := List.mem_singleton.mp (hsubperm.subset List.mem_cons_self)
      have hlength := hsubperm.length_le
      refine ⟨⟨argument, rfl, congrArg Prod.snd hmem⟩, ?_⟩
      exact List.eq_nil_of_length_eq_zero (Nat.le_zero.mp (Nat.le_of_succ_le_succ hlength))

theorem Alone.received (h : Alone arguments s) {addr : A} {i : Nat} {message : Bytes}
    {replies : Network (A × Bytes)} (hplace : (s.clients addr).place = .receiving)
    (hreceive : s.replies.receive i = some ((addr, message), replies)) (behind : Bytes) :
    Alone arguments { s.print addr message behind with replies := replies } := by
  obtain ⟨⟨argument, hargument, hmessage⟩, hnothing⟩ := h.answer hplace hreceive behind
  have hself : (s.print addr message behind).clients addr = _ := clients_setClient_self _ _ _
  have hother : ∀ other, other ≠ addr →
      (s.print addr message behind).clients other = s.clients other :=
    fun other hne => clients_setClient_of_ne hne _ _
  refine ⟨fun other hended => ?_, fun other => ?_⟩
  · rcases Decidable.em (other = addr) with rfl | hne
    · rw [hnothing]
      exact (List.nil_sublist _).subperm
    · change ((s.print addr message behind).clients other).place ≠ .ended at hended
      change List.Subperm _ (awaited arguments other ((s.print addr message behind).clients other))
      rw [hother other hne] at hended ⊢
      exact (circulatingFor_received_of_ne hne hreceive behind).subperm.trans
        (h.circulating other hended)
  · change List.Forall₂ Shows ((arguments other).take
      ((s.print addr message behind).clients other).next)
        ((s.print addr message behind).clients other).output
    rcases Decidable.em (other = addr) with rfl | hne
    · rw [hself, List.take_add_one, hargument]
      exact List.rel_append (h.printed other)
        (List.Forall₂.cons (shows_bufferText hmessage behind) List.Forall₂.nil)
    · rw [hother other hne]
      exact h.printed other

/-- The network does not duplicate. -/
def Undoubled : Action A → Prop
  | .loseRequest (.duplicate _) | .loseReply (.duplicate _) => False
  | _ => True

theorem Alone.moves {action : Action A} (h : Alone arguments s) (hundoubled : Undoubled action)
    (hmoves : Moves arguments s action s') : Alone arguments s' := by
  cases hmoves with
  | connected addr ok hplace => exact h.move (Or.inr hplace)
  | sent addr argument hplace hargument => exact h.sent hplace hargument
  | sendFailed addr _ => exact h.move (Or.inl rfl)
  | received addr i message behind replies hplace hreceive =>
      exact h.received hplace hreceive behind
  | receiveFailed addr _ => exact h.move (Or.inl rfl)
  | finished addr _ _ => exact h.move (Or.inl rfl)
  | serverReceived i source message requests hserver hreceive =>
      exact h.quiet rfl (perm_circulating_serverReceived hserver hreceive).subperm
  | serverSent remoteAddr message hserver =>
      exact h.quiet rfl (perm_circulating_serverSent hserver).subperm
  | serverFailed => exact h.quiet rfl (sublist_circulating_serverFailed s).subperm
  | requestSuffered fault requests hsuffer =>
      cases fault with
      | drop i =>
          exact h.quiet rfl (sublist_circulating (sublist_of_drop hsuffer)
            (List.Sublist.refl _)).subperm
      | duplicate i => exact absurd hundoubled id
  | replySuffered fault replies hsuffer =>
      cases fault with
      | drop i =>
          exact h.quiet rfl (sublist_circulating (List.Sublist.refl _)
            (sublist_of_drop hsuffer)).subperm
      | duplicate i => exact absurd hundoubled id

/-- Over a network that does not duplicate, each client prints its messages one
behind the other, and leaves none out. -/
theorem answers_inOrder (arguments : A → List Argument) (actions : List (Action A))
    (hundoubled : ∀ action ∈ actions, Undoubled action) :
    EveryState (step arguments)
      (fun s : EchoSystem A => ∀ addr, List.Forall₂ Shows
        ((arguments addr).take (s.clients addr).output.length) (s.clients addr).output)
      (EchoSystem.start arguments) actions := by
  have halone : EveryState (step arguments) (fun s => Attributed arguments s ∧ Alone arguments s)
      (EchoSystem.start arguments) actions :=
    invariant_of_everyStep ⟨attributed_start arguments, alone_start arguments⟩
      (fun _ _ _ h hcond hstep =>
        ⟨h.1.moves (moves_of_step hstep), h.2.moves hcond (moves_of_step hstep)⟩)
      (everyStep_of_forall (fun action hmem _ => hundoubled action hmem) _)
  intro visited hvisited s hrun addr
  obtain ⟨hattributed, halone⟩ := halone visited hvisited s hrun
  rw [hattributed.counted addr]
  exact halone.printed addr

def messages : Bool → List Argument
  | true => [⟨literal "a", by decide⟩, ⟨literal "bc", by decide⟩]
  | false => [⟨literal "d", by decide⟩]

/-- The requests overtake each other, and the second answer of a client is lost. -/
def session : List (Action Bool) :=
  [.connect true true, .connect false true, .send true true, .send false true,
    .serverReceive 1, .serverSend, .serverReceive 0, .serverSend, .receive true 1 [],
    .receive false 0 [], .finish false, .send true true, .serverReceive 0, .serverSend,
    .loseReply (.drop 0)]

theorem answers_inOrder_session :
    EveryState (step messages)
      (fun s : EchoSystem Bool => ∀ addr, List.Forall₂ Shows
        ((messages addr).take (s.clients addr).output.length) (s.clients addr).output)
      (EchoSystem.start messages) session :=
  answers_inOrder messages session (by simp [session, Undoubled])

/-- Each client has its first answer. -/
example : ((run (step messages) (.start messages) session).map fun s =>
    ((s.clients true).output, (s.clients false).output)) =
      some ([literal "a"], [literal "d"]) := rfl

end StudyLinuxKernel.Socket.Echo
