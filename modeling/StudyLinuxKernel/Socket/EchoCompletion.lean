import StudyLinuxKernel.Socket.Echo
import StudyLinuxKernel.Library.StepBound
import Mathlib.Algebra.BigOperators.Group.Finset.Basic
import Mathlib.Algebra.Order.BigOperators.Group.Finset

namespace StudyLinuxKernel.Socket.EchoCompletion

open StudyLinuxKernel.Libc.Text
open StudyLinuxKernel.Library.DatagramNetwork
open StudyLinuxKernel.Library.PartialStep
open StudyLinuxKernel.Library.StepBound
open StudyLinuxKernel.Socket.Echo

variable {A : Type} {arguments : A → List Argument} {s s' : EchoSystem A}

/-- No call fails, and the network loses and duplicates nothing. -/
def Smooth : Action A → Prop
  | .connect _ ok | .send _ ok => ok = true
  | .receiveFails _ | .serverFails | .loseRequest _ | .loseReply _ => False
  | _ => True

theorem Smooth.undoubled {action : Action A} (h : Smooth action) : Undoubled action := by
  cases action with
  | loseRequest fault => exact absurd h id
  | loseReply fault => exact absurd h id
  | _ => trivial

def Stuck [DecidableEq A] (arguments : A → List Argument) (s : EchoSystem A) : Prop :=
  ∀ action, Smooth action → step arguments s action = none

/-- The client has printed the answers to all its messages and has ended. -/
def Completed (arguments : A → List Argument) (s : EchoSystem A) (addr : A) : Prop :=
  (s.clients addr).place = .ended ∧
    List.Forall₂ Shows (arguments addr) (s.clients addr).output

variable [DecidableEq A]

/-- What a client waits for is on its way. -/
structure Live (arguments : A → List Argument) (s : EchoSystem A) : Prop where
  balanced : ∀ addr, (s.circulatingFor addr).length =
    if (s.clients addr).place = .receiving then 1 else 0
  waiting : ∀ addr, (s.clients addr).place = .receiving →
    (s.clients addr).next < (arguments addr).length
  ended : ∀ addr, (s.clients addr).place = .ended →
    (arguments addr).length ≤ (s.clients addr).next
  server : s.server ≠ .ended

theorem live_start (arguments : A → List Argument) :
    Live arguments (EchoSystem.start arguments) := by
  have hplace : ∀ addr, ((EchoSystem.start arguments).clients addr).place =
      if arguments addr = [] then .ended else .starting := fun _ => rfl
  refine ⟨fun addr => ?_, fun addr hreceiving => ?_, fun addr hended => ?_, nofun⟩
  · rw [hplace]
    split
    · rfl
    · rfl
  · rw [hplace] at hreceiving
    split at hreceiving
    · cases hreceiving
    · cases hreceiving
  · rw [hplace] at hended
    split at hended
    · rename_i hnothing
      rw [hnothing]
      exact Nat.zero_le _
    · cases hended

theorem Live.quiet (h : Live arguments s) (hclients : s'.clients = s.clients)
    (hcirculating : s'.circulating.Perm s.circulating) (hserver : s'.server ≠ .ended) :
    Live arguments s' := by
  refine ⟨fun addr => ?_, fun addr => ?_, fun addr => ?_, hserver⟩
  · rw [hclients]
    exact ((hcirculating.filter _).length_eq).trans (h.balanced addr)
  · rw [hclients]
    exact h.waiting addr
  · rw [hclients]
    exact h.ended addr

theorem Live.setClient (h : Live arguments s) {addr : A}
    (hclients : ∀ other, other ≠ addr → s'.clients other = s.clients other)
    (hothers : ∀ other, other ≠ addr → (s'.circulatingFor other).Perm (s.circulatingFor other))
    (hserver : s'.server = s.server)
    (hbalanced : (s'.circulatingFor addr).length =
      if (s'.clients addr).place = .receiving then 1 else 0)
    (hwaiting : (s'.clients addr).place = .receiving →
      (s'.clients addr).next < (arguments addr).length)
    (hended : (s'.clients addr).place = .ended →
      (arguments addr).length ≤ (s'.clients addr).next) : Live arguments s' := by
  refine ⟨fun other => ?_, fun other => ?_, fun other => ?_, ?_⟩
  · rcases Decidable.em (other = addr) with rfl | hne
    · exact hbalanced
    · rw [hclients other hne, (hothers other hne).length_eq]
      exact h.balanced other
  · rcases Decidable.em (other = addr) with rfl | hne
    · exact hwaiting
    · rw [hclients other hne]
      exact h.waiting other
  · rcases Decidable.em (other = addr) with rfl | hne
    · exact hended
    · rw [hclients other hne]
      exact h.ended other
  · rw [hserver]
    exact h.server

theorem Live.nothing (h : Live arguments s) {addr : A}
    (hplace : (s.clients addr).place ≠ .receiving) : s.circulatingFor addr = [] := by
  have hbalanced := h.balanced addr
  rw [if_neg hplace] at hbalanced
  exact List.eq_nil_of_length_eq_zero hbalanced

theorem clients_move_self (s : EchoSystem A) (addr : A) (place : ClientPlace) :
    (s.move addr place).clients addr = { s.clients addr with place := place } :=
  clients_setClient_self _ _ _

theorem clients_move_of_ne {addr other : A} (h : other ≠ addr) (s : EchoSystem A)
    (place : ClientPlace) : (s.move addr place).clients other = s.clients other :=
  clients_setClient_of_ne h _ _

theorem clients_print_self (s : EchoSystem A) (addr : A) (message behind : Bytes) :
    ((s.print addr message behind).clients addr).place = .sending ∧
      ((s.print addr message behind).clients addr).next = (s.clients addr).next + 1 := by
  rw [EchoSystem.print, clients_setClient_self]
  exact ⟨rfl, rfl⟩

theorem clients_print_of_ne {addr other : A} (h : other ≠ addr) (s : EchoSystem A)
    (message behind : Bytes) : (s.print addr message behind).clients other = s.clients other :=
  clients_setClient_of_ne h _ _

theorem Live.move (h : Live arguments s) {addr : A} {place : ClientPlace}
    (hold : (s.clients addr).place ≠ .receiving) (hplace : place ≠ .receiving)
    (hended : place = .ended → (arguments addr).length ≤ (s.clients addr).next) :
    Live arguments (s.move addr place) := by
  have hself := clients_move_self s addr place
  refine h.setClient (fun other hne => clients_move_of_ne hne s place)
    (fun other _ => List.Perm.refl _) rfl ?_ (fun hreceiving => ?_) (fun heq => ?_)
  · change (s.circulatingFor addr).length = _
    rw [hself, if_neg hplace, h.nothing hold]
    rfl
  · rw [hself] at hreceiving
    exact absurd hreceiving hplace
  · rw [hself] at heq ⊢
    exact hended heq

theorem Live.moves {action : Action A} (h : Live arguments s) (halone : Alone arguments s)
    (hsmooth : Smooth action) (hmoves : Moves arguments s action s') : Live arguments s' := by
  cases hmoves with
  | connected addr ok hplace =>
      obtain rfl : ok = true := hsmooth
      exact h.move (by rw [hplace]; exact nofun) nofun nofun
  | sent addr argument hplace hargument =>
      have hself := clients_move_self s addr .receiving
      have hnothing : s.circulatingFor addr = [] := h.nothing (by rw [hplace]; exact nofun)
      refine h.setClient (fun other hne => clients_move_of_ne hne s _)
        (fun other hne => circulatingFor_sent_of_ne hne s _ _) rfl ?_ (fun _ => ?_)
        (fun hended => ?_)
      · change _ = if ((s.move addr .receiving).clients addr).place = .receiving then 1 else 0
        rw [(circulatingFor_sent_self s addr _ _).length_eq, hnothing, hself]
        rfl
      · change ((s.move addr .receiving).clients addr).next < _
        rw [hself]
        exact (List.getElem?_eq_some_iff.mp hargument).1
      · change ((s.move addr .receiving).clients addr).place = .ended at hended
        rw [hself] at hended
        cases hended
  | sendFailed addr hplace => exact absurd hsmooth Bool.false_ne_true
  | received addr i message behind replies hplace hreceive =>
      have hself := clients_print_self s addr message behind
      refine h.setClient (fun other hne => clients_print_of_ne hne s message behind)
        (fun other hne => circulatingFor_received_of_ne hne hreceive behind) rfl ?_
        (fun hreceiving => ?_) (fun hended => ?_)
      · change _ = if ((s.print addr message behind).clients addr).place = .receiving then 1 else 0
        rw [(halone.answer hplace hreceive behind).2, hself.1]
        rfl
      · cases hself.1.symm.trans hreceiving
      · cases hself.1.symm.trans hended
  | receiveFailed addr _ => exact absurd hsmooth id
  | finished addr hplace hall =>
      exact h.move (by rw [hplace]; exact nofun) nofun (fun _ => hall)
  | serverReceived i source message requests hserver hreceive =>
      exact h.quiet rfl (perm_circulating_serverReceived hserver hreceive) nofun
  | serverSent remoteAddr message hserver =>
      exact h.quiet rfl (perm_circulating_serverSent hserver) nofun
  | serverFailed => exact absurd hsmooth id
  | requestSuffered fault requests _ => exact absurd hsmooth id
  | replySuffered fault replies _ => exact absurd hsmooth id

theorem Live.idle (h : Live arguments s) (hstuck : Stuck arguments s) :
    s.server = .receiving ∧ s.requests.inFlight = [] := by
  cases hserver : s.server with
  | receiving =>
      refine ⟨rfl, ?_⟩
      have hnone := hstuck (.serverReceive 0) trivial
      rw [step, hserver] at hnone
      cases hrequests : s.requests.inFlight with
      | nil => rfl
      | cons request requests =>
          simp [Network.receive, hrequests] at hnone
  | sending remoteAddr message =>
      have hnone := hstuck .serverSend trivial
      rw [step, hserver] at hnone
      cases hnone
  | ended => exact absurd hserver h.server

theorem Live.answered (h : Live arguments s) (hstuck : Stuck arguments s) :
    s.replies.inFlight = [] := by
  cases hreplies : s.replies.inFlight with
  | nil => rfl
  | cons reply replies =>
      rcases reply with ⟨addr, message⟩
      have hmem : received (addr, message) ∈ s.circulatingFor addr := by
        refine List.mem_filter.mpr ⟨List.mem_map_of_mem ?_, decide_eq_true rfl⟩
        rw [hreplies]
        exact List.mem_append_right _ List.mem_cons_self
      have hplace : (s.clients addr).place = .receiving := by
        by_contra hplace
        rw [h.nothing hplace] at hmem
        cases hmem
      have hnone := hstuck (.receive addr 0 []) trivial
      simp [step, Network.receive, hreplies, hplace] at hnone

theorem completed_of_live (h : Live arguments s) (halone : Alone arguments s)
    (hstuck : Stuck arguments s) (addr : A) : Completed arguments s addr := by
  obtain ⟨hserver, hrequests⟩ := h.idle hstuck
  have hnothing : s.circulatingFor addr = [] := by
    rw [EchoSystem.circulatingFor, EchoSystem.circulating, hrequests, h.answered hstuck, hserver]
    rfl
  have hended : (s.clients addr).place = .ended := by
    cases hplace : (s.clients addr).place with
    | starting =>
        have hnone := hstuck (.connect addr true) rfl
        rw [step, if_pos hplace] at hnone
        cases hnone
    | sending =>
        exfalso
        rcases Nat.lt_or_ge (s.clients addr).next (arguments addr).length with hless | hge
        · have hnone := hstuck (.send addr true) rfl
          simp [step, List.getElem?_eq_getElem hless, hplace] at hnone
        · have hnone := hstuck (.finish addr) trivial
          rw [step, if_pos ⟨hplace, hge⟩] at hnone
          cases hnone
    | receiving =>
        have hbalanced := h.balanced addr
        rw [hnothing, if_pos hplace] at hbalanced
        cases hbalanced
    | ended => rfl
  refine ⟨hended, ?_⟩
  have hprinted := halone.printed addr
  rw [List.take_of_length_le (h.ended addr hended)] at hprinted
  exact hprinted

def ClientPlace.rank : ClientPlace → Nat
  | .starting => 0
  | .sending => 1
  | .receiving | .ended => 2

/-- How far a client has come. -/
def Client.share (client : Client) : Nat := 4 * client.next + ClientPlace.rank client.place

/-- How often an address is among the datagrams. -/
def occurrences (addr : A) (datagrams : List (A × Bytes)) : Nat :=
  datagrams.countP fun datagram => datagram.1 = addr

/-- How far the datagram of a client has come. -/
def relayed (s : EchoSystem A) (addr : A) : Nat :=
  occurrences addr s.server.held + 2 * occurrences addr s.replies.inFlight

def share (s : EchoSystem A) (addr : A) : Nat := Client.share (s.clients addr) + relayed s addr

/-- One client or its datagram comes further, and no other one goes back. -/
def Raises (s s' : EchoSystem A) (addr : A) : Prop :=
  share s addr < share s' addr ∧ ∀ other, other ≠ addr → share s other ≤ share s' other

theorem raises_of_client {addr : A} (hrelayed : relayed s' = relayed s)
    (hclients : ∀ other, other ≠ addr → s'.clients other = s.clients other)
    (hless : Client.share (s.clients addr) < Client.share (s'.clients addr)) :
    Raises s s' addr := by
  refine ⟨?_, fun other hne => ?_⟩
  · rw [share, share, hrelayed]
    exact Nat.add_lt_add_right hless _
  · rw [share, share, hrelayed, hclients other hne]

theorem raises_of_server {addr : A} (hclients : s'.clients = s.clients)
    (hself : relayed s addr < relayed s' addr)
    (hothers : ∀ other, other ≠ addr → relayed s other ≤ relayed s' other) : Raises s s' addr := by
  refine ⟨?_, fun other hne => ?_⟩
  · rw [share, share, hclients]
    exact Nat.add_lt_add_left hself _
  · rw [share, share, hclients]
    exact Nat.add_le_add_left (hothers other hne) _

theorem occurrences_self (addr : A) (message : Bytes) (datagrams : List (A × Bytes)) :
    occurrences addr ((addr, message) :: datagrams) = occurrences addr datagrams + 1 :=
  List.countP_cons_of_pos (decide_eq_true rfl)

theorem occurrences_of_ne {addr other : A} (h : other ≠ addr) (message : Bytes)
    (datagrams : List (A × Bytes)) :
    occurrences other ((addr, message) :: datagrams) = occurrences other datagrams :=
  List.countP_cons_of_neg fun heq => h (of_decide_eq_true heq).symm

theorem occurrences_append (addr : A) (first second : List (A × Bytes)) :
    occurrences addr (first ++ second) = occurrences addr first + occurrences addr second :=
  List.countP_append

theorem occurrences_perm {first second : List (A × Bytes)} (h : first.Perm second) (addr : A) :
    occurrences addr first = occurrences addr second :=
  h.countP_eq _

theorem raises_received {addr : A} {i : Nat} {message : Bytes} {replies : Network (A × Bytes)}
    (hplace : (s.clients addr).place = .receiving)
    (hreceive : s.replies.receive i = some ((addr, message), replies)) (behind : Bytes) :
    Raises s { s.print addr message behind with replies := replies } addr := by
  obtain ⟨_, _, _, hperm⟩ := Network.receive_eq_some hreceive
  refine ⟨?_, fun other hne => ?_⟩
  · have hcount := occurrences_perm hperm addr
    rw [occurrences_self] at hcount
    have hnew : Client.share ((s.print addr message behind).clients addr) =
        4 * ((s.clients addr).next + 1) + 1 := by
      rw [Client.share, (clients_print_self s addr message behind).1,
        (clients_print_self s addr message behind).2]
      rfl
    have hold : Client.share (s.clients addr) = 4 * (s.clients addr).next + 2 := by
      rw [Client.share, hplace]
      rfl
    change Client.share (s.clients addr) +
        (occurrences addr s.server.held + 2 * occurrences addr s.replies.inFlight) <
      Client.share ((s.print addr message behind).clients addr) +
        (occurrences addr s.server.held + 2 * occurrences addr replies.inFlight)
    omega
  · have hcount := occurrences_perm hperm other
    rw [occurrences_of_ne hne] at hcount
    change Client.share (s.clients other) +
        (occurrences other s.server.held + 2 * occurrences other s.replies.inFlight) ≤
      Client.share ((s.print addr message behind).clients other) +
        (occurrences other s.server.held + 2 * occurrences other replies.inFlight)
    rw [clients_print_of_ne hne, hcount]

theorem raises_serverReceived {source : A} {message : Bytes}
    (hserver : s.server = .receiving) (requests : Network (A × Bytes)) :
    Raises s { s with server := .sending source message, requests := requests } source := by
  have hheld : s.server.held = [] := by
    rw [hserver]
    rfl
  refine raises_of_server rfl ?_ (fun other hne => ?_)
  · rw [relayed, hheld]
    change 0 + 2 * occurrences source s.replies.inFlight <
      occurrences source [(source, message)] + 2 * occurrences source s.replies.inFlight
    rw [occurrences_self]
    exact Nat.add_lt_add_right (Nat.succ_pos _) _
  · rw [relayed, hheld]
    change 0 + 2 * occurrences other s.replies.inFlight ≤
      occurrences other [(source, message)] + 2 * occurrences other s.replies.inFlight
    exact Nat.add_le_add_right (Nat.zero_le _) _

theorem raises_serverSent {remoteAddr : A} {message : Bytes}
    (hserver : s.server = .sending remoteAddr message) :
    Raises s { s with server := .receiving, replies := s.replies.send [(remoteAddr, message)] }
      remoteAddr := by
  have hrelayed : ∀ addr, relayed s addr =
      occurrences addr [(remoteAddr, message)] + 2 * occurrences addr s.replies.inFlight := by
    intro addr
    rw [relayed, hserver]
    rfl
  have hsent : ∀ addr, relayed { s with
      server := .receiving, replies := s.replies.send [(remoteAddr, message)] } addr =
        2 * (occurrences addr s.replies.inFlight + occurrences addr [(remoteAddr, message)]) := by
    intro addr
    rw [← occurrences_append]
    exact Nat.zero_add _
  refine raises_of_server rfl ?_ (fun other _ => ?_)
  · rw [hrelayed, hsent, occurrences_self]
    omega
  · rw [hrelayed, hsent]
    omega

theorem share_of_place {client : Client} {place : ClientPlace} (h : client.place = place) :
    Client.share client = 4 * client.next + ClientPlace.rank place := by
  rw [Client.share, h]

theorem raises_move {addr : A} {old place : ClientPlace} (hold : (s.clients addr).place = old)
    (hless : ClientPlace.rank old < ClientPlace.rank place) (requests : Network (A × Bytes)) :
    Raises s { s.move addr place with requests := requests } addr := by
  refine raises_of_client rfl (fun other hne => clients_move_of_ne hne s place) ?_
  change _ < Client.share ((s.move addr place).clients addr)
  rw [clients_move_self, share_of_place hold]
  exact Nat.add_lt_add_left hless _

theorem raises_of_moves {action : Action A} (hsmooth : Smooth action)
    (hmoves : Moves arguments s action s') : ∃ addr, Raises s s' addr := by
  cases hmoves with
  | connected addr ok hplace =>
      obtain rfl : ok = true := hsmooth
      exact ⟨addr, raises_move hplace (by decide) s.requests⟩
  | sent addr argument hplace hargument =>
      exact ⟨addr, raises_move hplace (by decide) _⟩
  | sendFailed addr hplace => exact absurd hsmooth Bool.false_ne_true
  | received addr i message behind replies hplace hreceive =>
      exact ⟨addr, raises_received hplace hreceive behind⟩
  | receiveFailed addr _ => exact absurd hsmooth id
  | finished addr hplace hall => exact ⟨addr, raises_move hplace (by decide) s.requests⟩
  | serverReceived i source message requests hserver hreceive =>
      exact ⟨source, raises_serverReceived hserver requests⟩
  | serverSent remoteAddr message hserver => exact ⟨remoteAddr, raises_serverSent hserver⟩
  | serverFailed => exact absurd hsmooth id
  | requestSuffered fault requests _ => exact absurd hsmooth id
  | replySuffered fault replies _ => exact absurd hsmooth id

theorem relayed_le (s : EchoSystem A) (addr : A) :
    relayed s addr ≤ 2 * (s.circulatingFor addr).length := by
  have hcount : (s.circulatingFor addr).length =
      occurrences addr (s.requests.inFlight ++ s.server.held ++ s.replies.inFlight) := by
    rw [EchoSystem.circulatingFor, ← List.countP_eq_length_filter, EchoSystem.circulating,
      List.countP_map]
    rfl
  rw [hcount, occurrences_append, occurrences_append, relayed]
  omega

/-- What holds in every state without a failing call and without a fault. -/
structure Invariant (arguments : A → List Argument) (s : EchoSystem A) : Prop where
  attributed : Attributed arguments s
  alone : Alone arguments s
  live : Live arguments s

theorem invariant_start (arguments : A → List Argument) :
    Invariant arguments (EchoSystem.start arguments) :=
  ⟨attributed_start arguments, alone_start arguments, live_start arguments⟩

theorem Invariant.step {action : Action A} (h : Invariant arguments s) (hsmooth : Smooth action)
    (hstep : step arguments s action = some s') : Invariant arguments s' := by
  have hmoves := moves_of_step hstep
  exact ⟨h.attributed.moves hmoves, h.alone.moves hsmooth.undoubled hmoves,
    h.live.moves h.alone hsmooth hmoves⟩

theorem share_le (h : Invariant arguments s) (addr : A) :
    share s addr ≤ 4 * (arguments addr).length + 2 := by
  have hnext : (s.clients addr).next ≤ (arguments addr).length := by
    have hlength := (h.alone.printed addr).length_eq
    rw [h.attributed.counted addr, List.length_take] at hlength
    omega
  have hrelayed := relayed_le s addr
  rw [h.live.balanced addr] at hrelayed
  rw [share, Client.share]
  cases hplace : (s.clients addr).place with
  | receiving =>
      rw [if_pos hplace] at hrelayed
      have hless := h.live.waiting addr hplace
      change 4 * _ + 2 + _ ≤ _
      omega
  | starting =>
      rw [if_neg (by rw [hplace]; exact nofun)] at hrelayed
      change 4 * _ + 0 + _ ≤ _
      omega
  | sending =>
      rw [if_neg (by rw [hplace]; exact nofun)] at hrelayed
      change 4 * _ + 1 + _ ≤ _
      omega
  | ended =>
      rw [if_neg (by rw [hplace]; exact nofun)] at hrelayed
      change 4 * _ + 2 + _ ≤ _
      omega

/-- Where no call fails and the network only reorders, every client ends with the
answers to all its messages, and the runs are bounded. -/
theorem echo_completes [Fintype A] (arguments : A → List Argument) (actions : List (Action A))
    (s : EchoSystem A) (hsmooth : ∀ action ∈ actions, Smooth action)
    (hrun : run (step arguments) (.start arguments) actions = some s) :
    (Stuck arguments s → ∀ addr, Completed arguments s addr) ∧
      actions.length ≤ ∑ addr, (4 * (arguments addr).length + 2) := by
  have hcondition : EveryStep (step arguments) (fun _ action => Smooth action)
      (.start arguments) actions :=
    everyStep_of_forall (fun action hmem _ => hsmooth action hmem) _
  have hinvariant : Invariant arguments s :=
    (invariant_of_everyStep (invariant_start arguments)
      (fun _ _ _ h haction hstep => h.step haction hstep) hcondition).reached hrun
  refine ⟨completed_of_live hinvariant.live hinvariant.alone, ?_⟩
  have hlength := @countP_le_rank_of_everyStep _ _ (Echo.step arguments) (Invariant arguments) _
    (fun s => ∑ addr, share s addr) (fun _ => true)
    (fun _ _ _ h haction hstep => h.step haction hstep)
    (fun s action s' _ haction hstep => by
      rcases raises_of_moves haction (moves_of_step hstep) with ⟨addr, hself, hothers⟩
      refine Finset.sum_lt_sum (fun other _ => ?_) ⟨addr, Finset.mem_univ addr, hself⟩
      rcases Decidable.em (other = addr) with rfl | hne
      · exact Nat.le_of_lt hself
      · exact hothers other hne) actions _ _ (invariant_start arguments) hcondition hrun
  rw [List.countP_true] at hlength
  have hbound : ∑ addr, share s addr ≤ ∑ addr, (4 * (arguments addr).length + 2) :=
    Finset.sum_le_sum fun addr _ => share_le hinvariant addr
  omega

theorem stuck_of_ended (hserver : s.server = .receiving) (hrequests : s.requests.inFlight = [])
    (hreplies : s.replies.inFlight = []) (hclients : ∀ addr, (s.clients addr).place = .ended) :
    Stuck arguments s := by
  intro action hsmooth
  cases action with
  | receiveFails _ | serverFails | loseRequest _ | loseReply _ => exact absurd hsmooth id
  | _ => simp [step, Network.receive, hserver, hrequests, hreplies, hclients]

/-- One client has its first answer while the other one still waits. -/
def exchange : List (Action Bool) :=
  [.connect true true, .connect false true, .send true true, .send false true,
    .serverReceive 1, .serverSend, .serverReceive 0, .serverSend, .receive true 1 [],
    .receive false 0 [], .finish false, .send true true, .serverReceive 0, .serverSend,
    .receive true 0 [], .finish true]

theorem echo_completes_exchange : ∃ s,
    run (step messages) (.start messages) exchange = some s ∧
      (∀ addr, Completed messages s addr) ∧
      exchange.length ≤ ∑ addr, (4 * (messages addr).length + 2) := by
  have h := echo_completes messages exchange _ (by simp [exchange, Smooth]) rfl
  refine ⟨_, rfl, h.1 (stuck_of_ended rfl rfl rfl ?_), h.2⟩
  rintro (- | -)
  · rfl
  · rfl

end StudyLinuxKernel.Socket.EchoCompletion
