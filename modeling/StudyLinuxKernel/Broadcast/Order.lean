import Mathlib.Data.List.Pairwise
import StudyLinuxKernel.Broadcast.Delivery

namespace StudyLinuxKernel.Broadcast.Order

open StudyLinuxKernel.Broadcast.Delivery
open StudyLinuxKernel.Broadcast.SelectServer
open StudyLinuxKernel.Libc.Text
open StudyLinuxKernel.Library.PartialStep
open StudyLinuxKernel.Socket.AcceptedSet

def readOf : Event → Option Nat
  | .queued id _ => some id
  | _ => none

/-- The messages in the order in which they were read. -/
def readIds (log : List Event) : List Nat := log.filterMap readOf

def sendOn (conn : Nat) : Event → Option Nat
  | .sent conn' id _ => if conn' = conn then some id else none
  | _ => none

/-- The messages sent on a connection, in the order of the sends. -/
def sentIds (conn : Nat) (log : List Event) : List Nat := log.filterMap (sendOn conn)

/-- Messages are numbered as they are read, so that numbers tell the order. -/
structure InOrder (s : Server) : Prop where
  read : readIds s.log = List.range s.nextId
  sent : ∀ conn, (sentIds conn s.log).Pairwise (· ≤ ·)

/-- No visit finds two messages to send. -/
def OneMessage (s : Server) : Action → Prop
  | .visit visit => ∀ setrd setwd fd rest, s.place = .visiting setrd setwd (fd :: rest) →
      ∀ message message', Sends s setwd fd visit message → Sends s setwd fd visit message' →
        message = message'
  | _ => True

/-- What is still to be sent on an open connection is not older than what it was sent. -/
structure Arranged (s : Server) : Prop where
  ascending : (s.queMsgs.map Message.id).Pairwise (· < ·)
  due : ∀ message ∈ s.queMsgs, 0 < message.first → ∀ fd conn, s.fds.table fd = some conn →
    ∀ id ∈ sentIds conn s.log, id ≤ message.id

theorem readIds_append (log log' : List Event) :
    readIds (log ++ log') = readIds log ++ readIds log' :=
  List.filterMap_append

theorem sentIds_append (conn : Nat) (log log' : List Event) :
    sentIds conn (log ++ log') = sentIds conn log ++ sentIds conn log' :=
  List.filterMap_append

theorem mem_sentIds_iff {conn id : Nat} {log : List Event} :
    id ∈ sentIds conn log ↔ conn ∈ deliveredTo id log := by
  rw [sentIds, deliveredTo, List.mem_filterMap, List.mem_filterMap]
  apply exists_congr
  intro event
  apply and_congr_right
  intro _
  cases event with
  | queued => exact iff_of_false (Option.some_ne_none id).symm (Option.some_ne_none conn).symm
  | sent conn' id' =>
      rw [sendOn, deliveryOf, Option.ite_none_right_eq_some, Option.ite_none_right_eq_some,
        Option.some.injEq, Option.some.injEq]
      exact and_comm
  | removed => exact iff_of_false (Option.some_ne_none id).symm (Option.some_ne_none conn).symm

theorem lt_nextId_of_mem_sentIds {s : Server} (hn : Numbered s) {conn id : Nat}
    (h : id ∈ sentIds conn s.log) : id < s.nextId := by
  rcases List.mem_filterMap.mp h with ⟨event, hevent, hsent⟩
  have hlt := hn.logged event hevent
  cases event with
  | queued => cases hsent
  | sent conn' id' =>
      rw [sendOn, Option.ite_none_right_eq_some, Option.some.injEq] at hsent
      rw [← hsent.2]
      exact hlt
  | removed => cases hsent

theorem sentIds_sent (conn conn' : Nat) (sent : List (Message × Int)) :
    sentIds conn' (sent.map (sentEvent conn)) = if conn = conn' then idsOf sent else [] := by
  rw [sentIds, List.filterMap_map]
  split
  · rename_i hsame
    have hall : sendOn conn' ∘ sentEvent conn = some ∘ Message.id ∘ Prod.fst := by
      funext entry
      exact if_pos hsame
    rw [hall, List.filterMap_eq_map, idsOf, List.map_map]
  · rename_i hother
    apply List.filterMap_eq_nil_iff.mpr
    intro entry _
    exact if_neg hother

section Visits

variable {s s' : Server} {setrd setwd rest : List Nat} {fd conn : Nat} {visit : Visit}
  {sent : List (Message × Int)}

theorem sentIds_visited (conn' : Nat)
    (h : Visited { s with place := .visiting setrd setwd rest } s' setrd setwd fd conn visit
      sent) : sentIds conn' s'.log =
      sentIds conn' s.log ++ if conn = conn' then idsOf sent else [] := by
  rw [h.log, sentIds_append, sentIds_sent]

theorem readIds_visited
    (h : Visited { s with place := .visiting setrd setwd rest } s' setrd setwd fd conn visit
      sent) : readIds s'.log = readIds s.log := by
  have hnone : readIds (sent.map (sentEvent conn)) = [] := by
    apply List.filterMap_eq_nil_iff.mpr
    intro event hevent
    rcases List.mem_map.mp hevent with ⟨entry, _, rfl⟩
    rfl
  rw [h.log, readIds_append, hnone, List.append_nil]

theorem descending_idsOf (ha : Arranged s)
    (h : Visited { s with place := .visiting setrd setwd rest } s' setrd setwd fd conn visit
      sent) : (idsOf sent).Pairwise (· > ·) := by
  apply List.Pairwise.sublist (h.order.map Message.id)
  rw [List.map_reverse, List.pairwise_reverse]
  exact ha.ascending

theorem inOrder_visit (hi : InOrder s) (ha : Arranged s) (hcond : OneMessage s (.visit visit))
    (hplace : s.place = .visiting setrd setwd (fd :: rest)) (hconn : s.fds.table fd = some conn)
    (h : Visited { s with place := .visiting setrd setwd rest } s' setrd setwd fd conn visit
      sent) : InOrder s' := by
  have hsends : ∀ id ∈ idsOf sent, ∃ message, message.id = id ∧ Sends s setwd fd visit message := by
    intro id hid
    rcases List.mem_map.mp hid with ⟨message, hmessage, hsame⟩
    exact ⟨message, hsame, (h.sends message).mp hmessage⟩
  refine ⟨?_, fun conn' => ?_⟩
  · rw [readIds_visited h, h.nextId]
    exact hi.read
  · rw [sentIds_visited conn' h]
    split
    · rename_i hsame
      subst hsame
      refine List.pairwise_append.mpr ⟨hi.sent conn, ?_, fun id hid id' hid' => ?_⟩
      · apply List.pairwise_of_forall_mem_list
        intro id hid id' hid'
        rcases hsends id hid with ⟨message, rfl, hmessage⟩
        rcases hsends id' hid' with ⟨message', rfl, hmessage'⟩
        rw [hcond setrd setwd fd rest hplace message message' hmessage hmessage']
      · rcases hsends id' hid' with ⟨message, rfl, hmessage⟩
        rcases hmessage with ⟨_, older, newer, hsplit, hdue, _⟩
        have hlisted : message ∈ s.queMsgs := by
          rw [hsplit]
          exact List.mem_append_right _ List.mem_cons_self
        exact ha.due message hlisted hdue fd conn hconn id hid
    · rw [List.append_nil]
      exact hi.sent conn'

theorem arranged_visit (hsound : Sound s.fds) (hn : Numbered s) (ha : Arranged s)
    (hcond : OneMessage s (.visit visit))
    (hplace : s.place = .visiting setrd setwd (fd :: rest)) (hconn : s.fds.table fd = some conn)
    (h : Visited { s with place := .visiting setrd setwd rest } s' setrd setwd fd conn visit
      sent) : Arranged s' := by
  refine ⟨?_, fun message' hmessage' hdue' fd' conn' hopen id hid => ?_⟩
  · rw [ids_visited hn.ids h]
    exact ha.ascending
  · rcases became_of_visited hn.ids h hmessage' with ⟨message, hmessage, hbecame⟩
    rcases open_of_visited hsound hconn h hopen with ⟨hbefore, hstays⟩
    have hdue : 0 < message.first := Nat.lt_of_lt_of_le hdue' hbecame.first_le
    rw [hbecame.id]
    rw [mem_sentIds_iff, mem_deliveredTo_visited_iff hn.ids h, ← mem_sentIds_iff] at hid
    rcases hid with hold | ⟨hsame, hnew⟩
    · exact ha.due message hmessage hdue fd' conn' hbefore id hold
    · -- The visit sends all that is due, so `message` is what it sent.
      rcases List.mem_map.mp hnew with ⟨other, hother, rfl⟩
      have hsends := (h.sends other).mp hother
      have hmine : Sends s setwd fd visit message :=
        sends_of_stays hmessage hdue hsends.1 fun hfails => hstays hsame (Or.inl hfails)
      rw [hcond setrd setwd fd rest hplace message other hmine hsends]

theorem oneMessage_visit (hn : Numbered s) (ha : Arranged s) (hi' : InOrder s')
    (h : Visited { s with place := .visiting setrd setwd rest } s' setrd setwd fd conn visit sent)
    {message message' : Message} (hmessage : Sends s setwd fd visit message)
    (hmessage' : Sends s setwd fd visit message') : message = message' := by
  have hsent := (h.sends message).mpr hmessage
  have hsent' := (h.sends message').mpr hmessage'
  have hascending : (idsOf sent).Pairwise (· ≤ ·) := by
    have horder := hi'.sent conn
    rw [sentIds_visited conn h, if_pos rfl] at horder
    exact (List.pairwise_append.mp horder).2.1
  have hequal : (idsOf sent).Pairwise (· = ·) :=
    (hascending.and (descending_idsOf ha h)).imp fun hboth =>
      absurd hboth.1 (Nat.not_le.mpr hboth.2)
  have hid : message.id = message'.id :=
    List.Pairwise.forall_of_forall (fun _ _ => rfl) hequal (List.mem_map_of_mem hsent)
      (List.mem_map_of_mem hsent')
  exact List.inj_on_of_nodup_map hn.ids (List.mem_reverse.mp (h.order.subset hsent))
    (List.mem_reverse.mp (h.order.subset hsent')) hid

end Visits

theorem filterMap_removed (s : Server) {observe : Event → Option Nat}
    (hobserve : ∀ message, observe (removedEvent s.fds message) = none) :
    (purge s).log.filterMap observe = s.log.filterMap observe := by
  have hnone : ((s.queMsgs.filter fun message => message.first ≤ 0).map
      (removedEvent s.fds)).filterMap observe = [] := by
    apply List.filterMap_eq_nil_iff.mpr
    intro event hevent
    rcases List.mem_map.mp hevent with ⟨message, _, rfl⟩
    exact hobserve message
  change (s.log ++ _).filterMap observe = _
  rw [List.filterMap_append, hnone, List.append_nil]

theorem readIds_purge (s : Server) : readIds (purge s).log = readIds s.log :=
  filterMap_removed s fun _ => rfl

theorem sentIds_purge (conn : Nat) (s : Server) :
    sentIds conn (purge s).log = sentIds conn s.log :=
  filterMap_removed s fun _ => rfl

theorem inOrder_serverStep {s s' : Server} {action : Action} (hi : InOrder s) (ha : Arranged s)
    (hcond : OneMessage s action) (hstep : serverStep s action = some s') : InOrder s' := by
  cases moves_of_serverStep hstep with
  | stdin setrd setwd input hselected hready =>
      refine ⟨?_, fun conn => ?_⟩
      · change readIds (s.log ++ [_]) = List.range (s.nextId + 1)
        rw [List.range_succ, ← hi.read, readIds_append]
        rfl
      · change (sentIds conn (s.log ++ [_])).Pairwise _
        rw [sentIds_append]
        exact (List.append_nil _).symm ▸ hi.sent conn
  | visit setrd setwd fd rest conn visit s' sent hplace hconn hvisited =>
      exact inOrder_visit hi ha hcond hplace hconn hvisited
  | purge hplace =>
      refine ⟨?_, fun conn => ?_⟩
      · change readIds (purge s).log = List.range s.nextId
        rw [readIds_purge]
        exact hi.read
      · change (sentIds conn (purge s).log).Pairwise _
        rw [sentIds_purge]
        exact hi.sent conn
  | _ => exact ⟨hi.read, hi.sent⟩

theorem arranged_serverStep {s s' : Server} {action : Action} (hc : Consistent s)
    (hn : Numbered s) (ha : Arranged s) (hcond : OneMessage s action)
    (hstep : serverStep s action = some s') : Arranged s' := by
  cases moves_of_serverStep hstep with
  | accept fd fds haccept =>
      refine ⟨ha.ascending, fun message hmessage hdue fd' conn hopen id hid => ?_⟩
      rcases (open_of_accept_iff haccept).mp hopen with ⟨_, rfl⟩ | ⟨_, hold⟩
      · exact absurd (hn.sent id _ (mem_sentIds_iff.mp hid)) (Nat.lt_irrefl _)
      · exact ha.due message hmessage hdue fd' conn hold id hid
  | insert fds hinsert hunlocked =>
      rcases insert_eq_some hinsert with ⟨fd, _, rfl⟩
      exact ⟨ha.ascending, ha.due⟩
  | stdin setrd setwd input hselected hready =>
      refine ⟨?_, fun message hmessage hdue fd conn hopen id hid => ?_⟩
      · change ((s.queMsgs ++ [_]).map Message.id).Pairwise _
        rw [List.map_append]
        refine List.pairwise_append.mpr ⟨ha.ascending, List.pairwise_singleton _ _, ?_⟩
        intro id hid id' hid'
        rcases List.mem_map.mp hid with ⟨message, hmessage, rfl⟩
        rw [List.mem_singleton.mp hid']
        exact hn.listed message hmessage
      · have hold : id ∈ sentIds conn s.log := by
          rw [mem_sentIds_iff] at hid ⊢
          rw [← @deliveredTo_queueMessage s input]
          exact hid
        rcases mem_queueMessage hmessage with hmessage | ⟨_, hnew, _⟩
        · exact ha.due message hmessage hdue fd conn hopen id hold
        · rw [hnew]
          exact Nat.le_of_lt (lt_nextId_of_mem_sentIds hn hold)
  | visit setrd setwd fd rest conn visit s' sent hplace hconn hvisited =>
      exact arranged_visit hc.fds hn ha hcond hplace hconn hvisited
  | purge hplace =>
      refine ⟨ha.ascending.sublist (queMsgs_purge_sublist.map _),
        fun message hmessage hdue fd conn hopen id hid => ?_⟩
      apply ha.due message (queMsgs_purge_sublist.subset hmessage) hdue fd conn hopen id
      rw [mem_sentIds_iff] at hid ⊢
      rw [← @deliveredTo_purge s]
      exact hid
  | _ => exact ⟨ha.ascending, ha.due⟩

theorem oneMessage_of_inOrder {s s' : Server} {action : Action} (hn : Numbered s)
    (ha : Arranged s) (hstep : serverStep s action = some s') (hi' : InOrder s') :
    OneMessage s action := by
  cases moves_of_serverStep hstep with
  | visit setrd setwd fd rest conn visit s' sent hplace hconn hvisited =>
      intro setrd' setwd' fd' rest' hplace' message message' hmessage hmessage'
      rw [hplace] at hplace'
      rcases Place.visiting.inj hplace' with ⟨rfl, rfl, hcons⟩
      rcases List.cons.inj hcons with ⟨rfl, rfl⟩
      exact oneMessage_visit hn ha hi' hvisited hmessage hmessage'
  | _ => trivial

theorem inOrder_start : InOrder Server.start where
  read := rfl
  sent := fun _ => List.Pairwise.nil

theorem arranged_start : Arranged Server.start where
  ascending := List.Pairwise.nil
  due := fun _ hmessage => absurd hmessage List.not_mem_nil

/-- In a run of the server every connection is sent the messages in the order in
which they were read exactly if no visit sends two messages. -/
theorem inOrder_iff (actions : List Action) :
    EveryState serverStep InOrder .start actions ↔
      EveryStep serverStep OneMessage .start actions := by
  have hexact := @everyState_iff_everyStep _ _ serverStep
    (fun s => Consistent s ∧ Numbered s ∧ Arranged s ∧ InOrder s) InOrder OneMessage .start
    ⟨consistent_start, numbered_start, arranged_start, inOrder_start⟩ (fun _ hs => hs.2.2.2)
    (fun _ _ _ hs hcond hstep =>
      ⟨consistent_serverStep hs.1 hstep, numbered_serverStep hs.1 hs.2.1 hstep,
        arranged_serverStep hs.1 hs.2.1 hs.2.2.1 hcond hstep,
        inOrder_serverStep hs.2.2.2 hs.2.2.1 hcond hstep⟩)
    (fun _ _ _ hs hstep hs' => oneMessage_of_inOrder hs.2.1 hs.2.2.1 hstep hs')
  exact hexact actions

/-- One client, which is not writable as the first message is read. -/
def backlogSchedule (first second : Bytes) : List Action :=
  [.accept 5, .insert,
    .select [STDIN_FILENO] [], .stdin first, .lock, .visit { sends := fun _ => 2, recv := 0 },
    .unlock, .purge,
    .select [STDIN_FILENO] [5], .stdin second, .lock, .visit { sends := fun _ => 2, recv := 0 }]

theorem run_backlogSchedule {first second : Bytes} (hfirst : first.length ≤ bufferSize)
    (hsecond : second.length ≤ bufferSize) :
    ∃ s' bytes bytes', run serverStep .start (backlogSchedule first second) = some s' ∧
      s'.log = [.queued 0 [0], .queued 1 [0], .sent 0 1 bytes', .sent 0 0 bytes] := by
  simp [backlogSchedule, serverStep, Server.start, Descriptors.start, Descriptors.accept,
    Descriptors.insert, Descriptors.conns, insertFd, queueMessage, purge, visitFd, writeBranch,
    readBranch, closeBranch, sendLoop, Message.foundBy, sentEvent, hfirst, hsecond, STDIN_FILENO]

theorem backlog_sent_backwards :
    ∃ s', run serverStep .start (backlogSchedule (literal "a\n") (literal "b\n")) = some s' ∧
      sentIds 0 s'.log = [1, 0] ∧ ¬ InOrder s' := by
  obtain ⟨s', bytes, bytes', hrun, hlog⟩ :=
    @run_backlogSchedule (literal "a\n") (literal "b\n") (by decide) (by decide)
  have hsent : sentIds 0 s'.log = [1, 0] := by
    rw [hlog]
    rfl
  refine ⟨s', hrun, hsent, fun h => ?_⟩
  have horder := h.sent 0
  rw [hsent] at horder
  exact absurd horder (by decide)

end StudyLinuxKernel.Broadcast.Order
