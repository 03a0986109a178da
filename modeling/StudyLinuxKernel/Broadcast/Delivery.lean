import StudyLinuxKernel.Broadcast.SelectServer

namespace StudyLinuxKernel.Broadcast.Delivery

open StudyLinuxKernel.Broadcast.SelectServer
open StudyLinuxKernel.Libc.Text
open StudyLinuxKernel.Library.PartialStep
open StudyLinuxKernel.Socket.AcceptedSet

def deliveryOf (id : Nat) : Event → Option Nat
  | .sent conn id' _ => if id' = id then some conn else none
  | _ => none

/-- The connections that a message was sent to, with repetitions. -/
def deliveredTo (id : Nat) (log : List Event) : List Nat := log.filterMap (deliveryOf id)

structure ExactlyOnce (s : Server) : Prop where
  once : ∀ id, (deliveredTo id s.log).Nodup
  intended : ∀ id, ∀ conn ∈ deliveredTo id s.log,
    ∃ audience, Event.queued id audience ∈ s.log ∧ conn ∈ audience
  removed : ∀ id present, Event.removed id present ∈ s.log → present ⊆ deliveredTo id s.log

/-- A visit that sends a message visits a connection of its audience that no
visit has found writable since the message was queued. -/
def FoundOnce (s : Server) : Action → Prop
  | .visit visit => ∀ setrd setwd fd rest conn, s.place = .visiting setrd setwd (fd :: rest) →
      s.fds.table fd = some conn → ∀ message, Sends s setwd fd visit message →
      conn ∈ message.audience ∧ conn ∉ message.found
  | _ => True

/-- What holds in all runs about the messages and what is logged of them. -/
structure Numbered (s : Server) : Prop where
  ids : (s.queMsgs.map Message.id).Nodup
  listed : ∀ message ∈ s.queMsgs, message.id < s.nextId
  logged : ∀ event ∈ s.log, event.id < s.nextId
  queued : ∀ message ∈ s.queMsgs, Event.queued message.id message.audience ∈ s.log
  unique : ∀ id audience audience', Event.queued id audience ∈ s.log →
    Event.queued id audience' ∈ s.log → audience = audience'
  audience : ∀ message ∈ s.queMsgs, message.audience.Nodup
  found : ∀ message ∈ s.queMsgs, ∀ conn ∈ message.found, conn < s.fds.nextConn
  sent : ∀ id, ∀ conn ∈ deliveredTo id s.log, conn < s.fds.nextConn

/-- The count of a message as long as it is sent to whom it is meant for, and
once; and `found` then tells who got it. -/
structure Tally (s : Server) : Prop where
  count : ∀ message ∈ s.queMsgs,
    message.first + (deliveredTo message.id s.log).length = message.audience.length
  found : ∀ message ∈ s.queMsgs, 0 < message.first → ∀ fd conn, s.fds.table fd = some conn →
    (conn ∈ message.found ↔ conn ∈ deliveredTo message.id s.log)

theorem deliveredTo_append (id : Nat) (log log' : List Event) :
    deliveredTo id (log ++ log') = deliveredTo id log ++ deliveredTo id log' :=
  List.filterMap_append

theorem deliveredTo_eq_nil {id : Nat} {log : List Event}
    (h : ∀ event ∈ log, deliveryOf id event = none) : deliveredTo id log = [] :=
  List.filterMap_eq_nil_iff.mpr h

theorem deliveredTo_append_of_none {id : Nat} {log log' : List Event}
    (h : ∀ event ∈ log', deliveryOf id event = none) :
    deliveredTo id (log ++ log') = deliveredTo id log := by
  rw [deliveredTo_append, deliveredTo_eq_nil h, List.append_nil]

theorem deliveryOf_of_ne {id : Nat} {event : Event} (h : event.id ≠ id) :
    deliveryOf id event = none := by
  cases event with
  | queued => rfl
  | sent => exact if_neg h
  | removed => rfl

section Visits

variable {s s' : Server} {setrd setwd rest : List Nat} {fd conn : Nat} {visit : Visit}
  {sent : List (Message × Int)}

theorem deliveredTo_sent (id conn : Nat) {sent : List (Message × Int)}
    (hnodup : (idsOf sent).Nodup) :
    deliveredTo id (sent.map (sentEvent conn)) = if id ∈ idsOf sent then [conn] else [] := by
  induction sent with
  | nil => rfl
  | cons entry sent ih =>
      have hnew : entry.1.id ∉ idsOf sent := (List.nodup_cons.mp hnodup).1
      have hrest := ih (List.nodup_cons.mp hnodup).2
      rw [List.map_cons, ← List.singleton_append, deliveredTo_append, hrest]
      rcases eq_or_ne entry.1.id id with rfl | hne
      · have hone : deliveredTo entry.1.id [sentEvent conn entry] = [conn] :=
          List.filterMap_cons_some (if_pos rfl)
        rw [hone, if_neg hnew, if_pos (show entry.1.id ∈ idsOf (entry :: sent) from
          List.mem_cons_self)]
        rfl
      · have hnone : deliveredTo id [sentEvent conn entry] = [] :=
          List.filterMap_cons_none (if_neg hne)
        rw [hnone, List.nil_append]
        refine if_congr ?_ rfl rfl
        exact ⟨List.mem_cons_of_mem _, fun h => (List.mem_cons.mp h).resolve_left hne.symm⟩

theorem nodup_idsOf (hids : (s.queMsgs.map Message.id).Nodup)
    (h : Visited { s with place := .visiting setrd setwd rest } s' setrd setwd fd conn visit sent) :
    (idsOf sent).Nodup := by
  apply List.Nodup.sublist (h.order.map Message.id)
  rw [List.map_reverse]
  exact List.nodup_reverse.mpr hids

theorem deliveredTo_visited (hids : (s.queMsgs.map Message.id).Nodup)
    (h : Visited { s with place := .visiting setrd setwd rest } s' setrd setwd fd conn visit sent)
    (id : Nat) : deliveredTo id s'.log =
      deliveredTo id s.log ++ if id ∈ idsOf sent then [conn] else [] := by
  rw [h.log, deliveredTo_append, deliveredTo_sent id conn (nodup_idsOf hids h)]

theorem mem_idsOf_iff (hids : (s.queMsgs.map Message.id).Nodup)
    (h : Visited { s with place := .visiting setrd setwd rest } s' setrd setwd fd conn visit sent)
    {message : Message} (hmessage : message ∈ s.queMsgs) :
    message.id ∈ idsOf sent ↔ Sends s setwd fd visit message := by
  constructor
  · intro hid
    obtain ⟨other, hother, hsame⟩ := List.mem_map.mp hid
    have hlisted : other ∈ s.queMsgs := List.mem_reverse.mp (h.order.subset hother)
    obtain rfl := List.inj_on_of_nodup_map hids hlisted hmessage hsame
    exact (h.sends other).mp hother
  · intro hsends
    exact List.mem_map_of_mem ((h.sends message).mpr hsends)

/-- What a visit makes of a message. -/
structure Became (message message' : Message) (writable due : Prop) (conn : Nat) : Prop where
  id : message'.id = message.id
  audience : message'.audience = message.audience
  sent : due → message'.first = message.first - 1
  notSent : ¬ due → message'.first = message.first
  found : writable → message'.found = message.found ++ [conn]
  notFound : ¬ writable → message'.found = message.found

theorem Became.first_le {message message' : Message} {writable due : Prop} {conn : Nat}
    (h : Became message message' writable due conn) : message'.first ≤ message.first := by
  rcases Classical.em due with hdue | hnot
  · rw [h.sent hdue]
    exact Nat.sub_le _ _
  · rw [h.notSent hnot]

theorem became_of_visited (hids : (s.queMsgs.map Message.id).Nodup)
    (h : Visited { s with place := .visiting setrd setwd rest } s' setrd setwd fd conn visit sent)
    {message' : Message} (hmessage' : message' ∈ s'.queMsgs) :
    ∃ message ∈ s.queMsgs,
      Became message message' (fd ∈ setwd) (message.id ∈ idsOf sent) conn := by
  rcases Decidable.em (fd ∈ setwd) with hmem | hmem
  · rw [h.writable hmem hids] at hmessage'
    obtain ⟨message, hmessage, rfl⟩ := List.mem_map.mp hmessage'
    refine ⟨message, hmessage, ?_⟩
    rcases Decidable.em (message.id ∈ idsOf sent) with hsent | hsent
    · rw [served_of_mem hsent]
      exact ⟨rfl, rfl, fun _ => rfl, fun hnot => absurd hsent hnot, fun _ => rfl,
        fun hnot => absurd hmem hnot⟩
    · rw [served_of_not_mem hsent]
      exact ⟨rfl, rfl, fun hin => absurd hin hsent, fun _ => rfl, fun _ => rfl,
        fun hnot => absurd hmem hnot⟩
  · rw [h.notWritable hmem] at hmessage'
    refine ⟨message', hmessage', rfl, rfl, fun hsent => ?_, fun _ => rfl,
      fun hin => absurd hin hmem, fun _ => rfl⟩
    exact absurd ((mem_idsOf_iff hids h hmessage').mp hsent).1 hmem

theorem ids_visited (hids : (s.queMsgs.map Message.id).Nodup)
    (h : Visited { s with place := .visiting setrd setwd rest } s' setrd setwd fd conn visit
      sent) : s'.queMsgs.map Message.id = s.queMsgs.map Message.id := by
  rcases Decidable.em (fd ∈ setwd) with hmem | hmem
  · rw [h.writable hmem hids, List.map_map]
    apply List.map_congr_left
    intro message _
    change (message.served _).id = message.id
    rw [Message.served]
    split
    · rfl
    · rfl
  · rw [h.notWritable hmem]

theorem mem_deliveredTo_visited_iff (hids : (s.queMsgs.map Message.id).Nodup)
    (h : Visited { s with place := .visiting setrd setwd rest } s' setrd setwd fd conn visit sent)
    {id conn' : Nat} : conn' ∈ deliveredTo id s'.log ↔
      conn' ∈ deliveredTo id s.log ∨ conn' = conn ∧ id ∈ idsOf sent := by
  rw [deliveredTo_visited hids h, List.mem_append]
  apply or_congr_right
  split
  · rename_i hid
    rw [List.mem_singleton]
    exact (and_iff_left hid).symm
  · rename_i hid
    exact iff_of_false List.not_mem_nil fun hboth => hid hboth.2

theorem mem_log_of_visited
    (h : Visited { s with place := .visiting setrd setwd rest } s' setrd setwd fd conn visit sent)
    {event : Event} (hevent : event ∈ s'.log) :
    event ∈ s.log ∨ ∃ entry ∈ sent, event = sentEvent conn entry := by
  rw [h.log, List.mem_append] at hevent
  apply hevent.imp_right
  intro hnew
  obtain ⟨entry, hentry, rfl⟩ := List.mem_map.mp hnew
  exact ⟨entry, hentry, rfl⟩

theorem log_subset_of_visited
    (h : Visited { s with place := .visiting setrd setwd rest } s' setrd setwd fd conn visit
      sent) : s.log ⊆ s'.log := by
  rw [h.log]
  exact List.subset_append_left _ _

theorem numbered_visit (hsound : Sound s.fds) (hn : Numbered s) (hconn : s.fds.table fd = some conn)
    (h : Visited { s with place := .visiting setrd setwd rest } s' setrd setwd fd conn visit
      sent) : Numbered s' := by
  have hconnLt := hsound.fresh fd conn hconn
  have hnextConn : s'.fds.nextConn = s.fds.nextConn := nextConn_of_visited h
  have hnextId : s'.nextId = s.nextId := h.nextId
  have hqueued : ∀ id audience, Event.queued id audience ∈ s'.log →
      Event.queued id audience ∈ s.log := by
    intro id audience hevent
    apply (mem_log_of_visited h hevent).resolve_right
    rintro ⟨entry, _, hsame⟩
    cases hsame
  refine ⟨?_, fun message' hmessage' => ?_, fun event hevent => ?_, fun message' hmessage' => ?_,
    fun id audience audience' hfirst hsecond => ?_, fun message' hmessage' => ?_,
    fun message' hmessage' conn' hfound => ?_, fun id conn' hsent => ?_⟩
  · rw [ids_visited hn.ids h]
    exact hn.ids
  · obtain ⟨message, hmessage, hbecame⟩ := became_of_visited hn.ids h hmessage'
    rw [hbecame.id, hnextId]
    exact hn.listed message hmessage
  · rw [hnextId]
    rcases mem_log_of_visited h hevent with hold | ⟨entry, hentry, rfl⟩
    · exact hn.logged event hold
    · refine hn.listed entry.1 (List.mem_reverse.mp (h.order.subset ?_))
      exact List.mem_map_of_mem hentry
  · obtain ⟨message, hmessage, hbecame⟩ := became_of_visited hn.ids h hmessage'
    rw [hbecame.id, hbecame.audience]
    exact log_subset_of_visited h (hn.queued message hmessage)
  · exact hn.unique id audience audience' (hqueued id audience hfirst)
      (hqueued id audience' hsecond)
  · obtain ⟨message, hmessage, hbecame⟩ := became_of_visited hn.ids h hmessage'
    rw [hbecame.audience]
    exact hn.audience message hmessage
  · obtain ⟨message, hmessage, hbecame⟩ := became_of_visited hn.ids h hmessage'
    rw [hnextConn]
    rcases Decidable.em (fd ∈ setwd) with hmem | hmem
    · rw [hbecame.found hmem, List.mem_append, List.mem_singleton] at hfound
      rcases hfound with hfound | rfl
      · exact hn.found message hmessage conn' hfound
      · exact hconnLt
    · rw [hbecame.notFound hmem] at hfound
      exact hn.found message hmessage conn' hfound
  · rw [hnextConn]
    rcases (mem_deliveredTo_visited_iff hn.ids h).mp hsent with hsent | ⟨rfl, _⟩
    · exact hn.sent id conn' hsent
    · exact hconnLt

theorem sends_of_stays {message : Message} (hmessage : message ∈ s.queMsgs)
    (hdue : 0 < message.first) (hmem : fd ∈ setwd) (hstays : ¬ SendFails s setwd fd visit) :
    Sends s setwd fd visit message := by
  have htaken : AllTaken visit.sends 0 s.queMsgs :=
    Classical.not_not.mp fun hnot => hstays ⟨hmem, hnot⟩
  obtain ⟨older, newer, hsplit⟩ := List.append_of_mem hmessage
  refine ⟨hmem, older, newer, hsplit, hdue, fun j other hother => ?_⟩
  rw [Nat.add_assoc]
  apply htaken (older.length + j) other
  rw [hsplit, List.getElem?_append_right (Nat.le_add_right _ _), Nat.add_sub_cancel_left]
  exact hother

theorem tally_visit (hsound : Sound s.fds) (hn : Numbered s) (ht : Tally s)
    (hconn : s.fds.table fd = some conn)
    (h : Visited { s with place := .visiting setrd setwd rest } s' setrd setwd fd conn visit
      sent) : Tally s' := by
  refine ⟨fun message' hmessage' => ?_, fun message' hmessage' hdue' fd' conn' hopen => ?_⟩
  · obtain ⟨message, hmessage, hbecame⟩ := became_of_visited hn.ids h hmessage'
    have hcount := ht.count message hmessage
    rw [hbecame.id, hbecame.audience, deliveredTo_visited hn.ids h, List.length_append]
    rcases Decidable.em (message.id ∈ idsOf sent) with hsent | hsent
    · obtain ⟨_, _, _, _, hdue, _⟩ := (mem_idsOf_iff hn.ids h hmessage).mp hsent
      rw [hbecame.sent hsent, if_pos hsent, List.length_singleton]
      omega
    · rw [hbecame.notSent hsent, if_neg hsent]
      exact hcount
  · obtain ⟨message, hmessage, hbecame⟩ := became_of_visited hn.ids h hmessage'
    obtain ⟨hbefore, hstays⟩ := open_of_visited hsound hconn h hopen
    have hdue : 0 < message.first := Nat.lt_of_lt_of_le hdue' hbecame.first_le
    have hfound := ht.found message hmessage hdue fd' conn' hbefore
    rw [hbecame.id, mem_deliveredTo_visited_iff hn.ids h]
    rcases Decidable.em (fd ∈ setwd) with hmem | hmem
    · rw [hbecame.found hmem, List.mem_append, List.mem_singleton, hfound]
      refine or_congr_right ⟨fun hsame => ⟨hsame, ?_⟩, fun hboth => hboth.1⟩
      rw [mem_idsOf_iff hn.ids h hmessage]
      exact sends_of_stays hmessage hdue hmem fun hfails => hstays hsame (Or.inl hfails)
    · rw [hbecame.notFound hmem, hfound]
      refine ⟨Or.inl, fun hboth => hboth.resolve_right fun hnew => hmem ?_⟩
      exact ((mem_idsOf_iff hn.ids h hmessage).mp hnew.2).1

theorem exactlyOnce_visit (hn : Numbered s) (ht : Tally s) (he : ExactlyOnce s)
    (hcond : FoundOnce s (.visit visit))
    (hplace : s.place = .visiting setrd setwd (fd :: rest)) (hconn : s.fds.table fd = some conn)
    (h : Visited { s with place := .visiting setrd setwd rest } s' setrd setwd fd conn visit
      sent) : ExactlyOnce s' := by
  have hsends : ∀ id ∈ idsOf sent, ∃ message ∈ s.queMsgs, message.id = id ∧
      conn ∈ message.audience ∧ conn ∉ deliveredTo id s.log := by
    intro id hid
    obtain ⟨message, hsent, rfl⟩ := List.mem_map.mp hid
    have hlisted : message ∈ s.queMsgs := List.mem_reverse.mp (h.order.subset hsent)
    have hmessage := (h.sends message).mp hsent
    obtain ⟨haudience, hfound⟩ := hcond setrd setwd fd rest conn hplace hconn message hmessage
    obtain ⟨_, _, _, _, hdue, _⟩ := hmessage
    refine ⟨message, hlisted, rfl, haudience, fun hgot => hfound ?_⟩
    exact (ht.found message hlisted hdue fd conn hconn).mpr hgot
  refine ⟨fun id => ?_, fun id conn' hgot => ?_, fun id present hremoved => ?_⟩
  · rw [deliveredTo_visited hn.ids h]
    split
    · rename_i hid
      obtain ⟨_, _, _, _, hnot⟩ := hsends id hid
      apply (he.once id).append (List.nodup_singleton conn)
      rw [List.disjoint_singleton]
      exact hnot
    · rw [List.append_nil]
      exact he.once id
  · rcases (mem_deliveredTo_visited_iff hn.ids h).mp hgot with hold | ⟨rfl, hid⟩
    · obtain ⟨audience, hqueued, hin⟩ := he.intended id conn' hold
      exact ⟨audience, log_subset_of_visited h hqueued, hin⟩
    · obtain ⟨message, hlisted, rfl, haudience, _⟩ := hsends id hid
      exact ⟨message.audience, log_subset_of_visited h (hn.queued message hlisted), haudience⟩
  · have hold : Event.removed id present ∈ s.log := by
      apply (mem_log_of_visited h hremoved).resolve_right
      rintro ⟨entry, _, hsame⟩
      cases hsame
    exact fun conn' hin =>
      (mem_deliveredTo_visited_iff hn.ids h).mpr (Or.inl (he.removed id present hold hin))

/-- A connection that got a message that it was not meant for, or a second
time, breaks the delivery at once. -/
theorem foundOnce_visit (hn : Numbered s) (hn' : Numbered s') (ht : Tally s) (he' : ExactlyOnce s')
    (hconn : s.fds.table fd = some conn)
    (h : Visited { s with place := .visiting setrd setwd rest } s' setrd setwd fd conn visit sent)
    {message : Message} (hsends : Sends s setwd fd visit message) :
    conn ∈ message.audience ∧ conn ∉ message.found := by
  have hsent := (h.sends message).mpr hsends
  have hlisted : message ∈ s.queMsgs := List.mem_reverse.mp (h.order.subset hsent)
  have hid : message.id ∈ idsOf sent := List.mem_map_of_mem hsent
  constructor
  · have hgot := (mem_deliveredTo_visited_iff hn.ids h).mpr (Or.inr ⟨@rfl _ conn, hid⟩)
    obtain ⟨audience, hqueued, hin⟩ := he'.intended message.id conn hgot
    have hmine := log_subset_of_visited h (hn.queued message hlisted)
    rw [hn'.unique message.id message.audience audience hmine hqueued]
    exact hin
  · intro hfound
    obtain ⟨_, _, _, _, hdue, _⟩ := hsends
    have hgot := (ht.found message hlisted hdue fd conn hconn).mp hfound
    have honce := he'.once message.id
    rw [deliveredTo_visited hn.ids h, if_pos hid] at honce
    exact (List.disjoint_of_nodup_append honce) hgot List.mem_cons_self

end Visits

section Queueing

variable {s : Server} {input : Bytes}

theorem deliveredTo_queueMessage (id : Nat) :
    deliveredTo id (queueMessage s input).log = deliveredTo id s.log := by
  apply deliveredTo_append_of_none
  intro event hevent
  rw [List.mem_singleton.mp hevent]
  rfl

theorem mem_queueMessage {message : Message} (h : message ∈ (queueMessage s input).queMsgs) :
    message ∈ s.queMsgs ∨ message.first = s.fds.accepted.length ∧ message.id = s.nextId ∧
      message.audience = s.fds.conns ∧ message.found = [] := by
  apply (List.mem_append.mp h).imp_right
  intro hnew
  rw [List.mem_singleton.mp hnew]
  exact ⟨rfl, rfl, rfl, rfl⟩

theorem mem_log_queueMessage_iff {event : Event} : event ∈ (queueMessage s input).log ↔
    event ∈ s.log ∨ event = .queued s.nextId s.fds.conns := by
  change event ∈ s.log ++ [_] ↔ _
  rw [List.mem_append, List.mem_singleton]

theorem numbered_queueMessage (hsound : Sound s.fds) (hn : Numbered s) :
    Numbered (queueMessage s input) := by
  have hfresh : ∀ audience, Event.queued s.nextId audience ∉ s.log := fun audience hqueued =>
    Nat.lt_irrefl _ (hn.logged _ hqueued)
  refine ⟨?_, fun message hmessage => ?_, fun event hevent => ?_, fun message hmessage => ?_,
    fun id audience audience' hfirst hsecond => ?_, fun message hmessage => ?_,
    fun message hmessage conn hfound => ?_, fun id conn hsent => ?_⟩
  · change ((s.queMsgs ++ [_]).map Message.id).Nodup
    rw [List.map_append]
    refine hn.ids.append (List.nodup_singleton _) ?_
    rw [List.map_singleton, List.disjoint_singleton]
    intro hid
    obtain ⟨message, hmessage, hsame⟩ := List.mem_map.mp hid
    exact Nat.ne_of_lt (hn.listed message hmessage) hsame
  · rcases mem_queueMessage hmessage with hold | ⟨_, hid, _⟩
    · exact Nat.lt_succ_of_lt (hn.listed message hold)
    · rw [hid]
      exact Nat.lt_succ_self s.nextId
  · rcases mem_log_queueMessage_iff.mp hevent with hold | rfl
    · exact Nat.lt_succ_of_lt (hn.logged event hold)
    · exact Nat.lt_succ_self s.nextId
  · rw [mem_log_queueMessage_iff]
    rcases mem_queueMessage hmessage with hold | ⟨_, hid, haudience, _⟩
    · exact Or.inl (hn.queued message hold)
    · rw [hid, haudience]
      exact Or.inr rfl
  · rcases mem_log_queueMessage_iff.mp hfirst with hfirst | hfirst
    · rcases mem_log_queueMessage_iff.mp hsecond with hsecond | hsecond
      · exact hn.unique id audience audience' hfirst hsecond
      · obtain ⟨rfl, _⟩ := Event.queued.inj hsecond
        exact absurd hfirst (hfresh audience)
    · obtain ⟨rfl, rfl⟩ := Event.queued.inj hfirst
      rcases mem_log_queueMessage_iff.mp hsecond with hsecond | hsecond
      · exact absurd hsecond (hfresh audience')
      · exact (Event.queued.inj hsecond).2.symm
  · rcases mem_queueMessage hmessage with hold | ⟨_, _, haudience, _⟩
    · exact hn.audience message hold
    · rw [haudience]
      exact nodup_conns hsound
  · rcases mem_queueMessage hmessage with hold | ⟨_, _, _, hnone⟩
    · exact hn.found message hold conn hfound
    · rw [hnone] at hfound
      exact absurd hfound List.not_mem_nil
  · rw [deliveredTo_queueMessage] at hsent
    exact hn.sent id conn hsent

theorem tally_queueMessage (hsound : Sound s.fds) (hn : Numbered s) (ht : Tally s) :
    Tally (queueMessage s input) := by
  have hnothing : deliveredTo s.nextId s.log = [] :=
    deliveredTo_eq_nil fun event hevent => deliveryOf_of_ne (Nat.ne_of_lt (hn.logged event hevent))
  refine ⟨fun message hmessage => ?_, fun message hmessage hdue fd conn hopen => ?_⟩
  · rw [deliveredTo_queueMessage]
    rcases mem_queueMessage hmessage with hold | ⟨hfirst, hid, haudience, _⟩
    · exact ht.count message hold
    · rw [hid, hnothing, hfirst, haudience, length_conns hsound]
      rfl
  · rw [deliveredTo_queueMessage]
    rcases mem_queueMessage hmessage with hold | ⟨_, hid, _, hfound⟩
    · exact ht.found message hold hdue fd conn hopen
    · rw [hid, hnothing, hfound]

theorem exactlyOnce_queueMessage (he : ExactlyOnce s) : ExactlyOnce (queueMessage s input) := by
  refine ⟨fun id => ?_, fun id conn hgot => ?_, fun id present hremoved => ?_⟩
  · rw [deliveredTo_queueMessage]
    exact he.once id
  · rw [deliveredTo_queueMessage] at hgot
    obtain ⟨audience, hqueued, hin⟩ := he.intended id conn hgot
    exact ⟨audience, mem_log_queueMessage_iff.mpr (Or.inl hqueued), hin⟩
  · rw [deliveredTo_queueMessage]
    refine he.removed id present ((mem_log_queueMessage_iff.mp hremoved).resolve_right ?_)
    exact fun hsame => nomatch hsame

end Queueing

section Purging

variable {s : Server}

theorem deliveredTo_purge (id : Nat) : deliveredTo id (purge s).log = deliveredTo id s.log := by
  apply deliveredTo_append_of_none
  intro event hevent
  obtain ⟨message, _, rfl⟩ := List.mem_map.mp hevent
  rfl

theorem mem_log_purge_iff {event : Event} : event ∈ (purge s).log ↔ event ∈ s.log ∨
    ∃ message ∈ s.queMsgs, message.first = 0 ∧ removedEvent s.fds message = event := by
  change event ∈ s.log ++ _ ↔ _
  rw [List.mem_append, List.mem_map]
  refine or_congr_right (exists_congr fun message => ?_)
  rw [List.mem_filter, decide_eq_true_eq, Nat.le_zero, and_assoc]

theorem queMsgs_purge_sublist : List.Sublist (purge s).queMsgs s.queMsgs := List.filter_sublist

theorem numbered_purge (hn : Numbered s) : Numbered (purge s) := by
  have hold : ∀ message ∈ (purge s).queMsgs, message ∈ s.queMsgs := fun _ hmessage =>
    queMsgs_purge_sublist.subset hmessage
  have hqueued : ∀ id audience, Event.queued id audience ∈ (purge s).log →
      Event.queued id audience ∈ s.log := by
    intro id audience hevent
    apply (mem_log_purge_iff.mp hevent).resolve_right
    rintro ⟨message, _, _, hsame⟩
    cases hsame
  refine ⟨hn.ids.sublist (queMsgs_purge_sublist.map _),
    fun message hmessage => hn.listed message (hold message hmessage), fun event hevent => ?_,
    fun message hmessage =>
      mem_log_purge_iff.mpr (Or.inl (hn.queued message (hold message hmessage))),
    fun id audience audience' hfirst hsecond => hn.unique id audience audience'
      (hqueued id audience hfirst) (hqueued id audience' hsecond),
    fun message hmessage => hn.audience message (hold message hmessage),
    fun message hmessage => hn.found message (hold message hmessage), fun id => ?_⟩
  · rcases mem_log_purge_iff.mp hevent with hbefore | ⟨message, hmessage, _, rfl⟩
    · exact hn.logged event hbefore
    · exact hn.listed message hmessage
  · rw [deliveredTo_purge]
    exact hn.sent id

theorem tally_purge (ht : Tally s) : Tally (purge s) := by
  refine ⟨fun message hmessage => ?_, fun message hmessage => ?_⟩
  · rw [deliveredTo_purge]
    exact ht.count message (queMsgs_purge_sublist.subset hmessage)
  · rw [deliveredTo_purge]
    exact ht.found message (queMsgs_purge_sublist.subset hmessage)

theorem audience_subset_of_done (hn : Numbered s) (ht : Tally s) (he : ExactlyOnce s)
    {message : Message} (hmessage : message ∈ s.queMsgs) (hdone : message.first = 0) :
    message.audience ⊆ deliveredTo message.id s.log := by
  have hsubset : deliveredTo message.id s.log ⊆ message.audience := by
    intro conn hgot
    obtain ⟨audience, hqueued, hin⟩ := he.intended message.id conn hgot
    rw [hn.unique message.id message.audience audience (hn.queued message hmessage) hqueued]
    exact hin
  have hcount := ht.count message hmessage
  rw [hdone, Nat.zero_add] at hcount
  have hsubperm := List.subperm_of_subset (he.once message.id) hsubset
  exact (hsubperm.perm_of_length_le hcount.ge).symm.subset

theorem exactlyOnce_purge (hn : Numbered s) (ht : Tally s) (he : ExactlyOnce s) :
    ExactlyOnce (purge s) := by
  refine ⟨fun id => ?_, fun id conn hgot => ?_, fun id present hremoved => ?_⟩
  · rw [deliveredTo_purge]
    exact he.once id
  · rw [deliveredTo_purge] at hgot
    obtain ⟨audience, hqueued, hin⟩ := he.intended id conn hgot
    exact ⟨audience, mem_log_purge_iff.mpr (Or.inl hqueued), hin⟩
  · rw [deliveredTo_purge]
    rcases mem_log_purge_iff.mp hremoved with hbefore | ⟨message, hmessage, hdone, hsame⟩
    · exact he.removed id present hbefore
    · obtain ⟨rfl, rfl⟩ := Event.removed.inj hsame
      exact fun conn hin =>
        audience_subset_of_done hn ht he hmessage hdone (List.mem_filter.mp hin).1

end Purging

theorem numbered_serverStep {s s' : Server} {action : Action} (hc : Consistent s)
    (hn : Numbered s) (hstep : serverStep s action = some s') : Numbered s' := by
  cases moves_of_serverStep hstep with
  | accept fd fds haccept =>
      refine ⟨hn.ids, hn.listed, hn.logged, hn.queued, hn.unique, hn.audience,
        fun message hmessage conn hfound => ?_, fun id conn hsent => ?_⟩
      · change conn < fds.nextConn
        rw [nextConn_of_accept haccept]
        exact Nat.lt_succ_of_lt (hn.found message hmessage conn hfound)
      · change conn < fds.nextConn
        rw [nextConn_of_accept haccept]
        exact Nat.lt_succ_of_lt (hn.sent id conn hsent)
  | insert fds hinsert hunlocked =>
      obtain ⟨fd, _, rfl⟩ := insert_eq_some hinsert
      exact ⟨hn.ids, hn.listed, hn.logged, hn.queued, hn.unique, hn.audience, hn.found, hn.sent⟩
  | stdin setrd setwd input hselected hready =>
      obtain ⟨ids, listed, logged, queued, unique, audience, found, sent⟩ :=
        @numbered_queueMessage s input hc.fds hn
      exact ⟨ids, listed, logged, queued, unique, audience, found, sent⟩
  | visit setrd setwd fd rest conn visit s' sent hplace hconn hvisited =>
      exact numbered_visit hc.fds hn hconn hvisited
  | purge hplace =>
      obtain ⟨ids, listed, logged, queued, unique, audience, found, sent⟩ := numbered_purge hn
      exact ⟨ids, listed, logged, queued, unique, audience, found, sent⟩
  | _ => exact ⟨hn.ids, hn.listed, hn.logged, hn.queued, hn.unique, hn.audience, hn.found, hn.sent⟩

theorem tally_serverStep {s s' : Server} {action : Action} (hc : Consistent s) (hn : Numbered s)
    (ht : Tally s) (hstep : serverStep s action = some s') : Tally s' := by
  cases moves_of_serverStep hstep with
  | accept fd fds haccept =>
      refine ⟨ht.count, fun message hmessage hdue fd' conn hopen => ?_⟩
      rcases (open_of_accept_iff haccept).mp hopen with ⟨_, rfl⟩ | ⟨_, hold⟩
      · refine iff_of_false (fun hfound => ?_) fun hgot => ?_
        · exact Nat.lt_irrefl _ (hn.found message hmessage _ hfound)
        · exact Nat.lt_irrefl _ (hn.sent message.id _ hgot)
      · exact ht.found message hmessage hdue fd' conn hold
  | insert fds hinsert hunlocked =>
      obtain ⟨fd, _, rfl⟩ := insert_eq_some hinsert
      exact ⟨ht.count, ht.found⟩
  | stdin setrd setwd input hselected hready =>
      obtain ⟨count, found⟩ := @tally_queueMessage s input hc.fds hn ht
      exact ⟨count, found⟩
  | visit setrd setwd fd rest conn visit s' sent hplace hconn hvisited =>
      exact tally_visit hc.fds hn ht hconn hvisited
  | purge hplace =>
      obtain ⟨count, found⟩ := tally_purge ht
      exact ⟨count, found⟩
  | _ => exact ⟨ht.count, ht.found⟩

theorem exactlyOnce_serverStep {s s' : Server} {action : Action} (hn : Numbered s) (ht : Tally s)
    (he : ExactlyOnce s) (hcond : FoundOnce s action) (hstep : serverStep s action = some s') :
    ExactlyOnce s' := by
  cases moves_of_serverStep hstep with
  | stdin setrd setwd input hselected hready =>
      obtain ⟨once, intended, removed⟩ := @exactlyOnce_queueMessage s input he
      exact ⟨once, intended, removed⟩
  | visit setrd setwd fd rest conn visit s' sent hplace hconn hvisited =>
      exact exactlyOnce_visit hn ht he hcond hplace hconn hvisited
  | purge hplace =>
      obtain ⟨once, intended, removed⟩ := exactlyOnce_purge hn ht he
      exact ⟨once, intended, removed⟩
  | _ => exact ⟨he.once, he.intended, he.removed⟩

theorem foundOnce_of_exactlyOnce {s s' : Server} {action : Action} (hc : Consistent s)
    (hn : Numbered s) (ht : Tally s) (hstep : serverStep s action = some s')
    (he' : ExactlyOnce s') : FoundOnce s action := by
  have hn' := numbered_serverStep hc hn hstep
  cases moves_of_serverStep hstep with
  | visit setrd setwd fd rest conn visit s' sent hplace hconn hvisited =>
      intro setrd' setwd' fd' rest' conn' hplace' hconn' message hsends
      rw [hplace] at hplace'
      obtain ⟨rfl, rfl, hcons⟩ := Place.visiting.inj hplace'
      obtain ⟨rfl, rfl⟩ := List.cons.inj hcons
      obtain rfl := Option.some.inj (hconn.symm.trans hconn')
      exact foundOnce_visit hn hn' ht he' hconn hvisited hsends
  | _ => trivial

theorem numbered_start : Numbered Server.start where
  ids := List.nodup_nil
  listed := fun _ hmessage => absurd hmessage List.not_mem_nil
  logged := fun _ hevent => absurd hevent List.not_mem_nil
  queued := fun _ hmessage => absurd hmessage List.not_mem_nil
  unique := fun _ _ _ hevent => absurd hevent List.not_mem_nil
  audience := fun _ hmessage => absurd hmessage List.not_mem_nil
  found := fun _ hmessage => absurd hmessage List.not_mem_nil
  sent := fun _ _ hsent => absurd hsent List.not_mem_nil

theorem tally_start : Tally Server.start where
  count := fun _ hmessage => absurd hmessage List.not_mem_nil
  found := fun _ hmessage => absurd hmessage List.not_mem_nil

theorem exactlyOnce_start : ExactlyOnce Server.start where
  once := fun _ => List.nodup_nil
  intended := fun _ _ hsent => absurd hsent List.not_mem_nil
  removed := fun _ _ hremoved => absurd hremoved List.not_mem_nil

/-- In a run of the server every message is sent once to each connection of its
audience exactly if every message that is sent is sent to a connection of its
audience, and to none that was found writable before while it was queued. -/
theorem exactlyOnce_iff (actions : List Action) :
    EveryState serverStep ExactlyOnce .start actions ↔
      EveryStep serverStep FoundOnce .start actions := by
  have hexact := @everyState_iff_everyStep _ _ serverStep
    (fun s => Consistent s ∧ Numbered s ∧ Tally s ∧ ExactlyOnce s) ExactlyOnce FoundOnce .start
    ⟨consistent_start, numbered_start, tally_start, exactlyOnce_start⟩ (fun _ hs => hs.2.2.2)
    (fun _ _ _ hs hcond hstep =>
      ⟨consistent_serverStep hs.1 hstep, numbered_serverStep hs.1 hs.2.1 hstep,
        tally_serverStep hs.1 hs.2.1 hs.2.2.1 hstep,
        exactlyOnce_serverStep hs.2.1 hs.2.2.1 hs.2.2.2 hcond hstep⟩)
    (fun _ _ _ hs hstep hs' => foundOnce_of_exactlyOnce hs.1 hs.2.1 hs.2.2.1 hstep hs')
  exact hexact actions

/-- Two clients and one message; only the first client is writable, in two passes. -/
def repeatSchedule (input : Bytes) : List Action :=
  [.accept 5, .insert, .accept 6, .insert,
    .select [STDIN_FILENO] [5], .stdin input, .lock,
    .visit { sends := fun _ => 2, recv := 0 }, .visit { sends := fun _ => 2, recv := 0 },
    .unlock, .purge,
    .select [] [5], .stdin [], .lock, .visit { sends := fun _ => 2, recv := 0 }]

def twoClients : Server where
  fds :=
    { accepted := [5, 6]
      incoming := none
      table := Function.update (Function.update (fun _ => none) 5 (some 0)) 6 (some 1)
      nextConn := 2 }
  queMsgs := []
  place := .idle
  nextId := 0
  log := []

theorem run_repeatSchedule {input : Bytes} (hinput : input.length ≤ bufferSize) :
    ∃ s' bytes, run serverStep .start (repeatSchedule input) = some s' ∧
      s'.log = [.queued 0 [0, 1], .sent 0 0 bytes, .sent 0 0 bytes] := by
  have haccepted : run serverStep .start [.accept 5, .insert, .accept 6, .insert] =
      some twoClients := rfl
  have hqueued : run serverStep twoClients [.select [STDIN_FILENO] [5], .stdin input, .lock] =
      some { queueMessage twoClients input with
        place := .visiting [STDIN_FILENO] [5] [5, 6] } := by
    simp [serverStep, twoClients, queueMessage, hinput]
  have hpasses : repeatSchedule input =
      [.accept 5, .insert, .accept 6, .insert] ++
        ([.select [STDIN_FILENO] [5], .stdin input, .lock] ++
          [.visit { sends := fun _ => 2, recv := 0 }, .visit { sends := fun _ => 2, recv := 0 },
            .unlock, .purge,
            .select [] [5], .stdin [], .lock, .visit { sends := fun _ => 2, recv := 0 }]) := rfl
  rw [hpasses, run_append, haccepted, Option.bind_some, run_append, hqueued, Option.bind_some]
  simp [serverStep, twoClients, Descriptors.conns, queueMessage, purge, visitFd, writeBranch,
    readBranch, closeBranch, sendLoop, Message.foundBy, sentEvent, STDIN_FILENO]

theorem message_sent_twice :
    ∃ s', run serverStep .start (repeatSchedule (literal "hi")) = some s' ∧
      deliveredTo 0 s'.log = [0, 0] ∧ ¬ ExactlyOnce s' := by
  obtain ⟨s', bytes, hrun, hlog⟩ := @run_repeatSchedule (literal "hi") (by decide)
  have htwice : deliveredTo 0 s'.log = [0, 0] := by
    rw [hlog]
    rfl
  refine ⟨s', hrun, htwice, fun h => ?_⟩
  have honce := h.once 0
  rw [htwice] at honce
  exact absurd honce (by decide)

end StudyLinuxKernel.Broadcast.Delivery
