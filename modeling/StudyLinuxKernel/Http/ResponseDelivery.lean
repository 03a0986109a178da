import StudyLinuxKernel.Http.ResponseIsolation

namespace StudyLinuxKernel.Http.ResponseDelivery

open StudyLinuxKernel.Http.Response
open StudyLinuxKernel.Http.ResponseIsolation
open StudyLinuxKernel.Http.SelectServer
open StudyLinuxKernel.Http.Text
open StudyLinuxKernel.Libc.Text
open StudyLinuxKernel.Library.PartialStep
open StudyLinuxKernel.Socket.AcceptedSet

def bytesOn (conn : Nat) : Event → Bytes
  | .sent conn' _ bytes => if conn' = conn then bytes else []
  | _ => []

def responseTo (conn : Nat) : Event → List Bytes
  | .request conn' response => if conn' = conn then [response] else []
  | _ => []

/-- The bytes that `send` took on a connection. -/
def sentOn (conn : Nat) (log : List Event) : Bytes := log.flatMap (bytesOn conn)

/-- The responses to the requests that were read from a connection. -/
def responsesTo (conn : Nat) (log : List Event) : List Bytes :=
  log.flatMap (responseTo conn)

/-- On a connection that was closed after something had been sent on it, all
responses were sent and nothing else. -/
def Complete (s : Server) : Prop :=
  ∀ conn, Event.closed conn ∈ s.log → sentOn conn s.log ≠ [] →
    sentOn conn s.log = (responsesTo conn s.log).flatten

/-- A visit that sends something sends all that is listed for the descriptor,
each response whole, and reads no request; and what is listed are responses for
the connection itself. -/
def SendsWhole (s : Server) : Action → Prop
  | .visit visit => ∀ setrd setwd fd rest, s.place = .visiting setrd setwd (fd :: rest) →
      Answers s setwd fd visit →
      (∀ entry ∈ pendingOf fd s.listMsgs, s.fds.table fd = some entry.origin) ∧
      (∀ k entry, (pendingOf fd s.listMsgs)[k]? = some entry →
        visit.sends k = some entry.response.length) ∧
      readRequests setrd fd visit = []
  | _ => True

/-- A new connection gets a number for which nothing is listed. -/
def FreshNumber (s : Server) : Action → Prop
  | .accept fd => ∀ entry ∈ s.listMsgs, entry.fd ≠ fd
  | _ => True

/-- What holds in all runs about the connections that are open: nothing was sent
on them, and the answers to all their requests are listed. -/
structure Ledger (s : Server) : Prop where
  silent : ∀ fd conn, s.fds.table fd = some conn → sentOn conn s.log = []
  unclosed : ∀ fd conn, s.fds.table fd = some conn → Event.closed conn ∉ s.log
  queued : ∀ fd conn, s.fds.table fd = some conn →
    (s.listMsgs.filter (·.origin = conn)).map Pending.response = responsesTo conn s.log
  own : ∀ fd conn, s.fds.table fd = some conn → ∀ entry ∈ s.listMsgs, entry.origin = conn →
    entry.fd = fd
  whole : ∀ entry ∈ s.listMsgs, entry.response ≠ [] ∧ cStr entry.response = entry.response
  logged : ∀ event ∈ s.log, event.conn < s.fds.nextConn
  listed : ∀ entry ∈ s.listMsgs, entry.origin < s.fds.nextConn

def NoStale (s : Server) : Prop :=
  ∀ entry ∈ s.listMsgs, ∀ conn, s.fds.table entry.fd = some conn → entry.origin = conn

theorem sentOn_append (conn : Nat) (log log' : List Event) :
    sentOn conn (log ++ log') = sentOn conn log ++ sentOn conn log' :=
  List.flatMap_append

theorem responsesTo_append (conn : Nat) (log log' : List Event) :
    responsesTo conn (log ++ log') = responsesTo conn log ++ responsesTo conn log' :=
  List.flatMap_append

theorem sentOn_eq_nil {conn : Nat} {log : List Event}
    (h : ∀ event ∈ log, bytesOn conn event = []) : sentOn conn log = [] :=
  List.flatMap_eq_nil_iff.mpr h

theorem responsesTo_eq_nil {conn : Nat} {log : List Event}
    (h : ∀ event ∈ log, responseTo conn event = []) : responsesTo conn log = [] :=
  List.flatMap_eq_nil_iff.mpr h

theorem bytesOn_of_ne {conn : Nat} {event : Event} (h : event.conn ≠ conn) :
    bytesOn conn event = [] := by
  cases event with
  | request => rfl
  | sent => exact if_neg h
  | closed => rfl

theorem responseTo_of_ne {conn : Nat} {event : Event} (h : event.conn ≠ conn) :
    responseTo conn event = [] := by
  cases event with
  | request => exact if_neg h
  | sent => rfl
  | closed => rfl

theorem log_of_visited {s s' : Server} {setrd setwd : List Nat} {fd conn : Nat} {visit : Visit}
    {kept : List Pending} {sent : List (Pending × Nat)}
    (h : Visited s s' setrd setwd fd conn visit kept sent) :
    ∃ last, s'.log = s.log ++ (sent.map (sentEvent conn) ++
        ((readRequests setrd fd visit).map (.request conn) ++ last)) ∧
      (last = [] ∨ last = [.closed conn]) := by
  rcases Classical.em (sent ≠ [] ∨ RecvFails setrd fd visit) with hcloses | hstays
  · refine ⟨[.closed conn], ?_, Or.inr rfl⟩
    rw [(h.closes hcloses).2, List.append_assoc, List.append_assoc]
  · have hnothing : sent = [] := Classical.not_not.mp fun hne => hstays (Or.inl hne)
    refine ⟨[], ?_, Or.inl rfl⟩
    rw [(h.stays hstays).2, hnothing, List.map_nil, List.append_nil, List.nil_append]

theorem conn_of_visited {conn : Nat} {sent : List (Pending × Nat)} {requests : List Bytes}
    {last : List Event} (hlast : last = [] ∨ last = [.closed conn]) :
    ∀ event ∈ sent.map (sentEvent conn) ++ (requests.map (.request conn) ++ last),
      event.conn = conn := by
  intro event hevent
  rcases List.mem_append.mp hevent with hevent | hevent
  · obtain ⟨entry, _, rfl⟩ := List.mem_map.mp hevent
    rfl
  · rcases List.mem_append.mp hevent with hevent | hevent
    · obtain ⟨response, _, rfl⟩ := List.mem_map.mp hevent
      rfl
    · rcases hlast with rfl | rfl
      · exact absurd hevent List.not_mem_nil
      · rw [List.mem_singleton.mp hevent]
        rfl

theorem sentOn_visited {conn : Nat} {sent : List (Pending × Nat)} {requests : List Bytes}
    {last : List Event} (hlast : last = [] ∨ last = [.closed conn]) :
    sentOn conn (sent.map (sentEvent conn) ++ (requests.map (.request conn) ++ last)) =
      sent.flatMap fun entry => (cStr entry.1.response).take entry.2 := by
  have hrequests : sentOn conn (requests.map (.request conn)) = [] := by
    apply sentOn_eq_nil
    intro event hevent
    obtain ⟨response, _, rfl⟩ := List.mem_map.mp hevent
    rfl
  have hend : sentOn conn last = [] := by
    rcases hlast with rfl | rfl
    · rfl
    · rfl
  rw [sentOn_append, sentOn_append, hrequests, hend, List.append_nil, List.append_nil, sentOn,
    List.flatMap_map]
  apply List.flatMap_congr
  intro entry _
  exact if_pos rfl

theorem responsesTo_visited {conn : Nat} {sent : List (Pending × Nat)} {requests : List Bytes}
    {last : List Event} (hlast : last = [] ∨ last = [.closed conn]) :
    responsesTo conn (sent.map (sentEvent conn) ++ (requests.map (.request conn) ++ last)) =
      requests := by
  have hsent : responsesTo conn (sent.map (sentEvent conn)) = [] := by
    apply responsesTo_eq_nil
    intro event hevent
    obtain ⟨entry, _, rfl⟩ := List.mem_map.mp hevent
    rfl
  have hend : responsesTo conn last = [] := by
    rcases hlast with rfl | rfl
    · rfl
    · rfl
  rw [responsesTo_append, responsesTo_append, hsent, hend, List.nil_append, List.append_nil,
    responsesTo, List.flatMap_map]
  have hone : ∀ response ∈ requests,
      responseTo conn (.request conn response) = [response] := fun _ _ => if_pos rfl
  rw [List.flatMap_congr hone]
  exact List.flatMap_singleton' requests

theorem logs_of_ne {conn conn' : Nat} {log added : List Event} (hne : conn' ≠ conn)
    (h : ∀ event ∈ added, event.conn = conn) :
    sentOn conn' (log ++ added) = sentOn conn' log ∧
      responsesTo conn' (log ++ added) = responsesTo conn' log := by
  have hapart : ∀ event ∈ added, event.conn ≠ conn' := fun event hevent hsame =>
    hne (hsame.symm.trans (h event hevent))
  rw [sentOn_append, responsesTo_append,
    sentOn_eq_nil fun event hevent => bytesOn_of_ne (hapart event hevent),
    responsesTo_eq_nil fun event hevent => responseTo_of_ne (hapart event hevent),
    List.append_nil, List.append_nil]
  exact ⟨rfl, rfl⟩

theorem filter_of_imp {α : Type*} {p q : α → Bool} {l : List α}
    (h : ∀ x ∈ l, p x = true → q x = true) : l.filter p = (l.filter q).filter p := by
  rw [List.filter_filter]
  apply List.filter_congr
  intro x hx
  cases hp : p x with
  | false => rfl
  | true => rw [h x hx hp, Bool.and_self]

theorem filter_kept_of_ne {s s' : Server} {setrd setwd : List Nat} {fd fd' conn conn' : Nat}
    {visit : Visit} {kept : List Pending} {sent : List (Pending × Nat)}
    (h : Visited s s' setrd setwd fd conn visit kept sent) (hfd : fd' ≠ fd)
    (hown : ∀ entry ∈ s.listMsgs, entry.origin = conn' → entry.fd = fd') :
    kept.filter (·.origin = conn') = s.listMsgs.filter (·.origin = conn') := by
  rcases Decidable.em (fd ∈ setwd) with hmem | hmem
  · have hsending := h.writable hmem
    have hother : ∀ entry ∈ s.listMsgs, decide (entry.origin = conn') = true →
        decide (entry.fd ≠ fd) = true := by
      intro entry hentry horigin
      rw [decide_eq_true_eq, hown entry hentry (of_decide_eq_true horigin)]
      exact hfd
    rw [filter_of_imp hother,
      filter_of_imp fun entry hentry => hother entry (hsending.subset hentry), hsending.others]
  · rw [(h.notWritable hmem).1]

theorem filter_kept_of_stays {s s' : Server} {setrd setwd : List Nat} {fd conn : Nat}
    {visit : Visit} {kept : List Pending}
    (h : Visited s s' setrd setwd fd conn visit kept [])
    (hown : ∀ entry ∈ s.listMsgs, entry.origin = conn → entry.fd = fd) :
    kept.filter (·.origin = conn) = s.listMsgs.filter (·.origin = conn) := by
  rcases Decidable.em (fd ∈ setwd) with hmem | hmem
  · have hsending := h.writable hmem
    have hsame : ∀ entry ∈ s.listMsgs, decide (entry.origin = conn) = true →
        decide (entry.fd = fd) = true := fun entry hentry horigin =>
      decide_eq_true (hown entry hentry (of_decide_eq_true horigin))
    have hpending := hsending.pending
    rw [List.map_nil, List.nil_append, pendingOf, pendingOf] at hpending
    rw [filter_of_imp hsame,
      filter_of_imp fun entry hentry => hsame entry (hsending.subset hentry), hpending]
  · rw [(h.notWritable hmem).1]

section Visits

variable {s s' : Server} {setrd setwd rest : List Nat} {fd conn : Nat} {visit : Visit}
  {kept : List Pending} {sent : List (Pending × Nat)}

theorem nextConn_of_visited
    (h : Visited { s with place := .visiting setrd setwd rest } s' setrd setwd fd conn visit kept
      sent) : s'.fds.nextConn = s.fds.nextConn :=
  nextConn_of_visit (fun hcloses => (h.closes hcloses).1) fun hstays => (h.stays hstays).1

theorem open_of_visited (hsound : Sound s.fds) (hconn : s.fds.table fd = some conn)
    (h : Visited { s with place := .visiting setrd setwd rest } s' setrd setwd fd conn visit kept
      sent) {fd' conn' : Nat} (hopen : s'.fds.table fd' = some conn') :
    s.fds.table fd' = some conn' ∧
      (conn' = conn → ¬ (sent ≠ [] ∨ RecvFails setrd fd visit)) :=
  open_of_visit (fun hcloses => (h.closes hcloses).1)
    (fun hstays => (h.stays hstays).1) hsound hconn hopen

theorem mem_listMsgs_of_visited
    (h : Visited { s with place := .visiting setrd setwd rest } s' setrd setwd fd conn visit kept
      sent) {entry : Pending} (hentry : entry ∈ s'.listMsgs) : entry ∈ s.listMsgs ∨
      entry.fd = fd ∧ entry.origin = conn ∧ entry.response ∈ readRequests setrd fd visit := by
  rw [h.listMsgs, List.mem_append] at hentry
  apply hentry.imp (fun hentry => kept_subset h hentry)
  intro hentry
  obtain ⟨response, hresponse, rfl⟩ := List.mem_map.mp hentry
  exact ⟨rfl, rfl, hresponse⟩

theorem filter_requests_self (requests : List Bytes) :
    ((requests.map fun response => ({ fd, response, origin := conn } : Pending)).filter
      (·.origin = conn)).map Pending.response = requests := by
  rw [List.filter_eq_self.mpr, List.map_map]
  · exact List.map_id _
  · intro entry hentry
    obtain ⟨response, _, rfl⟩ := List.mem_map.mp hentry
    exact decide_eq_true rfl

theorem filter_requests_of_ne {conn' : Nat} (hne : conn' ≠ conn) (requests : List Bytes) :
    (requests.map fun response => ({ fd, response, origin := conn } : Pending)).filter
      (·.origin = conn') = [] := by
  apply List.filter_eq_nil_iff.mpr
  intro entry hentry horigin
  obtain ⟨response, _, rfl⟩ := List.mem_map.mp hentry
  exact hne (of_decide_eq_true horigin).symm

theorem account_of_visited (hsound : Sound s.fds) (h : Ledger s)
    (hconn : s.fds.table fd = some conn)
    (hvisited : Visited { s with place := .visiting setrd setwd rest } s' setrd setwd fd conn
      visit kept sent) {fd' conn' : Nat} (hopen : s'.fds.table fd' = some conn') :
    sentOn conn' s'.log = [] ∧ Event.closed conn' ∉ s'.log ∧
      (s'.listMsgs.filter (·.origin = conn')).map Pending.response =
        responsesTo conn' s'.log := by
  obtain ⟨hbefore, hstays⟩ := open_of_visited hsound hconn hvisited hopen
  have hsilent : sentOn conn' s.log = [] := h.silent fd' conn' hbefore
  have hunclosed : Event.closed conn' ∉ s.log := h.unclosed fd' conn' hbefore
  have hqueued : (s.listMsgs.filter (·.origin = conn')).map Pending.response =
      responsesTo conn' s.log := h.queued fd' conn' hbefore
  have hown := h.own fd' conn' hbefore
  rcases eq_or_ne conn' conn with rfl | hne
  · have hstays := hstays rfl
    obtain rfl : sent = [] := Classical.not_not.mp fun hne => hstays (Or.inl hne)
    obtain rfl := hsound.distinct fd' fd conn' hbefore hconn
    have hlog : s'.log = s.log ++ (readRequests setrd fd' visit).map (.request conn') :=
      (hvisited.stays hstays).2
    have hnothing := @sentOn_visited conn' [] (readRequests setrd fd' visit) [] (Or.inl rfl)
    have hrequests := @responsesTo_visited conn' [] (readRequests setrd fd' visit) [] (Or.inl rfl)
    rw [List.map_nil, List.nil_append, List.append_nil] at hnothing hrequests
    rw [hlog, hvisited.listMsgs]
    refine ⟨?_, fun hclosed => ?_, ?_⟩
    · rw [sentOn_append, hsilent, hnothing]
      rfl
    · rcases List.mem_append.mp hclosed with hclosed | hclosed
      · exact hunclosed hclosed
      · obtain ⟨response, _, hevent⟩ := List.mem_map.mp hclosed
        cases hevent
    · rw [List.filter_append, List.map_append, filter_requests_self, responsesTo_append, hrequests,
        filter_kept_of_stays hvisited hown]
      exact congrArg (· ++ _) hqueued
  · obtain ⟨last, hlog, hlast⟩ := log_of_visited hvisited
    replace hlog : s'.log = s.log ++ _ := hlog
    have hadded := @conn_of_visited conn sent (readRequests setrd fd visit) last hlast
    have hfd : fd' ≠ fd := by
      rintro rfl
      exact hne (Option.some.inj (hbefore.symm.trans hconn))
    obtain ⟨hsentOn, hresponses⟩ := @logs_of_ne conn conn' s.log _ hne hadded
    rw [hlog]
    refine ⟨hsentOn.trans hsilent, fun hclosed => ?_, ?_⟩
    · rcases List.mem_append.mp hclosed with hclosed | hclosed
      · exact hunclosed hclosed
      · exact hne (hadded _ hclosed)
    · rw [hvisited.listMsgs, List.filter_append, filter_requests_of_ne hne, List.append_nil,
        filter_kept_of_ne hvisited hfd hown, hresponses]
      exact hqueued

theorem ledger_visit (hsound : Sound s.fds) (h : Ledger s) (hconn : s.fds.table fd = some conn)
    (hvisited : Visited { s with place := .visiting setrd setwd rest } s' setrd setwd fd conn
      visit kept sent) : Ledger s' := by
  have hnextConn : s'.fds.nextConn = s.fds.nextConn := nextConn_of_visited hvisited
  have hconnLt := hsound.fresh fd conn hconn
  refine ⟨fun fd' conn' hopen => (account_of_visited hsound h hconn hvisited hopen).1,
    fun fd' conn' hopen => (account_of_visited hsound h hconn hvisited hopen).2.1,
    fun fd' conn' hopen => (account_of_visited hsound h hconn hvisited hopen).2.2,
    fun fd' conn' hopen entry hentry horigin => ?_, fun entry hentry => ?_,
    fun event hevent => ?_, fun entry hentry => ?_⟩
  · have hbefore : s.fds.table fd' = some conn' := (open_of_visited hsound hconn hvisited hopen).1
    rcases mem_listMsgs_of_visited hvisited hentry with hold | ⟨hfd, hconn', _⟩
    · exact h.own fd' conn' hbefore entry hold horigin
    · rw [hfd]
      apply hsound.distinct fd fd' conn hconn
      rw [hbefore, ← horigin, hconn']
  · rcases mem_listMsgs_of_visited hvisited hentry with hold | ⟨_, _, hresponse⟩
    · exact h.whole entry hold
    · obtain ⟨received, hreceived⟩ := mem_readRequests hresponse
      rw [hreceived]
      exact ⟨received.response_ne_nil, received.cStr_response⟩
  · obtain ⟨last, hlog, hlast⟩ := log_of_visited hvisited
    rw [hlog, List.mem_append] at hevent
    rw [hnextConn]
    rcases hevent with hevent | hevent
    · exact h.logged event hevent
    · rw [conn_of_visited hlast event hevent]
      exact hconnLt
  · rw [hnextConn]
    rcases mem_listMsgs_of_visited hvisited hentry with hold | ⟨_, hconn', _⟩
    · exact h.listed entry hold
    · rw [hconn']
      exact hconnLt

end Visits

theorem ledger_accept {s : Server} {fd : Nat} {fds : Descriptors} (h : Ledger s)
    (haccept : s.fds.accept fd = some fds) : Ledger { s with fds := fds } := by
  have hnone : ∀ event ∈ s.log, event.conn ≠ s.fds.nextConn := fun event hevent =>
    Nat.ne_of_lt (h.logged event hevent)
  have hunlisted : ∀ entry ∈ s.listMsgs, entry.origin ≠ s.fds.nextConn := fun entry hentry =>
    Nat.ne_of_lt (h.listed entry hentry)
  refine ⟨fun fd' conn hopen => ?_, fun fd' conn hopen => ?_, fun fd' conn hopen => ?_,
    fun fd' conn hopen => ?_, h.whole, fun event hevent => ?_, fun entry hentry => ?_⟩
  · rcases (open_of_accept_iff haccept).mp hopen with ⟨_, rfl⟩ | ⟨_, hold⟩
    · exact sentOn_eq_nil fun event hevent => bytesOn_of_ne (hnone event hevent)
    · exact h.silent fd' conn hold
  · rcases (open_of_accept_iff haccept).mp hopen with ⟨_, rfl⟩ | ⟨_, hold⟩
    · exact fun hclosed => hnone _ hclosed rfl
    · exact h.unclosed fd' conn hold
  · rcases (open_of_accept_iff haccept).mp hopen with ⟨_, rfl⟩ | ⟨_, hold⟩
    · have hempty : s.listMsgs.filter (·.origin = s.fds.nextConn) = [] :=
        List.filter_eq_nil_iff.mpr fun entry hentry horigin =>
          hunlisted entry hentry (of_decide_eq_true horigin)
      change (s.listMsgs.filter _).map _ = responsesTo _ s.log
      rw [hempty, responsesTo_eq_nil fun event hevent => responseTo_of_ne (hnone event hevent)]
      rfl
    · exact h.queued fd' conn hold
  · rcases (open_of_accept_iff haccept).mp hopen with ⟨_, rfl⟩ | ⟨_, hold⟩
    · exact fun entry hentry horigin => absurd horigin (hunlisted entry hentry)
    · exact h.own fd' conn hold
  · change event.conn < fds.nextConn
    rw [nextConn_of_accept haccept]
    exact Nat.lt_succ_of_lt (h.logged event hevent)
  · change entry.origin < fds.nextConn
    rw [nextConn_of_accept haccept]
    exact Nat.lt_succ_of_lt (h.listed entry hentry)

theorem ledger_serverStep {s s' : Server} {action : Action} (hsound : Consistent s) (h : Ledger s)
    (hstep : serverStep s action = some s') : Ledger s' := by
  cases moves_of_serverStep hstep with
  | accept fd fds haccept => exact ledger_accept h haccept
  | insert fds hinsert hunlocked =>
      obtain ⟨fd, _, rfl⟩ := insert_eq_some hinsert
      exact ⟨h.silent, h.unclosed, h.queued, h.own, h.whole, h.logged, h.listed⟩
  | select setrd setwd hidle =>
      exact ⟨h.silent, h.unclosed, h.queued, h.own, h.whole, h.logged, h.listed⟩
  | lock setrd setwd hselected =>
      exact ⟨h.silent, h.unclosed, h.queued, h.own, h.whole, h.logged, h.listed⟩
  | visit setrd setwd fd rest conn visit s' kept sent hplace hconn hvisited =>
      exact ledger_visit hsound.fds h hconn hvisited
  | unlock setrd setwd hplace =>
      exact ⟨h.silent, h.unclosed, h.queued, h.own, h.whole, h.logged, h.listed⟩

theorem ledger_start : Ledger Server.start where
  silent := fun _ _ htable => nomatch htable
  unclosed := fun _ _ htable => nomatch htable
  queued := fun _ _ htable => nomatch htable
  own := fun _ _ htable => nomatch htable
  whole := fun _ hentry => absurd hentry List.not_mem_nil
  logged := fun _ hevent => absurd hevent List.not_mem_nil
  listed := fun _ hentry => absurd hentry List.not_mem_nil

theorem logs_of_visited {s s' : Server} {setrd setwd rest : List Nat} {fd conn : Nat}
    {visit : Visit} {kept : List Pending} {sent : List (Pending × Nat)} (h : Ledger s)
    (hconn : s.fds.table fd = some conn)
    (hvisited : Visited { s with place := .visiting setrd setwd rest } s' setrd setwd fd conn
      visit kept sent) :
    sentOn conn s'.log = (sent.flatMap fun entry => entry.1.response.take entry.2) ∧
      responsesTo conn s'.log = (s.listMsgs.filter (·.origin = conn)).map Pending.response ++
        readRequests setrd fd visit := by
  obtain ⟨last, hlog, hlast⟩ := log_of_visited hvisited
  rw [hlog, sentOn_append, responsesTo_append, sentOn_visited hlast, responsesTo_visited hlast]
  refine ⟨?_, congrArg (· ++ _) (h.queued fd conn hconn).symm⟩
  have hsilent : sentOn conn s.log = [] := h.silent fd conn hconn
  change sentOn conn s.log ++ _ = _
  rw [hsilent, List.nil_append]
  apply List.flatMap_congr
  intro entry hentry
  rw [(h.whole entry.1 (mem_of_sent hvisited hentry).1).2]

theorem pendingOf_eq_filter {s : Server} {fd conn : Nat} (h : Ledger s)
    (hconn : s.fds.table fd = some conn)
    (hfresh : ∀ entry ∈ pendingOf fd s.listMsgs, s.fds.table fd = some entry.origin) :
    pendingOf fd s.listMsgs = s.listMsgs.filter (·.origin = conn) := by
  apply List.filter_congr
  intro entry hentry
  rw [decide_eq_decide]
  constructor
  · intro hfd
    have horigin := hfresh entry (List.mem_filter.mpr ⟨hentry, decide_eq_true hfd⟩)
    exact (Option.some.inj (hconn.symm.trans horigin)).symm
  · exact h.own fd conn hconn entry hentry

/-- Where every send takes all bytes, a visit that sends something sends all that
is listed for the descriptor. -/
theorem sent_whole {s s' : Server} {setrd setwd rest : List Nat} {fd conn : Nat}
    {visit : Visit} {kept : List Pending} {sent : List (Pending × Nat)}
    (hvisited : Visited { s with place := .visiting setrd setwd rest } s' setrd setwd fd conn
      visit kept sent) (hmem : fd ∈ setwd)
    (hcounts : ∀ k entry, (pendingOf fd s.listMsgs)[k]? = some entry →
      visit.sends k = some entry.response.length) :
    (sent.flatMap fun entry => entry.1.response.take entry.2) =
      ((pendingOf fd s.listMsgs).map Pending.response).flatten := by
  have hsending : Sending fd visit.sends 0 s.listMsgs kept sent := hvisited.writable hmem
  have hall : pendingOf fd kept = [] := by
    refine (pendingOf_kept_eq_nil_iff hvisited).mpr (Or.inr ⟨hmem, fun k hk => ?_⟩)
    rw [hcounts k _ (List.getElem?_eq_getElem hk)]
    exact Option.some_ne_none _
  have hpending := hsending.pending
  rw [hall, List.append_nil] at hpending
  have htake : ∀ entry ∈ sent,
      entry.1.response.take entry.2 = entry.1.response := by
    intro entry hentry
    obtain ⟨k, hk⟩ := List.mem_iff_getElem?.mp hentry
    have hk' : (pendingOf fd s.listMsgs)[k]? = some entry.1 := by
      rw [← hpending, List.getElem?_map, hk]
      rfl
    have hcount := (hsending.results k entry.1 entry.2 hk).1
    rw [Nat.zero_add, hcounts k entry.1 hk'] at hcount
    rw [← Option.some.inj hcount, List.take_length]
  rw [List.flatMap_congr htake, ← hpending, List.map_map]
  rfl

theorem complete_visit {s s' : Server} {setrd setwd rest : List Nat} {fd conn : Nat}
    {visit : Visit} {kept : List Pending} {sent : List (Pending × Nat)} (h : Ledger s)
    (hcomplete : Complete s) (hwhole : SendsWhole s (.visit visit))
    (hplace : s.place = .visiting setrd setwd (fd :: rest)) (hconn : s.fds.table fd = some conn)
    (hvisited : Visited { s with place := .visiting setrd setwd rest } s' setrd setwd fd conn
      visit kept sent) : Complete s' := by
  intro conn' hclosed hsent
  obtain ⟨last, hlog, hlast⟩ := log_of_visited hvisited
  have hadded := @conn_of_visited conn sent (readRequests setrd fd visit) last hlast
  rcases eq_or_ne conn' conn with rfl | hne
  · obtain ⟨hsentOn, hresponses⟩ := logs_of_visited h hconn hvisited
    rw [hsentOn] at hsent ⊢
    have hanswers : Answers s setwd fd visit := by
      apply (sent_ne_nil_iff hvisited).mp
      rintro rfl
      exact hsent rfl
    obtain ⟨hfresh, hcounts, hrequests⟩ := hwhole setrd setwd fd rest hplace hanswers
    rw [sent_whole hvisited hanswers.1 hcounts, hresponses, hrequests, List.append_nil,
      ← pendingOf_eq_filter h hconn hfresh]
  · rw [hlog] at hclosed hsent ⊢
    obtain ⟨hsentOn, hresponses⟩ := @logs_of_ne conn conn' s.log _ hne hadded
    rcases List.mem_append.mp hclosed with hclosed | hclosed
    · have hold := hcomplete conn' hclosed
      rw [← hsentOn, ← hresponses] at hold
      exact hold hsent
    · exact absurd (hadded _ hclosed) hne

theorem complete_of_log_eq {s s' : Server} (h : Complete s) (hlog : s'.log = s.log) :
    Complete s' := by
  intro conn
  rw [hlog]
  exact h conn

theorem complete_serverStep {s s' : Server} {action : Action} (h : Ledger s)
    (hcomplete : Complete s) (hwhole : SendsWhole s action)
    (hstep : serverStep s action = some s') : Complete s' := by
  cases moves_of_serverStep hstep with
  | accept fd fds haccept => exact complete_of_log_eq hcomplete rfl
  | insert fds hinsert hunlocked => exact complete_of_log_eq hcomplete rfl
  | select setrd setwd hidle => exact complete_of_log_eq hcomplete rfl
  | lock setrd setwd hselected => exact complete_of_log_eq hcomplete rfl
  | visit setrd setwd fd rest conn visit s' kept sent hplace hconn hvisited =>
      exact complete_visit h hcomplete hwhole hplace hconn hvisited
  | unlock setrd setwd hplace => exact complete_of_log_eq hcomplete rfl

theorem noStale_serverStep {s s' : Server} {action : Action} (hsound : Consistent s)
    (h : NoStale s) (hfresh : FreshNumber s action) (hstep : serverStep s action = some s') :
    NoStale s' := by
  cases moves_of_serverStep hstep with
  | accept fd fds haccept =>
      intro entry hentry conn hopen
      rcases (open_of_accept_iff haccept).mp hopen with ⟨hfd, _⟩ | ⟨_, hold⟩
      · exact absurd hfd (hfresh entry hentry)
      · exact h entry hentry conn hold
  | insert fds hinsert hunlocked =>
      obtain ⟨fd, _, rfl⟩ := insert_eq_some hinsert
      exact h
  | select setrd setwd hidle => exact h
  | lock setrd setwd hselected => exact h
  | visit setrd setwd fd rest conn visit s' kept sent hplace hconn hvisited =>
      intro entry hentry conn' hopen
      have hbefore : s.fds.table entry.fd = some conn' :=
        (open_of_visited hsound.fds hconn hvisited hopen).1
      rcases mem_listMsgs_of_visited hvisited hentry with hold | ⟨hfd, horigin, _⟩
      · exact h entry hold conn' hbefore
      · rw [hfd] at hbefore
        exact horigin.trans (Option.some.inj (hconn.symm.trans hbefore))
  | unlock setrd setwd hplace => exact h

theorem length_takes_le (sent : List (Pending × Nat)) :
    (sent.flatMap fun entry => entry.1.response.take entry.2).length ≤
        ((sent.map Prod.fst).map Pending.response).flatten.length ∧
      ((sent.flatMap fun entry => entry.1.response.take entry.2).length =
        ((sent.map Prod.fst).map Pending.response).flatten.length →
        ∀ entry ∈ sent, entry.1.response.length ≤ entry.2) := by
  induction sent with
  | nil => exact ⟨Nat.le_refl _, fun _ _ hentry => absurd hentry List.not_mem_nil⟩
  | cons entry sent ih =>
      obtain ⟨hle, hall⟩ := ih
      simp only [List.flatMap_cons, List.map_cons, List.flatten_cons, List.length_append,
        List.length_take, List.mem_cons, forall_eq_or_imp]
      refine ⟨by omega, fun heq => ⟨by omega, hall (by omega)⟩⟩

theorem eq_nil_of_length_flatten {responses : List Bytes}
    (h : ∀ response ∈ responses, response ≠ []) (hlength : responses.flatten.length = 0) :
    responses = [] := by
  cases responses with
  | nil => rfl
  | cons response responses =>
      have hpos := List.length_pos_iff.mpr (h response List.mem_cons_self)
      rw [List.flatten_cons, List.length_append] at hlength
      omega

theorem sendsWhole_of_complete {s s' : Server} {action : Action} (h : Ledger s)
    (hstale : NoStale s) (hstep : serverStep s action = some s') (hs' : Complete s') :
    SendsWhole s action := by
  cases moves_of_serverStep hstep with
  | visit setrd setwd fd rest conn visit s' kept sent hplace hconn hvisited =>
      intro setrd' setwd' fd' rest' hplace' hanswers
      rw [hplace] at hplace'
      obtain ⟨rfl, rfl, hcons⟩ := Place.visiting.inj hplace'
      obtain ⟨rfl, rfl⟩ := List.cons.inj hcons
      have hsending : Sending fd visit.sends 0 s.listMsgs kept sent := hvisited.writable hanswers.1
      have hfresh : ∀ entry ∈ pendingOf fd s.listMsgs, s.fds.table fd = some entry.origin := by
        intro entry hentry
        obtain ⟨hlisted, hfd⟩ := List.mem_filter.mp hentry
        obtain rfl := of_decide_eq_true hfd
        rw [hconn, hstale entry hlisted conn hconn]
      obtain ⟨hsentOn, hresponses⟩ := logs_of_visited h hconn hvisited
      rw [← pendingOf_eq_filter h hconn hfresh, ← hsending.pending] at hresponses
      have hsent := (sent_ne_nil_iff hvisited).mpr hanswers
      have hclosed : Event.closed conn ∈ s'.log := by
        rw [(hvisited.closes (Or.inl hsent)).2]
        exact List.mem_append_right _ List.mem_cons_self
      have hnonempty : sentOn conn s'.log ≠ [] := by
        obtain ⟨entry, more, rfl⟩ := List.exists_cons_of_ne_nil hsent
        obtain ⟨_, hpos, _⟩ := hsending.results 0 entry.1 entry.2 rfl
        have hresponse := (h.whole entry.1 (mem_of_sent hvisited List.mem_cons_self).1).1
        rw [hsentOn, List.flatMap_cons, Ne, List.append_eq_nil_iff, List.take_eq_nil_iff]
        rintro ⟨hzero | hempty, _⟩
        · omega
        · exact hresponse hempty
      have hlengths := congrArg List.length (hs' conn hclosed hnonempty)
      rw [hsentOn, hresponses, List.map_append, List.flatten_append, List.flatten_append,
        List.length_append, List.length_append] at hlengths
      obtain ⟨hle, hall⟩ := length_takes_le sent
      have hleft : (pendingOf fd kept).map Pending.response = [] := by
        refine eq_nil_of_length_flatten (fun response hresponse => ?_) (by omega)
        obtain ⟨entry, hentry, rfl⟩ := List.mem_map.mp hresponse
        exact (h.whole entry (kept_subset hvisited (List.mem_filter.mp hentry).1)).1
      have hrequests : readRequests setrd fd visit = [] := by
        refine eq_nil_of_length_flatten (fun response hresponse => ?_) (by omega)
        obtain ⟨received, hreceived⟩ := mem_readRequests hresponse
        rw [hreceived]
        exact received.response_ne_nil
      have hpending := hsending.pending
      rw [List.map_eq_nil_iff.mp hleft, List.append_nil] at hpending
      refine ⟨hfresh, fun k entry hk => ?_, hrequests⟩
      rw [← hpending, List.getElem?_map, Option.map_eq_some_iff] at hk
      obtain ⟨⟨entry', n⟩, hk, rfl⟩ := hk
      obtain ⟨hresult, _, hcount⟩ := hsending.results k entry' n hk
      have hmem : (entry', n) ∈ sent := List.mem_of_getElem? hk
      rw [(h.whole entry' (mem_of_sent hvisited hmem).1).2] at hcount
      have hfull : entry'.response.length ≤ n := hall (by omega) (entry', n) hmem
      rw [Nat.zero_add] at hresult
      rw [hresult, Nat.le_antisymm hcount hfull]
  | accept => trivial
  | insert => trivial
  | select => trivial
  | lock => trivial
  | unlock => trivial

theorem complete_start : Complete Server.start :=
  fun _ hclosed => absurd hclosed List.not_mem_nil

/-- A run in which every sending visit sends whole responses, and all of them,
is complete.  In a run that opens connections only under numbers for which
nothing is listed this is also needed. -/
theorem responses_complete (actions : List Action) :
    (EveryStep serverStep SendsWhole .start actions →
      EveryState serverStep Complete .start actions) ∧
    (EveryStep serverStep FreshNumber .start actions →
      EveryState serverStep Complete .start actions →
      EveryStep serverStep SendsWhole .start actions) := by
  constructor
  · intro hwhole visited hvisited s hreached
    have hinv := @invariant_of_everyStep _ _ serverStep
      (fun s => Consistent s ∧ Ledger s ∧ Complete s) SendsWhole .start actions
      ⟨consistent_start, ledger_start, complete_start⟩
      (fun _ _ _ hs hwhole hstep => ⟨consistent_serverStep hs.1 hstep,
        ledger_serverStep hs.1 hs.2.1 hstep, complete_serverStep hs.2.1 hs.2.2 hwhole hstep⟩)
      hwhole
    exact (hinv visited hvisited s hreached).2.2
  · intro hfresh hcomplete visited action hvisited s s' hreached hstep
    have hinv := @invariant_of_everyStep _ _ serverStep
      (fun s => Consistent s ∧ Ledger s ∧ NoStale s) FreshNumber .start actions
      ⟨consistent_start, ledger_start, fun _ hentry => absurd hentry List.not_mem_nil⟩
      (fun _ _ _ hs hfresh hstep => ⟨consistent_serverStep hs.1 hstep,
        ledger_serverStep hs.1 hs.2.1 hstep, noStale_serverStep hs.1 hs.2.2 hfresh hstep⟩)
      hfresh
    have hbefore : visited <+: actions := (List.prefix_append visited [action]).trans hvisited
    obtain ⟨_, hledger, hstale⟩ := hinv visited hbefore s hreached
    exact sendsWhole_of_complete hledger hstale hstep
      (hcomplete _ hvisited s' (run_concat_eq_some.mpr ⟨s, hreached, hstep⟩))

/-- One client and one request; `send` takes the first byte of the response. -/
def partialSchedule (received : Received) : List Action :=
  [.accept 5, .insert,
    .select [5] [], .lock, .visit { sends := fun _ => none, recv := .got received }, .unlock,
    .select [] [5], .lock, .visit { sends := fun _ => some 1, recv := .failed }]

theorem run_partialSchedule (received : Received) :
    run serverStep .start (partialSchedule received) =
      some
        { fds := { accepted := [], incoming := none, table := fun _ => none, nextConn := 1 }
          listMsgs := []
          place := .visiting [] [5] []
          log := [.request 0 received.response, .sent 0 0 (received.response.take 1),
            .closed 0] } := by
  have hlength : 1 ≤ received.response.length :=
    Nat.le_of_lt received.one_lt_length_response
  have hpasses : partialSchedule received =
      ([.accept 5, .insert] ++ [received].flatMap receivePass) ++
        [.select [] [5], .lock, .visit { sends := fun _ => some 1, recv := .failed }] := rfl
  rw [hpasses, run_append, run_received, Option.bind_some]
  simp [serverStep, holding, Descriptors.close, visitFd, writeBranch, readBranch, closeBranch,
    sendLoop, pendingFor, received.cStr_response, hlength]

theorem response_cut_after_one_byte :
    ∃ s', run serverStep .start (partialSchedule shortRequest) = some s' ∧
      sentOn 0 s'.log = shortRequest.response.take 1 ∧
      responsesTo 0 s'.log = [shortRequest.response] ∧ ¬ Complete s' := by
  have hlength := shortRequest.one_lt_length_response
  refine ⟨_, run_partialSchedule shortRequest, ?_, ?_, fun h => ?_⟩
  · simp [sentOn, bytesOn]
  · simp [responsesTo, responseTo]
  · have hall := h 0 (by simp)
    simp only [sentOn, bytesOn, responsesTo, responseTo, List.flatMap_cons, List.flatMap_nil,
      List.append_nil, List.nil_append, List.flatten_cons, List.flatten_nil, if_true] at hall
    have hcut := congrArg List.length (hall ?_)
    · rw [List.length_take] at hcut
      omega
    · rw [Ne, List.take_eq_nil_iff]
      rintro (hone | hempty)
      · cases hone
      · exact shortRequest.response_ne_nil hempty

end StudyLinuxKernel.Http.ResponseDelivery
