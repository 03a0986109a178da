import StudyLinuxKernel.Fifo.Exchange

namespace StudyLinuxKernel.Fifo.Progress

open StudyLinuxKernel.Fifo.Exchange hiding Sound
open StudyLinuxKernel.Fifo.Protocol
open StudyLinuxKernel.Fifo.Records
open StudyLinuxKernel.Libc.Text
open StudyLinuxKernel.Library.PartialStep

/-- A client ends by `exit` behind its last call, and the server can open a FIFO
that exists. -/
def Regular (s : System) : Action → Prop
  | .vanish pid unlinks =>
      unlinks = true ∧ ∃ client, s.clients pid = some client ∧ client.place = .exiting
  | .serverOpen ok => ok = true
  | _ => True

/-- What a client prints. -/
def answerText (msg : Argument) : Bytes := msg.chars.take (MSG_LEN - 1)

/-- What the server has to do with a client. -/
inductive Status where
  | idle
  | queued
  | opening
  | answering
  | closing
  deriving DecidableEq

def serving : ServerPlace → Option (Request × Status)
  | .reading => none
  | .opening req => some (req, .opening)
  | .answering req => some (req, .answering)
  | .closing req => some (req, .closing)

def statusBehind (waiting : List Request) (pid : UInt32) : Status :=
  if pid ∈ waiting.map Request.pid then .queued else .idle

def statusOf (server : ServerPlace) (waiting : List Request) (pid : UInt32) : Status :=
  match serving server with
  | none => statusBehind waiting pid
  | some (req, status) => if req.pid = pid then status else statusBehind waiting pid

/-- The request has been written, and the FIFO of the client not been opened. -/
def Pending (status : Status) : Prop := status = .queued ∨ status = .opening

/-- The server has dealt with the request, or has only to close the FIFO. -/
def Settled (status : Status) : Prop := status = .idle ∨ status = .closing

instance (status : Status) : Decidable (Settled status) :=
  inferInstanceAs (Decidable (status = .idle ∨ status = .closing))

/-- The FIFO of a client that has not opened it. -/
def Unused (fifo : Option ClientFifo) : Prop := fifo = none ∨ fifo = some .empty

/-- Both have the FIFO open, or the answer is in it. -/
def Served (text : Bytes) (fifo : Option ClientFifo) (status : Status) : Prop :=
  (fifo = some { data := [], reader := true, writer := true, served := true } ∧
      status = .answering) ∨
    ∃ data writer, data.length = responseSize ∧ cStr data = text ∧
      fifo = some { data, reader := true, writer, served := true } ∧
      status = if writer then .closing else .idle

/-- The FIFO of a client and its business with the server, by the place where the
client is. -/
def Expected (text : Bytes) (printed : Prop) (fifo : Option ClientFifo) (status : Status) :
    ClientPlace → Prop
  | .makingFifo => Unused fifo ∧ status = .idle
  | .openingServer => fifo = some .empty ∧ status = .idle
  | .writing => fifo = some .empty ∧ status = .idle
  | .closingServer => fifo = some .empty ∧ Pending status
  | .openingOwn => fifo = some .empty ∧ Pending status
  | .waiting => (fifo = some { ClientFifo.empty with reader := true } ∧ Pending status) ∨
      Served text fifo status
  | .reading => Served text fifo status
  | .closingOwn => fifo.isSome ∧ printed ∧ Settled status
  | .exiting => printed ∧ Settled status
  | .gone => printed ∧ Settled status

def Stage (log : List Event) (pid : UInt32) (fifo : Option ClientFifo) (status : Status) :
    Option Client → Prop
  | none => Unused fifo ∧ status = .idle
  | some client =>
      Expected (answerText client.msg) (Event.printed pid (answerText client.msg) ∈ log) fifo
        status client.place

/-- Every client is where its FIFO and the server have it; `waiting` are the
requests in the FIFO of the server. -/
structure Live (s : System) (waiting : List Request) : Prop where
  stream : s.stream = waiting.flatMap Request.bytes
  distinct : (waiting.map Request.pid).Nodup
  served : ∀ req status, serving s.server = some (req, status) → req.pid ∉ waiting.map Request.pid
  requests : ∀ req, req ∈ waiting ∨ (∃ status, serving s.server = some (req, status)) →
    ∃ client, s.clients req.pid = some client ∧ req = requestOf req.pid client.msg
  stages : ∀ pid, Stage s.log pid (s.fifos (clientPipePath pid)) (statusOf s.server waiting pid)
    (s.clients pid)

theorem Expected.mono {text : Bytes} {printed printed' : Prop} {fifo : Option ClientFifo}
    {status : Status} {place : ClientPlace} (h : Expected text printed fifo status place)
    (hprinted : printed → printed') : Expected text printed' fifo status place := by
  cases place with
  | closingOwn => exact ⟨h.1, hprinted h.2.1, h.2.2⟩
  | exiting => exact ⟨hprinted h.1, h.2⟩
  | gone => exact ⟨hprinted h.1, h.2⟩
  | makingFifo | openingServer | writing | closingServer | openingOwn | waiting | reading => exact h

theorem Stage.mono {log log' : List Event} {pid : UInt32} {fifo : Option ClientFifo}
    {status : Status} {client : Option Client} (h : Stage log pid fifo status client)
    (hlog : log ⊆ log') : Stage log' pid fifo status client := by
  cases client with
  | none => exact h
  | some client => exact Expected.mono h fun hprinted => hlog hprinted

/-- What the steps of one client leave as it is. -/
structure Elsewhere (pid : UInt32) (s s' : System) : Prop where
  clients : ∀ other, other ≠ pid → s'.clients other = s.clients other
  fifos : ∀ other, other ≠ pid → s'.fifos (clientPipePath other) = s.fifos (clientPipePath other)
  log : s.log ⊆ s'.log

theorem elsewhere_move (s : System) (pid : UInt32) (client : Client) (place : ClientPlace) :
    Elsewhere pid s (s.move pid client place) where
  clients := fun other hother => by
    change Function.update s.clients pid _ other = _
    exact Function.update_of_ne hother _ _
  fifos := fun _ _ => rfl
  log := fun _ h => h

theorem elsewhere_setFifo (s : System) (pid : UInt32) (fifo : Option ClientFifo) :
    Elsewhere pid s (s.setFifo pid fifo) where
  clients := fun _ _ => rfl
  fifos := fun other hother => by
    change Function.update s.fifos (clientPipePath pid) _ (clientPipePath other) = _
    exact Function.update_of_ne (clientPipePath_injective.ne hother) _ _
  log := fun _ h => h

theorem Elsewhere.trans {pid : UInt32} {s s' s'' : System} (h : Elsewhere pid s s')
    (h' : Elsewhere pid s' s'') : Elsewhere pid s s'' where
  clients := fun other hother => (h'.clients other hother).trans (h.clients other hother)
  fifos := fun other hother => (h'.fifos other hother).trans (h.fifos other hother)
  log := fun _ hmem => h'.log (h.log hmem)

theorem elsewhere_refl (pid : UInt32) (s : System) : Elsewhere pid s s :=
  ⟨fun _ _ => rfl, fun _ _ => rfl, fun _ h => h⟩

theorem Live.local {s s' : System} {waiting : List Request} {pid : UInt32} (h : Live s waiting)
    (helsewhere : Elsewhere pid s s') (hserver : s'.server = s.server)
    (hstream : s'.stream = s.stream)
    (hmessage : ∀ client, s.clients pid = some client →
      ∃ client', s'.clients pid = some client' ∧ client'.msg = client.msg)
    (hstage : Stage s'.log pid (s'.fifos (clientPipePath pid)) (statusOf s.server waiting pid)
      (s'.clients pid)) : Live s' waiting := by
  refine ⟨hstream.trans h.stream, h.distinct, ?_, fun req hreq => ?_, fun other => ?_⟩
  · rw [hserver]
    exact h.served
  · rw [hserver] at hreq
    rcases h.requests req hreq with ⟨client, hclient, hsame⟩
    rcases Decidable.em (req.pid = pid) with hpid | hother
    · rw [hpid] at hclient
      rcases hmessage client hclient with ⟨client', hclient', hmsg⟩
      refine ⟨client', ?_, ?_⟩
      · rw [hpid]
        exact hclient'
      · rw [hmsg]
        exact hsame
    · exact ⟨client, (helsewhere.clients _ hother).trans hclient, hsame⟩
  · rw [hserver]
    rcases Decidable.em (other = pid) with rfl | hother
    · exact hstage
    · rw [helsewhere.clients other hother, helsewhere.fifos other hother]
      exact (h.stages other).mono helsewhere.log

theorem clients_move_self (s : System) (pid : UInt32) (client : Client) (place : ClientPlace) :
    (s.move pid client place).clients pid = some { client with place := place } := by
  change Function.update s.clients pid _ pid = _
  exact Function.update_self _ _ _

theorem fifos_setFifo_self (s : System) (pid : UInt32) (fifo : Option ClientFifo) :
    (s.setFifo pid fifo).fifos (clientPipePath pid) = fifo := by
  change Function.update s.fifos (clientPipePath pid) _ (clientPipePath pid) = _
  exact Function.update_self _ _ _

theorem Live.expected {s : System} {waiting : List Request} (h : Live s waiting) {pid : UInt32}
    {client : Client} (hclient : s.clients pid = some client) {place : ClientPlace}
    (hplace : client.place = place) :
    Expected (answerText client.msg) (Event.printed pid (answerText client.msg) ∈ s.log)
      (s.fifos (clientPipePath pid)) (statusOf s.server waiting pid) place := by
  have hstage := h.stages pid
  rw [hclient, Stage, hplace] at hstage
  exact hstage

theorem Live.moveTo {s t : System} {waiting : List Request} {pid : UInt32} (h : Live s waiting)
    (ht : Elsewhere pid s t) (hserver : t.server = s.server) (hstream : t.stream = s.stream)
    {client : Client} (hclient : ∀ old, s.clients pid = some old → old.msg = client.msg)
    {place : ClientPlace}
    (hexpected : Expected (answerText client.msg)
      (Event.printed pid (answerText client.msg) ∈ t.log) (t.fifos (clientPipePath pid))
      (statusOf s.server waiting pid) place) : Live (t.move pid client place) waiting := by
  refine h.local (ht.trans (elsewhere_move t pid client place)) hserver hstream ?_ ?_
  · intro old hold
    exact ⟨_, clients_move_self t pid client place, (hclient old hold).symm⟩
  · rw [clients_move_self]
    exact hexpected

theorem msg_of_client {s : System} {pid : UInt32} {client : Client}
    (hclient : s.clients pid = some client) :
    ∀ old, s.clients pid = some old → old.msg = client.msg := by
  intro old hold
  obtain rfl := Option.some.inj (hclient.symm.trans hold)
  rfl

theorem Live.makeFifo {s : System} {waiting : List Request} (h : Live s waiting) {pid : UInt32}
    {client : Client} (hclient : s.clients pid = some client)
    (hplace : client.place = .makingFifo) :
    Live ((s.makeFifo pid).move pid client .openingServer) waiting := by
  obtain ⟨hunused, hidle⟩ := h.expected hclient hplace
  rw [System.makeFifo]
  rcases hunused with hnone | hsome
  · rw [hnone]
    refine h.moveTo (elsewhere_setFifo s pid _) rfl rfl (msg_of_client hclient) ⟨?_, hidle⟩
    exact fifos_setFifo_self s pid _
  · rw [hsome]
    exact h.moveTo (elsewhere_refl pid s) rfl rfl (msg_of_client hclient) ⟨hsome, hidle⟩

theorem Live.openOwn {s : System} {waiting : List Request} (h : Live s waiting) {pid : UInt32}
    {client : Client} (hclient : s.clients pid = some client)
    (hplace : client.place = .openingOwn) {fifo : ClientFifo}
    (hfifo : s.fifos (clientPipePath pid) = some fifo) :
    Live ((s.setFifo pid (some { fifo with reader := true, served := fifo.writer })).move pid
      client .waiting) waiting := by
  obtain ⟨hempty, hpending⟩ := h.expected hclient hplace
  obtain rfl := Option.some.inj (hfifo.symm.trans hempty)
  refine h.moveTo (elsewhere_setFifo s pid _) rfl rfl (msg_of_client hclient)
    (Or.inl ⟨?_, hpending⟩)
  exact fifos_setFifo_self s pid _

theorem Live.opened {s : System} {waiting : List Request} (h : Live s waiting) {pid : UInt32}
    {client : Client} (hclient : s.clients pid = some client) (hplace : client.place = .waiting)
    {fifo : ClientFifo} (hfifo : s.fifos (clientPipePath pid) = some fifo)
    (hserved : fifo.served = true) : Live (s.move pid client .reading) waiting := by
  rcases h.expected hclient hplace with ⟨hempty, _⟩ | hexpected
  · obtain rfl := Option.some.inj (hfifo.symm.trans hempty)
    cases hserved
  · exact h.moveTo (elsewhere_refl pid s) rfl rfl (msg_of_client hclient) hexpected

theorem settled_closing (writer : Bool) : Settled (if writer then .closing else .idle) := by
  cases writer with
  | false => exact Or.inl rfl
  | true => exact Or.inr rfl

theorem Live.readOwn {s : System} {waiting : List Request} (h : Live s waiting) {pid : UInt32}
    {client : Client} (hclient : s.clients pid = some client) (hplace : client.place = .reading)
    {fifo : ClientFifo} (hfifo : s.fifos (clientPipePath pid) = some fifo)
    (hblock : ¬ (fifo.data = [] ∧ fifo.writer = true)) :
    Live (readResponse s pid client fifo) waiting := by
  rcases h.expected hclient hplace with ⟨hempty, _⟩ | ⟨data, writer, hlength, htext, hsome, hstatus⟩
  · obtain rfl := Option.some.inj (hfifo.symm.trans hempty)
    exact absurd ⟨rfl, rfl⟩ hblock
  · obtain rfl := Option.some.inj (hfifo.symm.trans hsome)
    have hwhole : data.take responseSize = data := List.take_of_length_le hlength.le
    rw [readResponse]
    simp only [hwhole, hlength, if_true, htext]
    have hdrained := elsewhere_setFifo s pid
      (some { data := data.drop responseSize, reader := true, writer, served := true })
    refine @Live.moveTo s { s.setFifo pid _ with
      log := s.log ++ [.printed pid (answerText client.msg)] } waiting pid h
      ⟨hdrained.clients, hdrained.fifos, List.subset_append_left _ _⟩ rfl rfl client
      (msg_of_client hclient) .closingOwn ⟨?_, ?_, ?_⟩
    · change ((s.setFifo pid _).fifos (clientPipePath pid)).isSome
      rw [fifos_setFifo_self]
      rfl
    · exact List.mem_append_right _ (List.mem_singleton_self _)
    · rw [hstatus]
      exact settled_closing writer

theorem Live.closeOwn {s : System} {waiting : List Request} (h : Live s waiting) {pid : UInt32}
    {client : Client} (hclient : s.clients pid = some client)
    (hplace : client.place = .closingOwn) (fifo : Option ClientFifo) :
    Live ((s.setFifo pid fifo).move pid client .exiting) waiting := by
  obtain ⟨_, hprinted, hsettled⟩ := h.expected hclient hplace
  exact h.moveTo (elsewhere_setFifo s pid fifo) rfl rfl (msg_of_client hclient) ⟨hprinted, hsettled⟩

theorem Live.vanish {s : System} {waiting : List Request} (h : Live s waiting) {pid : UInt32}
    {client : Client} (hclient : s.clients pid = some client) (hplace : client.place = .exiting)
    (unlinks : Bool) : Live (vanish s pid client unlinks) waiting := by
  obtain ⟨hprinted, hsettled⟩ := h.expected hclient hplace
  rw [Protocol.vanish]
  split
  · exact h.moveTo (elsewhere_refl pid s) rfl rfl (msg_of_client hclient) ⟨hprinted, hsettled⟩
  · exact h.moveTo (elsewhere_setFifo s pid _) rfl rfl (msg_of_client hclient)
      ⟨hprinted, hsettled⟩

theorem of_statusOf_idle {server : ServerPlace} {waiting : List Request} {pid : UInt32}
    (h : statusOf server waiting pid = .idle) :
    pid ∉ waiting.map Request.pid ∧
      ∀ req status, serving server = some (req, status) → req.pid ≠ pid := by
  rw [statusOf] at h
  cases server with
  | reading =>
      change statusBehind waiting pid = .idle at h
      rw [statusBehind] at h
      split at h
      · cases h
      · rename_i hnew
        exact ⟨hnew, nofun⟩
  | opening req | answering req | closing req =>
      change (if req.pid = pid then _ else statusBehind waiting pid) = Status.idle at h
      split at h
      · cases h
      · rename_i hpid
        rw [statusBehind] at h
        split at h
        · cases h
        · rename_i hnew
          refine ⟨hnew, ?_⟩
          rintro other status ⟨⟩
          exact hpid

theorem statusBehind_concat_of_ne {waiting : List Request} {req : Request} {pid : UInt32}
    (h : pid ≠ req.pid) : statusBehind (waiting ++ [req]) pid = statusBehind waiting pid := by
  rw [statusBehind, statusBehind, List.map_append, List.map_singleton]
  simp only [List.mem_append, List.mem_singleton, h, or_false]

theorem statusOf_concat_of_ne (server : ServerPlace) {waiting : List Request} {req : Request}
    {pid : UInt32} (h : pid ≠ req.pid) :
    statusOf server (waiting ++ [req]) pid = statusOf server waiting pid := by
  rw [statusOf, statusOf, statusBehind_concat_of_ne h]

theorem statusOf_concat_self {server : ServerPlace} {waiting : List Request} {req : Request}
    (h : ∀ other status, serving server = some (other, status) → other.pid ≠ req.pid) :
    statusOf server (waiting ++ [req]) req.pid = .queued := by
  have hbehind : statusBehind (waiting ++ [req]) req.pid = .queued := by
    rw [statusBehind, List.map_append]
    exact if_pos (List.mem_append_right _ (List.mem_singleton_self _))
  rw [statusOf, hbehind]
  cases hserving : serving server with
  | none => rfl
  | some current => exact if_neg (h current.1 current.2 hserving)

theorem Live.writeRequest {s : System} {waiting : List Request} (h : Live s waiting)
    {pid : UInt32} {client : Client} (hclient : s.clients pid = some client)
    (hplace : client.place = .writing) :
    Live { s.move pid client .closingServer with
      stream := s.stream ++ (requestOf pid client.msg).bytes
      log := s.log ++ [.written (requestOf pid client.msg)] }
      (waiting ++ [requestOf pid client.msg]) := by
  obtain ⟨hempty, hidle⟩ := h.expected hclient hplace
  obtain ⟨hnew, hother⟩ := of_statusOf_idle hidle
  refine ⟨?_, ?_, fun req status hserving => ?_, fun req hreq => ?_, fun other => ?_⟩
  · change s.stream ++ _ = _
    rw [h.stream, List.flatMap_append, List.flatMap_singleton]
  · rw [List.map_append, List.nodup_append]
    refine ⟨h.distinct, List.nodup_singleton _, ?_⟩
    rintro _ hmem _ hsame rfl
    rw [List.mem_singleton.mp hsame] at hmem
    exact hnew hmem
  · rw [List.map_append, List.mem_append]
    rintro (hmem | hmem)
    · exact h.served req status hserving hmem
    · exact hother req status hserving (List.mem_singleton.mp hmem)
  · have hmoved := clients_move_self s pid client .closingServer
    rcases Decidable.em (req.pid = pid) with hpid | hpid
    · refine ⟨{ client with place := .closingServer }, ?_, ?_⟩
      · change (s.move pid client .closingServer).clients req.pid = _
        rw [hpid]
        exact hmoved
      · rcases hreq with hreq | ⟨status, hserving⟩
        · rcases List.mem_append.mp hreq with hreq | hreq
          · exact absurd (hpid ▸ List.mem_map_of_mem hreq) hnew
          · obtain rfl := List.mem_singleton.mp hreq
            rfl
        · exact absurd hpid (hother req status hserving)
    · have hold : req ∈ waiting ∨ ∃ status, serving s.server = some (req, status) := by
        rcases hreq with hreq | hreq
        · rcases List.mem_append.mp hreq with hreq | hreq
          · exact Or.inl hreq
          · exact absurd (congrArg Request.pid (List.mem_singleton.mp hreq)) hpid
        · exact Or.inr hreq
      rcases h.requests req hold with ⟨old, hold, hsame⟩
      exact ⟨old, ((elsewhere_move s pid client _).clients _ hpid).trans hold, hsame⟩
  · have hlog : s.log ⊆ s.log ++ [.written (requestOf pid client.msg)] :=
      List.subset_append_left _ _
    change Stage _ other (s.fifos (clientPipePath other)) (statusOf s.server _ other)
      ((s.move pid client .closingServer).clients other)
    rcases Decidable.em (other = pid) with rfl | hne
    · rw [clients_move_self]
      exact ⟨hempty, Or.inl (statusOf_concat_self hother)⟩
    · rw [(elsewhere_move s pid client _).clients other hne,
        @statusOf_concat_of_ne s.server waiting (requestOf pid client.msg) other hne]
      exact (h.stages other).mono hlog

theorem statusBehind_cons_of_ne {waiting : List Request} {req : Request} {pid : UInt32}
    (h : req.pid ≠ pid) : statusBehind (req :: waiting) pid = statusBehind waiting pid := by
  rw [statusBehind, statusBehind, List.map_cons]
  simp only [List.mem_cons, Ne.symm h, false_or]

theorem statusBehind_of_not_mem {waiting : List Request} {pid : UInt32}
    (h : pid ∉ waiting.map Request.pid) : statusBehind waiting pid = .idle := if_neg h

theorem not_served_queued {text : Bytes} {fifo : Option ClientFifo} :
    ¬ Served text fifo .queued := by
  rintro (⟨_, ⟨⟩⟩ | ⟨_, writer, _, _, _, hstatus⟩)
  cases writer with
  | false => cases hstatus
  | true => cases hstatus

theorem not_served_opening {text : Bytes} {fifo : Option ClientFifo} :
    ¬ Served text fifo .opening := by
  rintro (⟨_, ⟨⟩⟩ | ⟨_, writer, _, _, _, hstatus⟩)
  cases writer with
  | false => cases hstatus
  | true => cases hstatus

theorem stage_opening {log : List Event} {pid : UInt32} {fifo : Option ClientFifo}
    {client : Option Client} (h : Stage log pid fifo .queued client) :
    Stage log pid fifo .opening client := by
  cases client with
  | none => cases h.2
  | some client =>
      change Expected _ _ fifo .queued client.place at h
      change Expected _ _ fifo .opening client.place
      cases hplace : client.place with
      | makingFifo | openingServer | writing =>
          rw [hplace] at h
          cases h.2
      | closingServer | openingOwn =>
          rw [hplace] at h
          exact ⟨h.1, Or.inr rfl⟩
      | waiting =>
          rw [hplace] at h
          rcases h with ⟨hempty, _⟩ | hserved
          · exact Or.inl ⟨hempty, Or.inr rfl⟩
          · exact absurd hserved not_served_queued
      | reading =>
          rw [hplace] at h
          exact absurd h not_served_queued
      | closingOwn =>
          rw [hplace] at h
          exact absurd h.2.2 (by decide)
      | exiting | gone =>
          rw [hplace] at h
          exact absurd h.2 (by decide)

theorem Live.readRequest {s : System} {req : Request} {waiting : List Request}
    (h : Live s (req :: waiting)) (hplace : s.server = .reading) :
    Live (readRequest s) waiting := by
  have hstream : s.stream = req.bytes ++ waiting.flatMap Request.bytes := h.stream
  have hdistinct := h.distinct
  rw [List.map_cons, List.nodup_cons] at hdistinct
  rw [readRequest_eq hstream]
  refine ⟨rfl, hdistinct.2, ?_, fun other hother => ?_, fun pid => ?_⟩
  · rintro other status ⟨⟩
    exact hdistinct.1
  · apply h.requests other
    rcases hother with hother | ⟨status, ⟨⟩⟩
    · exact Or.inl (List.mem_cons_of_mem req hother)
    · exact Or.inl List.mem_cons_self
  · have hstage := h.stages pid
    rw [hplace] at hstage
    change Stage _ pid (s.fifos (clientPipePath pid))
      (if req.pid = pid then Status.opening else statusBehind waiting pid) (s.clients pid)
    change Stage _ pid _ (statusBehind (req :: waiting) pid) _ at hstage
    have hlog : s.log ⊆ s.log ++ [.received req.bytes] := List.subset_append_left _ _
    rcases Decidable.em (req.pid = pid) with rfl | hpid
    · have hqueued : statusBehind (req :: waiting) req.pid = .queued := if_pos List.mem_cons_self
      rw [if_pos rfl]
      rw [hqueued] at hstage
      exact (stage_opening hstage).mono hlog
    · rw [if_neg hpid, ← statusBehind_cons_of_ne hpid]
      exact hstage.mono hlog

/-- The server goes on with a request; `placed` is where it is with it then. -/
theorem Live.serve {s t : System} {waiting : List Request} (h : Live s waiting) {req : Request}
    {status : Status} (hserving : serving s.server = some (req, status))
    (ht : Elsewhere req.pid s t) (hclients : t.clients = s.clients) (hstream : t.stream = s.stream)
    (hserver : (∃ status', serving t.server = some (req, status')) ∨ serving t.server = none)
    (hstage : Stage t.log req.pid (t.fifos (clientPipePath req.pid))
      (statusOf t.server waiting req.pid) (s.clients req.pid)) : Live t waiting := by
  refine ⟨hstream.trans h.stream, h.distinct, fun other status' hother => ?_,
    fun other hother => ?_, fun pid => ?_⟩
  · rcases hserver with ⟨_, hsame⟩ | hnone
    · obtain ⟨rfl, rfl⟩ := Prod.mk.inj (Option.some.inj (hsame.symm.trans hother))
      exact h.served _ status hserving
    · rw [hnone] at hother
      cases hother
  · rw [hclients]
    apply h.requests other
    rcases hother with hother | ⟨status', hother⟩
    · exact Or.inl hother
    · rcases hserver with ⟨_, hsame⟩ | hnone
      · obtain ⟨rfl, rfl⟩ := Prod.mk.inj (Option.some.inj (hsame.symm.trans hother))
        exact Or.inr ⟨status, hserving⟩
      · rw [hnone] at hother
        cases hother
  · rw [hclients]
    rcases Decidable.em (req.pid = pid) with rfl | hpid
    · exact hstage
    · have hold : statusOf s.server waiting pid = statusBehind waiting pid := by
        rw [statusOf, hserving]
        exact if_neg hpid
      have hnew : statusOf t.server waiting pid = statusBehind waiting pid := by
        rw [statusOf]
        rcases hserver with ⟨_, hsame⟩ | hnone
        · rw [hsame]
          exact if_neg hpid
        · rw [hnone]
      have hother := h.stages pid
      rw [hold] at hother
      rw [hnew, ht.fifos pid (Ne.symm hpid)]
      exact hother.mono ht.log

theorem statusOf_serving {server : ServerPlace} {waiting : List Request} {req : Request}
    {status : Status} (h : serving server = some (req, status)) :
    statusOf server waiting req.pid = status := by
  rw [statusOf, h]
  exact if_pos rfl

theorem Live.client_of_serving {s : System} {waiting : List Request} (h : Live s waiting)
    {req : Request} {status : Status} (hserving : serving s.server = some (req, status)) :
    ∃ client, s.clients req.pid = some client ∧ req = requestOf req.pid client.msg ∧
      Expected (answerText client.msg) (Event.printed req.pid (answerText client.msg) ∈ s.log)
        (s.fifos (clientPipePath req.pid)) status client.place := by
  rcases h.requests req (Or.inr ⟨status, hserving⟩) with ⟨client, hclient, hsame⟩
  have hexpected := h.expected hclient rfl
  rw [statusOf_serving hserving] at hexpected
  exact ⟨client, hclient, hsame, hexpected⟩

theorem expected_opening {text : Bytes} {printed : Prop} {fifo : Option ClientFifo}
    {place : ClientPlace} (h : Expected text printed fifo .opening place) :
    (fifo = some .empty ∧ (place = .closingServer ∨ place = .openingOwn)) ∨
      (fifo = some { ClientFifo.empty with reader := true } ∧ place = .waiting) := by
  cases place with
  | makingFifo | openingServer | writing => cases h.2
  | closingServer => exact Or.inl ⟨h.1, Or.inl rfl⟩
  | openingOwn => exact Or.inl ⟨h.1, Or.inr rfl⟩
  | waiting =>
      rcases h with ⟨hempty, _⟩ | hserved
      · exact Or.inr ⟨hempty, rfl⟩
      · exact absurd hserved not_served_opening
  | reading => exact absurd h not_served_opening
  | closingOwn => exact absurd h.2.2 (by decide)
  | exiting | gone => exact absurd h.2 (by decide)

theorem expected_answering {text : Bytes} {printed : Prop} {fifo : Option ClientFifo}
    {place : ClientPlace} (h : Expected text printed fifo .answering place) :
    fifo = some { data := [], reader := true, writer := true, served := true } ∧
      (place = .waiting ∨ place = .reading) := by
  have hserved : Served text fifo .answering →
      fifo = some { data := [], reader := true, writer := true, served := true } := by
    rintro (⟨hfifo, _⟩ | ⟨_, writer, _, _, _, hstatus⟩)
    · exact hfifo
    · cases writer with
      | false => cases hstatus
      | true => cases hstatus
  cases place with
  | makingFifo | openingServer | writing => cases h.2
  | closingServer | openingOwn => rcases h.2 with hstatus | hstatus <;> cases hstatus
  | waiting =>
      rcases h with ⟨_, hpending⟩ | h
      · rcases hpending with hstatus | hstatus <;> cases hstatus
      · exact ⟨hserved h, Or.inl rfl⟩
  | reading => exact ⟨hserved h, Or.inr rfl⟩
  | closingOwn => exact absurd h.2.2 (by decide)
  | exiting | gone => exact absurd h.2 (by decide)

theorem expected_closed {text : Bytes} {printed : Prop} {fifo : Option ClientFifo}
    {place : ClientPlace} (h : Expected text printed fifo .closing place) :
    Expected text printed (fifo.map ClientFifo.closeWriter) .idle place := by
  have hserved : Served text fifo .closing →
      Served text (fifo.map ClientFifo.closeWriter) .idle := by
    rintro (⟨_, hstatus⟩ | ⟨data, writer, hlength, htext, rfl, _⟩)
    · cases hstatus
    · exact Or.inr ⟨data, false, hlength, htext, rfl, rfl⟩
  cases place with
  | makingFifo | openingServer | writing => cases h.2
  | closingServer | openingOwn => rcases h.2 with hstatus | hstatus <;> cases hstatus
  | waiting =>
      rcases h with ⟨_, hpending⟩ | h
      · rcases hpending with hstatus | hstatus <;> cases hstatus
      · exact Or.inr (hserved h)
  | reading => exact hserved h
  | closingOwn =>
      refine ⟨?_, h.2.1, Or.inl rfl⟩
      rw [Option.isSome_map]
      exact h.1
  | exiting | gone => exact ⟨h.1, Or.inl rfl⟩

theorem Live.serverOpen {s : System} {waiting : List Request} (h : Live s waiting) {req : Request}
    (hplace : s.server = .opening req) {fifo : ClientFifo}
    (hfifo : s.fifos (clientPipePath req.pid) = some fifo) (hreader : fifo.reader = true) :
    Live { s.setFifo req.pid (some { fifo with writer := true, served := true }) with
      server := .answering req } waiting := by
  have hserving : serving s.server = some (req, .opening) := by
    rw [hplace]
    rfl
  obtain ⟨client, hclient, _, hexpected⟩ := h.client_of_serving hserving
  have hset := elsewhere_setFifo s req.pid (some { fifo with writer := true, served := true })
  refine h.serve hserving ⟨hset.clients, hset.fifos, hset.log⟩ rfl rfl (Or.inl ⟨_, rfl⟩) ?_
  rw [hclient]
  change Expected _ _ ((s.setFifo req.pid _).fifos (clientPipePath req.pid))
    (statusOf (.answering req) waiting req.pid) client.place
  rw [fifos_setFifo_self, statusOf_serving rfl]
  rcases expected_opening hexpected with ⟨hempty, _⟩ | ⟨hempty, hwaiting⟩
  · obtain rfl := Option.some.inj (hfifo.symm.trans hempty)
    cases hreader
  · obtain rfl := Option.some.inj (hfifo.symm.trans hempty)
    rw [hwaiting]
    exact Or.inr (Or.inl ⟨rfl, rfl⟩)

theorem served_of_answer {text data : Bytes} (hlength : data.length = responseSize)
    (htext : cStr data = text) :
    Served text (some { data, reader := true, writer := true, served := true }) .closing :=
  Or.inr ⟨data, true, hlength, htext, rfl, rfl⟩

theorem Live.writeResponse {s : System} {waiting : List Request} (h : Live s waiting)
    {req : Request} (hplace : s.server = .answering req) (behind : Bytes) :
    Live (writeResponse s req behind) waiting := by
  have hserving : serving s.server = some (req, .answering) := by
    rw [hplace]
    rfl
  obtain ⟨client, hclient, hsame, hexpected⟩ := h.client_of_serving hserving
  obtain ⟨hfifo, hopen⟩ := expected_answering hexpected
  have htext : cStr (responseTo s.resp req behind).msg = answerText client.msg := by
    rw [cStr_responseTo, hsame, messageText_requestOf]
    rfl
  rw [Protocol.writeResponse]
  simp only [hfifo, if_true, List.nil_append]
  have hset := elsewhere_setFifo s req.pid (some {
    data := (responseTo s.resp req behind).msg, reader := true, writer := true, served := true })
  refine h.serve hserving ⟨hset.clients, hset.fifos, List.subset_append_left _ _⟩ rfl rfl
    (Or.inl ⟨.closing, rfl⟩) ?_
  rw [hclient]
  change Expected _ _ ((s.setFifo req.pid _).fifos (clientPipePath req.pid))
    (statusOf (.closing req) waiting req.pid) client.place
  rw [fifos_setFifo_self, statusOf_serving rfl]
  have hserved := served_of_answer (responseTo s.resp req behind).length_msg htext
  rcases hopen with hwaiting | hreading
  · rw [hwaiting]
    exact Or.inr hserved
  · rw [hreading]
    exact hserved

theorem Live.serverClose {s : System} {waiting : List Request} (h : Live s waiting) {req : Request}
    (hplace : s.server = .closing req) {t : System} (ht : Elsewhere req.pid s t)
    (hclients : t.clients = s.clients) (hstream : t.stream = s.stream)
    (hserver : t.server = .reading)
    (hfifo : t.fifos (clientPipePath req.pid) =
      (s.fifos (clientPipePath req.pid)).map ClientFifo.closeWriter) : Live t waiting := by
  have hserving : serving s.server = some (req, .closing) := by
    rw [hplace]
    rfl
  obtain ⟨client, hclient, _, hexpected⟩ := h.client_of_serving hserving
  have hstatus : statusOf t.server waiting req.pid = .idle := by
    rw [hserver]
    exact statusBehind_of_not_mem (h.served req .closing hserving)
  refine h.serve hserving ht hclients hstream (Or.inr (by rw [hserver]; rfl)) ?_
  rw [hclient, hstatus, hfifo]
  exact (expected_closed hexpected).mono fun hprinted => ht.log hprinted

theorem live_start (resp : Response) (stale : Bytes → Bool) : Live (.start resp stale) [] where
  stream := rfl
  distinct := List.nodup_nil
  served := nofun
  requests := fun _ h => by
    rcases h with h | ⟨_, h⟩
    · cases h
    · cases h
  stages := fun pid => by
    refine ⟨?_, rfl⟩
    change (if stale (clientPipePath pid) then some ClientFifo.empty else none) = none ∨
      (if stale (clientPipePath pid) then some ClientFifo.empty else none) = some .empty
    split
    · exact Or.inr rfl
    · exact Or.inl rfl

theorem Live.step {s s' : System} {waiting : List Request} {action : Action} (h : Live s waiting)
    (hregular : Regular s action) (hstep : step s action = some s') :
    ∃ waiting', Live s' waiting' := by
  cases moves_of_step hstep with
  | started pid msg hnew =>
      have hstage := h.stages pid
      rw [hnew] at hstage
      refine ⟨waiting, @Live.moveTo s s waiting pid h (elsewhere_refl pid s) rfl rfl
        { msg := msg, place := .makingFifo } (fun old hold => ?_) .makingFifo hstage⟩
      rw [hnew] at hold
      cases hold
  | madeFifo pid client hclient hplace => exact ⟨waiting, h.makeFifo hclient hplace⟩
  | openedServer pid client hclient hplace =>
      have hexpected := h.expected hclient hplace
      exact ⟨waiting, h.moveTo (elsewhere_refl pid s) rfl rfl (msg_of_client hclient) hexpected⟩
  | wroteRequest pid client hclient hplace => exact ⟨_, h.writeRequest hclient hplace⟩
  | closedServer pid client hclient hplace =>
      have hexpected := h.expected hclient hplace
      exact ⟨waiting, h.moveTo (elsewhere_refl pid s) rfl rfl (msg_of_client hclient) hexpected⟩
  | openingOwn pid client fifo hclient hplace hfifo =>
      exact ⟨waiting, h.openOwn hclient hplace hfifo⟩
  | openedOwn pid client fifo hclient hplace hfifo hserved =>
      exact ⟨waiting, h.opened hclient hplace hfifo hserved⟩
  | readOwn pid client fifo hclient hplace hfifo hblock =>
      exact ⟨waiting, h.readOwn hclient hplace hfifo hblock⟩
  | closedOwn pid client fifo hclient hplace _ => exact ⟨waiting, h.closeOwn hclient hplace _⟩
  | vanished pid client unlinks hclient _ =>
      rcases hregular with ⟨_, other, hother, hplace⟩
      obtain rfl := Option.some.inj (hclient.symm.trans hother)
      exact ⟨waiting, h.vanish hclient hplace unlinks⟩
  | serverRead hplace hstream =>
      cases waiting with
      | nil => exact absurd h.stream hstream
      | cons req waiting => exact ⟨waiting, h.readRequest hplace⟩
  | serverOpened req fifo hplace hfifo hreader =>
      exact ⟨waiting, h.serverOpen hplace hfifo hreader⟩
  | serverSkipped req ok hplace hskip =>
      -- The FIFO is there, and the call does not fail.
      have hserving : serving s.server = some (req, .opening) := by
        rw [hplace]
        rfl
      obtain ⟨client, _, _, hexpected⟩ := h.client_of_serving hserving
      rcases hskip with hnone | rfl
      · rw [hnone] at hexpected
        rcases expected_opening hexpected with ⟨hempty, _⟩ | ⟨hempty, _⟩
        · cases hempty
        · cases hempty
      · cases hregular
  | serverWrote req behind hplace => exact ⟨waiting, h.writeResponse hplace behind⟩
  | serverClosed req fifo hplace hfifo =>
      have hset := elsewhere_setFifo s req.pid (some fifo.closeWriter)
      refine ⟨waiting, h.serverClose hplace ⟨hset.clients, hset.fifos, hset.log⟩ rfl rfl rfl ?_⟩
      change (s.setFifo req.pid _).fifos _ = _
      rw [fifos_setFifo_self, hfifo]
      rfl
  | serverClosedUnlinked req hplace hnone =>
      refine ⟨waiting, h.serverClose hplace ⟨fun _ _ => rfl, fun _ _ => rfl, fun _ hmem => hmem⟩
        rfl rfl rfl ?_⟩
      change s.fifos _ = _
      rw [hnone]
      rfl

theorem live_of_run {resp : Response} {stale : Bytes → Bool} {actions : List Action}
    (h : EveryStep step Regular (.start resp stale) actions) :
    EveryState step (fun s => ∃ waiting, Live s waiting) (.start resp stale) actions :=
  invariant_of_everyStep ⟨[], live_start resp stale⟩
    (fun _ _ _ ⟨_, hlive⟩ hregular hstep => hlive.step hregular hstep) h

end StudyLinuxKernel.Fifo.Progress
