import Mathlib.Data.List.Nodup
import StudyLinuxKernel.Fifo.Protocol

namespace StudyLinuxKernel.Fifo.Exchange

open StudyLinuxKernel.Fifo.Protocol
open StudyLinuxKernel.Fifo.Records
open StudyLinuxKernel.Libc.Text
open StudyLinuxKernel.Library.PartialStep

/-- What is printed is the text of a response to the client itself. -/
def OwnTexts (log : List Event) : Prop :=
  ∀ pid text, Event.printed pid text ∈ log →
    ∃ resp, Event.answered (clientPipePath pid) resp ∈ log ∧ text = cStr resp.msg

/-- The promises of the protocol. -/
structure Kept (s : System) : Prop where
  order : received s.log <+: (written s.log).map Request.bytes
  requests : ∀ req ∈ written s.log,
    ∃ msg, s.message req.pid = some msg ∧ req = requestOf req.pid msg
  oneRequest : ((written s.log).map Request.pid).Nodup
  echo : ∀ pid resp, Event.answered (clientPipePath pid) resp ∈ s.log →
    ∃ msg, s.message pid = some msg ∧ requestOf pid msg ∈ written s.log ∧
      cStr resp.msg = msg.chars.take (MSG_LEN - 1)
  once : (answered s.log).Nodup
  own : OwnTexts s.log

/-- The request that the server has read and not yet dealt with. -/
def current : ServerPlace → List Request
  | .opening req => [req]
  | .answering req => [req]
  | _ => []

/-- The client has not written its request. -/
def Early : ClientPlace → Prop
  | .makingFifo => True
  | .openingServer => True
  | .writing => True
  | _ => False

/-- The records are aligned: those that were dealt with, the current one and those that wait. -/
structure Aligned (s : System) (settled waiting : List Request) : Prop where
  written : written s.log = settled ++ current s.server ++ waiting
  received : received s.log = (settled ++ current s.server).map Request.bytes
  stream : s.stream = waiting.flatMap Request.bytes
  answered : ∀ path ∈ answered s.log, ∃ req ∈ settled, path = clientPipePath req.pid

/-- A FIFO holds nothing, or a response to its client. -/
def Fed (log : List Event) (pid : UInt32) (fifo : ClientFifo) : Prop :=
  fifo.data = [] ∨ ∃ resp, Event.answered (clientPipePath pid) resp ∈ log ∧ fifo.data = resp.msg

structure Sound (s : System) : Prop where
  aligned : ∃ settled waiting, Aligned s settled waiting
  kept : Kept s
  early : ∀ pid client, s.clients pid = some client → Early client.place →
    ∀ req ∈ written s.log, req.pid ≠ pid
  fifos : ∀ pid fifo, s.fifos (clientPipePath pid) = some fifo → Fed s.log pid fifo

theorem OwnTexts.concat {log : List Event} {event : Event} (h : OwnTexts log)
    (hevent : ∀ pid text, Event.printed pid text ≠ event) : OwnTexts (log ++ [event]) := by
  intro pid text htext
  rcases h pid text (mem_of_mem_concat htext (hevent pid text)) with ⟨resp, hresp, hsame⟩
  exact ⟨resp, List.mem_append_left _ hresp, hsame⟩

theorem Fed.concat {log : List Event} {pid : UInt32} {fifo : ClientFifo} (h : Fed log pid fifo)
    (event : Event) : Fed (log ++ [event]) pid fifo := by
  rcases h with hempty | ⟨resp, hresp, hdata⟩
  · exact Or.inl hempty
  · exact Or.inr ⟨resp, List.mem_append_left _ hresp, hdata⟩

/-- What the steps do that are not about a record. -/
structure Quiet (s s' : System) : Prop where
  log : s'.log = s.log
  stream : s'.stream = s.stream
  current : current s'.server = current s.server
  message : ∀ pid msg, s.message pid = some msg → s'.message pid = some msg
  early : ∀ pid client, s'.clients pid = some client → Early client.place →
    s.message pid = none ∨ ∃ old, s.clients pid = some old ∧ Early old.place
  fifos : ∀ pid fifo, s'.fifos (clientPipePath pid) = some fifo → fifo.data = [] ∨
    ∃ old, s.fifos (clientPipePath pid) = some old ∧ fifo.data = old.data

theorem Quiet.trans {s s' s'' : System} (h : Quiet s s') (h' : Quiet s' s'') : Quiet s s'' := by
  refine ⟨h'.log.trans h.log, h'.stream.trans h.stream, h'.current.trans h.current,
    fun pid msg hmsg => h'.message pid msg (h.message pid msg hmsg),
    fun pid client hclient hearly => ?_, fun pid fifo hfifo => ?_⟩
  · rcases h'.early pid client hclient hearly with hnone | ⟨old, hold, holdEarly⟩
    · refine Or.inl (Option.eq_none_iff_forall_ne_some.mpr fun msg hmsg => ?_)
      rw [h.message pid msg hmsg] at hnone
      cases hnone
    · exact h.early pid old hold holdEarly
  · rcases h'.fifos pid fifo hfifo with hempty | ⟨old, hold, hdata⟩
    · exact Or.inl hempty
    · rw [hdata]
      exact h.fifos pid old hold

theorem message_move {s : System} {pid : UInt32} {client : Client} {place : ClientPlace}
    (hclient : s.clients pid = some client) (pid' : UInt32) :
    (s.move pid client place).message pid' = s.message pid' := by
  change ((Function.update s.clients pid _) pid').map Client.msg = _
  rcases eq_or_ne pid' pid with rfl | hne
  · rw [Function.update_self, System.message, hclient]
    rfl
  · rw [Function.update_of_ne hne]
    rfl

theorem quiet_move {s : System} {pid : UInt32} {client : Client} {place : ClientPlace}
    (hclient : s.clients pid = some client) (hearly : Early place → Early client.place) :
    Quiet s (s.move pid client place) := by
  refine ⟨rfl, rfl, rfl, fun pid' msg hmsg => ?_, fun pid' client' hclient' hearly' => Or.inr ?_,
    fun pid' fifo hfifo => Or.inr ⟨fifo, hfifo, rfl⟩⟩
  · rw [message_move hclient]
    exact hmsg
  · replace hclient' : Function.update s.clients pid _ pid' = some client' := hclient'
    rcases eq_or_ne pid' pid with rfl | hne
    · rw [Function.update_self] at hclient'
      obtain rfl := Option.some.inj hclient'
      exact ⟨client, hclient, hearly hearly'⟩
    · rw [Function.update_of_ne hne] at hclient'
      exact ⟨client', hclient', hearly'⟩

theorem quiet_setFifo {s : System} {pid : UInt32} {fifo : Option ClientFifo}
    (hfifo : ∀ new, fifo = some new → new.data = [] ∨
      ∃ old, s.fifos (clientPipePath pid) = some old ∧ new.data = old.data) :
    Quiet s (s.setFifo pid fifo) := by
  refine ⟨rfl, rfl, rfl, fun _ _ hmsg => hmsg, fun _ client hclient hearly =>
    Or.inr ⟨client, hclient, hearly⟩, fun pid' new hnew => ?_⟩
  replace hnew : Function.update s.fifos (clientPipePath pid) fifo (clientPipePath pid') =
    some new := hnew
  rcases eq_or_ne pid' pid with rfl | hne
  · rw [Function.update_self] at hnew
    exact hfifo new hnew
  · rw [Function.update_of_ne (clientPipePath_injective.ne hne)] at hnew
    exact Or.inr ⟨new, hnew, rfl⟩

theorem Sound.quiet {s s' : System} (h : Sound s) (hq : Quiet s s') : Sound s' := by
  rcases h.aligned with ⟨settled, waiting, ha⟩
  refine ⟨⟨settled, waiting, ?_⟩, ?_, fun pid client hclient hearly req hreq => ?_,
    fun pid fifo hfifo => ?_⟩
  · refine ⟨?_, ?_, hq.stream.trans ha.stream, ?_⟩
    · rw [hq.log, hq.current]
      exact ha.written
    · rw [hq.log, hq.current]
      exact ha.received
    · rw [hq.log]
      exact ha.answered
  · refine ⟨?_, fun req hreq => ?_, ?_, fun pid resp hresp => ?_, ?_, ?_⟩
    · rw [hq.log]
      exact h.kept.order
    · rw [hq.log] at hreq
      rcases h.kept.requests req hreq with ⟨msg, hmsg, hsame⟩
      exact ⟨msg, hq.message _ _ hmsg, hsame⟩
    · rw [hq.log]
      exact h.kept.oneRequest
    · rw [hq.log] at hresp ⊢
      rcases h.kept.echo pid resp hresp with ⟨msg, hmsg, hwritten, htext⟩
      exact ⟨msg, hq.message _ _ hmsg, hwritten, htext⟩
    · rw [hq.log]
      exact h.kept.once
    · rw [hq.log]
      exact h.kept.own
  · rw [hq.log] at hreq
    rcases hq.early pid client hclient hearly with hnone | ⟨old, hold, holdEarly⟩
    · rintro rfl
      rcases h.kept.requests req hreq with ⟨msg, hmsg, _⟩
      rw [hmsg] at hnone
      cases hnone
    · exact h.early pid old hold holdEarly req hreq
  · rw [hq.log]
    rcases hq.fifos pid fifo hfifo with hempty | ⟨old, hold, hdata⟩
    · exact Or.inl hempty
    · rw [Fed, hdata]
      exact h.fifos pid old hold

theorem quiet_start {s : System} {pid : UInt32} {client : Client} (hnew : s.clients pid = none) :
    Quiet s { s with clients := Function.update s.clients pid (some client) } := by
  refine ⟨rfl, rfl, rfl, fun pid' msg hmsg => ?_, fun pid' client' hclient' hearly' => ?_,
    fun pid' fifo hfifo => Or.inr ⟨fifo, hfifo, rfl⟩⟩
  · have hne : pid' ≠ pid := by
      rintro rfl
      rw [System.message, hnew] at hmsg
      cases hmsg
    change (Function.update s.clients pid _ pid').map Client.msg = _
    rw [Function.update_of_ne hne]
    exact hmsg
  · replace hclient' : Function.update s.clients pid _ pid' = some client' := hclient'
    rcases eq_or_ne pid' pid with rfl | hne
    · apply Or.inl
      rw [System.message, hnew]
      rfl
    · rw [Function.update_of_ne hne] at hclient'
      exact Or.inr ⟨client', hclient', hearly'⟩

theorem quiet_server {s : System} {server : ServerPlace} (h : current server = current s.server) :
    Quiet s { s with server := server } :=
  ⟨rfl, rfl, h, fun _ _ hmsg => hmsg,
    fun _ client hclient hearly => Or.inr ⟨client, hclient, hearly⟩,
    fun _ fifo hfifo => Or.inr ⟨fifo, hfifo, rfl⟩⟩

theorem Sound.write {s : System} (h : Sound s) {pid : UInt32} {msg : Argument}
    (hmsg : s.message pid = some msg) (hfirst : ∀ req ∈ written s.log, req.pid ≠ pid)
    (hlate : ∀ client, s.clients pid = some client → ¬ Early client.place) :
    Sound { s with
      stream := s.stream ++ (requestOf pid msg).bytes
      log := s.log ++ [.written (requestOf pid msg)] } := by
  rcases h.aligned with ⟨settled, waiting, ha⟩
  have hwritten := written_concat s.log (.written (requestOf pid msg))
  have hreceived := (received_concat s.log (.written (requestOf pid msg))).trans
    (List.append_nil _)
  have hanswered := (answered_concat s.log (.written (requestOf pid msg))).trans
    (List.append_nil _)
  refine ⟨⟨settled, waiting ++ [requestOf pid msg], ?_⟩, ?_,
    fun pid' client hclient hearly req hreq => ?_,
    fun pid' fifo hfifo => (h.fifos pid' fifo hfifo).concat _⟩
  · refine ⟨?_, hreceived.trans ha.received, ?_, ?_⟩
    · rw [hwritten, ha.written, List.append_assoc]
      rfl
    · change s.stream ++ _ = _
      rw [ha.stream, List.flatMap_append, List.flatMap_singleton]
    · rw [hanswered]
      exact ha.answered
  · refine ⟨?_, fun req hreq => ?_, ?_, fun pid' resp hresp => ?_, ?_, h.kept.own.concat nofun⟩
    · rw [hreceived, hwritten, List.map_append]
      exact h.kept.order.trans (List.prefix_append _ _)
    · rw [hwritten] at hreq
      rcases List.mem_append.mp hreq with hreq | hreq
      · exact h.kept.requests req hreq
      · obtain rfl := List.mem_singleton.mp hreq
        exact ⟨msg, hmsg, rfl⟩
    · rw [hwritten, List.map_append, List.nodup_append]
      refine ⟨h.kept.oneRequest, List.nodup_singleton _, fun pid' hpid' pid'' hpid'' => ?_⟩
      obtain rfl := List.mem_singleton.mp hpid''
      rcases List.mem_map.mp hpid' with ⟨req, hreq, rfl⟩
      exact hfirst req hreq
    · rcases h.kept.echo pid' resp (mem_of_mem_concat hresp nofun) with ⟨msg', hmsg', hreq, htext⟩
      rw [hwritten]
      exact ⟨msg', hmsg', List.mem_append_left _ hreq, htext⟩
    · rw [hanswered]
      exact h.kept.once
  · rw [hwritten] at hreq
    rcases List.mem_append.mp hreq with hreq | hreq
    · exact h.early pid' client hclient hearly req hreq
    · obtain rfl := List.mem_singleton.mp hreq
      rintro rfl
      exact hlate client hclient hearly

theorem readRequest_eq {s : System} {req : Request} {rest : Bytes}
    (hstream : s.stream = req.bytes ++ rest) :
    readRequest s = { s with
      stream := rest
      log := s.log ++ [.received req.bytes]
      server := .opening req } := by
  have hlength := req.length_bytes
  have htake : s.stream.take requestSize = req.bytes := by
    rw [hstream, ← hlength, List.take_left]
  have hdrop : s.stream.drop requestSize = rest := by
    rw [hstream, ← hlength, List.drop_left]
  rw [readRequest]
  simp only [htake, hdrop, hlength, dif_pos, Request.ofBytes_bytes]

theorem Sound.read {s : System} (h : Sound s) (hplace : s.server = .reading)
    (hstream : s.stream ≠ []) : Sound (readRequest s) := by
  rcases h.aligned with ⟨settled, waiting, ha⟩
  obtain ⟨req, rest, rfl⟩ : ∃ req rest, waiting = req :: rest := by
    cases waiting with
    | nil => exact absurd ha.stream hstream
    | cons req rest => exact ⟨req, rest, rfl⟩
  have hwritten := (written_concat s.log (.received req.bytes)).trans (List.append_nil _)
  have hreceived := received_concat s.log (.received req.bytes)
  have hanswered := (answered_concat s.log (.received req.bytes)).trans (List.append_nil _)
  have hbefore : written s.log = settled ++ req :: rest := by
    rw [ha.written, hplace]
    change settled ++ [] ++ _ = _
    rw [List.append_nil]
  have hall : received (s.log ++ [.received req.bytes]) = (settled ++ [req]).map Request.bytes := by
    rw [hreceived, ha.received, hplace, List.map_append, List.map_append]
    change _ ++ [] ++ [req.bytes] = _
    rw [List.append_nil]
    rfl
  rw [readRequest_eq ha.stream]
  refine ⟨⟨settled, rest, ?_⟩, ?_, fun pid client hclient hearly other hother => ?_,
    fun pid fifo hfifo => (h.fifos pid fifo hfifo).concat _⟩
  · refine ⟨?_, hall, rfl, ?_⟩
    · rw [hwritten, hbefore]
      exact (List.append_assoc settled [req] rest).symm
    · rw [hanswered]
      exact ha.answered
  · refine ⟨?_, fun other hother => ?_, ?_, fun pid resp hresp => ?_, ?_, h.kept.own.concat nofun⟩
    · rw [hall, hwritten, hbefore, List.append_cons settled req rest, @List.map_append _ _ _ _ rest]
      exact List.prefix_append _ _
    · rw [hwritten] at hother
      exact h.kept.requests other hother
    · rw [hwritten]
      exact h.kept.oneRequest
    · rw [hwritten]
      exact h.kept.echo pid resp (mem_of_mem_concat hresp nofun)
    · rw [hanswered]
      exact h.kept.once
  · rw [hwritten] at hother
    exact h.early pid client hclient hearly other hother

theorem Aligned.settle {s : System} {settled waiting : List Request} (h : Aligned s settled waiting)
    {server : ServerPlace} (hdone : current server = []) (resp : Response) :
    Aligned { s with server := server, resp := resp } (settled ++ current s.server) waiting := by
  refine ⟨?_, ?_, h.stream, fun path hpath => ?_⟩
  · change Protocol.written s.log = _ ++ current server ++ _
    rw [hdone, List.append_nil]
    exact h.written
  · change Protocol.received s.log = List.map _ (_ ++ current server)
    rw [hdone, List.append_nil]
    exact h.received
  · rcases h.answered path hpath with ⟨req, hreq, rfl⟩
    exact ⟨req, List.mem_append_left _ hreq, rfl⟩

theorem Sound.settle {s : System} (h : Sound s) {server : ServerPlace} (hdone : current server = [])
    (resp : Response) : Sound { s with server := server, resp := resp } := by
  rcases h.aligned with ⟨settled, waiting, ha⟩
  exact ⟨⟨_, waiting, ha.settle hdone resp⟩,
    ⟨h.kept.order, h.kept.requests, h.kept.oneRequest, h.kept.echo, h.kept.once, h.kept.own⟩,
    h.early, h.fifos⟩

theorem Aligned.current_not_answered {s : System} {settled waiting : List Request}
    (ha : Aligned s settled waiting) (h : Sound s) {req : Request}
    (hcurrent : current s.server = [req]) : clientPipePath req.pid ∉ Protocol.answered s.log := by
  intro hmem
  rcases ha.answered _ hmem with ⟨other, hother, hpath⟩
  have hnodup := h.kept.oneRequest
  rw [ha.written, hcurrent, List.append_assoc, List.map_append, List.nodup_append] at hnodup
  refine hnodup.2.2 other.pid (List.mem_map_of_mem hother) req.pid ?_
    (clientPipePath_injective hpath).symm
  exact List.mem_map_of_mem (List.mem_append_left _ (List.mem_singleton_self req))

theorem Sound.answer {s : System} (h : Sound s) {settled waiting : List Request}
    (ha : Aligned s settled waiting) {req : Request} (hreq : req ∈ settled)
    (hfresh : clientPipePath req.pid ∉ answered s.log) {fifo : ClientFifo}
    (hfifo : s.fifos (clientPipePath req.pid) = some fifo) (resp : Response) (behind : Bytes) :
    Sound { s.setFifo req.pid
        (some { fifo with data := fifo.data ++ (responseTo resp req behind).msg }) with
      log := s.log ++ [.answered (clientPipePath req.pid) (responseTo resp req behind)] } := by
  generalize hanswer : responseTo resp req behind = answer
  have hwritten := (written_concat s.log (.answered (clientPipePath req.pid) answer)).trans
    (List.append_nil _)
  have hreceived := (received_concat s.log (.answered (clientPipePath req.pid) answer)).trans
    (List.append_nil _)
  have hanswered := answered_concat s.log (.answered (clientPipePath req.pid) answer)
  have hreqWritten : req ∈ written s.log := by
    rw [ha.written, List.append_assoc]
    exact List.mem_append_left _ hreq
  have hempty : fifo.data = [] := by
    rcases h.fifos req.pid fifo hfifo with hempty | ⟨resp', hresp', _⟩
    · exact hempty
    · exact absurd (mem_answered_of_mem hresp') hfresh
  refine ⟨⟨settled, waiting, ?_⟩, ?_, fun pid client hclient hearly other hother => ?_,
    fun pid new hnew => ?_⟩
  · refine ⟨hwritten.trans ha.written, hreceived.trans ha.received, ha.stream, fun path hpath => ?_⟩
    rw [hanswered] at hpath
    rcases List.mem_append.mp hpath with hpath | hpath
    · exact ha.answered path hpath
    · exact ⟨req, hreq, List.mem_singleton.mp hpath⟩
  · refine ⟨?_, fun other hother => ?_, ?_, fun pid resp' hresp' => ?_, ?_,
      h.kept.own.concat nofun⟩
    · rw [hreceived, hwritten]
      exact h.kept.order
    · rw [hwritten] at hother
      exact h.kept.requests other hother
    · rw [hwritten]
      exact h.kept.oneRequest
    · rw [hwritten]
      rcases List.mem_append.mp hresp' with hresp' | hresp'
      · exact h.kept.echo pid resp' hresp'
      · rw [List.mem_singleton, Event.answered.injEq] at hresp'
        rcases hresp' with ⟨hpath, rfl⟩
        obtain rfl := clientPipePath_injective hpath
        rcases h.kept.requests req hreqWritten with ⟨msg, hmsg, hsame⟩
        refine ⟨msg, hmsg, hsame ▸ hreqWritten, ?_⟩
        rw [← hanswer, cStr_responseTo, hsame, messageText_requestOf]
    · rw [hanswered, List.nodup_append]
      refine ⟨h.kept.once, List.nodup_singleton _, fun path hpath path' hpath' => ?_⟩
      obtain rfl := List.mem_singleton.mp hpath'
      rintro rfl
      exact hfresh hpath
  · rw [hwritten] at hother
    exact h.early pid client hclient hearly other hother
  · replace hnew : Function.update s.fifos (clientPipePath req.pid) _ (clientPipePath pid) =
      some new := hnew
    rcases eq_or_ne (clientPipePath pid) (clientPipePath req.pid) with hpath | hne
    · rw [hpath, Function.update_self] at hnew
      obtain rfl := Option.some.inj hnew
      rw [Fed, hpath, hempty]
      exact Or.inr ⟨answer, List.mem_append_right _ (List.mem_singleton_self _), rfl⟩
    · rw [Function.update_of_ne hne] at hnew
      exact (h.fifos pid new hnew).concat _

theorem Sound.writeResponse {s : System} (h : Sound s) {req : Request}
    (hplace : s.server = .answering req) (behind : Bytes) : Sound (writeResponse s req behind) := by
  have hcurrent : current s.server = [req] := by
    rw [hplace]
    rfl
  have hsettled := @Sound.settle s h (.closing req) rfl (responseTo s.resp req behind)
  rw [Protocol.writeResponse]
  cases hfifo : s.fifos (clientPipePath req.pid) with
  | none => simpa only [hfifo] using hsettled
  | some fifo =>
      cases hreader : fifo.reader with
      | false => simpa only [hfifo, hreader, Bool.false_eq_true, if_false] using hsettled
      | true =>
          rcases h.aligned with ⟨settled, waiting, ha⟩
          have hfresh := ha.current_not_answered h hcurrent
          have haligned :=
            @Aligned.settle s _ _ ha (.closing req) rfl (responseTo s.resp req behind)
          have hmem : req ∈ settled ++ current s.server := by
            rw [hcurrent]
            exact List.mem_append_right _ (List.mem_singleton_self req)
          simpa only [hfifo, hreader, if_true] using
            hsettled.answer haligned hmem hfresh hfifo s.resp behind

theorem Sound.print {s : System} (h : Sound s) {pid : UInt32} {resp : Response}
    (hresp : Event.answered (clientPipePath pid) resp ∈ s.log) :
    Sound { s with log := s.log ++ [.printed pid (cStr resp.msg)] } := by
  rcases h.aligned with ⟨settled, waiting, ha⟩
  have hwritten := (written_concat s.log (.printed pid (cStr resp.msg))).trans (List.append_nil _)
  have hreceived := (received_concat s.log (.printed pid (cStr resp.msg))).trans
    (List.append_nil _)
  have hanswered := (answered_concat s.log (.printed pid (cStr resp.msg))).trans
    (List.append_nil _)
  refine ⟨⟨settled, waiting, ?_⟩, ?_, fun pid' client hclient hearly req hreq => ?_,
    fun pid' fifo hfifo => (h.fifos pid' fifo hfifo).concat _⟩
  · refine ⟨hwritten.trans ha.written, hreceived.trans ha.received, ha.stream, ?_⟩
    rw [hanswered]
    exact ha.answered
  · refine ⟨?_, fun req hreq => ?_, ?_, fun pid' resp' hresp' => ?_, ?_, fun pid' text htext => ?_⟩
    · rw [hreceived, hwritten]
      exact h.kept.order
    · rw [hwritten] at hreq
      exact h.kept.requests req hreq
    · rw [hwritten]
      exact h.kept.oneRequest
    · rw [hwritten]
      exact h.kept.echo pid' resp' (mem_of_mem_concat hresp' nofun)
    · rw [hanswered]
      exact h.kept.once
    · rcases List.mem_append.mp htext with htext | htext
      · rcases h.kept.own pid' text htext with ⟨resp', hresp', hsame⟩
        exact ⟨resp', List.mem_append_left _ hresp', hsame⟩
      · rw [List.mem_singleton, Event.printed.injEq] at htext
        rcases htext with ⟨rfl, rfl⟩
        exact ⟨resp, List.mem_append_left _ hresp, rfl⟩
  · rw [hwritten] at hreq
    exact h.early pid' client hclient hearly req hreq

theorem quiet_makeFifo (s : System) (pid : UInt32) : Quiet s (s.makeFifo pid) := by
  rw [System.makeFifo]
  split
  · apply quiet_setFifo
    rintro new ⟨⟩
    exact Or.inl rfl
  · exact quiet_server rfl

theorem clients_makeFifo (s : System) (pid : UInt32) : (s.makeFifo pid).clients = s.clients := by
  rw [System.makeFifo]
  split
  · rfl
  · rfl

theorem quiet_keepFifo {s : System} {pid : UInt32} {old new : ClientFifo}
    (hold : s.fifos (clientPipePath pid) = some old) (hdata : new.data = [] ∨ new.data = old.data) :
    Quiet s (s.setFifo pid (some new)) := by
  apply quiet_setFifo
  rintro fifo ⟨⟩
  rcases hdata with hempty | hsame
  · exact Or.inl hempty
  · exact Or.inr ⟨old, hold, hsame⟩

theorem quiet_vanish {s : System} {pid : UInt32} {client : Client}
    (hclient : s.clients pid = some client) (unlinks : Bool) :
    Quiet s (vanish s pid client unlinks) := by
  rw [vanish]
  split
  · exact quiet_move hclient False.elim
  · rename_i fifo hfifo
    cases unlinks with
    | false =>
        exact (quiet_keepFifo hfifo fifo.closeReader_data).trans (quiet_move hclient False.elim)
    | true =>
        have hgone : Quiet s (s.setFifo pid none) := quiet_setFifo nofun
        exact hgone.trans (quiet_move hclient False.elim)

theorem Sound.readResponse {s : System} (h : Sound s) {pid : UInt32} {client : Client}
    {fifo : ClientFifo} (hclient : s.clients pid = some client)
    (hfifo : s.fifos (clientPipePath pid) = some fifo) :
    Sound (readResponse s pid client fifo) := by
  have hdrained : Sound
      (s.setFifo pid (some { fifo with data := fifo.data.drop responseSize })) := by
    apply h.quiet (quiet_keepFifo hfifo (Or.inl _))
    rcases h.fifos pid fifo hfifo with hempty | ⟨resp, _, hdata⟩
    · change fifo.data.drop responseSize = []
      rw [hempty]
      rfl
    · change fifo.data.drop responseSize = []
      rw [hdata]
      exact List.drop_of_length_le resp.length_msg.le
  rw [Protocol.readResponse]
  split
  · rename_i hfull
    rcases h.fifos pid fifo hfifo with hempty | ⟨resp, hresp, hdata⟩
    · rw [hempty] at hfull
      cases hfull
    · have htext : fifo.data.take responseSize = resp.msg := by
        rw [hdata]
        exact List.take_of_length_le resp.length_msg.le
      rw [htext]
      exact (@Sound.print _ hdrained pid resp hresp).quiet (quiet_move hclient False.elim)
  · exact hdrained.quiet (quiet_move hclient False.elim)

theorem Sound.writeRequest {s : System} (h : Sound s) {pid : UInt32} {client : Client}
    (hclient : s.clients pid = some client) (hplace : client.place = .writing) :
    Sound { s.move pid client .closingServer with
      stream := s.stream ++ (requestOf pid client.msg).bytes
      log := s.log ++ [.written (requestOf pid client.msg)] } := by
  have hmoved : Sound (s.move pid client .closingServer) := h.quiet (quiet_move hclient False.elim)
  apply hmoved.write
  · rw [message_move hclient, System.message, hclient]
    rfl
  · apply h.early pid client hclient
    rw [hplace]
    trivial
  · intro client' hclient' hearly
    replace hclient' : Function.update s.clients pid _ pid = some client' := hclient'
    rw [Function.update_self] at hclient'
    obtain rfl := Option.some.inj hclient'
    exact hearly

theorem Sound.step {s s' : System} {action : Action} (h : Sound s)
    (hstep : step s action = some s') : Sound s' := by
  cases moves_of_step hstep with
  | started pid msg hnew => exact h.quiet (quiet_start hnew)
  | madeFifo pid client hclient hplace =>
      have hearly : Early client.place := by
        rw [hplace]
        trivial
      have hsame : (s.makeFifo pid).clients pid = some client := by
        rw [clients_makeFifo]
        exact hclient
      exact h.quiet ((quiet_makeFifo s pid).trans (quiet_move hsame fun _ => hearly))
  | openedServer pid client hclient hplace =>
      have hearly : Early client.place := by
        rw [hplace]
        trivial
      exact h.quiet (quiet_move hclient fun _ => hearly)
  | wroteRequest pid client hclient hplace => exact h.writeRequest hclient hplace
  | closedServer pid client hclient _ => exact h.quiet (quiet_move hclient False.elim)
  | openingOwn pid client fifo hclient _ hfifo =>
      have hopened : Quiet s (s.setFifo pid
          (some { fifo with reader := true, served := fifo.writer })) :=
        quiet_keepFifo hfifo (Or.inr rfl)
      exact h.quiet (hopened.trans (quiet_move hclient False.elim))
  | openedOwn pid client fifo hclient _ _ _ => exact h.quiet (quiet_move hclient False.elim)
  | readOwn pid client fifo hclient _ hfifo _ => exact h.readResponse hclient hfifo
  | closedOwn pid client fifo hclient _ hfifo =>
      exact (h.quiet (quiet_keepFifo hfifo fifo.closeReader_data)).quiet
        (quiet_move hclient False.elim)
  | vanished pid client unlinks hclient _ => exact h.quiet (quiet_vanish hclient unlinks)
  | serverRead hplace hstream => exact h.read hplace hstream
  | serverOpened req fifo hplace hfifo _ =>
      have hopened : Quiet s (s.setFifo req.pid
          (some { fifo with writer := true, served := true })) :=
        quiet_keepFifo hfifo (Or.inr rfl)
      apply h.quiet (hopened.trans (quiet_server _))
      change current (.answering req) = current s.server
      rw [hplace]
      rfl
  | serverSkipped req ok _ _ => exact @Sound.settle s h .reading rfl s.resp
  | serverWrote req behind hplace => exact h.writeResponse hplace behind
  | serverClosed req fifo hplace hfifo =>
      have hcurrent : current .reading = current s.server := by
        rw [hplace]
        rfl
      exact (h.quiet (quiet_keepFifo hfifo fifo.closeWriter_data)).quiet (quiet_server hcurrent)
  | serverClosedUnlinked req hplace _ =>
      have hcurrent : current .reading = current s.server := by
        rw [hplace]
        rfl
      exact h.quiet (quiet_server hcurrent)

theorem sound_start (resp : Response) (stale : Bytes → Bool) : Sound (.start resp stale) := by
  refine ⟨⟨[], [], ⟨rfl, rfl, rfl, nofun⟩⟩, ⟨List.prefix_rfl, nofun, List.nodup_nil, nofun,
    List.nodup_nil, nofun⟩, nofun, fun pid fifo hfifo => Or.inl ?_⟩
  replace hfifo : (if stale (clientPipePath pid) then some ClientFifo.empty else none) =
    some fifo := hfifo
  split at hfifo
  · obtain rfl := Option.some.inj hfifo
    rfl
  · cases hfifo

/-- Every interleaving of any clients with the server keeps the promises. -/
theorem protocol_kept (resp : Response) (stale : Bytes → Bool) (actions : List Action) :
    EveryState step Kept (.start resp stale) actions := by
  intro visited hvisited s hrun
  have hsound : EveryState step Sound (.start resp stale) actions :=
    invariant (sound_start resp stale) (fun _ _ _ h hstep => h.step hstep) actions
  exact (hsound visited hvisited s hrun).kept

end StudyLinuxKernel.Fifo.Exchange
