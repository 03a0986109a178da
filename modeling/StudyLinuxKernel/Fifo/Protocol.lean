import StudyLinuxKernel.Fifo.Records
import StudyLinuxKernel.Library.PartialStep

namespace StudyLinuxKernel.Fifo.Protocol

open StudyLinuxKernel.Fifo.Records
open StudyLinuxKernel.Libc.Text
open StudyLinuxKernel.Library.PartialStep

/-- What a client does next. -/
inductive ClientPlace where
  | makingFifo
  | openingServer
  | writing
  | closingServer
  | openingOwn
  | waiting
  | reading
  | closingOwn
  | exiting
  | gone
  deriving DecidableEq

structure Client where
  msg : Argument
  place : ClientPlace

/-- The FIFO of a client: what it holds, who has it open, and whether the server
has opened it since the client began to. -/
structure ClientFifo where
  data : Bytes
  reader : Bool
  writer : Bool
  served : Bool

def ClientFifo.empty : ClientFifo :=
  { data := [], reader := false, writer := false, served := false }

/-- A FIFO that nobody has open loses what it holds. -/
def ClientFifo.closeReader (fifo : ClientFifo) : ClientFifo :=
  { fifo with data := if fifo.writer then fifo.data else [], reader := false }

def ClientFifo.closeWriter (fifo : ClientFifo) : ClientFifo :=
  { fifo with data := if fifo.reader then fifo.data else [], writer := false }

theorem ClientFifo.closeReader_data (fifo : ClientFifo) :
    fifo.closeReader.data = [] ∨ fifo.closeReader.data = fifo.data := by
  rw [closeReader]
  cases fifo.writer with
  | false => exact Or.inl rfl
  | true => exact Or.inr rfl

theorem ClientFifo.closeWriter_data (fifo : ClientFifo) :
    fifo.closeWriter.data = [] ∨ fifo.closeWriter.data = fifo.data := by
  rw [closeWriter]
  cases fifo.reader with
  | false => exact Or.inl rfl
  | true => exact Or.inr rfl

inductive ServerPlace where
  | reading
  | opening (req : Request)
  | answering (req : Request)
  | closing (req : Request)

inductive Event where
  | written (req : Request)
  | received (bytes : Bytes)
  | answered (path : Bytes) (resp : Response)
  | printed (pid : UInt32) (text : Bytes)

/-- `stream` is what the FIFO of the server holds, which is taken to have room for
every request, and `resp` the memory of the variable in its loop.  A process number
is given to one client only. -/
structure System where
  stream : Bytes
  clients : UInt32 → Option Client
  fifos : Bytes → Option ClientFifo
  server : ServerPlace
  resp : Response
  log : List Event

/-- The server is about to enter its loop, and has both ends of its FIFO open; there
may be FIFOs of clients that left them behind. -/
def System.start (resp : Response) (stale : Bytes → Bool) : System where
  stream := []
  clients := fun _ => none
  fifos := fun path => if stale path then some .empty else none
  server := .reading
  resp := resp
  log := []

inductive Action where
  | start (pid : UInt32) (msg : Argument)
  | makeFifo (pid : UInt32)
  | openServer (pid : UInt32)
  | writeRequest (pid : UInt32)
  | closeServer (pid : UInt32)
  | openOwn (pid : UInt32)
  | opened (pid : UInt32)
  | readOwn (pid : UInt32)
  | closeOwn (pid : UInt32)
  | vanish (pid : UInt32) (unlinks : Bool)
  | serverRead
  | serverOpen (ok : Bool)
  | serverWrite (behind : Bytes)
  | serverClose

def System.move (s : System) (pid : UInt32) (client : Client) (place : ClientPlace) : System :=
  { s with clients := Function.update s.clients pid (some { client with place := place }) }

def System.setFifo (s : System) (pid : UInt32) (fifo : Option ClientFifo) : System :=
  { s with fifos := Function.update s.fifos (clientPipePath pid) fifo }

/-- The client, if it is at the place. -/
def System.clientAt (s : System) (pid : UInt32) (place : ClientPlace) : Option Client :=
  (s.clients pid).filter fun client => client.place = place

/-- `mkfifo`, which may find the FIFO there. -/
def System.makeFifo (s : System) (pid : UInt32) : System :=
  match s.fifos (clientPipePath pid) with
  | none => s.setFifo pid (some .empty)
  | some _ => s

/-- The read of a response: all of `struct response`, or an error message. -/
def readResponse (s : System) (pid : UInt32) (client : Client) (fifo : ClientFifo) : System :=
  let bytes := fifo.data.take responseSize
  let s := s.setFifo pid (some { fifo with data := fifo.data.drop responseSize })
  let s :=
    if bytes.length = responseSize then { s with log := s.log ++ [.printed pid (cStr bytes)] }
    else s
  s.move pid client .closingOwn

/-- The process ends and its descriptors are closed; `removeFifo` runs where it
ends by `exit`. -/
def vanish (s : System) (pid : UInt32) (client : Client) (unlinks : Bool) : System :=
  match s.fifos (clientPipePath pid) with
  | none => s.move pid client .gone
  | some fifo =>
      (s.setFifo pid (if unlinks then none else some fifo.closeReader)).move pid client .gone

/-- The read of a request, which is taken not to fail: with its own write end open,
the server waits where the FIFO is empty. -/
def readRequest (s : System) : System :=
  let bytes := s.stream.take requestSize
  let s := { s with
    stream := s.stream.drop requestSize
    log := s.log ++ [.received bytes] }
  if h : bytes.length = requestSize then { s with server := .opening (Request.ofBytes bytes h) }
  else s

/-- `snprintf` and `write`; nothing is written where nobody reads. -/
def writeResponse (s : System) (req : Request) (behind : Bytes) : System :=
  let resp := responseTo s.resp req behind
  let s := { s with resp := resp, server := .closing req }
  match s.fifos (clientPipePath req.pid) with
  | none => s
  | some fifo =>
      if fifo.reader then
        { s.setFifo req.pid (some { fifo with data := fifo.data ++ resp.msg }) with
          log := s.log ++ [.answered (clientPipePath req.pid) resp] }
      else s

/-- A step that would block has no result. -/
def step (s : System) : Action → Option System
  | .start pid msg =>
      match s.clients pid with
      | none => some { s with
          clients := Function.update s.clients pid (some { msg := msg, place := .makingFifo }) }
      | some _ => none
  | .makeFifo pid => do
      let client ← s.clientAt pid .makingFifo
      some ((s.makeFifo pid).move pid client .openingServer)
  | .openServer pid => do
      let client ← s.clientAt pid .openingServer
      some (s.move pid client .writing)
  | .writeRequest pid => do
      let client ← s.clientAt pid .writing
      let req := requestOf pid client.msg
      some { s.move pid client .closingServer with
        stream := s.stream ++ req.bytes
        log := s.log ++ [.written req] }
  | .closeServer pid => do
      let client ← s.clientAt pid .closingServer
      some (s.move pid client .openingOwn)
  | .openOwn pid => do
      let client ← s.clientAt pid .openingOwn
      let fifo ← s.fifos (clientPipePath pid)
      some ((s.setFifo pid (some { fifo with reader := true, served := fifo.writer })).move pid
        client .waiting)
  | .opened pid => do
      let client ← s.clientAt pid .waiting
      let fifo ← s.fifos (clientPipePath pid)
      if fifo.served then some (s.move pid client .reading) else none
  | .readOwn pid => do
      let client ← s.clientAt pid .reading
      let fifo ← s.fifos (clientPipePath pid)
      if fifo.data = [] ∧ fifo.writer then none else some (readResponse s pid client fifo)
  | .closeOwn pid => do
      let client ← s.clientAt pid .closingOwn
      let fifo ← s.fifos (clientPipePath pid)
      some ((s.setFifo pid (some fifo.closeReader)).move pid client .exiting)
  | .vanish pid unlinks => do
      let client ← s.clients pid
      if client.place = .gone then none else some (vanish s pid client unlinks)
  | .serverRead =>
      match s.server with
      -- The server has a write end of its own, so that there is no end of file.
      | .reading => if s.stream = [] then none else some (readRequest s)
      | _ => none
  | .serverOpen ok =>
      match s.server with
      | .opening req =>
          match s.fifos (clientPipePath req.pid) with
          | none => some { s with server := .reading }
          | some fifo =>
              if ok then
                if fifo.reader then
                  some { s.setFifo req.pid (some { fifo with writer := true, served := true }) with
                    server := .answering req }
                else none
              else some { s with server := .reading }
      | _ => none
  | .serverWrite behind =>
      match s.server with
      | .answering req => some (writeResponse s req behind)
      | _ => none
  | .serverClose =>
      match s.server with
      | .closing req =>
          match s.fifos (clientPipePath req.pid) with
          | none => some { s with server := .reading }
          | some fifo => some { s.setFifo req.pid (some fifo.closeWriter) with server := .reading }
      | _ => none

def writtenOf : Event → Option Request
  | .written req => some req
  | _ => none

def receivedOf : Event → Option Bytes
  | .received bytes => some bytes
  | _ => none

def answeredOf : Event → Option Bytes
  | .answered path _ => some path
  | _ => none

/-- The requests in the order in which they were written. -/
def written (log : List Event) : List Request := log.filterMap writtenOf

/-- What the reads of the server returned. -/
def received (log : List Event) : List Bytes := log.filterMap receivedOf

/-- The FIFOs that responses were written to. -/
def answered (log : List Event) : List Bytes := log.filterMap answeredOf

def System.message (s : System) (pid : UInt32) : Option Argument := (s.clients pid).map Client.msg

theorem clientAt_eq_some_iff {s : System} {pid : UInt32} {place : ClientPlace} {client : Client} :
    s.clientAt pid place = some client ↔ s.clients pid = some client ∧ client.place = place := by
  rw [System.clientAt, Option.filter_eq_some_iff, decide_eq_true_eq]

theorem bind_clientAt_eq_some {s s' : System} {pid : UInt32} {place : ClientPlace}
    {next : Client → Option System} (h : (s.clientAt pid place).bind next = some s') :
    ∃ client, s.clients pid = some client ∧ client.place = place ∧ next client = some s' := by
  rcases Option.bind_eq_some_iff.mp h with ⟨client, hat, hnext⟩
  rcases clientAt_eq_some_iff.mp hat with ⟨hclient, hplace⟩
  exact ⟨client, hclient, hplace, hnext⟩

/-- The steps, each with its guard. -/
inductive Moves (s : System) : Action → System → Prop where
  | started (pid : UInt32) (msg : Argument) : s.clients pid = none →
      Moves s (.start pid msg) { s with
        clients := Function.update s.clients pid (some { msg := msg, place := .makingFifo }) }
  | madeFifo (pid : UInt32) (client : Client) : s.clients pid = some client →
      client.place = .makingFifo →
      Moves s (.makeFifo pid) ((s.makeFifo pid).move pid client .openingServer)
  | openedServer (pid : UInt32) (client : Client) : s.clients pid = some client →
      client.place = .openingServer →
      Moves s (.openServer pid) (s.move pid client .writing)
  | wroteRequest (pid : UInt32) (client : Client) : s.clients pid = some client →
      client.place = .writing →
      Moves s (.writeRequest pid) { s.move pid client .closingServer with
        stream := s.stream ++ (requestOf pid client.msg).bytes
        log := s.log ++ [.written (requestOf pid client.msg)] }
  | closedServer (pid : UInt32) (client : Client) : s.clients pid = some client →
      client.place = .closingServer →
      Moves s (.closeServer pid) (s.move pid client .openingOwn)
  | openingOwn (pid : UInt32) (client : Client) (fifo : ClientFifo) :
      s.clients pid = some client → client.place = .openingOwn →
      s.fifos (clientPipePath pid) = some fifo →
      Moves s (.openOwn pid) ((s.setFifo pid
        (some { fifo with reader := true, served := fifo.writer })).move pid client .waiting)
  | openedOwn (pid : UInt32) (client : Client) (fifo : ClientFifo) :
      s.clients pid = some client → client.place = .waiting →
      s.fifos (clientPipePath pid) = some fifo → fifo.served = true →
      Moves s (.opened pid) (s.move pid client .reading)
  | readOwn (pid : UInt32) (client : Client) (fifo : ClientFifo) :
      s.clients pid = some client → client.place = .reading →
      s.fifos (clientPipePath pid) = some fifo → ¬ (fifo.data = [] ∧ fifo.writer = true) →
      Moves s (.readOwn pid) (readResponse s pid client fifo)
  | closedOwn (pid : UInt32) (client : Client) (fifo : ClientFifo) :
      s.clients pid = some client → client.place = .closingOwn →
      s.fifos (clientPipePath pid) = some fifo →
      Moves s (.closeOwn pid)
        ((s.setFifo pid (some fifo.closeReader)).move pid client .exiting)
  | vanished (pid : UInt32) (client : Client) (unlinks : Bool) : s.clients pid = some client →
      client.place ≠ .gone →
      Moves s (.vanish pid unlinks) (vanish s pid client unlinks)
  | serverRead : s.server = .reading → s.stream ≠ [] → Moves s .serverRead (readRequest s)
  | serverOpened (req : Request) (fifo : ClientFifo) : s.server = .opening req →
      s.fifos (clientPipePath req.pid) = some fifo → fifo.reader = true →
      Moves s (.serverOpen true)
        { s.setFifo req.pid (some { fifo with writer := true, served := true }) with
          server := .answering req }
  | serverSkipped (req : Request) (ok : Bool) : s.server = .opening req →
      s.fifos (clientPipePath req.pid) = none ∨ ok = false →
      Moves s (.serverOpen ok) { s with server := .reading }
  | serverWrote (req : Request) (behind : Bytes) : s.server = .answering req →
      Moves s (.serverWrite behind) (writeResponse s req behind)
  | serverClosed (req : Request) (fifo : ClientFifo) : s.server = .closing req →
      s.fifos (clientPipePath req.pid) = some fifo →
      Moves s .serverClose { s.setFifo req.pid (some fifo.closeWriter) with server := .reading }
  | serverClosedUnlinked (req : Request) : s.server = .closing req →
      s.fifos (clientPipePath req.pid) = none →
      Moves s .serverClose { s with server := .reading }

theorem moves_of_step {s s' : System} {action : Action} (h : step s action = some s') :
    Moves s action s' := by
  cases action with
  | start pid msg =>
      rw [step] at h
      split at h
      · rename_i hnew
        obtain rfl := Option.some.inj h
        exact .started pid msg hnew
      · cases h
  | makeFifo pid =>
      rcases bind_clientAt_eq_some h with ⟨client, hclient, hplace, hsome⟩
      obtain rfl := Option.some.inj hsome
      exact .madeFifo pid client hclient hplace
  | openServer pid =>
      rcases bind_clientAt_eq_some h with ⟨client, hclient, hplace, hsome⟩
      obtain rfl := Option.some.inj hsome
      exact .openedServer pid client hclient hplace
  | writeRequest pid =>
      rcases bind_clientAt_eq_some h with ⟨client, hclient, hplace, hsome⟩
      obtain rfl := Option.some.inj hsome
      exact .wroteRequest pid client hclient hplace
  | closeServer pid =>
      rcases bind_clientAt_eq_some h with ⟨client, hclient, hplace, hsome⟩
      obtain rfl := Option.some.inj hsome
      exact .closedServer pid client hclient hplace
  | openOwn pid =>
      rcases bind_clientAt_eq_some h with ⟨client, hclient, hplace, hrest⟩
      rcases Option.bind_eq_some_iff.mp hrest with ⟨fifo, hfifo, hsome⟩
      obtain rfl := Option.some.inj hsome
      exact .openingOwn pid client fifo hclient hplace hfifo
  | opened pid =>
      rcases bind_clientAt_eq_some h with ⟨client, hclient, hplace, hrest⟩
      rcases Option.bind_eq_some_iff.mp hrest with ⟨fifo, hfifo, hsome⟩
      obtain ⟨hserved, heq⟩ := Option.ite_none_right_eq_some.mp hsome
      obtain rfl := Option.some.inj heq
      exact .openedOwn pid client fifo hclient hplace hfifo hserved
  | readOwn pid =>
      rcases bind_clientAt_eq_some h with ⟨client, hclient, hplace, hrest⟩
      rcases Option.bind_eq_some_iff.mp hrest with ⟨fifo, hfifo, hsome⟩
      obtain ⟨hblock, heq⟩ := Option.ite_none_left_eq_some.mp hsome
      obtain rfl := Option.some.inj heq
      exact .readOwn pid client fifo hclient hplace hfifo hblock
  | closeOwn pid =>
      rcases bind_clientAt_eq_some h with ⟨client, hclient, hplace, hrest⟩
      rcases Option.bind_eq_some_iff.mp hrest with ⟨fifo, hfifo, hsome⟩
      obtain rfl := Option.some.inj hsome
      exact .closedOwn pid client fifo hclient hplace hfifo
  | vanish pid unlinks =>
      rcases Option.bind_eq_some_iff.mp h with ⟨client, hclient, hsome⟩
      obtain ⟨hplace, heq⟩ := Option.ite_none_left_eq_some.mp hsome
      obtain rfl := Option.some.inj heq
      exact .vanished pid client unlinks hclient hplace
  | serverRead =>
      rw [step] at h
      split at h
      · rename_i hplace
        obtain ⟨hstream, heq⟩ := Option.ite_none_left_eq_some.mp h
        obtain rfl := Option.some.inj heq
        exact .serverRead hplace hstream
      · cases h
  | serverOpen ok =>
      rw [step] at h
      split at h
      · rename_i req hplace
        split at h
        · rename_i hnone
          obtain rfl := Option.some.inj h
          exact .serverSkipped req ok hplace (Or.inl hnone)
        · rename_i fifo hfifo
          rcases ok with _ | _
          · obtain rfl := Option.some.inj h
            exact .serverSkipped req false hplace (Or.inr rfl)
          · rw [if_pos rfl] at h
            obtain ⟨hreader, heq⟩ := Option.ite_none_right_eq_some.mp h
            obtain rfl := Option.some.inj heq
            exact .serverOpened req fifo hplace hfifo hreader
      · cases h
  | serverWrite behind =>
      rw [step] at h
      split at h
      · rename_i req hplace
        obtain rfl := Option.some.inj h
        exact .serverWrote req behind hplace
      · cases h
  | serverClose =>
      rw [step] at h
      split at h
      · rename_i req hplace
        split at h
        · rename_i hnone
          obtain rfl := Option.some.inj h
          exact .serverClosedUnlinked req hplace hnone
        · rename_i fifo hfifo
          obtain rfl := Option.some.inj h
          exact .serverClosed req fifo hplace hfifo
      · cases h

theorem written_concat (log : List Event) (event : Event) :
    written (log ++ [event]) = written log ++ (writtenOf event).toList := by
  rw [written, List.filterMap_append]
  cases event <;> rfl

theorem received_concat (log : List Event) (event : Event) :
    received (log ++ [event]) = received log ++ (receivedOf event).toList := by
  rw [received, List.filterMap_append]
  cases event <;> rfl

theorem answered_concat (log : List Event) (event : Event) :
    answered (log ++ [event]) = answered log ++ (answeredOf event).toList := by
  rw [answered, List.filterMap_append]
  cases event <;> rfl

theorem mem_of_mem_concat {log : List Event} {event other : Event} (h : event ∈ log ++ [other])
    (hne : event ≠ other) : event ∈ log := by
  rcases List.mem_append.mp h with hmem | hmem
  · exact hmem
  · exact absurd (List.mem_singleton.mp hmem) hne

theorem mem_answered_of_mem {path : Bytes} {resp : Response} {log : List Event}
    (h : Event.answered path resp ∈ log) : path ∈ answered log :=
  List.mem_filterMap.mpr ⟨_, h, rfl⟩

end StudyLinuxKernel.Fifo.Protocol
