import StudyLinuxKernel.Fifo.NonInterference
import StudyLinuxKernel.Fifo.Progress
import StudyLinuxKernel.Library.StepBound

namespace StudyLinuxKernel.Fifo.Completion

open StudyLinuxKernel.Fifo.Exchange
open StudyLinuxKernel.Fifo.NonInterference
open StudyLinuxKernel.Fifo.Progress
open StudyLinuxKernel.Fifo.Protocol
open StudyLinuxKernel.Fifo.Records
open StudyLinuxKernel.Libc.Text
open StudyLinuxKernel.Library.PartialStep
open StudyLinuxKernel.Library.StepBound

/-- No process that has been started can go on. -/
def Stuck (s : System) : Prop :=
  ∀ action, Regular s action → (∀ pid msg, action ≠ .start pid msg) → step s action = none

/-- The client has printed its answer and has ended. -/
def Completed (s : System) (pid : UInt32) (client : Client) : Prop :=
  client.place = .gone ∧ Event.printed pid (answerText client.msg) ∈ s.log

theorem clientAt_of {s : System} {pid : UInt32} {client : Client} {place : ClientPlace}
    (hclient : s.clients pid = some client) (hplace : client.place = place) :
    s.clientAt pid place = some client :=
  clientAt_eq_some_iff.mpr ⟨hclient, hplace⟩

theorem server_of_stuck {s : System} {waiting : List Request} (h : Live s waiting)
    (hstuck : Stuck s) : s.server = .reading ∧ waiting = [] := by
  cases hplace : s.server with
  | reading =>
      refine ⟨rfl, ?_⟩
      have hread := hstuck .serverRead trivial (fun _ _ h => by cases h)
      rw [Protocol.step, hplace] at hread
      change (if s.stream = [] then none else some (Protocol.readRequest s)) = none at hread
      split at hread
      · rename_i hstream
        cases waiting with
        | nil => rfl
        | cons req waiting =>
            have hlength := congrArg List.length (h.stream.symm.trans hstream)
            rw [List.flatMap_cons, List.length_append, req.length_bytes, List.length_nil] at hlength
            have hsize : requestSize = 20 := rfl
            omega
      · cases hread
  | answering req =>
      have hwrite := hstuck (.serverWrite []) trivial (fun _ _ h => by cases h)
      rw [Protocol.step, hplace] at hwrite
      cases hwrite
  | closing req =>
      have hclose := hstuck .serverClose trivial (fun _ _ h => by cases h)
      rw [Protocol.step, hplace] at hclose
      cases hfifo : s.fifos (clientPipePath req.pid) with
      | none => simp only [hfifo, reduceCtorEq] at hclose
      | some fifo => simp only [hfifo, reduceCtorEq] at hclose
  | opening req =>
      exfalso
      have hserving : serving s.server = some (req, .opening) := by
        rw [hplace]
        rfl
      obtain ⟨client, hclient, _, hexpected⟩ := h.client_of_serving hserving
      -- The client that the server waits for is on its way to open its FIFO.
      rcases expected_opening hexpected with ⟨hfifo, hclosing | hopening⟩ | ⟨hfifo, _⟩
      · have hclose := hstuck (.closeServer req.pid) trivial (fun _ _ h => by cases h)
        rw [Protocol.step, clientAt_of hclient hclosing] at hclose
        cases hclose
      · have hopen := hstuck (.openOwn req.pid) trivial (fun _ _ h => by cases h)
        rw [Protocol.step, clientAt_of hclient hopening, hfifo] at hopen
        cases hopen
      · have hopen := hstuck (.serverOpen true) rfl (fun _ _ h => by cases h)
        rw [Protocol.step, hplace] at hopen
        simp only [hfifo, if_true, reduceCtorEq] at hopen

theorem statusOf_of_done {server : ServerPlace} (h : server = .reading) (pid : UInt32) :
    statusOf server [] pid = .idle := by
  rw [h]
  rfl

theorem served_idle {text : Bytes} {fifo : Option ClientFifo} (h : Served text fifo .idle) :
    ∃ data, data ≠ [] ∧
      fifo = some { data, reader := true, writer := false, served := true } := by
  rcases h with ⟨_, hstatus⟩ | ⟨data, writer, hlength, _, hfifo, hstatus⟩
  · cases hstatus
  · cases writer with
    | false =>
        refine ⟨data, ?_, hfifo⟩
        rintro rfl
        cases hlength
    | true => cases hstatus

theorem completed_of_live {s : System} {waiting : List Request} (h : Live s waiting)
    (hstuck : Stuck s) {pid : UInt32} {client : Client} (hclient : s.clients pid = some client) :
    Completed s pid client := by
  obtain ⟨hserver, rfl⟩ := server_of_stuck h hstuck
  have hexpected := h.expected hclient rfl
  rw [statusOf_of_done hserver] at hexpected
  cases hplace : client.place with
  | makingFifo =>
      have hmake := hstuck (.makeFifo pid) trivial (fun _ _ h => by cases h)
      rw [Protocol.step, clientAt_of hclient hplace] at hmake
      cases hmake
  | openingServer =>
      have hopen := hstuck (.openServer pid) trivial (fun _ _ h => by cases h)
      rw [Protocol.step, clientAt_of hclient hplace] at hopen
      cases hopen
  | writing =>
      have hwrite := hstuck (.writeRequest pid) trivial (fun _ _ h => by cases h)
      rw [Protocol.step, clientAt_of hclient hplace] at hwrite
      cases hwrite
  | closingServer | openingOwn =>
      rw [hplace] at hexpected
      rcases hexpected.2 with hstatus | hstatus <;> cases hstatus
  | waiting =>
      rw [hplace] at hexpected
      rcases hexpected with ⟨_, hpending⟩ | hserved
      · rcases hpending with hstatus | hstatus <;> cases hstatus
      · rcases served_idle hserved with ⟨data, _, hfifo⟩
        have hopened := hstuck (.opened pid) trivial (fun _ _ h => by cases h)
        rw [Protocol.step, clientAt_of hclient hplace, hfifo] at hopened
        cases hopened
  | reading =>
      rw [hplace] at hexpected
      rcases served_idle hexpected with ⟨data, hdata, hfifo⟩
      have hread := hstuck (.readOwn pid) trivial (fun _ _ h => by cases h)
      rw [Protocol.step, clientAt_of hclient hplace, hfifo] at hread
      change (if data = [] ∧ false = true then none else some _) = none at hread
      rw [if_neg (fun hblock => hdata hblock.1)] at hread
      cases hread
  | closingOwn =>
      rw [hplace] at hexpected
      rcases Option.isSome_iff_exists.mp hexpected.1 with ⟨fifo, hfifo⟩
      have hclose := hstuck (.closeOwn pid) trivial (fun _ _ h => by cases h)
      rw [Protocol.step, clientAt_of hclient hplace, hfifo] at hclose
      cases hclose
  | exiting =>
      have hexit := hstuck (.vanish pid true) ⟨rfl, client, hclient, hplace⟩
        (fun _ _ h => by cases h)
      rw [Protocol.step, hclient] at hexit
      change (if client.place = .gone then none else _) = none at hexit
      rw [hplace, if_neg (by decide)] at hexit
      cases hexit
  | gone =>
      rw [hplace] at hexpected
      exact ⟨hplace, hexpected.1⟩

/-- No interleaving gets stuck before every client has printed its answer. -/
theorem completed_of_stuck (resp : Response) (stale : Bytes → Bool) (actions : List Action)
    (h : EveryStep step Regular (.start resp stale) actions) (s : System)
    (hrun : run step (.start resp stale) actions = some s) (hstuck : Stuck s) (pid : UInt32)
    (client : Client) (hclient : s.clients pid = some client) : Completed s pid client := by
  rcases (live_of_run h).reached hrun with ⟨waiting, hlive⟩
  exact completed_of_live hlive hstuck hclient

theorem stuck_of_gone {s : System} (hserver : s.server = .reading) (hstream : s.stream = [])
    (hclients : ∀ pid client, s.clients pid = some client → client.place = .gone) : Stuck s := by
  have hat : ∀ pid place, place ≠ .gone → s.clientAt pid place = none := by
    intro pid place hplace
    rw [Option.eq_none_iff_forall_ne_some]
    intro client hclient
    rcases clientAt_eq_some_iff.mp hclient with ⟨hsome, hsame⟩
    exact hplace (hsame ▸ hclients pid client hsome)
  intro action _ hstart
  cases action with
  | start pid msg => exact absurd rfl (hstart pid msg)
  | vanish pid unlinks =>
      cases hclient : s.clients pid with
      | none =>
          rw [Protocol.step, hclient]
          rfl
      | some client =>
          rw [Protocol.step, hclient]
          exact if_pos (hclients pid client hclient)
  | serverRead =>
      rw [Protocol.step, hserver]
      exact if_pos hstream
  | serverOpen ok | serverWrite behind | serverClose => rw [Protocol.step, hserver]
  | makeFifo pid | openServer pid | writeRequest pid | closeServer pid | openOwn pid | opened pid
    | readOwn pid | closeOwn pid =>
      rw [Protocol.step, hat pid _ (by decide)]
      rfl

/-- The way of a client from its answer on. -/
def finish (pid : UInt32) : List Action := [.opened pid, .readOwn pid, .closeOwn pid]

def finished (s : System) (pid : UInt32) (msg : Argument) : System :=
  { served s pid msg with
    clients := Function.update s.clients pid (some { msg := msg, place := .exiting })
    fifos := Function.update s.fifos (clientPipePath pid)
      (some { data := [], reader := false, writer := false, served := true })
    log := (served s pid msg).log ++ [.printed pid (answerText msg)] }

theorem run_finish (s : System) (pid : UInt32) (msg : Argument) :
    run step (served s pid msg) (finish pid) = some (finished s pid msg) := by
  have hlength := (responseTo s.resp (requestOf pid msg) []).length_msg
  have htake : (responseTo s.resp (requestOf pid msg) []).msg.take responseSize =
      (responseTo s.resp (requestOf pid msg) []).msg := List.take_of_length_le hlength.le
  have hdrop : (responseTo s.resp (requestOf pid msg) []).msg.drop responseSize = [] :=
    List.drop_of_length_le hlength.le
  have hsize : (responseTo s.resp (requestOf pid msg) []).msg.length = responseSize := hlength
  have hdata : (responseTo s.resp (requestOf pid msg) []).msg ≠ [] := by
    intro hempty
    rw [hempty] at hsize
    cases hsize
  have htext : cStr (responseTo s.resp (requestOf pid msg) []).msg = answerText msg := by
    rw [cStr_responseTo, messageText_requestOf]
    rfl
  simp [finish, finished, served, step, System.clientAt, Option.filter_some, readResponse,
    System.setFifo, System.move, ClientFifo.closeReader, htake, hdrop, hsize, htext]

/-- One client that is served and ends. -/
def session (pid : UInt32) (msg : Argument) : List Action :=
  (ask pid msg ++ answer ++ finish pid) ++ [.vanish pid true]

theorem regular_session (resp : Response) (pid : UInt32) (msg : Argument) :
    EveryStep step Regular (.start resp fun _ => false) (session pid msg) ∧
      run step (.start resp fun _ => false) (ask pid msg ++ answer ++ finish pid) =
        some (finished (.start resp fun _ => false) pid msg) := by
  have hrun : run step (.start resp fun _ => false) (ask pid msg ++ answer ++ finish pid) =
      some (finished (.start resp fun _ => false) pid msg) := by
    rw [run_append, run_serve msg rfl rfl rfl rfl]
    exact run_finish _ pid msg
  refine ⟨everyStep_append (everyStep_of_forall (fun action haction s => ?_) _) fun s' hs' => ?_,
    hrun⟩
  · simp only [ask, answer, finish, List.cons_append, List.nil_append, List.mem_cons,
      List.not_mem_nil, or_false] at haction
    rcases haction with rfl | rfl | rfl | rfl | rfl | rfl | rfl | rfl | rfl | rfl | rfl | rfl | rfl
    all_goals first | exact trivial | exact rfl
  · obtain rfl := Option.some.inj (hrun.symm.trans hs')
    rw [everyStep_cons]
    refine fun _ _ => ⟨⟨rfl, { msg := msg, place := .exiting }, ?_, rfl⟩, everyStep_nil _ _⟩
    exact Function.update_self _ _ _

def blankResponse : Response := { msg := List.replicate 16 0, length_msg := rfl }

def helloMessage : Argument := { chars := literal "hello", noNul := by decide }

theorem completed_of_stuck_session : ∃ s,
    run step (.start blankResponse fun _ => false) (session 7 helloMessage) = some s ∧
      Completed s 7 { msg := helloMessage, place := .gone } := by
  obtain ⟨hregular, hbefore⟩ := regular_session blankResponse 7 helloMessage
  let before := finished (.start blankResponse fun _ => false) 7 helloMessage
  let s := (before.setFifo 7 none).move 7 { msg := helloMessage, place := .exiting } .gone
  have hclients : s.clients = Function.update (fun _ => none) 7
      (some { msg := helloMessage, place := .gone }) := Function.update_idem _ _ _
  have hrun : run step (.start blankResponse fun _ => false) (session 7 helloMessage) = some s := by
    rw [session, run_append, hbefore]
    rfl
  have hstuck : Stuck s := by
    refine stuck_of_gone rfl rfl fun pid client hclient => ?_
    rw [hclients] at hclient
    rcases Decidable.em (pid = 7) with rfl | hpid
    · rw [Function.update_self] at hclient
      obtain rfl := Option.some.inj hclient
      rfl
    · rw [Function.update_of_ne hpid] at hclient
      cases hclient
  refine ⟨s, hrun, completed_of_stuck blankResponse _ _ hregular s hrun hstuck 7 _ ?_⟩
  rw [hclients]
  exact Function.update_self _ _ _

/-- The client whose step it is; the others are steps of the server. -/
def actor : Action → Option UInt32
  | .start pid _ => some pid
  | .makeFifo pid => some pid
  | .openServer pid => some pid
  | .writeRequest pid => some pid
  | .closeServer pid => some pid
  | .openOwn pid => some pid
  | .opened pid => some pid
  | .readOwn pid => some pid
  | .closeOwn pid => some pid
  | .vanish pid _ => some pid
  | .serverRead => none
  | .serverOpen _ => none
  | .serverWrite _ => none
  | .serverClose => none

def startOf : Action → Option UInt32
  | .start pid _ => some pid
  | _ => none

/-- The clients that are started in a run. -/
def starts (actions : List Action) : List UInt32 := actions.filterMap startOf

/-- How far a client has come. -/
def placeRank : ClientPlace → Nat
  | .makingFifo => 1
  | .openingServer => 2
  | .writing => 3
  | .closingServer => 4
  | .openingOwn => 5
  | .waiting => 6
  | .reading => 7
  | .closingOwn => 8
  | .exiting => 9
  | .gone => 10

def clientRank : Option Client → Nat
  | none => 0
  | some client => placeRank client.place

/-- How far the server has come with a request. -/
def serverPlaceRank : ServerPlace → Nat
  | .opening _ => 0
  | .answering _ => 1
  | .closing _ => 2
  | .reading => 3

def serverRank (s : System) : Nat :=
  4 * (received s.log).length + serverPlaceRank s.server

/-- A step of a client takes it further, and is none of the server. -/
structure ClientStep (pid : UInt32) (s s' : System) : Prop where
  clients : ∃ client, s'.clients = Function.update s.clients pid (some client) ∧
    clientRank (s.clients pid) < placeRank client.place
  server : s'.server = s.server
  received : received s'.log = received s.log

/-- A step of the server takes it further, and is none of a client. -/
structure ServerStep (s s' : System) : Prop where
  clients : s'.clients = s.clients
  rank : serverRank s < serverRank s'

theorem clientStep_move {s t : System} {pid : UInt32} {client : Client} {from_ place : ClientPlace}
    (hclient : s.clients pid = some client) (hplace : client.place = from_)
    (hrank : placeRank from_ < placeRank place) (hclients : t.clients = s.clients)
    (hserver : t.server = s.server) (hreceived : received t.log = received s.log) :
    ClientStep pid s (t.move pid client place) where
  clients := by
    refine ⟨{ client with place := place }, ?_, ?_⟩
    · change Function.update t.clients pid _ = _
      rw [hclients]
    · rw [hclient, clientRank, hplace]
      exact hrank
  server := hserver
  received := hreceived

theorem placeRank_lt_gone {place : ClientPlace} (h : place ≠ .gone) :
    placeRank place < placeRank .gone := by
  cases place with
  | gone => exact absurd rfl h
  | makingFifo | openingServer | writing | closingServer | openingOwn | waiting | reading
    | closingOwn | exiting => decide

theorem clientStep_vanish {s : System} {pid : UInt32} {client : Client}
    (hclient : s.clients pid = some client) (hplace : client.place ≠ .gone) (unlinks : Bool) :
    ClientStep pid s (vanish s pid client unlinks) := by
  rw [vanish]
  split
  · exact clientStep_move hclient rfl (placeRank_lt_gone hplace) rfl rfl rfl
  · exact clientStep_move hclient rfl (placeRank_lt_gone hplace) rfl rfl rfl

theorem clientStep_readResponse {s : System} {pid : UInt32} {client : Client}
    (hclient : s.clients pid = some client) (hplace : client.place = .reading)
    (fifo : ClientFifo) : ClientStep pid s (readResponse s pid client fifo) := by
  rw [readResponse]
  split
  · refine clientStep_move hclient hplace (by decide) rfl rfl ?_
    exact (received_concat s.log _).trans (List.append_nil _)
  · exact clientStep_move hclient hplace (by decide) rfl rfl rfl

theorem serverStep_readRequest {s : System} (hserver : s.server = .reading) :
    ServerStep s (readRequest s) := by
  have hreceived : (received (s.log ++ [.received (s.stream.take requestSize)])).length =
      (received s.log).length + 1 := by
    rw [received_concat, List.length_append]
    rfl
  have hrank : serverRank s = 4 * (received s.log).length + 3 := by
    rw [serverRank, hserver]
    rfl
  refine ⟨?_, ?_⟩
  · rw [readRequest]
    split
    · rfl
    · rfl
  · have hlog : (readRequest s).log = s.log ++ [.received (s.stream.take requestSize)] := by
      rw [readRequest]
      split
      · rfl
      · rfl
    rw [hrank, serverRank, hlog, hreceived]
    omega

theorem serverStep_of {s t : System} (hclients : t.clients = s.clients)
    (hreceived : received t.log = received s.log)
    (hserver : serverPlaceRank s.server < serverPlaceRank t.server) : ServerStep s t := by
  refine ⟨hclients, ?_⟩
  rw [serverRank, serverRank, hreceived]
  exact Nat.add_lt_add_left hserver _

theorem serverStep_writeResponse {s : System} {req : Request} (hplace : s.server = .answering req)
    (behind : Bytes) : ServerStep s (writeResponse s req behind) := by
  rw [writeResponse]
  split
  · refine serverStep_of rfl rfl ?_
    rw [hplace]
    exact (by decide : 1 < 2)
  · split
    · refine serverStep_of rfl ((received_concat s.log _).trans (List.append_nil _)) ?_
      rw [hplace]
      exact (by decide : 1 < 2)
    · refine serverStep_of rfl rfl ?_
      rw [hplace]
      exact (by decide : 1 < 2)

/-- A step of the system is one of a client or one of the server. -/
def StepOf (s s' : System) : Option UInt32 → Prop
  | some pid => ClientStep pid s s'
  | none => ServerStep s s'

theorem stepOf_step {s s' : System} {action : Action} (hstep : step s action = some s') :
    StepOf s s' (actor action) := by
  cases moves_of_step hstep with
  | started pid msg hnew =>
      refine ⟨⟨{ msg := msg, place := .makingFifo }, rfl, ?_⟩, rfl, rfl⟩
      rw [hnew]
      exact (by decide : 0 < 1)
  | madeFifo pid client hclient hplace =>
      have hmade := clients_makeFifo s pid
      have hserver : (s.makeFifo pid).server = s.server ∧ (s.makeFifo pid).log = s.log := by
        rw [System.makeFifo]
        split
        · exact ⟨rfl, rfl⟩
        · exact ⟨rfl, rfl⟩
      exact clientStep_move hclient hplace (by decide) hmade hserver.1
        (congrArg received hserver.2)
  | openedServer pid client hclient hplace | closedServer pid client hclient hplace =>
      exact clientStep_move hclient hplace (by decide) rfl rfl rfl
  | wroteRequest pid client hclient hplace =>
      have hmoved : ClientStep pid s (s.move pid client .closingServer) :=
        clientStep_move hclient hplace (by decide) rfl rfl rfl
      exact ⟨hmoved.clients, rfl, (received_concat s.log _).trans (List.append_nil _)⟩
  | openingOwn pid client fifo hclient hplace _ | openedOwn pid client fifo hclient hplace _ _
    | closedOwn pid client fifo hclient hplace _ =>
      exact clientStep_move hclient hplace (by decide) rfl rfl rfl
  | readOwn pid client fifo hclient hplace _ _ => exact clientStep_readResponse hclient hplace fifo
  | vanished pid client unlinks hclient hplace => exact clientStep_vanish hclient hplace unlinks
  | serverRead hplace _ => exact serverStep_readRequest hplace
  | serverOpened req fifo hplace _ _ =>
      refine serverStep_of rfl rfl ?_
      rw [hplace]
      exact (by decide : 0 < 1)
  | serverSkipped req ok hplace _ =>
      refine serverStep_of rfl rfl ?_
      rw [hplace]
      exact (by decide : 0 < 3)
  | serverWrote req behind hplace => exact serverStep_writeResponse hplace behind
  | serverClosed req fifo hplace _ | serverClosedUnlinked req hplace _ =>
      refine serverStep_of rfl rfl ?_
      rw [hplace]
      exact (by decide : 2 < 3)

theorem clientRank_le (client : Option Client) : clientRank client ≤ 10 := by
  cases client with
  | none => exact Nat.zero_le _
  | some client =>
      change placeRank client.place ≤ 10
      cases client.place with
      | makingFifo | openingServer | writing | closingServer | openingOwn | waiting | reading
        | closingOwn | exiting | gone => decide

theorem clientRank_step {s s' : System} {action : Action} (hstep : step s action = some s')
    (pid : UInt32) :
    clientRank (s.clients pid) + (if decide (actor action = some pid) then 1 else 0) ≤
      clientRank (s'.clients pid) := by
  have hof := stepOf_step hstep
  cases hactor : actor action with
  | none =>
      rw [hactor] at hof
      rw [hof.clients]
      exact Nat.le_refl _
  | some other =>
      rw [hactor] at hof
      rcases hof.clients with ⟨client, hclients, hrank⟩
      rw [hclients]
      rcases Decidable.em (other = pid) with rfl | hother
      · rw [Function.update_self, decide_eq_true rfl]
        exact hrank
      · have hsome : some other ≠ some pid := fun h => hother (Option.some.inj h)
        rw [Function.update_of_ne (Ne.symm hother), decide_eq_false hsome]
        exact Nat.le_refl _

theorem serverRank_step {s s' : System} {action : Action} (hstep : step s action = some s') :
    serverRank s + (if decide (actor action = none) then 1 else 0) ≤ serverRank s' := by
  have hof := stepOf_step hstep
  cases hactor : actor action with
  | none =>
      rw [hactor] at hof
      exact hof.rank
  | some pid =>
      rw [hactor] at hof
      rw [serverRank, serverRank, hof.server, hof.received]
      exact Nat.le_refl _

theorem clientSteps_le {s s' : System} {actions : List Action}
    (hrun : run step s actions = some s') (pid : UInt32) :
    (actions.filterMap actor).count pid ≤ 10 := by
  have hcount := @countP_le_rank System Action step (fun _ => True)
    (fun s => clientRank (s.clients pid)) (fun action => decide (actor action = some pid))
    (fun _ _ _ _ _ => trivial) (fun _ _ _ _ hstep => clientRank_step hstep pid) actions s s'
    trivial hrun
  have hrank := clientRank_le (s'.clients pid)
  have hsame : (actions.filterMap actor).count pid =
      actions.countP fun action => decide (actor action = some pid) := by
    rw [List.count, List.countP_filterMap]
    apply List.countP_congr
    intro action _
    cases actor action with
    | none => simp
    | some other => simp
  rw [hsame]
  change clientRank (s.clients pid) + _ ≤ clientRank (s'.clients pid) at hcount
  omega

theorem serverSteps_le {resp : Response} {stale : Bytes → Bool} {s : System}
    {actions : List Action} (hrun : run step (.start resp stale) actions = some s) :
    actions.countP (fun action => decide (actor action = none)) ≤ 4 * (received s.log).length := by
  have hcount := @countP_le_rank System Action step (fun _ => True) serverRank
    (fun action => decide (actor action = none)) (fun _ _ _ _ _ => trivial)
    (fun _ _ _ _ hstep => serverRank_step hstep) actions _ s trivial hrun
  have hstart : serverRank (.start resp stale) = 3 := rfl
  have hplace : serverPlaceRank s.server ≤ 3 := by
    cases s.server with
    | reading | opening req | answering req | closing req => simp [serverPlaceRank]
  rw [hstart, serverRank] at hcount
  omega

theorem mem_starts {resp : Response} {stale : Bytes → Bool} (actions : List Action) :
    ∀ s, run step (.start resp stale) actions = some s →
      (∀ pid, s.clients pid ≠ none → pid ∈ starts actions) ∧
        ∀ pid ∈ actions.filterMap actor, pid ∈ starts actions := by
  induction actions using List.reverseRecOn with
  | nil =>
      intro s hrun
      obtain rfl : System.start resp stale = s := Option.some.inj hrun
      exact ⟨fun _ h => absurd rfl h, fun _ h => absurd h List.not_mem_nil⟩
  | append_singleton actions action ih =>
      intro s'' hrun
      rcases run_concat_eq_some.mp hrun with ⟨s, hbefore, hstep⟩
      rcases ih s hbefore with ⟨hclients, hactors⟩
      have hstarts : starts (actions ++ [action]) = starts actions ++ (startOf action).toList := by
        rw [starts, List.filterMap_append]
        cases hstart : startOf action with
        | none => rw [List.filterMap_cons_none hstart]; rfl
        | some pid => rw [List.filterMap_cons_some hstart]; rfl
      have hmem : ∀ pid, actor action = some pid → pid ∈ starts (actions ++ [action]) := by
        intro pid hactor
        rw [hstarts, List.mem_append]
        rcases Decidable.em (s.clients pid = none) with hnone | hsome
        · refine Or.inr ?_
          cases action with
          | start other msg =>
              obtain rfl := Option.some.inj hactor
              exact List.mem_singleton_self other
          | makeFifo other | openServer other | writeRequest other | closeServer other
            | openOwn other | opened other | readOwn other | closeOwn other =>
              obtain rfl := Option.some.inj hactor
              rcases bind_clientAt_eq_some hstep with ⟨client, hclient, _⟩
              rw [hnone] at hclient
              cases hclient
          | vanish other unlinks =>
              obtain rfl := Option.some.inj hactor
              rcases Option.bind_eq_some_iff.mp hstep with ⟨client, hclient, _⟩
              rw [hnone] at hclient
              cases hclient
          | serverRead | serverOpen ok | serverWrite behind | serverClose => cases hactor
        · exact Or.inl (hclients pid hsome)
      have hold : ∀ pid ∈ starts actions, pid ∈ starts (actions ++ [action]) := by
        intro pid hpid
        rw [hstarts]
        exact List.mem_append_left _ hpid
      refine ⟨fun pid hpid => ?_, fun pid hpid => ?_⟩
      · have hof := stepOf_step hstep
        cases hactor : actor action with
        | none =>
            rw [hactor] at hof
            rw [hof.clients] at hpid
            exact hold pid (hclients pid hpid)
        | some other =>
            rw [hactor] at hof
            rcases Decidable.em (other = pid) with rfl | hother
            · exact hmem other hactor
            · rcases hof.clients with ⟨client, hupdate, _⟩
              rw [hupdate, Function.update_of_ne (Ne.symm hother)] at hpid
              exact hold pid (hclients pid hpid)
      · rw [List.filterMap_append] at hpid
        rcases List.mem_append.mp hpid with hpid | hpid
        · exact hold pid (hactors pid hpid)
        · rcases List.mem_filterMap.mp hpid with ⟨last, hlast, hactor⟩
          obtain rfl := List.mem_singleton.mp hlast
          exact hmem pid hactor

theorem received_le {resp : Response} {stale : Bytes → Bool} {s : System} {actions : List Action}
    (hrun : run step (.start resp stale) actions = some s) :
    (received s.log).length ≤ (starts actions).length := by
  have hsound : EveryState step Sound (.start resp stale) actions :=
    invariant (sound_start resp stale) (fun _ _ _ h hstep => h.step hstep) actions
  have hkept := (hsound.reached hrun).kept
  have hwritten : (received s.log).length ≤ ((written s.log).map Request.pid).length := by
    have hlength := hkept.order.length_le
    rw [List.length_map] at hlength ⊢
    exact hlength
  refine Nat.le_trans hwritten (List.subperm_of_subset hkept.oneRequest ?_).length_le
  intro pid hpid
  rcases List.mem_map.mp hpid with ⟨req, hreq, rfl⟩
  rcases hkept.requests req hreq with ⟨msg, hmsg, _⟩
  apply (mem_starts actions s hrun).1
  intro hnone
  rw [System.message, hnone] at hmsg
  cases hmsg

/-- However the steps interleave, and whether or not clients are killed and calls
fail, a run has at most 14 steps for each client that is started in it. -/
theorem steps_bounded (resp : Response) (stale : Bytes → Bool) (actions : List Action)
    (s : System) (hrun : run step (.start resp stale) actions = some s) :
    actions.length ≤ 14 * (starts actions).length := by
  have hclients : (actions.filterMap actor).length ≤ 10 * (starts actions).length :=
    length_le_mul_of_count_le (mem_starts actions s hrun).2 (clientSteps_le hrun)
  have hserver := serverSteps_le hrun
  have hreceived := received_le hrun
  have hsplit : actions.length = (actions.filterMap actor).length +
      actions.countP (fun action => decide (actor action = none)) := by
    rw [List.length_filterMap_eq_countP, List.length_eq_countP_add_countP (fun action =>
      (actor action).isSome)]
    congr 1
    apply List.countP_congr
    intro action _
    cases actor action with
    | none => simp
    | some pid => simp
  omega

theorem steps_bounded_session :
    (session 7 helloMessage).length ≤ 14 * (starts (session 7 helloMessage)).length := by
  obtain ⟨_, hbefore⟩ := regular_session blankResponse 7 helloMessage
  refine steps_bounded blankResponse (fun _ => false) (session 7 helloMessage)
    (vanish (finished (.start blankResponse fun _ => false) 7 helloMessage) 7
      { msg := helloMessage, place := .exiting } true) ?_
  rw [session, run_append, hbefore]
  rfl

end StudyLinuxKernel.Fifo.Completion
