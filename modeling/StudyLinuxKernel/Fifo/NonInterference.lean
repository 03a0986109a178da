import StudyLinuxKernel.Fifo.Exchange

namespace StudyLinuxKernel.Fifo.NonInterference

open StudyLinuxKernel.Fifo.Exchange
open StudyLinuxKernel.Fifo.Protocol
open StudyLinuxKernel.Fifo.Records
open StudyLinuxKernel.Libc.Text
open StudyLinuxKernel.Library.PartialStep

/-- The bytes may be written in answer to the request of a client, after some
history and for some memory of the server. -/
def MayAnswer (pid : UInt32) (msg : Argument) (bytes : Bytes) : Prop :=
  ∃ resp stale history s answer, run step (.start resp stale) history = some s ∧
    s.message pid = some msg ∧ Event.answered (clientPipePath pid) answer ∈ s.log ∧
    answer.msg = bytes

/-- The answer is a function of the request alone. -/
def Determined (pid : UInt32) (msg : Argument) : Prop :=
  ∀ bytes bytes', MayAnswer pid msg bytes → MayAnswer pid msg bytes' → bytes = bytes'

/-- A client up to where it waits for its answer. -/
def ask (pid : UInt32) (msg : Argument) : List Action :=
  [.start pid msg, .makeFifo pid, .openServer pid, .writeRequest pid, .closeServer pid,
    .openOwn pid]

def asked (s : System) (pid : UInt32) (msg : Argument) : System :=
  { s with
    stream := s.stream ++ (requestOf pid msg).bytes
    clients := Function.update s.clients pid (some { msg := msg, place := .waiting })
    fifos := Function.update s.fifos (clientPipePath pid)
      (some { ClientFifo.empty with reader := true })
    log := s.log ++ [.written (requestOf pid msg)] }

theorem run_ask {s : System} {pid : UInt32} (msg : Argument) (hnew : s.clients pid = none)
    (hfifo : s.fifos (clientPipePath pid) = none) :
    run step s (ask pid msg) = some (asked s pid msg) := by
  simp [ask, asked, step, hnew, hfifo, System.makeFifo, System.move, System.setFifo,
    System.clientAt, ClientFifo.empty, Option.filter_some]

def answer : List Action := [.serverRead, .serverOpen true, .serverWrite [], .serverClose]

/-- What is left when nothing else happens meanwhile. -/
def served (s : System) (pid : UInt32) (msg : Argument) : System :=
  let resp := responseTo s.resp (requestOf pid msg) []
  { stream := []
    clients := Function.update s.clients pid (some { msg := msg, place := .waiting })
    fifos := Function.update s.fifos (clientPipePath pid)
      (some { data := resp.msg, reader := true, writer := false, served := true })
    server := .reading
    resp := resp
    log := s.log ++ [.written (requestOf pid msg), .received (requestOf pid msg).bytes,
      .answered (clientPipePath pid) resp] }

theorem clients_served_of_ne (s : System) {pid pid' : UInt32} (msg : Argument) (h : pid' ≠ pid) :
    (served s pid msg).clients pid' = s.clients pid' :=
  Function.update_of_ne h _ _

theorem fifos_served_of_ne (s : System) {pid pid' : UInt32} (msg : Argument) (h : pid' ≠ pid) :
    (served s pid msg).fifos (clientPipePath pid') = s.fifos (clientPipePath pid') :=
  Function.update_of_ne (clientPipePath_injective.ne h) _ _

theorem run_answer {s : System} {pid : UInt32} (msg : Argument) (hidle : s.server = .reading)
    (hstream : s.stream = []) : run step (asked s pid msg) answer = some (served s pid msg) := by
  have hread : readRequest (asked s pid msg) = { asked s pid msg with
      stream := []
      log := (asked s pid msg).log ++ [.received (requestOf pid msg).bytes]
      server := .opening (requestOf pid msg) } := by
    apply readRequest_eq
    rw [asked, hstream, List.append_nil]
    rfl
  have hwaits : (asked s pid msg).stream ≠ [] := by
    rw [asked, hstream]
    exact List.cons_ne_nil _ _
  have hplace : (asked s pid msg).server = .reading := hidle
  have hpid : (requestOf pid msg).pid = pid := rfl
  rw [answer, run_cons, step]
  simp only [hplace, hwaits, if_false, hread, Option.bind_some]
  simp [step, asked, served, writeResponse, System.setFifo, ClientFifo.closeWriter, hpid,
    ClientFifo.empty]

theorem run_serve {s : System} {pid : UInt32} (msg : Argument) (hidle : s.server = .reading)
    (hstream : s.stream = []) (hnew : s.clients pid = none)
    (hfifo : s.fifos (clientPipePath pid) = none) :
    run step s (ask pid msg ++ answer) = some (served s pid msg) := by
  rw [run_append, run_ask msg hnew hfifo]
  exact run_answer msg hidle hstream

theorem mayAnswer_of_run {pid : UInt32} {msg : Argument} {resp : Response} {s : System}
    {history : List Action} (hrun : run step (.start resp fun _ => false) history = some s)
    (hidle : s.server = .reading) (hstream : s.stream = []) (hnew : s.clients pid = none)
    (hfifo : s.fifos (clientPipePath pid) = none) :
    MayAnswer pid msg (responseTo s.resp (requestOf pid msg) []).msg := by
  refine ⟨resp, fun _ => false, history ++ (ask pid msg ++ answer), served s pid msg, _, ?_, ?_,
    ?_, rfl⟩
  · rw [run_append, hrun]
    exact run_serve msg hidle hstream hnew hfifo
  · change (Function.update s.clients pid _ pid).map Client.msg = some msg
    rw [Function.update_self]
    rfl
  · exact List.mem_append_right _ (List.mem_of_getLast? rfl)

theorem response_eq_of_full {resp : Response} (h : (cStr resp.msg).length = MSG_LEN - 1) :
    resp.msg = cStr resp.msg ++ [0] := by
  have hsplit : cStr resp.msg ++ resp.msg.dropWhile (· ≠ 0) = resp.msg :=
    List.takeWhile_append_dropWhile
  have hlength : (cStr resp.msg ++ resp.msg.dropWhile (· ≠ 0)).length = MSG_LEN := by
    rw [hsplit, resp.length_msg]
  rw [List.length_append, h] at hlength
  obtain ⟨ch, hrest⟩ : ∃ ch, resp.msg.dropWhile (· ≠ 0) = [ch] :=
    List.length_eq_one_iff.mp (Nat.add_left_cancel hlength)
  have hzero : ch = 0 := by
    have hhead := List.head?_dropWhile_not (· ≠ 0) resp.msg
    rw [hrest] at hhead
    simpa using hhead
  rw [hrest, hzero] at hsplit
  exact hsplit.symm

theorem mayAnswer_full {pid : UInt32} {msg : Argument} {bytes : Bytes}
    (hfull : MSG_LEN - 1 ≤ msg.chars.length) (h : MayAnswer pid msg bytes) :
    bytes = msg.chars.take (MSG_LEN - 1) ++ [0] := by
  rcases h with ⟨resp, stale, history, s, answer, hrun, hmsg, hanswer, rfl⟩
  have hkept := (protocol_kept resp stale history).reached hrun
  rcases hkept.echo pid answer hanswer with ⟨msg', hmsg', _, htext⟩
  obtain rfl : msg = msg' := Option.some.inj (hmsg.symm.trans hmsg')
  rw [← htext]
  apply response_eq_of_full
  rw [htext, List.length_take, Nat.min_eq_left hfull]

def filled (byte : UInt8) : Response where
  msg := List.replicate MSG_LEN byte
  length_msg := List.length_replicate

/-- The answer is a function of the request exactly where the message fills the
response. -/
theorem determined_iff (pid : UInt32) (msg : Argument) :
    Determined pid msg ↔ MSG_LEN - 1 ≤ msg.chars.length := by
  constructor
  · intro h
    have hsame := h _ _ (@mayAnswer_of_run pid msg (filled 0) _ [] rfl rfl rfl rfl rfl)
      (@mayAnswer_of_run pid msg (filled 1) _ [] rfl rfl rfl rfl rfl)
    replace hsame : messageText (requestOf pid msg) [] ++ [0] ++ _ =
      messageText (requestOf pid msg) [] ++ [0] ++ _ := hsame
    replace hsame := List.append_cancel_left hsame
    replace hsame : (List.replicate MSG_LEN (0 : UInt8)).drop _ =
      (List.replicate MSG_LEN 1).drop _ := hsame
    rw [List.drop_replicate, List.drop_replicate, messageText_requestOf, List.length_take] at hsame
    cases hrest : MSG_LEN - (min (MSG_LEN - 1) msg.chars.length + 1) with
    | zero => omega
    | succ rest =>
        rw [hrest] at hsame
        cases hsame
  · intro hfull bytes bytes' hbytes hbytes'
    rw [mayAnswer_full hfull hbytes, mayAnswer_full hfull hbytes']

def longMessage : Argument where
  chars := literal "secretsecretsec"
  noNul := by decide

def shortMessage : Argument where
  chars := literal "b"
  noNul := by decide

/-- Two servers with the same memory, of which one has served another client before. -/
theorem shortMessage_not_determined : ¬ Determined 8 shortMessage := by
  intro h
  have hother := @run_serve (.start (filled 0) fun _ => false) 7 longMessage rfl rfl rfl rfl
  have hpid : (8 : UInt32) ≠ 7 := by decide
  have halone := @mayAnswer_of_run 8 shortMessage (filled 0) _ [] rfl rfl rfl rfl rfl
  have hafter := @mayAnswer_of_run 8 shortMessage (filled 0) _ _ hother rfl rfl
    (clients_served_of_ne _ _ hpid) (fifos_served_of_ne _ _ hpid)
  exact absurd (h _ _ halone hafter) (by decide)

end StudyLinuxKernel.Fifo.NonInterference
