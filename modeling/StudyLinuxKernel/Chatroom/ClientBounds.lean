import StudyLinuxKernel.Chatroom.Bounds
import StudyLinuxKernel.Chatroom.Client

namespace StudyLinuxKernel.Chatroom.ClientBounds

open StudyLinuxKernel.Chatroom.Bounds
open StudyLinuxKernel.Chatroom.Client
open StudyLinuxKernel.Chatroom.Server
open StudyLinuxKernel.Hashtable.Table
open StudyLinuxKernel.Libc.CharArray
open StudyLinuxKernel.Libc.Inet
open StudyLinuxKernel.Libc.Stdio
open StudyLinuxKernel.Libc.Text
open StudyLinuxKernel.Library.CheckedRun
open StudyLinuxKernel.Library.PartialStep

/-- What the system calls of one iteration answer: `msg` is what the array holds at
its declaration, `input` what the standard input holds if it is readable, and
`received` what `recv` finds if the socket is. -/
structure Iteration where
  nSel : Int
  msg : MsgArray
  input : Option Bytes
  sent : Bool
  received : Option (Option Bytes)

/-- `fgets(msg, MAX_MSG_LEN, stdin)`, which leaves the array as it is at the end of
the input. -/
def fgetsInto (msg input : Bytes) : Checked Bytes :=
  let line := (fgets (MAX_MSG_LEN - 1) input).1
  if line = [] then .ok msg else access (store msg 0 (line ++ [0]))

/-- `msg[len - 1] = '\0'`. -/
def terminateLast (msg : Bytes) : Nat → Checked Bytes
  | 0 => .error .fault
  | last + 1 => access (store msg last [0])

/-- The part for the standard input; `sendto` reads `len` bytes of the array. -/
def sendLine (msg input : Bytes) (sent : Bool) : Checked Bytes := do
  let msg ← fgetsInto msg input
  let text ← access (stringAt msg 0)
  let msg ← terminateLast msg text.length
  let _ ← access (if text.length ≤ msg.length then some (msg.take text.length) else none)
  succeeds sent
  .ok msg

def printReceived (msg : Bytes) (received : Option Bytes) : Checked Unit := do
  let (msg, _) ← receiveInto msg received
  let _ ← access (stringAt msg 0)
  .ok ()

def handleInput (it : Iteration) : Checked Bytes :=
  match it.input with
  | some input => sendLine it.msg.bytes input it.sent
  | none => .ok it.msg.bytes

def handleSocket (msg : Bytes) (it : Iteration) : Checked Unit :=
  match it.received with
  | some received => printReceived msg received
  | none => .ok ()

/-- One iteration of the loop, which keeps nothing for the next one. -/
def iterate (_ : Unit) (it : Iteration) : Checked Unit :=
  if it.nSel ≤ 0 then .error .exited
  else do
    let msg ← handleInput it
    handleSocket msg it

/-- The array holds a string that is not empty. -/
def Sendable (msg : Bytes) : Prop := 0 ∈ msg ∧ msg.head? ≠ some 0

/-- The input does not begin with a NUL; at its end, the array is as it was. -/
def LineToSend (msg input : Bytes) : Prop :=
  (input ≠ [] → input.head? ≠ some 0) ∧ (input = [] → Sendable msg)

/-- Whether the iteration gets to the socket. -/
def Iteration.passes (it : Iteration) : Bool := it.input.isNone || it.sent

/-- The condition on an iteration. -/
def Fits (_ : Unit) (it : Iteration) : Prop :=
  0 < it.nSel →
    (∀ input, it.input = some input → LineToSend it.msg.bytes input) ∧
      (it.passes → ∀ bytes, it.received = some (some bytes) → bytes.length < MAX_MSG_LEN)

theorem fgetsInto_spec {msg : Bytes} (hmsg : msg.length = MAX_MSG_LEN) (input : Bytes) :
    ∃ msg', fgetsInto msg input = .ok msg' ∧ msg'.length = MAX_MSG_LEN ∧
      (Sendable msg' ↔ LineToSend msg input) := by
  cases input with
  | nil => exact ⟨msg, rfl, hmsg, by simp [LineToSend]⟩
  | cons ch input =>
      have hlength := length_fgets_le (MAX_MSG_LEN - 1) (ch :: input)
      have hfirst : ∃ line, (fgets (MAX_MSG_LEN - 1) (ch :: input)).1 = ch :: line := by
        rw [show MAX_MSG_LEN - 1 = 1022 + 1 from rfl, fgets]
        split
        · rename_i hlf
          exact ⟨[], by rw [hlf]⟩
        · exact ⟨_, rfl⟩
      obtain ⟨line, hline⟩ := hfirst
      rw [hline] at hlength
      have hfits : (ch :: line ++ [0]).length ≤ msg.length := by
        rw [List.length_append, List.length_singleton, hmsg]
        exact Nat.succ_le_succ hlength
      rw [fgetsInto, hline, if_neg (List.cons_ne_nil ch line), store_zero hfits]
      refine ⟨_, rfl, ?_, ?_⟩
      · rw [List.length_append, List.length_drop]
        omega
      · simp [Sendable, LineToSend]

theorem sendLine_of_sendable {msg input : Bytes} (hmsg : msg.length = MAX_MSG_LEN)
    (h : LineToSend msg input) (sent : Bool) :
    ∃ msg', msg'.length = MAX_MSG_LEN ∧
      sendLine msg input sent = succeeds sent >>= fun _ => .ok msg' := by
  obtain ⟨read, hread, hlength, hiff⟩ := fgetsInto_spec hmsg input
  obtain ⟨hzero, hhead⟩ := hiff.mpr h
  have hshort := length_cStr_lt_iff.mpr hzero
  obtain ⟨ch, rest, rfl⟩ : ∃ ch rest, read = ch :: rest :=
    List.exists_cons_of_ne_nil (List.ne_nil_of_mem hzero)
  have hch : ch ≠ 0 := fun hch => hhead (congrArg some hch)
  have hlen : (cStr (ch :: rest)).length = (cStr rest).length + 1 := by
    simp [cStr, hch]
  have hstore := store_singleton (Nat.lt_of_succ_lt (hlen ▸ hshort)) (0 : UInt8)
  have hwhole : (cStr (ch :: rest)).length ≤ ((ch :: rest).set (cStr rest).length 0).length := by
    rw [List.length_set]
    exact hshort.le
  refine ⟨(ch :: rest).set (cStr rest).length 0, by rw [List.length_set, hlength], ?_⟩
  rw [sendLine, hread, ok_bind, stringAt_of_mem hzero, access_some, ok_bind, hlen, terminateLast,
    hstore, access_some, ok_bind, ← hlen, if_pos hwhole, access_some, ok_bind]

theorem sendLine_of_not_sendable {msg input : Bytes} (hmsg : msg.length = MAX_MSG_LEN)
    (h : ¬ LineToSend msg input) (sent : Bool) :
    sendLine msg input sent = .error .fault := by
  obtain ⟨read, hread, _, hiff⟩ := fgetsInto_spec hmsg input
  rw [← hiff] at h
  rw [sendLine, hread, ok_bind]
  by_cases hzero : 0 ∈ read
  · have hhead : read.head? = some 0 := by
      by_contra hhead
      exact h ⟨hzero, hhead⟩
    obtain ⟨rest, rfl⟩ := List.head?_eq_some_iff.mp hhead
    rw [stringAt_of_mem hzero]
    rfl
  · rw [stringAt, List.drop_zero, if_neg hzero, access_none, error_bind]

theorem handleInput_of_fits {it : Iteration}
    (h : ∀ input, it.input = some input → LineToSend it.msg.bytes input) :
    ∃ msg, msg.length = MAX_MSG_LEN ∧
      handleInput it = succeeds it.passes >>= fun _ => .ok msg := by
  rw [handleInput, Iteration.passes]
  cases hinput : it.input with
  | none => exact ⟨it.msg.bytes, it.msg.length_bytes, rfl⟩
  | some input => exact sendLine_of_sendable it.msg.length_bytes (h input hinput) it.sent

theorem handleSocket_safe {msg : Bytes} (hmsg : msg.length = MAX_MSG_LEN) {it : Iteration}
    (hshort : ∀ bytes, it.received = some (some bytes) → bytes.length < MAX_MSG_LEN) :
    Safe (handleSocket msg it) fun _ => True := by
  rw [handleSocket]
  cases hreceived : it.received with
  | none => exact Safe.ok trivial
  | some received =>
      refine (receiveInto_safe hmsg fun bytes hbytes => ?_).bind ?_
      · exact hshort bytes (hreceived.trans (congrArg some hbytes))
      · rintro _ ⟨bytes, hbytes, rfl⟩
        have hzero := zero_mem_terminated hmsg
          (hshort bytes (hreceived.trans (congrArg some hbytes)))
        exact Safe.bind_access (stringAt_of_mem hzero) (Safe.ok trivial)

theorem short_of_handleSocket {msg : Bytes} (hmsg : msg.length = MAX_MSG_LEN) {it : Iteration}
    (h : handleSocket msg it ≠ .error .fault) :
    ∀ bytes, it.received = some (some bytes) → bytes.length < MAX_MSG_LEN := by
  intro bytes hreceived
  rw [handleSocket, hreceived] at h
  exact short_of_not_fault hmsg h bytes rfl

theorem iterate_safe {it : Iteration} (h : Fits () it) :
    Safe (iterate () it) fun _ => True := by
  rw [iterate]
  split
  · exact Safe.exited
  · rename_i hsel
    obtain ⟨hline, hreceived⟩ := h (by omega)
    obtain ⟨msg, hmsg, hinput⟩ := handleInput_of_fits hline
    rw [hinput]
    have hpassed : Safe (succeeds it.passes >>= fun _ => .ok msg) fun msg' =>
        it.passes ∧ msg' = msg :=
      (safe_succeeds it.passes).bind fun _ hpasses => Safe.ok ⟨hpasses, rfl⟩
    refine hpassed.bind ?_
    rintro _ ⟨hpasses, rfl⟩
    exact handleSocket_safe hmsg (hreceived hpasses)

theorem fits_of_not_fault {it : Iteration} (h : iterate () it ≠ .error .fault) : Fits () it := by
  intro hsel
  rw [iterate, if_neg (by omega)] at h
  have hline : ∀ input, it.input = some input → LineToSend it.msg.bytes input := by
    intro input hinput
    by_contra hline
    have hfault := sendLine_of_not_sendable it.msg.length_bytes hline it.sent
    rw [handleInput, hinput] at h
    simp only [hfault, error_bind, ne_eq, not_true_eq_false] at h
  obtain ⟨msg, hmsg, hinput⟩ := handleInput_of_fits hline
  refine ⟨hline, fun hpasses => short_of_handleSocket hmsg ?_⟩
  rw [hinput, hpasses] at h
  exact h

/-- Every access of the client is inside its array, and every string has its NUL. -/
def ClientInBounds (its : List Iteration) : Prop :=
  EveryState (processStep iterate) Process.NotFaulted (.running ()) its

theorem clientInBounds_iff (its : List Iteration) :
    ClientInBounds its ↔
      EveryStep (processStep iterate) (WhileRunning Fits) (.running ()) its := by
  refine @notFaulted_iff _ _ iterate (fun _ => True) Fits ?_ ?_ () trivial its
  · exact fun _ it _ => iterate_safe
  · exact fun _ it _ => fits_of_not_fault

/-- The arrays of both programs: what is received has to leave room for the NUL, and
what the client sends must not be an empty string. -/
theorem chatroomInBounds_iff (memory : HashTable) (msg : MsgArray) (events : List Event)
    (its : List Iteration) :
    (ServerInBounds memory msg events ↔
      EveryStep (processStep serve) (WhileRunning LeavesRoom)
        (.running (.start memory msg.bytes)) events) ∧
    (ClientInBounds its ↔
      EveryStep (processStep iterate) (WhileRunning Fits) (.running ()) its) :=
  ⟨serverInBounds_iff memory msg events, clientInBounds_iff its⟩

def remoteClient : SockaddrIn where
  sinAddr := fun _ => 10
  sinPort := { high := 128, low := 0 }

/-- A datagram that fills the array. -/
theorem full_datagram_overflows :
    ¬ ServerInBounds { heap := [], buckets := fun _ => none }
      ⟨List.replicate 1024 0, List.length_replicate⟩
      [.datagram remoteClient (some (List.replicate 1024 97))
        { sock := 4, allocated := true, connected := true, sent := fun _ => true }] := by
  intro h
  have hfull := @receiveInto_of_full (List.replicate 1024 0) (List.replicate 1024 97)
    List.length_replicate List.length_replicate.ge
  refine @EveryState.reached _ _ _ _ _ Process.faulted _ h ?_
  rw [run_cons, processStep_of_fault]
  · rfl
  · rw [serve]
    change receiveInto (List.replicate 1024 0) _ >>= _ = _
    rw [hfull, error_bind]

end StudyLinuxKernel.Chatroom.ClientBounds
