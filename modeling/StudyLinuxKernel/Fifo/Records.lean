import StudyLinuxKernel.Libc.CharArray
import StudyLinuxKernel.Libc.Decimal

namespace StudyLinuxKernel.Fifo.Records

open StudyLinuxKernel.Libc.CharArray hiding strncpy
open StudyLinuxKernel.Libc.Decimal
open StudyLinuxKernel.Libc.Text

def MSG_LEN : Nat := 16

/-- `struct request`; a `pid_t` has 32 bits. -/
structure Request where
  pid : UInt32
  msg : Bytes
  length_msg : msg.length = MSG_LEN

structure Response where
  msg : Bytes
  length_msg : msg.length = MSG_LEN

def requestSize : Nat := 4 + MSG_LEN

def responseSize : Nat := MSG_LEN

/-- An argument of the command line. -/
structure Argument where
  chars : Bytes
  noNul : 0 ∉ chars

/-- The bytes of a `pid_t` in memory. -/
def pidBytes (pid : UInt32) : Bytes :=
  [UInt8.ofNat pid.toNat, UInt8.ofNat (pid.toNat / 256), UInt8.ofNat (pid.toNat / 65536),
    UInt8.ofNat (pid.toNat / 16777216)]

def pidOfBytes : Bytes → UInt32
  | b₀ :: b₁ :: b₂ :: b₃ :: _ =>
      UInt32.ofNat (b₀.toNat + 256 * b₁.toNat + 65536 * b₂.toNat + 16777216 * b₃.toNat)
  | _ => 0

def Request.bytes (req : Request) : Bytes := pidBytes req.pid ++ req.msg

def Request.ofBytes (bytes : Bytes) (h : bytes.length = requestSize) : Request where
  pid := pidOfBytes bytes
  msg := bytes.drop 4
  length_msg := by
    rw [List.length_drop, h]
    rfl

/-- `strncpy`: it fills up with NULs, and leaves none where the text is too long. -/
def strncpy (src : Bytes) (n : Nat) : Bytes :=
  src.take n ++ List.replicate (n - src.length) 0

/-- The request of the client with the process number `pid`. -/
def requestOf (pid : UInt32) (msg : Argument) : Request where
  pid := pid
  msg := strncpy msg.chars MSG_LEN
  length_msg := by
    rw [strncpy, List.length_append, List.length_take, List.length_replicate]
    omega

/-- What `%s` makes of the message of a request; `behind` is the memory behind
`req`. -/
def messageText (req : Request) (behind : Bytes) : Bytes :=
  snprintf MSG_LEN (cStr (req.msg ++ behind))

/-- `snprintf` into the message of a response that is not initialised. -/
def Response.print (resp : Response) (text : Bytes) (h : text.length < MSG_LEN) : Response where
  msg := text ++ [0] ++ resp.msg.drop (text.length + 1)
  length_msg := by
    rw [List.length_append, List.length_append, List.length_singleton, List.length_drop,
      resp.length_msg]
    omega

theorem length_messageText (req : Request) (behind : Bytes) :
    (messageText req behind).length < MSG_LEN := by
  rw [messageText, snprintf, List.length_take]
  exact Nat.lt_of_le_of_lt (Nat.min_le_left _ _) (by decide)

/-- The response to a request, where `resp` is what the memory held before. -/
def responseTo (resp : Response) (req : Request) (behind : Bytes) : Response :=
  resp.print (messageText req behind) (length_messageText req behind)

def longDecimal (pid : UInt32) : Bytes :=
  if pid.toNat < 2147483648 then decimal pid.toNat
  else literal "-" ++ decimal (4294967296 - pid.toNat)

def clientPipePath (pid : UInt32) : Bytes :=
  snprintf 260 (literal "./fifo-client-pipe" ++ literal "-" ++ longDecimal pid)

theorem pidOfBytes_pidBytes (pid : UInt32) (rest : Bytes) :
    pidOfBytes (pidBytes pid ++ rest) = pid := by
  have hlt := pid.toNat_lt
  rw [← UInt32.toNat_inj]
  change (UInt32.ofNat _).toNat = _
  rw [UInt32.toNat_ofNat', UInt8.toNat_ofNat', UInt8.toNat_ofNat', UInt8.toNat_ofNat',
    UInt8.toNat_ofNat']
  omega

theorem Request.length_bytes (req : Request) : req.bytes.length = requestSize := by
  rw [Request.bytes, List.length_append, req.length_msg]
  rfl

theorem Request.ofBytes_bytes (req : Request) (h : req.bytes.length = requestSize) :
    Request.ofBytes req.bytes h = req := by
  cases req with
  | mk pid msg length_msg =>
      rw [Request.ofBytes, Request.mk.injEq]
      exact ⟨pidOfBytes_pidBytes pid msg, rfl⟩

theorem messageText_eq (req : Request) (behind : Bytes) :
    messageText req behind = (cStr req.msg).take (MSG_LEN - 1) := by
  apply take_cStr_append
  rw [req.length_msg]
  exact Nat.sub_le _ _

theorem zero_not_mem_messageText (req : Request) (behind : Bytes) :
    0 ∉ messageText req behind := by
  rw [messageText_eq]
  exact fun hmem => zero_not_mem_cStr _ (List.mem_of_mem_take hmem)

theorem cStr_responseTo (resp : Response) (req : Request) (behind : Bytes) :
    cStr (responseTo resp req behind).msg = messageText req behind := by
  change cStr (messageText req behind ++ [0] ++ _) = _
  rw [List.append_assoc, cStr_append (zero_not_mem_messageText req behind)]
  exact List.append_nil _

theorem messageText_requestOf (pid : UInt32) (msg : Argument) (behind : Bytes) :
    messageText (requestOf pid msg) behind = msg.chars.take (MSG_LEN - 1) := by
  have hnoNul : 0 ∉ msg.chars.take MSG_LEN := fun hmem => msg.noNul (List.mem_of_mem_take hmem)
  rw [messageText_eq]
  change (cStr (strncpy msg.chars MSG_LEN)).take _ = _
  rw [strncpy, cStr_append hnoNul, cStr_replicate_zero, List.append_nil, List.take_take]
  rfl

/-- The request that the server reads of the bytes that the client writes. -/
def receivedRequest (pid : UInt32) (msg : Argument) : Request :=
  Request.ofBytes (requestOf pid msg).bytes (requestOf pid msg).length_bytes

/-- How many bytes `%s` goes over to find the end of the message. -/
def scannedBytes (req : Request) (behind : Bytes) : Nat :=
  (cStr (req.msg ++ behind)).length + 1

/-- The request of a message holds a NUL, the server reads nothing behind its
message, and the client prints what a response can hold of it. -/
structure WellFormedRequest (pid : UInt32) (msg : Argument) : Prop where
  terminated : 0 ∈ (requestOf pid msg).msg
  scanned : ∀ behind, scannedBytes (receivedRequest pid msg) behind ≤ MSG_LEN
  printed : ∀ resp behind, cStr (responseTo resp (receivedRequest pid msg) behind).msg =
    msg.chars.take (MSG_LEN - 1)

theorem receivedRequest_eq (pid : UInt32) (msg : Argument) :
    receivedRequest pid msg = requestOf pid msg :=
  Request.ofBytes_bytes (requestOf pid msg) _

theorem zero_mem_requestOf_iff (pid : UInt32) (msg : Argument) :
    0 ∈ (requestOf pid msg).msg ↔ msg.chars.length < MSG_LEN := by
  change 0 ∈ strncpy msg.chars MSG_LEN ↔ _
  have hnoNul : 0 ∉ msg.chars.take MSG_LEN := fun hmem => msg.noNul (List.mem_of_mem_take hmem)
  rw [strncpy, List.mem_append, or_iff_right hnoNul, List.mem_replicate,
    and_iff_left rfl]
  omega

theorem scannedBytes_le {req : Request} (h : 0 ∈ req.msg) (behind : Bytes) :
    scannedBytes req behind ≤ MSG_LEN := by
  have hlt := length_cStr_lt_iff.mpr h
  rw [scannedBytes, cStr_append_of_mem h]
  rw [req.length_msg] at hlt
  exact hlt

/-- A request is well formed exactly if its message leaves room for a NUL. -/
theorem wellFormedRequest_iff (pid : UInt32) (msg : Argument) :
    WellFormedRequest pid msg ↔ msg.chars.length < MSG_LEN := by
  constructor
  · rintro ⟨hterminated, _, _⟩
    exact (zero_mem_requestOf_iff pid msg).mp hterminated
  · intro hshort
    have hterminated := (zero_mem_requestOf_iff pid msg).mpr hshort
    refine ⟨hterminated, ?_, ?_⟩
    · intro behind
      rw [receivedRequest_eq]
      exact scannedBytes_le hterminated behind
    · intro resp behind
      rw [cStr_responseTo, receivedRequest_eq, messageText_requestOf]

/-- A message that fills the record. -/
theorem full_message_unterminated :
    ¬ WellFormedRequest 1 ⟨List.replicate 16 97, by decide⟩ := by
  intro h
  exact absurd h.terminated (by decide)

theorem longDecimal_injective : Function.Injective longDecimal := by
  have hminus : literal "-" = [45] := by decide
  have hapart : ∀ (n : Nat) (rest : Bytes), decimal n ≠ 45 :: rest := by
    intro n rest h
    have hdigit := @isDigit_of_mem_decimal n 45 (h ▸ List.mem_cons_self)
    exact absurd hdigit (by decide)
  intro pid pid' h
  have hlt := pid.toNat_lt
  have hlt' := pid'.toNat_lt
  rw [longDecimal, longDecimal, hminus] at h
  rw [← UInt32.toNat_inj]
  split at h
  · split at h
    · exact decimal_injective h
    · exact absurd h (hapart _ _)
  · split at h
    · exact absurd h.symm (hapart _ _)
    · have hsame := decimal_injective (List.append_cancel_left h)
      omega

theorem length_longDecimal_le (pid : UInt32) : (longDecimal pid).length ≤ 11 := by
  have hlt := pid.toNat_lt
  rw [longDecimal]
  split
  · exact Nat.le_succ_of_le (length_decimal_le (by decide) (by omega))
  · rw [List.length_append]
    have hdigits : (decimal (4294967296 - pid.toNat)).length ≤ 10 :=
      length_decimal_le (by decide) (by omega)
    have hminus : (literal "-").length = 1 := by decide
    omega

theorem clientPipePath_injective : Function.Injective clientPipePath := by
  have hwhole : ∀ pid, clientPipePath pid =
      literal "./fifo-client-pipe" ++ literal "-" ++ longDecimal pid := by
    intro pid
    have hlength := length_longDecimal_le pid
    have hfixed : (literal "./fifo-client-pipe" ++ literal "-").length = 19 := by decide
    rw [clientPipePath, snprintf, List.take_of_length_le]
    rw [List.length_append, hfixed]
    omega
  intro pid pid' h
  rw [hwhole, hwhole] at h
  exact longDecimal_injective (List.append_cancel_left h)

end StudyLinuxKernel.Fifo.Records
