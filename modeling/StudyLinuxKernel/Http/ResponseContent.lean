import Mathlib.Data.Fin.VecNotation
import StudyLinuxKernel.Http.ResponseEncoding
import StudyLinuxKernel.Http.StaticFiles
import StudyLinuxKernel.Libc.CharArray
import StudyLinuxKernel.Libc.Inet

namespace StudyLinuxKernel.Http.ResponseContent

open StudyLinuxKernel.Http.Request
open StudyLinuxKernel.Http.RequestEncoding
open StudyLinuxKernel.Http.Response
open StudyLinuxKernel.Http.ResponseEncoding
open StudyLinuxKernel.Http.StaticFiles
open StudyLinuxKernel.Http.Text
open StudyLinuxKernel.Libc.CharArray
open StudyLinuxKernel.Libc.Decimal
open StudyLinuxKernel.Libc.Inet
open StudyLinuxKernel.Libc.Text

/-- Some byte of an array of `size` bytes, in which `written` and zeros stand,
is NUL. -/
def NulTerminated (size : Nat) (written : Bytes) : Prop :=
  0 ∈ (zeroFilled size written).take size

/-- The peer's complete `ip:port`. -/
def hostText (peer : Peer) : Bytes :=
  inetNtoa peer.octets ++ literal ":" ++ decimal peer.port.toNat

/-- The page that a request asks for, with everything in it that belongs there. -/
def fullPage (peer : Peer) (httpReq : HttpRequest) : Bytes :=
  match httpReq.header.method with
  | .GET => welcomePage (hostText peer)
  | .POST => formPage httpReq.header.querystring httpReq.body
  | .UNKNOWN => errorPage (getCodeDesc 501)

/-- The request is answered with a page, not with a file. -/
def AsksForPage (httpReq : HttpRequest) : Prop :=
  match httpReq.header.method with
  | .GET => httpReq.header.resource = literal "/"
  | .POST => 0 ∉ httpReq.header.querystring ∧ 0 ∉ httpReq.body
  | .UNKNOWN => True

/-- A number of the address or the port has not all its digits, and what was
posted has 233 bytes at most. -/
def PageFits (peer : Peer) (httpReq : HttpRequest) : Prop :=
  match httpReq.header.method with
  | .GET => (∃ i, peer.octets i < 100) ∨ peer.port < 10000
  | .POST => httpReq.header.querystring.length + httpReq.body.length ≤ 233
  | .UNKNOWN => True

/-- The file is short and has no NUL byte.  Where its path is cut, the file that
is opened instead begins with the same bytes and a NUL, or has just them. -/
structure ComesThrough (files : Bytes → Option Bytes) (resource content : Bytes) : Prop where
  short : content.length < 512
  whole : (cStr resource).length ≤ 245 → 0 ∉ content
  other : 245 < (cStr resource).length →
    ∃ opened, files (staticPath resource) = some opened ∧ cStr opened = content

theorem nulTerminated_iff {size : Nat} {written : Bytes} (h : written.length ≤ size) :
    NulTerminated size written ↔ (cStr written).length < size := by
  have hlength : (zeroFilled size written).length = size := length_zeroFilled h
  rw [NulTerminated, List.take_of_length_le hlength.le, zeroFilled, List.mem_append,
    List.mem_replicate]
  rcases Nat.eq_or_lt_of_le h with hfull | hshort
  · rw [← hfull, length_cStr_lt_iff]
    simp
  · have hcStr := length_cStr_le written
    refine iff_of_true (Or.inr ⟨by omega, rfl⟩) (by omega)

theorem bufferText_of_terminated {size : Nat} {written : Bytes}
    (h : (cStr written).length < size) (behind : Bytes) :
    bufferText size written behind = cStr written := by
  rw [bufferText]
  split
  · rfl
  · have hinside : (cStr written).length ≠ written.length := by omega
    rw [cStr, List.takeWhile_append]
    exact if_neg hinside

theorem bufferText_snprintf {size : Nat} (hsize : 0 < size) {text : Bytes} (htext : 0 ∉ text)
    (behind : Bytes) : bufferText size (snprintf size text) behind = text.take (size - 1) := by
  have hself : cStr (text.take (size - 1)) = text.take (size - 1) :=
    cStr_eq_self fun hzero => htext (List.mem_of_mem_take hzero)
  have hlength : (text.take (size - 1)).length ≤ size - 1 := List.length_take_le _ _
  rw [snprintf, bufferText_of_terminated (by rw [hself]; omega), hself]

theorem bufferText_take_iff {size : Nat} {opened content : Bytes} (behind : Bytes) :
    (bufferText size (opened.take size) behind = content ∧ NulTerminated size (opened.take size)) ↔
      cStr opened = content ∧ content.length < size := by
  have hcut : cStr (opened.take size) = (cStr opened).take size := List.take_takeWhile.symm
  rw [nulTerminated_iff (List.length_take_le _ _), hcut, List.length_take]
  constructor
  · rintro ⟨htext, hshort⟩
    have hall : (cStr opened).length < size := by omega
    have htake : (cStr opened).take size = cStr opened := List.take_of_length_le hall.le
    rw [bufferText_of_terminated (by rw [hcut, htake]; exact hall), hcut, htake] at htext
    rw [← htext]
    exact ⟨rfl, hall⟩
  · rintro ⟨rfl, hshort⟩
    have htake : (cStr opened).take size = cStr opened := List.take_of_length_le hshort.le
    rw [bufferText_of_terminated (by rw [hcut, htake]; exact hshort), hcut, htake]
    exact ⟨rfl, by omega⟩

theorem length_welcomePage (remotehost : Bytes) :
    (welcomePage remotehost).length = 156 + remotehost.length := by
  have htemplate : (welcomePage []).length = 156 := by decide +kernel
  simp only [welcomePage, List.length_append, List.length_nil] at htemplate ⊢
  omega

theorem length_formPage (querystring body : Bytes) :
    (formPage querystring body).length = 278 + querystring.length + body.length := by
  have htemplate : (formPage [] []).length = 278 := by decide +kernel
  simp only [formPage, List.length_append, List.length_nil] at htemplate ⊢
  omega

theorem zero_not_mem_welcomePage {remotehost : Bytes} (h : 0 ∉ remotehost) :
    0 ∉ welcomePage remotehost := by
  have htemplate : 0 ∉ welcomePage [] := by decide +kernel
  simp only [welcomePage, List.mem_append, List.not_mem_nil, or_false, not_or] at htemplate ⊢
  exact ⟨⟨htemplate.1, h⟩, htemplate.2⟩

theorem zero_not_mem_formPage {querystring body : Bytes} (hquery : 0 ∉ querystring)
    (hbody : 0 ∉ body) : 0 ∉ formPage querystring body := by
  have htemplate : 0 ∉ formPage [] [] := by decide +kernel
  simp only [formPage, List.mem_append, List.not_mem_nil, or_false, not_or] at htemplate ⊢
  tauto

theorem zero_not_mem_hostText (peer : Peer) : 0 ∉ hostText peer := by
  rw [hostText, List.mem_append, List.mem_append]
  rintro ((hmem | hmem) | hmem)
  · exact zero_not_mem_inetNtoa _ hmem
  · exact absurd hmem (by decide)
  · exact zero_not_mem_decimal _ hmem

/-- Of all addresses only the longest do not fit. -/
theorem length_hostText_le_iff (peer : Peer) :
    (hostText peer).length ≤ 20 ↔ (∃ i, peer.octets i < 100) ∨ peer.port < 10000 := by
  have hoctet : ∀ i, (decimal (peer.octets i).toNat).length ≤ 3 := fun i =>
    length_decimal_le (by decide) (Nat.lt_of_lt_of_le (peer.octets i).toNat_lt (by decide))
  have hshort : ∀ i, (decimal (peer.octets i).toNat).length ≤ 2 ↔ peer.octets i < 100 := by
    intro i
    rw [length_decimal_le_iff (by decide), UInt8.lt_iff_toNat_lt]
    rfl
  have hport : (decimal peer.port.toNat).length ≤ 5 :=
    length_decimal_le (by decide) (Nat.lt_of_lt_of_le peer.port.toNat_lt (by decide))
  have hportShort : (decimal peer.port.toNat).length ≤ 4 ↔ peer.port < 10000 := by
    rw [length_decimal_le_iff (by decide), UInt16.lt_iff_toNat_lt]
    rfl
  have hseparator : (literal ":").length = 1 := by decide
  have h₀ := hoctet 0
  have h₁ := hoctet 1
  have h₂ := hoctet 2
  have h₃ := hoctet 3
  rw [← hportShort, hostText, inetNtoa_eq]
  simp only [← hshort, List.length_append, List.length_cons, hseparator]
  constructor
  · intro hle
    by_contra hlong
    rw [not_or, not_exists] at hlong
    have hlong₀ := hlong.1 0
    have hlong₁ := hlong.1 1
    have hlong₂ := hlong.1 2
    have hlong₃ := hlong.1 3
    omega
  · rintro (⟨i, hi⟩ | hlast)
    · fin_cases i
      all_goals
        simp only [Fin.zero_eta, Fin.mk_one, Fin.reduceFinMk] at hi
        omega
    · omega

theorem getRemoteHost_some (peer : Peer) :
    getRemoteHost (some peer) = (hostText peer).take 20 := rfl

section Pages

variable (around : Surroundings) (peer : Peer) {httpReq : HttpRequest}

theorem answersWith_makeHttpResponse_iff (remotehost : Bytes) {status : Nat} {content : Bytes} :
    AnswersWith (makeHttpResponse around httpReq remotehost) status content ↔
      (responseContent around.files httpReq remotehost).1 = status ∧
        bufferText 512 (responseContent around.files httpReq remotehost).2
          around.behindContent = content :=
  answersWith_iff (by decide)

theorem welcome_complete_iff (hmethod : httpReq.header.method = .GET)
    (hresource : httpReq.header.resource = literal "/") :
    (∃ status, AnswersWith (makeHttpResponse around httpReq (getRemoteHost (some peer))) status
      (welcomePage (hostText peer))) ↔ (∃ i, peer.octets i < 100) ∨ peer.port < 10000 := by
  have hzero : 0 ∉ (hostText peer).take 20 := fun hmem =>
    zero_not_mem_hostText peer (List.mem_of_mem_take hmem)
  have hfits : (welcomePage ((hostText peer).take 20)).length ≤ 512 - 1 := by
    have hcut : ((hostText peer).take 20).length ≤ 20 := List.length_take_le _ _
    rw [length_welcomePage]
    omega
  have hcontent : responseContent around.files httpReq (getRemoteHost (some peer)) =
      (200, snprintf 512 (welcomePage ((hostText peer).take 20))) := by
    rw [responseContent, hmethod, getRemoteHost_some, cStr_eq_self hzero]
    exact if_pos hresource
  have htext := @bufferText_snprintf 512 (by decide) _ (zero_not_mem_welcomePage hzero)
    around.behindContent
  rw [List.take_of_length_le hfits] at htext
  simp only [answersWith_makeHttpResponse_iff, hcontent, exists_eq_left', htext]
  rw [← length_hostText_le_iff]
  constructor
  · intro hsame
    have hlengths := congrArg List.length hsame
    rw [length_welcomePage, length_welcomePage, List.length_take] at hlengths
    omega
  · intro hshort
    rw [List.take_of_length_le hshort]

theorem form_complete_iff (hmethod : httpReq.header.method = .POST)
    (hquery : 0 ∉ httpReq.header.querystring) (hbody : 0 ∉ httpReq.body) (remotehost : Bytes) :
    (∃ status, AnswersWith (makeHttpResponse around httpReq remotehost) status
      (formPage httpReq.header.querystring httpReq.body)) ↔
        httpReq.header.querystring.length + httpReq.body.length ≤ 233 := by
  have hcontent : responseContent around.files httpReq remotehost =
      (200, snprintf 512 (formPage httpReq.header.querystring httpReq.body)) := by
    rw [responseContent, hmethod, cStr_eq_self hquery, cStr_eq_self hbody]
  have htext := @bufferText_snprintf 512 (by decide) _ (zero_not_mem_formPage hquery hbody)
    around.behindContent
  simp only [answersWith_makeHttpResponse_iff, hcontent, exists_eq_left', htext]
  rw [List.take_eq_self_iff, length_formPage]
  omega

theorem error_complete (hmethod : httpReq.header.method = .UNKNOWN) (remotehost : Bytes) :
    ∃ status, AnswersWith (makeHttpResponse around httpReq remotehost) status
      (errorPage (getCodeDesc 501)) := by
  have hzero : 0 ∉ errorPage (getCodeDesc 501) := by decide +kernel
  have hfits : (errorPage (getCodeDesc 501)).length ≤ 512 - 1 := by decide +kernel
  have hcontent : responseContent around.files httpReq remotehost =
      (501, snprintf 512 (errorPage (getCodeDesc 501))) := by
    rw [responseContent, hmethod]
  refine ⟨501, (answersWith_makeHttpResponse_iff around remotehost).mpr ?_⟩
  rw [hcontent]
  refine ⟨rfl, ?_⟩
  rw [bufferText_snprintf (by decide) hzero, List.take_of_length_le hfits]

/-- A page arrives complete exactly if its parts fit their buffers. -/
theorem page_complete_iff (h : AsksForPage httpReq) :
    (∃ status, AnswersWith (makeHttpResponse around httpReq (getRemoteHost (some peer))) status
      (fullPage peer httpReq)) ↔ PageFits peer httpReq := by
  rw [AsksForPage] at h
  rw [fullPage, PageFits]
  rcases hmethod : httpReq.header.method with _ | _ | _
  · rw [hmethod] at h
    exact welcome_complete_iff around peer hmethod h
  · rw [hmethod] at h
    exact form_complete_iff around hmethod h.1 h.2 _
  · exact iff_of_true (error_complete around hmethod _) trivial

end Pages

/-- `GET /` from 127.0.0.1:80. -/
def rootRequest : HttpRequest :=
  { header :=
      { method := .GET
        resource := literal "/"
        querystring := []
        httpversion := literal "HTTP/1.1"
        host := [] }
    body := [] }

def localPeer : Peer := { octets := ![127, 0, 0, 1], port := 80 }

def longPeer : Peer := { octets := ![192, 168, 100, 100], port := 50000 }

theorem rootPage_complete : ∃ status, AnswersWith
    (makeHttpResponse { files := fun _ => none, behindContent := [] } rootRequest
      (getRemoteHost (some localPeer))) status (fullPage localPeer rootRequest) :=
  (page_complete_iff { files := fun _ => none, behindContent := [] } localPeer
    (show AsksForPage rootRequest from rfl)).mpr (Or.inl ⟨1, by decide⟩)

/-- The last digit of the port is lost. -/
theorem lastDigit_lost : AsksForPage rootRequest ∧
    getRemoteHost (some longPeer) = literal "192.168.100.100:5000" ∧
      ¬ ∃ status, AnswersWith
        (makeHttpResponse { files := fun _ => none, behindContent := [] } rootRequest
          (getRemoteHost (some longPeer))) status (fullPage longPeer rootRequest) := by
  refine ⟨rfl, by decide, fun h => ?_⟩
  have hshort := (welcome_complete_iff _ longPeer rfl rfl).mp h
  exact absurd hshort (by decide)

section Files

variable (around : Surroundings) (remotehost : Bytes) {httpReq : HttpRequest} {content : Bytes}

theorem opened_served_iff (hmethod : httpReq.header.method = .GET)
    (hresource : httpReq.header.resource ≠ literal "/") {opened : Bytes}
    (hfound : around.files (staticPath httpReq.header.resource) = some opened) :
    (AnswersWith (makeHttpResponse around httpReq remotehost) 200 content ∧
      NulTerminated 512 (responseContent around.files httpReq remotehost).2) ↔
        cStr opened = content ∧ content.length < 512 := by
  have hcontent : responseContent around.files httpReq remotehost = (200, opened.take 512) := by
    rw [← resourcePath_eq] at hfound
    simp only [responseContent, hmethod, if_neg hresource, hfound]
  rw [answersWith_makeHttpResponse_iff, hcontent, and_iff_right rfl, bufferText_take_iff]

theorem not_served_of_missing (hmethod : httpReq.header.method = .GET)
    (hresource : httpReq.header.resource ≠ literal "/")
    (hfound : around.files (staticPath httpReq.header.resource) = none) :
    ¬ AnswersWith (makeHttpResponse around httpReq remotehost) 200 content := by
  have hmissing : (responseContent around.files httpReq remotehost).1 = 404 := by
    rw [← resourcePath_eq] at hfound
    simp only [responseContent, hmethod, if_neg hresource, hfound]
  rw [answersWith_makeHttpResponse_iff, hmissing]
  exact fun h => absurd h.1 (by decide)

theorem staticPath_of_short {resource : Bytes} (h : (cStr resource).length ≤ 245) :
    staticPath resource = literal "bin/static" ++ cStr resource := by
  rw [staticPath, servedPart, List.take_of_length_le h]

theorem comesThrough_iff {files : Bytes → Option Bytes} {resource : Bytes}
    (hfile : files (literal "bin/static" ++ cStr resource) = some content) :
    ComesThrough files resource content ↔
      ∃ opened, files (staticPath resource) = some opened ∧ cStr opened = content ∧
        content.length < 512 := by
  rcases Nat.lt_or_ge 245 (cStr resource).length with hlong | hshort
  · constructor
    · intro h
      rcases h.other hlong with ⟨opened, hopen, htext⟩
      exact ⟨opened, hopen, htext, h.short⟩
    · rintro ⟨opened, hopen, htext, hsize⟩
      exact ⟨hsize, fun hle => absurd hle (Nat.not_le.mpr hlong), fun _ => ⟨opened, hopen, htext⟩⟩
  · rw [staticPath_of_short hshort, hfile]
    constructor
    · intro h
      exact ⟨content, rfl, cStr_eq_self (h.whole hshort), h.short⟩
    · rintro ⟨opened, hopen, htext, hsize⟩
      rcases Option.some.inj hopen
      refine ⟨hsize, fun _ => ?_, fun hlt => absurd hlt (Nat.not_lt.mpr hshort)⟩
      rw [← htext]
      exact zero_not_mem_cStr content

/-- A static file arrives as it is, in a terminated buffer, exactly if it comes
through. -/
theorem file_served_iff (hmethod : httpReq.header.method = .GET)
    (hresource : httpReq.header.resource ≠ literal "/")
    (hfile : around.files (literal "bin/static" ++ cStr httpReq.header.resource) =
      some content) :
    (AnswersWith (makeHttpResponse around httpReq remotehost) 200 content ∧
      NulTerminated 512 (responseContent around.files httpReq remotehost).2) ↔
        ComesThrough around.files httpReq.header.resource content := by
  rw [comesThrough_iff hfile]
  rcases hfound : around.files (staticPath httpReq.header.resource) with _ | opened
  · refine iff_of_false (fun h => ?_) (by simp)
    exact not_served_of_missing around remotehost hmethod hresource hfound h.1
  · rw [opened_served_iff around remotehost hmethod hresource hfound]
    simp

end Files

def fileRequest : HttpRequest :=
  { rootRequest with header := { rootRequest.header with resource := literal "/a" } }

/-- A file system with the file `bin/static/a` only. -/
def oneFile (content : Bytes) : Surroundings :=
  { files := fun path => if path = literal "bin/static/a" then some content else none
    behindContent := [] }

theorem oneFile_files (content : Bytes) :
    (oneFile content).files (literal "bin/static/a") = some content := by
  simp [oneFile]

theorem shortFile_served :
    AnswersWith (makeHttpResponse (oneFile (literal "hi")) fileRequest []) 200 (literal "hi") ∧
      NulTerminated 512 (responseContent (oneFile (literal "hi")).files fileRequest []).2 :=
  (file_served_iff (oneFile (literal "hi")) [] rfl (by decide) (by decide)).mpr
    ⟨by decide, by decide, by decide⟩

/-- A file of 600 bytes fills the buffer, and its end is lost. -/
theorem longFile_not_served :
    (oneFile (List.replicate 600 97)).files (literal "bin/static/a") =
        some (List.replicate 600 97) ∧
      ¬ (AnswersWith (makeHttpResponse (oneFile (List.replicate 600 97)) fileRequest []) 200
          (List.replicate 600 97) ∧
        NulTerminated 512
          (responseContent (oneFile (List.replicate 600 97)).files fileRequest []).2) := by
  have hpath : staticPath fileRequest.header.resource = literal "bin/static/a" := by decide
  have hopened := oneFile_files (List.replicate 600 97)
  refine ⟨hopened, fun h => ?_⟩
  rw [← hpath] at hopened
  have hsize := ((opened_served_iff _ [] rfl (by decide) hopened).mp h).2
  rw [List.length_replicate] at hsize
  exact absurd hsize (by decide)

end StudyLinuxKernel.Http.ResponseContent
