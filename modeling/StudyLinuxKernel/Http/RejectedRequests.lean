import StudyLinuxKernel.Http.ResponseFraming
import StudyLinuxKernel.Http.SelectServer

namespace StudyLinuxKernel.Http.RejectedRequests

open StudyLinuxKernel.Http.Request
open StudyLinuxKernel.Http.Response
open StudyLinuxKernel.Http.ResponseFraming
open StudyLinuxKernel.Http.SelectServer
open StudyLinuxKernel.Http.Text
open StudyLinuxKernel.Libc.Text

/-- The response has an error status, and what the memory held in the place of
the method has no influence on it. -/
structure Refused (received : Received) : Prop where
  status : (responseContent received.around.files received.parsed.2
    (getRemoteHost received.peer)).1 ≠ 200
  assigned : ∀ unset, { received with unset := unset }.response = received.response

def headOf (text : Bytes) : Bytes := (splitstr [] text crlfcrlf (-1)).getD 0 []

def headLines (text : Bytes) : List Bytes := splitstr [] (headOf text) crlf (-1)

/-- The words of the request line. -/
def requestInfo (text : Bytes) : List Bytes :=
  splitstr [] ((headLines text).getD 0 []) [space] (-1)

/-- The parser gets as far as to the method. -/
def ReadsMethod (text : Bytes) : Prop :=
  3 ≤ (headLines text).length ∧ 3 ≤ (requestInfo text).length

def methodOf (text : Bytes) : Method := parseMethod ((requestInfo text).getD 0 [])

def resourceOf (text : Bytes) : Bytes :=
  (splitstr [] ((requestInfo text).getD 1 []) [question] 1).getD 0 []

/-- What the parser has filled in when it comes to the header lines. -/
def requestLineHeader (text : Bytes) (header : Header) : Header :=
  let header := { header with method := methodOf text }
  let vecQuerys := splitstr [] ((requestInfo text).getD 1 []) [question] 1
  let header :=
    if 1 < vecQuerys.length then { header with querystring := vecQuerys.getD 1 [] } else header
  { header with
    resource := resourceOf text
    httpversion := (requestInfo text).getD 2 [] }

/-- The request line is read, and the method is unknown or what it asks for is
not there. -/
structure Unservable (files : Bytes → Option Bytes) (text : Bytes) : Prop where
  read : ReadsMethod text
  missing : methodOf text = .UNKNOWN ∨
    methodOf text = .GET ∧ resourceOf text ≠ literal "/" ∧
      files (resourcePath (resourceOf text)) = none

theorem splitstr_ne_nil (strSource strSep : Bytes) (nMatch : Int) :
    ¬ (splitstr [] strSource strSep nMatch).length < 1 := by
  rw [splitstr, List.length_append, List.length_singleton]
  exact Nat.not_lt.mpr (Nat.le_add_left _ _)

theorem parseHttpRequest_eq (text : Bytes) (httpReq : HttpRequest) :
    (parseHttpRequest text httpReq).1 = (parseHttpRequestHeader (headOf text) httpReq.header).1 ∧
      (parseHttpRequest text httpReq).2.header =
        (parseHttpRequestHeader (headOf text) httpReq.header).2 := by
  rw [parseHttpRequest, if_neg (splitstr_ne_nil _ _ _)]
  exact ⟨rfl, rfl⟩

section Parsed

variable {text : Bytes} (header : Header)

theorem parsed_of_not_readsMethod (h : ¬ ReadsMethod text) :
    parseHttpRequestHeader (headOf text) header = (false, header) := by
  rw [parseHttpRequestHeader]
  split
  · rfl
  · rename_i hlines
    have hwords : (requestInfo text).length < 3 :=
      Nat.lt_of_not_le fun hwords => h ⟨Nat.not_lt.mp hlines, hwords⟩
    exact if_pos hwords

theorem method_requestLineHeader : (requestLineHeader text header).method = methodOf text := by
  simp only [requestLineHeader]
  -- `rfl` would evaluate the method here.
  split
  · dsimp only
  · dsimp only

theorem resource_requestLineHeader :
    (requestLineHeader text header).resource = resourceOf text := by
  simp only [requestLineHeader]

theorem parsed_of_readsMethod (h : ReadsMethod text) :
    parseHttpRequestHeader (headOf text) header =
      match parseHeaderLines ((headLines text).drop 1) [] with
      | none => (false, requestLineHeader text header)
      | some mapHeader => (true, { requestLineHeader text header with
          host := (mapHeader.lookup (literal "Host")).getD [] }) := by
  have hlines : ¬ (splitstr [] (headOf text) crlf (-1)).length < 3 := Nat.not_lt.mpr h.1
  have hwords : ¬ (splitstr [] ((splitstr [] (headOf text) crlf (-1)).getD 0 []) [space]
      (-1)).length < 3 := Nat.not_lt.mpr h.2
  simp only [parseHttpRequestHeader, hlines, hwords, splitstr_ne_nil, if_false, headLines,
    requestLineHeader, methodOf, resourceOf, requestInfo]
  cases parseHeaderLines ((splitstr [] (headOf text) crlf (-1)).drop 1) [] with
  | none => rfl
  | some mapHeader => rfl

theorem header_of_readsMethod (h : ReadsMethod text) :
    (parseHttpRequestHeader (headOf text) header).2.method = methodOf text ∧
      (parseHttpRequestHeader (headOf text) header).2.resource = resourceOf text := by
  rw [parsed_of_readsMethod header h, ← method_requestLineHeader header,
    ← resource_requestLineHeader header]
  generalize requestLineHeader text header = read
  split
  · exact ⟨rfl, rfl⟩
  · exact ⟨rfl, rfl⟩

end Parsed

theorem status_ne_200_iff (files : Bytes → Option Bytes) (httpReq : HttpRequest)
    (remotehost : Bytes) : (responseContent files httpReq remotehost).1 ≠ 200 ↔
      httpReq.header.method = .UNKNOWN ∨
        httpReq.header.method = .GET ∧ httpReq.header.resource ≠ literal "/" ∧
          files (resourcePath httpReq.header.resource) = none := by
  rw [responseContent]
  cases httpReq.header.method with
  | GET =>
      simp only [reduceCtorEq, false_or, true_and]
      split
      · rename_i hresource
        exact iff_of_false (fun h => h rfl) fun h => h.1 hresource
      · rename_i hresource
        cases files (resourcePath httpReq.header.resource) with
        | none => exact iff_of_true (by decide) ⟨hresource, rfl⟩
        | some content =>
            exact iff_of_false (fun h => h rfl) fun h => Option.some_ne_none content h.2
  | POST => simp
  | UNKNOWN => simp

/-- A rejected request is refused exactly if its request line was read and names
an unknown method or a file that is not there. -/
theorem refused_iff (received : Received) :
    (received.parsed.1 = false → Refused received) ↔
      (received.parsed.1 = false → Unservable received.around.files received.text) := by
  apply imp_congr_right
  intro _
  rcases Classical.em (ReadsMethod received.text) with hread | hread
  · have hheader : received.parsed.2.header =
        (parseHttpRequestHeader (headOf received.text)
          (HttpRequest.fresh received.unset).header).2 :=
      (parseHttpRequest_eq received.text (.fresh received.unset)).2
    obtain ⟨hmethod, hresource⟩ :=
      header_of_readsMethod (HttpRequest.fresh received.unset).header hread
    have hstatus := status_ne_200_iff received.around.files received.parsed.2
      (getRemoteHost received.peer)
    rw [hheader, hmethod, hresource] at hstatus
    constructor
    · intro h
      exact ⟨hread, hstatus.mp h.status⟩
    · intro h
      refine ⟨hstatus.mpr h.missing, fun unset => ?_⟩
      have hsame : { received with unset := unset }.parsed = received.parsed := by
        change parseHttpRequest received.text (.fresh unset) =
          parseHttpRequest received.text (.fresh received.unset)
        rw [parseHttpRequest, parseHttpRequest, if_neg (splitstr_ne_nil _ _ _),
          if_neg (splitstr_ne_nil _ _ _), ← headOf,
          parsed_of_readsMethod _ hread, parsed_of_readsMethod _ hread]
        rfl
      rw [Received.response_eq, Received.response_eq, hsame]
  · refine iff_of_false (fun h => ?_) fun h => hread h.read
    -- The answer would be the same for an unset method that is POST and for an unknown one.
    have hboth : { received with unset := .POST }.response =
        { received with unset := .UNKNOWN }.response :=
      (h.assigned .POST).trans (h.assigned .UNKNOWN).symm
    have hstatus := status_of_makeHttpResponse_eq hboth
    have hkept : ∀ unset, (parseHttpRequest received.text (.fresh unset)).2.header =
        (HttpRequest.fresh unset).header := by
      intro unset
      rw [(parseHttpRequest_eq received.text (.fresh unset)).2, parsed_of_not_readsMethod _ hread]
    have hfailed : (responseContent received.around.files
        (parseHttpRequest received.text (.fresh .UNKNOWN)).2
        (getRemoteHost received.peer)).1 ≠ 200 := by
      rw [status_ne_200_iff, hkept]
      exact Or.inl rfl
    have hserved : ¬ (responseContent received.around.files
        (parseHttpRequest received.text (.fresh .POST)).2
        (getRemoteHost received.peer)).1 ≠ 200 := by
      rw [status_ne_200_iff, hkept]
      simp [HttpRequest.fresh]
    exact hserved fun hsame => hfailed (hstatus.symm.trans hsame)

/-- A header line without a colon. -/
def brokenRequest : Received where
  bytes := literal "GET / 1\r\nxx\r\nyy"
  bytes_ne_nil := by decide
  length_le := by decide
  behindMsg := []
  unset := .UNKNOWN
  peer := none
  around := { files := fun _ => none, behindContent := [] }

theorem brokenRequest_served :
    brokenRequest.parsed.1 = false ∧
      (responseContent brokenRequest.around.files brokenRequest.parsed.2
        (getRemoteHost brokenRequest.peer)).1 = 200 ∧
      ¬ (brokenRequest.parsed.1 = false → Refused brokenRequest) := by
  have hparsed : brokenRequest.parsed.1 = false ∧
      brokenRequest.parsed.2.header.method = .GET ∧
      brokenRequest.parsed.2.header.resource = literal "/" := by
    decide +kernel
  have hserved : (responseContent brokenRequest.around.files brokenRequest.parsed.2
      (getRemoteHost brokenRequest.peer)).1 = 200 := by
    rw [responseContent, hparsed.2.1]
    exact congrArg Prod.fst (if_pos hparsed.2.2)
  exact ⟨hparsed.1, hserved, fun h => (h hparsed.1).status hserved⟩

end StudyLinuxKernel.Http.RejectedRequests
