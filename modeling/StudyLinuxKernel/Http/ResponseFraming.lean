import StudyLinuxKernel.Http.Response
import StudyLinuxKernel.Libc.Decimal

namespace StudyLinuxKernel.Http.ResponseFraming

open StudyLinuxKernel.Http.Request
open StudyLinuxKernel.Http.Response
open StudyLinuxKernel.Http.Text
open StudyLinuxKernel.Libc.Decimal
open StudyLinuxKernel.Libc.Text

def statusText (status : Nat) : Bytes := literal "HTTP/1.1 " ++ decimal status

/-- What stands between the status code and the length. -/
def headMiddle (status : Nat) (contentType : Bytes) : Bytes :=
  literal " " ++ getCodeDesc status ++ crlf ++
    literal "Server: Select-I/O of HTTP/1.1" ++ crlf ++
    literal "Content-Type: " ++ contentType ++ crlf ++ literal "Content-Length: "

def headEnd : Bytes := crlf ++ literal "Connection: " ++ literal "close" ++ crlf ++ crlf

theorem _makeHttpResponse_eq (status : Nat) (contentType strContent : Bytes) :
    _makeHttpResponse status contentType strContent =
      statusText status ++ (headMiddle status contentType ++
        (decimal strContent.length ++ (headEnd ++ strContent))) := by
  simp only [_makeHttpResponse, responseHead, statusText, headMiddle, headEnd, List.append_assoc]

/-- The status codes that are used. -/
def IsCode (code : Nat) : Prop := code = 200 ∨ code = 404 ∨ code = 501

theorem isCode_responseContent (files : Bytes → Option Bytes) (httpReq : HttpRequest)
    (remotehost : Bytes) : IsCode (responseContent files httpReq remotehost).1 := by
  rw [responseContent]
  split
  · split
    · exact Or.inl rfl
    · split
      · exact Or.inr (Or.inl rfl)
      · exact Or.inl rfl
  · exact Or.inl rfl
  · exact Or.inr (Or.inr rfl)

theorem length_statusText {code : Nat} (h : IsCode code) : (statusText code).length = 12 := by
  rcases h with rfl | rfl | rfl
  · decide
  · decide
  · decide

theorem code_injective {code code' : Nat} {contentType contentType' strContent strContent'
    rest rest' : Bytes} (hcode : IsCode code) (hcode' : IsCode code')
    (h : _makeHttpResponse code contentType strContent ++ rest =
      _makeHttpResponse code' contentType' strContent' ++ rest') : code = code' := by
  rw [_makeHttpResponse_eq, _makeHttpResponse_eq] at h
  simp only [List.append_assoc] at h
  have hlength : (statusText code).length = (statusText code').length := by
    rw [length_statusText hcode, length_statusText hcode']
  have hstatus : statusText code = statusText code' := (List.append_inj h hlength).1
  exact decimal_injective (List.append_cancel_left hstatus)

theorem not_isDigit_headEnd (rest : Bytes) :
    (headEnd ++ rest).head?.all fun ch => !isDigit ch := rfl

theorem _makeHttpResponse_prefix_free {code code' : Nat} {contentType strContent strContent'
    rest : Bytes} (hcode : IsCode code) (hcode' : IsCode code')
    (h : _makeHttpResponse code contentType strContent ++ rest =
      _makeHttpResponse code' contentType strContent') : rest = [] := by
  obtain rfl : code = code' := by
    apply @code_injective code code' contentType contentType strContent strContent' rest [] hcode
      hcode'
    rw [List.append_nil]
    exact h
  rw [_makeHttpResponse_eq, _makeHttpResponse_eq] at h
  simp only [List.append_assoc] at h
  have hsizes := List.append_cancel_left (List.append_cancel_left h)
  obtain ⟨hlength, hcontent⟩ := decimal_append_inj (not_isDigit_headEnd (strContent ++ rest))
    (not_isDigit_headEnd strContent') hsizes
  have hboth := congrArg List.length (List.append_cancel_left hcontent)
  rw [List.length_append, hlength] at hboth
  exact List.length_eq_zero_iff.mp (by omega)

theorem status_of_makeHttpResponse_eq {around around' : Surroundings}
    {httpReq httpReq' : HttpRequest} {remotehost remotehost' : Bytes}
    (h : makeHttpResponse around httpReq remotehost =
      makeHttpResponse around' httpReq' remotehost') :
    (responseContent around.files httpReq remotehost).1 =
      (responseContent around'.files httpReq' remotehost').1 := by
  apply code_injective (isCode_responseContent _ _ _) (isCode_responseContent _ _ _)
  rw [List.append_nil, List.append_nil]
  exact h

theorem makeHttpResponse_prefix_free {around around' : Surroundings}
    {httpReq httpReq' : HttpRequest} {remotehost remotehost' rest : Bytes}
    (h : makeHttpResponse around httpReq remotehost ++ rest =
      makeHttpResponse around' httpReq' remotehost') : rest = [] :=
  _makeHttpResponse_prefix_free (isCode_responseContent _ _ _) (isCode_responseContent _ _ _) h

end StudyLinuxKernel.Http.ResponseFraming
