import StudyLinuxKernel.Http.Request
import StudyLinuxKernel.Libc.Inet

namespace StudyLinuxKernel.Http.Response

open StudyLinuxKernel.Http.Request
open StudyLinuxKernel.Http.Text
open StudyLinuxKernel.Libc.Decimal
open StudyLinuxKernel.Libc.Inet
open StudyLinuxKernel.Libc.Text

def MSG_SIZE : Nat := 4096

def getCodeDesc (status : Nat) : Bytes :=
  match status with
  | 200 => literal "Ok"
  | 400 => literal "Bad Request"
  | 403 => literal "Forbidden"
  | 404 => literal "Not Found"
  | 500 => literal "Internal Server Error"
  | 501 => literal "Not Implemented"
  | _ => literal "Not Implemented"

/-- The status line and the header lines. -/
def responseHead (status : Nat) (contentType : Bytes) (size : Nat) : Bytes :=
  literal "HTTP/1.1 " ++ decimal status ++ literal " " ++ getCodeDesc status ++ crlf ++
    literal "Server: Select-I/O of HTTP/1.1" ++ crlf ++
    literal "Content-Type: " ++ contentType ++ crlf ++
    literal "Content-Length: " ++ decimal size ++ crlf ++
    literal "Connection: " ++ literal "close" ++ crlf ++ crlf

/-- `__make_http_response`. -/
def _makeHttpResponse (status : Nat) (contentType strContent : Bytes) : Bytes :=
  responseHead status contentType strContent.length ++ strContent

def welcomePage (remotehost : Bytes) : Bytes :=
  literal "<HTML><TITLE>欢迎使用Select-I/O of HTTP</TITLE><BODY><H1>亲爱的" ++ remotehost ++
    literal ", 欢迎使用Select-I/O of HTTP</H1><P>这是一个迷你HTTP服务</P></BODY></HTML>"

def formPage (querystring body : Bytes) : Bytes :=
  literal "<HTML><TITLE>欢迎使用Select-I/O of HTTP</TITLE><BODY><form>" ++
    literal "<label for=\"querystring\">QueryString:</label><input type=\"text\" value=\"" ++
    querystring ++
    literal "\" name=\"querystring\" id=\"querystring\"><br>" ++
    literal "<label for=\"body\">Body:</label><input type=\"text\" value=\"" ++ body ++
    literal "\" name=\"body\" id=\"body\"></form></BODY></HTML>"

def errorPage (desc : Bytes) : Bytes :=
  literal "<HTML><TITLE>欢迎使用Select-I/O of HTTP</TITLE><BODY><H1>" ++ desc ++
    literal "</H1></BODY></HTML>"

/-- What `make_http_response` finds around it: the files that can be opened, by
path, and the memory behind `szContent`. -/
structure Surroundings where
  files : Bytes → Option Bytes
  behindContent : Bytes

def resourcePath (resource : Bytes) : Bytes :=
  snprintf 256 (literal "bin/static" ++ cStr resource)

/-- The status code and the bytes stored in `szContent`. -/
def responseContent (files : Bytes → Option Bytes) (httpReq : HttpRequest)
    (remotehost : Bytes) : Nat × Bytes :=
  match httpReq.header.method with
  | .GET =>
      if httpReq.header.resource = literal "/" then
        (200, snprintf 512 (welcomePage (cStr remotehost)))
      else
        match files (resourcePath httpReq.header.resource) with
        | none => (404, snprintf 512 (errorPage (literal "Not Found")))
        | some content => (200, content.take 512)
  | .POST =>
      (200, snprintf 512 (formPage (cStr httpReq.header.querystring) (cStr httpReq.body)))
  | .UNKNOWN => (501, snprintf 512 (errorPage (getCodeDesc 501)))

def makeHttpResponse (around : Surroundings) (httpReq : HttpRequest) (remotehost : Bytes) :
    Bytes :=
  let (code, szContent) := responseContent around.files httpReq remotehost
  _makeHttpResponse code (literal "Text/Html; charset=UTF-8")
    (bufferText 512 szContent around.behindContent)

/-- The address that `getpeername` reports. -/
structure Peer where
  octets : Fin 4 → UInt8
  port : UInt16

/-- `get_remote_host`; `none` where `getpeername` fails. -/
def getRemoteHost (peer : Option Peer) : Bytes :=
  match peer with
  | none => []
  | some sa => snprintf 21 (inetNtoa sa.octets ++ literal ":" ++ decimal sa.port.toNat)

theorem zero_not_mem_getCodeDesc (status : Nat) : 0 ∉ getCodeDesc status := by
  unfold getCodeDesc
  split <;> decide

theorem zero_not_mem_responseHead (status : Nat) {contentType : Bytes} (h : 0 ∉ contentType)
    (size : Nat) : 0 ∉ responseHead status contentType size := by
  simp only [responseHead, List.mem_append, not_or]
  refine ⟨⟨⟨⟨⟨⟨⟨⟨⟨⟨⟨⟨⟨⟨⟨⟨?_, ?_⟩, ?_⟩, ?_⟩, ?_⟩, ?_⟩, ?_⟩, ?_⟩, ?_⟩, ?_⟩, ?_⟩, ?_⟩, ?_⟩, ?_⟩, ?_⟩,
    ?_⟩, ?_⟩
  any_goals decide
  · exact zero_not_mem_decimal status
  · exact zero_not_mem_getCodeDesc status
  · exact h
  · exact zero_not_mem_decimal size

theorem zero_not_mem_makeHttpResponse (around : Surroundings) (httpReq : HttpRequest)
    (remotehost : Bytes) : 0 ∉ makeHttpResponse around httpReq remotehost := by
  rw [makeHttpResponse]
  generalize responseContent around.files httpReq remotehost = content
  obtain ⟨code, szContent⟩ := content
  simp only [_makeHttpResponse, List.mem_append, not_or]
  exact ⟨zero_not_mem_responseHead code (by decide) _,
    zero_not_mem_bufferText 512 szContent around.behindContent⟩

theorem one_lt_length_makeHttpResponse (around : Surroundings) (httpReq : HttpRequest)
    (remotehost : Bytes) : 1 < (makeHttpResponse around httpReq remotehost).length := by
  have hversion : (literal "HTTP/1.1 ").length = 9 := by decide
  rw [makeHttpResponse]
  generalize responseContent around.files httpReq remotehost = content
  obtain ⟨code, szContent⟩ := content
  simp only [_makeHttpResponse, responseHead, List.length_append, hversion]
  omega

end StudyLinuxKernel.Http.Response
