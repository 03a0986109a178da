import StudyLinuxKernel.Http.HeadBody
import StudyLinuxKernel.Http.ResponseFraming
import StudyLinuxKernel.Library.Cutting

namespace StudyLinuxKernel.Http.ResponseEncoding

open StudyLinuxKernel.Http.HeadBody
open StudyLinuxKernel.Http.Request
open StudyLinuxKernel.Http.RequestEncoding
open StudyLinuxKernel.Http.Response
open StudyLinuxKernel.Http.ResponseFraming
open StudyLinuxKernel.Http.Text
open StudyLinuxKernel.Libc.Decimal
open StudyLinuxKernel.Libc.Text
open StudyLinuxKernel.Library.Cutting
open StudyLinuxKernel.Library.Occurrences

@[ext] structure ResponseField where
  name : Bytes
  value : Bytes
  name_ne : name ≠ []
  name_free : FreeOf [colon, cr, lf] name
  value_free : FreeOf [cr, lf] value

@[ext] structure ResponseHead where
  status : Nat
  reason : Bytes
  fields : List ResponseField
  reason_free : FreeOf [cr, lf] reason
  names_nodup : (fields.map ResponseField.name).Nodup

def ResponseField.encode (f : ResponseField) : Bytes := f.name ++ (literal ": " ++ f.value)

def ResponseHead.statusLine (head : ResponseHead) : Bytes :=
  literal "HTTP/1.1 " ++ (decimal head.status ++ (literal " " ++ head.reason))

def ResponseHead.lines (head : ResponseHead) : List Bytes :=
  head.statusLine :: head.fields.map ResponseField.encode

def ResponseHead.encode (head : ResponseHead) : Bytes := crlf.intercalate head.lines

/-- The number that a text of digits writes. -/
def readDecimal (text : Bytes) : Option Nat :=
  if text ≠ [] ∧ text.all isDigit then some (digitsValue text) else none

/-- The number in the field `Content-Length`. -/
def ResponseHead.contentLength (head : ResponseHead) : Option Nat :=
  (head.fields.find? fun f => f.name = literal "Content-Length").bind fun f =>
    readDecimal f.value

theorem readDecimal_decimal (n : Nat) : readDecimal (decimal n) = some n := by
  have hdigits : (decimal n).all isDigit = true :=
    List.all_eq_true.mpr fun _ hch => isDigit_of_mem_decimal hch
  rw [readDecimal, if_pos ⟨decimal_ne_nil n, hdigits⟩, digitsValue_decimal]

theorem decimal_free (n : Nat) : FreeOf [cr, lf] (decimal n) := by
  intro c hc hmem
  have hdigit := isDigit_of_mem_decimal hmem
  rcases List.mem_cons.mp hc with rfl | hc
  · exact absurd hdigit (by decide)
  · rw [List.mem_singleton.mp hc] at hdigit
    exact absurd hdigit (by decide)

theorem getCodeDesc_free (status : Nat) : FreeOf [cr, lf] (getCodeDesc status) := by
  unfold getCodeDesc
  split <;> decide

theorem ResponseField.encode_free (f : ResponseField) : FreeOf [cr, lf] f.encode := by
  have hcolon : FreeOf [cr, lf] (literal ": ") := by decide
  exact (f.name_free.mono (by decide)).append (hcolon.append f.value_free)

theorem ResponseField.encode_ne (f : ResponseField) : f.encode ≠ [] := by
  simp [ResponseField.encode, f.name_ne]

theorem ResponseHead.statusLine_free (head : ResponseHead) :
    FreeOf [cr, lf] head.statusLine := by
  have hversion : FreeOf [cr, lf] (literal "HTTP/1.1 ") := by decide
  have hspace : FreeOf [cr, lf] (literal " ") := by decide
  exact hversion.append ((decimal_free head.status).append (hspace.append head.reason_free))

theorem ResponseHead.statusLine_ne (head : ResponseHead) : head.statusLine ≠ [] := by
  have hversion : literal "HTTP/1.1 " ≠ [] := by decide
  simp [ResponseHead.statusLine, hversion]

theorem ResponseHead.lines_free (head : ResponseHead) :
    ∀ line ∈ head.lines, cr ∉ line ∧ line ≠ [] := by
  intro line hline
  rcases List.mem_cons.mp hline with rfl | hline
  · exact ⟨head.statusLine_free cr (by decide), head.statusLine_ne⟩
  · rcases List.mem_map.mp hline with ⟨f, _, rfl⟩
    exact ⟨f.encode_free cr (by decide), f.encode_ne⟩

theorem firstBlankLine_intercalate {lines : List Bytes} (hne : lines ≠ [])
    (hlines : ∀ line ∈ lines, cr ∉ line ∧ line ≠ []) (content : Bytes) :
    FirstBlankLine (crlf.intercalate lines) content := by
  have hclosed : closeLines lines crlf = crlf.intercalate lines ++ crlfcrlf := by
    rw [closeLines_eq_intercalate, intercalate_concat hne]
    rfl
  have hnone := innerOccurrences_crlfcrlf_closeLines hlines
  rw [hclosed, innerOccurrences_eq_nil_iff] at hnone
  intro p hp hocc
  have hlen : crlfcrlf.length = 4 := by decide
  refine hnone p (by rw [List.length_append]; omega) ?_
  have hassoc : crlf.intercalate lines ++ (crlfcrlf ++ content) =
      (crlf.intercalate lines ++ crlfcrlf) ++ content := (List.append_assoc _ _ _).symm
  rw [hassoc, List.drop_append_of_le_length (by rw [List.length_append]; omega)] at hocc
  refine List.prefix_of_prefix_length_le hocc (List.prefix_append _ _) ?_
  rw [List.length_drop, List.length_append]
  omega

theorem ResponseHead.breakAt_encode (head : ResponseHead) (content : Bytes) :
    breakAt crlfcrlf (head.encode ++ (crlfcrlf ++ content)) = some (head.encode, content) :=
  breakAt_append (firstBlankLine_intercalate (List.cons_ne_nil _ _) head.lines_free content)

theorem ResponseField.encode_injective : Function.Injective ResponseField.encode := by
  have hcolon : literal ": " = [colon, space] := by decide
  have hname : ∀ f : ResponseField, f.encode.takeWhile (· ≠ colon) = f.name := by
    intro f
    have hfree : ∀ ch ∈ f.name, decide (ch ≠ colon) = true := by
      intro ch hch
      rw [decide_eq_true_eq]
      rintro rfl
      exact f.name_free colon (by decide) hch
    rw [ResponseField.encode, hcolon, List.takeWhile_append_of_pos hfree]
    simp
  intro f g heq
  have hnames : f.name = g.name := by rw [← hname f, heq, hname g]
  rw [ResponseField.encode, ResponseField.encode, hnames] at heq
  exact ResponseField.ext hnames (List.append_cancel_left (List.append_cancel_left heq))

theorem ResponseHead.encode_injective : Function.Injective ResponseHead.encode := by
  have hlines : ∀ head : ResponseHead, splitstr [] head.encode crlf (-1) = head.lines :=
    fun head => splitstr_intercalate (List.cons_ne_nil _ _)
      (fun line hline => (head.lines_free line hline).1)
      (head.lines_free _ (List.getLast_mem _)).2
  have hspace : ∀ reason : Bytes, (literal " " ++ reason).head?.all fun ch => !isDigit ch :=
    fun _ => rfl
  intro head head' heq
  have hboth : head.lines = head'.lines := by rw [← hlines head, heq, hlines head']
  rcases List.cons.inj hboth with ⟨hstatusLine, hfields⟩
  rcases decimal_append_inj (hspace _) (hspace _) (List.append_cancel_left hstatusLine) with
    ⟨hstatus, hreason⟩
  exact ResponseHead.ext hstatus (List.append_cancel_left hreason)
    (List.map_injective_iff.mpr ResponseField.encode_injective hfields)

/-- The head that `__make_http_response` writes. -/
def sentHead (status : Nat) (contentType : Bytes) (h : FreeOf [cr, lf] contentType)
    (size : Nat) : ResponseHead where
  status := status
  reason := getCodeDesc status
  fields :=
    [{ name := literal "Server"
       value := literal "Select-I/O of HTTP/1.1"
       name_ne := by decide
       name_free := by decide
       value_free := by decide },
     { name := literal "Content-Type"
       value := contentType
       name_ne := by decide
       name_free := by decide
       value_free := h },
     { name := literal "Content-Length"
       value := decimal size
       name_ne := by decide
       name_free := by decide
       value_free := decimal_free size },
     { name := literal "Connection"
       value := literal "close"
       name_ne := by decide
       name_free := by decide
       value_free := by decide }]
  reason_free := getCodeDesc_free status
  names_nodup := by
    change [literal "Server", literal "Content-Type", literal "Content-Length",
      literal "Connection"].Nodup
    decide

theorem _makeHttpResponse_eq_encode (status : Nat) {contentType : Bytes}
    (h : FreeOf [cr, lf] contentType) (strContent : Bytes) :
    _makeHttpResponse status contentType strContent =
      (sentHead status contentType h strContent.length).encode ++ (crlfcrlf ++ strContent) := by
  have hserver : literal "Server: Select-I/O of HTTP/1.1" =
      literal "Server" ++ (literal ": " ++ literal "Select-I/O of HTTP/1.1") := by decide
  have htype : literal "Content-Type: " = literal "Content-Type" ++ literal ": " := by decide
  have hlength : literal "Content-Length: " = literal "Content-Length" ++ literal ": " := by
    decide
  have hconnection : literal "Connection: " = literal "Connection" ++ literal ": " := by decide
  have hblank : crlfcrlf = crlf ++ crlf := rfl
  simp [_makeHttpResponse, responseHead, sentHead, ResponseHead.encode, ResponseHead.lines,
    ResponseHead.statusLine, ResponseField.encode, hserver, htype, hlength, hconnection, hblank,
    List.intercalate_cons_cons]

/-- The client finds the content behind the first blank line, and its length in
the only head that the text in front of it can be. -/
theorem _makeHttpResponse_framed (status : Nat) {contentType : Bytes}
    (h : FreeOf [cr, lf] contentType) (strContent : Bytes) :
    ∃ head : ResponseHead,
      breakAt crlfcrlf (_makeHttpResponse status contentType strContent) =
          some (head.encode, strContent) ∧
        (∀ other : ResponseHead, other.encode = head.encode → other = head) ∧
        head.status = status ∧ head.contentLength = some strContent.length := by
  refine ⟨sentHead status contentType h strContent.length, ?_, ?_, rfl, ?_⟩
  · rw [_makeHttpResponse_eq_encode status h]
    exact ResponseHead.breakAt_encode _ strContent
  · exact fun other hsame => ResponseHead.encode_injective hsame
  · exact readDecimal_decimal strContent.length

theorem _makeHttpResponse_framed_crlf :
    ∃ head : ResponseHead,
      breakAt crlfcrlf (_makeHttpResponse 200 (literal "Text/Html") (literal "\r\na")) =
          some (head.encode, literal "\r\na") ∧
        (∀ other : ResponseHead, other.encode = head.encode → other = head) ∧
        head.status = 200 ∧ head.contentLength = some (literal "\r\na").length :=
  _makeHttpResponse_framed 200 (by decide) (literal "\r\na")

/-- What a client makes of a response: the status, and the content with its
length. -/
def AnswersWith (response : Bytes) (status : Nat) (content : Bytes) : Prop :=
  ∃ head : ResponseHead, breakAt crlfcrlf response = some (head.encode, content) ∧
    head.status = status ∧ head.contentLength = some content.length

theorem answersWith_iff {contentType : Bytes} (h : FreeOf [cr, lf] contentType)
    {code status : Nat} {strContent content : Bytes} :
    AnswersWith (_makeHttpResponse code contentType strContent) status content ↔
      code = status ∧ strContent = content := by
  have hbreak := ResponseHead.breakAt_encode
    (sentHead code contentType h strContent.length) strContent
  rw [← _makeHttpResponse_eq_encode code h] at hbreak
  constructor
  · rintro ⟨head, hread, rfl, _⟩
    rw [hbreak, Option.some.injEq, Prod.mk.injEq] at hread
    rcases hread with ⟨htext, hcontent⟩
    rw [← ResponseHead.encode_injective htext]
    exact ⟨rfl, hcontent⟩
  · rintro ⟨rfl, rfl⟩
    exact ⟨_, hbreak, rfl, readDecimal_decimal strContent.length⟩

end StudyLinuxKernel.Http.ResponseEncoding
