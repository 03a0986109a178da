import StudyLinuxKernel.Http.Text

namespace StudyLinuxKernel.Http.Request

open StudyLinuxKernel.Http.Text
open StudyLinuxKernel.Libc.Text

inductive Method where
  | GET
  | POST
  | UNKNOWN
  deriving DecidableEq, Repr

structure Header where
  method : Method
  resource : Bytes
  querystring : Bytes
  httpversion : Bytes
  host : Bytes
  deriving DecidableEq, Repr

structure HttpRequest where
  header : Header
  body : Bytes
  deriving DecidableEq, Repr

/-- `HttpRequest httpReq;`.  The constructor leaves the enumeration `method`
unset: `unset` is whatever the memory holds. -/
def HttpRequest.fresh (unset : Method) : HttpRequest :=
  { header :=
      { method := unset, resource := [], querystring := [], httpversion := [], host := [] }
    body := [] }

def toLower (c : UInt8) : UInt8 :=
  if 65 ≤ c ∧ c ≤ 90 then c + 32 else c

/-- `strncasecmp`; behind the bytes of a string stands its terminating NUL. -/
def strncasecmp : Nat → Bytes → Bytes → Int
  | 0, _, _ => 0
  | n + 1, s, t =>
      let x := toLower (s.headD 0)
      let y := toLower (t.headD 0)
      if x = y then
        if x = 0 then 0 else strncasecmp n s.tail t.tail
      else (x.toNat : Int) - y.toNat

/-- The method comparison of `parse_http_request_header`. -/
def parseMethod (method : Bytes) : Method :=
  if strncasecmp 3 method (literal "GET") = 0 then .GET
  else if strncasecmp 4 method (literal "POST") = 0 then .POST
  else .UNKNOWN

/-- `std::map::insert`: a key that is present keeps its value. -/
def mapInsert (key value : Bytes) (mapHeader : List (Bytes × Bytes)) : List (Bytes × Bytes) :=
  if (mapHeader.lookup key).isSome then mapHeader else mapHeader ++ [(key, value)]

/-- The header-line loop of `parse_http_request_header`; `none` is its
`return false`. -/
def parseHeaderLines : List Bytes → List (Bytes × Bytes) → Option (List (Bytes × Bytes))
  | [], mapHeader => some mapHeader
  | line :: lines, mapHeader =>
      let val := strip line true
      if val = [] then parseHeaderLines lines mapHeader
      else
        match splitstr [] val [colon] 1 with
        | name :: value :: _ =>
            parseHeaderLines lines (mapInsert (strip name true) (strip value true) mapHeader)
        | _ => none

/-- The function's result and the header as it leaves it. -/
def parseHttpRequestHeader (strHead : Bytes) (header : Header) : Bool × Header :=
  let httpRequestHead := splitstr [] strHead crlf (-1)
  if httpRequestHead.length < 3 then (false, header)
  else
    let requestInfo := splitstr [] (httpRequestHead.getD 0 []) [space] (-1)
    if requestInfo.length < 3 then (false, header)
    else
      let header := { header with method := parseMethod (requestInfo.getD 0 []) }
      let vecQuerys := splitstr [] (requestInfo.getD 1 []) [question] 1
      if vecQuerys.length < 1 then (false, header)
      else
        let header :=
          if 1 < vecQuerys.length then { header with querystring := vecQuerys.getD 1 [] }
          else header
        let header :=
          { header with
            resource := vecQuerys.getD 0 []
            httpversion := requestInfo.getD 2 [] }
        match parseHeaderLines (httpRequestHead.drop 1) [] with
        | none => (false, header)
        | some mapHeader =>
            (true, { header with host := (mapHeader.lookup (literal "Host")).getD [] })

/-- The function's result and the request as it leaves it. -/
def parseHttpRequest (strHead : Bytes) (httpReq : HttpRequest) : Bool × HttpRequest :=
  let httpRequest := splitstr [] strHead crlfcrlf (-1)
  let nLen := httpRequest.length
  if nLen < 1 then (false, httpReq)
  else
    let body := if nLen = 2 then httpRequest.getD 1 [] else httpReq.body
    let parsed := parseHttpRequestHeader (httpRequest.getD 0 []) httpReq.header
    (parsed.1, { header := parsed.2, body := body })

theorem toLower_eq_zero_iff (c : UInt8) : toLower c = 0 ↔ c = 0 := by
  simp only [toLower]
  split
  · rename_i hupper
    obtain ⟨hlow, hhigh⟩ := hupper
    simp only [← UInt8.toNat_inj, UInt8.le_iff_toNat_le, UInt8.toNat_add, UInt8.reduceToNat] at *
    omega
  · rfl

theorem strncasecmp_eq_zero_iff {t : Bytes} (ht : 0 ∉ t) (s : Bytes) :
    strncasecmp t.length s t = 0 ↔ (s.take t.length).map toLower = t.map toLower := by
  induction t generalizing s with
  | nil => simp [strncasecmp]
  | cons y t ih =>
      have hy : toLower y ≠ 0 := by
        rw [Ne, toLower_eq_zero_iff]
        exact fun h => ht (by simp [h])
      have htail := ih (fun h => ht (by simp [h])) s.tail
      cases s with
      | nil =>
          have hzero : toLower 0 ≠ toLower y := by
            rw [(toLower_eq_zero_iff 0).mpr rfl]
            exact hy.symm
          have hdiff : ((toLower 0).toNat : Int) - (toLower y).toNat ≠ 0 := by
            intro h
            exact hzero (UInt8.toNat_inj.mp (by omega))
          simp [strncasecmp, hzero, hdiff]
      | cons x s =>
          have hfirst : strncasecmp (y :: t).length (x :: s) (y :: t) =
              if toLower x = toLower y then
                if toLower x = 0 then 0 else strncasecmp t.length s t
              else ((toLower x).toNat : Int) - (toLower y).toNat := rfl
          rw [hfirst]
          simp only [List.length_cons, List.tail_cons, List.take_succ_cons, List.map_cons,
            List.cons.injEq] at htail ⊢
          rcases eq_or_ne (toLower x) (toLower y) with hxy | hxy
          · rw [if_pos hxy, if_neg (hxy ▸ hy)]
            simp [htail, hxy]
          · have hdiff : ((toLower x).toNat : Int) - (toLower y).toNat ≠ 0 := by
              intro h
              exact hxy (UInt8.toNat_inj.mp (by omega))
            rw [if_neg hxy]
            simp [hxy, hdiff]

theorem parseMethod_eq (method : Bytes) :
    parseMethod method =
      if (method.take 3).map toLower = literal "get" then .GET
      else if (method.take 4).map toLower = literal "post" then .POST
      else .UNKNOWN := by
  have hget := @strncasecmp_eq_zero_iff (literal "GET") (by decide) method
  have hpost := @strncasecmp_eq_zero_iff (literal "POST") (by decide) method
  have hgetLen : (literal "GET").length = 3 := by decide
  have hpostLen : (literal "POST").length = 4 := by decide
  have hgetLow : (literal "GET").map toLower = literal "get" := by decide
  have hpostLow : (literal "POST").map toLower = literal "post" := by decide
  rw [hgetLen, hgetLow] at hget
  rw [hpostLen, hpostLow] at hpost
  simp only [parseMethod, hget, hpost]

end StudyLinuxKernel.Http.Request
