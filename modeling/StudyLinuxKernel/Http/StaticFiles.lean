import Mathlib.Data.List.Basic
import StudyLinuxKernel.Http.RejectedRequests
import StudyLinuxKernel.Library.LexicalPath

namespace StudyLinuxKernel.Http.StaticFiles

open StudyLinuxKernel.Http.RejectedRequests
open StudyLinuxKernel.Http.Request
open StudyLinuxKernel.Http.Response
open StudyLinuxKernel.Http.SelectServer
open StudyLinuxKernel.Http.Text
open StudyLinuxKernel.Libc.Text
open StudyLinuxKernel.Library.LexicalPath

def slash : UInt8 := 47

def componentOf (part : Bytes) : Component Bytes :=
  if part = literal ".." then .up
  else if part = [] ∨ part = literal "." then .stay
  else .name part

def components (path : Bytes) : List (Component Bytes) := (path.splitOn slash).map componentOf

/-- The relative path leads to `bin/static` or below it. -/
def InStatic (path : Bytes) : Prop := Inside [literal "bin", literal "static"] (components path)

/-- The path of `ifs` in `make_http_response`, if it is open. -/
def openedPath (files : Bytes → Option Bytes) (httpReq : HttpRequest) : Option Bytes :=
  match httpReq.header.method with
  | .GET =>
      if httpReq.header.resource = literal "/" then none
      else if (files (resourcePath httpReq.header.resource)).isSome then
        some (resourcePath httpReq.header.resource)
      else none
  | _ => none

def Confined (received : Received) : Prop :=
  ∀ path, openedPath received.around.files received.parsed.2 = some path → InStatic path

/-- What counts of a resource: what is in front of its first NUL, and of that the
first 245 bytes. -/
def servedPart (resource : Bytes) : Bytes := (cStr resource).take 245

/-- The path that a resource stands for. -/
def staticPath (resource : Bytes) : Bytes := literal "bin/static" ++ servedPart resource

/-- The parts between the slashes of a resource lead to `bin/static` or below it.
The first one stands behind no slash, and makes another name of `static`. -/
def LeadsToStatic : List Bytes → Prop
  | [] => False
  | first :: parts =>
      if first = [] then Returns [literal "static", literal "bin"] [] (parts.map componentOf)
      else Leaves (Returns [literal "bin"] [literal "static"]) (parts.map componentOf)

/-- The condition on the text of a request, where a file is found for it. -/
def AsksForStatic (files : Bytes → Option Bytes) (text : Bytes) : Prop :=
  ReadsMethod text → methodOf text = .GET → resourceOf text ≠ literal "/" →
    (files (resourcePath (resourceOf text))).isSome →
    LeadsToStatic ((servedPart (resourceOf text)).splitOn slash)

theorem resourcePath_eq (resource : Bytes) : resourcePath resource = staticPath resource := by
  have hlength : (literal "bin/static").length = 10 := by decide
  rw [resourcePath, snprintf, staticPath, servedPart, List.take_append, hlength,
    List.take_of_length_le (by rw [hlength]; decide)]

theorem openedPath_eq_some_iff {files : Bytes → Option Bytes} {httpReq : HttpRequest}
    {path : Bytes} : openedPath files httpReq = some path ↔
      httpReq.header.method = .GET ∧ httpReq.header.resource ≠ literal "/" ∧
        (files (resourcePath httpReq.header.resource)).isSome ∧
        resourcePath httpReq.header.resource = path := by
  rw [openedPath]
  split
  · rename_i hmethod
    rw [Option.ite_none_left_eq_some, Option.ite_none_right_eq_some, Option.some.injEq]
    exact (and_iff_right hmethod).symm
  · rename_i hmethod
    exact iff_of_false (fun h => nomatch h) fun h => hmethod h.1

theorem splitOn_append {c : UInt8} {front : Bytes} (h : c ∉ front) {s first : Bytes}
    {parts : List Bytes} (hparts : s.splitOn c = first :: parts) :
    (front ++ s).splitOn c = (front ++ first) :: parts := by
  induction front with
  | nil => exact hparts
  | cons ch front ih =>
      rw [List.mem_cons, not_or] at h
      have hch : (ch == c) = false := beq_eq_false_iff_ne.mpr (Ne.symm h.1)
      rw [List.cons_append, List.splitOn_cons_eq_if_modifyHead, hch, ih h.2]
      rfl

theorem components_static (served : Bytes) : ∃ first parts,
    served.splitOn slash = first :: parts ∧
      components (literal "bin/static" ++ served) =
        .name (literal "bin") :: .name (literal "static" ++ first) :: parts.map componentOf := by
  rcases List.exists_cons_of_ne_nil (List.splitOn_ne_nil slash served) with ⟨first, parts, hparts⟩
  refine ⟨first, parts, hparts, ?_⟩
  have hjoined : literal "bin/static" ++ served =
      literal "bin" ++ slash :: (literal "static" ++ served) := by
    have hsplit : literal "bin/static" = literal "bin" ++ slash :: literal "static" := by decide
    rw [hsplit, List.append_assoc, List.cons_append]
  have hstatic : (literal "static" ++ served).splitOn slash =
      (literal "static" ++ first) :: parts := splitOn_append (by decide) hparts
  have hname : componentOf (literal "static" ++ first) = .name (literal "static" ++ first) := by
    have hlength : (literal "static").length = 6 := by decide
    have hother : ∀ part : Bytes, part.length ≤ 2 → literal "static" ++ first ≠ part := by
      rintro _ hpart rfl
      rw [List.length_append, hlength] at hpart
      omega
    rw [componentOf, if_neg (hother _ (by decide)), if_neg]
    rintro (hnil | hdot)
    · exact hother [] (by decide) hnil
    · exact hother _ (by decide) hdot
  have hbin : componentOf (literal "bin") = .name (literal "bin") := by
    rw [componentOf, if_neg (by decide), if_neg (by decide)]
  rw [components, hjoined, List.splitOn_append_cons_self_of_not_mem (by decide), hstatic,
    List.map_cons, List.map_cons, hbin, hname]

theorem inStatic_iff_leadsToStatic (resource : Bytes) :
    InStatic (resourcePath resource) ↔
      LeadsToStatic ((servedPart resource).splitOn slash) := by
  rcases components_static (servedPart resource) with ⟨first, parts, hparts, hcomponents⟩
  rw [InStatic, resourcePath_eq, staticPath, hcomponents, hparts, LeadsToStatic]
  split
  · rename_i hfirst
    rw [hfirst, List.append_nil, ← inside_iff_returns]
    exact Iff.rfl
  · rename_i hfirst
    have hne : literal "static" ++ first ≠ literal "static" := fun h =>
      hfirst (List.append_right_eq_self.mp h)
    rw [← beside_iff_leaves hne]
    exact Iff.rfl

/-- A request opens a file outside of the directory exactly if the parts of its
resource lead out of it. -/
theorem confined_iff (received : Received) :
    Confined received ↔ AsksForStatic received.around.files received.text := by
  have hheader : received.parsed.2.header =
      (parseHttpRequestHeader (headOf received.text)
        (HttpRequest.fresh received.unset).header).2 :=
    (parseHttpRequest_eq received.text (.fresh received.unset)).2
  rw [AsksForStatic, ← inStatic_iff_leadsToStatic]
  rcases Classical.em (ReadsMethod received.text) with hread | hread
  · obtain ⟨hmethod, hresource⟩ :=
      header_of_readsMethod (HttpRequest.fresh received.unset).header hread
    rw [← hheader] at hmethod hresource
    constructor
    · intro h _ hget hne hfile
      have hopened : openedPath received.around.files received.parsed.2 =
          some (resourcePath (resourceOf received.text)) := by
        rw [openedPath_eq_some_iff, hmethod, hresource]
        exact ⟨hget, hne, hfile, rfl⟩
      exact h _ hopened
    · intro h path hopened
      obtain ⟨hget, hne, hfile, rfl⟩ := openedPath_eq_some_iff.mp hopened
      rw [hmethod] at hget
      rw [hresource] at hne hfile
      rw [hresource]
      exact h hread hget hne hfile
  · refine iff_of_true (fun path hopened => ?_) fun h => absurd h hread
    rcases openedPath_eq_some_iff.mp hopened with ⟨_, _, _, rfl⟩
    rw [hheader, parsed_of_not_readsMethod _ hread, inStatic_iff_leadsToStatic]
    change LeadsToStatic [[]]
    rw [LeadsToStatic, if_pos rfl]
    exact Or.inl low_nil

/-- A request for a file beside the directory. -/
def climbingRequest : Received where
  bytes := literal "GET /../x 1\r\na:b\r\nc:d"
  bytes_ne_nil := by decide
  length_le := by decide
  behindMsg := []
  unset := .UNKNOWN
  peer := none
  around := { files := fun _ => some [], behindContent := [] }

theorem climbingRequest_not_confined :
    openedPath climbingRequest.around.files climbingRequest.parsed.2 =
        some (literal "bin/static/../x") ∧ ¬ Confined climbingRequest := by
  have hheader : climbingRequest.parsed.2.header.method = .GET ∧
      climbingRequest.parsed.2.header.resource = literal "/../x" := by
    decide +kernel
  have hopened : openedPath climbingRequest.around.files climbingRequest.parsed.2 =
      some (literal "bin/static/../x") := by
    rw [openedPath_eq_some_iff, hheader.1, hheader.2]
    refine ⟨rfl, by decide, rfl, by decide⟩
  refine ⟨hopened, fun h => ?_⟩
  rcases h _ hopened with ⟨below, hbelow⟩
  have hwalked : Library.PartialStep.run move [] (components (literal "bin/static/../x")) =
      some [literal "x", literal "bin"] := by
    decide +kernel
  rw [hwalked] at hbelow
  have hlength := congrArg List.length (Option.some.inj hbelow)
  cases below with
  | nil => exact absurd (Option.some.inj hbelow) (by decide)
  | cons => simp at hlength

end StudyLinuxKernel.Http.StaticFiles
