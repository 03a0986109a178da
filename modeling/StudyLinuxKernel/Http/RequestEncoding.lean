import StudyLinuxKernel.Http.HeaderLines

namespace StudyLinuxKernel.Http.RequestEncoding

open StudyLinuxKernel.Http.HeaderLines
open StudyLinuxKernel.Http.Request
open StudyLinuxKernel.Http.Text
open StudyLinuxKernel.Libc.Text
open StudyLinuxKernel.Library.Occurrences
open StudyLinuxKernel.Library.Trim

/-- None of the bytes `cs` stands in `s`. -/
def FreeOf (cs s : Bytes) : Prop := ∀ c ∈ cs, c ∉ s

instance (cs s : Bytes) : Decidable (FreeOf cs s) :=
  List.decidableBAll (fun c => c ∉ s) cs

structure RequestLine where
  method : Bytes
  resource : Bytes
  query : Option Bytes
  version : Bytes
  method_ne : method ≠ []
  resource_ne : resource ≠ []
  method_free : FreeOf [space, cr, lf, tab, question] method
  resource_free : FreeOf [space, cr, lf, tab, question] resource
  query_free : ∀ q, query = some q → FreeOf [space, cr, lf, tab] q
  version_free : FreeOf [space, cr, lf, tab, question] version

structure HeaderField where
  name : Bytes
  spaces : Nat
  value : Bytes
  name_ne : name ≠ []
  name_free : FreeOf [colon, space, cr, lf, tab] name
  value_free : FreeOf [cr, lf] value

def RequestLine.target (line : RequestLine) : Bytes :=
  line.resource ++ (line.query.map (question :: ·)).getD []

def RequestLine.encode (line : RequestLine) : Bytes :=
  line.method ++ ([space] ++ (line.target ++ ([space] ++ line.version)))

/-- What stands behind the colon of a header line. -/
def HeaderField.content (f : HeaderField) : Bytes :=
  List.replicate f.spaces space ++ f.value

def HeaderField.encode (f : HeaderField) : Bytes :=
  f.name ++ ([colon] ++ f.content)

/-- Lines closed by CRLF each, and `rest` behind them. -/
def closeLines (lines : List Bytes) (rest : Bytes) : Bytes :=
  lines.foldr (fun line text => line ++ (crlf ++ text)) rest

def encodeRequest (line : RequestLine) (fields : List HeaderField) : Bytes :=
  closeLines (line.encode :: fields.map HeaderField.encode) crlf

/-- The method a token names, up to letter case. -/
def namedMethod (method : Bytes) : Method :=
  if method.map toLower = literal "get" then .GET
  else if method.map toLower = literal "post" then .POST
  else .UNKNOWN

/-- The trimmed value of the first field named `Host`. -/
def hostOf (fields : List HeaderField) : Bytes :=
  match fields.find? fun f => f.name = literal "Host" with
  | some f => trim isEmptyChar f.value
  | none => []

def decodedHeader (line : RequestLine) (fields : List HeaderField) : Header :=
  { method := namedMethod line.method
    resource := line.resource
    querystring := line.query.getD []
    httpversion := line.version
    host := hostOf fields }

/-- The value has a character that trimming does not take away. -/
def HeaderField.HasText (f : HeaderField) : Prop :=
  ∃ c ∈ f.value, isEmptyChar c = false

/-- The value is one character, with blanks behind it at most, and stands
directly behind the colon. -/
def HeaderField.LoneCharacter (f : HeaderField) : Prop :=
  f.spaces = 0 ∧ ∃ c trail, f.value = c :: trail ∧ isEmptyChar c = false ∧
    ∀ d ∈ trail, isEmptyChar d

/-- `GET` or `POST`, in any letter case, with something behind it. -/
def LongerMethodName (method : Bytes) : Prop :=
  ∃ head tail, tail ≠ [] ∧ method = head ++ tail ∧
    (head.map toLower = literal "get" ∨ head.map toLower = literal "post")

/-- The requests that the parser decodes to what was encoded. -/
structure Decodable (line : RequestLine) (fields : List HeaderField) : Prop where
  fields_ne : fields ≠ []
  version_ne : line.version ≠ []
  query_ne : line.query ≠ some []
  method_exact : ¬ LongerMethodName line.method
  values_text : ∀ f ∈ fields, f.HasText
  host_long : ∀ f, fields.find? (fun f => f.name = literal "Host") = some f →
    ¬ f.LoneCharacter

theorem borderless_crlf : Borderless crlf := by decide

theorem borderless_singleton (c : UInt8) : Borderless [c] := by
  intro k hk hpos
  simp at hk
  omega

theorem FreeOf.append {cs s t : Bytes} (hs : FreeOf cs s) (ht : FreeOf cs t) :
    FreeOf cs (s ++ t) := by
  intro c hc hmem
  rcases List.mem_append.mp hmem with hmem | hmem
  · exact hs c hc hmem
  · exact ht c hc hmem

theorem FreeOf.mono {cs ds s : Bytes} (hs : FreeOf cs s) (hsub : ds ⊆ cs) : FreeOf ds s :=
  fun c hc => hs c (hsub hc)

theorem FreeOf.replicate {cs : Bytes} {c : UInt8} (hc : c ∉ cs) (n : Nat) :
    FreeOf cs (List.replicate n c) := by
  intro d hd hmem
  obtain rfl := List.eq_of_mem_replicate hmem
  exact hc hd

theorem splitstr_char (strSource : Bytes) (c : UInt8) (nMatch : Int) :
    splitstr [] strSource [c] nMatch = pieces [c] nMatch strSource := by
  rw [splitstr_eq (by simp), List.nil_append]

theorem pieces_char_append {c : UInt8} {a t : Bytes} (ha : c ∉ a) (ht : t ≠ [])
    {n : Int} (hn : n ≠ 0) :
    pieces [c] n (a ++ ([c] ++ t)) = a :: pieces [c] (spend n) t :=
  pieces_append (borderless_singleton c) (by simp) ht hn
    fun _ hp => not_prefix_drop_of_head_not_mem ha _ hp

theorem pieces_char_of_not_mem {c : UInt8} {s : Bytes} (hs : c ∉ s) (n : Int) :
    pieces [c] n s = [s] :=
  pieces_of_innerOccurrences_eq_nil n (innerOccurrences_eq_nil_of_head_not_mem hs)

theorem pieces_char_at_end {c : UInt8} {s : Bytes} (hs : c ∉ s) (n : Int) :
    pieces [c] n (s ++ [c]) = [s ++ [c]] := by
  apply pieces_of_innerOccurrences_eq_nil
  rw [innerOccurrences_eq_nil_iff]
  intro p hp
  have hlt : p < s.length := by
    simp only [List.length_append, List.length_singleton] at hp
    omega
  exact not_prefix_drop_of_head_not_mem hs [c] hlt

theorem closeLines_ne_nil {lines : List Bytes} {rest : Bytes} (hrest : rest ≠ []) :
    closeLines lines rest ≠ [] := by
  cases lines with
  | nil => exact hrest
  | cons line lines => simp [closeLines, crlf]

theorem closeLines_eq_intercalate (lines : List Bytes) (rest : Bytes) :
    closeLines lines rest = crlf.intercalate (lines ++ [rest]) := by
  induction lines with
  | nil => exact List.intercalate_singleton.symm
  | cons line lines ih =>
      have hstep : closeLines (line :: lines) rest = line ++ (crlf ++ closeLines lines rest) := rfl
      rw [hstep, ih, List.cons_append, List.intercalate_cons_of_ne_nil (by simp),
        List.append_assoc]

theorem pieces_closeLines {lines : List Bytes} (hlines : ∀ line ∈ lines, cr ∉ line)
    {rest : Bytes} (hrest : rest ≠ []) :
    pieces crlf (-1) (closeLines lines rest) = lines ++ pieces crlf (-1) rest := by
  induction lines with
  | nil => rfl
  | cons line lines ih =>
      have hline : cr ∉ line := hlines line (by simp)
      have htail : closeLines lines rest ≠ [] := closeLines_ne_nil hrest
      have hcut := pieces_append borderless_crlf (by simp [crlf]) htail
        (show (-1 : Int) ≠ 0 by omega)
        (fun _ hp => not_prefix_drop_of_head_not_mem hline (crlf ++ closeLines lines rest) hp)
      rw [List.cons_append, ← ih fun l hl => hlines l (by simp [hl])]
      exact hcut

theorem innerOccurrences_crlfcrlf_closeLines {lines : List Bytes}
    (hlines : ∀ line ∈ lines, cr ∉ line ∧ line ≠ []) :
    innerOccurrences crlfcrlf (closeLines lines crlf) = [] := by
  induction lines with
  | nil => decide
  | cons line lines ih =>
      have hline := hlines line (by simp)
      have hrest : innerOccurrences crlfcrlf (closeLines lines crlf) = [] :=
        ih fun l hl => hlines l (by simp [hl])
      have hshift : innerOccurrences crlfcrlf (crlf ++ closeLines lines crlf) = [] := by
        cases lines with
        | nil => decide
        | cons next others =>
            have hnext := hlines next (by simp)
            obtain ⟨c, next, rfl⟩ := List.exists_cons_of_ne_nil hnext.2
            have hc : c ≠ cr := fun h => hnext.1 (by simp [h])
            rw [innerOccurrences_append, hrest, List.map_nil]
            intro p hp
            have hcases : p = 0 ∨ p = 1 := by
              simp only [crlf, List.length_cons, List.length_nil] at hp
              omega
            rcases hcases with rfl | rfl
            · simp [crlfcrlf, crlf, closeLines, List.cons_prefix_cons, hc.symm]
            · simp [crlfcrlf, crlf, List.cons_prefix_cons, cr, lf]
      change innerOccurrences crlfcrlf (line ++ (crlf ++ closeLines lines crlf)) = []
      rw [innerOccurrences_append, hshift, List.map_nil]
      intro p hp
      exact not_prefix_drop_of_head_not_mem hline.1 _ hp

theorem length_of_named {method name : Bytes} (h : method.map toLower = name) :
    name.length = method.length := by
  rw [← h, List.length_map]

theorem map_take_eq_of_named {method name : Bytes} (h : method.map toLower = name) :
    (method.take name.length).map toLower = name := by
  rw [length_of_named h, List.take_length, h]

theorem map_append_ne {head tail name : Bytes} (htail : tail ≠ [])
    (hlen : name.length ≤ head.length) : (head ++ tail).map toLower ≠ name := by
  intro h
  have hwhole := length_of_named h
  have hmore : 0 < tail.length := List.length_pos_iff.mpr htail
  rw [List.length_append] at hwhole
  omega

theorem namedMethod_of_longer {method : Bytes} (h : LongerMethodName method) :
    namedMethod method = .UNKNOWN := by
  have hgetLen : (literal "get").length = 3 := by decide
  have hpostLen : (literal "post").length = 4 := by decide
  obtain ⟨head, tail, htail, rfl, hhead⟩ := h
  have hpost : (head ++ tail).map toLower ≠ literal "post" := by
    rcases hhead with hhead | hhead
    · intro h
      have hfirst := congrArg List.head? (h.symm.trans List.map_append)
      have hletter : (literal "get").head? = some 103 := by decide
      rw [hhead, List.head?_append, hletter, Option.some_or] at hfirst
      exact absurd hfirst (by decide)
    · exact map_append_ne htail (length_of_named hhead).le
  have hget : (head ++ tail).map toLower ≠ literal "get" := by
    apply map_append_ne htail
    rcases hhead with hhead | hhead
    · exact (length_of_named hhead).le
    · rw [← length_of_named hhead, hgetLen, hpostLen]
      decide
  rw [namedMethod, if_neg hget, if_neg hpost]

theorem parseMethod_of_longer {method : Bytes} (h : LongerMethodName method) :
    parseMethod method ≠ .UNKNOWN := by
  obtain ⟨head, tail, _, rfl, hhead⟩ := h
  rw [parseMethod_eq]
  split
  · decide
  · rename_i hnotGet
    have hpost : ((head ++ tail).take 4).map toLower = literal "post" := by
      rcases hhead with hhead | hhead
      · refine absurd ?_ hnotGet
        have hlen : head.length = 3 := (length_of_named hhead).symm
        rw [← hlen, List.take_left, hhead]
      · have hlen : head.length = 4 := (length_of_named hhead).symm
        rw [← hlen, List.take_left, hhead]
    rw [if_pos hpost]
    decide

theorem named_of_exact {method name : Bytes} (hexact : ¬ LongerMethodName method)
    (hname : name = literal "get" ∨ name = literal "post") :
    (method.take name.length).map toLower = name ↔ method.map toLower = name := by
  refine ⟨fun htake => ?_, map_take_eq_of_named⟩
  have hdrop : method.drop name.length = [] := by
    refine not_not.mp fun hne => hexact ⟨_, _, hne, (List.take_append_drop _ _).symm, ?_⟩
    exact hname.imp (fun hget => htake.trans hget) fun hpost => htake.trans hpost
  have hall : method.length ≤ name.length := List.drop_eq_nil_iff.mp hdrop
  rwa [List.take_of_length_le hall] at htake

/-- The comparison of the first characters only is exact on tokens that do not
go on behind a method name. -/
theorem parseMethod_eq_namedMethod_iff (method : Bytes) :
    parseMethod method = namedMethod method ↔ ¬ LongerMethodName method := by
  constructor
  · intro heq hlonger
    exact parseMethod_of_longer hlonger (heq.trans (namedMethod_of_longer hlonger))
  · intro hexact
    have hget := named_of_exact hexact (Or.inl rfl)
    have hpost := named_of_exact hexact (Or.inr rfl)
    rw [show (literal "get").length = 3 by decide] at hget
    rw [show (literal "post").length = 4 by decide] at hpost
    rw [parseMethod_eq, namedMethod]
    simp only [hget, hpost]

theorem RequestLine.target_ne (line : RequestLine) : line.target ≠ [] := by
  simp [RequestLine.target, line.resource_ne]

theorem RequestLine.target_free (line : RequestLine) :
    FreeOf [space, cr, lf, tab] line.target := by
  apply FreeOf.append (line.resource_free.mono (by decide))
  cases hquery : line.query with
  | none => simp [FreeOf]
  | some q =>
      intro c hc hmem
      rcases List.mem_cons.mp hmem with rfl | hmem
      · exact absurd hc (by decide)
      · exact line.query_free q hquery c hc hmem

theorem RequestLine.encode_free (line : RequestLine) : FreeOf [cr, lf] line.encode := by
  have hspace : FreeOf [cr, lf] [space] := by decide
  exact (line.method_free.mono (by decide)).append (hspace.append
    ((line.target_free.mono (by decide)).append
      (hspace.append (line.version_free.mono (by decide)))))

theorem HeaderField.encode_free (f : HeaderField) : FreeOf [cr, lf] f.encode := by
  have hcolon : FreeOf [cr, lf] [colon] := by decide
  exact (f.name_free.mono (by decide)).append (hcolon.append
    ((FreeOf.replicate (by decide) _).append f.value_free))

theorem splitstr_requestLine (line : RequestLine) :
    splitstr [] line.encode [space] (-1) =
      if line.version = [] then [line.method, line.target ++ [space]]
      else [line.method, line.target, line.version] := by
  have hmethod : space ∉ line.method := line.method_free space (by decide)
  have htarget : space ∉ line.target := line.target_free space (by decide)
  have hversion : space ∉ line.version := line.version_free space (by decide)
  have hunlimited : spend (-1) = -1 := by decide
  rw [splitstr_char, RequestLine.encode,
    pieces_char_append hmethod (by simp [line.target_ne]) (by omega), hunlimited]
  split
  · rename_i hnil
    rw [hnil, List.append_nil, pieces_char_at_end htarget]
  · rename_i hne
    rw [pieces_char_append htarget hne (by omega), pieces_char_of_not_mem hversion]

theorem splitstr_target (line : RequestLine) :
    splitstr [] line.target [question] 1 =
      match line.query with
      | none => [line.resource]
      | some [] => [line.resource ++ [question]]
      | some (c :: q) => [line.resource, c :: q] := by
  have hresource : question ∉ line.resource := line.resource_free question (by decide)
  rw [splitstr_char, RequestLine.target]
  rcases line.query with _ | _ | ⟨c, q⟩
  · simpa using pieces_char_of_not_mem hresource 1
  · exact pieces_char_at_end hresource 1
  · have hcut := pieces_char_append hresource (List.cons_ne_nil c q) (n := 1) (by omega)
    have hspent : spend 1 = 0 := by decide
    rw [hspent, pieces_zero] at hcut
    exact hcut

/-- What is left of a header line's content when the line is trimmed. -/
def HeaderField.kept (f : HeaderField) : Bytes := f.content.rdropWhile isEmptyChar

theorem HeaderField.content_blank_iff (f : HeaderField) :
    (∀ c ∈ f.content, isEmptyChar c) ↔ ¬ f.HasText := by
  have hspaces : ∀ c ∈ List.replicate f.spaces space, isEmptyChar c := by
    intro c hc
    rw [List.eq_of_mem_replicate hc]
    decide
  simp only [HeaderField.HasText, HeaderField.content, List.mem_append, not_exists, not_and,
    Bool.not_eq_false]
  constructor
  · exact fun h c hc => h c (.inr hc)
  · rintro h c (hc | hc)
    · exact hspaces c hc
    · exact h c hc

theorem HeaderField.kept_eq_nil_iff (f : HeaderField) : f.kept = [] ↔ ¬ f.HasText := by
  rw [← f.content_blank_iff]
  exact List.rdropWhile_eq_nil_iff

theorem isEmptyChar_of_free {s : Bytes} (hs : FreeOf [colon, space, cr, lf, tab] s) :
    ∀ c ∈ s, isEmptyChar c = false := by
  intro c hc
  have hspace : c ≠ space := fun h => hs space (by decide) (h ▸ hc)
  have hcr : c ≠ cr := fun h => hs cr (by decide) (h ▸ hc)
  have hlf : c ≠ lf := fun h => hs lf (by decide) (h ▸ hc)
  have htab : c ≠ tab := fun h => hs tab (by decide) (h ▸ hc)
  simp [isEmptyChar, hspace, hcr, hlf, htab]

theorem strip_headerLine (f : HeaderField) :
    strip f.encode true = f.name ++ ([colon] ++ f.kept) := by
  have hcolon : isEmptyChar colon = false := by decide
  have hvisible := isEmptyChar_of_free f.name_free
  obtain ⟨x, name, hname⟩ := List.exists_cons_of_ne_nil f.name_ne
  have hx : isEmptyChar x = false := hvisible x (by simp [hname])
  have htrim : trim isEmptyChar f.encode = f.name ++ ([colon] ++ f.kept) := by
    rw [trim, HeaderField.encode, hname, List.cons_append, dropWhile_append_of_not_blank hx,
      ← List.cons_append, List.singleton_append, rdropWhile_append_of_not_blank hcolon]
    rfl
  have hlong : (trim isEmptyChar f.encode).length ≠ 1 := by
    rw [htrim, hname]
    simp
  rw [strip_eq_trim hlong, htrim]

theorem splitstr_headerLine (f : HeaderField) :
    splitstr [] (f.name ++ ([colon] ++ f.kept)) [colon] 1 =
      if f.kept = [] then [f.name ++ [colon]] else [f.name, f.kept] := by
  have hname : colon ∉ f.name := f.name_free colon (by decide)
  rw [splitstr_char]
  split
  · rename_i hnil
    rw [hnil, List.append_nil, pieces_char_at_end hname]
  · rename_i hne
    have hspent : spend 1 = 0 := by decide
    rw [pieces_char_append hname hne (by omega), hspent, pieces_zero]

/-- `strip` loses a name of one character; no such name is `Host`. -/
theorem strip_name_eq_host_iff (f : HeaderField) :
    strip f.name true = literal "Host" ↔ f.name = literal "Host" := by
  have hvisible := isEmptyChar_of_free f.name_free
  have htrimmed : trim isEmptyChar f.name = f.name := by
    have hhead : f.name.dropWhile isEmptyChar = f.name := by
      apply List.dropWhile_eq_self_iff.mpr
      intro hlen
      simpa using hvisible _ (List.getElem_mem hlen)
    have hlast : f.name.rdropWhile isEmptyChar = f.name := by
      apply List.rdropWhile_eq_self_iff.mpr
      intro hne
      simpa using hvisible _ (List.getLast_mem hne)
    rw [trim, hhead, hlast]
  rcases eq_or_ne f.name.length 1 with hone | hlong
  · obtain ⟨x, hx⟩ := List.length_eq_one_iff.mp hone
    have hempty : strip f.name true = [] := by
      have hlone := @strip_of_one [] [] x (by simp) (by simp) (hvisible x (by simp [hx]))
      rw [hx]
      exact hlone
    rw [hempty, hx]
    have hlen : (literal "Host").length = 4 := by decide
    constructor
    · intro h
      simp [← h] at hlen
    · intro h
      simp [← h] at hlen
  · rw [strip_eq_trim (by rwa [htrimmed]), htrimmed]

theorem HeaderField.trim_kept (f : HeaderField) :
    trim isEmptyChar f.kept = trim isEmptyChar f.value := by
  have hspaces : ∀ c ∈ List.replicate f.spaces space, isEmptyChar c := by
    intro c hc
    rw [List.eq_of_mem_replicate hc]
    decide
  rw [HeaderField.kept, trim_rdropWhile, HeaderField.content,
    trim_append_of_blank_left hspaces]

theorem HeaderField.LoneCharacter.trim_eq {f : HeaderField} (h : f.LoneCharacter) :
    ∃ c, trim isEmptyChar f.value = [c] ∧ f.kept = [c] := by
  obtain ⟨hspaces, c, trail, hvalue, hc, htrail⟩ := h
  refine ⟨c, ?_, ?_⟩
  · rw [hvalue]
    exact @trim_append_cons _ isEmptyChar [] trail c (by simp) hc htrail
  · have hcut := rdropWhile_append_of_not_blank hc [] trail
    rw [List.rdropWhile_eq_nil_iff.mpr htrail] at hcut
    rw [HeaderField.kept, HeaderField.content, hspaces, hvalue]
    exact hcut

theorem strip_kept_eq_iff {f : HeaderField} :
    strip f.kept true = trim isEmptyChar f.value ↔ ¬ f.LoneCharacter := by
  rcases ne_or_eq (trim isEmptyChar f.value).length 1 with hlong | hone
  · rw [strip_eq_trim (by rwa [f.trim_kept]), f.trim_kept]
    apply iff_of_true rfl
    intro hlone
    obtain ⟨c, hc, _⟩ := hlone.trim_eq
    exact hlong (by simp [hc])
  · rcases exists_of_length_trim_eq_one hone with
      ⟨lead, x, trail, hvalue, hx, hxVisible, hlead, htrail⟩
    have hspaces : ∀ c ∈ List.replicate f.spaces space, isEmptyChar c := by
      intro c hc
      rw [List.eq_of_mem_replicate hc]
      decide
    have hkept : f.kept = (List.replicate f.spaces space ++ lead) ++ [x] := by
      have hcut := rdropWhile_append_of_not_blank hxVisible
        (List.replicate f.spaces space ++ lead) trail
      rw [List.rdropWhile_eq_nil_iff.mpr htrail] at hcut
      rw [← hcut, HeaderField.kept, HeaderField.content, hvalue]
      simp
    have hfront : ∀ c ∈ List.replicate f.spaces space ++ lead, isEmptyChar c := by
      intro c hc
      rcases List.mem_append.mp hc with hc | hc
      · exact hspaces c hc
      · exact hlead c hc
    have hstrip := strip_of_one hfront (show ∀ c ∈ ([] : Bytes), isEmptyChar c by simp) hxVisible
    rw [hkept, hstrip, hx]
    split
    · rename_i hnil
      obtain ⟨hreplicate, rfl⟩ := List.append_eq_nil_iff.mp hnil
      refine iff_of_false (by simp) (not_not.mpr ⟨?_, x, trail, hvalue, hxVisible, htrail⟩)
      simpa using hreplicate
    · rename_i hne
      apply iff_of_true rfl
      intro hlone
      obtain ⟨c, _, hkeptLone⟩ := hlone.trim_eq
      rw [hkept] at hkeptLone
      have hlen := congrArg List.length hkeptLone
      rw [List.length_append] at hlen
      have hpos : 0 < (List.replicate f.spaces space ++ lead).length :=
        List.length_pos_iff.mpr hne
      simp only [List.length_singleton] at hlen
      omega

/-- The map after the header lines of `fields`. -/
def storeFields (fields : List HeaderField) (mapHeader : List (Bytes × Bytes)) :
    List (Bytes × Bytes) :=
  fields.foldl (fun m f => mapInsert (strip f.name true) (strip f.kept true) m) mapHeader

theorem storeFields_eq (fields : List HeaderField) (mapHeader : List (Bytes × Bytes)) :
    storeFields fields mapHeader =
      storeEntries (fields.map fun f => (strip f.name true, strip f.kept true)) mapHeader := by
  rw [storeEntries, List.foldl_map]
  rfl

theorem lookup_storeFields (fields : List HeaderField) (mapHeader : List (Bytes × Bytes)) :
    (storeFields fields mapHeader).lookup (literal "Host") =
      (mapHeader.lookup (literal "Host")).or
        ((fields.find? fun f => f.name = literal "Host").map fun f => strip f.kept true) := by
  rw [storeFields_eq, lookup_storeEntries]
  congr 1
  induction fields with
  | nil => rfl
  | cons f fields ih =>
      rw [List.map_cons, List.lookup_cons, List.find?_cons, ih]
      rcases eq_or_ne f.name (literal "Host") with hhost | hother
      · rw [(strip_name_eq_host_iff f).mpr hhost]
        simp [hhost]
      · have hstored : strip f.name true ≠ literal "Host" := fun h =>
          hother ((strip_name_eq_host_iff f).mp h)
        simp [hother, beq_false_of_ne hstored.symm]

theorem headerEntry_encode (f : HeaderField) :
    headerEntry f.encode =
      if f.kept = [] then none else some (strip f.name true, strip f.kept true) := by
  rw [headerEntry, strip_headerLine, splitstr_headerLine]
  rcases eq_or_ne f.kept [] with hnil | htext
  · simp only [if_pos hnil]
  · simp only [if_neg htext]

theorem malformed_encode_iff (f : HeaderField) : Malformed f.encode ↔ ¬ f.HasText := by
  have hne : strip f.encode true ≠ [] := by simp [strip_headerLine]
  rw [Malformed, and_iff_right hne, headerEntry_encode, ← f.kept_eq_nil_iff]
  simp

theorem parseHeaderLines_encode (fields : List HeaderField)
    (mapHeader : List (Bytes × Bytes)) :
    ((∀ f ∈ fields, f.HasText) ∧
      parseHeaderLines (fields.map HeaderField.encode ++ [crlf]) mapHeader =
        some (storeFields fields mapHeader)) ∨
    ((∃ f ∈ fields, ¬ f.HasText) ∧
      parseHeaderLines (fields.map HeaderField.encode ++ [crlf]) mapHeader = none) := by
  have hbad : (∃ line ∈ fields.map HeaderField.encode, Malformed line) ↔
      ∃ f ∈ fields, ¬ f.HasText := by
    simp only [List.mem_map, exists_exists_and_eq_and, malformed_encode_iff]
  rw [parseHeaderLines_append_crlf, parseHeaderLines_eq]
  by_cases hsome : ∃ line ∈ fields.map HeaderField.encode, Malformed line
  · exact Or.inr ⟨hbad.mp hsome, if_pos hsome⟩
  · have htext : ∀ f ∈ fields, f.HasText := fun f hf =>
      not_not.mp fun hno => hsome (hbad.mpr ⟨f, hf, hno⟩)
    have hentries : (fields.map HeaderField.encode).filterMap headerEntry =
        fields.map fun f => (strip f.name true, strip f.kept true) := by
      rw [List.filterMap_map, ← List.filterMap_eq_map]
      refine List.filterMap_congr fun f hf => ?_
      have hkept : f.kept ≠ [] := fun h => f.kept_eq_nil_iff.mp h (htext f hf)
      rw [Function.comp_apply, headerEntry_encode, if_neg hkept]
      rfl
    rw [hentries, ← storeFields_eq]
    exact Or.inl ⟨htext, if_neg hsome⟩

theorem parseHttpRequest_encodeRequest (line : RequestLine) (fields : List HeaderField)
    (httpReq : HttpRequest) :
    parseHttpRequest (encodeRequest line fields) httpReq =
      ((parseHttpRequestHeader (encodeRequest line fields) httpReq.header).1,
        { header := (parseHttpRequestHeader (encodeRequest line fields) httpReq.header).2
          body := httpReq.body }) := by
  have hone : splitstr [] (encodeRequest line fields) crlfcrlf (-1) =
      [encodeRequest line fields] := by
    rw [splitstr_eq (by decide), List.nil_append, encodeRequest]
    refine pieces_of_innerOccurrences_eq_nil _ (innerOccurrences_crlfcrlf_closeLines ?_)
    intro l hl
    rcases List.mem_cons.mp hl with rfl | hl
    · exact ⟨line.encode_free cr (by decide), by simp [RequestLine.encode, line.method_ne]⟩
    · obtain ⟨f, _, rfl⟩ := List.mem_map.mp hl
      exact ⟨f.encode_free cr (by decide), by simp [HeaderField.encode, f.name_ne]⟩
  simp [parseHttpRequest, hone]

theorem splitstr_encodeRequest (line : RequestLine) (fields : List HeaderField) :
    splitstr [] (encodeRequest line fields) crlf (-1) =
      line.encode :: (fields.map HeaderField.encode ++ [crlf]) := by
  have hlines : ∀ l ∈ line.encode :: fields.map HeaderField.encode, cr ∉ l := by
    intro l hl
    rcases List.mem_cons.mp hl with rfl | hl
    · exact line.encode_free cr (by decide)
    · obtain ⟨f, _, rfl⟩ := List.mem_map.mp hl
      exact f.encode_free cr (by decide)
  rw [splitstr_eq (by decide), List.nil_append, encodeRequest,
    pieces_closeLines hlines (by decide)]
  rfl

/-- What the parser has stored of the request line when it comes to the header
lines. -/
def lineHeader (line : RequestLine) (unset : Method) : Header :=
  { (HttpRequest.fresh unset).header with
    method := parseMethod line.method
    querystring := line.query.getD []
    resource := if line.query = some [] then line.resource ++ [question] else line.resource
    httpversion := line.version }

theorem parseHttpRequestHeader_encodeRequest (line : RequestLine) (fields : List HeaderField)
    (unset : Method) :
    parseHttpRequestHeader (encodeRequest line fields) (HttpRequest.fresh unset).header =
      if fields = [] ∨ line.version = [] then (false, (HttpRequest.fresh unset).header)
      else
        match parseHeaderLines (fields.map HeaderField.encode ++ [crlf]) [] with
        | none => (false, lineHeader line unset)
        | some mapHeader =>
            (true, { lineHeader line unset with
              host := (mapHeader.lookup (literal "Host")).getD [] }) := by
  rcases eq_or_ne fields [] with rfl | hfields
  · simp [parseHttpRequestHeader, splitstr_encodeRequest]
  · have hcount : ¬ (line.encode :: (fields.map HeaderField.encode ++ [crlf])).length < 3 := by
      have hpos : 0 < fields.length := List.length_pos_iff.mpr hfields
      simp only [List.length_cons, List.length_append, List.length_map, List.length_nil]
      omega
    rcases eq_or_ne line.version [] with hversion | hversion
    · simp [parseHttpRequestHeader, splitstr_encodeRequest, splitstr_requestLine, hversion]
    · have hcondition : ¬ (fields = [] ∨ line.version = []) := by simp [hfields, hversion]
      rw [if_neg hcondition]
      simp only [parseHttpRequestHeader, splitstr_encodeRequest, if_neg hcount,
        List.getD_cons_zero, splitstr_requestLine, if_neg hversion, List.getD_cons_succ,
        splitstr_target, List.drop_succ_cons, List.drop_zero, lineHeader]
      generalize parseHeaderLines (fields.map HeaderField.encode ++ [crlf]) [] = parsed
      rcases hquery : line.query with _ | _ | ⟨c, q⟩ <;> cases parsed <;>
        simp [HttpRequest.fresh]

theorem host_eq_hostOf_iff (fields : List HeaderField) :
    ((storeFields fields []).lookup (literal "Host")).getD [] = hostOf fields ↔
      ∀ f, fields.find? (fun f => f.name = literal "Host") = some f → ¬ f.LoneCharacter := by
  rw [lookup_storeFields, hostOf]
  cases fields.find? fun f => f.name = literal "Host" with
  | none => simp
  | some f => simp [strip_kept_eq_iff]

/-- The parser gives back what was encoded exactly on the decodable requests. -/
theorem parseHttpRequest_decodes_iff (line : RequestLine) (fields : List HeaderField)
    (unset : Method) :
    ((parseHttpRequest (encodeRequest line fields) (HttpRequest.fresh unset)).1 = true ∧
      (parseHttpRequest (encodeRequest line fields) (HttpRequest.fresh unset)).2.header =
        decodedHeader line fields) ↔ Decodable line fields := by
  rw [parseHttpRequest_encodeRequest, parseHttpRequestHeader_encodeRequest]
  rcases Classical.em (fields = [] ∨ line.version = []) with hshort | hlong
  · rw [if_pos hshort]
    apply iff_of_false (by simp)
    intro h
    exact hshort.elim h.fields_ne h.version_ne
  · obtain ⟨hfields, hversion⟩ := not_or.mp hlong
    rw [if_neg hlong]
    rcases parseHeaderLines_encode fields [] with ⟨hall, hparse⟩ | ⟨⟨f, hf, hnone⟩, hparse⟩
    · simp only [hparse, true_and]
      have hresource : (if line.query = some [] then line.resource ++ [question]
          else line.resource) = line.resource ↔ line.query ≠ some [] := by
        split <;> simp_all
      constructor
      · intro h
        simp only [decodedHeader, lineHeader, Header.mk.injEq] at h
        obtain ⟨hmethod, hres, -, -, hhost⟩ := h
        exact ⟨hfields, hversion, hresource.mp hres,
          (parseMethod_eq_namedMethod_iff _).mp hmethod, hall, (host_eq_hostOf_iff _).mp hhost⟩
      · intro h
        simp only [decodedHeader, lineHeader, Header.mk.injEq]
        exact ⟨(parseMethod_eq_namedMethod_iff _).mpr h.method_exact, hresource.mpr h.query_ne,
          trivial, trivial, (host_eq_hostOf_iff _).mpr h.host_long⟩
    · simp only [hparse]
      exact iff_of_false (by simp) fun h => hnone (h.values_text f hf)

def getRoot : RequestLine :=
  { method := literal "GET"
    resource := literal "/"
    query := none
    version := literal "HTTP/1.1"
    method_ne := by decide
    resource_ne := by decide
    method_free := by decide
    resource_free := by decide
    query_free := by simp
    version_free := by decide }

/-- The header line `Host:a`. -/
def hostField : HeaderField :=
  { name := literal "Host"
    spaces := 0
    value := literal "a"
    name_ne := by decide
    name_free := by decide
    value_free := by decide }

/-- The host `a` comes out empty. -/
theorem host_of_one_character_lost :
    getRoot.version ≠ [] ∧
      ¬ ((parseHttpRequest (encodeRequest getRoot [hostField]) (HttpRequest.fresh .GET)).1 = true ∧
        (parseHttpRequest (encodeRequest getRoot [hostField]) (HttpRequest.fresh .GET)).2.header =
          decodedHeader getRoot [hostField]) := by
  decide

end StudyLinuxKernel.Http.RequestEncoding
