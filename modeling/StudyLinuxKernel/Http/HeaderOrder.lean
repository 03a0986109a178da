import StudyLinuxKernel.Http.HeadBody

namespace StudyLinuxKernel.Http.HeaderOrder

open StudyLinuxKernel.Http.HeadBody
open StudyLinuxKernel.Http.HeaderLines
open StudyLinuxKernel.Http.Request
open StudyLinuxKernel.Http.RequestEncoding
open StudyLinuxKernel.Http.Text
open StudyLinuxKernel.Libc.Text
open StudyLinuxKernel.Library.Occurrences
open StudyLinuxKernel.Library.Trim

/-- What stands in front of the first colon trims to `Host`. -/
def NamesHost (line : Bytes) : Prop :=
  colon ∈ line ∧ trim isEmptyChar (line.takeWhile (· ≠ colon)) = literal "Host"

instance : DecidablePred NamesHost := fun _ => inferInstanceAs (Decidable (_ ∧ _))

theorem splitstr_colon {val name value : Bytes} {more : List Bytes}
    (h : splitstr [] val [colon] 1 = name :: value :: more) :
    colon ∉ name ∧ val = name ++ colon :: value := by
  rw [splitstr_char] at h
  by_cases hcolon : colon ∈ val
  · rcases List.eq_append_cons_of_mem hcolon with ⟨front, rest, rfl, hfront⟩
    rcases eq_or_ne rest [] with rfl | hrest
    · rw [pieces_char_at_end hfront] at h
      simp at h
    · have hcut := pieces_char_append hfront hrest (n := 1) (by omega)
      have hspent : spend 1 = 0 := by decide
      rw [hspent, pieces_zero, List.singleton_append, h] at hcut
      rcases List.cons.inj hcut with ⟨rfl, htail⟩
      rcases List.cons.inj htail with ⟨rfl, _⟩
      exact ⟨hfront, rfl⟩
  · rw [pieces_char_of_not_mem hcolon] at h
    simp at h

theorem exists_strip_append (s : Bytes) : strip s true = [] ∨
    ∃ lead rest, s = lead ++ (strip s true ++ rest) ∧ ∀ ch ∈ lead, isEmptyChar ch := by
  by_cases hone : (trim isEmptyChar s).length = 1
  · rcases exists_of_length_trim_eq_one hone with ⟨lead, x, trail, rfl, _, hx, hlead, htrail⟩
    rw [strip_of_one hlead htrail hx]
    rcases eq_or_ne lead [] with hnil | hne
    · exact Or.inl (if_pos hnil)
    · refine Or.inr ⟨lead, [], ?_, hlead⟩
      rw [if_neg hne, List.append_nil]
  · rcases exists_trim_append isEmptyChar s with ⟨lead, trail, hs, hlead, _⟩
    rw [strip_eq_trim hone]
    exact Or.inr ⟨lead, trail, hs, hlead⟩

/-- `strip` may leave blanks behind a single character, but not in `Host`. -/
theorem trim_of_strip_eq_host {s : Bytes} (h : strip s true = literal "Host") :
    trim isEmptyChar s = literal "Host" := by
  by_cases hone : (trim isEmptyChar s).length = 1
  · rcases exists_of_length_trim_eq_one hone with ⟨lead, x, trail, rfl, _, hx, hlead, htrail⟩
    have hhost : literal "Host" = 72 :: literal "ost" := by decide
    rw [strip_of_one hlead htrail hx] at h
    split at h
    · exact absurd h (by decide)
    · rw [hhost] at h
      rcases List.cons.inj h with ⟨_, rfl⟩
      exact absurd (htrail 111 (by decide)) (by decide)
  · rw [← strip_eq_trim hone]
    exact h

theorem namesHost_of_headerEntry {line value : Bytes}
    (h : headerEntry line = some (literal "Host", value)) : NamesHost line := by
  rw [headerEntry] at h
  split at h
  · rename_i name rawValue more hsplit
    rcases splitstr_colon hsplit with ⟨hname, hval⟩
    have hhost : trim isEmptyChar name = literal "Host" :=
      trim_of_strip_eq_host (Prod.ext_iff.mp (Option.some.inj h)).1
    rcases exists_strip_append line with hblank | ⟨lead, rest, hline, hlead⟩
    · rw [hblank] at hval
      simp at hval
    · have hfront : ∀ ch ∈ lead ++ name, decide (ch ≠ colon) = true := by
        intro ch hch
        rw [decide_eq_true_eq]
        rintro rfl
        rcases List.mem_append.mp hch with hch | hch
        · exact absurd (hlead colon hch) (by decide)
        · exact hname hch
      have hsplitLine : line = (lead ++ name) ++ colon :: (rawValue ++ rest) := by
        rw [hline, hval]
        simp
      have hpart : line.takeWhile (· ≠ colon) = lead ++ name := by
        rw [hsplitLine, List.takeWhile_append_of_pos hfront]
        simp
      constructor
      · rw [hsplitLine]
        simp
      · rw [hpart, trim_append_of_blank_left hlead, hhost]
  · exact absurd h (by simp)

theorem countP_host_le (lines : List Bytes) :
    (lines.filterMap headerEntry).countP (·.1 = literal "Host") ≤ lines.countP NamesHost := by
  rw [List.countP_filterMap]
  apply List.countP_mono_left
  intro line _ hentry
  rw [decide_eq_true_eq]
  rcases hsome : headerEntry line with _ | ⟨name, value⟩
  · simp [hsome] at hentry
  · rw [hsome] at hentry
    have hname : name = literal "Host" := by simpa using hentry
    exact namesHost_of_headerEntry (hname ▸ hsome)

theorem hostLookup_perm {lines lines' : List Bytes} (hperm : lines.Perm lines')
    (hone : lines.countP NamesHost ≤ 1) :
    (parseHeaderLines lines []).map (List.lookup (literal "Host")) =
      (parseHeaderLines lines' []).map (List.lookup (literal "Host")) := by
  have hbad : (∃ line ∈ lines, Malformed line) ↔ ∃ line ∈ lines', Malformed line := by
    simp only [hperm.mem_iff]
  have hlookup := lookup_perm (hperm.filterMap headerEntry) ((countP_host_le lines).trans hone)
  rw [parseHeaderLines_eq, parseHeaderLines_eq]
  simp only [hbad]
  split
  · rfl
  · simp only [Option.map_some, lookup_storeEntries, hlookup]

/-- The header lines may come in any order. -/
theorem parseHttpRequestHeader_perm {requestLine : Bytes} {lines lines' : List Bytes}
    (hrequest : FreeOf [cr, lf] requestLine)
    (hlines : ∀ line ∈ lines, line ≠ [] ∧ FreeOf [cr, lf] line)
    (hone : lines.countP NamesHost ≤ 1) (hperm : lines.Perm lines') (header : Header) :
    parseHttpRequestHeader (crlf.intercalate (requestLine :: lines)) header =
      parseHttpRequestHeader (crlf.intercalate (requestLine :: lines')) header := by
  have hcr : cr ∉ requestLine := hrequest cr (by decide)
  have hsplit : ∀ ls : List Bytes, ls.Perm lines → ls ≠ [] →
      splitstr [] (crlf.intercalate (requestLine :: ls)) crlf (-1) = requestLine :: ls := by
    intro ls hsame hne
    apply splitstr_intercalate (List.cons_ne_nil _ _)
    · intro line hline
      rcases List.mem_cons.mp hline with rfl | hline
      · exact hcr
      · exact (hlines line (hsame.mem_iff.mp hline)).2 cr (by decide)
    · rw [List.getLast_cons hne]
      exact (hlines _ (hsame.mem_iff.mp (List.getLast_mem hne))).1
  rcases eq_or_ne lines [] with rfl | hne
  · rw [List.nil_perm.mp hperm]
  · have hne' : lines' ≠ [] := fun h => hne (List.perm_nil.mp (h ▸ hperm))
    exact parseHttpRequestHeader_congr header (hsplit lines (List.Perm.refl _) hne)
      (hsplit lines' hperm.symm hne') (by rw [hperm.length_eq]) (hostLookup_perm hperm hone)

theorem parseHttpRequestHeader_perm_of_two :
    parseHttpRequestHeader (crlf.intercalate
        [literal "GET / HTTP/1.1", literal "Host: ab", literal "Accept:text"])
        (HttpRequest.fresh .GET).header =
      parseHttpRequestHeader (crlf.intercalate
        [literal "GET / HTTP/1.1", literal "Accept:text", literal "Host: ab"])
        (HttpRequest.fresh .GET).header :=
  parseHttpRequestHeader_perm (by decide) (by decide) (by decide) (List.Perm.swap _ _ [])
    (HttpRequest.fresh .GET).header

end StudyLinuxKernel.Http.HeaderOrder
