import StudyLinuxKernel.Http.Request
import StudyLinuxKernel.Library.OrderedSet

namespace StudyLinuxKernel.Http.HeaderLines

open StudyLinuxKernel.Http.Request
open StudyLinuxKernel.Http.Text
open StudyLinuxKernel.Libc.Text
open StudyLinuxKernel.Library.OrderedSet

/-- The name and the value that the parser makes of a header line. -/
def headerEntry (line : Bytes) : Option (Bytes × Bytes) :=
  match splitstr [] (strip line true) [colon] 1 with
  | name :: value :: _ => some (strip name true, strip value true)
  | _ => none

/-- The line ends the parsing. -/
def Malformed (line : Bytes) : Prop := strip line true ≠ [] ∧ headerEntry line = none

instance : DecidablePred Malformed := fun _ => inferInstanceAs (Decidable (_ ∧ _))

def storeEntries (entries mapHeader : List (Bytes × Bytes)) : List (Bytes × Bytes) :=
  entries.foldl (fun m entry => mapInsert entry.1 entry.2 m) mapHeader

theorem headerEntry_of_blank {line : Bytes} (h : strip line true = []) :
    headerEntry line = none := by
  have hone : splitstr [] [] [colon] 1 = [[]] := by decide
  simp only [headerEntry, h, hone]

theorem parseHeaderLines_step (line : Bytes) (lines : List Bytes)
    (mapHeader : List (Bytes × Bytes)) :
    parseHeaderLines (line :: lines) mapHeader =
      if Malformed line then none
      else parseHeaderLines lines (storeEntries (headerEntry line).toList mapHeader) := by
  rw [parseHeaderLines]
  rcases eq_or_ne (strip line true) [] with hblank | htext
  · have hgood : ¬ Malformed line := fun h => h.1 hblank
    simp [hblank, hgood, headerEntry_of_blank hblank, storeEntries]
  · simp only [if_neg htext, Malformed, and_iff_right htext, headerEntry]
    rcases splitstr [] (strip line true) [colon] 1 with _ | ⟨name, _ | ⟨value, more⟩⟩
    · simp
    · simp
    · simp [storeEntries]

theorem parseHeaderLines_eq (lines : List Bytes) (mapHeader : List (Bytes × Bytes)) :
    parseHeaderLines lines mapHeader =
      if ∃ line ∈ lines, Malformed line then none
      else some (storeEntries (lines.filterMap headerEntry) mapHeader) := by
  induction lines generalizing mapHeader with
  | nil => simp [parseHeaderLines, storeEntries]
  | cons line lines ih =>
      rw [parseHeaderLines_step, ih]
      by_cases hbad : Malformed line
      · rw [if_pos hbad, if_pos ⟨line, List.mem_cons_self, hbad⟩]
      · have hsome : (∃ l ∈ line :: lines, Malformed l) ↔ ∃ l ∈ lines, Malformed l := by
          simp [hbad]
        have hstore : storeEntries ((line :: lines).filterMap headerEntry) mapHeader =
            storeEntries (lines.filterMap headerEntry)
              (storeEntries (headerEntry line).toList mapHeader) := by
          rw [List.filterMap_cons]
          cases headerEntry line with
          | none => rfl
          | some entry => rfl
        rw [if_neg hbad, hstore]
        simp only [hsome]

theorem mapInsert_eq_insertLast (key value : Bytes) (mapHeader : List (Bytes × Bytes)) :
    mapInsert key value mapHeader = insertLast Prod.fst (key, value) mapHeader := by
  have hpresent : (mapHeader.lookup key).isSome ↔ key ∈ mapHeader.map Prod.fst := by
    rw [List.lookup_isSome_iff, List.mem_map]
    constructor
    · rintro ⟨entry, hmem, hkey⟩
      exact ⟨entry, hmem, (eq_of_beq hkey).symm⟩
    · rintro ⟨entry, hmem, hkey⟩
      exact ⟨entry, hmem, beq_iff_eq.mpr hkey.symm⟩
  rw [mapInsert]
  by_cases hmem : key ∈ mapHeader.map Prod.fst
  · rw [if_pos (hpresent.mpr hmem), insertLast_of_mem hmem]
  · rw [if_neg fun h => hmem (hpresent.mp h), insertLast_of_not_mem hmem]

theorem lookup_eq_map_find? (key : Bytes) (entries : List (Bytes × Bytes)) :
    entries.lookup key = (entries.find? (·.1 = key)).map Prod.snd := by
  induction entries with
  | nil => rfl
  | cons entry entries ih =>
      rw [List.lookup_cons, List.find?_cons, ih]
      rcases eq_or_ne entry.1 key with hkey | hother
      · simp [hkey]
      · simp [hother, beq_false_of_ne hother.symm]

/-- The first entry with the key wins, behind what the map held before. -/
theorem lookup_storeEntries (key : Bytes) (entries mapHeader : List (Bytes × Bytes)) :
    (storeEntries entries mapHeader).lookup key =
      (mapHeader.lookup key).or (entries.lookup key) := by
  have hstore : storeEntries entries mapHeader =
      entries.foldl (fun m entry => insertLast Prod.fst entry m) mapHeader := by
    simp only [storeEntries, mapInsert_eq_insertLast]
  simp only [lookup_eq_map_find?, hstore, find?_foldl_insertLast, Option.map_or]

theorem lookup_perm {key : Bytes} {entries entries' : List (Bytes × Bytes)}
    (hperm : entries.Perm entries') (hone : entries.countP (·.1 = key) ≤ 1) :
    entries.lookup key = entries'.lookup key := by
  rw [lookup_eq_map_find?, lookup_eq_map_find?, find?_perm hperm hone]

theorem parseHeaderLines_append_crlf (lines : List Bytes) (mapHeader : List (Bytes × Bytes)) :
    parseHeaderLines (lines ++ [crlf]) mapHeader = parseHeaderLines lines mapHeader := by
  have hblank : strip crlf true = [] := by decide
  have hnothing : [crlf].filterMap headerEntry = [] := by
    rw [List.filterMap_cons_none (headerEntry_of_blank hblank), List.filterMap_nil]
  have hsome : (∃ line ∈ lines ++ [crlf], Malformed line) ↔ ∃ line ∈ lines, Malformed line := by
    constructor
    · rintro ⟨line, hline, hbad⟩
      rcases List.mem_append.mp hline with hline | hlast
      · exact ⟨line, hline, hbad⟩
      · rw [List.mem_singleton.mp hlast] at hbad
        exact absurd hblank hbad.1
    · rintro ⟨line, hline, hbad⟩
      exact ⟨line, List.mem_append_left _ hline, hbad⟩
  rw [parseHeaderLines_eq, parseHeaderLines_eq, List.filterMap_append, hnothing, List.append_nil]
  simp only [hsome]

end StudyLinuxKernel.Http.HeaderLines
