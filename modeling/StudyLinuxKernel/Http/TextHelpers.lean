import StudyLinuxKernel.Http.Text
import StudyLinuxKernel.Library.Cutting

namespace StudyLinuxKernel.Http.TextHelpers

open StudyLinuxKernel.Http.Text
open StudyLinuxKernel.Libc.Text
open StudyLinuxKernel.Library.Cutting
open StudyLinuxKernel.Library.Occurrences
open StudyLinuxKernel.Library.Trim

/-- From index `i` on, no length that `splitstr` passes to `substr` in its loop
is below zero. -/
def NeverWraps (strSource strSep : Bytes) : Nat → Bytes → SplitState → Prop
  | _, [], _ => True
  | i, ch :: rest, st =>
      st.nMatch ≠ 0 →
        (st.queCurVal = strSep → 0 ≤ (i : Int) - st.poslast - strSep.length) ∧
          NeverWraps strSource strSep (i + 1) rest (splitstrStep strSource strSep i ch st)

def splitStart (nMatch : Int) : SplitState :=
  { vecResults := [], poslast := 0, queCurVal := [], nMatch := nMatch }

/-- The result of taking the blank ends from a string. -/
structure Stripped (strSource result : Bytes) : Prop where
  trimmed : result = trim isEmptyChar strSource
  kept : result.filter (fun ch => !isEmptyChar ch) = strSource.filter fun ch => !isEmptyChar ch
  start : ∀ ch, result.head? = some ch → isEmptyChar ch = false
  finish : ∀ ch, result.getLast? = some ch → isEmptyChar ch = false

/-- All characters but one are blank, and that one is the first, or not the last. -/
def LoneCharacter (strSource : Bytes) : Prop :=
  ∃ lead ch trail, strSource = lead ++ ch :: trail ∧ isEmptyChar ch = false ∧
    (∀ c ∈ lead, isEmptyChar c) ∧ (∀ c ∈ trail, isEmptyChar c) ∧ (lead = [] ∨ trail ≠ [])

/-- For a separator without a border `splitstr` cuts where it should. -/
theorem splitstr_cuts {strSep : Bytes} (hne : strSep ≠ []) (hsep : Borderless strSep)
    (vecResults : List Bytes) (strSource : Bytes) (nMatch : Int) :
    ∃ cut, splitstr vecResults strSource strSep nMatch = vecResults ++ cut ∧
      (∀ ps, CutFirst strSep nMatch strSource ps ↔ ps = cut) ∧
      (∀ piece ∈ cut.dropLast, ¬ strSep <:+: piece) ∧ strSep.intercalate cut = strSource := by
  have hcut := cutFirst_pieces hsep hne nMatch strSource
  refine ⟨pieces strSep nMatch strSource, splitstr_eq hne vecResults strSource nMatch,
    fun ps => ⟨fun h => h.eq_pieces hsep hne, ?_⟩, hcut.not_infix hne, hcut.intercalate⟩
  rintro rfl
  exact hcut

theorem splitstr_cuts_crlf :
    ∃ cut, splitstr [] (literal "a\r\nb\r\n") crlf (-1) = [] ++ cut ∧
      (∀ ps, CutFirst crlf (-1) (literal "a\r\nb\r\n") ps ↔ ps = cut) ∧
      (∀ piece ∈ cut.dropLast, ¬ crlf <:+: piece) ∧
      crlf.intercalate cut = literal "a\r\nb\r\n" :=
  splitstr_cuts (by decide) (by decide) [] (literal "a\r\nb\r\n") (-1)

theorem matches_iff {strSource strSep : Bytes} {i : Nat} (hi : i ≤ strSource.length) :
    Matches strSource strSep i ↔ windowAt strSource strSep i = strSep := by
  refine and_iff_right_of_imp fun hwindow => ?_
  have hlength := @length_windowAt strSource strSep i hi
  rw [hwindow] at hlength
  omega

theorem neverWraps_iff {strSource strSep : Bytes} (hne : strSep ≠ []) (rest : Bytes) :
    ∀ (i : Nat) (vecResults : List Bytes) (poslast : Nat) (nMatch : Int),
      strSource.drop i = rest →
      (NeverWraps strSource strSep i rest
          { vecResults := vecResults, poslast := poslast,
            queCurVal := windowAt strSource strSep i, nMatch := nMatch } ↔
        Apart strSep.length poslast (limit nMatch (cutsFrom strSource strSep i))) := by
  induction rest with
  | nil =>
      intro i vecResults poslast nMatch hrest
      simp [NeverWraps, cutsFrom_of_le (List.drop_eq_nil_iff.mp hrest), Apart]
  | cons ch rest ih =>
      intro i vecResults poslast nMatch hrest
      rcases getElem_of_drop_eq_cons hrest with ⟨hlt, rfl, hdrop⟩
      rw [NeverWraps, splitstrStep_windowAt hlt hne, cutsFrom_step hlt, ← matches_iff hlt.le]
      rcases eq_or_ne nMatch 0 with rfl | hmore
      · simp [Apart]
      · by_cases hmatch : Matches strSource strSep i
        · have hend : i - strSep.length + strSep.length = i := Nat.sub_add_cancel hmatch.1
          have hgap : 0 ≤ (i : Int) - poslast - strSep.length ↔
              poslast ≤ i - strSep.length := by
            have := hmatch.1
            omega
          rw [if_pos hmatch, if_pos hmatch, limit_cons hmore, Apart, hend, ih _ _ _ _ hdrop]
          simp only [ne_eq, hmore, not_false_eq_true, forall_const, hmatch, hgap]
        · rw [if_neg hmatch, if_neg hmatch, ih _ _ _ _ hdrop]
          simp [hmore, hmatch]

/-- The unlimited split loses nothing and subtracts properly exactly if no two
occurrences of the separator overlap. -/
theorem splitstr_lossless_iff {strSep : Bytes} (hne : strSep ≠ []) (strSource : Bytes)
    {nMatch : Int} (hall : nMatch < 0) :
    (strSep.intercalate (splitstr [] strSource strSep nMatch) = strSource ∧
      NeverWraps strSource strSep 0 strSource (splitStart nMatch)) ↔
        ¬ Overlapping strSep strSource := by
  have hwindow : windowAt strSource strSep 0 = [] := by simp [windowAt]
  have hcuts : cutsFrom strSource strSep 0 = innerOccurrences strSep strSource := by
    simp [cutsFrom, innerOccurrences, List.range_eq_range']
  have hwraps := neverWraps_iff hne strSource 0 [] 0 nMatch rfl
  rw [hwindow, hcuts, limit_of_neg hall, apart_innerOccurrences_iff] at hwraps
  rw [← hwraps]
  refine and_iff_right_of_imp fun hnever => ?_
  rw [splitstr_eq hne, List.nil_append, pieces, limit_of_neg hall]
  refine intercalate_cutAt _ 0 ?_ fun p hp => (mem_innerOccurrences.mp hp).2
  exact (apart_innerOccurrences_iff _ _).mpr (hwraps.mp hnever)

theorem splitstr_lossless_crlf :
    crlf.intercalate (splitstr [] (literal "a\r\nb\r\n") crlf (-1)) = literal "a\r\nb\r\n" ∧
      NeverWraps (literal "a\r\nb\r\n") crlf 0 (literal "a\r\nb\r\n") (splitStart (-1)) :=
  (splitstr_lossless_iff (by decide) (literal "a\r\nb\r\n") (by decide)).mpr
    (Borderless.not_overlapping (by decide))

/-- The second match begins inside the first one, and the rest comes twice. -/
theorem rest_comes_twice :
    crlfcrlf ≠ [] ∧
      splitstr [] (literal "a\r\n\r\n\r\nb") crlfcrlf (-1) =
        [literal "a", literal "\r\nb", literal "b"] ∧
      ¬ (crlfcrlf.intercalate (splitstr [] (literal "a\r\n\r\n\r\nb") crlfcrlf (-1)) =
          literal "a\r\n\r\n\r\nb" ∧
        NeverWraps (literal "a\r\n\r\n\r\nb") crlfcrlf 0 (literal "a\r\n\r\n\r\nb")
          (splitStart (-1))) := by
  have hpieces : splitstr [] (literal "a\r\n\r\n\r\nb") crlfcrlf (-1) =
      [literal "a", literal "\r\nb", literal "b"] := by
    decide
  refine ⟨by decide, hpieces, fun h => ?_⟩
  rw [hpieces] at h
  exact absurd h.1 (by decide)

theorem stripped_of_eq_trim {strSource result : Bytes} (h : result = trim isEmptyChar strSource) :
    Stripped strSource result where
  trimmed := h
  kept := by rw [h, filter_trim]
  start := fun ch hch => (h ▸ trimmed_trim isEmptyChar strSource).head?_not_blank hch
  finish := fun ch hch => (h ▸ trimmed_trim isEmptyChar strSource).getLast?_not_blank hch

/-- `strip` takes the blank ends from a string exactly if it has not a lone
character of the kind that it loses, or whose blanks it keeps. -/
theorem strip_stripped_iff (strSource : Bytes) :
    Stripped strSource (strip strSource true) ↔ ¬ LoneCharacter strSource := by
  constructor
  · rintro hstripped ⟨lead, ch, trail, rfl, hch, hlead, htrail, hends⟩
    have htrimmed := hstripped.trimmed
    rw [strip_of_one hlead htrail hch, trim_append_cons hlead hch htrail] at htrimmed
    rcases eq_or_ne lead [] with hnil | hne
    · rw [if_pos hnil] at htrimmed
      exact List.cons_ne_nil ch [] htrimmed.symm
    · rw [if_neg hne] at htrimmed
      exact (hends.resolve_left hne) (List.cons.inj htrimmed).2
  · intro hnone
    apply stripped_of_eq_trim
    rcases eq_or_ne (trim isEmptyChar strSource).length 1 with hone | hlong
    · rcases exists_of_length_trim_eq_one hone with
        ⟨lead, ch, trail, hs, hcore, hch, hlead, htrail⟩
      have hends : ¬ (lead = [] ∨ trail ≠ []) := fun hends =>
        hnone ⟨lead, ch, trail, hs, hch, hlead, htrail, hends⟩
      obtain ⟨hne, htrailing⟩ := not_or.mp hends
      have hstrip : strip (lead ++ ch :: trail) true = ch :: trail := by
        rw [strip_of_one hlead htrail hch, if_neg hne]
      rw [hcore, ← not_not.mp htrailing, ← hstrip, hs]
    · exact strip_eq_trim hlong

/-- Of a string of one character nothing is left. -/
theorem one_character_lost :
    strip (literal "a") true = [] ∧ ¬ Stripped (literal "a") (strip (literal "a") true) := by
  have hempty : strip (literal "a") true = [] := by decide
  refine ⟨hempty, fun h => ?_⟩
  have htrimmed := h.trimmed
  rw [hempty] at htrimmed
  exact absurd htrimmed (by decide)

end StudyLinuxKernel.Http.TextHelpers
