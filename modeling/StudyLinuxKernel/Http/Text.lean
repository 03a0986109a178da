import StudyLinuxKernel.Libc.Text
import StudyLinuxKernel.Library.Occurrences
import StudyLinuxKernel.Library.Trim

namespace StudyLinuxKernel.Http.Text

open StudyLinuxKernel.Libc.Text
open StudyLinuxKernel.Library.Occurrences
open StudyLinuxKernel.Library.Trim

def question : UInt8 := 63

def crlf : Bytes := [cr, lf]
def crlfcrlf : Bytes := [cr, lf, cr, lf]

/-- `std::string::substr`.  The count is a `size_t` computed by a subtraction:
where that is negative it wraps to a number above the size of any string. -/
def substr (s : Bytes) (pos : Nat) (n : Int) : Bytes := slice s pos n

def isEmptyChar (ch : UInt8) : Bool :=
  ch = space || ch = lf || ch = cr || ch = tab

/-- The scan of `strip`, from index `i` on: `start` and `endPos` (the source's
`end`) are -1 until they are set. -/
def stripScan : Nat → Bytes → Int → Int → Int × Int
  | _, [], start, endPos => (start, endPos)
  | i, ch :: rest, start, endPos =>
      if isEmptyChar ch then stripScan (i + 1) rest start endPos
      else if start = -1 then stripScan (i + 1) rest i endPos
      else stripScan (i + 1) rest start i

def strip (strSource : Bytes) (bEnd : Bool) : Bytes :=
  if bEnd then
    let ends := stripScan 0 strSource (-1) (-1)
    let start := if ends.1 = -1 then 0 else ends.1
    substr strSource start.toNat (ends.2 - start + 1)
  else strSource.filter fun ch => !isEmptyChar ch

/-- The variables of `splitstr` that its loop changes. -/
structure SplitState where
  vecResults : List Bytes
  poslast : Nat
  queCurVal : Bytes
  nMatch : Int

/-- The loop body of `splitstr` for the character `ch` at index `i`. -/
def splitstrStep (strSource strSep : Bytes) (i : Nat) (ch : UInt8) (st : SplitState) :
    SplitState :=
  if st.queCurVal.length < strSep.length then
    { st with queCurVal := st.queCurVal ++ [ch] }
  else
    let st :=
      if st.queCurVal = strSep then
        { st with
          vecResults := st.vecResults ++
            [substr strSource st.poslast ((i : Int) - st.poslast - strSep.length)]
          poslast := i
          nMatch := if 0 < st.nMatch then st.nMatch - 1 else st.nMatch }
      else st
    { st with queCurVal := st.queCurVal.tail ++ [ch] }

def splitstrLoop (strSource strSep : Bytes) : Nat → Bytes → SplitState → SplitState
  | _, [], st => st
  | i, ch :: rest, st =>
      if st.nMatch = 0 then st
      else splitstrLoop strSource strSep (i + 1) rest (splitstrStep strSource strSep i ch st)

/-- `splitstr`, which answers the new `vecResults`.  The number that the source
returns is its length. -/
def splitstr (vecResults : List Bytes) (strSource strSep : Bytes) (nMatch : Int) :
    List Bytes :=
  let st := splitstrLoop strSource strSep 0 strSource
    { vecResults := vecResults, poslast := 0, queCurVal := [], nMatch := nMatch }
  st.vecResults ++ [substr strSource st.poslast ((strSource.length : Int) - st.poslast)]

theorem stripScan_blank {b : Bytes} (hb : ∀ ch ∈ b, isEmptyChar ch) (rest : Bytes)
    (i : Nat) (start endPos : Int) :
    stripScan i (b ++ rest) start endPos = stripScan (i + b.length) rest start endPos := by
  induction b generalizing i with
  | nil => rfl
  | cons ch b ih =>
      have hch : isEmptyChar ch = true := hb ch (by simp)
      rw [List.cons_append, stripScan, if_pos hch, ih (fun c hc => hb c (by simp [hc]))]
      simp [Nat.add_comm, Nat.add_left_comm]

theorem stripScan_all_blank {b : Bytes} (hb : ∀ ch ∈ b, isEmptyChar ch)
    (i : Nat) (start endPos : Int) : stripScan i b start endPos = (start, endPos) := by
  have hscan := stripScan_blank hb [] i start endPos
  rw [List.append_nil] at hscan
  rw [hscan, stripScan]

theorem stripScan_started {b : Bytes} (hb : ∀ ch ∈ b, isEmptyChar ch) {y : UInt8}
    (hy : isEmptyChar y = false) (m : Bytes) (i : Nat) {start : Int} (hstart : start ≠ -1)
    (endPos : Int) :
    stripScan i (m ++ y :: b) start endPos = (start, ((i + m.length : Nat) : Int)) := by
  induction m generalizing i endPos with
  | nil => simp [stripScan, hy, hstart, stripScan_all_blank hb]
  | cons ch m ih =>
      have hlen : i + 1 + m.length = i + (ch :: m).length := by
        simp only [List.length_cons]
        omega
      rw [List.cons_append, stripScan]
      by_cases hch : isEmptyChar ch = true
      · rw [if_pos hch, ih, hlen]
      · rw [if_neg hch, if_neg hstart, ih, hlen]

theorem stripScan_first {b : Bytes} (hb : ∀ ch ∈ b, isEmptyChar ch) {x : UInt8}
    (hx : isEmptyChar x = false) (rest : Bytes) :
    stripScan 0 (b ++ x :: rest) (-1) (-1) = stripScan (b.length + 1) rest b.length (-1) := by
  rw [stripScan_blank hb, stripScan, if_neg (by simp [hx]), if_pos rfl, Nat.zero_add]

theorem strip_of_all_blank {s : Bytes} (hs : ∀ ch ∈ s, isEmptyChar ch) : strip s true = [] := by
  simp [strip, stripScan_all_blank hs, substr, slice]

theorem strip_of_two {lead trail m : Bytes} {x y : UInt8}
    (hlead : ∀ ch ∈ lead, isEmptyChar ch) (htrail : ∀ ch ∈ trail, isEmptyChar ch)
    (hx : isEmptyChar x = false) (hy : isEmptyChar y = false) :
    strip (lead ++ (x :: (m ++ [y]) ++ trail)) true = x :: (m ++ [y]) := by
  have hs : lead ++ (x :: (m ++ [y]) ++ trail) = lead ++ x :: (m ++ y :: trail) := by simp
  have hlead0 : (lead.length : Int) ≠ -1 := by omega
  have hcount : ((lead.length + 1 + m.length : Nat) : Int) - lead.length + 1 =
      ((m.length + 2 : Nat) : Int) := by omega
  rw [hs]
  simp only [strip, if_true, stripScan_first hlead hx,
    stripScan_started htrail hy m _ hlead0, if_neg hlead0, hcount, substr,
    Int.toNat_natCast, slice_natCast]
  have hassoc : x :: (m ++ y :: trail) = (x :: (m ++ [y])) ++ trail := by simp
  rw [List.drop_left, hassoc]
  exact List.take_left' (by simp)

/-- A single non-blank character: `end` stays -1, and the count `end - start + 1`
is `-start`. -/
theorem strip_of_one {lead trail : Bytes} {x : UInt8}
    (hlead : ∀ ch ∈ lead, isEmptyChar ch) (htrail : ∀ ch ∈ trail, isEmptyChar ch)
    (hx : isEmptyChar x = false) :
    strip (lead ++ x :: trail) true = if lead = [] then [] else x :: trail := by
  have hlead0 : (lead.length : Int) ≠ -1 := by omega
  simp only [strip, if_true, stripScan_first hlead hx, stripScan_all_blank htrail,
    if_neg hlead0, substr, Int.toNat_natCast]
  split
  · rename_i hnil
    subst hnil
    simp [slice]
  · rename_i hne
    have hpos : 0 < lead.length := List.length_pos_iff.mpr hne
    rw [slice_of_neg _ _ (by omega), List.drop_left]

theorem strip_eq_trim {s : Bytes} (hs : (trim isEmptyChar s).length ≠ 1) :
    strip s true = trim isEmptyChar s := by
  obtain ⟨lead, trail, hsplit, hlead, htrail⟩ := exists_trim_append isEmptyChar s
  have htrimmed := trimmed_trim isEmptyChar s
  generalize trim isEmptyChar s = core at hs hsplit htrimmed
  subst hsplit
  rcases core with _ | ⟨x, rest⟩
  · apply strip_of_all_blank
    intro ch hch
    rcases List.mem_append.mp hch with hch | hch
    · exact hlead ch hch
    · exact htrail ch hch
  · rcases List.eq_nil_or_concat' rest with rfl | ⟨m, y, rfl⟩
    · simp at hs
    · have hlast : isEmptyChar y = false := by
        rw [← List.cons_append] at htrimmed
        exact htrimmed.last_not_blank
      exact strip_of_two hlead htrail htrimmed.head_not_blank hlast

/-- The state of the `splitstr` loop in front of index `i`: the window holds
the last characters read, as many as the separator has. -/
def windowAt (strSource strSep : Bytes) (i : Nat) : Bytes :=
  (strSource.take i).drop (i - strSep.length)

/-- The cuts that the loop still makes from index `i` on. -/
def cutsFrom (strSource strSep : Bytes) (i : Nat) : List Nat :=
  (List.range' (i - strSep.length) (strSource.length - strSep.length - (i - strSep.length))).filter
    fun p => decide (strSep <+: strSource.drop p)

theorem windowAt_eq_iff {strSource strSep : Bytes} {i : Nat} (hsep : strSep.length ≤ i) :
    windowAt strSource strSep i = strSep ↔ strSep <+: strSource.drop (i - strSep.length) := by
  have hlen : i - (i - strSep.length) = strSep.length := by omega
  rw [windowAt, List.drop_take, hlen, List.prefix_iff_eq_take]
  exact eq_comm

theorem cutsFrom_succ {strSource strSep : Bytes} {i : Nat} (hi : i < strSource.length)
    (hsep : strSep.length ≤ i) :
    cutsFrom strSource strSep i =
      if windowAt strSource strSep i = strSep then
        (i - strSep.length) :: cutsFrom strSource strSep (i + 1)
      else cutsFrom strSource strSep (i + 1) := by
  obtain ⟨k, hk⟩ : ∃ k, strSource.length - strSep.length - (i - strSep.length) = k + 1 :=
    ⟨strSource.length - strSep.length - (i - strSep.length) - 1, by omega⟩
  have hnext : i + 1 - strSep.length = i - strSep.length + 1 := by omega
  have hrest : strSource.length - strSep.length - (i + 1 - strSep.length) = k := by omega
  rw [cutsFrom, hk, List.range'_succ, List.filter_cons, cutsFrom, hrest, hnext]
  simp only [windowAt_eq_iff hsep, decide_eq_true_eq]

theorem windowAt_grow {strSource strSep : Bytes} {i : Nat} (hi : i < strSource.length)
    (hsep : i < strSep.length) :
    windowAt strSource strSep i ++ [strSource[i]] = windowAt strSource strSep (i + 1) := by
  have hzero : i - strSep.length = 0 := by omega
  have hzero' : i + 1 - strSep.length = 0 := by omega
  simp [windowAt, hzero, hzero']

theorem windowAt_slide {strSource strSep : Bytes} {i : Nat} (hi : i < strSource.length)
    (hne : strSep ≠ []) (hsep : strSep.length ≤ i) :
    (windowAt strSource strSep i).tail ++ [strSource[i]] = windowAt strSource strSep (i + 1) := by
  have hpos : 0 < strSep.length := List.length_pos_iff.mpr hne
  have hnext : i + 1 - strSep.length = i - strSep.length + 1 := by omega
  rw [windowAt, windowAt, hnext, List.tail_drop, List.take_succ_eq_append_getElem hi,
    List.drop_append_of_le_length (by simp; omega)]

theorem length_windowAt {strSource strSep : Bytes} {i : Nat} (hi : i ≤ strSource.length) :
    (windowAt strSource strSep i).length = min i strSep.length := by
  simp only [windowAt, List.length_drop, List.length_take]
  omega

/-- The window is full and holds the separator. -/
def Matches (strSource strSep : Bytes) (i : Nat) : Prop :=
  strSep.length ≤ i ∧ windowAt strSource strSep i = strSep

instance (strSource strSep : Bytes) (i : Nat) : Decidable (Matches strSource strSep i) :=
  inferInstanceAs (Decidable (_ ∧ _))

theorem cutsFrom_step {strSource strSep : Bytes} {i : Nat} (hi : i < strSource.length) :
    cutsFrom strSource strSep i =
      if Matches strSource strSep i then (i - strSep.length) :: cutsFrom strSource strSep (i + 1)
      else cutsFrom strSource strSep (i + 1) := by
  by_cases hsep : strSep.length ≤ i
  · rw [cutsFrom_succ hi hsep]
    simp only [Matches, hsep, true_and]
  · have hzero : i - strSep.length = i + 1 - strSep.length := by omega
    rw [if_neg fun h => hsep h.1]
    simp only [cutsFrom, hzero]

theorem cutsFrom_of_le {strSource strSep : Bytes} {i : Nat} (hi : strSource.length ≤ i) :
    cutsFrom strSource strSep i = [] := by
  have hzero : strSource.length - strSep.length - (i - strSep.length) = 0 := by omega
  simp [cutsFrom, hzero]

theorem splitstrStep_windowAt {strSource strSep : Bytes} {i : Nat} (hi : i < strSource.length)
    (hne : strSep ≠ []) (vecResults : List Bytes) (poslast : Nat) (nMatch : Int) :
    splitstrStep strSource strSep i strSource[i]
        { vecResults := vecResults, poslast := poslast,
          queCurVal := windowAt strSource strSep i, nMatch := nMatch } =
      if Matches strSource strSep i then
        { vecResults := vecResults ++
            [substr strSource poslast ((i : Int) - poslast - strSep.length)]
          poslast := i
          queCurVal := windowAt strSource strSep (i + 1)
          nMatch := spend nMatch }
      else
        { vecResults := vecResults
          poslast := poslast
          queCurVal := windowAt strSource strSep (i + 1)
          nMatch := nMatch } := by
  by_cases hsep : strSep.length ≤ i
  · have hfull : ¬ (windowAt strSource strSep i).length < strSep.length := by
      rw [length_windowAt hi.le]
      omega
    simp only [splitstrStep, if_neg hfull, Matches, hsep, true_and,
      ← windowAt_slide hi hne hsep]
    split
    · rfl
    · rfl
  · have hshort : (windowAt strSource strSep i).length < strSep.length := by
      rw [length_windowAt hi.le]
      omega
    rw [if_neg fun h : Matches strSource strSep i => hsep h.1]
    simp only [splitstrStep, if_pos hshort, windowAt_grow hi (Nat.lt_of_not_le hsep)]

theorem getElem_of_drop_eq_cons {strSource rest : Bytes} {ch : UInt8} {i : Nat}
    (h : strSource.drop i = ch :: rest) :
    ∃ hi : i < strSource.length, strSource[i] = ch ∧ strSource.drop (i + 1) = rest := by
  have hi : i < strSource.length := by
    have hlength := congrArg List.length h
    rw [List.length_drop, List.length_cons] at hlength
    omega
  rw [List.drop_eq_getElem_cons hi] at h
  exact ⟨hi, List.cons.inj h⟩

/-- What the loop leaves behind, closed by the last piece, is the pieces that
it had and the cuts of the rest. -/
theorem splitstrLoop_spec {strSource strSep : Bytes} (hne : strSep ≠ []) (rest : Bytes) :
    ∀ (i : Nat) (vecResults : List Bytes) (poslast : Nat) (nMatch : Int),
      strSource.drop i = rest → i ≤ strSource.length → poslast ≤ strSource.length →
      let st := splitstrLoop strSource strSep i rest
        { vecResults := vecResults, poslast := poslast,
          queCurVal := windowAt strSource strSep i, nMatch := nMatch }
      st.vecResults ++ [substr strSource st.poslast ((strSource.length : Int) - st.poslast)] =
        vecResults ++ cutAt strSource strSep.length poslast
          (limit nMatch (cutsFrom strSource strSep i)) := by
  have hlast : ∀ (vecResults : List Bytes) (poslast : Nat), poslast ≤ strSource.length →
      vecResults ++ [substr strSource poslast ((strSource.length : Int) - poslast)] =
        vecResults ++ cutAt strSource strSep.length poslast [] := by
    intro vecResults poslast hposlast
    have hgap : (strSource.length : Int) - poslast = (strSource.length - poslast : Nat) := by
      omega
    rw [substr, hgap, slice_natCast, cutAt, List.take_of_length_le (by simp)]
  induction rest with
  | nil =>
      intro i vecResults poslast nMatch hrest hi hposlast
      simpa [splitstrLoop, cutsFrom_of_le (List.drop_eq_nil_iff.mp hrest)] using
        hlast vecResults poslast hposlast
  | cons ch rest ih =>
      intro i vecResults poslast nMatch hrest hi hposlast
      rcases getElem_of_drop_eq_cons hrest with ⟨hlt, rfl, hdrop⟩
      simp only [splitstrLoop]
      split
      · rename_i hzero
        simpa [hzero] using hlast vecResults poslast hposlast
      · rename_i hmore
        rw [splitstrStep_windowAt hlt hne, cutsFrom_step hlt]
        by_cases hmatch : Matches strSource strSep i
        · have hcut : ((i : Int) - poslast - strSep.length) =
              ((i - strSep.length : Nat) : Int) - poslast := by
            have := hmatch.1
            omega
          have hend : i - strSep.length + strSep.length = i := Nat.sub_add_cancel hmatch.1
          rw [if_pos hmatch, if_pos hmatch, limit_cons hmore, cutAt, hend]
          have hnext := ih (i + 1)
            (vecResults ++ [substr strSource poslast ((i : Int) - poslast - strSep.length)])
            i (spend nMatch) hdrop hlt hi
          rw [hcut] at hnext ⊢
          simpa [substr] using hnext
        · rw [if_neg hmatch, if_neg hmatch]
          exact ih (i + 1) vecResults poslast nMatch hdrop hlt hposlast

theorem splitstr_eq {strSep : Bytes} (hne : strSep ≠ []) (vecResults : List Bytes)
    (strSource : Bytes) (nMatch : Int) :
    splitstr vecResults strSource strSep nMatch =
      vecResults ++ pieces strSep nMatch strSource := by
  have hspec := splitstrLoop_spec hne strSource 0 vecResults 0 nMatch rfl
    (Nat.zero_le _) (Nat.zero_le _)
  have hwindow : windowAt strSource strSep 0 = [] := by simp [windowAt]
  have hcuts : cutsFrom strSource strSep 0 = innerOccurrences strSep strSource := by
    simp [cutsFrom, innerOccurrences, List.range_eq_range']
  rw [hwindow, hcuts] at hspec
  exact hspec

end StudyLinuxKernel.Http.Text
