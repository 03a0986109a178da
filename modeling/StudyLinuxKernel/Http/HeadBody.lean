import StudyLinuxKernel.Http.RequestEncoding

namespace StudyLinuxKernel.Http.HeadBody

open StudyLinuxKernel.Http.HeaderLines
open StudyLinuxKernel.Http.Request
open StudyLinuxKernel.Http.RequestEncoding
open StudyLinuxKernel.Http.Text
open StudyLinuxKernel.Libc.Text
open StudyLinuxKernel.Library.Occurrences

/-- The first blank line of the message is the one behind `head`. -/
def FirstBlankLine (head body : Bytes) : Prop :=
  ∀ p < head.length, ¬ crlfcrlf <+: (head ++ (crlfcrlf ++ body)).drop p

instance (head body : Bytes) : Decidable (FirstBlankLine head body) :=
  inferInstanceAs
    (Decidable (∀ p < head.length, ¬ crlfcrlf <+: (head ++ (crlfcrlf ++ body)).drop p))

/-- No blank line of the body, and no CRLF that continues the one in front of
it, has anything behind it. -/
structure BodyUnsplit (body : Bytes) : Prop where
  no_leading : ∀ rest, body = crlf ++ rest → rest = []
  no_inner : ∀ front rest, body = front ++ (crlfcrlf ++ rest) → rest = []

theorem bodyUnsplit_of_cr_not_mem {body : Bytes} (hbody : cr ∉ body) : BodyUnsplit body := by
  constructor
  · rintro rest rfl
    simp [crlf] at hbody
  · rintro front rest rfl
    simp [crlfcrlf] at hbody

/-- The blank line itself is the first cut; further ones come from the body. -/
theorem innerOccurrences_blankLine {body : Bytes} (hbody : body ≠ []) :
    ∃ more, innerOccurrences crlfcrlf (crlfcrlf ++ body) = 0 :: more ∧
      ∀ p, p ∈ more ↔ 0 < p ∧ p < body.length ∧ crlfcrlf <+: (crlfcrlf ++ body).drop p := by
  have hsorted := pairwise_innerOccurrences crlfcrlf (crlfcrlf ++ body)
  have hmem : ∀ p, p ∈ innerOccurrences crlfcrlf (crlfcrlf ++ body) ↔
      p < body.length ∧ crlfcrlf <+: (crlfcrlf ++ body).drop p := by
    intro p
    rw [mem_innerOccurrences, List.length_append]
    apply and_congr_left
    intro _
    omega
  have hzero : 0 ∈ innerOccurrences crlfcrlf (crlfcrlf ++ body) :=
    (hmem 0).mpr ⟨List.length_pos_iff.mpr hbody, List.prefix_append _ _⟩
  cases hocc : innerOccurrences crlfcrlf (crlfcrlf ++ body) with
  | nil =>
      rw [hocc] at hzero
      exact absurd hzero List.not_mem_nil
  | cons q more =>
      rw [hocc, List.pairwise_cons] at hsorted
      rw [hocc] at hzero hmem
      obtain rfl : q = 0 := by
        rcases List.mem_cons.mp hzero with hfirst | hlater
        · exact hfirst.symm
        · exact absurd (hsorted.1 0 hlater) (Nat.not_lt_zero q)
      refine ⟨more, rfl, fun p => ?_⟩
      rw [← hmem p, List.mem_cons]
      constructor
      · intro hp
        exact ⟨hsorted.1 p hp, Or.inr hp⟩
      · rintro ⟨hpos, rfl | hp⟩
        · exact absurd hpos (Nat.lt_irrefl 0)
        · exact hp

theorem bodyUnsplit_of_no_cut {body : Bytes}
    (h : ∀ p, 0 < p → p < body.length → ¬ crlfcrlf <+: (crlfcrlf ++ body).drop p) :
    BodyUnsplit body := by
  have hlen : crlfcrlf.length = 4 := by decide
  constructor
  · rintro rest rfl
    by_contra hrest
    have hrestPos : 0 < rest.length := List.length_pos_iff.mpr hrest
    apply h 2 (by decide)
    · simp only [crlf, List.length_append, List.length_cons, List.length_nil]
      omega
    · exact ⟨rest, rfl⟩
  · rintro front rest rfl
    by_contra hrest
    have hrestPos : 0 < rest.length := List.length_pos_iff.mpr hrest
    apply h (front.length + 4) (Nat.succ_pos _)
    · simp only [List.length_append, hlen]
      omega
    · have hdrop : (crlfcrlf ++ (front ++ (crlfcrlf ++ rest))).drop (front.length + 4) =
          crlfcrlf ++ rest := by
        rw [← List.append_assoc]
        exact List.drop_left' (by simp [hlen, Nat.add_comm])
      rw [hdrop]
      exact List.prefix_append _ _

theorem no_cut_of_bodyUnsplit {body : Bytes} (hunsplit : BodyUnsplit body) {p : Nat}
    (hpos : 0 < p) (hlt : p < body.length) : ¬ crlfcrlf <+: (crlfcrlf ++ body).drop p := by
  have hlen : crlfcrlf.length = 4 := by decide
  intro hocc
  rcases Nat.lt_or_ge p 4 with hsmall | hlarge
  · have hcases : p = 1 ∨ p = 2 ∨ p = 3 := by omega
    rcases hcases with rfl | rfl | rfl
    · simp [crlfcrlf, List.cons_prefix_cons, cr, lf] at hocc
    · have hlead : crlf <+: body := by
        simpa [crlfcrlf, crlf, List.cons_prefix_cons] using hocc
      obtain ⟨rest, hrest⟩ := hlead
      have hnil := hunsplit.no_leading rest hrest.symm
      rw [← hrest, hnil] at hlt
      exact absurd hlt (by decide)
    · simp [crlfcrlf, List.cons_prefix_cons, cr, lf] at hocc
  · obtain ⟨q, rfl⟩ := Nat.exists_eq_add_of_le hlarge
    have hinner : crlfcrlf <+: body.drop q := by
      rw [← hlen] at hocc
      simpa using hocc
    obtain ⟨front, rest, hbodyEq, hfront⟩ := (prefix_drop_iff (by omega)).mp hinner
    have hnil := hunsplit.no_inner front rest hbodyEq
    rw [hbodyEq, hnil] at hlt
    simp only [List.append_nil, List.length_append, hlen, hfront] at hlt
    omega

theorem cuts_eq_nil_iff {body : Bytes} {more : List Nat}
    (hmore : ∀ p, p ∈ more ↔
      0 < p ∧ p < body.length ∧ crlfcrlf <+: (crlfcrlf ++ body).drop p) :
    more = [] ↔ BodyUnsplit body := by
  rw [List.eq_nil_iff_forall_not_mem]
  constructor
  · intro hnone
    apply bodyUnsplit_of_no_cut
    intro p hpos hlt hocc
    exact hnone p ((hmore p).mpr ⟨hpos, hlt, hocc⟩)
  · intro hunsplit p hp
    obtain ⟨hpos, hlt, hocc⟩ := (hmore p).mp hp
    exact no_cut_of_bodyUnsplit hunsplit hpos hlt hocc

theorem splitstr_message {head body : Bytes} (hbody : body ≠ [])
    (hfirst : FirstBlankLine head body) :
    ∃ pieces, splitstr [] (head ++ (crlfcrlf ++ body)) crlfcrlf (-1) = head :: pieces ∧
      (pieces.length = 1 ↔ BodyUnsplit body) ∧ pieces.length ≠ 0 ∧
      (pieces.length = 1 → pieces = [body]) := by
  obtain ⟨more, hmore, hcuts⟩ := innerOccurrences_blankLine hbody
  have hunsplit := cuts_eq_nil_iff hcuts
  have hocc := innerOccurrences_append hfirst
  rw [hmore, List.map_cons, Nat.add_zero] at hocc
  rw [splitstr_eq (by decide), List.nil_append, head_pieces (by omega) hocc, List.take_left,
    limit_of_neg (by decide)]
  refine ⟨_, rfl, ?_, ?_, ?_⟩
  · rw [length_cutAt, List.length_map, ← hunsplit]
    simp
  · rw [length_cutAt]
    omega
  · intro hone
    rw [length_cutAt, List.length_map] at hone
    have hnil : more = [] := List.eq_nil_of_length_eq_zero (by omega)
    rw [hnil, List.map_nil, cutAt, ← List.append_assoc]
    exact congrArg (· :: []) (List.drop_left' (by simp))

theorem parseHttpRequest_head {head body : Bytes} (hbody : body ≠ [])
    (hfirst : FirstBlankLine head body) (httpReq : HttpRequest) :
    (parseHttpRequest (head ++ (crlfcrlf ++ body)) httpReq).1 =
        (parseHttpRequestHeader head httpReq.header).1 ∧
      (parseHttpRequest (head ++ (crlfcrlf ++ body)) httpReq).2.header =
        (parseHttpRequestHeader head httpReq.header).2 := by
  obtain ⟨pieces, hsplit, -, -, -⟩ := splitstr_message hbody hfirst
  simp [parseHttpRequest, hsplit]

/-- The body is taken over exactly when the splitter does not cut it. -/
theorem parseHttpRequest_body_iff {head body : Bytes} (hbody : body ≠ [])
    (hfirst : FirstBlankLine head body) (unset : Method) :
    ((parseHttpRequest (head ++ (crlfcrlf ++ body)) (HttpRequest.fresh unset)).2.body = body ∧
      (parseHttpRequest (head ++ (crlfcrlf ++ body)) (HttpRequest.fresh unset)).1 =
        (parseHttpRequestHeader head (HttpRequest.fresh unset).header).1 ∧
      (parseHttpRequest (head ++ (crlfcrlf ++ body)) (HttpRequest.fresh unset)).2.header =
        (parseHttpRequestHeader head (HttpRequest.fresh unset).header).2) ↔
      BodyUnsplit body := by
  obtain ⟨pieces, hsplit, hcount, hsome, hpieces⟩ := splitstr_message hbody hfirst
  rw [and_iff_left (parseHttpRequest_head hbody hfirst (HttpRequest.fresh unset)), ← hcount]
  simp only [parseHttpRequest, hsplit, List.length_cons]
  rcases eq_or_ne pieces.length 1 with hone | hother
  · simp [hpieces hone]
  · have hnot : ¬ pieces.length + 1 = 2 := by omega
    simp [hnot, hother, HttpRequest.fresh, hbody.symm]

def queryHead : Bytes := literal "POST /form HTTP/1.1\r\nHost: ab\r\nAccept: text"

theorem body_taken_over :
    (parseHttpRequest (queryHead ++ (crlfcrlf ++ literal "id=7")) (HttpRequest.fresh .GET)).2.body =
        literal "id=7" ∧
      (parseHttpRequest (queryHead ++ (crlfcrlf ++ literal "id=7")) (HttpRequest.fresh .GET)).1 =
        (parseHttpRequestHeader queryHead (HttpRequest.fresh .GET).header).1 ∧
      (parseHttpRequest (queryHead ++ (crlfcrlf ++ literal "id=7"))
          (HttpRequest.fresh .GET)).2.header =
        (parseHttpRequestHeader queryHead (HttpRequest.fresh .GET).header).2 :=
  (parseHttpRequest_body_iff (by decide) (by decide) .GET).mpr
    (bodyUnsplit_of_cr_not_mem (by decide))

/-- A blank line inside the body, and the body is lost. -/
theorem body_with_blankLine_lost :
    literal "a\r\n\r\nb" ≠ [] ∧ FirstBlankLine queryHead (literal "a\r\n\r\nb") ∧
      (parseHttpRequest (queryHead ++ (crlfcrlf ++ literal "a\r\n\r\nb"))
        (HttpRequest.fresh .GET)).2.body ≠ literal "a\r\n\r\nb" := by
  decide

/-- A head of two lines whose first one has the three parts of a request line. -/
def TwoLineHead (head : Bytes) : Prop :=
  ∃ requestLine headerLine, head = requestLine ++ (crlf ++ headerLine) ∧ headerLine ≠ [] ∧
    ¬ crlf <:+: requestLine ∧ ¬ crlf <:+: headerLine ∧ 2 ≤ requestLine.dropLast.count space

theorem infix_of_prefix_drop {sep s : Bytes} {p : Nat} (h : sep <+: s.drop p) : sep <:+: s :=
  h.isInfix.trans (List.drop_suffix p s).isInfix

/-- A blank line that starts inside the head overlaps the one behind it. -/
theorem firstBlankLine_or_ends {head : Bytes} (hhead : ¬ crlfcrlf <:+: head) (rest : Bytes) :
    (∀ p < head.length, ¬ crlfcrlf <+: (head ++ (crlfcrlf ++ rest)).drop p) ∨
      ∃ front, head = front ++ crlf := by
  have hlen : crlfcrlf.length = 4 := by decide
  rcases Classical.em (∃ front, head = front ++ crlf) with hends | hends
  · exact .inr hends
  · refine .inl fun p hp hocc => ?_
    rw [List.drop_append_of_le_length hp.le] at hocc
    rcases Nat.lt_or_ge (head.length - p) 4 with hshort | hlong
    · have hdrop : (head.drop p).length = head.length - p := List.length_drop
      rcases htail : head.drop p with _ | ⟨a, _ | ⟨b, _ | ⟨c, tail⟩⟩⟩
      · rw [htail, List.length_nil] at hdrop
        omega
      · rw [htail] at hocc
        simp [crlfcrlf, List.cons_prefix_cons, cr, lf] at hocc
      · rw [htail] at hocc
        obtain ⟨rfl, rfl⟩ : cr = a ∧ lf = b := by
          simpa [crlfcrlf, List.cons_prefix_cons] using hocc
        refine hends ⟨head.take p, ?_⟩
        conv_lhs => rw [← List.take_append_drop p head, htail]
        rfl
      · rw [htail] at hocc hdrop
        have hnil : tail = [] := by
          apply List.eq_nil_of_length_eq_zero
          simp only [List.length_cons] at hdrop
          omega
        subst hnil
        simp [crlfcrlf, List.cons_prefix_cons, cr, lf] at hocc
    · have hinside : crlfcrlf <+: head.drop p :=
        List.prefix_of_prefix_length_le hocc (List.prefix_append _ _)
          (by rw [List.length_drop]; omega)
      exact hhead (infix_of_prefix_drop hinside)

theorem parseHttpRequest_outcome {head : Bytes} (hhead : ¬ crlfcrlf <:+: head)
    (hends : ¬ ∃ front, head = front ++ crlf) (body : Bytes) (httpReq : HttpRequest) :
    (parseHttpRequest (head ++ (crlfcrlf ++ body)) httpReq).1 =
        (parseHttpRequestHeader (if body = [] then head ++ crlfcrlf else head)
          httpReq.header).1 ∧
      (parseHttpRequest (head ++ (crlfcrlf ++ body)) httpReq).2.header =
        (parseHttpRequestHeader (if body = [] then head ++ crlfcrlf else head)
          httpReq.header).2 := by
  have hfirst := (firstBlankLine_or_ends hhead body).resolve_right hends
  split
  · rename_i hnil
    subst hnil
    rw [List.append_nil] at hfirst ⊢
    have hone : splitstr [] (head ++ crlfcrlf) crlfcrlf (-1) = [head ++ crlfcrlf] := by
      rw [splitstr_eq (by decide), List.nil_append]
      apply pieces_of_innerOccurrences_eq_nil
      rw [innerOccurrences_eq_nil_iff]
      intro p hp
      rw [List.length_append] at hp
      exact hfirst p (by omega)
    simp [parseHttpRequest, hone]
  · rename_i hbody
    exact parseHttpRequest_head hbody hfirst httpReq

theorem parseHttpRequest_outcome_of_ends {front : Bytes}
    (hhead : ¬ crlfcrlf <:+: front ++ crlf) (body : Bytes) (httpReq : HttpRequest) :
    (parseHttpRequest (front ++ crlf ++ (crlfcrlf ++ body)) httpReq).1 =
        (parseHttpRequestHeader front httpReq.header).1 ∧
      (parseHttpRequest (front ++ crlf ++ (crlfcrlf ++ body)) httpReq).2.header =
        (parseHttpRequestHeader front httpReq.header).2 := by
  have hfront : ¬ crlfcrlf <:+: front := fun h =>
    hhead (h.trans (List.prefix_append _ _).isInfix)
  have hends : ¬ ∃ start, front = start ++ crlf := by
    rintro ⟨start, rfl⟩
    refine hhead ⟨start, [], ?_⟩
    rw [List.append_nil, List.append_assoc]
    rfl
  have hshift : front ++ crlf ++ (crlfcrlf ++ body) = front ++ (crlfcrlf ++ (crlf ++ body)) := by
    simp [crlf, crlfcrlf]
  rw [hshift]
  exact parseHttpRequest_head (by simp [crlf])
    ((firstBlankLine_or_ends hfront (crlf ++ body)).resolve_right hends) httpReq

theorem crlf_prefix_drop {a rest : Bytes} {q : Nat} (hq : q < a.length)
    (hocc : crlf <+: (a ++ (crlf ++ rest)).drop q) : crlf <+: a.drop q := by
  rw [List.drop_append_of_le_length hq.le] at hocc
  have hdrop : (a.drop q).length = a.length - q := List.length_drop
  rcases htail : a.drop q with _ | ⟨b, _ | ⟨c, tail⟩⟩
  · rw [htail, List.length_nil] at hdrop
    omega
  · rw [htail] at hocc
    simp [crlf, List.cons_prefix_cons, cr, lf] at hocc
  · rw [htail] at hocc
    simpa [crlf, List.cons_prefix_cons] using hocc

theorem pieces_crlf_blankLine {head : Bytes} (hends : ¬ ∃ front, head = front ++ crlf) :
    pieces crlf (-1) (head ++ crlfcrlf) = pieces crlf (-1) head ++ [crlf] := by
  induction hlen : head.length using Nat.strong_induction_on generalizing head with
  | h n ih =>
      have hunlimited : spend (-1) = -1 := by decide
      have hblank : crlfcrlf = crlf ++ crlf := rfl
      have hcrlf : pieces crlf (-1) crlf = [crlf] := by decide
      rcases hocc : innerOccurrences crlf head with _ | ⟨p, ps⟩
      · have hnone := innerOccurrences_eq_nil_iff.mp hocc
        have hfirst : ∀ q < head.length, ¬ crlf <+: (head ++ (crlf ++ crlf)).drop q := by
          intro q hq hqocc
          obtain ⟨front, rest, hhead, hfront⟩ :=
            (prefix_drop_iff hq.le).mp (crlf_prefix_drop hq hqocc)
          rcases eq_or_ne rest [] with rfl | hrest
          · exact hends ⟨front, by simpa using hhead⟩
          · have hrestPos : 0 < rest.length := List.length_pos_iff.mpr hrest
            refine hnone q ?_ (crlf_prefix_drop hq hqocc)
            have hlenEq := congrArg List.length hhead
            simp only [List.length_append] at hlenEq
            omega
        rw [hblank, pieces_append borderless_crlf (by decide) (by decide) (by omega) hfirst,
          pieces_of_innerOccurrences_eq_nil _ hocc, hunlimited, hcrlf]
        rfl
      · obtain ⟨front, rest, rfl, hrest, hfirst⟩ := exists_first_cut hocc
        have hfirst' : ∀ q < front.length,
            ¬ crlf <+: (front ++ (crlf ++ (rest ++ crlfcrlf))).drop q := by
          intro q hq hqocc
          have hassoc : front ++ (crlf ++ (rest ++ crlfcrlf)) =
              (front ++ (crlf ++ rest)) ++ crlfcrlf := by simp
          have hcrlfLen : crlf.length = 2 := by decide
          rw [hassoc, List.drop_append_of_le_length (by simp; omega)] at hqocc
          refine hfirst q hq (List.prefix_of_prefix_length_le hqocc (List.prefix_append _ _) ?_)
          simp only [List.length_drop, List.length_append, hcrlfLen]
          omega
        have hrestEnds : ¬ ∃ start, rest = start ++ crlf := by
          rintro ⟨start, rfl⟩
          exact hends ⟨front ++ (crlf ++ start), by simp⟩
        have hshorter : rest.length < n := by
          rw [← hlen]
          simp [crlf]
          omega
        have hassoc : front ++ (crlf ++ rest) ++ crlfcrlf =
            front ++ (crlf ++ (rest ++ crlfcrlf)) := by simp
        rw [hassoc, pieces_append borderless_crlf (by decide) (by simp [hrest]) (by omega) hfirst',
          pieces_append borderless_crlf (by decide) hrest (by omega) hfirst, hunlimited,
          ih rest.length hshorter hrestEnds rfl]
        rfl

theorem length_innerOccurrences_char (c : UInt8) (s : Bytes) :
    (innerOccurrences [c] s).length = s.dropLast.count c := by
  have hprefix : ∀ n ≤ s.length,
      ((List.range n).filter fun p => decide ([c] <+: s.drop p)).length = (s.take n).count c := by
    intro n hn
    induction n with
    | zero => simp
    | succ n ih =>
        have hlt : n < s.length := hn
        rw [List.range_succ, List.filter_append, List.length_append, ih hlt.le,
          List.take_succ_eq_append_getElem hlt, List.count_append]
        congr 1
        have hhere : [c] <+: s.drop n ↔ c = s[n] := by
          rw [List.drop_eq_getElem_cons hlt, List.cons_prefix_cons]
          simp
        rcases eq_or_ne c s[n] with heq | hne
        · simp [hhere, ← heq]
        · simp [hhere, hne, hne.symm]
  rw [List.dropLast_eq_take]
  exact hprefix (s.length - 1) (by omega)

theorem TwoLineHead.pieces_eq {head : Bytes} (h : TwoLineHead head) :
    ∃ requestLine headerLine, pieces crlf (-1) head = [requestLine, headerLine] ∧
      2 ≤ requestLine.dropLast.count space := by
  obtain ⟨requestLine, headerLine, rfl, hne, hrequest, hheader, hcount⟩ := h
  have hfirst : ∀ q < requestLine.length,
      ¬ crlf <+: (requestLine ++ (crlf ++ headerLine)).drop q := fun q hq hocc =>
    hrequest (infix_of_prefix_drop (crlf_prefix_drop hq hocc))
  have hnone : innerOccurrences crlf headerLine = [] := by
    rw [innerOccurrences_eq_nil_iff]
    exact fun p _ hocc => hheader (infix_of_prefix_drop hocc)
  refine ⟨requestLine, headerLine, ?_, hcount⟩
  rw [pieces_append borderless_crlf (by decide) hne (by omega) hfirst,
    pieces_of_innerOccurrences_eq_nil _ hnone]

theorem TwoLineHead.not_ends {head : Bytes} (h : TwoLineHead head) :
    ¬ ∃ front, head = front ++ crlf := by
  rintro ⟨front, hfront⟩
  obtain ⟨requestLine, headerLine, heq, hne, -, hheader, -⟩ := h
  have hends : crlf <:+ head := ⟨front, hfront.symm⟩
  have hlast : headerLine <:+ head := ⟨requestLine ++ crlf, by rw [heq, List.append_assoc]⟩
  rcases List.suffix_or_suffix_of_suffix hends hlast with hlong | hshort
  · exact hheader hlong.isInfix
  · rcases List.suffix_cons_iff.mp hshort with hwhole | htail
    · exact hheader (hwhole ▸ List.infix_rfl)
    · rcases List.suffix_cons_iff.mp htail with rfl | hnil
      · have hreverse := congrArg List.reverse (heq.symm.trans hfront)
        simp [crlf, cr, lf] at hreverse
      · exact hne (List.suffix_nil.mp hnil)

theorem twoLineHead_of_pieces {head requestLine headerLine : Bytes}
    (hends : ¬ ∃ front, head = front ++ crlf)
    (hpieces : pieces crlf (-1) head = [requestLine, headerLine])
    (hcount : 2 ≤ requestLine.dropLast.count space) : TwoLineHead head := by
  have hlen := length_pieces_of_neg crlf head (show (-1 : Int) < 0 by omega)
  rw [hpieces] at hlen
  rcases hocc : innerOccurrences crlf head with _ | ⟨p, ps⟩
  · simp [hocc] at hlen
  · obtain ⟨front, rest, rfl, hrest, hfirst⟩ := exists_first_cut hocc
    rw [pieces_append borderless_crlf (by decide) hrest (by omega) hfirst] at hpieces
    obtain ⟨rfl, hrestPieces⟩ := List.cons.inj hpieces
    have hspent : spend (-1) = -1 := by decide
    have hrestLen := length_pieces_of_neg crlf rest (show (-1 : Int) < 0 by omega)
    rw [hspent] at hrestPieces
    rw [hrestPieces] at hrestLen
    have hnone : innerOccurrences crlf rest = [] :=
      List.eq_nil_of_length_eq_zero (by simpa using hrestLen.symm)
    rw [innerOccurrences_eq_nil_iff] at hnone
    refine ⟨front, rest, rfl, hrest, ?_, ?_, hcount⟩
    · rintro ⟨u, v, huv⟩
      have hu : u.length < front.length := by
        rw [← huv]
        simp [crlf]
      refine hfirst u.length hu ⟨v ++ (crlf ++ rest), ?_⟩
      rw [← huv]
      simp
    · rintro ⟨u, v, huv⟩
      rcases eq_or_ne v [] with rfl | hv
      · exact hends ⟨front ++ (crlf ++ u), by simp [← huv]⟩
      · have hvPos : 0 < v.length := List.length_pos_iff.mpr hv
        refine hnone u.length ?_ ⟨v, ?_⟩
        · rw [← huv]
          simp only [List.length_append]
          omega
        · rw [← huv]
          simp

theorem splitstr_crlf (s : Bytes) : splitstr [] s crlf (-1) = pieces crlf (-1) s := by
  rw [splitstr_eq (by decide), List.nil_append]

theorem splitstr_intercalate {lines : List Bytes} (hne : lines ≠ [])
    (hfree : ∀ line ∈ lines, cr ∉ line) (hlast : lines.getLast hne ≠ []) :
    splitstr [] (crlf.intercalate lines) crlf (-1) = lines := by
  rcases List.eq_nil_or_concat' lines with rfl | ⟨init, last, rfl⟩
  · exact absurd rfl hne
  · rw [List.getLast_concat] at hlast
    have hinit : ∀ line ∈ init, cr ∉ line := fun line hline =>
      hfree line (List.mem_append_left _ hline)
    have hnone : innerOccurrences crlf last = [] :=
      innerOccurrences_eq_nil_of_head_not_mem (hfree last (by simp))
    rw [← closeLines_eq_intercalate, splitstr_crlf, pieces_closeLines hinit hlast,
      pieces_of_innerOccurrences_eq_nil _ hnone]

theorem method_of_parsed {strHead : Bytes} {header : Header} {requestLine : Bytes}
    {lines : List Bytes} (hlines : splitstr [] strHead crlf (-1) = requestLine :: lines)
    (hcount : 2 ≤ lines.length) (hinfo : 3 ≤ (splitstr [] requestLine [space] (-1)).length) :
    (parseHttpRequestHeader strHead header).2.method =
      parseMethod ((splitstr [] requestLine [space] (-1)).getD 0 []) := by
  have hlinesLen : ¬ (requestLine :: lines).length < 3 := by
    simp only [List.length_cons]
    omega
  simp only [parseHttpRequestHeader, hlines, if_neg hlinesLen, List.getD_cons_zero,
    if_neg (show ¬ (splitstr [] requestLine [space] (-1)).length < 3 by omega)]
  split
  · rfl
  · split <;> split <;> rfl

theorem parseHttpRequestHeader_congr {s t requestLine : Bytes} {lines lines' : List Bytes}
    (header : Header) (hs : splitstr [] s crlf (-1) = requestLine :: lines)
    (ht : splitstr [] t crlf (-1) = requestLine :: lines')
    (hlen : lines.length < 2 ↔ lines'.length < 2)
    (hhost : (parseHeaderLines lines []).map (List.lookup (literal "Host")) =
      (parseHeaderLines lines' []).map (List.lookup (literal "Host"))) :
    parseHttpRequestHeader s header = parseHttpRequestHeader t header := by
  have hcount : (requestLine :: lines).length < 3 ↔ (requestLine :: lines').length < 3 := by
    simp only [List.length_cons]
    omega
  simp only [parseHttpRequestHeader, hs, ht, hcount, List.getD_cons_zero, List.drop_succ_cons,
    List.drop_zero]
  rcases hparse : parseHeaderLines lines [] with _ | mapHeader <;>
    rcases hparse' : parseHeaderLines lines' [] with _ | mapHeader'
  · rfl
  · simp [hparse, hparse'] at hhost
  · simp [hparse, hparse'] at hhost
  · have hlookup : mapHeader.lookup (literal "Host") = mapHeader'.lookup (literal "Host") := by
      simpa [hparse, hparse'] using hhost
    simp only [hlookup]

/-- One more blank line changes what the header parser does only on a head of
two lines. -/
theorem parseHttpRequestHeader_blankLine_iff {head : Bytes}
    (hends : ¬ ∃ front, head = front ++ crlf) :
    (∀ unset, parseHttpRequestHeader (head ++ crlfcrlf) (HttpRequest.fresh unset).header =
      parseHttpRequestHeader head (HttpRequest.fresh unset).header) ↔ ¬ TwoLineHead head := by
  have hmore : splitstr [] (head ++ crlfcrlf) crlf (-1) =
      splitstr [] head crlf (-1) ++ [crlf] := by
    rw [splitstr_crlf, splitstr_crlf, pieces_crlf_blankLine hends]
  constructor
  · intro hsame htwo
    obtain ⟨requestLine, headerLine, hpieces, hcount⟩ := htwo.pieces_eq
    rw [← splitstr_crlf] at hpieces
    rw [hpieces] at hmore
    have hinfo : 3 ≤ (splitstr [] requestLine [space] (-1)).length := by
      rw [splitstr_char, length_pieces_of_neg _ _ (by omega), length_innerOccurrences_char]
      omega
    have hset := @method_of_parsed _ (HttpRequest.fresh .GET).header _ _ hmore (by simp) hinfo
    have hset' := @method_of_parsed _ (HttpRequest.fresh .POST).header _ _ hmore (by simp) hinfo
    have hshort : ∀ header, parseHttpRequestHeader head header = (false, header) := by
      intro header
      simp [parseHttpRequestHeader, hpieces]
    rw [hsame, hshort] at hset hset'
    have hclash : Method.GET = Method.POST := hset.trans hset'.symm
    exact absurd hclash (by decide)
  · intro htwo unset
    rcases hlines : splitstr [] head crlf (-1) with
      _ | ⟨requestLine, _ | ⟨line, _ | ⟨line', lines⟩⟩⟩
    · simp [parseHttpRequestHeader, hmore, hlines]
    · simp [parseHttpRequestHeader, hmore, hlines]
    · have hfew : (splitstr [] requestLine [space] (-1)).length < 3 := by
        rw [splitstr_char, length_pieces_of_neg _ _ (by omega), length_innerOccurrences_char]
        by_contra hmany
        rw [splitstr_crlf] at hlines
        exact htwo (twoLineHead_of_pieces hends hlines (by omega))
      simp [parseHttpRequestHeader, hmore, hlines, hfew]
    · rw [hlines, List.cons_append] at hmore
      have hlen : (line :: line' :: lines ++ [crlf]).length < 2 ↔
          (line :: line' :: lines).length < 2 := by
        simp only [List.length_append, List.length_cons]
        omega
      exact parseHttpRequestHeader_congr _ hmore hlines hlen
        (congrArg _ (parseHeaderLines_append_crlf (line :: line' :: lines) []))

/-- Two bodies leave the same header exactly when both are empty, neither is,
or the head is not of the two-line kind. -/
theorem parseHttpRequest_header_eq_iff {head : Bytes} (hhead : ¬ crlfcrlf <:+: head)
    (body₁ body₂ : Bytes) :
    (∀ unset,
      (parseHttpRequest (head ++ (crlfcrlf ++ body₁)) (HttpRequest.fresh unset)).1 =
          (parseHttpRequest (head ++ (crlfcrlf ++ body₂)) (HttpRequest.fresh unset)).1 ∧
        (parseHttpRequest (head ++ (crlfcrlf ++ body₁)) (HttpRequest.fresh unset)).2.header =
          (parseHttpRequest (head ++ (crlfcrlf ++ body₂)) (HttpRequest.fresh unset)).2.header) ↔
      ((body₁ = [] ↔ body₂ = []) ∨ ¬ TwoLineHead head) := by
  rcases Classical.em (∃ front, head = front ++ crlf) with ⟨front, rfl⟩ | hends
  · refine iff_of_true (fun unset => ?_) (.inr fun htwo => htwo.not_ends ⟨front, rfl⟩)
    have hone := parseHttpRequest_outcome_of_ends hhead body₁ (HttpRequest.fresh unset)
    have htwo := parseHttpRequest_outcome_of_ends hhead body₂ (HttpRequest.fresh unset)
    exact ⟨hone.1.trans htwo.1.symm, hone.2.trans htwo.2.symm⟩
  · have hblank := parseHttpRequestHeader_blankLine_iff hends
    simp only [parseHttpRequest_outcome hhead hends, ← Prod.ext_iff]
    rcases eq_or_ne body₁ [] with hnil₁ | hne₁ <;> rcases eq_or_ne body₂ [] with hnil₂ | hne₂
    · simp [hnil₁, hnil₂]
    · simpa [hnil₁, hne₂] using hblank
    · simpa [hne₁, hnil₂, eq_comm] using hblank
    · simp [hne₁, hne₂]

def formHead : Bytes := literal "POST /form HTTP/1.1\r\nHost: ab"

theorem header_same_on_formHead :
    (parseHttpRequest (formHead ++ (crlfcrlf ++ literal "id=7")) (HttpRequest.fresh .GET)).1 =
        (parseHttpRequest (formHead ++ (crlfcrlf ++ literal "id=8")) (HttpRequest.fresh .GET)).1 ∧
      (parseHttpRequest (formHead ++ (crlfcrlf ++ literal "id=7"))
          (HttpRequest.fresh .GET)).2.header =
        (parseHttpRequest (formHead ++ (crlfcrlf ++ literal "id=8"))
          (HttpRequest.fresh .GET)).2.header :=
  (parseHttpRequest_header_eq_iff (by decide) (literal "id=7") (literal "id=8")).mpr
    (.inl (by decide)) .GET

/-- With one header line the request is accepted without a body and rejected
with one. -/
theorem header_differs_on_formHead :
    ¬ crlfcrlf <:+: formHead ∧ ¬ crlf <:+: ([] : Bytes) ∧ ¬ crlf <:+: literal "id=7" ∧
      (parseHttpRequest (formHead ++ (crlfcrlf ++ [])) (HttpRequest.fresh .GET)).1 = true ∧
      (parseHttpRequest (formHead ++ (crlfcrlf ++ literal "id=7"))
        (HttpRequest.fresh .GET)).1 = false := by
  decide

end StudyLinuxKernel.Http.HeadBody
