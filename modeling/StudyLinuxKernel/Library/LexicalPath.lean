import Mathlib.Algebra.BigOperators.Group.List.Basic
import Mathlib.Algebra.Order.Ring.Int
import StudyLinuxKernel.Library.PartialStep

namespace StudyLinuxKernel.Library.LexicalPath

open StudyLinuxKernel.Library.PartialStep

variable {α : Type*}

inductive Component (α : Type*) where
  | name (a : α)
  | up
  | stay

/-- The names are on the stack with the last one first; `none` is above of
where the path begins. -/
def move (stack : List α) : Component α → Option (List α)
  | .name a => some (a :: stack)
  | .up =>
      match stack with
      | [] => none
      | _ :: below => some below
  | .stay => some stack

def rise : Component α → Int
  | .name _ => 1
  | .up => -1
  | .stay => 0

def depth (path : List (Component α)) : Int := (path.map rise).sum

/-- The path never goes up more often than it went down. -/
def Low (path : List (Component α)) : Prop :=
  ∀ walked, walked <+: path → 0 ≤ depth walked

/-- The path ends in the directory or below it. -/
def Inside (dir : List α) (path : List (Component α)) : Prop :=
  ∃ below, run move [] path = some (below ++ dir.reverse)

/-- The path goes through the names of the directory one behind the other.  In
front of each of them it comes back to where it was, and from the last one on it
stays low. -/
def Enters : List α → List (Component α) → Prop
  | [], path => Low path
  | a :: dir, path => ∃ before after, path = before ++ .name a :: after ∧
      Low before ∧ depth before = 0 ∧ Enters dir after

/-- The path comes back to where it began and then goes up, with `Q` behind that step. -/
def Leaves (Q : List (Component α) → Prop) (path : List (Component α)) : Prop :=
  ∃ before after, path = before ++ .up :: after ∧ Low before ∧ depth before = 0 ∧ Q after

/-- A path that begins below the names `stack` and is to end in `down` below them:
it goes there, or it leaves the last of the names, which then is one more to go
through. -/
def Returns : List α → List α → List (Component α) → Prop
  | [], down, path => Enters down path
  | a :: stack, down, path => Enters down path ∨ Leaves (Returns stack (a :: down)) path

theorem depth_cons (c : Component α) (path : List (Component α)) :
    depth (c :: path) = rise c + depth path := by
  rw [depth, List.map_cons, List.sum_cons]
  rfl

theorem depth_append (path path' : List (Component α)) :
    depth (path ++ path') = depth path + depth path' := by
  rw [depth, List.map_append, List.sum_append]
  rfl

theorem length_move {stack stack' : List α} {c : Component α} (h : move stack c = some stack') :
    (stack'.length : Int) = stack.length + rise c := by
  cases c with
  | name a =>
      obtain rfl := Option.some.inj h
      rfl
  | up =>
      cases stack with
      | nil => cases h
      | cons a below =>
          obtain rfl := Option.some.inj h
          simp [rise]
  | stay =>
      obtain rfl := Option.some.inj h
      exact (add_zero _).symm

theorem length_run {path : List (Component α)} {stack stack' : List α}
    (h : run move stack path = some stack') :
    (stack'.length : Int) = stack.length + depth path := by
  induction path generalizing stack with
  | nil =>
      obtain rfl := Option.some.inj h
      exact (add_zero _).symm
  | cons c path ih =>
      rcases Option.bind_eq_some_iff.mp h with ⟨next, hmove, hrun⟩
      rw [ih hrun, length_move hmove, depth_cons, add_assoc]

theorem low_of_run {path : List (Component α)} {stack : List α}
    (h : run move [] path = some stack) : Low path := by
  rintro walked ⟨rest, rfl⟩
  rw [run_append] at h
  rcases Option.bind_eq_some_iff.mp h with ⟨next, hwalked, _⟩
  have hlength := length_run hwalked
  rw [List.length_nil, Nat.cast_zero, zero_add] at hlength
  rw [← hlength]
  exact Int.natCast_nonneg _

theorem run_above {path : List (Component α)} {top : List α}
    (h : ∀ walked, walked <+: path → 0 ≤ (top.length : Int) + depth walked) :
    ∃ top', ∀ base, run move (top ++ base) path = some (top' ++ base) := by
  induction path generalizing top with
  | nil => exact ⟨top, fun _ => rfl⟩
  | cons c path ih =>
      obtain ⟨next, hnext⟩ : ∃ next, ∀ base, move (top ++ base) c = some (next ++ base) := by
        cases c with
        | name a => exact ⟨a :: top, fun _ => rfl⟩
        | up =>
            cases top with
            | nil => exact absurd (h [.up] (List.prefix_append [.up] path)) (by simp [depth, rise])
            | cons a below => exact ⟨below, fun _ => rfl⟩
        | stay => exact ⟨top, fun _ => rfl⟩
      have hlength := length_move (hnext [])
      rw [List.append_nil, List.append_nil] at hlength
      obtain ⟨top', htop'⟩ := @ih next fun walked hwalked => by
        rw [hlength, add_assoc, ← depth_cons]
        exact h (c :: walked) (List.cons_prefix_cons.mpr ⟨rfl, hwalked⟩)
      refine ⟨top', fun base => ?_⟩
      rw [run_cons, hnext base]
      exact htop' base

theorem Low.run {path : List (Component α)} (h : Low path) :
    ∃ top, ∀ base, run move base path = some (top ++ base) :=
  @run_above α path [] fun walked hwalked => by
    rw [List.length_nil, Nat.cast_zero, zero_add]
    exact h walked hwalked

theorem depth_singleton (c : Component α) : depth [c] = rise c :=
  (depth_cons c []).trans (add_zero _)

theorem Low.concat {path : List (Component α)} {c : Component α} (h : Low path)
    (hend : 0 ≤ depth path + rise c) : Low (path ++ [c]) := by
  intro walked hwalked
  rcases List.prefix_concat_iff.mp hwalked with rfl | hbefore
  · rw [depth_append, depth_singleton]
    exact hend
  · exact h walked hbefore

theorem low_nil : Low ([] : List (Component α)) := by
  intro walked hwalked
  rw [List.prefix_nil.mp hwalked]
  exact le_refl 0

/-- A name on the stack was put there by a step behind which the path stayed
low; what is above it on the stack came later. -/
theorem last_entry {path : List (Component α)} :
    ∀ {top : List α} {a : α} {base : List α}, run move [] path = some (top ++ a :: base) →
      ∃ before after, path = before ++ .name a :: after ∧ run move [] before = some base ∧
        Low after ∧ depth after = top.length := by
  induction path using List.reverseRecOn with
  | nil =>
      intro top a base h
      exact absurd (Option.some.inj h).symm (List.append_ne_nil_of_right_ne_nil top (by simp))
  | append_singleton path c ih =>
      intro top a base h
      rcases run_concat_eq_some.mp h with ⟨stack, hrun, hmove⟩
      cases c with
      | name b =>
          cases top with
          | nil =>
              rcases List.cons.inj (Option.some.inj hmove) with ⟨rfl, rfl⟩
              exact ⟨path, [], rfl, hrun, low_nil, rfl⟩
          | cons t top =>
              rcases List.cons.inj (Option.some.inj hmove) with ⟨rfl, rfl⟩
              rcases ih hrun with ⟨before, after, rfl, hbefore, hlow, hdepth⟩
              have hend : 0 ≤ depth after + rise (.name b) := by
                rw [hdepth]
                exact Int.natCast_nonneg (top.length + 1)
              refine ⟨before, after ++ [.name b], by simp, hbefore, hlow.concat hend, ?_⟩
              rw [depth_append, depth_singleton, hdepth]
              rfl
      | up =>
          cases stack with
          | nil => cases hmove
          | cons t below =>
              obtain rfl := Option.some.inj hmove
              rcases @ih (t :: top) a base hrun with ⟨before, after, rfl, hbefore, hlow, hdepth⟩
              have hlength : depth after + rise (.up : Component α) = top.length := by
                rw [hdepth, List.length_cons, Nat.cast_succ]
                exact add_neg_cancel_right _ _
              refine ⟨before, after ++ [.up], by simp, hbefore, hlow.concat ?_, ?_⟩
              · rw [hlength]
                exact Int.natCast_nonneg _
              · rw [depth_append, depth_singleton, hlength]
      | stay =>
          obtain rfl := Option.some.inj hmove
          rcases ih hrun with ⟨before, after, rfl, hbefore, hlow, hdepth⟩
          refine ⟨before, after ++ [.stay], by simp, hbefore, hlow.concat ?_, ?_⟩
          · rw [hdepth]
            exact Int.natCast_nonneg _
          · rw [depth_append, depth_singleton, hdepth]
            exact add_zero _

theorem run_of_level {path : List (Component α)} (hlow : Low path) (hdepth : depth path = 0)
    (stack : List α) : run move stack path = some stack := by
  rcases Low.run hlow with ⟨top, htop⟩
  have hlength := length_run (htop [])
  rw [hdepth, List.append_nil, List.length_nil, Nat.cast_zero, add_zero,
    Int.natCast_eq_zero] at hlength
  rw [htop stack, List.length_eq_zero_iff.mp hlength, List.nil_append]

theorem inside_iff_enters (dir : List α) (path : List (Component α)) :
    Inside dir path ↔ Enters dir path := by
  induction dir generalizing path with
  | nil =>
      constructor
      · rintro ⟨below, hrun⟩
        exact low_of_run hrun
      · intro hlow
        rcases Low.run hlow with ⟨top, htop⟩
        exact ⟨top, htop []⟩
  | cons a dir ih =>
      constructor
      · rintro ⟨below, hrun⟩
        rw [List.reverse_cons, ← List.append_assoc] at hrun
        rcases last_entry hrun with ⟨before, after, rfl, hbefore, hlow, _⟩
        have hdepth := length_run hbefore
        rw [List.length_nil, Nat.cast_zero, zero_add] at hdepth
        refine ⟨before, after, rfl, low_of_run hbefore, hdepth.symm, (ih after).mp ⟨below, ?_⟩⟩
        rcases Low.run hlow with ⟨top, htop⟩
        rw [run_append, hbefore] at hrun
        have hsame := Option.some.inj ((htop [a]).symm.trans hrun)
        rw [List.append_cancel_right hsame] at htop
        rw [htop [], List.append_nil]
      · rintro ⟨before, after, rfl, hlow, hdepth, henters⟩
        rcases (ih after).mpr henters with ⟨below, hbelow⟩
        rcases Low.run (low_of_run hbelow) with ⟨top', htop'⟩
        have hsame := Option.some.inj ((htop' []).symm.trans hbelow)
        rw [List.append_nil] at hsame
        refine ⟨below, ?_⟩
        rw [run_append, run_of_level hlow hdepth]
        change run move [a] after = _
        rw [htop' [a], hsame, List.reverse_cons, List.append_assoc]

theorem leaves_of_not_low {path : List (Component α)} (h : ¬ Low path) :
    Leaves (fun _ => True) path := by
  induction path using List.reverseRecOn with
  | nil => exact absurd low_nil h
  | append_singleton path c ih =>
      rcases Classical.em (Low path) with hlow | hlow
      · have hend : depth path + rise c < 0 := by
          by_contra hend
          exact h (hlow.concat (not_lt.mp hend))
        have hpath := hlow path List.prefix_rfl
        cases c with
        | name a =>
            change depth path + 1 < 0 at hend
            omega
        | up =>
            change depth path + -1 < 0 at hend
            exact ⟨path, [], rfl, hlow, by omega, trivial⟩
        | stay =>
            change depth path + 0 < 0 at hend
            omega
      · rcases ih hlow with ⟨before, after, rfl, hbefore, hdepth, _⟩
        exact ⟨before, after ++ [c], by simp, hbefore, hdepth, trivial⟩

theorem Leaves.not_low {Q : List (Component α) → Prop} {path : List (Component α)}
    (h : Leaves Q path) : ¬ Low path := by
  rintro hlow
  rcases h with ⟨before, after, rfl, _, hdepth, _⟩
  have hup := hlow (before ++ [.up]) (by simp)
  rw [depth_append, depth_singleton, hdepth] at hup
  change (0 : Int) ≤ 0 + -1 at hup
  omega

theorem Enters.low {down : List α} {path : List (Component α)} (h : Enters down path) :
    Low path := by
  rcases (inside_iff_enters down path).mpr h with ⟨_, hrun⟩
  exact low_of_run hrun

theorem leaves_run_iff {a : α} {stack : List α} {path : List (Component α)}
    {P : Option (List α) → Prop} (h : ¬ Low path) :
    P (run move (a :: stack) path) ↔ Leaves (fun after => P (run move stack after)) path := by
  have hstep : ∀ {before after}, Low before → depth before = 0 →
      run move (a :: stack) (before ++ .up :: after) = run move stack after := by
    intro before after hlow hdepth
    rw [run_append, run_of_level hlow hdepth]
    rfl
  constructor
  · intro hP
    rcases leaves_of_not_low h with ⟨before, after, rfl, hlow, hdepth, _⟩
    rw [hstep hlow hdepth] at hP
    exact ⟨before, after, rfl, hlow, hdepth, hP⟩
  · rintro ⟨before, after, rfl, hlow, hdepth, hP⟩
    rw [hstep hlow hdepth]
    exact hP

theorem leaves_congr {P Q : List (Component α) → Prop} (h : ∀ path, P path ↔ Q path)
    (path : List (Component α)) : Leaves P path ↔ Leaves Q path := by
  have hsame : P = Q := funext fun path => propext (h path)
  rw [hsame]

theorem inside_iff_returns (stack : List α) :
    ∀ (down : List α) (path : List (Component α)),
      (∃ below, run move stack path = some (below ++ (down.reverse ++ stack))) ↔
        Returns stack down path := by
  induction stack with
  | nil =>
      intro down path
      rw [List.append_nil]
      exact inside_iff_enters down path
  | cons a stack ih =>
      intro down path
      rw [Returns]
      rcases Classical.em (Low path) with hlow | hlow
      · rcases Low.run hlow with ⟨top, htop⟩
        have hroot := htop []
        rw [List.append_nil] at hroot
        rw [or_iff_left fun hleaves => hleaves.not_low hlow, ← inside_iff_enters, htop, Inside,
          hroot]
        refine exists_congr fun below => ?_
        rw [Option.some_inj, Option.some_inj, ← List.append_assoc]
        exact ⟨List.append_cancel_right, congrArg (· ++ a :: stack)⟩
      · have hshift : down.reverse ++ a :: stack = (a :: down).reverse ++ stack := by simp
        rw [or_iff_right fun henters => hlow henters.low, hshift, ← leaves_congr (ih (a :: down))]
        exact @leaves_run_iff _ a stack path
          (fun reached => ∃ below, reached = some (below ++ ((a :: down).reverse ++ stack))) hlow

theorem beside_iff_leaves {a b : α} (hne : a ≠ b) (stack : List α) (path : List (Component α)) :
    (∃ below, run move (a :: stack) path = some (below ++ b :: stack)) ↔
      Leaves (Returns stack [b]) path := by
  rcases Classical.em (Low path) with hlow | hlow
  · refine iff_of_false ?_ fun hleaves => hleaves.not_low hlow
    rintro ⟨below, hrun⟩
    rcases Low.run hlow with ⟨top, htop⟩
    have hends := Option.some.inj ((htop (a :: stack)).symm.trans hrun)
    exact hne (List.cons.inj (List.append_inj_right' hends rfl)).1
  · rw [← leaves_congr (inside_iff_returns stack [b])]
    exact @leaves_run_iff _ a stack path
      (fun reached => ∃ below, reached = some (below ++ b :: stack)) hlow

end StudyLinuxKernel.Library.LexicalPath
