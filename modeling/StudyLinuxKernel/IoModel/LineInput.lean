import StudyLinuxKernel.Libc.Text

namespace StudyLinuxKernel.IoModel.LineInput

open StudyLinuxKernel.Libc.Text

def messageSize : Nat := 1024

/-- The terminal hands out its input by lines, and an empty line is the end of the
input.  `typed` has all lines, and the first `early` of them came before O_ASYNC. -/
structure Terminal where
  input : List Bytes
  typed : List Bytes
  early : Nat
  async : Bool

def Terminal.start : Terminal := { input := [], typed := [], early := 0, async := false }

def Terminal.enter (t : Terminal) (line : Bytes) : Terminal where
  input := t.input ++ [line]
  typed := t.typed ++ [line]
  early := if t.async then t.early else t.early + 1
  async := t.async

/-- `read` of a terminal that does not block; a long line stays there in part. -/
def Terminal.read (t : Terminal) : Option (Bytes × Terminal) :=
  match t.input with
  | [] => none
  | line :: rest => some (line.take messageSize, { t with
      input := if messageSize < line.length then line.drop messageSize :: rest else rest })

def Terminal.Fits (t : Terminal) : Prop := ∀ line ∈ t.typed, line.length ≤ messageSize

theorem Terminal.Fits.before {t : Terminal} {line : Bytes} (h : (t.enter line).Fits) : t.Fits :=
  fun other hother => h other (List.mem_append_left _ hother)

theorem Terminal.length_enter (t : Terminal) (line : Bytes) :
    (t.enter line).input.length = t.input.length + 1 :=
  List.length_append

/-- What was read is the beginning of what was typed, by whole lines where they fit
into `msg`. -/
structure Terminal.Serves (t : Terminal) (message : Bytes) : Prop where
  bytes : message ++ t.input.flatten = t.typed.flatten
  lines : t.Fits → ∃ served, t.typed = served ++ t.input ∧ message = served.flatten

theorem Terminal.serves_start : Terminal.start.Serves [] := ⟨rfl, fun _ => ⟨[], rfl, rfl⟩⟩

theorem Terminal.Serves.of_eq {t t' : Terminal} {message : Bytes} (h : t.Serves message)
    (hinput : t'.input = t.input) (htyped : t'.typed = t.typed) : t'.Serves message := by
  refine ⟨?_, ?_⟩
  · rw [hinput, htyped]
    exact h.bytes
  · rw [Fits, hinput, htyped]
    exact h.lines

theorem Terminal.Serves.enter {t : Terminal} {message : Bytes} (h : t.Serves message)
    (line : Bytes) : (t.enter line).Serves message := by
  refine ⟨?_, fun hfits => ?_⟩
  · change message ++ (t.input ++ [line]).flatten = (t.typed ++ [line]).flatten
    rw [List.flatten_append, List.flatten_append, ← List.append_assoc, h.bytes]
  · rcases h.lines hfits.before with ⟨served, htyped, hmessage⟩
    refine ⟨served, ?_, hmessage⟩
    change t.typed ++ [line] = served ++ (t.input ++ [line])
    rw [htyped, List.append_assoc]

theorem Terminal.read_eq_some {t t' : Terminal} {message : Bytes}
    (h : t.read = some (message, t')) : ∃ line rest, t.input = line :: rest ∧
      message = line.take messageSize ∧ t' = { t with
        input := if messageSize < line.length then line.drop messageSize :: rest else rest } := by
  rw [read] at h
  split at h
  · cases h
  · rename_i line rest hinput
    obtain ⟨rfl, rfl⟩ := Prod.mk.inj (Option.some.inj h)
    exact ⟨line, rest, hinput, rfl, rfl⟩

theorem Terminal.read_eq_none {t : Terminal} (h : t.read = none) : t.input = [] := by
  rw [read] at h
  split at h
  · assumption
  · cases h

theorem Terminal.read_same {t t' : Terminal} {message : Bytes} (h : t.read = some (message, t')) :
    t'.typed = t.typed ∧ t'.early = t.early ∧ t'.async = t.async := by
  rcases Terminal.read_eq_some h with ⟨_, _, _, _, rfl⟩
  exact ⟨rfl, rfl, rfl⟩

theorem Terminal.Serves.read {t t' : Terminal} {message more : Bytes} (h : t.Serves message)
    (hread : t.read = some (more, t')) : t'.Serves (message ++ more) := by
  rcases Terminal.read_eq_some hread with ⟨line, rest, hinput, rfl, rfl⟩
  refine ⟨?_, fun hfits => ?_⟩
  · have hbytes := h.bytes
    rw [hinput, List.flatten_cons] at hbytes
    change (message ++ line.take messageSize) ++ (if messageSize < line.length then
      line.drop messageSize :: rest else rest).flatten = t.typed.flatten
    rw [List.append_assoc, ← hbytes]
    split
    · rw [List.flatten_cons, ← List.append_assoc (line.take messageSize),
        List.take_append_drop]
    · rename_i hlength
      rw [List.take_of_length_le (Nat.le_of_not_lt hlength)]
  · rcases h.lines hfits with ⟨served, htyped, rfl⟩
    rw [hinput] at htyped
    have hline : line.length ≤ messageSize := by
      refine hfits line ?_
      change line ∈ t.typed
      rw [htyped]
      exact List.mem_append_right _ List.mem_cons_self
    refine ⟨served ++ [line], ?_, ?_⟩
    · change t.typed = served ++ [line] ++ (if _ then _ else rest)
      rw [if_neg (Nat.not_lt_of_le hline), htyped, List.append_assoc]
      rfl
    · rw [List.take_of_length_le hline, List.flatten_append, List.flatten_singleton]

theorem Terminal.Serves.length_read {t t' : Terminal} {message more : Bytes}
    (h : t.Serves message) (hfits : t.Fits) (hread : t.read = some (more, t')) :
    t'.input.length + 1 = t.input.length := by
  rcases Terminal.read_eq_some hread with ⟨line, rest, hinput, rfl, rfl⟩
  rcases h.lines hfits with ⟨served, htyped, _⟩
  have hline : line.length ≤ messageSize := by
    refine hfits line ?_
    rw [htyped, hinput]
    exact List.mem_append_right _ List.mem_cons_self
  change (if messageSize < line.length then _ else rest).length + 1 = _
  rw [if_neg (Nat.not_lt_of_le hline), hinput]
  rfl

theorem Terminal.Serves.eq_take {t : Terminal} {message : Bytes} (h : t.Serves message)
    (hfits : t.Fits) {n : Nat} (hlength : t.input.length = n) :
    message = (t.typed.take (t.typed.length - n)).flatten := by
  rcases h.lines hfits with ⟨served, htyped, rfl⟩
  rw [htyped, List.length_append, hlength, Nat.add_sub_cancel, List.take_left]

end StudyLinuxKernel.IoModel.LineInput
