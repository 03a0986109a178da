import StudyLinuxKernel.Libc.Text

namespace StudyLinuxKernel.FileIo.Copy

open StudyLinuxKernel.Libc.Text

/-- What a `read` into the buffer of 1024 bytes does: it delivers at most so many
bytes, and none only at the end of the file, or it returns -1. -/
inductive ReadAnswer where
  | upTo (n : Nat) (pos : 0 < n) (fits : n ≤ 1024)
  | error

/-- A `write` takes at most so many bytes, or returns -1. -/
inductive WriteAnswer where
  | upTo (n : Nat)
  | error

/-- The answers of one iteration. -/
structure Round where
  read : ReadAnswer
  write : WriteAnswer

/-- A system call with what it returned. -/
inductive Operation where
  | openFile (opened : Bool)
  | read (numread : Int)
  | write (requested : Nat) (numwritten : Int)
  deriving DecidableEq, Repr

def Operation.FailedOrShort : Operation → Prop
  | .openFile opened => opened = false
  | .read numread => numread = -1
  | .write requested numwritten => numwritten < requested

def WriteAnswer.numwritten (answer : WriteAnswer) (buffer : Bytes) : Int :=
  match answer with
  | .upTo n => (min n buffer.length : Nat)
  | .error => -1

/-- What the loop leaves behind. -/
structure Copied where
  dst : Bytes
  numread : Int
  stderr : Bytes
  log : List Operation

def notWritten : Bytes := literal "The specified buffer length not written.\n"

/-- The copy loop from the iteration `i` on, with the rest of the source. -/
def copyLoop (rounds : Nat → Round) (i : Nat) (rest dst : Bytes) : Copied :=
  match (rounds i).read with
  | .error => { dst := dst, numread := -1, stderr := [], log := [.read (-1)] }
  | .upTo n _ _ =>
      let buffer := rest.take n
      if buffer.length = 0 then
        { dst := dst, numread := 0, stderr := [], log := [.read 0] }
      else
        let numwritten := (rounds i).write.numwritten buffer
        let dst := dst ++ buffer.take numwritten.toNat
        let calls := [.read buffer.length, .write buffer.length numwritten]
        if numwritten < buffer.length then
          { dst := dst, numread := buffer.length, stderr := notWritten, log := calls }
        else
          let copied := copyLoop rounds (i + 1) (rest.drop n) dst
          { copied with log := calls ++ copied.log }
  termination_by rest.length
  decreasing_by
    rename_i hne _
    rw [List.length_take] at hne
    rw [List.length_drop]
    omega

structure Outcome where
  status : Nat
  dst : Option Bytes
  stderr : Bytes
  log : List Operation

/-- The world around a run: the content behind the path of the source, if it
opens, whether the destination opens, whether both paths name one file, and the
answers of the loop. -/
structure World where
  src : Option Bytes
  dstOpens : Bool
  sameFile : Bool
  rounds : Nat → Round

/-- What there is to read when both files are open: `O_TRUNC` empties the
destination. -/
def World.toRead (world : World) (src : Bytes) : Bytes := if world.sameFile then [] else src

/-- `main` of `copy.c`; the destination is none where it was not touched. -/
def main (argv : List Bytes) (world : World) : Outcome :=
  if argv.length < 3 then
    { status := 1
      dst := none
      stderr := literal "Usage: " ++ argv.getD 0 [] ++ literal " [src] [dst]\n"
      log := [] }
  else
    match world.src with
    | none =>
        { status := 1
          dst := none
          stderr := literal "open file [" ++ argv.getD 1 [] ++ literal "] failed.\n"
          log := [.openFile false] }
    | some src =>
        if world.dstOpens then
          let copied := copyLoop world.rounds 0 (world.toRead src) []
          { status := 0
            dst := some copied.dst
            stderr := copied.stderr ++ if copied.numread = -1 then notWritten else []
            log := .openFile true :: .openFile true :: copied.log }
        else
          { status := 1
            dst := none
            stderr := literal "create file [" ++ argv.getD 2 [] ++ literal "] failed.\n"
            log := [.openFile true, .openFile false] }

/-- Status 0 is for a faithful copy, and another status for every failed or
short operation. -/
structure ReportsTruly (argv : List Bytes) (world : World) : Prop where
  faithful : (main argv world).status = 0 → (main argv world).dst = world.src
  reported : ∀ operation ∈ (main argv world).log, operation.FailedOrShort →
    (main argv world).status ≠ 0

/-- The answers up to the end of the file: no read fails, and every write takes
the whole buffer. -/
inductive Served (rounds : Nat → Round) : Nat → Bytes → Prop where
  | eof {i n pos fits} (hread : (rounds i).read = .upTo n pos fits) : Served rounds i []
  | whole {i n pos fits rest} (hread : (rounds i).read = .upTo n pos fits) (hrest : rest ≠ [])
      (hwrite : (rounds i).write.numwritten (rest.take n) = (rest.take n).length)
      (hmore : Served rounds (i + 1) (rest.drop n)) : Served rounds i rest

/-- Where the loop is reached, a source that is the destination too was empty, and
every answer up to the end of the file is whole. -/
def CopyServed (argv : List Bytes) (world : World) : Prop :=
  3 ≤ argv.length → ∀ src, world.src = some src → world.dstOpens →
    (world.sameFile → src = []) ∧ Served world.rounds 0 src

section Loop

variable {rounds : Nat → Round} {i n : Nat} {pos : 0 < n} {fits : n ≤ 1024}

theorem copyLoop_error (hread : (rounds i).read = .error) (rest dst : Bytes) :
    copyLoop rounds i rest dst =
      { dst := dst, numread := -1, stderr := [], log := [.read (-1)] } := by
  rw [copyLoop, hread]

theorem copyLoop_eof (hread : (rounds i).read = .upTo n pos fits) (dst : Bytes) :
    copyLoop rounds i [] dst = { dst := dst, numread := 0, stderr := [], log := [.read 0] } := by
  rw [copyLoop, hread]
  simp

theorem length_take_ne_zero {rest : Bytes} (hn : 0 < n) (hrest : rest ≠ []) :
    (rest.take n).length ≠ 0 := by
  have hlength := List.length_pos_iff.mpr hrest
  rw [List.length_take]
  omega

theorem copyLoop_short (hread : (rounds i).read = .upTo n pos fits) {rest : Bytes}
    (hrest : rest ≠ [])
    (hshort : (rounds i).write.numwritten (rest.take n) < (rest.take n).length) (dst : Bytes) :
    (copyLoop rounds i rest dst).log = [.read (rest.take n).length,
      .write (rest.take n).length ((rounds i).write.numwritten (rest.take n))] := by
  rw [copyLoop, hread]
  simp only [if_neg (length_take_ne_zero pos hrest), if_pos hshort]

theorem copyLoop_whole (hread : (rounds i).read = .upTo n pos fits) {rest : Bytes}
    (hrest : rest ≠ [])
    (hwhole : (rounds i).write.numwritten (rest.take n) = (rest.take n).length) (dst : Bytes) :
    copyLoop rounds i rest dst =
      { copyLoop rounds (i + 1) (rest.drop n) (dst ++ rest.take n) with
        log := [.read (rest.take n).length,
          .write (rest.take n).length (rest.take n).length] ++
            (copyLoop rounds (i + 1) (rest.drop n) (dst ++ rest.take n)).log } := by
  rw [copyLoop, hread]
  simp only [if_neg (length_take_ne_zero pos hrest), hwhole, Int.lt_irrefl, if_false,
    Int.toNat_natCast, List.take_length]

theorem copyLoop_served {rest : Bytes} (h : Served rounds i rest) :
    ∀ dst, (copyLoop rounds i rest dst).dst = dst ++ rest ∧
      ∀ operation ∈ (copyLoop rounds i rest dst).log, ¬ operation.FailedOrShort := by
  induction h with
  | eof hread =>
      intro dst
      rw [copyLoop_eof hread]
      simp [Operation.FailedOrShort]
  | @whole i n pos fits rest hread hrest hwrite _ ih =>
      intro dst
      obtain ⟨hdst, hlog⟩ := ih (dst ++ rest.take n)
      rw [copyLoop_whole hread hrest hwrite]
      refine ⟨?_, ?_⟩
      · rw [hdst, List.append_assoc, List.take_append_drop]
      · intro operation hmem
        rcases List.mem_append.mp hmem with hcall | hlater
        · rcases List.mem_pair.mp hcall with rfl | rfl
          · change ¬ ((rest.take n).length : Int) = -1
            omega
          · exact Int.lt_irrefl _
        · exact hlog operation hlater

theorem numwritten_le (answer : WriteAnswer) (buffer : Bytes) :
    answer.numwritten buffer ≤ buffer.length := by
  rcases answer with n | _
  · exact Int.ofNat_le.mpr (Nat.min_le_right n buffer.length)
  · rw [WriteAnswer.numwritten]
    omega

theorem served_of_log (rest : Bytes) :
    ∀ i dst, (∀ operation ∈ (copyLoop rounds i rest dst).log, ¬ operation.FailedOrShort) →
      Served rounds i rest := by
  induction hlength : rest.length using Nat.strong_induction_on generalizing rest with
  | _ length ih =>
      intro i dst hlog
      rcases hread : (rounds i).read with ⟨n, pos, fits⟩ | _
      · rcases eq_or_ne rest [] with rfl | hrest
        · exact .eof hread
        · rcases Int.lt_or_eq_of_le (numwritten_le (rounds i).write (rest.take n)) with
            hshort | hwhole
          · rw [copyLoop_short hread hrest hshort] at hlog
            exact absurd hshort (hlog _ (List.mem_pair.mpr (Or.inr rfl)))
          · rw [copyLoop_whole hread hrest hwhole] at hlog
            have hshorter : (rest.drop n).length < length := by
              have hpositive := List.length_pos_iff.mpr hrest
              rw [List.length_drop]
              omega
            refine .whole hread hrest hwhole (ih _ hshorter (rest.drop n) rfl (i + 1)
              (dst ++ rest.take n) fun operation hmem => ?_)
            exact hlog operation (List.mem_append_right _ hmem)
      · rw [copyLoop_error hread] at hlog
        exact absurd rfl (hlog (.read (-1)) List.mem_cons_self)

end Loop

theorem reportsTruly_of_failure {argv : List Bytes} {world : World}
    (h : (main argv world).status = 1) : ReportsTruly argv world := by
  refine ⟨fun hstatus => ?_, fun _ _ _ hstatus => ?_⟩
  · exact absurd (h.symm.trans hstatus) (by decide)
  · exact absurd (h.symm.trans hstatus) (by decide)

/-- The status is as it should be exactly if every answer is whole where the
loop is reached, and the source was not emptied. -/
theorem reportsTruly_iff (argv : List Bytes) (world : World) :
    ReportsTruly argv world ↔ CopyServed argv world := by
  constructor
  · rintro ⟨hfaithful, hreported⟩ hargc src hsrc hopens
    rw [main, if_neg (Nat.not_lt.mpr hargc), hsrc] at hfaithful hreported
    simp only [hopens, if_true] at hfaithful hreported
    have hserved : Served world.rounds 0 (world.toRead src) := by
      refine served_of_log _ 0 [] fun operation hmem hfailed => ?_
      exact hreported operation (List.mem_cons_of_mem _ (List.mem_cons_of_mem _ hmem)) hfailed rfl
    have hread : world.toRead src = src := by
      have hdst := (copyLoop_served hserved []).1
      rw [List.nil_append] at hdst
      exact hdst.symm.trans (Option.some.inj (hfaithful trivial))
    refine ⟨fun hsame => ?_, ?_⟩
    · rw [World.toRead, if_pos hsame] at hread
      exact hread.symm
    · rw [hread] at hserved
      exact hserved
  · intro hcond
    rcases Nat.lt_or_ge argv.length 3 with hargc | hargc
    · exact reportsTruly_of_failure (by rw [main, if_pos hargc])
    · rcases hsrc : world.src with _ | src
      · exact reportsTruly_of_failure (by rw [main, if_neg (Nat.not_lt.mpr hargc), hsrc])
      · rcases hopens : world.dstOpens with _ | _
        · refine reportsTruly_of_failure ?_
          rw [main, if_neg (Nat.not_lt.mpr hargc), hsrc, hopens]
          rfl
        · obtain ⟨hempty, hserved⟩ := hcond hargc src hsrc hopens
          have hread : world.toRead src = src := by
            rw [World.toRead]
            split
            · rename_i hsame
              exact (hempty hsame).symm
            · rfl
          obtain ⟨hdst, hlog⟩ := copyLoop_served hserved []
          rw [List.nil_append] at hdst
          constructor
          · intro _
            rw [main, if_neg (Nat.not_lt.mpr hargc), hsrc, hopens]
            simp [hread, hdst]
          · intro operation hmem hfailed
            rw [main, if_neg (Nat.not_lt.mpr hargc), hsrc, hopens] at hmem
            simp only [if_true, List.mem_cons, hread] at hmem
            rcases hmem with rfl | rfl | hmem
            · simp [Operation.FailedOrShort] at hfailed
            · simp [Operation.FailedOrShort] at hfailed
            · exact absurd hfailed (hlog operation hmem)

/-- A source of one byte whose read fails: the destination is empty, and the
status is 0. -/
theorem failed_read_status_zero :
    ¬ ReportsTruly (List.replicate 3 [])
      { src := some [97], dstOpens := true, sameFile := false,
        rounds := fun _ => ⟨.error, .error⟩ } := by
  intro h
  have hfaithful := h.faithful rfl
  rw [main] at hfaithful
  simp [copyLoop, World.toRead] at hfaithful

end StudyLinuxKernel.FileIo.Copy
