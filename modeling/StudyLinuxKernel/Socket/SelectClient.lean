import StudyLinuxKernel.Libc.Text
import StudyLinuxKernel.Library.PartialStep

namespace StudyLinuxKernel.Socket.SelectClient

open StudyLinuxKernel.Libc.Text
open StudyLinuxKernel.Library.PartialStep

/-- What `read` from the standard input stores in `szMsg`, or -1. -/
inductive InputAnswer where
  | bytes (szMsg : Bytes) (fits : szMsg.length ≤ 1024)
  | error

/-- A `send` accepts at least one byte and at most so many, or returns -1. -/
inductive SendAnswer where
  | upTo (n : Nat) (pos : 0 < n)
  | error

/-- What the system calls of one iteration answer, and the descriptors that
`select` leaves in its sets. -/
structure Iteration where
  nSel : Int
  stdinReadable : Bool
  sockReadable : Bool
  sockWritable : Bool
  input : InputAnswer
  send : SendAnswer
  nRecv : Int

/-- The loop, with the bytes that were read from the standard input, but for the
quit command, and the bytes that `send` accepted. -/
structure Client where
  running : Bool
  input : Bytes
  sent : Bytes
  deriving DecidableEq, Repr

def Client.start : Client := { running := true, input := [], sent := [] }

def isQuit (szMsg : Bytes) : Bool := szMsg.length = 2 && szMsg.head? = some 113

/-- The bytes of `szMsg` that `send` accepts. -/
def SendAnswer.accepted (answer : SendAnswer) (szMsg : Bytes) : Bytes :=
  match answer with
  | .upTo n _ => szMsg.take n
  | .error => []

/-- The part of the loop for the standard input, with `bDisconnect`. -/
def handleInput (s : Client) (it : Iteration) : Bool × Client :=
  if it.stdinReadable then
    match it.input with
    | .error => (false, s)
    | .bytes szMsg _ =>
        if isQuit szMsg then (true, s)
        else if 0 < szMsg.length ∧ it.sockWritable then
          (false,
            { s with input := s.input ++ szMsg, sent := s.sent ++ it.send.accepted szMsg })
        else (false, { s with input := s.input ++ szMsg })
  else (false, s)

/-- One iteration; there is none after the loop has ended. -/
def iterate (s : Client) (it : Iteration) : Option Client :=
  if s.running then
    if it.nSel ≤ 0 then some { s with running := false }
    else
      let (bDisconnect, s) := handleInput s it
      let bDisconnect := if it.sockReadable ∧ it.nRecv ≤ 0 then true else bDisconnect
      some { s with running := !bDisconnect }
  else none

/-- The bytes that were accepted are those that were read, in their order. -/
def Client.Lossless (s : Client) : Prop := s.sent = s.input

/-- What is read apart from the quit command goes out whole: the socket is
writable in the same iteration, and `send` accepts all of it. -/
def SendsWhole (_ : Client) (it : Iteration) : Prop :=
  0 < it.nSel → it.stdinReadable → ∀ szMsg fits, it.input = .bytes szMsg fits →
    szMsg ≠ [] → ¬ isQuit szMsg → it.sockWritable ∧ it.send.accepted szMsg = szMsg

theorem lossless_append_iff {s : Client} (hs : s.Lossless) (szMsg accepted : Bytes) :
    Client.Lossless { s with input := s.input ++ szMsg, sent := s.sent ++ accepted } ↔
      accepted = szMsg := by
  change s.sent ++ accepted = s.input ++ szMsg ↔ _
  rw [show s.sent = s.input from hs, List.append_cancel_left_eq]

theorem handleInput_lossless_iff {s : Client} (hs : s.Lossless) {it : Iteration}
    (hsel : 0 < it.nSel) : (handleInput s it).2.Lossless ↔ SendsWhole s it := by
  rw [handleInput, SendsWhole, forall_prop_of_true hsel]
  rcases hreadable : it.stdinReadable with _ | _
  · exact iff_of_true hs (by simp)
  · rcases hinput : it.input with ⟨szMsg, fits⟩ | _
    · simp only [if_true, forall_const, InputAnswer.bytes.injEq]
      by_cases hquit : isQuit szMsg = true
      · rw [if_pos hquit]
        apply iff_of_true hs
        rintro _ _ rfl _ hnot
        exact absurd hquit hnot
      · rw [if_neg hquit]
        rcases eq_or_ne szMsg [] with rfl | hne
        · apply iff_of_true
          · rw [if_neg (by simp)]
            simpa [Client.Lossless] using hs
          · rintro _ _ rfl hne
            exact absurd rfl hne
        · have hpos := List.length_pos_iff.mpr hne
          by_cases hwritable : it.sockWritable = true
          · rw [if_pos ⟨hpos, hwritable⟩, lossless_append_iff hs]
            constructor
            · rintro hwhole _ _ rfl _ _
              exact ⟨hwritable, hwhole⟩
            · intro hwhole
              exact (hwhole szMsg fits rfl hne hquit).2
          · rw [if_neg (fun h => hwritable h.2)]
            have hdropped := lossless_append_iff hs szMsg []
            rw [List.append_nil] at hdropped
            rw [hdropped]
            apply iff_of_false hne.symm
            intro hwhole
            exact hwritable (hwhole szMsg fits rfl hne hquit).1
    · exact iff_of_true hs (by simp)

theorem lossless_iterate_iff {s s' : Client} (hs : s.Lossless) {it : Iteration}
    (hstep : iterate s it = some s') : s'.Lossless ↔ SendsWhole s it := by
  rw [iterate] at hstep
  split at hstep
  · split at hstep
    · rename_i hsel
      obtain rfl := Option.some.inj hstep
      apply iff_of_true hs
      intro hpos
      omega
    · rename_i hsel
      obtain rfl := Option.some.inj hstep
      exact handleInput_lossless_iff hs (by omega)
  · simp at hstep

/-- The bytes that `send` accepts are the bytes that are read all along exactly
if in every iteration what is read goes out whole. -/
theorem lossless_iff_sendsWhole (its : List Iteration) :
    EveryState iterate Client.Lossless .start its ↔
      EveryStep iterate SendsWhole .start its := by
  have hstart : Client.start.Lossless := rfl
  refine everyState_iff_everyStep hstart (fun s hs => hs) ?_ ?_ its
  · intro s it s' hs hwhole hstep
    exact (lossless_iterate_iff hs hstep).mpr hwhole
  · intro s it s' hs hstep hs'
    exact (lossless_iterate_iff hs hstep).mp hs'

/-- A line is read while the socket cannot be written to. -/
theorem dropped_line :
    ∃ s', run iterate .start [⟨1, true, false, false, .bytes [104, 105, 10] (by decide),
      .upTo 3 (by decide), 0⟩] = some s' ∧ ¬ s'.Lossless := by
  refine ⟨⟨true, [104, 105, 10], []⟩, rfl, fun h => ?_⟩
  exact absurd h.symm (List.cons_ne_nil _ _)

end StudyLinuxKernel.Socket.SelectClient
