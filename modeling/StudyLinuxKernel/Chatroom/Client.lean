import StudyLinuxKernel.Chatroom.Server
import StudyLinuxKernel.Libc.Stdio

namespace StudyLinuxKernel.Chatroom.Client

open StudyLinuxKernel.Chatroom.Server
open StudyLinuxKernel.Libc.Stdio
open StudyLinuxKernel.Libc.Text

/-- The characters of a line in front of its newline. -/
structure Line where
  chars : Bytes
  noNul : 0 ∉ chars
  noNewline : lf ∉ chars

def Line.typed (line : Line) : Bytes := line.chars ++ [lf]

/-- The calls of `fgets` until the input is used up. -/
def reads : Nat → Bytes → List Bytes
  | 0, _ => []
  | fuel + 1, input =>
      if input = [] then []
      else
        let (msg, rest) := fgets (MAX_MSG_LEN - 1) input
        msg :: reads fuel rest

/-- The last character that was read is overwritten, and sent as a NUL. -/
def datagramOf (msg : Bytes) : Bytes :=
  let len := (cStr (msg ++ [0])).length
  ((msg ++ [0]).set (len - 1) 0).take len

def Line.reads (line : Line) : List Bytes := Client.reads line.typed.length line.typed

def Line.datagrams (line : Line) : List Bytes := line.reads.map datagramOf

/-- What is printed of a datagram, where `msg` is what the array held before; there
is no result if the datagram fills it. -/
def printed (msg datagram : Bytes) : Option Bytes := (receive msg datagram).map cStr

theorem flatten_reads {fuel : Nat} {input : Bytes} (h : input.length ≤ fuel) :
    (reads fuel input).flatten = input := by
  induction fuel generalizing input with
  | zero => exact (List.length_eq_zero_iff.mp (Nat.le_zero.mp h)).symm
  | succ fuel ih =>
      rw [reads]
      split
      · rename_i hempty
        exact hempty.symm
      · rename_i hinput
        have happend := fgets_append (MAX_MSG_LEN - 1) input
        have hread := List.length_pos_iff.mpr
          (fgets_ne_nil (by decide : 0 < MAX_MSG_LEN - 1) hinput)
        have hlength := congrArg List.length happend
        rw [List.length_append] at hlength
        rw [List.flatten_cons, ih (by omega), happend]

theorem of_mem_reads {fuel : Nat} {input msg : Bytes} (h : msg ∈ reads fuel input) :
    msg ≠ [] ∧ msg.length < MAX_MSG_LEN := by
  induction fuel generalizing input with
  | zero => cases h
  | succ fuel ih =>
      rw [reads] at h
      split at h
      · cases h
      · rename_i hinput
        rcases List.mem_cons.mp h with rfl | hrest
        · exact ⟨fgets_ne_nil (by decide) hinput,
            Nat.lt_of_le_of_lt (length_fgets_le _ _) (by decide)⟩
        · exact ih hrest

theorem zero_not_mem_of_mem_reads {line : Line} {msg : Bytes} (h : msg ∈ line.reads) :
    0 ∉ msg := by
  intro hzero
  have hmem : 0 ∈ line.reads.flatten := List.mem_flatten.mpr ⟨msg, h, hzero⟩
  rw [Line.reads, flatten_reads (Nat.le_refl _), Line.typed, List.mem_append] at hmem
  rcases hmem with hmem | hmem
  · exact line.noNul hmem
  · exact absurd hmem (by decide)

theorem reads_of_fits {line : Line} (h : line.chars.length < MAX_MSG_LEN - 1) :
    line.reads = [line.typed] := by
  have hread := fgets_line line.noNewline h
  have hne : line.typed ≠ [] := List.append_ne_nil_of_right_ne_nil _ (List.cons_ne_nil _ _)
  have hlength : line.typed.length = line.chars.length + 1 := List.length_append
  rw [Line.reads, hlength, reads, if_neg hne]
  change (fgets _ (line.chars ++ [lf])).1 :: reads _ (fgets _ (line.chars ++ [lf])).2 = _
  rw [hread]
  cases line.chars.length with
  | zero => rfl
  | succ n => rfl

theorem datagramOf_concat {front : Bytes} {last : UInt8} (h : 0 ∉ front ++ [last]) :
    datagramOf (front ++ [last]) = front ++ [0] := by
  have hlen : (cStr (front ++ [last] ++ [0])).length = front.length + 1 := by
    rw [cStr_append h]
    exact congrArg List.length (List.append_nil (front ++ [last])) |>.trans List.length_append
  rw [datagramOf, hlen, Nat.add_sub_cancel, List.append_assoc,
    List.set_append_right _ _ (Nat.le_refl _), Nat.sub_self]
  change (front ++ [0, 0]).take (front.length + 1) = _
  rw [List.take_length_add_append]
  rfl

/-- Of what is read, the last character is lost. -/
theorem cStr_datagramOf {msg : Bytes} (hmsg : msg ≠ []) (hnoNul : 0 ∉ msg) :
    cStr (datagramOf msg) = msg.dropLast := by
  have hsplit := List.dropLast_append_getLast hmsg
  have hfront : 0 ∉ msg.dropLast := fun hmem => hnoNul (List.mem_of_mem_dropLast hmem)
  rw [← hsplit] at hnoNul
  have hdatagram := datagramOf_concat hnoNul
  rw [hsplit] at hdatagram
  rw [hdatagram, cStr_append hfront]
  exact List.append_nil _

theorem length_datagramOf_le {msg : Bytes} (hnoNul : 0 ∉ msg) :
    (datagramOf msg).length ≤ msg.length := by
  rw [datagramOf, cStr_append hnoNul, List.length_take]
  exact Nat.le_trans (Nat.min_le_left _ _) (congrArg List.length (List.append_nil msg)).le

theorem printed_of_not_mem (msg : Bytes) {message : Bytes} (h : 0 ∉ message) :
    printed msg message = if message.length < MAX_MSG_LEN then some message else none := by
  split
  · rename_i hfits
    rw [printed, receive_of_lt msg hfits, Option.map_some, terminated_eq,
      List.take_of_length_le hfits.le, cStr_append h]
    cases msg.drop (min message.length MAX_MSG_LEN) with
    | nil => exact congrArg some (List.append_nil message)
    | cons ch rest => exact congrArg some (List.append_nil message)
  · rename_i hfull
    rw [printed, receive_of_le msg (Nat.not_lt.mp hfull)]
    rfl

end StudyLinuxKernel.Chatroom.Client
