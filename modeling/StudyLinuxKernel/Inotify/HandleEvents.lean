import StudyLinuxKernel.Inotify.ReadLoop

namespace StudyLinuxKernel.Inotify.HandleEvents

open StudyLinuxKernel.Inotify.ReadLoop
open StudyLinuxKernel.Inotify.Records
open StudyLinuxKernel.Libc.CharArray
open StudyLinuxKernel.Libc.Text

/-- The tables `wd` and `argv`, of `argc` entries each. -/
structure Watches where
  wd : List Int32
  argv : List Bytes
  length_argv : argv.length = wd.length

def Watches.argc (watches : Watches) : Nat := watches.wd.length

def printType (mask : UInt32) : Bytes :=
  (if mask &&& IN_OPEN ≠ 0 then literal "IN_OPEN: " else []) ++
  (if mask &&& IN_CLOSE_NOWRITE ≠ 0 then literal "IN_CLOSE_NOWRITE: " else []) ++
  (if mask &&& IN_CLOSE_WRITE ≠ 0 then literal "IN_CLOSE_WRITE: " else []) ++
  (if mask &&& IN_CREATE ≠ 0 then literal "IN_CREATE: " else [])

/-- The loop over the watches with `n` entries to go from index `i` on. -/
def printDirectory (watches : Watches) (wd : Int32) : Nat → Nat → Option Bytes
  | 0, _ => some []
  | n + 1, i => do
      let entry ← watches.wd[i]?
      if entry = wd then
        let directory ← watches.argv[i]?
        some (cStr directory ++ literal "/")
      else printDirectory watches wd n (i + 1)

def printKind (mask : UInt32) : Bytes :=
  if mask &&& IN_ISDIR ≠ 0 then literal " [directory]\n" else literal " [file]\n"

def printName (buf : Buffer) (ptr : Nat) (event : EventHeader) : Option Bytes :=
  if event.len ≠ 0 then stringAt buf.bytes (ptr + sizeofInotifyEvent) else some []

/-- The body of the inner loop: what is printed for the event at `ptr`. -/
def printEvent (watches : Watches) (buf : Buffer) (ptr : Nat) (event : EventHeader) :
    Option Bytes := do
  let directory ← printDirectory watches event.wd (watches.argc - 1) 1
  let name ← printName buf ptr event
  some (printType event.mask ++ directory ++ name ++ printKind event.mask)

/-- `handle_events`, with every event it visits and what it prints for it. -/
def handleEvents (watches : Watches) (reads : List ReadResult) (buf : Buffer) :
    Option (Handled (List (EventHeader × Bytes))) :=
  readLoop
    (fun buf ptr event visited =>
      (printEvent watches buf ptr event).map fun printed => visited ++ [(event, printed)])
    reads buf [] []

/-- The directory of a watch descriptor: that of its first entry behind the
unused entry 0. -/
def Watches.directoryOf (watches : Watches) (wd : Int32) : Option Bytes :=
  ((watches.wd.zip watches.argv).tail.find? fun entry => entry.1 = wd).map Prod.snd

def directoryText : Option Bytes → Bytes
  | some directory => cStr directory ++ literal "/"
  | none => []

/-- What should be printed for an event. -/
def Watches.line (watches : Watches) (event : InotifyEvent) : Bytes :=
  printType event.mask ++ directoryText (watches.directoryOf event.wd) ++ cStr event.name ++
    printKind event.mask

theorem printDirectory_eq (watches : Watches) (wd : Int32) (n : Nat) :
    ∀ i, i + n = watches.argc →
      printDirectory watches wd n i =
        some (directoryText ((((watches.wd.zip watches.argv).drop i).find?
          fun entry => entry.1 = wd).map Prod.snd)) := by
  have hlength : (watches.wd.zip watches.argv).length = watches.argc := by
    rw [List.length_zip, watches.length_argv, Nat.min_self, Watches.argc]
  induction n with
  | zero =>
      intro i hi
      rw [List.drop_of_length_le (by omega), printDirectory]
      rfl
  | succ n ih =>
      intro i hi
      have hlt : i < (watches.wd.zip watches.argv).length := by omega
      have hwd : i < watches.wd.length := by
        rw [Watches.argc] at hi
        omega
      have hargv : i < watches.argv.length := watches.length_argv.symm ▸ hwd
      rw [printDirectory, List.getElem?_eq_getElem hwd, List.getElem?_eq_getElem hargv,
        List.drop_eq_getElem_cons hlt, List.find?_cons, List.getElem_zip]
      simp only [Option.bind_eq_bind, Option.bind_some]
      rcases eq_or_ne (watches.wd[i]) wd with heq | hne
      · simp [heq, directoryText]
      · rw [if_neg hne, ih (i + 1) (by omega)]
        simp [hne]

theorem printDirectory_directoryOf (watches : Watches) (wd : Int32) :
    printDirectory watches wd (watches.argc - 1) 1 =
      some (directoryText (watches.directoryOf wd)) := by
  rcases Nat.eq_zero_or_pos watches.argc with hempty | hpos
  · have hwd : watches.wd = [] := List.length_eq_zero_iff.mp hempty
    rw [hempty, printDirectory, Watches.directoryOf, hwd]
    rfl
  · rw [printDirectory_eq watches wd _ 1 (by omega), Watches.directoryOf, List.drop_one]

theorem printName_eq (buf : Buffer) (front : Bytes) (event : InotifyEvent) (behind : Bytes)
    (hbuf : buf.bytes = front ++ event.encode ++ behind) :
    printName buf front.length event.header = some (cStr event.name) := by
  rcases eq_or_ne event.name [] with hnameless | hnamed
  · rw [printName, if_neg (not_not.mpr (event.len_eq_zero_iff.mpr hnameless)), hnameless]
    rfl
  · rw [printName, if_pos (mt event.len_eq_zero_iff.mp hnamed), hbuf, stringAt_name,
      stringAt_of_named hnamed]

theorem printEvent_eq (watches : Watches) (buf : Buffer) (front : Bytes) (event : InotifyEvent)
    (behind : Bytes) (hbuf : buf.bytes = front ++ event.encode ++ behind) :
    printEvent watches buf front.length event.header = some (watches.line event) := by
  rw [printEvent, printName_eq buf front event behind hbuf, printDirectory_directoryOf]
  rfl

theorem foldlM_append_singleton {α β : Type} (f : α → β) (items : List α) :
    ∀ visited : List β, items.foldlM (fun visited item => some (visited ++ [f item])) visited =
      some (visited ++ items.map f) := by
  induction items with
  | nil => simp
  | cons item items ih =>
      intro visited
      rw [List.foldlM_cons, Option.bind_eq_bind, Option.bind_some, ih, List.map_cons,
        List.append_assoc, List.singleton_append]

/-- Every event is visited once and in its order, with the line that is due to
it, and every inner loop stops where its read ends. -/
theorem handleEvents_events (watches : Watches) (reads : List EventRead) (buf : Buffer) :
    handleEvents watches (reads.map EventRead.result ++ [.again]) buf =
      some
        { ending := .returned
          stops := reads.map fun read => (read.data.length, read.data.length)
          state := (reads.flatMap EventRead.events).map fun event =>
            (event.header, watches.line event) } := by
  have hvisit : ∀ (buf : Buffer) front (event : InotifyEvent) behind
      (visited : List (EventHeader × Bytes)), buf.bytes = front ++ event.encode ++ behind →
      (printEvent watches buf front.length event.header).map
          (fun printed => visited ++ [(event.header, printed)]) =
        some (visited ++ [(event.header, watches.line event)]) := by
    intro buf front event behind visited hbuf
    rw [printEvent_eq watches buf front event behind hbuf]
    rfl
  rw [handleEvents, @readLoop_events _ _
    (fun visited placed => some (visited ++ [(placed.1.header, watches.line placed.1)])) hvisit,
    foldlM_append_singleton (fun placed : InotifyEvent × Bytes =>
      (placed.1.header, watches.line placed.1)), ← map_fst_placedEvents reads buf, List.map_map]
  rfl

end StudyLinuxKernel.Inotify.HandleEvents
