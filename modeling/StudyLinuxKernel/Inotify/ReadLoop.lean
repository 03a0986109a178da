import StudyLinuxKernel.Inotify.Records

namespace StudyLinuxKernel.Inotify.ReadLoop

open StudyLinuxKernel.Inotify.Records
open StudyLinuxKernel.Libc.Text
open StudyLinuxKernel.Library.RecordWalk

/-- `char buf[4096]`. -/
structure Buffer where
  bytes : Bytes
  length_bytes : bytes.length = 4096

/-- What `read` answers: some bytes that fit the buffer, or -1 with `EAGAIN` or
another error. -/
inductive ReadResult where
  | bytes (data : Bytes) (fits : data.length ≤ 4096)
  | again
  | error

/-- A read stores its bytes at the start of the buffer. -/
def Buffer.fill (buf : Buffer) (data : Bytes) (fits : data.length ≤ 4096) : Buffer where
  bytes := data ++ buf.bytes.drop data.length
  length_bytes := by
    rw [List.length_append, List.length_drop, buf.length_bytes]
    omega

inductive Ending where
  | returned
  | exitFailure
  deriving DecidableEq, Repr

/-- The end of the loop, with the places where each inner loop stopped and the
length of the read it went over. -/
structure Handled (σ : Type) where
  ending : Ending
  stops : List (Nat × Nat)
  state : σ

variable {σ : Type}

/-- The outer loop over the answers of `read`.  Each read is gone over by the
inner loop, which visits the record at its pointer. -/
def readLoop (visit : Buffer → Nat → EventHeader → σ → Option σ) :
    List ReadResult → Buffer → List (Nat × Nat) → σ → Option (Handled σ)
  | [], _, _, _ => none
  | .error :: _, _, stops, s => some { ending := .exitFailure, stops := stops, state := s }
  | .again :: _, _, stops, s => some { ending := .returned, stops := stops, state := s }
  | .bytes data fits :: reads, buf, stops, s =>
      if data.length = 0 then some { ending := .returned, stops := stops, state := s }
      else do
        let buf := buf.fill data fits
        let (ptr, s) ← walk eventAt inotifyLayout.size (visit buf) buf.bytes data.length
          data.length 0 s
        readLoop visit reads buf (stops ++ [(ptr, data.length)]) s

/-- The events of one read, which the kernel does not cut. -/
structure EventRead where
  events : List InotifyEvent
  nonempty : events ≠ []
  fits : (inotifyLayout.encodeAll events).length ≤ 4096

def EventRead.data (read : EventRead) : Bytes := inotifyLayout.encodeAll read.events

theorem EventRead.length_data_le (read : EventRead) : read.data.length ≤ 4096 := read.fits

def EventRead.result (read : EventRead) : ReadResult := .bytes read.data read.length_data_le

/-- The events of all reads, each with what lies behind it in the buffer while
it is visited: the later events of its read, and then what earlier reads left. -/
def placedEvents : Buffer → List EventRead → List (InotifyEvent × Bytes)
  | _, [] => []
  | buf, read :: reads =>
      inotifyLayout.placed (buf.bytes.drop read.data.length) read.events ++
        placedEvents (buf.fill read.data read.length_data_le) reads

theorem EventRead.length_data_pos (read : EventRead) : 0 < read.data.length :=
  Nat.lt_of_lt_of_le (List.length_pos_iff.mpr read.nonempty)
    (inotifyLayout.length_le_length_encodeAll read.events)

theorem map_fst_placedEvents (reads : List EventRead) :
    ∀ buf, (placedEvents buf reads).map Prod.fst = reads.flatMap EventRead.events := by
  induction reads with
  | nil =>
      intro buf
      rfl
  | cons read reads ih =>
      intro buf
      rw [placedEvents, List.map_append, Layout.map_fst_placed, ih, List.flatMap_cons]

theorem readLoop_result {visit : Buffer → Nat → EventHeader → σ → Option σ}
    {step : σ → InotifyEvent × Bytes → Option σ}
    (hvisit : ∀ buf front event behind s, buf.bytes = front ++ event.encode ++ behind →
      visit buf front.length event.header s = step s (event, behind))
    (read : EventRead) (answers : List ReadResult) (buf : Buffer) (stops : List (Nat × Nat))
    (s : σ) :
    readLoop visit (read.result :: answers) buf stops s =
      ((inotifyLayout.placed (buf.bytes.drop read.data.length) read.events).foldlM step s).bind
        fun s' => readLoop visit answers (buf.fill read.data read.length_data_le)
          (stops ++ [(read.data.length, read.data.length)]) s' := by
  have hbuf : (buf.fill read.data read.length_data_le).bytes =
      [] ++ inotifyLayout.encodeAll read.events ++ buf.bytes.drop read.data.length := rfl
  have hwalk : walk eventAt inotifyLayout.size (visit (buf.fill read.data read.length_data_le))
      (buf.fill read.data read.length_data_le).bytes read.data.length read.data.length 0 s =
        ((inotifyLayout.placed (buf.bytes.drop read.data.length) read.events).foldlM step s).map
          fun s' => (read.data.length, s') := by
    have h := inotifyLayout.walk_encodeAll (buf.bytes.drop read.data.length)
      (fun front event behind s h => hvisit _ front event behind s h) read.events [] _ s hbuf
      (inotifyLayout.length_le_length_encodeAll read.events)
    rw [List.length_nil, Nat.zero_add] at h
    exact h
  rw [EventRead.result, readLoop, if_neg read.length_data_pos.ne']
  simp only [hwalk, Option.bind_eq_bind, Option.bind_map]
  rfl

theorem readLoop_events {visit : Buffer → Nat → EventHeader → σ → Option σ}
    {step : σ → InotifyEvent × Bytes → Option σ}
    (hvisit : ∀ buf front event behind s, buf.bytes = front ++ event.encode ++ behind →
      visit buf front.length event.header s = step s (event, behind))
    (reads : List EventRead) :
    ∀ buf stops s,
      readLoop visit (reads.map EventRead.result ++ [.again]) buf stops s =
        ((placedEvents buf reads).foldlM step s).map fun s' =>
          { ending := .returned
            stops := stops ++ reads.map fun read => (read.data.length, read.data.length)
            state := s' } := by
  induction reads with
  | nil =>
      intro buf stops s
      simp [readLoop, placedEvents]
  | cons read reads ih =>
      intro buf stops s
      rw [List.map_cons, List.cons_append, readLoop_result hvisit, placedEvents,
        List.foldlM_append, Option.bind_eq_bind, Option.map_bind]
      congr 1
      funext s'
      rw [ih, List.map_cons, List.append_assoc, List.singleton_append]
      rfl

end StudyLinuxKernel.Inotify.ReadLoop
