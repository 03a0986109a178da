import Mathlib.Data.List.Infix
import StudyLinuxKernel.Inotify.ReadLoop

/-!
`handle_events` of `monitoring_dir.c`: the calls of `fnCall` for the events that it
reads.  `fnCall` is a parameter, and each call of it is taken to return.
-/

namespace StudyLinuxKernel.Inotify.MonitoringDir

open StudyLinuxKernel.Inotify.ReadLoop
open StudyLinuxKernel.Inotify.Records
open StudyLinuxKernel.Libc.CharArray
open StudyLinuxKernel.Libc.Text
open StudyLinuxKernel.Library.RecordWalk

/-- The strings that `handle_events` is called with; `cmd` may be NULL. -/
structure Request where
  filename : Bytes
  cmd : Option Bytes

/-- What was printed, and the arguments of the calls of `fnCall`. -/
structure Monitored where
  printed : Bytes
  calls : List (Bytes × Option Bytes)

def printType (mask : UInt32) : Bytes :=
  (if mask &&& IN_DELETE ≠ 0 then literal "IN_DELETE: " else []) ++
  (if mask &&& IN_CREATE ≠ 0 then literal "IN_CREATE: " else [])

/-- What the test with `strstr` makes of the string at `event->name`. -/
def matchName (request : Request) (name : Bytes) : List (Bytes × Option Bytes) :=
  if (strstr name (cStr request.filename)).isSome then [(name, request.cmd)] else []

/-- The body of the inner loop.  The name is looked at for every event that is
not about a directory, also where `event->len` is 0. -/
def monitorEvent (request : Request) (buf : Buffer) (ptr : Nat) (event : EventHeader)
    (s : Monitored) : Option Monitored :=
  let printed := s.printed ++ printType event.mask
  if event.mask &&& IN_ISDIR = 0 then do
    let name ← stringAt buf.bytes (ptr + sizeofInotifyEvent)
    some { printed := printed, calls := s.calls ++ matchName request name }
  else some { s with printed := printed }

def handleEvents (request : Request) (reads : List ReadResult) (buf : Buffer) :
    Option (Handled Monitored) :=
  readLoop (monitorEvent request) reads buf [] { printed := [], calls := [] }

/-- The call that is due to an event: one if it is not about a directory and its
own name contains the file name. -/
def dueCalls (request : Request) (event : InotifyEvent) : List (Bytes × Option Bytes) :=
  if event.mask &&& IN_ISDIR = 0 ∧ cStr request.filename <:+: cStr event.name then
    [(cStr event.name, request.cmd)]
  else []

/-- The calls are those that are due to the events, in their order. -/
def MatchesOwnNames (request : Request) (reads : List EventRead) (buf : Buffer) : Prop :=
  ∃ handled, handleEvents request (reads.map EventRead.result ++ [.again]) buf = some handled ∧
    handled.state.calls = (reads.flatMap EventRead.events).flatMap (dueCalls request)

/-- What lies behind a record is no match: a string that ends in the buffer and
is empty or does not contain the file name. -/
def NoMatchBehind (request : Request) (behind : Bytes) : Prop :=
  0 ∈ behind ∧ (cStr behind = [] ∨ ¬ cStr request.filename <:+: cStr behind)

/-- The bytes behind every nameless event that is not about a directory, later
events of its read or what earlier reads left, are no match. -/
def NamelessUnmatched (request : Request) (reads : List EventRead) (buf : Buffer) : Prop :=
  ∀ placed ∈ placedEvents buf reads, placed.1.mask &&& IN_ISDIR = 0 → placed.1.name = [] →
    NoMatchBehind request placed.2

/-- The calls that the program makes for an event with its place; none where it
reads on behind the buffer. -/
def madeCalls (request : Request) (placed : InotifyEvent × Bytes) :
    Option (List (Bytes × Option Bytes)) :=
  if placed.1.mask &&& IN_ISDIR = 0 then
    (stringAt (placed.1.name ++ placed.2) 0).map (matchName request)
  else some []

def monitorPlaced (request : Request) (s : Monitored) (placed : InotifyEvent × Bytes) :
    Option Monitored :=
  (madeCalls request placed).map fun calls =>
    { printed := s.printed ++ printType placed.1.mask, calls := s.calls ++ calls }

theorem monitorEvent_eq (request : Request) (buf : Buffer) (front : Bytes)
    (event : InotifyEvent) (behind : Bytes) (s : Monitored)
    (hbuf : buf.bytes = front ++ event.encode ++ behind) :
    monitorEvent request buf front.length event.header s =
      monitorPlaced request s (event, behind) := by
  rw [monitorEvent, monitorPlaced, madeCalls, hbuf, stringAt_name]
  change (if event.mask &&& IN_ISDIR = 0 then _ else _) = _
  split
  · rcases stringAt (event.name ++ behind) 0 with _ | name
    · rfl
    · rfl
  · simp [InotifyEvent.header]

theorem matchName_eq (request : Request) (name : Bytes) :
    matchName request name =
      if cStr request.filename <:+: name then [(name, request.cmd)] else [] := by
  simp only [matchName, strstr_isSome_iff]

/-- Only the empty file name is contained in no name at all, and then in
whatever stands there instead. -/
theorem noMatchBehind_iff (request : Request) (behind : Bytes) :
    (stringAt behind 0).map (matchName request) = some (matchName request []) ↔
      NoMatchBehind request behind := by
  rw [stringAt, List.drop_zero, NoMatchBehind]
  by_cases hzero : 0 ∈ behind
  · rw [if_pos hzero, Option.map_some, Option.some_inj, and_iff_right hzero, matchName_eq,
      matchName_eq]
    rcases eq_or_ne (cStr behind) [] with hempty | hne
    · simp [hempty]
    · rw [or_iff_right hne]
      by_cases hmatch : cStr request.filename <:+: cStr behind
      · rw [if_pos hmatch]
        split
        · simp [hmatch, hne]
        · simp [hmatch]
      · have hnil : ¬ cStr request.filename <:+: [] := fun h =>
          hmatch (h.trans (List.nil_infix))
        rw [if_neg hmatch, if_neg hnil]
        simp [hmatch]
  · simp [hzero]

theorem dueCalls_eq (request : Request) (event : InotifyEvent)
    (hfile : event.mask &&& IN_ISDIR = 0) :
    dueCalls request event = matchName request (cStr event.name) := by
  rw [dueCalls, matchName_eq]
  simp only [hfile, true_and]

theorem madeCalls_eq_iff (request : Request) (placed : InotifyEvent × Bytes) :
    madeCalls request placed = some (dueCalls request placed.1) ↔
      (placed.1.mask &&& IN_ISDIR = 0 → placed.1.name = [] →
        NoMatchBehind request placed.2) := by
  rcases placed with ⟨event, behind⟩
  by_cases hfile : event.mask &&& IN_ISDIR = 0
  · rw [madeCalls, if_pos hfile, dueCalls_eq request event hfile]
    rcases eq_or_ne event.name [] with hnameless | hnamed
    · simp only [hnameless, List.nil_append, hfile, forall_const]
      exact noMatchBehind_iff request behind
    · apply iff_of_true
      · rw [stringAt_of_named hnamed]
        rfl
      · intro _ hnameless
        exact absurd hnameless hnamed
  · simp [madeCalls, dueCalls, hfile]

theorem cStr_prefix_append (array behind : Bytes) : cStr array <+: cStr (array ++ behind) := by
  rw [cStr, cStr, List.takeWhile_append]
  split
  · exact (List.takeWhile_prefix _).trans (List.prefix_append array _)
  · exact List.prefix_refl _

theorem length_dueCalls_le {request : Request} {placed : InotifyEvent × Bytes}
    {calls : List (Bytes × Option Bytes)} (hmade : madeCalls request placed = some calls) :
    (dueCalls request placed.1).length ≤ calls.length := by
  rcases placed with ⟨event, behind⟩
  by_cases hfile : event.mask &&& IN_ISDIR = 0
  · rw [madeCalls, if_pos hfile, stringAt, List.drop_zero] at hmade
    split at hmade
    · obtain rfl := Option.some.inj hmade
      rw [dueCalls_eq request event hfile, matchName_eq, matchName_eq]
      by_cases hmatch : cStr request.filename <:+: cStr event.name
      · rw [if_pos hmatch, if_pos (hmatch.trans (cStr_prefix_append event.name behind).isInfix)]
        exact Nat.le_refl 1
      · rw [if_neg hmatch]
        exact Nat.zero_le _
    · simp at hmade
  · simp [dueCalls, hfile]

theorem calls_of_foldlM {request : Request} (placed : List (InotifyEvent × Bytes)) :
    ∀ {s s' : Monitored}, placed.foldlM (monitorPlaced request) s = some s' →
      ∃ made, s'.calls = s.calls ++ made ∧
        (placed.flatMap fun p => dueCalls request p.1).length ≤ made.length := by
  induction placed with
  | nil =>
      rintro s _ ⟨⟩
      exact ⟨[], (List.append_nil _).symm, Nat.le_refl 0⟩
  | cons p placed ih =>
      intro s s' hrun
      obtain ⟨next, hnext, hrest⟩ := Option.bind_eq_some_iff.mp hrun
      obtain ⟨calls, hmade, rfl⟩ := Option.map_eq_some_iff.mp hnext
      obtain ⟨made, hcalls, hlength⟩ := ih hrest
      refine ⟨calls ++ made, by rw [hcalls, List.append_assoc], ?_⟩
      have hdue := length_dueCalls_le hmade
      rw [List.flatMap_cons, List.length_append, List.length_append]
      omega

/-- The calls of all events are those due to them exactly if this holds of each:
too many for one are never made up for by another. -/
theorem foldlM_dueCalls_iff {request : Request} (placed : List (InotifyEvent × Bytes)) :
    ∀ s, (∃ s', placed.foldlM (monitorPlaced request) s = some s' ∧
        s'.calls = s.calls ++ placed.flatMap fun p => dueCalls request p.1) ↔
      ∀ p ∈ placed, madeCalls request p = some (dueCalls request p.1) := by
  induction placed with
  | nil =>
      intro s
      refine iff_of_true ⟨s, rfl, (List.append_nil _).symm⟩ (by simp)
  | cons p placed ih =>
      intro s
      rw [List.forall_mem_cons]
      constructor
      · rintro ⟨s', hrun, hall⟩
        obtain ⟨next, hnext, hrest⟩ := Option.bind_eq_some_iff.mp hrun
        obtain ⟨calls, hmade, rfl⟩ := Option.map_eq_some_iff.mp hnext
        obtain ⟨made, hcalls, hlength⟩ := calls_of_foldlM placed hrest
        have hdue := length_dueCalls_le hmade
        rw [hcalls, List.flatMap_cons, List.append_assoc, List.append_cancel_left_eq] at hall
        have htotal := congrArg List.length hall
        rw [List.length_append, List.length_append] at htotal
        obtain ⟨rfl, rfl⟩ := List.append_inj hall (by omega)
        exact ⟨hmade, (ih _).mp ⟨s', hrest, hcalls⟩⟩
      · rintro ⟨hmade, hplaced⟩
        obtain ⟨s', hrest, hcalls⟩ := (ih _).mpr hplaced
        refine ⟨s', Option.bind_eq_some_iff.mpr ⟨_, ?_, hrest⟩, ?_⟩
        · rw [monitorPlaced, hmade]
          rfl
        · rw [hcalls, List.flatMap_cons, List.append_assoc]

theorem matchesOwnNames_iff_made (request : Request) (reads : List EventRead) (buf : Buffer) :
    MatchesOwnNames request reads buf ↔
      ∀ p ∈ placedEvents buf reads, madeCalls request p = some (dueCalls request p.1) := by
  have hdue : (reads.flatMap EventRead.events).flatMap (dueCalls request) =
      (placedEvents buf reads).flatMap fun p => dueCalls request p.1 := by
    rw [← map_fst_placedEvents reads buf, List.flatMap_map]
  have hrun := readLoop_events (fun buf front event behind s hbuf =>
    monitorEvent_eq request buf front event behind s hbuf) reads buf [] ⟨[], []⟩
  rw [MatchesOwnNames, handleEvents, hrun, hdue,
    ← foldlM_dueCalls_iff (placedEvents buf reads) ⟨[], []⟩]
  constructor
  · rintro ⟨handled, hhandled, hcalls⟩
    obtain ⟨s', hs', rfl⟩ := Option.map_eq_some_iff.mp hhandled
    exact ⟨s', hs', hcalls⟩
  · rintro ⟨s', hs', hcalls⟩
    exact ⟨_, Option.map_eq_some_iff.mpr ⟨s', hs', rfl⟩, hcalls⟩

/-- The program matches the own names of the events exactly if no nameless event
has a match behind it in the buffer. -/
theorem matchesOwnNames_iff (request : Request) (reads : List EventRead) (buf : Buffer) :
    MatchesOwnNames request reads buf ↔ NamelessUnmatched request reads buf := by
  rw [matchesOwnNames_iff_made, NamelessUnmatched]
  simp only [madeCalls_eq_iff]

/-- The creation of the file `a`, and the event `IN_IGNORED` that names no file. -/
def createdEvent : InotifyEvent :=
  ⟨1, IN_CREATE, 0, 97 :: List.replicate 15 0, by decide, by decide⟩

def ignoredEvent : InotifyEvent := ⟨1, 0x8000, 0, [], by decide, by decide⟩

/-- The second event comes in a read of its own, and the call that it makes is
about the file of the first one. -/
theorem stale_name_matched :
    ¬ MatchesOwnNames ⟨[97], none⟩
      [⟨[createdEvent], by decide, by decide⟩, ⟨[ignoredEvent], by decide, by decide⟩]
      ⟨List.replicate 4096 0, List.length_replicate⟩ := by
  rw [matchesOwnNames_iff_made]
  intro h
  have hignored := h (ignoredEvent, createdEvent.name ++ List.replicate 4064 0)
    (List.mem_cons_of_mem _ (List.mem_singleton.mpr rfl))
  rw [madeCalls_eq_iff] at hignored
  have hmatch := hignored rfl rfl
  rcases hmatch.2 with hempty | hno
  · exact absurd hempty (by decide +kernel)
  · exact hno (by decide +kernel)

end StudyLinuxKernel.Inotify.MonitoringDir
