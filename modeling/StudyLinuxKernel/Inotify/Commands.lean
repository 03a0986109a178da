import StudyLinuxKernel.Inotify.MonitoringDir
import StudyLinuxKernel.Libc.Stdio

namespace StudyLinuxKernel.Inotify.Commands

open StudyLinuxKernel.Inotify.MonitoringDir
open StudyLinuxKernel.Inotify.ReadLoop
open StudyLinuxKernel.Inotify.Records
open StudyLinuxKernel.Libc.CharArray
open StudyLinuxKernel.Libc.Stdio
open StudyLinuxKernel.Libc.Text
open StudyLinuxKernel.Library.RecordWalk

def commandSize : Nat := 128

/-- The room for characters in `buffer`. -/
def bufferRoom : Nat := 511

def commandText (filename : Bytes) (cmd : Option Bytes) : Bytes :=
  (cmd.map cStr).getD (literal "rm -f") ++ literal " ./" ++ cStr filename

/-- `sprintf`, which has no result where it runs over the array. -/
def sprintfCommand (filename : Bytes) (cmd : Option Bytes) : Option Bytes :=
  store (List.replicate commandSize 0) 0 (commandText filename cmd ++ [0])

/-- The loop over the lines that the command prints. -/
def printLoop : Nat → Bytes → Bytes
  | 0, _ => []
  | fuel + 1, output =>
      if output = [] then []
      else
        let (buffer, rest) := fgets bufferRoom output
        cStr buffer ++ printLoop fuel rest

/-- What was printed, and the commands that were run. -/
structure Executed where
  printed : Bytes
  stderr : Bytes
  commands : List Bytes

/-- `popen` gives what a command prints until it ends, or fails. -/
def matchedConditionCall (popen : Bytes → Option Bytes) (filename : Bytes) (cmd : Option Bytes)
    (s : Executed) : Option Executed := do
  let command ← sprintfCommand filename cmd
  let text ← stringAt command 0
  let output := (popen text).getD []
  some {
    printed := s.printed ++ printLoop output.length output
    stderr := s.stderr ++ literal "[matched] run `" ++ text ++ literal "`\n"
    commands := s.commands ++ [text] }

/-- The body of the inner loop, with the call. -/
def executeEvent (popen : Bytes → Option Bytes) (request : Request) (buf : Buffer) (ptr : Nat)
    (event : EventHeader) (s : Executed) : Option Executed :=
  let s := { s with printed := s.printed ++ printType event.mask }
  if event.mask &&& IN_ISDIR = 0 then do
    let name ← stringAt buf.bytes (ptr + sizeofInotifyEvent)
    if (strstr name (cStr request.filename)).isSome then
      matchedConditionCall popen name request.cmd s
    else some s
  else some s

def executeEvents (popen : Bytes → Option Bytes) (request : Request) (reads : List ReadResult)
    (buf : Buffer) : Option (Handled Executed) :=
  readLoop (executeEvent popen request) reads buf []
    { printed := [], stderr := [], commands := [] }

/-- The command of a call with its NUL has room in the array. -/
def HasRoom (call : Bytes × Option Bytes) : Prop :=
  (commandText call.1 call.2).length < commandSize

instance (call : Bytes × Option Bytes) : Decidable (HasRoom call) :=
  inferInstanceAs (Decidable (_ < _))

theorem zero_not_mem_commandText (filename : Bytes) (cmd : Option Bytes) :
    0 ∉ commandText filename cmd := by
  rw [commandText, List.mem_append, List.mem_append, not_or, not_or]
  refine ⟨⟨?_, by decide⟩, zero_not_mem_cStr filename⟩
  rcases cmd with _ | cmd
  · decide
  · exact zero_not_mem_cStr cmd

theorem matchedConditionCall_eq (popen : Bytes → Option Bytes) (filename : Bytes)
    (cmd : Option Bytes) (s : Executed) :
    (matchedConditionCall popen filename cmd s).map Executed.commands =
      if HasRoom (filename, cmd) then some (s.commands ++ [commandText filename cmd])
      else none := by
  have hlength : (commandText filename cmd ++ [0]).length =
      (commandText filename cmd).length + 1 :=
    List.length_append
  rw [matchedConditionCall, sprintfCommand]
  split
  · rename_i hroom
    rw [store_zero (by rw [hlength, List.length_replicate]; exact hroom)]
    have hzero : 0 ∈ commandText filename cmd ++ [0] ++
        (List.replicate commandSize (0 : UInt8)).drop (commandText filename cmd ++ [0]).length :=
      List.mem_append_left _ (List.mem_append_right _ (List.mem_singleton_self 0))
    have htext : cStr (commandText filename cmd ++ [0] ++
        (List.replicate commandSize (0 : UInt8)).drop (commandText filename cmd ++ [0]).length) =
          commandText filename cmd := by
      rw [List.append_assoc, cStr_append (zero_not_mem_commandText filename cmd)]
      exact List.append_nil _
    simp only [Option.bind_eq_bind, Option.bind_some, stringAt_of_mem hzero, htext,
      Option.map_some]
  · rename_i hover
    rw [store, if_neg]
    · rfl
    · rw [hlength, List.length_replicate]
      intro hfits
      apply hover
      change (commandText filename cmd).length < commandSize
      omega

def commandsOf (calls : List (Bytes × Option Bytes)) : List Bytes :=
  calls.map fun call => commandText call.1 call.2

def executeCalls (popen : Bytes → Option Bytes) (calls : List (Bytes × Option Bytes))
    (s : Executed) : Option Executed :=
  calls.foldlM (fun s call => matchedConditionCall popen call.1 call.2 s) s

/-- An event with its place, and the calls that the program makes for it. -/
def executePlaced (popen : Bytes → Option Bytes) (request : Request) (s : Executed)
    (placed : InotifyEvent × Bytes) : Option Executed :=
  (madeCalls request placed).bind fun calls =>
    executeCalls popen calls { s with printed := s.printed ++ printType placed.1.mask }

theorem executeCalls_eq (popen : Bytes → Option Bytes) (calls : List (Bytes × Option Bytes)) :
    ∀ s, (executeCalls popen calls s).map Executed.commands =
      if ∀ call ∈ calls, HasRoom call then some (s.commands ++ commandsOf calls) else none := by
  induction calls with
  | nil =>
      intro s
      rw [if_pos fun _ hcall => absurd hcall List.not_mem_nil]
      exact congrArg some (List.append_nil _).symm
  | cons call calls ih =>
      intro s
      have hfirst := matchedConditionCall_eq popen call.1 call.2 s
      rw [executeCalls, List.foldlM_cons, Option.bind_eq_bind, Option.map_bind]
      simp only [List.forall_mem_cons]
      rcases Decidable.em (HasRoom call) with hroom | hover
      · rw [if_pos hroom] at hfirst
        obtain ⟨next, hnext, hcommands⟩ := Option.map_eq_some_iff.mp hfirst
        rw [hnext, Option.bind_some]
        refine (ih next).trans ?_
        rw [hcommands, List.append_assoc]
        exact if_congr (and_iff_right hroom).symm rfl rfl
      · rw [if_neg hover] at hfirst
        rw [Option.map_eq_none_iff.mp hfirst, if_neg fun hall => hover hall.1]
        rfl

theorem executeEvent_eq (popen : Bytes → Option Bytes) (request : Request) (buf : Buffer)
    (front : Bytes) (event : InotifyEvent) (behind : Bytes) (s : Executed)
    (hbuf : buf.bytes = front ++ event.encode ++ behind) :
    executeEvent popen request buf front.length event.header s =
      executePlaced popen request s (event, behind) := by
  rw [executeEvent, executePlaced, madeCalls, hbuf, stringAt_name]
  change (if event.mask &&& IN_ISDIR = 0 then _ else _) = _
  split
  · rcases stringAt (event.name ++ behind) 0 with _ | name
    · rfl
    · change (if _ then _ else _) = executeCalls popen (matchName request name) _
      rw [matchName]
      split
      · rw [executeCalls, List.foldlM_cons]
        exact (bind_pure _).symm
      · rfl
  · rfl

theorem foldlM_executePlaced (popen : Bytes → Option Bytes) (request : Request)
    (placed : List (InotifyEvent × Bytes)) :
    ∀ (s : Executed) (m m' : Monitored), placed.foldlM (monitorPlaced request) m = some m' →
      ∃ made, m'.calls = m.calls ++ made ∧
        (placed.foldlM (executePlaced popen request) s).map Executed.commands =
          if ∀ call ∈ made, HasRoom call then some (s.commands ++ commandsOf made) else none := by
  induction placed with
  | nil =>
      rintro s m _ ⟨⟩
      exact ⟨[], (List.append_nil _).symm, executeCalls_eq popen [] s⟩
  | cons p placed ih =>
      intro s m m' hrun
      obtain ⟨next, hnext, hrest⟩ := Option.bind_eq_some_iff.mp hrun
      obtain ⟨calls, hmade, rfl⟩ := Option.map_eq_some_iff.mp hnext
      have hfirst := executeCalls_eq popen calls
        { s with printed := s.printed ++ printType p.1.mask }
      rw [List.foldlM_cons, Option.bind_eq_bind, Option.map_bind, executePlaced, hmade,
        Option.bind_some]
      rcases Decidable.em (∀ call ∈ calls, HasRoom call) with hroom | hover
      · rw [if_pos hroom] at hfirst
        obtain ⟨after, hafter, hcommands⟩ := Option.map_eq_some_iff.mp hfirst
        obtain ⟨made, hcalls, hexecuted⟩ := ih after _ m' hrest
        refine ⟨calls ++ made, by rw [hcalls, List.append_assoc], ?_⟩
        rw [hafter, Option.bind_some]
        refine hexecuted.trans ?_
        have happend : commandsOf (calls ++ made) = commandsOf calls ++ commandsOf made :=
          List.map_append
        rw [hcommands, happend, List.append_assoc]
        refine if_congr ?_ rfl rfl
        rw [List.forall_mem_append, and_iff_right hroom]
      · obtain ⟨made, hcalls, _⟩ := ih s _ m' hrest
        refine ⟨calls ++ made, by rw [hcalls, List.append_assoc], ?_⟩
        rw [if_neg hover] at hfirst
        rw [Option.map_eq_none_iff.mp hfirst, if_neg fun hall =>
          hover fun call hcall => hall call (List.mem_append_left _ hcall)]
        rfl

/-- For the events of any reads: the program runs the commands of the calls that it
makes, in their order, exactly if each of them has room in the array. -/
theorem commands_run (popen : Bytes → Option Bytes) (request : Request) (reads : List EventRead)
    (buf : Buffer) {monitored : Handled Monitored}
    (hmonitored : handleEvents request (reads.map EventRead.result ++ [.again]) buf =
      some monitored) :
    (executeEvents popen request (reads.map EventRead.result ++ [.again]) buf).map
        (fun executed => executed.state.commands) =
      if ∀ call ∈ monitored.state.calls, HasRoom call then
        some (commandsOf monitored.state.calls)
      else none := by
  rw [handleEvents, readLoop_events (fun buf front event behind s hbuf =>
    monitorEvent_eq request buf front event behind s hbuf)] at hmonitored
  obtain ⟨m', hrun, rfl⟩ := Option.map_eq_some_iff.mp hmonitored
  obtain ⟨made, hcalls, hexecuted⟩ := foldlM_executePlaced popen request _
    { printed := [], stderr := [], commands := [] } _ m' hrun
  rw [List.nil_append] at hcalls
  rw [executeEvents, readLoop_events (fun buf front event behind s hbuf =>
    executeEvent_eq popen request buf front event behind s hbuf), Option.map_map, hcalls]
  exact hexecuted

/-- The file `a` is removed again as soon as it is there. -/
theorem commands_run_created :
    (executeEvents (fun _ => none) ⟨[97], none⟩
        ([(⟨[createdEvent], by decide, by decide⟩ : EventRead)].map EventRead.result ++ [.again])
        ⟨List.replicate 4096 0, List.length_replicate⟩).map
      (fun executed => executed.state.commands) = some [literal "rm -f ./a"] := by
  have hmatches : MatchesOwnNames ⟨[97], none⟩ [⟨[createdEvent], by decide, by decide⟩]
      ⟨List.replicate 4096 0, List.length_replicate⟩ := by
    rw [matchesOwnNames_iff_made]
    intro placed hplaced
    obtain rfl := List.mem_singleton.mp hplaced
    rw [madeCalls_eq_iff]
    exact fun _ hnameless => by cases hnameless
  obtain ⟨monitored, hmonitored, hcalls⟩ := hmatches
  have hdue : ([(⟨[createdEvent], by decide, by decide⟩ : EventRead)].flatMap
      EventRead.events).flatMap (dueCalls ⟨[97], none⟩) = [([97], none)] := by
    decide +kernel
  rw [commands_run (fun _ => none) ⟨[97], none⟩ _ _ hmonitored, hcalls, hdue, if_pos]
  · decide
  · intro call hcall
    rw [List.mem_singleton.mp hcall]
    decide

end StudyLinuxKernel.Inotify.Commands
