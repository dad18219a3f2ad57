/-
# The commands of a line: `run_command.c`

One definition for each function of the file, in the order in which they call each other.

* `handleRedirection` scans one command with four `sscanf` formats, opens the files it names and
  looks the program up.
* `runProcess` is what a child does with the result: three `dup2` calls and `execv`.
* `handlePipe` runs a pipeline stage by stage, waiting for each one before the next; it is the
  recursion of the source on what stands after the first `|`.
* `parseCommand` cuts the line at `&`, runs the pipelines on the way and the other commands
  together at the end.

The functions that only a child runs return how the child ends (`Child`); those of the shell
return its new state, or the fault by which it leaves the program.  What the source only prints
(`WERR`, the `DEBUG` blocks) and what it frees is left out.
-/
import Osexp.Seush.Libc
import Osexp.Seush.System
import Osexp.Seush.Utilities

namespace Osexp.Seush

variable {w : World}

/-! ## 1. `handle_redirection` -/

/-- Store the items of one `sscanf` call in the buffers it was given, without a bound but that
of the array. -/
def Scratch.store (b : Scratch) : List (Buffer × CString) → Except Fault Scratch
  | [] => .ok b
  | (k, item) :: items =>
    if item.length < k.size then store (fun j => if j = k then item else b j) items
    else .error (.overflow k.array)

/-- `sscanf(line, format, dests..)`: the number of items assigned and the buffers. -/
def sscanf (format : List Directive) (dests : List Buffer) (line : CString) (b : Scratch) :
    Except Fault (Nat × Scratch) :=
  (b.store (dests.zip (scan format line))).map (fun b => ((scan format line).length, b))

/-- The four attempts on one text; a failed one leaves what it assigned in the buffers. -/
def scanRedirection (line : CString) (b : Scratch) : Except Fault (RedirectionType × Scratch) :=
  sscanf (format₃ '>' '<') [.commandNoredi, .rediOutfile, .rediInfile] line b >>= fun (n, b) =>
  if n = 3 then .ok (.rediOutIn, b) else
  sscanf (format₃ '<' '>') [.commandNoredi, .rediInfile, .rediOutfile] line b >>= fun (n, b) =>
  if n = 3 then .ok (.rediInOut, b) else
  sscanf (format₂ '<') [.commandNoredi, .rediInfile] line b >>= fun (n, b) =>
  if n = 2 then .ok (.rediIn, b) else
  sscanf (format₂ '>') [.commandNoredi, .rediOutfile] line b >>= fun (n, b) =>
  if n = 2 then .ok (.rediOut, b) else .ok (.noRedi, b)

/-- Open the redirection files that are not open yet, the output first. -/
def openRedirections (type : RedirectionType) (b : Scratch) (p : Process) (s : Shell w) :
    Process × Shell w :=
  let (p, s) :=
    if type.has REDI_OUT_MASK ∧ p.rediOutfd = none then
      ({ p with rediOutfd := (s.openFile (b .rediOutfile) true).1 },
        (s.openFile (b .rediOutfile) true).2)
    else (p, s)
  if type.has REDI_IN_MASK ∧ p.rediInfd = none then
    ({ p with rediInfd := (s.openFile (b .rediInfile) false).1 },
      (s.openFile (b .rediInfile) false).2)
  else (p, s)

/-- `full_path`: the directory, a slash unless it ends in one, and the name. -/
def fullPath (dir name : CString) : CString :=
  if dir.getLast? = some '/' then dir ++ name else dir ++ '/' :: name

/-- The search along `environment->paths`. -/
def searchPaths (cwd : w.Dir) (name : CString) : List CString → Option CString
  | [] => none
  | dir :: dirs =>
    if w.access cwd (fullPath dir name) then some (fullPath dir name)
    else searchPaths cwd name dirs

/-- The lookup of the program.  A NULL `argv[0]` fails in `access` and is then handed to
`strcat`, once for each directory of the search list. -/
def findExec (env : Environment) (cwd : w.Dir) (p : Process) : Except Fault Process :=
  match p.argv with
  | [] => if env.paths = [] then .ok p else .error .nullArgument
  | name :: _ =>
    if w.access cwd name then .ok { p with execPath := some name }
    else .ok { p with execPath := searchPaths cwd name env.paths }

/-- `handle_redirection`, on one entry of `process[]`. -/
def handleRedirection (b : Scratch) (line : CString) (p : Process) (env : Environment)
    (s : Shell w) : Except Fault (Process × Shell w) :=
  scanRedirection line b >>= fun (type, b) =>
  let (p, s) := openRedirections type b { p with redirected := type } s
  let argv := strtokAll [' '] (clean (b .commandNoredi))
  if MAX_ARGUMENTS_NUM < argv.length then .error (.overflow .argv)
  else (findExec env s.cwd { p with argv := argv }).map (fun p => (p, s))

/-! ## 2. What a child does -/

/-- `execv(process->exec_path, process->argv)`.  `dir` is the directory in which the program was
looked up.  A NULL path fails; an `argv` that fills its array has no NULL after its last word. -/
def execv (dir : w.Dir) (p : Process) (s : Shell w) : Child w :=
  match p.execPath with
  | none => .execv ⟨none, p.argv, s.fds, dir, s.cwd, false⟩
  | some path =>
    if MAX_ARGUMENTS_NUM ≤ p.argc then .fault .unterminatedArgv
    else .execv ⟨some path, p.argv, s.fds, dir, s.cwd, (w.file s.cwd path).any w.startable⟩

/-- `run_process`: the redirections, then `execv`.  The body of the child in `run_processes` is
the same text. -/
def runProcess (o : RunOutcome) (dir : w.Dir) (p : Process) (s : Shell w) : Child w :=
  let onErr : Option (Shell w) :=
    if p.redirected.has REDI_OUT_MASK ∧ ¬ p.redirected.has REDI_PIPE_MASK then
      s.dup2 o.dupErr p.rediOutfd STDERR_FILENO
    else some s
  let onOut : Option (Shell w) := onErr.bind fun s =>
    if p.redirected.has REDI_OUT_MASK then s.dup2 o.dupOut p.rediOutfd STDOUT_FILENO else some s
  let onIn : Option (Shell w) := onOut.bind fun s =>
    if p.redirected.has REDI_IN_MASK then s.dup2 o.dupIn p.rediInfd STDIN_FILENO else some s
  match onIn with
  | none => .exit 1
  | some s => execv dir p s

/-- `handle_redirection_exec`. -/
def handleRedirectionExec (o : StageOutcome) (line : CString) (env : Environment)
    (s : Shell w) : Child w :=
  match handleRedirection o.scratch line {} env s with
  | .error f => .fault f
  | .ok (p, t) => runProcess o.run s.cwd p (t.chdir env.cwdString)

/-! ## 3. `handle_pipe` -/

/-- The child of a stage that is not the last: its standard output becomes the pipe. -/
def pipedChild (o : StageOutcome) (firstCommand : CString) (env : Environment) (s : Shell w) :
    Child w :=
  let s := s.close s.fd.1
  let s := s.close STDOUT_FILENO
  let s := (s.dup o.childDup s.fd.2).2
  let s := s.close s.fd.2
  handleRedirectionExec o firstCommand env s

/-- The shell beside that child: its standard input becomes the pipe, and it waits. -/
def pipedParent (o : StageOutcome) (s : Shell w) : Shell w :=
  let s := s.close s.fd.2
  let s := s.close STDIN_FILENO
  let s := (s.dup o.parentDup s.fd.1).2
  let s := s.close s.fd.1
  s.log (.waitpid s.fds)

/-- The shell beside the child of the last stage: it waits, then takes its standard input back. -/
def lastParent (o : StageOutcome) (s : Shell w) : Shell w :=
  let s := s.log (.waitpid s.fds)
  (s.dup2 o.restore s.saveIn STDIN_FILENO).getD s

/-- The last stage: a pipe that nothing uses, and a child that keeps the shell's output. -/
def lastStage (o : StageOutcome) (firstCommand : CString) (env : Environment) (s : Shell w) :
    Shell w :=
  match s.pipe o.pipe with
  | none => s
  | some s =>
    if o.fork then
      lastParent o (s.log (.fork (handleRedirectionExec o firstCommand env s)))
    else s

/-- `handle_pipe`: NULL for a pipeline that has been handled, or the command when there is no
pipe.  When the `fork` of a stage fails there is no `return`, and the caller takes for a pointer
whatever is in its place.  `n` counts the stages before this call. -/
def handlePipe (env : Environment) (o : Nat → StageOutcome) (n : Nat) (line : CString)
    (leader : Bool) (s : Shell w) : Option (Except Fault CString) × Shell w :=
  match _h1 : strtok ['|'] line with
  | none => (none, s)
  | some (token, rest) =>
    match _h2 : strtok [] rest with
    | none =>
      if leader then (some (.ok (clean token)), s)
      else (none, lastStage (o n) (clean token) env s)
    | some (leftover, _) =>
      match s.pipe (o n).pipe with
      | none => (none, s)
      | some s =>
        if (o n).fork then
          let s := s.log (.fork (pipedChild (o n) (clean token) env s))
          handlePipe env o (n + 1) (clean leftover) false (pipedParent (o n) s)
        else (some (.error .missingReturn), s)
termination_by line.length
decreasing_by
  have h1 := strtok_rest_lt _h1
  have h2 : leftover = rest := by
    rw [strtok_nil] at _h2
    split at _h2
    · cases _h2
    · simpa using congrArg Prod.fst (Option.some.inj _h2).symm
  have h3 := length_clean_le leftover
  subst h2
  omega

section Equations

variable {env : Environment} {o : Nat → StageOutcome} {n : Nat} {line token rest : CString}
  {leader : Bool} {s t : Shell w}

theorem handlePipe_null (h : strtok ['|'] line = none) :
    handlePipe env o n line leader s = (none, s) := by
  rw [handlePipe]
  split
  · rfl
  · rename_i h'
    rw [h] at h'
    cases h'

theorem handlePipe_single (h : strtok ['|'] line = some (token, [])) :
    handlePipe env o n line leader s =
      if leader then (some (.ok (clean token)), s)
      else (none, lastStage (o n) (clean token) env s) := by
  rw [handlePipe]
  split
  · rename_i h'
    rw [h] at h'
    cases h'
  · rename_i h'
    rw [h] at h'
    cases h'
    rfl

theorem handlePipe_piped (h : strtok ['|'] line = some (token, rest)) (hr : rest ≠ []) :
    handlePipe env o n line leader s =
      match s.pipe (o n).pipe with
      | none => (none, s)
      | some s =>
        if (o n).fork then
          handlePipe env o (n + 1) (clean rest) false
            (pipedParent (o n) (s.log (.fork (pipedChild (o n) (clean token) env s))))
        else (some (.error .missingReturn), s) := by
  rw [handlePipe]
  split
  · rename_i h'
    rw [h] at h'
    cases h'
  · rename_i h'
    rw [h] at h'
    cases h'
    rw [strtok_nil, if_neg hr]

/-- **Induction along a pipeline**: what is left of the text has no stage, one stage, or a stage
and a rest that is cleaned and handled in turn. -/
theorem pipeline_induction {motive : CString → Prop}
    (null : ∀ line, strtok ['|'] line = none → motive line)
    (single : ∀ line token, strtok ['|'] line = some (token, []) → motive line)
    (piped : ∀ line token rest, strtok ['|'] line = some (token, rest) → rest ≠ [] →
      motive (clean rest) → motive line) (line : CString) : motive line := by
  induction hlen : line.length using Nat.strong_induction_on generalizing line with
  | _ len ih =>
    cases h : strtok ['|'] line with
    | none => exact null line h
    | some tr =>
      obtain ⟨token, rest⟩ := tr
      by_cases hr : rest = []
      · subst hr
        exact single line token h
      · have hlt := strtok_rest_lt h
        have hle := length_clean_le rest
        exact piped line token rest h hr (ih _ (by omega) (clean rest) rfl)

end Equations

/-! ## 4. `run_processes` and `parse_command` -/

/-- The forks of `run_processes`; each entry comes with the directory in which its program was
looked up. -/
def forkProcesses (o : LineOutcome) : Nat → List (Process × w.Dir) → Shell w →
    Except Fault (Shell w)
  | _, [], s => .ok s
  | number, (p, dir) :: ps, s =>
    if o.fork number then
      forkProcesses o (number + 1) ps (s.log (.fork (runProcess (o.run number) dir p s)))
    else .error (.exit 1)

/-- `run_processes`: the children, then `wait` until none is left. -/
def runProcesses (o : LineOutcome) (process : List (Process × w.Dir)) (s : Shell w) :
    Except Fault (Shell w) :=
  (forkProcesses o 0 process s).map (fun s => if process = [] then s else s.log .waitAll)

/-- `save_in = dup(0)`, its result not looked at. -/
def saveStdin (ok : Bool) (s : Shell w) : Shell w :=
  { (s.dup ok STDIN_FILENO).2 with saveIn := (s.dup ok STDIN_FILENO).1 }

/-- `save_out = dup(1)`, its result not looked at. -/
def saveStdout (ok : Bool) (s : Shell w) : Shell w :=
  { (s.dup ok STDOUT_FILENO).2 with saveOut := (s.dup ok STDOUT_FILENO).1 }

/-- The two saved streams of a segment. -/
def saveStreams (o : SegOutcome) (s : Shell w) : Shell w :=
  saveStdout o.dupOut (saveStdin o.dupIn s)

/-- One turn of the segment loop on a segment that is not blank: the standard streams are saved,
a pipeline is run, and any other command becomes a new entry of `process[]`. -/
def runSegment (env : Environment) (o : SegOutcome) (command : CString)
    (process : List (Process × w.Dir)) (s : Shell w) :
    Except Fault (List (Process × w.Dir) × Shell w) :=
  match handlePipe env o.stage 0 command true (saveStreams o s) with
  | (none, s) => .ok (process, s)
  | (some (.ok pipeRes), s) =>
    (handleRedirection o.scratch pipeRes {} env s).map
      (fun (p, t) => (process ++ [(p, s.cwd)], t))
  | (some (.error f), _) => .error f

/-- The segment loop of `parse_command`; blank segments are skipped. -/
def runSegments (env : Environment) (o : LineOutcome) : Nat → List CString →
    List (Process × w.Dir) → Shell w → Except Fault (List (Process × w.Dir) × Shell w)
  | _, [], process, s => .ok (process, s)
  | i, command :: commands, process, s =>
    if clean command = [] then runSegments env o (i + 1) commands process s
    else runSegment env (o.seg i) command process s >>= fun (process, s) =>
      runSegments env o (i + 1) commands process s

/-- The `&`-separated segments of a line. -/
def singleCommands (line : CString) : List CString := strtokAll ['&'] (clean line)

/-- `parse_command`. -/
def parseCommand (o : LineOutcome) (line : CString) (env : Environment) (s : Shell w) :
    Except Fault (Shell w) :=
  if MAX_ARGUMENTS_NUM ≤ (singleCommands line).length then .error (.overflow .singleCommands)
  else
    runSegments env o 0 (singleCommands line) [] s >>= fun (process, s) =>
    runProcesses o process (s.chdir env.cwdString)

end Osexp.Seush
