/-
# The main loop: `loop.c`

`runLine` is the body of the loop of `run_shell` on one line: the built-in commands, and
`parseCommand` for everything else.  Where the line comes from is the subject of
`Osexp.Seush.Batch`; here a run of the shell is a sequence of lines, each with the outcomes of
the calls made for it.

`chdir(environment->cwd)`, `strncpy` and `getcwd` work on the array of `MAX_PATH` bytes in the
environment, so a long name is cut and may lose its terminator.

The outcomes of the calls come with the line (`LineOutcome`), one for each call that the source
makes and looks at, so that every statement about a run is about every way in which its calls may
fail.  The files and directories are given by the `World`, which stays the same along a run; what
the programs of one line do to it is not seen by the next.

A line ends the run only by `exit`, or by a fault.
-/
import Osexp.Lib.Runs
import Osexp.Seush.RunCommand

namespace Osexp.Seush

variable {w : World}

/-! ## 1. The built-in commands -/

/-- The branch that `run_shell` takes on a cleaned line. -/
inductive Dispatch
  | exit
  | help
  | path (args : CString)
  | cd (newDir : CString)
  | external
  deriving DecidableEq, Repr

/-- The tests of `run_shell`, in order. -/
def dispatch (line : CString) : Dispatch :=
  if line = "exit".toList then .exit
  else if line = "help".toList then .help
  else if line = "path".toList ∨ "path ".toList <+: line then .path (line.drop 4)
  else if "cd ".toList <+: line then .cd (line.drop 3)
  else .external

/-- `strncpy(environment.cwd, src, MAX_PATH)`: cut at the size of the array, padded with NUL. -/
def strncpyCwd (src : CString) : List Char :=
  src.take MAX_PATH ++ List.replicate (MAX_PATH - src.length) '\x00'

theorem length_strncpyCwd (src : CString) : (strncpyCwd src).length = MAX_PATH := by
  simp only [strncpyCwd, List.length_append, List.length_take, List.length_replicate]
  omega

/-- The environment after `strncpy(environment.cwd, newDir, MAX_PATH)`. -/
def Environment.setCwd (env : Environment) (newDir : CString) : Environment :=
  { env with cwd := strncpyCwd newDir, cwd_length := length_strncpyCwd newDir }

/-- The `path` command: a new search list of the words after it.  With `MAX_PATH_NUM` words the
terminator of the list is stored behind the array, which is where `environment.cwd` begins; the
shell goes on, but not with an environment that the source knows of. -/
def runPath (args : CString) (env : Environment) : Except Fault Environment :=
  if MAX_PATH_NUM ≤ (strtokAll [' '] args).length then .error (.overflow .paths)
  else .ok { env with paths := strtokAll [' '] args, pathSetByUser := true }

/-- The `cd` command: nothing happens when the directory cannot be opened. -/
def runCd (newDir : CString) (env : Environment) (s : Shell w) : Environment × Shell w :=
  match w.opendir s.cwd newDir with
  | none => (env, s)
  | some _ => (env.setCwd newDir, s.chdir newDir)

/-! ## 2. One line, and runs of lines -/

/-- What the main loop carries from line to line. -/
structure Session (w : World) where
  env : Environment
  shell : Shell w

/-- The loop body on one line that is not empty: `none` when the shell exits. -/
def runLine (o : LineOutcome) (line : CString) (s : Session w) :
    Except Fault (Option (Session w)) :=
  match dispatch (clean line) with
  | .exit => .ok none
  | .help => .ok (some s)
  | .path args => (runPath args s.env).map (fun env => some { s with env := env })
  | .cd newDir =>
    .ok (some ⟨(runCd newDir s.env s.shell).1, (runCd newDir s.env s.shell).2⟩)
  | .external =>
    (parseCommand o (clean line) s.env s.shell).map (fun t => some { s with shell := t })

/-- The `exit` command is the only line that ends the shell normally. -/
theorem runLine_eq_none_iff {o : LineOutcome} {line : CString} {s : Session w} :
    runLine o line s = .ok none ↔ dispatch (clean line) = .exit := by
  unfold runLine
  cases dispatch (clean line) with
  | exit => simp
  | help => simp
  | path args => cases h : runPath args s.env <;> simp [h, Except.map]
  | cd newDir => simp
  | external => cases parseCommand o (clean line) s.env s.shell <;> simp [Except.map]

/-- A line with the outcomes of the calls made for it. -/
abbrev Input := CString × LineOutcome

/-- The shell reads a line and returns to the head of its loop. -/
def Step (s : Session w) (i : Input) (t : Session w) : Prop :=
  runLine i.2 i.1 s = .ok (some t)

/-- The run on a list of lines, as far as it gets. -/
def trailOf (s : Session w) : List Input → Lts.Trail (Session w) Input
  | [] => []
  | i :: is =>
    match runLine i.2 i.1 s with
    | .ok (some t) => (i, t) :: trailOf t is
    | _ => []

theorem run_trailOf (s : Session w) (is : List Input) : Lts.Run Step s (trailOf s is) := by
  induction is generalizing s with
  | nil => exact .nil s
  | cons i is ih =>
    rw [trailOf]
    split
    · rename_i t ht
      exact .cons ht (ih t)
    · exact .nil s

/-- `getcwd(environment.cwd, MAX_CWD)` and `path_set_by_user = FALSE`, in this order, on an
environment whose arrays hold whatever the stack held.  A name that does not fit in the array
runs over into `path_set_by_user`, which is then cleared.  For one that does not fit in `MAX_CWD`
bytes the call fails, and nothing is promised of the array: `stack` is then what it holds after the
call (what is written behind it is the subject of `Osexp.Seush.Arrays`). -/
def initEnvironment (start : CString) (stack : List Char) (h : stack.length = MAX_PATH) :
    Environment where
  paths := [DEFAULT_PATHS]
  cwd :=
    if start.length + 1 ≤ MAX_CWD then
      (start ++ '\x00' :: stack.drop (start.length + 1)).take MAX_PATH
    else stack
  pathSetByUser := false
  cwd_length := by
    split
    · simp only [List.length_take, List.length_append, List.length_cons, List.length_drop, h]
      omega
    · exact h

/-! ## 3. A shell in the nested directories -/

/-- The shell started in `/`. -/
def rootSession : Session nested :=
  ⟨initEnvironment "/".toList (List.replicate MAX_PATH '\x00') rfl, .start (depth 0)⟩

/-- Its run on a list of lines, with every call a success. -/
def runOf (lines : List String) : Lts.Trail (Session nested) Input :=
  trailOf rootSession (lines.map (fun line => (line.toList, .ok)))

end Osexp.Seush
