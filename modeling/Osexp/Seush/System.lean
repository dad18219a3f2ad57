/-
# The shell process and the system calls it makes

The world outside the shell (the directory tree, which programs exist and start, which files
open) is fixed during a run: no command makes, moves or removes a directory or a file that a later
line looks for.  What a call may do besides is not determined by the world: `dup`, `dup2`, `pipe`
and `fork` can fail at any time, and the arrays on the stack hold whatever was there.  Both are
given from outside, one value for each call (`LineOutcome`).

Where the source leaves the language C, by a write outside an array or by a pointer that nobody has
returned, the model stops with a `Fault` and says nothing of what the machine does next.  A result
that would need to know leaves such runs out, or counts them with those that go wrong.

The state of the shell is its working directory, its descriptor table, the three globals of
`run_command.h`, and a trace of what can be seen from outside: the children it forks, its waits
and the `open` calls.
-/
import Osexp.Lib.FdTable
import Osexp.Lib.DirTree
import Osexp.Seush.Structures

namespace Osexp.Seush

/-! ## 1. The world -/

/-- The directory tree with the files in it. -/
structure World extends DirTree where
  File : Type
  /-- the file a path names, seen from a directory -/
  file : Dir → CString → Option File
  /-- `access(_, X_OK) == 0` -/
  executable : File → Bool
  /-- `execv` replaces the caller -/
  startable : File → Bool
  /-- `open` succeeds, for writing or for reading -/
  opens : Dir → CString → Bool → Bool

/-- `access(path, X_OK) == 0`. -/
def World.access (w : World) (cwd : w.Dir) (path : CString) : Bool :=
  (w.file cwd path).any w.executable

/-- What a descriptor refers to: a file the shell was started with, the stream that `run_shell`
reads its lines from, an end of a pipe, or a file opened by name.  Two descriptors refer to the same
open file when these are equal. -/
inductive OpenFile
  | inherited (k : Nat)
  | batchFile
  | pipeRead (p : Nat)
  | pipeWrite (p : Nat)
  | opened (n : Nat) (name : CString) (write : Bool)
  deriving DecidableEq, Repr

/-- The number of an open file is one of those given out before `n`. -/
def OpenFile.MadeBefore (n : Nat) : OpenFile → Prop
  | .inherited _ => True
  | .batchFile => True
  | .pipeRead p => p < n
  | .pipeWrite p => p < n
  | .opened k _ _ => k < n

theorem OpenFile.MadeBefore.mono {m n : Nat} (h : m ≤ n) :
    ∀ f : OpenFile, f.MadeBefore m → f.MadeBefore n
  | .inherited _, _ => trivial
  | .batchFile, _ => trivial
  | .pipeRead _, hf => Nat.lt_of_lt_of_le hf h
  | .pipeWrite _, hf => Nat.lt_of_lt_of_le hf h
  | .opened _ _ _, hf => Nat.lt_of_lt_of_le hf h

/-! ## 2. Faults and outcomes -/

/-- The arrays of fixed size that the shell fills. -/
inductive FixedArray
  | singleCommands | argv | commandNoredi | rediInfile | rediOutfile | paths | cwd
  deriving DecidableEq, Repr

/-- The ways in which a process leaves the program text: a write outside an array, an `argv`
without its final NULL handed to `execv`, a NULL handed to `strcat`, the value of a function that
ended without `return`, and `exit`. -/
inductive Fault
  | overflow (array : FixedArray)
  | unterminatedArgv
  | nullArgument
  | missingReturn
  | exit (code : Nat)
  deriving DecidableEq, Repr

/-- The fault is a write outside an array, or an `argv` without its NULL: the process goes on, but
not as the source says. -/
def Fault.overruns : Fault → Bool
  | .overflow _ => true
  | .unterminatedArgv => true
  | .nullArgument => false
  | .missingReturn => false
  | .exit _ => false

/-- The local buffers of `handle_redirection`. -/
inductive Buffer
  | commandNoredi | rediOutfile | rediInfile
  deriving DecidableEq, Repr

def Buffer.size : Buffer → Nat
  | .commandNoredi => MAX_COMMAND_NOREDI
  | .rediOutfile => MAX_REDIFILE
  | .rediInfile => MAX_REDIFILE

def Buffer.array : Buffer → FixedArray
  | .commandNoredi => .commandNoredi
  | .rediOutfile => .rediOutfile
  | .rediInfile => .rediInfile

/-- The strings in the local buffers; before the first assignment, what the stack held. -/
abbrev Scratch := Buffer → CString

/-- The `dup2` calls of one child. -/
structure RunOutcome where
  dupErr : Bool
  dupOut : Bool
  dupIn : Bool

/-- The calls of one stage of a pipeline. -/
structure StageOutcome where
  pipe : Bool
  fork : Bool
  childDup : Bool
  parentDup : Bool
  restore : Bool
  scratch : Scratch
  run : RunOutcome

/-- The calls of one `&`-segment. -/
structure SegOutcome where
  dupIn : Bool
  dupOut : Bool
  stage : Nat → StageOutcome
  scratch : Scratch

/-- The calls of one line.  `strayExits` is how many of the children that have written outside an
array get to a call of `exit` all the same. -/
structure LineOutcome where
  seg : Nat → SegOutcome
  fork : Nat → Bool
  run : Nat → RunOutcome
  strayExits : Nat

/-! ## 3. The state -/

variable {w : World}

/-- A call of `execv`: its arguments, the descriptors at that moment, the directory in which the
program was looked up and the one it is started in, and whether the program starts. -/
structure Exec (w : World) where
  path : Option CString
  argv : List CString
  fds : FdTable OpenFile
  accessDir : w.Dir
  execDir : w.Dir
  started : Bool

/-- How a forked child leaves the shell's program. -/
inductive Child (w : World)
  | execv (e : Exec w)
  | exit (code : Nat)
  | fault (f : Fault)

/-- The child leaves through `exit`: a failed `dup2`, or an `execv` that returned. -/
def Child.exits : Child w → Bool
  | .execv e => !e.started
  | .exit _ => true
  | .fault _ => false

/-- The child has written outside an array, and where it goes from there is not in the source. -/
def Child.strays : Child w → Bool
  | .fault f => f.overruns
  | _ => false

/-- What can be seen of the shell from outside. -/
inductive Event (w : World)
  | fork (c : Child w)
  /-- `waitpid(-1, ..)`, with the descriptors the shell holds meanwhile -/
  | waitpid (fds : FdTable OpenFile)
  /-- the loop of `wait` in `run_processes` -/
  | waitAll
  | openCall (name : CString) (write : Bool)

/-- The shell process.  `fresh` counts the open files made so far; those in the table were made
before. -/
structure Shell (w : World) where
  cwd : w.Dir
  fds : FdTable OpenFile
  fresh : Nat
  saveIn : Option Nat
  saveOut : Option Nat
  fd : Nat × Nat
  trace : List (Event w)
  numbered : fds.Forall (OpenFile.MadeBefore fresh)

namespace Shell

/-! ## 4. The calls -/

/-- Append to the trace. -/
def log (e : Event w) (s : Shell w) : Shell w := { s with trace := s.trace ++ [e] }

/-- `close(k)`. -/
def close (k : Nat) (s : Shell w) : Shell w :=
  { s with fds := s.fds.close k, numbered := s.numbered.close k }

/-- `dup(k)`: the lowest free descriptor, or -1. -/
def dup (ok : Bool) (k : Nat) (s : Shell w) : Option Nat × Shell w :=
  match h : s.fds.get k with
  | none => (none, s)
  | some f =>
    if ok then
      (some s.fds.lowest,
        { s with fds := s.fds.alloc f, numbered := s.numbered.alloc (s.numbered k f h) })
    else (none, s)

/-- `dup2(src, dst)`, `none` when it fails. -/
def dup2 (ok : Bool) (src : Option Nat) (dst : Nat) (s : Shell w) : Option (Shell w) :=
  match src with
  | none => none
  | some k =>
    match h : s.fds.get k with
    | none => none
    | some f =>
      if ok then
        some { s with fds := s.fds.set dst f, numbered := s.numbered.set (s.numbered k f h) dst }
      else none

/-- `pipe(fd)`, `none` when it fails: both ends on the lowest free descriptors, read end first. -/
def pipe (ok : Bool) (s : Shell w) : Option (Shell w) :=
  if ok then
    let t := s.fds.alloc (.pipeRead s.fresh)
    some { s with
      fds := t.alloc (.pipeWrite s.fresh)
      fresh := s.fresh + 1
      fd := (s.fds.lowest, t.lowest)
      numbered := ((s.numbered.mono (OpenFile.MadeBefore.mono (Nat.le_succ _))).alloc
        (v := .pipeRead s.fresh) (Nat.lt_succ_self s.fresh)).alloc
        (v := .pipeWrite s.fresh) (Nat.lt_succ_self s.fresh) }
  else none

/-- `open(name, ..)`: the lowest free descriptor, or -1. -/
def openFile (name : CString) (write : Bool) (s : Shell w) : Option Nat × Shell w :=
  let s := s.log (.openCall name write)
  if w.opens s.cwd name write then
    (some s.fds.lowest,
      { s with
        fds := s.fds.alloc (.opened s.fresh name write)
        fresh := s.fresh + 1
        numbered := (s.numbered.mono (OpenFile.MadeBefore.mono (Nat.le_succ _))).alloc
          (v := .opened s.fresh name write) (Nat.lt_succ_self s.fresh) })
  else (none, s)

/-- `chdir(path)`, its result not looked at. -/
def chdir (path : CString) (s : Shell w) : Shell w :=
  { s with cwd := (w.chdir s.cwd path).getD s.cwd }

/-! ## 5. What the calls leave alone -/

@[simp] theorem log_fds (e : Event w) (s : Shell w) : (s.log e).fds = s.fds := rfl
@[simp] theorem log_cwd (e : Event w) (s : Shell w) : (s.log e).cwd = s.cwd := rfl
@[simp] theorem log_fresh (e : Event w) (s : Shell w) : (s.log e).fresh = s.fresh := rfl
@[simp] theorem log_saveIn (e : Event w) (s : Shell w) : (s.log e).saveIn = s.saveIn := rfl
@[simp] theorem log_fd (e : Event w) (s : Shell w) : (s.log e).fd = s.fd := rfl
@[simp] theorem log_trace (e : Event w) (s : Shell w) : (s.log e).trace = s.trace ++ [e] := rfl

@[simp] theorem close_fds (k : Nat) (s : Shell w) : (s.close k).fds = s.fds.close k := rfl
@[simp] theorem close_cwd (k : Nat) (s : Shell w) : (s.close k).cwd = s.cwd := rfl
@[simp] theorem close_fresh (k : Nat) (s : Shell w) : (s.close k).fresh = s.fresh := rfl
@[simp] theorem close_saveIn (k : Nat) (s : Shell w) : (s.close k).saveIn = s.saveIn := rfl
@[simp] theorem close_fd (k : Nat) (s : Shell w) : (s.close k).fd = s.fd := rfl
@[simp] theorem close_trace (k : Nat) (s : Shell w) : (s.close k).trace = s.trace := rfl

@[simp] theorem chdir_fds (p : CString) (s : Shell w) : (s.chdir p).fds = s.fds := rfl
@[simp] theorem chdir_fresh (p : CString) (s : Shell w) : (s.chdir p).fresh = s.fresh := rfl
@[simp] theorem chdir_saveIn (p : CString) (s : Shell w) : (s.chdir p).saveIn = s.saveIn := rfl
@[simp] theorem chdir_trace (p : CString) (s : Shell w) : (s.chdir p).trace = s.trace := rfl

/-- A `dup` changes the descriptor table only. -/
theorem dup_frame (ok : Bool) (k : Nat) (s : Shell w) :
    (s.dup ok k).2.cwd = s.cwd ∧ (s.dup ok k).2.fresh = s.fresh ∧
      (s.dup ok k).2.saveIn = s.saveIn ∧ (s.dup ok k).2.fd = s.fd ∧
      (s.dup ok k).2.trace = s.trace := by
  unfold dup
  split
  · simp
  · split <;> simp

/-- A `dup` of an open descriptor, the kernel willing. -/
theorem dup_of_get {k : Nat} {f : OpenFile} {s : Shell w} (h : s.fds.get k = some f) :
    (s.dup true k).1 = some s.fds.lowest ∧ (s.dup true k).2.fds = s.fds.alloc f := by
  unfold dup
  split
  · rename_i h'
    rw [h] at h'
    cases h'
  · rename_i g h'
    rw [h] at h'
    cases h'
    exact ⟨rfl, rfl⟩

/-- A `dup` of a closed descriptor fails. -/
theorem dup_of_closed {ok : Bool} {k : Nat} {s : Shell w} (h : s.fds.get k = none) :
    s.dup ok k = (none, s) := by
  unfold dup
  split
  · rfl
  · rename_i g h'
    rw [h] at h'
    cases h'

/-- A `dup` that the kernel refuses. -/
theorem dup_false (k : Nat) (s : Shell w) : s.dup false k = (none, s) := by
  unfold dup
  split <;> simp

/-- The table after a `dup`, whether it succeeds or not. -/
theorem dup_get (ok : Bool) (k : Nat) (s : Shell w) (j : Nat) :
    (s.dup ok k).2.fds.get j =
      if ok = true ∧ j = s.fds.lowest then s.fds.get k else s.fds.get j := by
  cases hk : s.fds.get k with
  | none =>
    rw [dup_of_closed hk]
    split
    · rename_i hj
      rw [hj.2]
      exact FdTable.get_lowest _
    · rfl
  | some f =>
    cases ok with
    | false =>
      rw [dup_false]
      simp
    | true =>
      rw [(dup_of_get hk).2, FdTable.get_alloc]
      simp

/-- What a successful `dup2` changes. -/
theorem dup2_eq_some {ok : Bool} {src : Option Nat} {dst : Nat} {s t : Shell w}
    (h : s.dup2 ok src dst = some t) :
    ok = true ∧ ∃ k f, src = some k ∧ s.fds.get k = some f ∧ t.fds = s.fds.set dst f ∧
      t.cwd = s.cwd ∧ t.fresh = s.fresh ∧ t.saveIn = s.saveIn ∧ t.trace = s.trace := by
  unfold dup2 at h
  split at h
  · cases h
  · rename_i k
    split at h
    · cases h
    · rename_i f hf
      split at h
      · rename_i hok
        cases h
        exact ⟨hok, k, f, rfl, hf, rfl, rfl, rfl, rfl, rfl⟩
      · cases h

/-- When a `dup2` fails. -/
theorem dup2_eq_none_iff {ok : Bool} {src : Option Nat} {dst : Nat} {s : Shell w} :
    s.dup2 ok src dst = none ↔ ok = false ∨ src.bind s.fds.get = none := by
  unfold dup2
  split
  · simp
  · rename_i k
    split
    · rename_i hk
      simp [hk]
    · rename_i f hf
      cases ok <;> simp [hf]

theorem pipe_eq_none_iff {ok : Bool} {s : Shell w} : s.pipe ok = none ↔ ok = false := by
  unfold pipe
  cases ok <;> simp

/-- What a successful `pipe` changes. -/
theorem pipe_eq_some {ok : Bool} {s t : Shell w} (h : s.pipe ok = some t) :
    ok = true ∧ t.cwd = s.cwd ∧ t.fresh = s.fresh + 1 ∧ t.saveIn = s.saveIn ∧
      t.trace = s.trace ∧ t.fd.1 = s.fds.lowest ∧
      t.fd.2 = (s.fds.alloc (.pipeRead s.fresh)).lowest ∧
      t.fds = (s.fds.alloc (.pipeRead s.fresh)).alloc (.pipeWrite s.fresh) := by
  unfold pipe at h
  split at h
  · rename_i hok
    cases h
    exact ⟨hok, rfl, rfl, rfl, rfl, rfl, rfl, rfl⟩
  · cases h

end Shell

/-! ## 6. The start, and a kernel that refuses nothing -/

/-- The shell as it is started in a directory: the three standard streams, nothing else. -/
def Shell.start (dir : w.Dir) : Shell w where
  cwd := dir
  fds := ((FdTable.empty.alloc (.inherited 0)).alloc (.inherited 1)).alloc (.inherited 2)
  fresh := 0
  saveIn := none
  saveOut := none
  fd := (0, 0)
  trace := []
  numbered := by
    intro k f hf
    rw [FdTable.get_alloc, FdTable.get_alloc, FdTable.get_alloc] at hf
    split_ifs at hf <;> cases hf <;> trivial

/-- Directories numbered by their depth, each with a `sub` below it; `/bin/ls` is the one program,
and every other file opens. -/
def nested : World where
  Dir := Nat
  root := 0
  child := fun d name =>
    if name = "sub".toList then some (d + 1) else if name = "..".toList then some (d - 1) else none
  readable := fun _ => true
  searchable := fun _ => true
  File := Unit
  file := fun _ path => if path = "/bin/ls".toList then some () else none
  executable := fun _ => true
  startable := fun _ => true
  opens := fun _ _ _ => true

instance : DecidableEq nested.Dir := inferInstanceAs (DecidableEq Nat)

/-- The directory `n` levels below the root. -/
def depth (n : Nat) : nested.Dir := n

/-- Every call for a stage succeeds, and the buffers start out empty. -/
def StageOutcome.ok : StageOutcome where
  pipe := true
  fork := true
  childDup := true
  parentDup := true
  restore := true
  scratch := fun _ => []
  run := ⟨true, true, true⟩

/-- Every call for a line succeeds. -/
def LineOutcome.ok : LineOutcome where
  seg := fun _ => ⟨true, true, fun _ => .ok, fun _ => []⟩
  fork := fun _ => true
  run := fun _ => ⟨true, true, true⟩
  strayExits := 0

end Osexp.Seush
