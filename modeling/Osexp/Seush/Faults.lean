/-
# The first fault of a run

The children of the shell end as they like; the shell itself goes on from line to line until a line
takes it out of the program text.  That can happen in four ways: an array of its own is overrun, a
NULL `argv[0]` gets to `strcat`, `handle_pipe` ends without `return` and what is found in the place
of its value gets to `sscanf`, or a fork of `run_processes` fails and the shell calls `exit(1)`.
After the first of them the shell may still be running (an array that is too small stops nobody),
but not as the source says, so that the question is when the first fault comes and which it is.

One would think that it depends on everything: on the files that open, the directories the shell
has been in, the descriptors it has lost.  It does not.  `textFault` goes through the lines without
a directory, a file, a descriptor or a trace, with nothing but the text that was typed, the outcomes
of the calls, and what `path` commands have left in the search list; and `faults_of_text` says that
the shell does what it says.  Whoever wants to know that a script overruns nothing has to look at
the script only.
-/
import Osexp.Seush.Accounts
import Osexp.Seush.Arrays

namespace Osexp.Seush

variable {w : World}

/-! ## 1. The fault of a text -/

/-- The fault, if it is one. -/
def faultOf {α : Type*} : Except Fault α → Option Fault
  | .error f => some f
  | .ok _ => none

/-- The fault of one call of `handle_redirection`, on a text or on what `handle_pipe` has not
returned. -/
def callFault (dirs : List CString) : Except Fault (Scratch × CString) → Option Fault
  | .error f => some f
  | .ok call =>
    match overflow call.2 with
    | some k => some (.overflow k)
    | none =>
      if MAX_ARGUMENTS_NUM < (argvOf call.1 call.2).length then some (.overflow .argv)
      else if argvOf call.1 call.2 = [] ∧ dirs ≠ [] then some .nullArgument
      else none

/-- The call of `handle_redirection` that the shell makes itself for a segment. -/
def ownCall (o : SegOutcome) (command : CString) : List (Except Fault (Scratch × CString)) :=
  if clean command = [] then []
  else (pipeCalls o.stage 0 command true).2.toList.map
    (fun res => res.map (fun text => (o.scratch, text)))

/-- Those for the segments of a line. -/
def ownCalls (o : LineOutcome) : Nat → List CString → List (Except Fault (Scratch × CString))
  | _, [] => []
  | i, command :: commands => ownCall (o.seg i) command ++ ownCalls o (i + 1) commands

/-- The first fork that fails, when there are `n` entries. -/
def forkFault (o : LineOutcome) (n : Nat) : Option Fault :=
  if ∀ number < n, o.fork number = true then none else some (.exit 1)

/-- The fault of a line. -/
def lineFault (dirs : List CString) (i : Input) : Option Fault :=
  match dispatch (clean i.1) with
  | .path args =>
    if MAX_PATH_NUM ≤ (spaceWords args).length then some (.overflow .paths) else none
  | .external =>
    if MAX_ARGUMENTS_NUM ≤ (singleCommands (clean i.1)).length then
      some (.overflow .singleCommands)
    else
      let calls := ownCalls i.2 0 (singleCommands (clean i.1))
      (calls.findSome? (callFault dirs)).or (forkFault i.2 calls.length)
  | _ => none

/-- The first fault of a list of lines.  A line that begins with NUL is passed over, and nothing is
read after `exit`. -/
def textFault : List CString → List Input → Option Fault
  | _, [] => none
  | dirs, i :: is =>
    if cstr i.1 = [] then textFault dirs is
    else (lineFault dirs i).or
      (if dispatch (clean i.1) = .exit then none else textFault (nextDirs dirs i.1) is)

section FaultOf

variable {α β : Type*}

@[simp] theorem faultOf_ok (a : α) : faultOf (.ok a : Except Fault α) = none := rfl

@[simp] theorem faultOf_error (f : Fault) : faultOf (.error f : Except Fault α) = some f := rfl

@[simp] theorem faultOf_map (x : Except Fault α) (g : α → β) : faultOf (x.map g) = faultOf x := by
  cases x <;> rfl

end FaultOf

/-! ## 2. One call -/

/-- What is read of a text all of whose items fit. -/
theorem readCommand_argv {text : CString} (h : overflow text = none) (b : Scratch) :
    ∃ r : Reading, r.argv = argvOf b text ∧ readCommand text b =
      if MAX_ARGUMENTS_NUM < (argvOf b text).length then .error (.overflow .argv) else .ok r := by
  rw [argvOf, noredi_eq]
  rcases eq_or_ne (text.takeWhile inScanset) [] with hnil | hne
  · rw [if_pos hnil, readCommand_nothing hnil]
    exact ⟨_, rfl, rfl⟩
  · rw [if_neg hne, readCommand_eq h hne]
    exact ⟨_, (readingOf_names _ (outFiles_or_inFiles text)).1, rfl⟩

theorem findExec_fault (env : Environment) (cwd : w.Dir) (p : Process) :
    faultOf (findExec env cwd p) =
      if p.argv = [] ∧ env.paths ≠ [] then some .nullArgument else none := by
  unfold findExec
  cases p.argv with
  | nil =>
    dsimp only
    split
    · rename_i hpaths
      simp [hpaths]
    · rename_i hpaths
      simp [hpaths]
  | cons name args =>
    dsimp only
    split <;> simp

/-- **The fault of one call**, whatever the state it is made in.  The items are taken of the text,
so the text decides which array they overrun. -/
theorem handleRedirection_fault (b : Scratch) (text : CString) (env : Environment) (s : Shell w) :
    faultOf (handleRedirection b text {} env s) = callFault env.paths (.ok (b, text)) := by
  rw [handleRedirection_eq, callFault]
  cases hover : overflow text with
  | some k =>
    rw [readCommand_overflow hover]
    rfl
  | none =>
    obtain ⟨r, hargv, hread⟩ := readCommand_argv hover b
    rw [hread]
    dsimp only
    split
    · rfl
    · obtain ⟨p, t, hp, hfind⟩ := handleReading_eq r env s
      have hrun : faultOf (handleReading r env s) = faultOf (findExec env t.cwd p) := by
        rw [hfind, faultOf_map]
      refine hrun.trans ?_
      rw [findExec_fault, hp, hargv]

/-! ## 3. Segments -/

section Segments

variable {env : Environment}

/-- What `handle_pipe` returns. -/
theorem handlePipe_result (o : Nat → StageOutcome) (line : CString) :
    ∀ (n : Nat) (leader : Bool) (s : Shell w),
      (handlePipe env o n line leader s).1 = (pipeCalls o n line leader).2 := by
  induction line using pipeline_induction with
  | null line h =>
    intro n leader s
    rw [handlePipe_null h, pipeCalls_null h]
  | single line token h =>
    intro n leader s
    rw [handlePipe_single h, pipeCalls_single h]
    cases leader with
    | true => rfl
    | false =>
      simp only [Bool.false_eq_true, if_false]
      split <;> rfl
  | piped line token rest h hr ih =>
    intro n leader s
    rw [handlePipe_piped h hr, pipeCalls_piped h hr]
    cases hpipe : s.pipe (o n).pipe with
    | none =>
      rw [Shell.pipe_eq_none_iff.mp hpipe]
      rfl
    | some t =>
      rw [if_pos (Shell.pipe_eq_some hpipe).1]
      dsimp only
      split
      · exact ih _ _ _
      · rfl

/-- The fault of a segment that is not blank, and otherwise the entries it adds. -/
theorem runSegment_fault {o : SegOutcome} {command : CString} (hne : clean command ≠ [])
    (process : List (Process × w.Dir)) (s : Shell w) :
    faultOf (runSegment env o command process s) =
        (ownCall o command).findSome? (callFault env.paths) ∧
      ∀ process' t, runSegment env o command process s = .ok (process', t) →
        process'.length = process.length + (ownCall o command).length := by
  rw [ownCall, if_neg hne]
  unfold runSegment
  rw [← @handlePipe_result w env o.stage command 0 true (saveStreams o s)]
  cases handlePipe env o.stage 0 command true (saveStreams o s) with
  | mk res u =>
    cases res with
    | none =>
      refine ⟨rfl, ?_⟩
      intro process' t h
      cases h
      rfl
    | some res =>
      obtain f | text := res
      · refine ⟨rfl, ?_⟩
        rintro process' t ⟨⟩
      constructor
      · rw [faultOf_map, handleRedirection_fault]
        exact List.findSome?_singleton.symm
      · intro process' t h
        obtain ⟨⟨p, v⟩, _, hpv⟩ := map_eq_ok h
        cases hpv
        rw [List.length_append]
        rfl

/-- **The segments of a line.** -/
theorem runSegments_fault {o : LineOutcome} : ∀ (i : Nat) (commands : List CString)
    (process : List (Process × w.Dir)) (s : Shell w),
    faultOf (runSegments env o i commands process s) =
        (ownCalls o i commands).findSome? (callFault env.paths) ∧
      ∀ process' t, runSegments env o i commands process s = .ok (process', t) →
        process'.length = process.length + (ownCalls o i commands).length
  | _, [], process, s => by
    refine ⟨rfl, ?_⟩
    intro process' t h
    cases h
    rfl
  | i, command :: commands, process, s => by
    rw [runSegments, ownCalls, List.findSome?_append, List.length_append]
    split
    · rename_i hblank
      rw [ownCall, if_pos hblank, List.findSome?_nil, Option.none_or, List.length_nil, Nat.zero_add]
      exact runSegments_fault (i + 1) commands process s
    · rename_i hne
      obtain ⟨hfault, hlen⟩ := @runSegment_fault w env (o.seg i) command hne process s
      rw [← hfault]
      cases hseg : runSegment env (o.seg i) command process s with
      | error f =>
        refine ⟨rfl, ?_⟩
        rintro process' t ⟨⟩
      | ok r =>
        obtain ⟨process₁, s₁⟩ := r
        obtain ⟨hfault', hlen'⟩ := runSegments_fault (i + 1) commands process₁ s₁
        refine ⟨hfault', ?_⟩
        intro process' t h
        rw [hlen' process' t h, hlen process₁ s₁ hseg, Nat.add_assoc]

/-- The forks. -/
theorem forkProcesses_fault {o : LineOutcome} : ∀ (number : Nat)
    (process : List (Process × w.Dir)) (s : Shell w),
    faultOf (forkProcesses o number process s) =
      if ∀ k < process.length, o.fork (number + k) = true then none else some (.exit 1)
  | _, [], s => by
    rw [if_pos (by simp)]
    rfl
  | number, (p, dir) :: ps, s => by
    rw [forkProcesses]
    by_cases hfork : o.fork number = true
    · rw [if_pos hfork, forkProcesses_fault (number + 1) ps]
      refine if_congr ?_ rfl rfl
      rw [List.length_cons, Nat.forall_lt_succ_left]
      simp only [Nat.add_zero, hfork, true_and, Nat.add_assoc, Nat.add_comm 1]
    · rw [if_neg hfork, if_neg]
      · rfl
      · intro hall
        exact hfork (hall 0 (by simp))

end Segments

/-! ## 4. Lines and runs -/

theorem parseCommand_fault (o : LineOutcome) (line : CString) (env : Environment) (s : Shell w) :
    faultOf (parseCommand o line env s) =
      if MAX_ARGUMENTS_NUM ≤ (singleCommands line).length then some (.overflow .singleCommands)
      else ((ownCalls o 0 (singleCommands line)).findSome? (callFault env.paths)).or
        (forkFault o (ownCalls o 0 (singleCommands line)).length) := by
  unfold parseCommand
  split
  · rfl
  · obtain ⟨hfault, hlen⟩ := @runSegments_fault w env o 0 (singleCommands line) [] s
    rw [← hfault]
    cases hsegs : runSegments env o 0 (singleCommands line) [] s with
    | error f => rfl
    | ok r =>
      obtain ⟨process, t⟩ := r
      have hentries := hlen process t hsegs
      rw [List.length_nil, Nat.zero_add] at hentries
      rw [← hentries]
      have hforks := forkProcesses_fault (o := o) 0 process (t.chdir env.cwdString)
      simp only [Nat.zero_add] at hforks
      exact (faultOf_map _ _).trans hforks

/-- **One line.**  Of the session only the search list is looked at, and of that only whether it is
empty. -/
theorem runLine_fault (i : Input) (s : Session w) :
    faultOf (runLine i.2 i.1 s) = lineFault s.env.paths i := by
  unfold runLine lineFault
  cases dispatch (clean i.1) with
  | exit => rfl
  | help => rfl
  | cd newDir => rfl
  | path args =>
    dsimp only
    rw [faultOf_map, runPath, strtokAll_space]
    split <;> rfl
  | external =>
    dsimp only
    rw [faultOf_map, parseCommand_fault]

end Osexp.Seush
