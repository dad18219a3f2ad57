/-
# The arrays of fixed size

The lines come from `getline` and may be of any length; the seven arrays that the shell fills from
them are of fixed size, and no loop, format or call that fills one looks at its size.  `strncpy` is
the exception, and leaves an array without a terminator.

`arrays_respected`: in every run whose lines fit (`LineFits`), every write stays inside its array,
every `argv` has a NULL after its last word, and `environment.cwd` its terminator.  What has to fit
is said of the texts alone: of the segments of a line, and of the texts that `handle_redirection`
is called with (`pipeCalls`), which depend on the calls of the pipeline only in how far it gets.

What a line does that overruns an array is not in the source: the process goes on with the memory it
has overwritten, and may do anything or nothing.  So the runs here are those of the machine
(`MachineStep`), in which such a line leads to any session, and a condition that let one of them
pass would be of no use.  Whatever else is proved of the shell is about the lines within the arrays,
and this module says which these are.

One array is filled before the first line: `getcwd` is told 300 bytes for the 100 of
`environment.cwd`, and what it leaves there when the name is even longer is not specified
(`spills`).
-/
import Osexp.Seush.Reading

namespace Osexp.Seush

open Lts

variable {w : World}

/-! ## 1. What has to hold -/

/-- The child has kept to its arrays. -/
def Child.Respects : Child w → Prop
  | .execv e => e.argv.length < MAX_ARGUMENTS_NUM
  | .exit _ => True
  | .fault f => f.overruns = false

/-- All children so far have. -/
def Shell.Respects (s : Shell w) : Prop := ∀ c, Event.fork c ∈ s.trace → c.Respects

/-- At the head of the loop: `environment.cwd` ends within its array, the search list too, and so
have the children. -/
structure Session.Respects (s : Session w) : Prop where
  cwd : '\x00' ∈ s.env.cwd
  paths : s.env.paths.length < MAX_PATH_NUM
  children : s.shell.Respects

/-- While a line is run: the shell is not left by a write outside an array, and at every point the
segment loop gets to, each entry of `process[]` has a NULL after its last word. -/
structure LineRespects (s : Session w) (i : Input) : Prop where
  shell : ∀ f, runLine i.2 i.1 s = .error f → f.overruns = false
  segments : dispatch (clean i.1) = .external →
    ∀ commands process t, commands <+: singleCommands (clean i.1) →
      runSegments s.env i.2 0 commands [] s.shell = .ok (process, t) →
      (∀ q ∈ process, q.1.argc < MAX_ARGUMENTS_NUM) ∧ t.Respects

/-- `getcwd(environment.cwd, MAX_CWD)`: the size that it is told is not that of the array.  A name
that does not fit even in that size is an error, after which nothing is promised of the `MAX_CWD`
bytes it was told of; `spills` says whether it has written some of those behind the array. -/
def startEnvironment (start : CString) (stack : List Char) (spills : Bool)
    (h : stack.length = MAX_PATH) : Except Fault Environment :=
  if MAX_PATH < start.length + 1 ∧ (start.length + 1 ≤ MAX_CWD ∨ spills = true) then
    .error (.overflow .cwd)
  else .ok (initEnvironment start stack h)

/-! ## 2. What fits -/

/-- What `command_noredi` holds when `argv` is filled from it: the text before the first operator,
or what was there before if there is no such text. -/
def noredi (b : Scratch) (text : CString) : CString :=
  (scan [.scanset] text).headD (b .commandNoredi)

/-- The words that `argv` is filled with. -/
def argvOf (b : Scratch) (text : CString) : List CString := strtokAll [' '] (clean (noredi b text))

/-- What the formats take of the text fits in 200 bytes, and the words in `argv`. -/
structure CallFits (b : Scratch) (text : CString) : Prop where
  items : ∀ item ∈ scan (format₃ '>' '<') text ++ scan (format₃ '<' '>') text,
    item.length < MAX_COMMAND_NOREDI
  words : (argvOf b text).length < MAX_ARGUMENTS_NUM

/-- The texts for which the children of a pipeline call `handle_redirection`, as far as the calls
of `pipe` and `fork` let it get, and what `handle_pipe` returns. -/
def pipeCalls (o : Nat → StageOutcome) (n : Nat) (line : CString) (leader : Bool) :
    List (Scratch × CString) × Option (Except Fault CString) :=
  match _h : strtok ['|'] line with
  | none => ([], none)
  | some (token, rest) =>
    if rest = [] then
      if leader then ([], some (.ok (clean token)))
      else if (o n).pipe && (o n).fork then ([((o n).scratch, clean token)], none)
      else ([], none)
    else if (o n).pipe then
      if (o n).fork then
        (((o n).scratch, clean token) :: (pipeCalls o (n + 1) (clean rest) false).1,
          (pipeCalls o (n + 1) (clean rest) false).2)
      else ([], some (.error .missingReturn))
    else ([], none)
termination_by line.length
decreasing_by
  all_goals
    have h1 := strtok_rest_lt _h
    have h2 := length_clean_le rest
    omega

/-- Every call of `handle_redirection` for the segment fits. -/
structure SegmentFits (o : SegOutcome) (command : CString) : Prop where
  stages : ∀ call ∈ (pipeCalls o.stage 0 command true).1, CallFits call.1 call.2
  single : ∀ text, (pipeCalls o.stage 0 command true).2 = some (.ok text) →
    CallFits o.scratch text

/-- The shell does not hand the NULL of an empty `argv` to `strcat`, nor to `sscanf` what
`handle_pipe` has not returned. -/
def Survives (env : Environment) (o : SegOutcome) (command : CString) : Prop :=
  match (pipeCalls o.stage 0 command true).2 with
  | none => True
  | some (.ok text) => env.paths = [] ∨ argvOf o.scratch text ≠ []
  | some (.error _) => False

/-- Every segment that is not blank fits, as far as the loop gets. -/
def SegmentsFit (env : Environment) (o : LineOutcome) : Nat → List CString → Prop
  | _, [] => True
  | i, command :: commands =>
    if clean command = [] then SegmentsFit env o (i + 1) commands
    else SegmentFits (o.seg i) command ∧
      (Survives env (o.seg i) command → SegmentsFit env o (i + 1) commands)

/-- The line fits in the arrays: the words of a `path` command, the name of a directory that `cd`
can open, the segments of any other line. -/
def LineFits (s : Session w) (i : Input) : Prop :=
  match dispatch (clean i.1) with
  | .path args => (spaceWords args).length < MAX_PATH_NUM
  | .cd newDir => w.opendir s.shell.cwd newDir ≠ none → newDir.length < MAX_PATH
  | .external => (singleCommands (clean i.1)).length < MAX_ARGUMENTS_NUM ∧
      SegmentsFit s.env i.2 0 (singleCommands (clean i.1))
  | _ => True

/-! ## 3. One call of `handle_redirection` -/

section Call

variable {env : Environment} {b : Scratch} {text : CString}

theorem noredi_eq (b : Scratch) (text : CString) :
    noredi b text =
      if text.takeWhile inScanset = [] then b .commandNoredi else text.takeWhile inScanset := by
  unfold noredi
  rw [scan]
  simp only [List.isEmpty_iff]
  split <;> rfl

/-- No item is too long for its buffer. -/
theorem CallFits.overflow (h : CallFits b text) : overflow text = none := by
  refine Option.map_eq_none_iff.mpr (itemsFit_iff.mp ?_)
  intro e he
  have hlen : e.2.length < MAX_COMMAND_NOREDI := by
    refine h.items e.2 ?_
    rcases List.mem_append.mp he with he | he
    · exact List.mem_append_left _ (List.of_mem_zip he).2
    · exact List.mem_append_right _ (List.of_mem_zip he).2
  cases e.1 <;> exact hlen

/-- **A text that fits is read**, with the words of the text before the first operator. -/
theorem CallFits.reading (h : CallFits b text) :
    ∃ r, readCommand text b = .ok r ∧ r.argv = argvOf b text := by
  have hwords := Nat.not_lt.mpr h.words.le
  rw [argvOf, noredi_eq] at *
  rcases eq_or_ne (text.takeWhile inScanset) [] with hnil | hne
  · rw [if_pos hnil] at *
    rw [readCommand_nothing hnil]
    exact ⟨_, if_neg hwords, rfl⟩
  · rw [if_neg hne] at *
    rw [readCommand_eq h.overflow hne]
    exact ⟨_, if_neg hwords, (readingOf_names _ (outFiles_or_inFiles text)).1⟩

/-- The lookup goes on with an empty `argv` only along an empty search list. -/
theorem findExec_ok {cwd : w.Dir} {p q : Process} (h : findExec env cwd p = .ok q) :
    env.paths = [] ∨ p.argv ≠ [] := by
  unfold findExec at h
  cases hargv : p.argv with
  | nil =>
    rw [hargv] at h
    dsimp only at h
    split at h
    · rename_i hpaths
      exact Or.inl hpaths
    · cases h
  | cons name args => exact Or.inr (List.cons_ne_nil name args)

theorem findExec_error {cwd : w.Dir} {p : Process} {f : Fault}
    (h : findExec env cwd p = .error f) : f.overruns = false := by
  unfold findExec at h
  split at h
  · split at h
    · cases h
    · cases h
      rfl
  · split at h <;> cases h

/-- An entry whose words fit, and an empty `argv` only for an empty search list. -/
theorem CallFits.argv (h : CallFits b text) {s t : Shell w} {p : Process}
    (hp : handleRedirection b text {} env s = .ok (p, t)) :
    p.argc < MAX_ARGUMENTS_NUM ∧ (env.paths = [] ∨ argvOf b text ≠ []) := by
  obtain ⟨r, hr, hargv⟩ := h.reading
  obtain ⟨q, u, hq, hfind⟩ := handleReading_eq r env s
  rw [handleRedirection_eq, hr] at hp
  obtain ⟨p', hp', hpair⟩ := map_eq_ok (hfind.symm.trans hp)
  cases hpair
  rw [← hargv, ← hq]
  refine ⟨?_, findExec_ok hp'⟩
  rw [Process.argc, (findExec_spec hp').1, hq, hargv]
  exact h.words

/-- It fails only for the NULL of an empty `argv`. -/
theorem CallFits.fault (h : CallFits b text) {s : Shell w} {f : Fault}
    (hf : handleRedirection b text {} env s = .error f) : f.overruns = false := by
  obtain ⟨r, hr, _⟩ := h.reading
  obtain ⟨q, u, _, hfind⟩ := handleReading_eq r env s
  rw [handleRedirection_eq, hr] at hf
  replace hf := hfind.symm.trans hf
  cases he : findExec env u.cwd q with
  | error g =>
    rw [he] at hf
    cases hf
    exact findExec_error he
  | ok p =>
    rw [he] at hf
    cases hf

/-! ### The children -/

/-- A process whose words fit is started with a NULL after them, or not at all. -/
theorem runProcess_respects {p : Process} (hp : p.argc < MAX_ARGUMENTS_NUM) (o : RunOutcome)
    (dir : w.Dir) (s : Shell w) : (runProcess o dir p s).Respects := by
  unfold runProcess
  dsimp only
  split
  · exact trivial
  · unfold execv
    split
    · exact hp
    · rw [if_neg (Nat.not_le.mpr hp)]
      exact hp

theorem handleRedirectionExec_respects {o : StageOutcome} (h : CallFits o.scratch text)
    (s : Shell w) : (handleRedirectionExec o text env s).Respects := by
  unfold handleRedirectionExec
  split
  · rename_i f hf
    exact h.fault hf
  · rename_i p t hp
    exact runProcess_respects (h.argv hp).1 _ _ _

end Call

/-! ## 4. The trace -/

namespace Shell.Respects

variable {s t : Shell w}

theorem of_trace_eq (hs : s.Respects) (h : t.trace = s.trace) : t.Respects := by
  intro c hc
  exact hs c (h ▸ hc)

theorem fork (hs : s.Respects) {c : Child w} (hc : c.Respects) : (s.log (.fork c)).Respects := by
  intro d hd
  rcases List.mem_append.mp hd with hd | hd
  · exact hs d hd
  · cases List.mem_singleton.mp hd
    exact hc

/-- Events that are no fork do not matter. -/
theorem append (hs : s.Respects) {events : List (Event w)} (h : t.trace = s.trace ++ events)
    (hevents : ∀ c, Event.fork c ∉ events) : t.Respects := by
  intro c hc
  rw [h] at hc
  exact hs c ((List.mem_append.mp hc).resolve_right (hevents c))

theorem openRedirections (hs : s.Respects) (type : RedirectionType) (c : Scratch)
    (p : Process) : (openRedirections type c p s).2.Respects := by
  refine openRedirections_keeps ?_ hs type c p
  intro name write t ht
  exact ht.append (openFile_frame name write t).2.1 (by simp)

end Shell.Respects

/-! ## 5. A pipeline -/

section Pipeline

variable {o : Nat → StageOutcome} {n : Nat} {line token rest : CString} {leader : Bool}

theorem pipeCalls_null (h : strtok ['|'] line = none) : pipeCalls o n line leader = ([], none) := by
  rw [pipeCalls]
  split
  · rfl
  · rename_i h'
    rw [h] at h'
    cases h'

theorem pipeCalls_single (h : strtok ['|'] line = some (token, [])) :
    pipeCalls o n line leader =
      if leader then ([], some (.ok (clean token)))
      else if (o n).pipe && (o n).fork then ([((o n).scratch, clean token)], none)
      else ([], none) := by
  rw [pipeCalls]
  split
  · rename_i h'
    rw [h] at h'
    cases h'
  · rename_i h'
    rw [h] at h'
    cases h'
    rw [if_pos rfl]

theorem pipeCalls_piped (h : strtok ['|'] line = some (token, rest)) (hr : rest ≠ []) :
    pipeCalls o n line leader =
      if (o n).pipe then
        if (o n).fork then
          (((o n).scratch, clean token) :: (pipeCalls o (n + 1) (clean rest) false).1,
            (pipeCalls o (n + 1) (clean rest) false).2)
        else ([], some (.error .missingReturn))
      else ([], none) := by
  rw [pipeCalls]
  split
  · rename_i h'
    rw [h] at h'
    cases h'
  · rename_i h'
    rw [h] at h'
    cases h'
    rw [if_neg hr]

/-- It returns no fault but the missing value. -/
theorem pipeCalls_error {f : Fault} (o : Nat → StageOutcome) (line : CString) :
    ∀ (n : Nat) (leader : Bool), (pipeCalls o n line leader).2 = some (.error f) →
      f = .missingReturn := by
  induction line using pipeline_induction with
  | null line h =>
    intro n leader hf
    rw [pipeCalls_null h] at hf
    cases hf
  | single line token h =>
    intro n leader hf
    rw [pipeCalls_single h] at hf
    split at hf
    · cases hf
    · split at hf <;> cases hf
  | piped line token rest h hr ih =>
    intro n leader hf
    rw [pipeCalls_piped h hr] at hf
    split at hf
    · split at hf
      · exact ih (n + 1) false hf
      · cases hf
        rfl
    · cases hf

variable {env : Environment}

theorem lastStage_respects {s : Shell w} (hs : s.Respects) {o : StageOutcome} {text : CString}
    (h : (o.pipe && o.fork) = true → CallFits o.scratch text) :
    (lastStage o text env s).Respects := by
  unfold lastStage
  split
  · exact hs
  · rename_i t ht
    have ht' : t.Respects := hs.of_trace_eq (Shell.pipe_eq_some ht).2.2.2.2.1
    split
    · rename_i hfork
      have hcall : CallFits o.scratch text := h (by rw [(Shell.pipe_eq_some ht).1, hfork]; rfl)
      exact (ht'.fork (handleRedirectionExec_respects hcall t)).append (lastParent_log _ _).2
        (by simp)
    · exact ht'

/-- **A pipeline whose texts fit**: its children keep to their arrays, and what it returns is what
`pipeCalls` says. -/
theorem handlePipe_respects (o : Nat → StageOutcome) (line : CString) :
    ∀ (n : Nat) (leader : Bool) (s : Shell w),
      (∀ call ∈ (pipeCalls o n line leader).1, CallFits call.1 call.2) → s.Respects →
      (handlePipe env o n line leader s).2.Respects ∧
        (handlePipe env o n line leader s).1 = (pipeCalls o n line leader).2 := by
  induction line using pipeline_induction with
  | null line h =>
    intro n leader s _ hs
    rw [handlePipe_null h, pipeCalls_null h]
    exact ⟨hs, rfl⟩
  | single line token h =>
    intro n leader s hcalls hs
    rw [handlePipe_single h, pipeCalls_single h] at *
    cases leader with
    | false =>
      simp only [Bool.false_eq_true, if_false] at hcalls ⊢
      refine ⟨lastStage_respects hs (fun hgo => ?_), ?_⟩
      · rw [if_pos hgo] at hcalls
        exact hcalls _ List.mem_cons_self
      · split <;> rfl
    | true => exact ⟨hs, rfl⟩
  | piped line token rest h hr ih =>
    intro n leader s hcalls hs
    rw [handlePipe_piped h hr, pipeCalls_piped h hr] at *
    split
    · rename_i hpipe
      rw [Shell.pipe_eq_none_iff.mp hpipe]
      exact ⟨hs, rfl⟩
    · rename_i t ht
      have ht' : t.Respects := hs.of_trace_eq (Shell.pipe_eq_some ht).2.2.2.2.1
      have hpipe : (o n).pipe = true := (Shell.pipe_eq_some ht).1
      rw [if_pos hpipe] at hcalls ⊢
      split
      · rename_i hfork
        rw [if_pos hfork] at hcalls
        obtain ⟨hcall, hcalls⟩ := List.forall_mem_cons.mp hcalls
        have hchild : (pipedChild (o n) (clean token) env t).Respects :=
          handleRedirectionExec_respects hcall _
        exact ih _ _ _ hcalls ((ht'.fork hchild).append (pipedParent_frame _ _).2 (by simp))
      · exact ⟨ht', rfl⟩

end Pipeline

/-! ## 6. The segments and the children of a line -/

section Line

variable {env : Environment}

/-- Entries of `process[]` with a NULL after their last word. -/
def EntriesFit (process : List (Process × w.Dir)) : Prop :=
  ∀ q ∈ process, q.1.argc < MAX_ARGUMENTS_NUM

/-- What a segment leaves, or the fault that ends it. -/
theorem runSegment_respects {o : SegOutcome} {command : CString} (h : SegmentFits o command)
    {process : List (Process × w.Dir)} {s : Shell w} (hp : EntriesFit process)
    (hs : s.Respects) :
    (∀ process' t, runSegment env o command process s = .ok (process', t) →
        EntriesFit process' ∧ t.Respects ∧ Survives env o command) ∧
      ∀ f, runSegment env o command process s = .error f → f.overruns = false := by
  have hsave : (saveStreams o s).Respects := hs.of_trace_eq (saveStreams_frame o s).2.1
  obtain ⟨hpipe, hres⟩ :=
    @handlePipe_respects w env o.stage command 0 true (saveStreams o s) h.stages hsave
  unfold runSegment
  cases hrun : handlePipe env o.stage 0 command true (saveStreams o s) with
  | mk res u =>
    rw [hrun] at hpipe hres
    cases res with
    | none =>
      refine ⟨?_, (by rintro f ⟨⟩)⟩
      intro process' t ht
      cases ht
      exact ⟨hp, hpipe, by rw [Survives, ← hres]; exact trivial⟩
    | some res =>
      obtain g | text := res
      · -- `handle_pipe` has not returned
        refine ⟨(by rintro _ _ ⟨⟩), ?_⟩
        intro f hf
        cases hf
        rw [pipeCalls_error _ _ _ _ hres.symm]
        rfl
      have hcall : CallFits o.scratch text := h.single text hres.symm
      constructor
      · intro process' t ht
        obtain ⟨⟨p, v⟩, hv, hpv⟩ := map_eq_ok ht
        cases hpv
        obtain ⟨hargc, hsurvives⟩ := hcall.argv hv
        obtain ⟨type, c, _, rfl⟩ := handleRedirection_shell hv
        refine ⟨?_, hpipe.openRedirections type c _, ?_⟩
        · intro q hq
          rcases List.mem_append.mp hq with hq | hq
          · exact hp q hq
          · rw [List.mem_singleton.mp hq]
            exact hargc
        · rw [Survives, ← hres]
          exact hsurvives
      · intro f hf
        dsimp only at hf
        cases hv : handleRedirection o.scratch text {} env u with
        | error g =>
          rw [hv] at hf
          cases hf
          exact hcall.fault hv
        | ok r =>
          rw [hv] at hf
          cases hf

theorem runSegments_respects {o : LineOutcome} : ∀ {i : Nat} {commands : List CString}
    {process : List (Process × w.Dir)} {s : Shell w}, SegmentsFit env o i commands →
    EntriesFit process → s.Respects →
    (∀ process' t, runSegments env o i commands process s = .ok (process', t) →
        EntriesFit process' ∧ t.Respects) ∧
      ∀ f, runSegments env o i commands process s = .error f → f.overruns = false
  | _, [], process, s, _, hp, hs => by
    refine ⟨?_, (by rintro f ⟨⟩)⟩
    intro process' t ht
    cases ht
    exact ⟨hp, hs⟩
  | i, command :: commands, process, s, h, hp, hs => by
    rw [SegmentsFit] at h
    rw [runSegments]
    split at h
    · rename_i hblank
      rw [if_pos hblank]
      exact runSegments_respects h hp hs
    · rename_i hblank
      rw [if_neg hblank]
      obtain ⟨hok, herror⟩ := runSegment_respects h.1 hp hs
      cases hrun : runSegment env (o.seg i) command process s with
      | error g =>
        refine ⟨(by rintro _ _ ⟨⟩), ?_⟩
        intro f hf
        cases hf
        exact herror g hrun
      | ok r =>
        obtain ⟨process', t⟩ := r
        obtain ⟨hp', ht', hsurvives⟩ := hok process' t hrun
        exact runSegments_respects (h.2 hsurvives) hp' ht'

/-- Segments that fit begin with segments that fit. -/
theorem segmentsFit_of_append {o : LineOutcome} : ∀ {i : Nat} {commands more : List CString},
    SegmentsFit env o i (commands ++ more) → SegmentsFit env o i commands
  | _, [], _, _ => trivial
  | i, command :: commands, more, h => by
    rw [List.cons_append, SegmentsFit] at h
    rw [SegmentsFit]
    split
    · rename_i hblank
      rw [if_pos hblank] at h
      exact segmentsFit_of_append h
    · rename_i hblank
      rw [if_neg hblank] at h
      exact ⟨h.1, fun hs => segmentsFit_of_append (h.2 hs)⟩

theorem forkProcesses_respects {o : LineOutcome} : ∀ {number : Nat}
    {process : List (Process × w.Dir)} {s : Shell w}, EntriesFit process → s.Respects →
    (∀ t, forkProcesses o number process s = .ok t → t.Respects) ∧
      ∀ f, forkProcesses o number process s = .error f → f.overruns = false
  | _, [], s, _, hs => by
    refine ⟨?_, (by rintro f ⟨⟩)⟩
    intro t ht
    cases ht
    exact hs
  | number, (p, dir) :: ps, s, hp, hs => by
    obtain ⟨hargc, hps⟩ := List.forall_mem_cons.mp hp
    rw [forkProcesses]
    split
    · exact forkProcesses_respects hps (hs.fork (runProcess_respects hargc _ dir s))
    · refine ⟨(by rintro t ⟨⟩), ?_⟩
      intro f hf
      cases hf
      rfl

/-- **A line that fits.** -/
theorem parseCommand_respects {o : LineOutcome} {line : CString} {s : Shell w}
    (hlen : (singleCommands line).length < MAX_ARGUMENTS_NUM)
    (h : SegmentsFit env o 0 (singleCommands line)) (hs : s.Respects) :
    (∀ t, parseCommand o line env s = .ok t → t.Respects) ∧
      ∀ f, parseCommand o line env s = .error f → f.overruns = false := by
  have hempty : EntriesFit ([] : List (Process × w.Dir)) := fun q hq => absurd hq List.not_mem_nil
  obtain ⟨hok, herror⟩ := runSegments_respects h hempty hs
  unfold parseCommand
  rw [if_neg (Nat.not_le.mpr hlen)]
  cases hrun : runSegments env o 0 (singleCommands line) [] s with
  | error g =>
    refine ⟨(by rintro _ ⟨⟩), ?_⟩
    intro f hf
    cases hf
    exact herror g hrun
  | ok r =>
    obtain ⟨process, u⟩ := r
    obtain ⟨hp, hu⟩ := hok process u hrun
    have hchdir : (u.chdir env.cwdString).Respects := hu.of_trace_eq rfl
    obtain ⟨hforks, hfault⟩ := @forkProcesses_respects w o 0 process _ hp hchdir
    dsimp only [bind, Except.bind, runProcesses]
    cases hfork : forkProcesses o 0 process (u.chdir env.cwdString) with
    | error g =>
      refine ⟨(by rintro _ ⟨⟩), ?_⟩
      intro f hf
      cases hf
      exact hfault g hfork
    | ok v =>
      refine ⟨?_, (by rintro f ⟨⟩)⟩
      intro t ht
      cases ht
      have hv := hforks v hfork
      dsimp only
      split
      · exact hv
      · exact hv.append (Shell.log_trace _ _) (by simp)

end Line

/-! ## 7. Runs -/

/-- A line on the machine.  One that fits is run as the source says; after one that does not, the
process goes on with the memory it has overwritten, to any session. -/
def MachineStep (s : Session w) (i : Input) (t : Session w) : Prop := LineFits s i → Step s i t

theorem MachineStep.of_step {s t : Session w} {i : Input} (h : Step s i t) : MachineStep s i t :=
  fun _ => h

/-- A run of lines that fit is a run of the source. -/
theorem run_of_fits {s : Session w} {r : Trail (Session w) Input} (hr : Run MachineStep s r)
    (hfit : StepsOk LineFits s r) : Run Step s r :=
  hr.of_stepsOk (fun _ _ _ hi h => h hi) hfit

/-- A line that fits is run within the arrays. -/
theorem lineRespects_of_fits {s : Session w} {i : Input} (hs : s.Respects) (h : LineFits s i) :
    LineRespects s i := by
  unfold LineFits at h
  constructor
  · intro f hf
    unfold runLine at hf
    cases hd : dispatch (clean i.1) with
    | exit =>
      rw [hd] at hf
      cases hf
    | help =>
      rw [hd] at hf
      cases hf
    | path args =>
      rw [hd] at h hf
      dsimp only at h hf
      rw [runPath, strtokAll_space, if_neg (Nat.not_le.mpr h)] at hf
      cases hf
    | cd newDir =>
      rw [hd] at hf
      cases hf
    | external =>
      rw [hd] at h hf
      obtain ⟨_, herror⟩ := @parseCommand_respects w s.env i.2 _ _ h.1 h.2 hs.children
      cases hrun : parseCommand i.2 (clean i.1) s.env s.shell with
      | error g =>
        dsimp only at hf
        rw [hrun] at hf
        cases hf
        exact herror _ hrun
      | ok t =>
        dsimp only at hf
        rw [hrun] at hf
        cases hf
  · intro hd commands process t hprefix hrun
    rw [hd] at h
    obtain ⟨more, hmore⟩ := hprefix
    have hfit : SegmentsFit s.env i.2 0 commands := segmentsFit_of_append (hmore ▸ h.2)
    exact (runSegments_respects hfit (fun q hq => absurd hq List.not_mem_nil) hs.children).1
      process t hrun

/-- The array keeps a terminator when the name is shorter than it. -/
theorem nul_mem_strncpyCwd {newDir : CString} (h : newDir.length < MAX_PATH) :
    '\x00' ∈ strncpyCwd newDir := by
  refine List.mem_append_right _ (List.mem_replicate.mpr ⟨?_, rfl⟩)
  omega

/-- **One line that fits keeps what has to hold at the head of the loop.**  What is said of the
children is kept because they are forked for texts that fit. -/
theorem respects_step {s t : Session w} {i : Input} (hs : s.Respects) (h : LineFits s i)
    (hstep : Step s i t) : t.Respects := by
  unfold LineFits at h
  unfold Step runLine at hstep
  cases hd : dispatch (clean i.1) with
  | exit =>
    rw [hd] at hstep
    cases hstep
  | help =>
    rw [hd] at hstep
    cases hstep
    exact hs
  | path args =>
    rw [hd] at h hstep
    dsimp only at h hstep
    rw [runPath, strtokAll_space, if_neg (Nat.not_le.mpr h)] at hstep
    cases hstep
    exact ⟨hs.cwd, h, hs.children⟩
  | cd newDir =>
    rw [hd] at h hstep
    cases hstep
    unfold runCd
    cases hopen : w.opendir s.shell.cwd newDir with
    | none => exact hs
    | some d =>
      have hlen : newDir.length < MAX_PATH := h (by rw [hopen]; exact Option.some_ne_none d)
      exact ⟨nul_mem_strncpyCwd hlen, hs.paths, hs.children.of_trace_eq rfl⟩
  | external =>
    rw [hd] at h hstep
    obtain ⟨u, hu, ht⟩ := map_eq_ok hstep
    cases ht
    exact ⟨hs.cwd, hs.paths, (parseCommand_respects h.1 h.2 hs.children).1 u hu⟩

/-- A name shorter than the array leaves a terminator in it, and the search list is short. -/
theorem initEnvironment_respects {start : CString} {stack : List Char}
    (h : stack.length = MAX_PATH) (hshort : start.length < MAX_PATH) {s : Shell w}
    (hs : s.Respects) : Session.Respects ⟨initEnvironment start stack h, s⟩ := by
  refine ⟨?_, (by decide : 1 < MAX_PATH_NUM), hs⟩
  unfold initEnvironment
  dsimp only
  split
  · refine List.mem_take_iff_getElem.mpr ⟨start.length, ?_, ?_⟩
    · simp only [List.length_append, List.length_cons]
      omega
    · simp
  · rename_i hle
    simp only [MAX_CWD, MAX_PATH] at hle hshort
    omega

theorem startEnvironment_eq {start : CString} (stack : List Char) (spills : Bool)
    (h : stack.length = MAX_PATH) (hshort : start.length < MAX_PATH) :
    startEnvironment start stack spills h = .ok (initEnvironment start stack h) := by
  rw [startEnvironment, if_neg]
  rintro ⟨hlt, _⟩
  omega

/-- **Every array is respected in every run whose lines fit**, from every starting directory whose
name does: at the head of the loop each time, and while the next line is run.  None of the seven
arrays is guarded by the code, so that this is all that can be promised of a run: the condition is
on the texts alone, and each of its bounds is the size of the array that the text goes into. -/
theorem arrays_respected (dir : w.Dir) (start : CString) (stack : List Char) (spills : Bool)
    (hstack : stack.length = MAX_PATH) (hstart : start.length < MAX_PATH) :
    ∃ env, startEnvironment start stack spills hstack = .ok env ∧
      ∀ r : Trail (Session w) Input, Run MachineStep ⟨env, .start dir⟩ r →
        StepsOk LineFits ⟨env, .start dir⟩ r →
        Session.Respects (final ⟨env, .start dir⟩ r) ∧ Always Session.Respects r ∧
          ∀ i, LineFits (final ⟨env, .start dir⟩ r) i →
            LineRespects (final ⟨env, .start dir⟩ r) i := by
  have hinit : Session.Respects ⟨initEnvironment start stack hstack, Shell.start dir⟩ :=
    initEnvironment_respects hstack hstart fun c hc => absurd hc List.not_mem_nil
  refine ⟨_, startEnvironment_eq stack spills hstack hstart, ?_⟩
  intro r hr hok
  have halways : Always Session.Respects r :=
    (run_of_fits hr hok).always_of_stepsOk
      (fun s i t hs hfit hstep => respects_step hs hfit hstep) hinit hok
  have hfinal := final_of_always hinit halways
  exact ⟨hfinal, halways, fun i hi => lineRespects_of_fits hfinal hi⟩

/-! ## 8. Lines that fit, and lines that do not -/

instance (b : Scratch) (text : CString) : Decidable (CallFits b text) :=
  decidable_of_iff
    ((∀ item ∈ scan (format₃ '>' '<') text ++ scan (format₃ '<' '>') text,
      item.length < MAX_COMMAND_NOREDI) ∧ (argvOf b text).length < MAX_ARGUMENTS_NUM)
    ⟨fun h => ⟨h.1, h.2⟩, fun h => ⟨h.items, h.words⟩⟩

instance (o : SegOutcome) (command : CString) : Decidable (SegmentFits o command) :=
  decidable_of_iff
    ((∀ call ∈ (pipeCalls o.stage 0 command true).1, CallFits call.1 call.2) ∧
      ∀ res ∈ (pipeCalls o.stage 0 command true).2, ∀ text ∈ res.toOption,
        CallFits o.scratch text)
    ⟨fun h => ⟨h.1, fun text htext => h.2 _ htext text rfl⟩,
      fun h => ⟨h.stages, fun
        | .ok text, hres, _, rfl => h.single text hres⟩⟩

instance (env : Environment) (o : SegOutcome) (command : CString) :
    Decidable (Survives env o command) :=
  match hc : (pipeCalls o.stage 0 command true).2 with
  | none => isTrue (by rw [Survives, hc]; trivial)
  | some (.ok text) =>
    decidable_of_iff (env.paths = [] ∨ argvOf o.scratch text ≠ []) (by rw [Survives, hc])
  | some (.error _) => isFalse (by rw [Survives, hc]; exact id)

instance decidableSegmentsFit (env : Environment) (o : LineOutcome) :
    ∀ (i : Nat) (commands : List CString), Decidable (SegmentsFit env o i commands)
  | _, [] => isTrue trivial
  | i, command :: commands =>
    have := decidableSegmentsFit env o (i + 1) commands
    inferInstanceAs (Decidable (if clean command = [] then SegmentsFit env o (i + 1) commands
      else SegmentFits (o.seg i) command ∧
        (Survives env (o.seg i) command → SegmentsFit env o (i + 1) commands)))

instance (s : Session w) (i : Input) : Decidable (LineFits s i) :=
  match hd : dispatch (clean i.1) with
  | .path args =>
    decidable_of_iff ((spaceWords args).length < MAX_PATH_NUM) (by rw [LineFits, hd])
  | .cd newDir =>
    decidable_of_iff (w.opendir s.shell.cwd newDir ≠ none → newDir.length < MAX_PATH)
      (by rw [LineFits, hd])
  | .external =>
    decidable_of_iff ((singleCommands (clean i.1)).length < MAX_ARGUMENTS_NUM ∧
      SegmentsFit s.env i.2 0 (singleCommands (clean i.1))) (by rw [LineFits, hd])
  | .exit => isTrue (by rw [LineFits, hd]; trivial)
  | .help => isTrue (by rw [LineFits, hd]; trivial)

/-- A search list, a directory, and a line with a redirection and a pipeline. -/
theorem arrays_respected_ls : Session.Respects
    (final rootSession (runOf ["path /bin /lib", "cd sub", "ls -l > out & ls | ls"])) := by
  obtain ⟨env, henv, hrun⟩ := @arrays_respected nested (depth 0) "/".toList
    (List.replicate MAX_PATH '\x00') false rfl (by decide)
  have hstart : startEnvironment "/".toList (List.replicate MAX_PATH '\x00') false rfl =
      .ok rootSession.env := if_neg (by decide)
  rw [hstart] at henv
  cases henv
  exact (hrun (runOf ["path /bin /lib", "cd sub", "ls -l > out & ls | ls"])
    ((run_trailOf _ _).mono fun _ _ _ => .of_step)
    (by decide +kernel)).1

/-- A command that is one word of 200 bytes. -/
theorem longWord_overflows (b : Scratch) (env : Environment) (s : Shell w) :
    handleRedirection b (List.replicate 200 'a') {} env s =
      .error (.overflow .commandNoredi) := by
  have hscan : scan (format₃ '>' '<') (List.replicate 200 'a') = [List.replicate 200 'a'] := by
    decide +kernel
  have hlong : ¬(List.replicate 200 'a').length < Buffer.commandNoredi.size := by
    rw [List.length_replicate]
    decide
  unfold handleRedirection scanRedirection sscanf
  rw [hscan, List.zip_cons_cons, Scratch.store, if_neg hlong]
  rfl

/-- **No array is guarded**: the name of the starting directory, the words of a `path` command, the
segments of a line, the text of a command, and the name of a directory that `cd` opens, each one
byte or one slot too long. -/
theorem arrays_overrun :
    startEnvironment ('/' :: List.replicate 99 'a') (List.replicate MAX_PATH '\x00') false rfl =
        .error (.overflow .cwd) ∧
      runLine .ok ("path".toList ++ (List.replicate 100 " a".toList).flatten) rootSession =
        .error (.overflow .paths) ∧
      runLine .ok (List.replicate 100 "a&".toList).flatten rootSession =
        .error (.overflow .singleCommands) ∧
      runLine .ok (List.replicate 200 'a') rootSession = .error (.overflow .commandNoredi) ∧
      '\x00' ∉ (final rootSession (trailOf rootSession [("cd ".toList ++
        (List.replicate 14 "sub/../".toList).flatten ++ "..".toList, .ok)])).env.cwd := by
  refine ⟨by rfl, ?paths, ?segments, ?command, by decide +kernel⟩
  case paths =>
    have hd : dispatch (clean ("path".toList ++ (List.replicate 100 " a".toList).flatten)) =
        .path ("path".toList ++ (List.replicate 100 " a".toList).flatten |>.drop 4) := by
      rw [clean_eq]
      decide +kernel
    rw [runLine, hd]
    dsimp only
    rw [runPath, strtokAll_space, if_pos (by decide +kernel)]
    rfl
  case segments =>
    have hclean : clean (List.replicate 100 "a&".toList).flatten =
        (List.replicate 100 "a&".toList).flatten := by
      rw [clean_eq]
      decide +kernel
    have hd : dispatch (List.replicate 100 "a&".toList).flatten = .external := by decide +kernel
    rw [runLine, hclean, hd]
    dsimp only
    rw [parseCommand, singleCommands, hclean, if_pos (by decide +kernel)]
    rfl
  case command =>
    have hclean : clean (List.replicate 200 'a') = List.replicate 200 'a' := by
      rw [clean_eq]
      decide +kernel
    have hd : dispatch (List.replicate 200 'a') = .external := by decide +kernel
    have hsegments : singleCommands (List.replicate 200 'a') = [List.replicate 200 'a'] := by
      rw [singleCommands, hclean]
      decide +kernel
    have hpipe : strtok ['|'] (List.replicate 200 'a') = some (List.replicate 200 'a', []) := by
      decide +kernel
    rw [runLine, hclean, hd]
    dsimp only
    rw [parseCommand, hsegments, if_neg (by decide), runSegments, hclean, if_neg (by decide),
      runSegment, handlePipe_single hpipe, if_pos rfl, hclean]
    dsimp only
    rw [longWord_overflows]
    rfl

end Osexp.Seush
