/-
# The whole program: `seush.c` and `run_shell` on a script

`main` looks at its arguments and hands the name of the script, or NULL, to `run_shell`, which opens
the file and goes round its loop until `exit` or the end of the file.

`main_runs_script`: on a file that spells a script, line by line, the process ends with status 0
and has done what the lines mean, one after the other, whatever the size of the blocks that the
file is read in.  The one condition besides those on the lines is that every program starts: a
child that does not would move the file position under the shell (`batch_runs_twice`).

The batch file is one more open file of the shell and of its children from `fopen` on
(`Shell.fopen`); the streams of a program are not touched by it.  The tree of directories, the
programs in it and what opens are those of one `World`, and a wait of the shell is taken to return.
-/
import Osexp.Seush.Batch
import Osexp.Seush.Interactive
import Osexp.Seush.Scripts

namespace Osexp.Seush

open Text Lts BufferedFile

variable {w : World}

/-! ## 1. `main` and `run_shell` -/

def EXIT_BATCH_READ_ERROR : Nat := 1

/-- How the process ends: with a status, in a session; or by a fault. -/
inductive Ended (w : World)
  | exit (status : Nat) (s : Session w)
  | fault (f : Fault)

/-- Where `main` has got to before the loop of `run_shell`. -/
inductive Started (w : World)
  | ended (e : Ended w)
  | batch (b : Batch w)
  | interactive (stdin : Stdin) (b : Interactive w)

/-- `main`, for the arguments after the program's name: too many, the name of a script, or none.
`start` is what `getcwd` gives, `stack` what the array held, `fopen` the files that can be read. -/
def main (fopen : CString → Option (List Char)) (stdin : Stdin) (start : CString)
    (stack : List Char) (hstack : stack.length = MAX_PATH) (shell : Shell w) :
    List CString → Started w
  | [] => .interactive stdin (.reading ⟨initEnvironment start stack hstack, shell⟩ 0)
  | [batch] =>
    match fopen batch with
    | none => .ended (.exit EXIT_BATCH_READ_ERROR ⟨initEnvironment start stack hstack, shell⟩)
    | some file => .batch (.start ⟨initEnvironment start stack hstack, shell⟩ file)
  | _ => .ended (.exit 1 ⟨initEnvironment start stack hstack, shell⟩)

/-- The main loop on a script, within `n` turns.  At the end of the file `run_shell` returns and
`main` returns 0. -/
def runBatch (B : Nat) (o : Nat → LineOutcome) : Nat → Nat → Batch w → Option (Ended w)
  | 0, _, _ => none
  | n + 1, i, b =>
    match turn B (o i) b with
    | .ended => some (.exit 0 b.session)
    | .left f => some (.fault f)
    | .exit _ => some (.exit EXIT_SUCCESS b.session)
    | .next _ b' => runBatch B o n (i + 1) b'

/-! ## 2. Scripts as files -/

/-- The file of a script. -/
def scriptText (script : List Spelled) : List Char :=
  script.flatMap (fun i => i.text ++ ['\n'])

/-- What follows the script in the file: nothing, or a line that spells `exit` and anything. -/
inductive Tail : List Char → Prop
  | nothing : Tail []
  | exit {line : CString} (rest : List Char) : '\n' ∉ line → line.head? ≠ some '\x00' →
      dispatch (clean line) = .exit → Tail (line ++ '\n' :: rest)

/-- The place where a script leads. -/
def Place.after (a : Place w) (script : List CommandLine) : Place w := script.foldl Place.next a

/-- What is seen of a script: what is seen of its lines, each at its place. -/
inductive ScriptShows (std : Streams) : Place w → List CommandLine → List (Event w) → Prop
  | nil (a : Place w) : ScriptShows std a [] []
  | cons {a : Place w} {line : CommandLine} {script : List CommandLine} {E F : List (Event w)} :
      line.Shows a std E → ScriptShows std (a.next line) script F →
      ScriptShows std a (line :: script) (E ++ F)

/-- The program of the command is found and starts. -/
def Redirected.ProgramStarts (a : Place w) (r : Redirected) : Prop :=
  ∃ path, a.program r.words = some path ∧ (w.file a.dir path).any w.startable = true

/-- Every program of the line starts. -/
def CommandLine.ProgramsStart (a : Place w) : CommandLine → Prop
  | .run segments =>
    ∀ j ∈ segments.filterMap Segment.toJob, ∀ r ∈ j.commands, r.ProgramStarts a
  | _ => True

/-- The lines of a script, each at its place: no `exit`, room for each, and programs that start. -/
def Place.Admits (a : Place w) : List CommandLine → Prop
  | [] => True
  | line :: script => line ≠ .exit ∧ line.Admissible a ∧ line.ProgramsStart a ∧
      (a.next line).Admits script

/-! ## 3. No child leaves through `exit` -/

/-- The event is a child that may come to a call of `exit`. -/
def Event.mayExit (ev : Event w) : Bool := ev.childExits || ev.childStrays

section Started

variable {a : Place w} {std : Streams}

theorem Launched.not_exits {r : Redirected} {e : Exec w} (h : Launched a r std e)
    (hr : r.ProgramStarts a) : (Event.fork (.execv e)).mayExit = false := by
  show (!e.started || false) = false
  rw [h.started.mpr hr]
  rfl

theorem StagesRun.not_exits {output errors : OpenFile} {m : Nat} {input : OpenFile}
    {rs : List Redirected} {E : List (Event w)} (h : StagesRun a output errors m input rs E)
    (hrs : ∀ r ∈ rs, r.ProgramStarts a) : ∀ ev ∈ E, ev.mayExit = false := by
  induction h with
  | last hlaunched =>
    exact List.forall_mem_cons.mpr ⟨hlaunched.not_exits (hrs _ List.mem_cons_self),
      List.forall_mem_singleton.mpr rfl⟩
  | piped hlaunched _ _ _ ih =>
    obtain ⟨hr, hmore⟩ := List.forall_mem_cons.mp hrs
    exact List.forall_mem_cons.mpr ⟨hlaunched.not_exits hr,
      List.forall_mem_cons.mpr ⟨rfl, ih hmore⟩⟩

theorem PipelinesRun.not_exits {pipelines : List (List Redirected)} {P : List (Event w)}
    (h : PipelinesRun a std pipelines P)
    (hrs : ∀ p ∈ pipelines, ∀ r ∈ p, r.ProgramStarts a) : ∀ ev ∈ P, ev.mayExit = false := by
  induction h with
  | nil => simp
  | cons hstages _ ih =>
    obtain ⟨hp, hps⟩ := List.forall_mem_cons.mp hrs
    intro ev hev
    rcases List.mem_append.mp hev with hev | hev
    · exact hstages.not_exits hp ev hev
    · exact ih hps ev hev

theorem CommandsRun.not_exits {rs : List Redirected} {Q : List (Event w)}
    (h : CommandsRun a std rs Q) (hrs : ∀ r ∈ rs, r.ProgramStarts a) :
    ∀ ev ∈ Q, ev.mayExit = false := by
  induction h with
  | nil => simp
  | cons hev _ ih =>
    obtain ⟨e, rfl, hlaunched⟩ := hev
    obtain ⟨hr, hrs⟩ := List.forall_mem_cons.mp hrs
    exact List.forall_mem_cons.mpr ⟨hlaunched.not_exits hr, ih hrs⟩

/-- The commands of a line are in a pipeline of it or plain. -/
theorem LineRuns.not_exits {jobs : List Job} {E : List (Event w)} (h : LineRuns a std jobs E)
    (hrs : ∀ j ∈ jobs, ∀ r ∈ j.commands, r.ProgramStarts a) : ∀ ev ∈ E, ev.mayExit = false := by
  obtain ⟨⟨P, Q, hP, hQ, hshown⟩, _⟩ := h
  have hpipelines : ∀ p ∈ jobs.filterMap Job.pipeline, ∀ r ∈ p, r.ProgramStarts a := by
    intro p hp
    obtain ⟨j, hj, hjp⟩ := List.mem_filterMap.mp hp
    unfold Job.pipeline at hjp
    split at hjp <;> cases hjp
    exact hrs j hj
  have hplain : ∀ r ∈ jobs.flatMap Job.plain, r.ProgramStarts a := by
    intro r hr
    obtain ⟨j, hj, hjr⟩ := List.mem_flatMap.mp hr
    unfold Job.plain at hjr
    split at hjr
    · cases hjr
    · exact hrs j hj r hjr
  intro ev hev
  cases hopen : ev.isOpen with
  | true =>
    cases ev with
    | openCall name write => rfl
    | _ => cases hopen
  | false =>
    have hmem : ev ∈ E.filter (fun ev => !ev.isOpen) :=
      List.mem_filter.mpr ⟨hev, by rw [hopen]; rfl⟩
    rw [hshown] at hmem
    rcases List.mem_append.mp hmem with hmem | hmem
    · rcases List.mem_append.mp hmem with hmem | hmem
      · exact hP.not_exits hpipelines ev hmem
      · exact hQ.not_exits hplain ev hmem
    · split at hmem
      · cases hmem
      · rw [List.mem_singleton.mp hmem]
        rfl

theorem CommandLine.Shows.not_exits {line : CommandLine} {E : List (Event w)}
    (h : line.Shows a std E) (hstart : line.ProgramsStart a) :
    ∀ ev ∈ E, ev.mayExit = false := by
  cases line with
  | run segments => exact LineRuns.not_exits h hstart
  | _ =>
    obtain rfl : E = [] := h
    simp

/-- Then nothing is given back to the script. -/
theorem exitsBetween_zero (o : LineOutcome) {s t : Shell w} {E : List (Event w)}
    (htrace : t.trace = s.trace ++ E) (h : ∀ ev ∈ E, ev.mayExit = false) :
    exitsBetween o s t = 0 := by
  have hexits : E.countP Event.childExits = 0 :=
    List.countP_eq_zero.mpr fun ev hev => by simp [(Bool.or_eq_false_iff.mp (h ev hev)).1]
  have hstrays : E.countP Event.childStrays = 0 :=
    List.countP_eq_zero.mpr fun ev hev => by simp [(Bool.or_eq_false_iff.mp (h ev hev)).2]
  rw [exitsBetween, htrace, List.drop_left, hexits, hstrays, Nat.min_zero]

end Started

/-! ## 4. The loop on a script -/

/-- The newline that `getline` leaves on a line is nothing to `clean`. -/
theorem clean_newline (text : CString) : clean (text ++ ['\n']) = clean text := by
  have hfirst : firstLine (text ++ ['\n']) = firstLine text := by
    induction text with
    | nil => rfl
    | cons c text ih =>
      by_cases hc : inLine c = true
      · rw [List.cons_append, firstLine_cons hc, firstLine_cons hc, ih]
      · rw [List.cons_append, firstLine_cons_of_not hc, firstLine_cons_of_not hc]
  rw [clean_eq, clean_eq, hfirst]

/-- The next line of a file that has one. -/
theorem readLine_line {B : Nat} (hB : 0 < B) {r : Reader Char} {l t : List Char}
    (hin : r.offset ≤ r.file.length) (hl : '\n' ∉ l) (hrest : r.rest = l ++ '\n' :: t) :
    ∃ r', readLine B '\n' r = some (l ++ ['\n'], r') ∧ r'.rest = t ∧
      r'.offset ≤ r'.file.length := by
  cases hread : readLine B '\n' r with
  | none =>
    rw [(readLine_eq_none_iff hB hin).mp hread] at hrest
    exact absurd hrest.symm (by simp)
  | some lr =>
    obtain ⟨line, r'⟩ := lr
    obtain ⟨hlines, _, hin', _⟩ := readLine_some hB hin hread
    rw [hrest, lines_append_cons hl] at hlines
    obtain ⟨hline, htail⟩ := List.cons.inj hlines
    have hflat := congrArg List.flatten htail
    rw [flatten_lines, flatten_lines] at hflat
    exact ⟨r', by rw [hline], hflat.symm, hin'⟩

/-- A text that stands on a line of its own in a script. -/
structure OnLine (text : CString) : Prop where
  noNewline : '\n' ∉ text
  noNul : text.head? ≠ some '\x00'

theorem OnLine.head {text : CString} (h : OnLine text) :
    (text ++ ['\n']).head? ≠ some '\x00' := by
  cases text with
  | nil => decide
  | cons c text => exact h.noNul

section Loop

variable {std : Streams} {B : Nat} {o : Nat → LineOutcome} {a : Place w} {b : Batch w}

/-- What the loop does behind the script. -/
theorem runBatch_tail (hB : 0 < B) {tail : List Char} (htail : Tail tail) (i : Nat)
    (hin : b.reader.offset ≤ b.reader.file.length) (hrest : b.reader.rest = tail) :
    runBatch B o 1 i b = some (.exit 0 b.session) := by
  cases htail with
  | nothing => rw [runBatch, turn_ended ((readLine_eq_none_iff hB hin).mpr hrest)]
  | @exit line rest hline hnul hexit =>
    obtain ⟨r', hread, _⟩ := readLine_line hB hin hline hrest
    have hdispatch : runLine (o i) (line ++ ['\n']) b.session = .ok none :=
      runLine_eq_none_iff.mpr (by rw [clean_newline]; exact hexit)
    rw [runBatch, turn_read hread (OnLine.head ⟨hline, hnul⟩), hdispatch]
    rfl

/-- **One line of the script**: it does what it means, and the reader is at the next line. -/
theorem turn_script (hB : 0 < B) (ho : AllSucceed (o 0)) {i : Spelled} (hi : OnLine i.text)
    (hexit : i.line ≠ .exit) (hadm : i.line.Admissible a) (hstart : i.line.ProgramsStart a)
    (hs : b.session.At std a) (hin : b.reader.offset ≤ b.reader.file.length) {t : List Char}
    (hrest : b.reader.rest = i.text ++ '\n' :: t) :
    ∃ b' E, turn B (o 0) b = .next (i.text ++ ['\n']) b' ∧ b'.session.At std (a.next i.line) ∧
      b'.session.shell.trace = b.session.shell.trace ++ E ∧ i.line.Shows a std E ∧
      b'.reader.rest = t ∧ b'.reader.offset ≤ b'.reader.file.length := by
  obtain ⟨r', hread, hrest', hin'⟩ := readLine_line hB hin hi.noNewline hrest
  obtain ⟨u, hstep, hu, E, htrace, hshows⟩ := @line_matched w std a b.session
    ⟨⟨i.line, i.text ++ ['\n'], (clean_newline i.text).trans i.spelled⟩, o 0⟩ hs ⟨hadm, ho⟩ hexit
  have hrun : runLine (o 0) (i.text ++ ['\n']) b.session = .ok (some u) := hstep
  have hzero := exitsBetween_zero (o 0) htrace (hshows.not_exits hstart)
  refine ⟨⟨u, r'⟩, E, ?_, hu, htrace, hshows, hrest', hin'⟩
  rw [turn_read hread hi.head, hrun]
  dsimp only
  rw [hzero]
  rfl

/-- **The loop runs the script**, by induction on its lines. -/
theorem runBatch_script (hB : 0 < B) (ho : ∀ n, AllSucceed (o n)) {tail : List Char}
    (htail : Tail tail) : ∀ (script : List Spelled) (i : Nat) (a : Place w) (b : Batch w),
    (∀ l ∈ script, OnLine l.text) → a.Admits (script.map Spelled.line) → b.session.At std a →
    b.reader.offset ≤ b.reader.file.length → b.reader.rest = scriptText script ++ tail →
    ∃ t E, runBatch B o (script.length + 1) i b = some (.exit 0 t) ∧
      t.shell.trace = b.session.shell.trace ++ E ∧
      ScriptShows std a (script.map Spelled.line) E ∧
      t.At std (a.after (script.map Spelled.line))
  | [], i, a, b, _, _, hs, hin, hrest =>
    ⟨b.session, [], runBatch_tail hB htail i hin hrest, (List.append_nil _).symm, .nil a, hs⟩
  | l :: script, i, a, b, hlines, hadmits, hs, hin, hrest => by
    obtain ⟨hl, hscript⟩ := List.forall_mem_cons.mp hlines
    obtain ⟨hexit, hadm, hstart, hadmits⟩ := hadmits
    have hrest' : b.reader.rest = l.text ++ '\n' :: (scriptText script ++ tail) := by
      rw [hrest, scriptText, List.flatMap_cons]
      simp only [List.append_assoc, List.cons_append, List.nil_append]
      rfl
    obtain ⟨b', E, hturn, hs', htrace, hshows, hrestB, hinB⟩ := turn_script (o := fun _ => o i) hB
      (ho i) hl hexit hadm hstart hs hin hrest'
    obtain ⟨t, F, hrun, htraceF, hshowsF, ht⟩ := runBatch_script hB ho htail script (i + 1)
      (a.next l.line) b' hscript hadmits hs' hinB hrestB
    refine ⟨t, E ++ F, ?_, ?_, .cons hshows hshowsF, ht⟩
    · rw [List.length_cons, runBatch, hturn]
      exact hrun
    · rw [htraceF, htrace, List.append_assoc]

end Loop

/-! ## 5. The program -/

/-- The descriptor of the script is none of the three streams. -/
theorem StreamsAre.fopen {std : Streams} {shell : Shell w} (h : StreamsAre std shell) :
    StreamsAre std shell.fopen :=
  h.congr fun _ _ hk => FdTable.get_alloc_of_get hk

/-- **`seush script` runs the script.**  The shell is started in a directory whose name fits in
`environment.cwd`; the file spells a script, ended by the end of the file or by `exit`.  Then the
process ends with status 0, has done what the lines mean, each at its place and in their order, and
is where they lead. -/
theorem main_runs_script (fopen : CString → Option (List Char)) (stdin : Stdin)
    (start : CString) (stack : List Char) (hstack : stack.length = MAX_PATH) (shell : Shell w)
    (std : Streams) (batch : CString) (script : List Spelled) (tail : List Char) (B : Nat)
    (o : Nat → LineOutcome) (hstart : NamesDir start shell.cwd) (hlen : start.length < MAX_PATH)
    (hstd : StreamsAre std shell) (hB : 0 < B) (ho : ∀ n, AllSucceed (o n))
    (hlines : ∀ l ∈ script, OnLine l.text)
    (hadmits : (Place.mk shell.cwd [DEFAULT_PATHS]).Admits (script.map Spelled.line))
    (htail : Tail tail) (hfile : fopen batch = some (scriptText script ++ tail)) :
    ∃ b n t E, main fopen stdin start stack hstack shell [batch] = .batch b ∧
      runBatch B o n 0 b = some (.exit 0 t) ∧ t.shell.trace = shell.trace ++ E ∧
      ScriptShows std (Place.mk shell.cwd [DEFAULT_PATHS]) (script.map Spelled.line) E ∧
      t.At std ((Place.mk shell.cwd [DEFAULT_PATHS]).after (script.map Spelled.line)) := by
  let s : Session w := ⟨initEnvironment start stack hstack, shell⟩
  have hs : (Batch.start s (scriptText script ++ tail)).session.At std
      (Place.mk shell.cwd [DEFAULT_PATHS]) :=
    ⟨rfl, rfl, ⟨start, holds_initEnvironment hstack hlen hstart.noNul, hstart.resolves _⟩,
      hstd.fopen⟩
  obtain ⟨t, E, hrun, htrace, hshows, ht⟩ := runBatch_script hB ho htail script 0
    (Place.mk shell.cwd [DEFAULT_PATHS]) (.start s (scriptText script ++ tail)) hlines hadmits hs
    (Nat.zero_le _) rfl
  refine ⟨.start s (scriptText script ++ tail), _, t, E, ?_, hrun, htrace, hshows, ht⟩
  simp only [main, hfile, s]

/-- The commands of the example start wherever every path is a program. -/
theorem exampleLine_programsStart (a : Place permissive) : exampleLine.ProgramsStart a := by
  have hstarts : ∀ r : Redirected, r.ProgramStarts a := by
    intro r
    obtain ⟨name, args, hwords⟩ := List.exists_cons_of_ne_nil r.words_ne
    exact ⟨name, by rw [hwords]; rfl, rfl⟩
  exact fun _ _ r _ => hstarts r

/-- The example as a file, with an `exit` and more behind it. -/
theorem main_runs_script_example : ∃ n t E,
    runBatch 4096 (fun _ => .ok) n 0 (.start ⟨initEnvironment "/".toList
      (List.replicate MAX_PATH '\x00') rfl, (.start () : Shell permissive)⟩
      (scriptText exampleScript ++ "exit\nls\n".toList)) = some (.exit 0 t) ∧
    t.shell.trace = E ∧
    ScriptShows startStreams (Place.mk () [DEFAULT_PATHS]) (exampleScript.map Spelled.line) E := by
  have hadmits : (Place.mk () [DEFAULT_PATHS] : Place permissive).Admits
      (exampleScript.map Spelled.line) := by
    rw [exampleScript, List.map_cons, List.map_cons, List.map_nil, Place.Admits, Place.Admits,
      Place.Admits]
    have hcd : CommandLine.Admissible (Place.mk () [DEFAULT_PATHS] : Place permissive)
        (.cd ⟨"/sub".toList, by decide⟩) := ⟨by decide, by decide, fun _ _ => rfl⟩
    refine ⟨(fun h => nomatch h), hcd, trivial, (fun h => nomatch h), ?_, ?_, trivial⟩
    · exact exampleLine_admissible _ (fun _ _ _ => rfl)
    · exact exampleLine_programsStart _
  have hlines : ∀ l ∈ exampleScript, OnLine l.text := by
    intro l hl
    rcases List.mem_pair.mp hl with rfl | rfl <;> exact ⟨by decide, by decide⟩
  have htail : Tail "exit\nls\n".toList :=
    @Tail.exit "exit".toList "ls\n".toList (by decide) (by decide) (by decide)
  obtain ⟨b, n, t, E, hmain, hrun, htrace, hshows, _⟩ := main_runs_script
    (fun _ => some (scriptText exampleScript ++ "exit\nls\n".toList)) (fun _ => none) "/".toList
    (List.replicate MAX_PATH '\x00') rfl (.start () : Shell permissive) startStreams
    "batch.txt".toList exampleScript "exit\nls\n".toList 4096 (fun _ => .ok)
    ⟨by decide, fun _ => rfl, by decide⟩ (by decide) ⟨rfl, rfl, rfl⟩ (by decide) (fun _ => .ok)
    hlines hadmits htail rfl
  cases hmain
  exact ⟨n, t, E, hrun, htrace, hshows⟩

end Osexp.Seush
