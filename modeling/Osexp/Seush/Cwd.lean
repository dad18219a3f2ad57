/-
# The working directory is kept twice

`environment.cwd` holds the argument of the last `cd` as it was typed, and every line that is not
a built-in command runs `chdir(environment->cwd)` ("prevent cwd changed by external sh"), once in
the shell and once in each child of a pipeline.  The string was resolved from the directory before
the `cd`; it is applied again from the directory after it.

* `cd sub` followed by any other command therefore leads to `sub/sub` (`cd_sub_moves`).
* As long as every `cd` names, from the directory it leads to, that same directory (every absolute
  path does) and succeeds, and no line overruns an array, the two directories agree after every
  line (`cwd_kept`).  The invariant is `Home`; `home_step` is its step lemma.

Where the two agree, the comment at the `chdir` is right: whatever a program has done, the next one
is looked up and started in the directory of the last `cd`.
-/
import Osexp.Seush.Arrays
import Osexp.Seush.Rules

namespace Osexp.Seush

open Lts

variable {w : World}

/-! ## 1. Where the `cd` commands lead -/

/-- The directory after a line: that of a `cd` whose argument can be opened and entered, seen
from the directory before it. -/
def cdTarget (d : w.Dir) (line : CString) : w.Dir :=
  match dispatch (clean line) with
  | .cd newDir => ((w.opendir d newDir).bind (fun _ => w.chdir d newDir)).getD d
  | _ => d

/-- The directory that the successful `cd` commands of a list of lines lead to. -/
def reached (start : w.Dir) (lines : List CString) : w.Dir := lines.foldl cdTarget start

/-- The shell is where the `cd` commands led it, `environment.cwd` names that directory from
there, putting it back in force changes nothing, and no program was started from another
directory than the one it was looked up in. -/
structure AtHome (d : w.Dir) (s : Session w) : Prop where
  cwd : s.shell.cwd = d
  named : w.resolve d s.env.cwdString = some d
  noop : s.shell.chdir s.env.cwdString = s.shell
  sameFile : ∀ e, Event.fork (.execv e) ∈ s.shell.trace → e.execDir = e.accessDir ∧
    ∀ path, e.path = some path → w.file e.execDir path = w.file e.accessDir path

/-- The argument of the `cd` branch. -/
def Dispatch.cdArgument : Dispatch → Option CString
  | .cd newDir => some newDir
  | _ => none

/-- The condition on a `cd` whose directory can be opened: the directory can be entered, and from
there the argument names it again. -/
def CdOk (s : Session w) (i : Input) : Prop :=
  ∀ newDir, dispatch (clean i.1) = .cd newDir → ∀ d, w.opendir s.shell.cwd newDir = some d →
    w.searchable d = true ∧ w.resolve d newDir = some d

instance [DecidableEq w.Dir] (s : Session w) (i : Input) : Decidable (CdOk s i) :=
  decidable_of_iff
    (∀ newDir ∈ (dispatch (clean i.1)).cdArgument, ∀ d ∈ w.opendir s.shell.cwd newDir,
      w.searchable d = true ∧ w.resolve d newDir = some d)
    (by
      unfold CdOk
      cases dispatch (clean i.1) <;> simp [Dispatch.cdArgument])

/-- The condition on a line: it overruns no array, and if it is a `cd`, then one that may be
repeated. -/
structure LineStays (s : Session w) (i : Input) : Prop where
  fits : LineFits s i
  cd : CdOk s i

instance [DecidableEq w.Dir] (s : Session w) (i : Input) : Decidable (LineStays s i) :=
  decidable_of_iff (LineFits s i ∧ CdOk s i) ⟨fun h => ⟨h.1, h.2⟩, fun h => ⟨h.fits, h.cd⟩⟩

/-- What `getcwd` promises about the name it returns. -/
structure NamesDir (start : CString) (d : w.Dir) : Prop where
  absolute : DirTree.IsAbsolute start
  resolves : ∀ c, w.resolve c start = some d
  noNul : '\x00' ∉ start

/-! ## 2. The array behind `environment.cwd` -/

theorem cstr_append_nul {s : CString} (h : '\x00' ∉ s) (rest : List Char) :
    cstr (s ++ '\x00' :: rest) = s := by
  have hall : ∀ c ∈ s, (c != '\x00') = true := by
    intro c hc
    have hne : c ≠ '\x00' := fun he => h (he ▸ hc)
    simpa using hne
  rw [cstr, List.takeWhile_append_of_pos hall]
  simp

/-- The array holds `name` with its terminator. -/
def Environment.Holds (env : Environment) (name : CString) : Prop :=
  '\x00' ∉ name ∧ ∃ rest, env.cwd = name ++ '\x00' :: rest

theorem Environment.Holds.cwdString {env : Environment} {name : CString} (h : env.Holds name) :
    env.cwdString = name := by
  obtain ⟨hnul, rest, hrest⟩ := h
  rw [Environment.cwdString, hrest, List.append_assoc, List.cons_append, cstr_append_nul hnul]

/-- A name that fits in the array is stored whole. -/
theorem holds_setCwd {newDir : CString} (env : Environment) (hlen : newDir.length < MAX_PATH)
    (h : '\x00' ∉ newDir) : (env.setCwd newDir).Holds newDir := by
  obtain ⟨k, hk⟩ : ∃ k, MAX_PATH - newDir.length = k + 1 :=
    ⟨MAX_PATH - newDir.length - 1, by omega⟩
  refine ⟨h, List.replicate k '\x00', ?_⟩
  show strncpyCwd newDir = _
  rw [strncpyCwd, List.take_of_length_le (Nat.le_of_lt hlen), hk, List.replicate_succ]

theorem holds_initEnvironment {start : CString} {stack : List Char}
    (hs : stack.length = MAX_PATH) (hlen : start.length < MAX_PATH) (h : '\x00' ∉ start) :
    (initEnvironment start stack hs).Holds start := by
  have hfit : start.length + 1 ≤ MAX_CWD := by
    simp only [MAX_CWD, MAX_PATH] at hlen ⊢
    omega
  refine ⟨h, stack.drop (start.length + 1), ?_⟩
  show (if start.length + 1 ≤ MAX_CWD then _ else _) = _
  rw [if_pos hfit, List.take_of_length_le]
  simp only [List.length_append, List.length_cons, List.length_drop, hs]
  omega

/-- The argument of a `cd` is a part of the cleaned line, so it has no NUL byte. -/
theorem noNul_of_dispatch {line newDir : CString} (h : dispatch (clean line) = .cd newDir) :
    '\x00' ∉ newDir := by
  have hsub : newDir = (clean line).drop 3 := by
    unfold dispatch at h
    split at h <;> try cases h
    split at h <;> try cases h
    split at h <;> try cases h
    split at h <;> cases h
    rfl
  intro hmem
  have hline : '\x00' ∈ clean line := List.mem_of_mem_drop (hsub ▸ hmem)
  rw [clean_eq] at hline
  have hin := mem_firstLine (Text.mem_of_mem_squeeze hline)
  exact absurd rfl hin.1

/-! ## 3. The invariant -/

/-- What is kept from line to line: the array holds a name, terminator included, of the
directory the shell is in. -/
structure Home (d : w.Dir) (s : Session w) : Prop where
  cwd : s.shell.cwd = d
  named : ∃ name, s.env.Holds name ∧ w.resolve d name = some d
  sameDir : ∀ e, Event.fork (.execv e) ∈ s.shell.trace → e.execDir = e.accessDir

theorem Home.resolve {d : w.Dir} {s : Session w} (h : Home d s) :
    w.resolve d s.env.cwdString = some d := by
  obtain ⟨name, hholds, hname⟩ := h.named
  rw [hholds.cwdString]
  exact hname

theorem Home.atHome {d : w.Dir} {s : Session w} (h : Home d s) : AtHome d s := by
  have hnamed := h.resolve
  refine ⟨h.cwd, hnamed, ?_, ?_⟩
  · rw [← h.cwd] at hnamed
    rw [Shell.chdir, DirTree.chdir_getD_of_resolve hnamed]
  · intro e he
    refine ⟨h.sameDir e he, ?_⟩
    intro path _
    rw [h.sameDir e he]

/-- What the calls of a line keep while `environment.cwd` names the directory `d` from `d`. -/
theorem home_quietRule {env : Environment} {d : w.Dir}
    (hnamed : w.resolve d env.cwdString = some d) :
    QuietRule env
      (fun t : Shell w => t.cwd = d ∧
        ∀ e, Event.fork (.execv e) ∈ t.trace → e.execDir = e.accessDir)
      (fun c => ∀ e, c = .execv e → e.execDir = e.accessDir) (fun dir => dir = d) where
  quiet := by
    rintro s t ⟨hcwd, htrace⟩ hc ht
    exact ⟨hc.trans hcwd, ht ▸ htrace⟩
  openCall := by
    rintro s name write ⟨hcwd, htrace⟩
    exact ⟨hcwd, fun e he => htrace e (by simpa using he)⟩
  waitpid := by
    rintro s fds ⟨hcwd, htrace⟩
    exact ⟨hcwd, fun e he => htrace e (by simpa using he)⟩
  waitAll := by
    rintro s ⟨hcwd, htrace⟩
    exact ⟨hcwd, fun e he => htrace e (by simpa using he)⟩
  fork := by
    rintro s c ⟨hcwd, htrace⟩ hgood
    refine ⟨hcwd, ?_⟩
    intro e he
    rcases List.mem_append.mp he with he | he
    · exact htrace e he
    · exact hgood e (Event.fork.inj (List.mem_singleton.mp he)).symm
  chdir := by
    rintro s ⟨hcwd, htrace⟩
    refine ⟨?_, htrace⟩
    show (w.chdir s.cwd env.cwdString).getD s.cwd = d
    rw [hcwd]
    exact DirTree.chdir_getD_of_resolve hnamed
  looked := And.left
  child := by
    rintro s o dir p ⟨hcwd, _⟩ hdir e he
    obtain ⟨ha, hx, _⟩ := runProcess_execv he
    rw [ha, hx, hcwd, hdir]
  fault := by
    rintro f e he
    cases he

/-- The step of a `cd` that satisfies the condition. -/
theorem home_cd {d : w.Dir} {s : Session w} {o : LineOutcome} {line newDir : CString}
    (hs : Home d s) (hok : LineStays s (line, o)) (hd : dispatch (clean line) = .cd newDir) :
    Home (cdTarget d line)
      ⟨(runCd newDir s.env s.shell).1, (runCd newDir s.env s.shell).2⟩ := by
  have htarget : cdTarget d line =
      ((w.opendir d newDir).bind (fun _ => w.chdir d newDir)).getD d := by
    rw [cdTarget, hd]
  rw [htarget, runCd, hs.cwd]
  cases hopen : w.opendir d newDir with
  | none => exact hs
  | some e =>
    have hlen : newDir.length < MAX_PATH := by
      have hfits := hok.fits
      rw [LineFits, hd] at hfits
      exact hfits (by rw [hs.cwd, hopen]; exact Option.some_ne_none e)
    obtain ⟨hsearch, hagain⟩ := hok.cd newDir hd e (by rw [hs.cwd]; exact hopen)
    have hnul := noNul_of_dispatch hd
    have hresolve : w.resolve d newDir = some e := (Option.filter_eq_some_iff.mp hopen).1
    have hchdir : w.chdir d newDir = some e :=
      Option.filter_eq_some_iff.mpr ⟨hresolve, hsearch⟩
    rw [Option.bind_some, hchdir, Option.getD_some]
    refine ⟨?_, ⟨newDir, holds_setCwd s.env hlen hnul, hagain⟩, hs.sameDir⟩
    show (w.chdir s.shell.cwd newDir).getD s.shell.cwd = e
    rw [hs.cwd, hchdir, Option.getD_some]

/-- **One line keeps the shell at home**, in the directory the line leads to.  A line that is no
`cd` changes nothing, because putting the directory back in force does nothing where it is in force
already; a `cd` changes both copies alike. -/
theorem home_step {d : w.Dir} {s t : Session w} {i : Input} (hs : Home d s) (hok : LineStays s i)
    (h : Step s i t) : Home (cdTarget d i.1) t := by
  obtain ⟨line, o⟩ := i
  unfold Step runLine at h
  dsimp only at h
  cases hd : dispatch (clean line) with
  | exit =>
    rw [hd] at h
    cases h
  | help =>
    rw [hd] at h
    cases h
    rw [cdTarget, hd]
    exact hs
  | path args =>
    rw [hd] at h
    obtain ⟨env, henv, ht⟩ := map_eq_ok h
    cases ht
    unfold runPath at henv
    split at henv
    · cases henv
    · cases henv
      rw [cdTarget, hd]
      exact ⟨hs.cwd, hs.named, hs.sameDir⟩
  | cd newDir =>
    rw [hd] at h
    cases h
    exact home_cd hs hok hd
  | external =>
    rw [hd] at h
    obtain ⟨u, hu, ht⟩ := map_eq_ok h
    cases ht
    rw [cdTarget, hd]
    obtain ⟨hcwd, hsame⟩ :=
      (home_quietRule hs.resolve).lineRule.parseCommand (fun _ _ => trivial)
        ⟨hs.cwd, hs.sameDir⟩ hu
    exact ⟨hcwd, hs.named, hsame⟩

/-! ## 4. Runs -/

/-- The lines of a run. -/
def linesOf (r : Trail (Session w) Input) : List CString := r.map (fun p => p.1.1)

theorem home_run {s : Session w} {r : Trail (Session w) Input} (hr : Run Step s r) :
    ∀ {d : w.Dir} {u : Trail (Session w) Input}, StepsOk LineStays s r → Home d s → u <+: r →
      Home (reached d (linesOf u)) (final s u) := by
  induction hr with
  | nil s =>
    intro d u _ hs hu
    rw [List.prefix_nil.mp hu]
    exact hs
  | @cons s t i r h _ ih =>
    intro d u hok hs hu
    rcases List.prefix_cons_iff.mp hu with rfl | ⟨u', rfl, hu'⟩
    · exact hs
    · exact ih (d := cdTarget d i.1) hok.2 (home_step hs hok.1 h) hu'

/-- **The shell stays where `cd` put it.**  When the name of the starting directory fits in the
array and every line of the run satisfies `LineStays`, then after each line the shell is in the
directory the `cd` commands led to, and every program was started from there.  The run is one of the
machine, so that the condition on the arrays is needed: a `path` command of 100 words, for one,
writes over the first bytes of `environment.cwd`.  So is that the tree `w` is the same at every
line; when the directory a name leads to is moved between two lines, the `chdir` of the second goes
after the name. -/
theorem cwd_kept {start : CString} {d : w.Dir} {stack : List Char} {s : Shell w}
    {r : Trail (Session w) Input} (hstack : stack.length = MAX_PATH)
    (hstart : NamesDir start d) (hlen : start.length < MAX_PATH) (hcwd : s.cwd = d)
    (htrace : s.trace = []) (hr : Run MachineStep ⟨initEnvironment start stack hstack, s⟩ r)
    (hok : StepsOk LineStays ⟨initEnvironment start stack hstack, s⟩ r) :
    ∀ u, u <+: r → AtHome (reached d (linesOf u))
      (final ⟨initEnvironment start stack hstack, s⟩ u) := by
  have hhome : Home d ⟨initEnvironment start stack hstack, s⟩ := by
    refine ⟨hcwd, ⟨start, holds_initEnvironment hstack hlen hstart.noNul,
      hstart.resolves d⟩, ?_⟩
    rw [htrace]
    intro e he
    cases he
  have hsteps := hr.of_stepsOk (fun _ _ _ hi h => h hi.fits) hok
  exact fun u hu => (home_run hsteps hok hhome hu).atHome

/-! ## 5. A relative `cd` -/

theorem cwd_kept_absolute :
    AtHome (reached (depth 0) (linesOf (runOf ["cd /sub", "ls"])))
      (final rootSession (runOf ["cd /sub", "ls"])) :=
  @cwd_kept nested "/".toList (depth 0) (List.replicate MAX_PATH '\x00') (.start (depth 0))
    (runOf ["cd /sub", "ls"]) rfl ⟨by decide, fun _ => rfl, by decide⟩ (by decide) rfl rfl
    ((run_trailOf _ _).mono fun _ _ _ => .of_step) (by decide +kernel) _ List.prefix_rfl

/-- **`cd sub`, then `ls`: the shell is in `sub/sub`.** -/
theorem cd_sub_moves :
    Run Step rootSession (runOf ["cd sub", "ls"]) ∧
      reached (depth 0) (linesOf (runOf ["cd sub", "ls"])) = depth 1 ∧
      (final rootSession (runOf ["cd sub", "ls"])).shell.cwd = depth 2 ∧
      ¬ AtHome (reached (depth 0) (linesOf (runOf ["cd sub", "ls"])))
        (final rootSession (runOf ["cd sub", "ls"])) := by
  have hreached : reached (depth 0) (linesOf (runOf ["cd sub", "ls"])) = depth 1 := by
    decide +kernel
  have hcwd : (final rootSession (runOf ["cd sub", "ls"])).shell.cwd = depth 2 := by
    decide +kernel
  refine ⟨run_trailOf _ _, hreached, hcwd, ?_⟩
  intro h
  have heq := h.cwd
  rw [hreached, hcwd] at heq
  exact absurd heq (by decide)

end Osexp.Seush
