/-
# Starting a program for a command

`handle_redirection` on the text of an admissible command reads the command back
(`readCommand_render`) and leaves an entry with its files open (`EntryReady`).  A child that still
has these descriptors starts the program with its streams where the command says
(`EntryReady.launched`), whatever the shell has done in between.

Between the two lies an arbitrary piece of the shell's life, in which other files are opened and
other programs started.  So what is said of the entry has to survive it: descriptors that nobody
closes, and nothing about the rest of the table (`OpensOnly`, `KeepsEntry`).  The meaning of the
command comes from `Osexp.Seush.Language`, and the conditions under which it can be run here are
those of `Redirected.Admissible`.

A child of a pipeline and a child of `run_processes` start their programs by the same lemma.
-/
import Osexp.Seush.Language
import Osexp.Seush.Operators
import Osexp.Seush.Stdin

namespace Osexp.Seush

open Text

variable {w : World} {env : Environment}

/-! ## 1. Reading the command back -/

/-- What `handle_redirection` should read from the text of a command. -/
def Redirected.reading (r : Redirected) : Reading where
  redirected := r.kind
  argv := r.words
  outfile := r.output
  infile := r.input

theorem Redirected.reading_consistent (r : Redirected) : r.reading.Consistent :=
  ⟨r.kind_has.2, r.kind_has.1⟩

theorem Redirected.Fits.length_words {r : Redirected} (h : r.Fits) :
    r.words.length ≤ MAX_ARGUMENTS_NUM := by
  have htwo := two_mul_length_le_join (fun word hw => (r.isWord word hw).ne)
  have hfits := h.command
  unfold Redirected.item at hfits
  rw [List.length_append] at hfits
  simp only [MAX_COMMAND_NOREDI, MAX_ARGUMENTS_NUM] at *
  omega

/-- The file names in the buffers are those of the command. -/
theorem files_of_opensOf {r : Redirected} {c : Scratch}
    (h : (opensOf r.kind c : List (Event w)) = r.opens) :
    (if r.kind.has REDI_OUT_MASK then some (c .rediOutfile) else none) = r.output ∧
      (if r.kind.has REDI_IN_MASK then some (c .rediInfile) else none) = r.input := by
  unfold opensOf Redirected.opens at h
  rw [r.kind_has.1, r.kind_has.2] at *
  cases ho : r.output <;> cases hi : r.input <;> simp_all

/-- **The text of a command is read as the command.** -/
theorem readCommand_render {r : Redirected} (hfit : r.Fits) (htight : r.TightSecond)
    (hnames : r.NamesStart) (b : Scratch) : readCommand (clean r.render) b = .ok r.reading := by
  obtain ⟨c, hscan, hcmd, hopens⟩ := Redirected.scanRedirection_render (w := nested) hfit hnames b
  rw [(Redirected.takenOpens_eq_iff r).mpr htight] at hopens
  obtain ⟨hout, hin⟩ := files_of_opensOf hopens
  have hargv : strtokAll [' '] (clean (c .commandNoredi)) = r.words := by
    rw [hcmd]
    exact r.argv_item
  unfold readCommand
  rw [hscan]
  dsimp only [bind, Except.bind]
  rw [hargv, if_neg (Nat.not_lt.mpr hfit.length_words), hout, hin]
  rfl

/-! ## 2. The entry -/

theorem openFile_ok {name : CString} {write : Bool} {s : Shell w}
    (h : w.opens s.cwd name write = true) :
    (s.openFile name write).1 = some s.fds.lowest := by
  unfold Shell.openFile
  dsimp only
  exact congrArg Prod.fst (if_pos h)

/-- From the first state to the second the shell has opened files, with the calls `E`, and done
nothing else. -/
structure OpensOnly (E : List (Event w)) (s t : Shell w) : Prop where
  cwd : t.cwd = s.cwd
  saveIn : t.saveIn = s.saveIn
  trace : t.trace = s.trace ++ E
  fresh : s.fresh ≤ t.fresh
  keeps : ∀ k f, s.fds.get k = some f → t.fds.get k = some f
  older : ∀ F : OpenFile, F.MadeBefore s.fresh → ∀ k, t.fds.get k = some F → s.fds.get k = some F

namespace OpensOnly

variable {E E' : List (Event w)} {s t u : Shell w}

theorem refl (s : Shell w) : OpensOnly [] s s :=
  ⟨rfl, rfl, (List.append_nil _).symm, Nat.le_refl _, fun _ _ h => h, fun _ _ _ h => h⟩

theorem openFile (name : CString) (write : Bool) (s : Shell w) :
    OpensOnly [.openCall name write] s (s.openFile name write).2 := by
  obtain ⟨hcwd, htrace, hsave, _⟩ := openFile_frame name write s
  refine ⟨hcwd, hsave, htrace, ?_, fun _ _ hk => openFile_get name write hk,
    fun F hF k => (openFile_get_iff hF name write k).mp⟩
  unfold Shell.openFile
  dsimp only
  split
  · exact Nat.le_succ _
  · exact Nat.le_refl _

theorem trans (h : OpensOnly E s t) (h' : OpensOnly E' t u) : OpensOnly (E ++ E') s u where
  cwd := h'.cwd.trans h.cwd
  saveIn := h'.saveIn.trans h.saveIn
  trace := by rw [h'.trace, h.trace, List.append_assoc]
  fresh := h.fresh.trans h'.fresh
  keeps k f hk := h'.keeps k f (h.keeps k f hk)
  older F hF k hk := h.older F hF k (h'.older F (hF.mono h.fresh) k hk)

end OpensOnly

/-- An entry whose program has been looked up and whose files are open. -/
structure EntryReady (a : Place w) (r : Redirected) (s : Shell w) (p : Process) (t : Shell w) :
    Prop where
  opened : Opened r.reading s p t
  path : p.execPath = a.program r.words
  outfd : r.output ≠ none → ∃ k, p.rediOutfd = some k
  infd : r.input ≠ none → ∃ k, p.rediInfd = some k

theorem findExec_program {cwd : w.Dir} {p : Process} (hne : p.argv ≠ []) :
    findExec env cwd p = .ok { p with execPath := (Place.mk cwd env.paths).program p.argv } := by
  obtain ⟨name, args, hargv⟩ := List.exists_cons_of_ne_nil hne
  unfold findExec Place.program
  rw [hargv]
  dsimp only
  split <;> rfl

/-- A file that is opened if there is one. -/
def Shell.openOption (name : Option CString) (write : Bool) (s : Shell w) :
    Option Nat × Shell w :=
  match name with
  | some name => s.openFile name write
  | none => (none, s)

theorem openOption_ok {name : Option CString} {write : Bool} {s : Shell w}
    (h : ∀ n ∈ name, w.opens s.cwd n write = true) :
    (name ≠ none → ∃ k, (s.openOption name write).1 = some k) ∧
      OpensOnly (name.toList.map (Event.openCall · write)) s (s.openOption name write).2 := by
  cases name with
  | none => exact ⟨fun hne => absurd rfl hne, .refl s⟩
  | some n => exact ⟨fun _ => ⟨_, openFile_ok (h n rfl)⟩, .openFile n write s⟩

/-- What `handle_redirection` does with a reading: the output, the input, the lookup. -/
theorem handleReading_openOption (r : Reading) (env : Environment) (s : Shell w) :
    handleReading r env s =
      (findExec env ((s.openOption r.outfile true).2.openOption r.infile false).2.cwd
        { redirected := r.redirected, argv := r.argv
          rediOutfd := (s.openOption r.outfile true).1
          rediInfd := ((s.openOption r.outfile true).2.openOption r.infile false).1 }).map
        (fun p => (p, ((s.openOption r.outfile true).2.openOption r.infile false).2)) := rfl

theorem handleReading_ok {r : Reading} {s : Shell w} (hne : r.argv ≠ [])
    (hout : ∀ name ∈ r.outfile, w.opens s.cwd name true = true)
    (hin : ∀ name ∈ r.infile, w.opens s.cwd name false = true) :
    ∃ p t, handleReading r env s = .ok (p, t) ∧
      p.execPath = (Place.mk s.cwd env.paths).program r.argv ∧
      (r.outfile ≠ none → ∃ k, p.rediOutfd = some k) ∧
      (r.infile ≠ none → ∃ k, p.rediInfd = some k) ∧
      OpensOnly (r.outfile.toList.map (Event.openCall · true) ++
        r.infile.toList.map (Event.openCall · false)) s t := by
  obtain ⟨hfdOut, hopen₁⟩ := openOption_ok hout
  obtain ⟨hfdIn, hopen₂⟩ := openOption_ok (s := (s.openOption r.outfile true).2)
    (fun name h => hopen₁.cwd ▸ hin name h)
  have hboth := hopen₁.trans hopen₂
  rw [handleReading_openOption, findExec_program hne, hboth.cwd]
  exact ⟨_, _, rfl, rfl, hfdOut, hfdIn, hboth⟩

/-- **`handle_redirection` on an admissible command** returns an entry that is ready. -/
theorem handleRedirection_ready {a : Place w} {r : Redirected} (hr : r.Admissible a)
    {s : Shell w} (hdir : s.cwd = a.dir) (hpaths : env.paths = a.paths) (b : Scratch) :
    ∃ p t, handleRedirection b (clean r.render) {} env s = .ok (p, t) ∧ EntryReady a r s p t ∧
      OpensOnly r.opens s t := by
  have hplace : Place.mk s.cwd env.paths = a := by rw [hdir, hpaths]
  obtain ⟨p, t, hp, hpath, hout, hin, hopens⟩ := @handleReading_ok w env r.reading s r.words_ne
    (fun name h => hdir ▸ hr.output name h) (fun name h => hdir ▸ hr.input name h)
  rw [hplace] at hpath
  refine ⟨p, t, ?_, ⟨handleReading_opened hp, hpath, hout, hin⟩, hopens⟩
  rw [handleRedirection_eq, readCommand_render hr.fits hr.tight hr.names]
  exact hp

/-! ## 3. The child -/

/-- A child whose `argv` ends in NULL gets to its `execv`. -/
theorem execv_ok {dir : w.Dir} {p : Process} {v : Shell w} (h : p.argc < MAX_ARGUMENTS_NUM) :
    ∃ e, execv dir p v = .execv e ∧ (e.started = true ↔
      ∃ path, p.execPath = some path ∧ (w.file v.cwd path).any w.startable = true) := by
  unfold execv
  cases p.execPath with
  | none => exact ⟨_, rfl, by simp⟩
  | some path =>
    dsimp only
    rw [if_neg (Nat.not_le.mpr h)]
    exact ⟨_, rfl, by simp⟩

/-- The child has no file that it had not before the `dup2` calls. -/
theorem runProcess_refers {o : RunOutcome} {dir : w.Dir} {p : Process} {u : Shell w} {e : Exec w}
    (h : runProcess o dir p u = .execv e) {F : OpenFile} (hF : e.fds.Refers F) :
    u.fds.Refers F := by
  obtain ⟨fds, hout, hnoOut, hin, hnoIn⟩ := runProcess_fds h
  have hset : ∀ {t t' : FdTable OpenFile} {k j : Nat} {f : OpenFile}, t.get k = some f →
      t' = t.set j f → t'.Refers F → t.Refers F := by
    rintro t t' k j f hk rfl ⟨i, hi⟩
    rw [FdTable.get_set] at hi
    split at hi
    · cases hi
      exact ⟨k, hk⟩
    · exact ⟨i, hi⟩
  have hfds : fds.Refers F := by
    cases hhas : p.redirected.has REDI_IN_MASK with
    | false => exact hnoIn hhas ▸ hF
    | true =>
      obtain ⟨k, f, _, hf, he⟩ := hin hhas
      exact hset hf he hF
  cases hhas : p.redirected.has REDI_OUT_MASK with
  | false => exact hnoOut hhas ▸ hfds
  | true =>
    obtain ⟨k, f, _, hf, he⟩ := hout hhas
    have herr : (u.fds.set STDERR_FILENO f).Refers F := by
      refine hset (k := STDERR_FILENO) ?_ he hfds
      exact FdTable.get_set_same _ _ _
    exact hset hf rfl herr

/-- Without an output file descriptor 2 stays what it was. -/
theorem entry_errors {r : Reading} {s t u : Shell w} {p : Process} {o : RunOutcome}
    {dir : w.Dir} {e : Exec w} (hr : r.Consistent) (hopen : Opened r s p t)
    (h : runProcess o dir p u = .execv e) (hnone : r.outfile = none) :
    e.fds.get STDERR_FILENO = u.fds.get STDERR_FILENO := by
  obtain ⟨fds, _, hnoOut, hin, hnoIn⟩ := runProcess_fds h
  rw [hopen.redirected] at hnoOut hin hnoIn
  rw [← hnoOut (by rw [hr.out, hnone]; rfl)]
  cases hhas : r.redirected.has REDI_IN_MASK with
  | false => rw [hnoIn hhas]
  | true =>
    obtain ⟨_, _, _, _, he⟩ := hin hhas
    rw [he, FdTable.get_set_ne _ _ (by decide)]

/-- The standard streams of a process. -/
structure StreamsAre (std : Streams) (s : Shell w) : Prop where
  input : s.fds.get STDIN_FILENO = some std.input
  output : s.fds.get STDOUT_FILENO = some std.output
  errors : s.fds.get STDERR_FILENO = some std.errors

theorem StreamsAre.open {std : Streams} {s : Shell w} (h : StreamsAre std s) : StreamsOpen s := by
  refine ⟨STDERR_FILENO, ?_⟩
  intro j hj hne
  have hcases : j = STDIN_FILENO ∨ j = STDOUT_FILENO := by
    simp only [STDERR_FILENO, STDIN_FILENO, STDOUT_FILENO] at *
    omega
  rcases hcases with rfl | rfl
  · rw [h.input]
    exact Option.some_ne_none _
  · rw [h.output]
    exact Option.some_ne_none _

/-- The descriptors of an entry that is ready are open. -/
theorem EntryReady.descriptors {a : Place w} {r : Redirected} {s t u : Shell w} {p : Process}
    (h : EntryReady a r s p t) (hu : KeepsEntry p t u) :
    (p.redirected.has REDI_OUT_MASK = true → p.rediOutfd.bind u.fds.get ≠ none) ∧
      (p.redirected.has REDI_IN_MASK = true → p.rediInfd.bind u.fds.get ≠ none) := by
  have hr := r.reading_consistent
  rw [h.opened.redirected, hr.out, hr.onIn]
  constructor
  · intro hsome
    obtain ⟨name, hname⟩ := Option.isSome_iff_exists.mp hsome
    obtain ⟨k, hk⟩ := h.outfd (fun hnone => nomatch hnone.symm.trans hname)
    rw [hk, Option.bind_some, hu k (Or.inl hk), (h.opened.outfd name k hname hk).2]
    exact Option.some_ne_none _
  · intro hsome
    obtain ⟨name, hname⟩ := Option.isSome_iff_exists.mp hsome
    obtain ⟨k, hk⟩ := h.infd (fun hnone => nomatch hnone.symm.trans hname)
    obtain ⟨_, n, hn⟩ := h.opened.infd name k hname hk
    rw [hk, Option.bind_some, hu k (Or.inr hk), hn]
    exact Option.some_ne_none _

/-- **The child of an entry that is ready** starts the program with the streams of the command.  It
may be started long after the entry was made; what counts is that the descriptors are still there.
-/
theorem EntryReady.launched {a : Place w} {r : Redirected} {s t u : Shell w} {p : Process}
    {std : Streams} (h : EntryReady a r s p t) (hfew : r.words.length < MAX_ARGUMENTS_NUM)
    (hs : StreamsOpen s) (hu : KeepsEntry p t u) (hcwd : u.cwd = a.dir) (hstd : StreamsAre std u) :
    ∃ e, runProcess ⟨true, true, true⟩ a.dir p u = .execv e ∧ Launched a r std e ∧
      ∀ F, e.fds.Refers F → u.fds.Refers F := by
  have hr := r.reading_consistent
  have hargv : p.argv = r.words := h.opened.argv
  obtain ⟨hout, hin⟩ := h.descriptors hu
  obtain ⟨v, hv⟩ := @runProcess_open w a.dir p u hout hin
  obtain ⟨e, he, hstarted⟩ := @execv_ok w a.dir p v (by rw [Process.argc, hargv]; exact hfew)
  have hrun := hv.trans he
  obtain ⟨haccess, hexec, hpath, hwords⟩ := runProcess_execv hrun
  have hvcwd : v.cwd = a.dir := by
    have hdir : e.execDir = v.cwd := by rw [(execv_eq_execv he).1]
    rw [← hdir, hexec, hcwd]
  have hout' := fun f hf => @entry_output w _ _ _ _ _ _ _ _ hr h.opened hu hrun f hf
  obtain ⟨hsame, hsameIn⟩ := entry_unredirected hr h.opened hrun
  refine ⟨e, hrun, ⟨hwords.trans hargv, hpath.trans h.path, haccess, hexec.trans hcwd, ?_, ?_, ?_,
    ?_, ?_⟩, fun F => runProcess_refers hrun⟩
  · rw [hstarted, h.path, hvcwd]
  · cases hi : r.input with
    | none => exact (hsameIn hi).trans hstd.input
    | some name => exact entry_input hr h.opened hu hrun hi (Or.inr hs)
  · cases ho : r.output with
    | none => exact (hsame ho).trans hstd.output
    | some name => exact ⟨_, (hout' name ho).1⟩
  · cases ho : r.output with
    | none => exact (entry_errors hr h.opened hrun ho).trans hstd.errors
    | some name => exact ⟨_, (hout' name ho).2⟩
  · intro hne
    obtain ⟨name, hname⟩ := Option.ne_none_iff_exists'.mp hne
    rw [(hout' name hname).1, (hout' name hname).2]

end Osexp.Seush
