/-
# The descriptor of the batch file

`batchFile = fopen(batch, "r")` gives the shell one descriptor more than it has in the interactive
mode.  The shell does not know its number, and it is not closed before the end: every program that
is started from a script can read the script, and every `dup`, `pipe` and `open` gets another number
than it would get without.  One may doubt whether a script does the same as its lines typed.

It does, up to that descriptor.  `OneMore` relates a shell to one that holds it besides: in the
tables, in those of the programs that are started (`Event.OneMore`), and in the numbers that the
shell keeps, everything is the same but for `p`, of which all others are moved out of the way
(`FdTable.skip`).  What the source does with numbers is compatible with this: it compares none, it
closes and duplicates only those that it has been given, and 0, 1 and 2.  So the two go side by
side, call by call, and `runLine_oneMore` says so of a line.

The descriptor is behind the three streams (`hp`); a shell that is started without one of them would
take the script for it.
-/
import Osexp.Seush.Batch
import Osexp.Seush.Launch
import Osexp.Seush.Pipeline

namespace Osexp.Seush

open FdTable

variable {w : World}

/-! ## 1. The same but for one descriptor -/

/-- The same program is started in the same way. -/
structure Exec.OneMore (p : Nat) (e e' : Exec w) : Prop where
  path : e'.path = e.path
  argv : e'.argv = e.argv
  fds : e.fds.OneMore p .batchFile e'.fds
  accessDir : e'.accessDir = e.accessDir
  execDir : e'.execDir = e.execDir
  started : e'.started = e.started

inductive Child.OneMore (p : Nat) : Child w → Child w → Prop
  | execv {e e' : Exec w} (h : e.OneMore p e') : OneMore p (.execv e) (.execv e')
  | exit (code : Nat) : OneMore p (.exit code) (.exit code)
  | fault (f : Fault) : OneMore p (.fault f) (.fault f)

inductive Event.OneMore (p : Nat) : Event w → Event w → Prop
  | fork {c c' : Child w} (h : c.OneMore p c') : OneMore p (.fork c) (.fork c')
  | waitpid {t t' : FdTable OpenFile} (h : t.OneMore p .batchFile t') :
      OneMore p (.waitpid t) (.waitpid t')
  | waitAll : OneMore p .waitAll .waitAll
  | openCall (name : CString) (write : Bool) :
      OneMore p (.openCall name write) (.openCall name write)

/-- The second shell is the first with the batch file open on `p`. -/
structure Shell.OneMore (p : Nat) (s s' : Shell w) : Prop where
  cwd : s'.cwd = s.cwd
  fds : s.fds.OneMore p .batchFile s'.fds
  fresh : s'.fresh = s.fresh
  trace : List.Forall₂ (Event.OneMore p) s.trace s'.trace

/-- So for what the main loop carries. -/
structure Session.OneMore (p : Nat) (s s' : Session w) : Prop where
  env : s'.env = s.env
  shell : s.shell.OneMore p s'.shell

/-- The entry with its descriptors moved. -/
def Process.skip (p : Nat) (q : Process) : Process :=
  { q with
    rediInfd := q.rediInfd.map (FdTable.skip p)
    rediOutfd := q.rediOutfd.map (FdTable.skip p) }

/-- Two computations of the shell end alike: with the same fault, or with related results. -/
inductive Alike {α β : Type} (R : α → β → Prop) : Except Fault α → Except Fault β → Prop
  | ok {a : α} {b : β} (h : R a b) : Alike R (.ok a) (.ok b)
  | error (f : Fault) : Alike R (.error f) (.error f)

namespace Alike

variable {α β γ δ : Type} {R : α → β → Prop} {S : γ → δ → Prop} {x : Except Fault α}
  {y : Except Fault β}

theorem bind (h : Alike R x y) {f : α → Except Fault γ} {g : β → Except Fault δ}
    (hfg : ∀ a b, R a b → Alike S (f a) (g b)) : Alike S (x >>= f) (y >>= g) := by
  cases h with
  | ok h => exact hfg _ _ h
  | error f => exact .error f

theorem map (h : Alike R x y) {f : α → γ} {g : β → δ} (hfg : ∀ a b, R a b → S (f a) (g b)) :
    Alike S (x.map f) (y.map g) := by
  cases h with
  | ok h => exact .ok (hfg _ _ h)
  | error f => exact .error f

theorem refl (x : Except Fault α) : Alike Eq x x := by
  cases x with
  | ok a => exact .ok rfl
  | error f => exact .error f

end Alike

/-! ## 2. The calls -/

section Calls

variable {p : Nat} {s s' : Shell w}

namespace Shell.OneMore

theorem log (h : s.OneMore p s') {e e' : Event w} (he : e.OneMore p e') :
    (s.log e).OneMore p (s'.log e') where
  cwd := h.cwd
  fds := h.fds
  fresh := h.fresh
  trace := List.rel_append h.trace (.cons he .nil)

theorem close (h : s.OneMore p s') (k : Nat) : (s.close k).OneMore p (s'.close (skip p k)) where
  cwd := h.cwd
  fds := h.fds.close k
  fresh := h.fresh
  trace := h.trace

theorem chdir (h : s.OneMore p s') (path : CString) :
    (s.chdir path).OneMore p (s'.chdir path) where
  cwd := by
    show (w.chdir s'.cwd path).getD s'.cwd = (w.chdir s.cwd path).getD s.cwd
    rw [h.cwd]
  fds := h.fds
  fresh := h.fresh
  trace := h.trace

theorem dup (h : s.OneMore p s') (ok : Bool) (k : Nat) :
    (s'.dup ok (skip p k)).1 = (s.dup ok k).1.map (skip p) ∧
      (s.dup ok k).2.OneMore p (s'.dup ok (skip p k)).2 := by
  have hget := h.fds.others k
  cases hk : s.fds.get k with
  | none =>
    rw [hk] at hget
    rw [Shell.dup_of_closed hk, Shell.dup_of_closed hget]
    exact ⟨rfl, h⟩
  | some f =>
    rw [hk] at hget
    cases ok with
    | false =>
      rw [Shell.dup_false, Shell.dup_false]
      exact ⟨rfl, h⟩
    | true =>
      obtain ⟨hnum, hfds⟩ := Shell.dup_of_get hk
      obtain ⟨hnum', hfds'⟩ := Shell.dup_of_get hget
      obtain ⟨hcwd, hfresh, _, _, htrace⟩ := Shell.dup_frame true k s
      obtain ⟨hcwd', hfresh', _, _, htrace'⟩ := Shell.dup_frame true (skip p k) s'
      refine ⟨by rw [hnum, hnum', h.fds.lowest]; rfl, ?_, ?_, ?_, ?_⟩
      · rw [hcwd, hcwd', h.cwd]
      · rw [hfds, hfds']
        exact h.fds.alloc f
      · rw [hfresh, hfresh', h.fresh]
      · rw [htrace, htrace']
        exact h.trace

theorem dup2 (h : s.OneMore p s') (ok : Bool) (src : Option Nat) (dst : Nat) :
    Option.Rel (Shell.OneMore p) (s.dup2 ok src dst)
      (s'.dup2 ok (src.map (skip p)) (skip p dst)) := by
  cases hd : s.dup2 ok src dst with
  | none =>
    have hnone : s'.dup2 ok (src.map (skip p)) (skip p dst) = none := by
      rw [Shell.dup2_eq_none_iff] at hd ⊢
      refine hd.imp_right fun hsrc => ?_
      cases src with
      | none => rfl
      | some k => exact (h.fds.others k).trans hsrc
    rw [hnone]
    exact .none
  | some t =>
    obtain ⟨hok, k, f, rfl, hf, hfds, hcwd, hfresh, _, htrace⟩ := Shell.dup2_eq_some hd
    have hget : s'.fds.get (skip p k) = some f := (h.fds.others k).trans hf
    cases hd' : s'.dup2 ok ((some k).map (skip p)) (skip p dst) with
    | none =>
      rcases Shell.dup2_eq_none_iff.mp hd' with hno | hno
      · rw [hok] at hno
        cases hno
      · exact absurd (hget.symm.trans hno) (Option.some_ne_none f)
    | some t' =>
      obtain ⟨_, k', f', hk', hf', hfds', hcwd', hfresh', _, htrace'⟩ := Shell.dup2_eq_some hd'
      cases hk'
      rw [hget] at hf'
      cases hf'
      refine .some ⟨by rw [hcwd, hcwd', h.cwd], ?_, by rw [hfresh, hfresh', h.fresh], ?_⟩
      · rw [hfds, hfds']
        exact h.fds.set dst f
      · rw [htrace, htrace']
        exact h.trace

theorem pipe (h : s.OneMore p s') (ok : Bool) :
    Option.Rel (fun t t' => Shell.OneMore p t t' ∧ t'.fd = (skip p t.fd.1, skip p t.fd.2) ∧
      t.saveIn = s.saveIn ∧ t'.saveIn = s'.saveIn) (s.pipe ok) (s'.pipe ok) := by
  cases hpipe : s.pipe ok with
  | none =>
    rw [Shell.pipe_eq_none_iff.mpr (Shell.pipe_eq_none_iff.mp hpipe)]
    exact .none
  | some t =>
    obtain ⟨hok, hcwd, hfresh, hsave, htrace, hfd1, hfd2, hfds⟩ := Shell.pipe_eq_some hpipe
    cases hpipe' : s'.pipe ok with
    | none =>
      rw [Shell.pipe_eq_none_iff, hok] at hpipe'
      cases hpipe'
    | some t' =>
      obtain ⟨_, hcwd', hfresh', hsave', htrace', hfd1', hfd2', hfds'⟩ :=
        Shell.pipe_eq_some hpipe'
      rw [h.fresh] at hfds' hfd2'
      have hfirst := h.fds.alloc (.pipeRead s.fresh)
      refine .some ⟨⟨by rw [hcwd, hcwd', h.cwd], ?_, by rw [hfresh, hfresh', h.fresh], ?_⟩,
        Prod.ext ?_ ?_, hsave, hsave'⟩
      · rw [hfds, hfds']
        exact hfirst.alloc (.pipeWrite s.fresh)
      · rw [htrace, htrace']
        exact h.trace
      · rw [hfd1', hfd1, h.fds.lowest]
      · rw [hfd2', hfd2, hfirst.lowest]

theorem openFile (h : s.OneMore p s') (name : CString) (write : Bool) :
    (s'.openFile name write).1 = (s.openFile name write).1.map (skip p) ∧
      (s.openFile name write).2.OneMore p (s'.openFile name write).2 := by
  have hlog := h.log (.openCall name write)
  unfold Shell.openFile
  cases hopens : w.opens s.cwd name write with
  | true =>
    simp only [Shell.log_cwd, h.cwd, hopens, if_true]
    refine ⟨congrArg some hlog.fds.lowest, rfl, ?_, congrArg (· + 1) hlog.fresh, hlog.trace⟩
    show (s.fds.alloc (.opened s.fresh name write)).OneMore p .batchFile
      (s'.fds.alloc (.opened s'.fresh name write))
    rw [h.fresh]
    exact h.fds.alloc _
  | false =>
    simp only [Shell.log_cwd, h.cwd, hopens, Bool.false_eq_true, if_false]
    exact ⟨rfl, hlog⟩

end Shell.OneMore

end Calls

/-! ## 3. The parts of a line -/

section Parts

variable {p : Nat} {s s' : Shell w} {env : Environment}

/-- The three streams keep their numbers. -/
theorem skip_stream (hp : STDERR_FILENO < p) {k : Nat} (hk : k ≤ STDERR_FILENO) : skip p k = k :=
  skip_of_lt (Nat.lt_of_le_of_lt hk hp)

theorem rel_bind {x y : Option (Shell w)} (h : Option.Rel (Shell.OneMore p) x y)
    {f g : Shell w → Option (Shell w)}
    (hfg : ∀ t t' : Shell w, t.OneMore p t' → Option.Rel (Shell.OneMore p) (f t) (g t')) :
    Option.Rel (Shell.OneMore p) (x.bind f) (y.bind g) := by
  cases h with
  | none => exact .none
  | some h => exact hfg _ _ h

theorem rel_getD {α β : Type*} {R : α → β → Prop} {x : Option α} {y : Option β}
    (h : Option.Rel R x y) {a : α} {b : β} (hab : R a b) : R (x.getD a) (y.getD b) := by
  cases h with
  | none => exact hab
  | some h => exact h

/-- An entry and the shell, when the entry has been read. -/
def EntryOneMore (p : Nat) (x y : Process × Shell w) : Prop :=
  y.1 = x.1.skip p ∧ x.2.OneMore p y.2

/-- The lookup does not look at the descriptors of the entry. -/
theorem findExec_skip (p : Nat) (env : Environment) (cwd : w.Dir) (q : Process) :
    Alike (fun a b => b = a.skip p) (findExec env cwd q) (findExec env cwd (q.skip p)) := by
  have hargv : (q.skip p).argv = q.argv := rfl
  unfold findExec
  rw [hargv]
  cases q.argv with
  | nil =>
    dsimp only
    split
    · exact .ok rfl
    · exact .error .nullArgument
  | cons name args =>
    dsimp only
    split
    · exact .ok rfl
    · exact .ok rfl

theorem openOption_oneMore (h : s.OneMore p s') (file : Option CString) (write : Bool) :
    (s'.openOption file write).1 = (s.openOption file write).1.map (skip p) ∧
      (s.openOption file write).2.OneMore p (s'.openOption file write).2 := by
  cases file with
  | none => exact ⟨rfl, h⟩
  | some name => exact h.openFile name write

theorem handleReading_oneMore (h : s.OneMore p s') (r : Reading) (env : Environment) :
    Alike (EntryOneMore p) (handleReading r env s) (handleReading r env s') := by
  obtain ⟨houtfd, hout⟩ := openOption_oneMore h r.outfile true
  obtain ⟨hinfd, hin⟩ := openOption_oneMore hout r.infile false
  rw [handleReading_openOption, handleReading_openOption, houtfd, hinfd, hin.cwd]
  exact (findExec_skip p env _ _).map fun a b hab => ⟨hab, hin⟩

theorem handleRedirection_oneMore (h : s.OneMore p s') (b : Scratch) (line : CString)
    (env : Environment) :
    Alike (EntryOneMore p) (handleRedirection b line {} env s)
      (handleRedirection b line {} env s') := by
  rw [handleRedirection_eq, handleRedirection_eq]
  refine (Alike.refl (readCommand line b)).bind fun r r' hr => ?_
  subst hr
  exact handleReading_oneMore h r env

theorem execv_oneMore (h : s.OneMore p s') (dir : w.Dir) (q : Process) :
    (execv dir q s).OneMore p (execv dir (q.skip p) s') := by
  have hpath : (q.skip p).execPath = q.execPath := rfl
  have hargc : (q.skip p).argc = q.argc := rfl
  unfold execv
  rw [hpath, hargc, h.cwd]
  cases q.execPath with
  | none => exact .execv ⟨rfl, rfl, h.fds, rfl, rfl, rfl⟩
  | some path =>
    dsimp only
    split
    · exact .fault .unterminatedArgv
    · exact .execv ⟨rfl, rfl, h.fds, rfl, rfl, rfl⟩

/-- A `dup2` on one of the streams. -/
theorem dup2_stream (hp : STDERR_FILENO < p) (h : s.OneMore p s') (ok : Bool) (src : Option Nat)
    {k : Nat} (hk : k ≤ STDERR_FILENO) :
    Option.Rel (Shell.OneMore p) (s.dup2 ok src k) (s'.dup2 ok (src.map (skip p)) k) := by
  have hdup := h.dup2 ok src k
  rwa [skip_stream hp hk] at hdup

/-- One of the steps of `run_process`. -/
theorem dupIf_oneMore (hp : STDERR_FILENO < p) (h : s.OneMore p s') (c : Prop) [Decidable c]
    (ok : Bool) (src : Option Nat) {k : Nat} (hk : k ≤ STDERR_FILENO) :
    Option.Rel (Shell.OneMore p) (if c then s.dup2 ok src k else some s)
      (if c then s'.dup2 ok (src.map (skip p)) k else some s') := by
  split
  · exact dup2_stream hp h ok src hk
  · exact .some h

/-- What a child does behind its `dup2` calls. -/
theorem exit_or_oneMore {x y : Option (Shell w)} {f g : Shell w → Child w}
    (hfg : ∀ t t' : Shell w, t.OneMore p t' → (f t).OneMore p (g t')) :
    Option.Rel (Shell.OneMore p) x y →
      Child.OneMore p (match x with
        | none => .exit 1
        | some t => f t) (match y with
        | none => .exit 1
        | some t => g t)
  | .none => .exit 1
  | .some h => hfg _ _ h

theorem runProcess_oneMore (hp : STDERR_FILENO < p) (h : s.OneMore p s') (o : RunOutcome)
    (dir : w.Dir) (q : Process) :
    (runProcess o dir q s).OneMore p (runProcess o dir (q.skip p) s') := by
  unfold runProcess
  dsimp only
  refine exit_or_oneMore (fun t t' ht => execv_oneMore ht dir q)
    (rel_bind (rel_bind ?_ fun t t' ht => ?_) fun t t' ht => ?_)
  · exact dupIf_oneMore hp h _ o.dupErr q.rediOutfd (k := STDERR_FILENO) le_rfl
  · exact dupIf_oneMore hp ht _ o.dupOut q.rediOutfd (k := STDOUT_FILENO) (by decide)
  · exact dupIf_oneMore hp ht _ o.dupIn q.rediInfd (k := STDIN_FILENO) (by decide)

theorem handleRedirectionExec_oneMore (hp : STDERR_FILENO < p) (h : s.OneMore p s')
    (o : StageOutcome) (line : CString) (env : Environment) :
    (handleRedirectionExec o line env s).OneMore p (handleRedirectionExec o line env s') := by
  have hread := handleRedirection_oneMore h o.scratch line env
  unfold handleRedirectionExec
  generalize handleRedirection o.scratch line {} env s = x at *
  generalize handleRedirection o.scratch line {} env s' = y at *
  cases hread with
  | error f => exact .fault f
  | @ok a b hab =>
    obtain ⟨q, t⟩ := a
    obtain ⟨q', t'⟩ := b
    obtain ⟨hq, ht⟩ := hab
    dsimp only at hq ht ⊢
    subst hq
    rw [h.cwd]
    exact runProcess_oneMore hp (ht.chdir env.cwdString) o.run s.cwd q

end Parts

/-! ## 4. Pipelines -/

section Pipelines

variable {p : Nat} {s s' : Shell w} {env : Environment}

/-- The pipe that the shell has just made. -/
def FdOneMore (p : Nat) (s s' : Shell w) : Prop := s'.fd = (skip p s.fd.1, skip p s.fd.2)

/-- The saved standard input. -/
def SaveOneMore (p : Nat) (s s' : Shell w) : Prop := s'.saveIn = s.saveIn.map (skip p)

/-- The pipe is put in the place of a stream: both ends are closed but for one, which gets its
number. -/
theorem ends_oneMore (hp : STDERR_FILENO < p) (h : s.OneMore p s') {j k j' k' : Nat}
    (hj : j' = skip p j) (hk : k' = skip p k) {n : Nat} (hn : n ≤ STDERR_FILENO) (ok : Bool) :
    (((((s.close j).close n).dup ok k).2).close k).OneMore p
      (((((s'.close j').close n).dup ok k').2).close k') := by
  subst hj hk
  have hclosed := (h.close j).close n
  rw [skip_stream hp hn] at hclosed
  exact (hclosed.dup ok k).2.close k

theorem pipedChild_oneMore (hp : STDERR_FILENO < p) (h : s.OneMore p s') (hfd : FdOneMore p s s')
    (o : StageOutcome) (firstCommand : CString) (env : Environment) :
    (pipedChild o firstCommand env s).OneMore p (pipedChild o firstCommand env s') := by
  have hfd' := Prod.mk.inj hfd
  unfold pipedChild
  dsimp only
  rw [(Shell.dup_frame o.childDup _ _).2.2.2.1, (Shell.dup_frame o.childDup _ _).2.2.2.1]
  exact handleRedirectionExec_oneMore hp
    (ends_oneMore hp h hfd'.1 hfd'.2 (by decide) o.childDup) o firstCommand env

theorem pipedParent_oneMore (hp : STDERR_FILENO < p) (h : s.OneMore p s') (hfd : FdOneMore p s s')
    (o : StageOutcome) : (pipedParent o s).OneMore p (pipedParent o s') := by
  have hfd' := Prod.mk.inj hfd
  have hends := ends_oneMore hp h hfd'.2 hfd'.1 (n := STDIN_FILENO) (by decide) o.parentDup
  unfold pipedParent
  dsimp only
  rw [(Shell.dup_frame o.parentDup _ _).2.2.2.1, (Shell.dup_frame o.parentDup _ _).2.2.2.1]
  exact hends.log (.waitpid hends.fds)

theorem lastParent_oneMore (hp : STDERR_FILENO < p) (h : s.OneMore p s')
    (hsave : SaveOneMore p s s') (o : StageOutcome) : (lastParent o s).OneMore p (lastParent o s') := by
  have hlog := h.log (.waitpid h.fds)
  have hdup := dup2_stream hp hlog o.restore s.saveIn (k := STDIN_FILENO) (by decide)
  rw [← hsave] at hdup
  exact rel_getD hdup hlog

theorem lastStage_oneMore (hp : STDERR_FILENO < p) (h : s.OneMore p s')
    (hsave : SaveOneMore p s s') (o : StageOutcome) (firstCommand : CString) (env : Environment) :
    (lastStage o firstCommand env s).OneMore p (lastStage o firstCommand env s') := by
  have hpipe := h.pipe o.pipe
  unfold lastStage
  generalize s.pipe o.pipe = x at *
  generalize s'.pipe o.pipe = y at *
  cases hpipe with
  | none => exact h
  | @some t t' ht =>
    obtain ⟨ht, _, hkeep, hkeep'⟩ := ht
    dsimp only
    split
    · have hchild := handleRedirectionExec_oneMore hp ht o firstCommand env
      refine lastParent_oneMore hp (ht.log (.fork hchild)) ?_ o
      exact hkeep'.trans (hsave.trans (congrArg _ hkeep.symm))
    · exact ht

/-- **The recursion on a pipeline.**  The stages are cut off the text in the same way, so it is
enough to follow the descriptors. -/
theorem handlePipe_oneMore (hp : STDERR_FILENO < p) (o : Nat → StageOutcome) (line : CString) :
    ∀ (n : Nat) (leader : Bool) (s s' : Shell w), s.OneMore p s' → SaveOneMore p s s' →
      (handlePipe env o n line leader s').1 = (handlePipe env o n line leader s).1 ∧
        (handlePipe env o n line leader s).2.OneMore p (handlePipe env o n line leader s').2 := by
  induction line using pipeline_induction with
  | null line htok =>
    intro n leader s s' h _
    rw [handlePipe_null htok, handlePipe_null htok]
    exact ⟨rfl, h⟩
  | single line token htok =>
    intro n leader s s' h hsave
    rw [handlePipe_single htok, handlePipe_single htok]
    split
    · exact ⟨rfl, h⟩
    · exact ⟨rfl, lastStage_oneMore hp h hsave (o n) (clean token) env⟩
  | piped line token rest htok hr ih =>
    intro n leader s s' h hsave
    rw [handlePipe_piped htok hr, handlePipe_piped htok hr]
    have hpipe := h.pipe (o n).pipe
    cases hs : s.pipe (o n).pipe with
    | none =>
      rw [hs] at hpipe
      generalize s'.pipe (o n).pipe = y at *
      cases hpipe
      exact ⟨rfl, h⟩
    | some t =>
      rw [hs] at hpipe
      cases hs' : s'.pipe (o n).pipe with
      | none =>
        rw [hs'] at hpipe
        cases hpipe
      | some t' =>
        rw [hs'] at hpipe
        cases hpipe with
        | some hpipe =>
        obtain ⟨ht, hfd, hkeep, hkeep'⟩ := hpipe
        dsimp only
        split
        · have hchild := pipedChild_oneMore hp ht hfd (o n) (clean token) env
          refine ih (n + 1) false _ _ (pipedParent_oneMore hp (ht.log (.fork hchild)) hfd (o n)) ?_
          -- the saved input is the one from before the pipe
          obtain ⟨_, _, hsaved, _⟩ := piped_fds hs (.fork (pipedChild (o n) (clean token) env t))
          obtain ⟨_, _, hsaved', _⟩ :=
            piped_fds hs' (.fork (pipedChild (o n) (clean token) env t'))
          exact hsaved'.trans (hsave.trans (congrArg _ hsaved.symm))
        · exact ⟨rfl, ht⟩

end Pipelines

/-! ## 5. Lines -/

section Lines

variable {p : Nat} {s s' : Shell w} {env : Environment}

/-- `save_in = dup(0); save_out = dup(1)`. -/
theorem saveStreams_oneMore (hp : STDERR_FILENO < p) (h : s.OneMore p s') (o : SegOutcome) :
    (saveStreams o s).OneMore p (saveStreams o s') ∧
      SaveOneMore p (saveStreams o s) (saveStreams o s') := by
  obtain ⟨hnum, hdup⟩ := h.dup o.dupIn STDIN_FILENO
  rw [skip_stream hp (by decide)] at hnum hdup
  have hin : (saveStdin o.dupIn s).OneMore p (saveStdin o.dupIn s') :=
    ⟨hdup.cwd, hdup.fds, hdup.fresh, hdup.trace⟩
  have hout := (hin.dup o.dupOut STDOUT_FILENO).2
  rw [skip_stream hp (by decide)] at hout
  refine ⟨⟨hout.cwd, hout.fds, hout.fresh, hout.trace⟩, ?_⟩
  unfold SaveOneMore
  rw [saveStreams_saveIn, saveStreams_saveIn]
  exact hnum

/-- The entries of `process[]`, each with the directory of its lookup. -/
def skipEntries (p : Nat) (process : List (Process × w.Dir)) : List (Process × w.Dir) :=
  process.map fun q => (q.1.skip p, q.2)

/-- What the segment loop has got to. -/
def EntriesOneMore (p : Nat) (x y : List (Process × w.Dir) × Shell w) : Prop :=
  y.1 = skipEntries p x.1 ∧ x.2.OneMore p y.2

theorem runSegment_oneMore (hp : STDERR_FILENO < p) (h : s.OneMore p s') (o : SegOutcome)
    (command : CString) (process : List (Process × w.Dir)) :
    Alike (EntriesOneMore p) (runSegment env o command process s)
      (runSegment env o command (skipEntries p process) s') := by
  obtain ⟨hsaved, hsave⟩ := saveStreams_oneMore hp h o
  obtain ⟨hres, hpipe⟩ := @handlePipe_oneMore w p env hp o.stage command 0 true _ _ hsaved hsave
  unfold runSegment
  generalize handlePipe env o.stage 0 command true (saveStreams o s) = x at *
  generalize handlePipe env o.stage 0 command true (saveStreams o s') = y at *
  obtain ⟨res, t⟩ := x
  obtain ⟨res', t'⟩ := y
  dsimp only at hres hpipe
  subst hres
  match res' with
  | none => exact .ok ⟨rfl, hpipe⟩
  | some (.error f) => exact .error f
  | some (.ok pipeRes) =>
    refine (handleRedirection_oneMore hpipe o.scratch pipeRes env).map fun a b hab => ?_
    obtain ⟨q, u⟩ := a
    obtain ⟨q', u'⟩ := b
    obtain ⟨hq, hu⟩ := hab
    refine ⟨?_, hu⟩
    show skipEntries p process ++ [(q', t'.cwd)] = skipEntries p (process ++ [(q, t.cwd)])
    have hentry : q' = q.skip p := hq
    rw [hentry, hpipe.cwd]
    unfold skipEntries
    rw [List.map_append]
    rfl

theorem runSegments_oneMore (hp : STDERR_FILENO < p) (o : LineOutcome) :
    ∀ (i : Nat) (commands : List CString) (process : List (Process × w.Dir)) (s s' : Shell w),
      s.OneMore p s' →
      Alike (EntriesOneMore p) (runSegments env o i commands process s)
        (runSegments env o i commands (skipEntries p process) s')
  | _, [], _, _, _, h => .ok ⟨rfl, h⟩
  | i, command :: commands, process, s, s', h => by
    rw [runSegments, runSegments]
    split
    · exact runSegments_oneMore hp o (i + 1) commands process s s' h
    · refine (runSegment_oneMore hp h (o.seg i) command process).bind fun a b hab => ?_
      obtain ⟨process₁, t⟩ := a
      obtain ⟨process₁', t'⟩ := b
      obtain ⟨hentries, ht⟩ := hab
      dsimp only at hentries ht ⊢
      subst hentries
      exact runSegments_oneMore hp o (i + 1) commands process₁ t t' ht

theorem forkProcesses_oneMore (hp : STDERR_FILENO < p) (o : LineOutcome) :
    ∀ (number : Nat) (process : List (Process × w.Dir)) (s s' : Shell w), s.OneMore p s' →
      Alike (Shell.OneMore p) (forkProcesses o number process s)
        (forkProcesses o number (skipEntries p process) s')
  | _, [], _, _, h => .ok h
  | number, (q, dir) :: process, s, s', h => by
    show Alike _ _ (forkProcesses o number ((q.skip p, dir) :: skipEntries p process) s')
    rw [forkProcesses, forkProcesses]
    split
    · exact forkProcesses_oneMore hp o (number + 1) process _ _
        (h.log (.fork (runProcess_oneMore hp h (o.run number) dir q)))
    · exact .error (.exit 1)

theorem parseCommand_oneMore (hp : STDERR_FILENO < p) (h : s.OneMore p s') (o : LineOutcome)
    (line : CString) (env : Environment) :
    Alike (Shell.OneMore p) (parseCommand o line env s) (parseCommand o line env s') := by
  unfold parseCommand
  split
  · exact .error _
  · refine (runSegments_oneMore hp o 0 (singleCommands line) [] s s' h).bind fun a b hab => ?_
    obtain ⟨process, t⟩ := a
    obtain ⟨process', t'⟩ := b
    obtain ⟨hentries, ht⟩ := hab
    dsimp only at hentries ht ⊢
    subst hentries
    unfold runProcesses
    refine (forkProcesses_oneMore hp o 0 process _ _ (ht.chdir env.cwdString)).map
      fun u u' hu => ?_
    have hnil : skipEntries p process = [] ↔ process = [] := List.map_eq_nil_iff
    by_cases hprocess : process = []
    · rw [if_pos hprocess, if_pos (hnil.mpr hprocess)]
      exact hu
    · rw [if_neg hprocess, if_neg (fun hno => hprocess (hnil.mp hno))]
      exact hu.log .waitAll

theorem runCd_oneMore (h : s.OneMore p s') (newDir : CString) (env : Environment) :
    (runCd newDir env s').1 = (runCd newDir env s).1 ∧
      (runCd newDir env s).2.OneMore p (runCd newDir env s').2 := by
  unfold runCd
  rw [h.cwd]
  cases w.opendir s.cwd newDir with
  | none => exact ⟨rfl, h⟩
  | some d => exact ⟨rfl, h.chdir newDir⟩

/-- **A line does the same in a shell that holds the batch file besides.**  The same holds of its
children, which inherit the descriptor; so whoever compares the two modes need not look at numbers
any more. -/
theorem runLine_oneMore (hp : STDERR_FILENO < p) {s s' : Session w} (h : s.OneMore p s')
    (o : LineOutcome) (line : CString) :
    Alike (Option.Rel (Session.OneMore p)) (runLine o line s) (runLine o line s') := by
  unfold runLine
  rw [h.env]
  cases dispatch (clean line) with
  | exit => exact .ok .none
  | help => exact .ok (.some h)
  | path args =>
    refine (Alike.refl (runPath args s.env)).map fun env env' henv => .some ⟨henv.symm, h.shell⟩
  | cd newDir =>
    obtain ⟨henv, hshell⟩ := runCd_oneMore h.shell newDir s.env
    exact .ok (.some ⟨henv, hshell⟩)
  | external =>
    refine (parseCommand_oneMore hp h.shell o (clean line) s.env).map fun t t' ht => ?_
    exact .some ⟨rfl, ht⟩

end Lines

/-! ## 6. The start -/

/-- The shell has been started with the three streams, and perhaps more descriptors behind them
without a gap, and has done nothing yet. -/
structure Shell.JustStarted (s : Shell w) : Prop where
  streams : STDERR_FILENO < s.fds.lowest
  others : ∀ k, s.fds.lowest ≤ k → s.fds.get k = none
  trace : s.trace = []

/-- Then the stream of `fopen` comes behind all of them. -/
theorem Shell.JustStarted.fopen {s : Shell w} (h : s.JustStarted) :
    s.OneMore s.fds.lowest s.fopen where
  cwd := rfl
  fds := .of_alloc h.others .batchFile
  fresh := rfl
  trace := by
    show List.Forall₂ _ s.trace s.trace
    rw [h.trace]
    exact .nil

end Osexp.Seush
