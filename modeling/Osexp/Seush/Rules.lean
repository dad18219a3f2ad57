/-
# The rule for a line: what every part of it keeps, `parse_command` keeps

`LineRule` lists what a property of the shell has to survive: saving the streams, the shell's side
of a stage, the `open` calls, the forks, the waits, and the `chdir` that puts `environment->cwd`
back in force.  `LineRule.parseCommand` is the rule; the recursion of `handle_pipe` and the loops
over segments and processes are gone through here, once.

Two kinds of properties come up, and each has a shorter list of its own.  `QuietRule` is for those
that speak of the working directory and the trace: the calls that only move descriptors about
cannot break them.  `TableRule` is for those that speak of the descriptor table, which the trace
and the directory cannot break.

A rule is applied by giving, for a property of the shell, one small proof for each entry of the
list; the property then holds after the line if it held before.  What can be proved in this way is
what every call keeps.  Results that need to know which calls have been made, or that they
succeeded, go along the recursion themselves.
-/
import Osexp.Seush.RunCommand

namespace Osexp.Seush

variable {w : World}

/-! ## 1. The frame of each function -/

theorem openFile_frame (name : CString) (write : Bool) (s : Shell w) :
    (s.openFile name write).2.cwd = s.cwd ∧
      (s.openFile name write).2.trace = s.trace ++ [.openCall name write] ∧
      (s.openFile name write).2.saveIn = s.saveIn ∧ (s.openFile name write).2.fd = s.fd := by
  unfold Shell.openFile
  dsimp only
  split <;> exact ⟨rfl, rfl, rfl, rfl⟩

theorem dup2_frame {ok : Bool} {src : Option Nat} {dst : Nat} {s t : Shell w}
    (h : s.dup2 ok src dst = some t) :
    t.cwd = s.cwd ∧ t.trace = s.trace ∧ t.fresh = s.fresh ∧ t.saveIn = s.saveIn := by
  obtain ⟨_, k, f, _, _, _, hcwd, hfresh, hsave, htrace⟩ := Shell.dup2_eq_some h
  exact ⟨hcwd, htrace, hfresh, hsave⟩

/-- Saving the streams changes the table and the saved descriptors only. -/
theorem saveStreams_frame (o : SegOutcome) (s : Shell w) :
    (saveStreams o s).cwd = s.cwd ∧ (saveStreams o s).trace = s.trace ∧
      (saveStreams o s).fresh = s.fresh := by
  obtain ⟨hcwd, hfresh, _, _, htrace⟩ := Shell.dup_frame o.dupIn STDIN_FILENO s
  obtain ⟨hcwd', hfresh', _, _, htrace'⟩ :=
    Shell.dup_frame o.dupOut STDOUT_FILENO (saveStdin o.dupIn s)
  exact ⟨hcwd'.trans hcwd, htrace'.trans htrace, hfresh'.trans hfresh⟩

/-- What `save_in = dup(0); save_out = dup(1)` does to the table. -/
theorem saveStdin_get (ok : Bool) (s : Shell w) (k : Nat) :
    (saveStdin ok s).fds.get k =
      if ok = true ∧ k = s.fds.lowest then s.fds.get STDIN_FILENO else s.fds.get k :=
  Shell.dup_get ok STDIN_FILENO s k

theorem saveStreams_get (o : SegOutcome) (s : Shell w) (k : Nat) :
    (saveStreams o s).fds.get k =
      if o.dupOut = true ∧ k = (saveStdin o.dupIn s).fds.lowest then
        (saveStdin o.dupIn s).fds.get STDOUT_FILENO
      else (saveStdin o.dupIn s).fds.get k :=
  Shell.dup_get o.dupOut STDOUT_FILENO (saveStdin o.dupIn s) k

theorem saveStreams_saveIn (o : SegOutcome) (s : Shell w) :
    (saveStreams o s).saveIn = (s.dup o.dupIn STDIN_FILENO).1 :=
  (Shell.dup_frame o.dupOut STDOUT_FILENO (saveStdin o.dupIn s)).2.2.1

/-- A fault-free sequence of two steps, taken apart. -/
theorem bind_eq_ok {α β : Type} {x : Except Fault α} {f : α → Except Fault β} {b : β}
    (h : x >>= f = .ok b) : ∃ a, x = .ok a ∧ f a = .ok b := by
  cases x with
  | error e => cases h
  | ok a => exact ⟨a, rfl, h⟩

theorem map_eq_ok {α β : Type} {x : Except Fault α} {f : α → β} {b : β}
    (h : x.map f = .ok b) : ∃ a, x = .ok a ∧ f a = b := by
  cases x with
  | error e => cases h
  | ok a => exact ⟨a, rfl, Except.ok.inj h⟩

/-- `handle_redirection` opens at most the two files and leaves the rest of the shell alone. -/
theorem handleRedirection_shell {b : Scratch} {line : CString} {p q : Process}
    {env : Environment} {s t : Shell w} (h : handleRedirection b line p env s = .ok (q, t)) :
    ∃ type c, scanRedirection line b = .ok (type, c) ∧
      t = (openRedirections type c { p with redirected := type } s).2 := by
  obtain ⟨⟨type, c⟩, hscan, h⟩ := bind_eq_ok h
  refine ⟨type, c, hscan, ?_⟩
  dsimp only at h
  split at h
  · cases h
  · obtain ⟨r, _, hr⟩ := map_eq_ok h
    exact (congrArg Prod.snd hr).symm

/-- What a call of `execv` hands over.  It has a path, and then a NULL behind the words, or it
starts nothing. -/
theorem execv_eq_execv {dir : w.Dir} {p : Process} {t : Shell w} {e : Exec w}
    (h : execv dir p t = .execv e) :
    e = ⟨p.execPath, p.argv, t.fds, dir, t.cwd, e.started⟩ ∧
      (p.execPath = none ∧ e.started = false ∨ p.argc < MAX_ARGUMENTS_NUM) := by
  unfold execv at h
  split at h
  · rename_i hp
    cases h
    exact ⟨by rw [hp], Or.inl ⟨hp, rfl⟩⟩
  · rename_i path hp
    split at h
    · cases h
    · rename_i hargc
      cases h
      exact ⟨by rw [hp], Or.inr (Nat.not_le.mp hargc)⟩

/-- The three `dup2` steps of a child that reaches `execv`. -/
theorem runProcess_steps {o : RunOutcome} {dir : w.Dir} {p : Process} {s : Shell w} {e : Exec w}
    (h : runProcess o dir p s = .execv e) :
    ∃ s₁ s₂ s₃ : Shell w,
      (if p.redirected.has REDI_OUT_MASK ∧ ¬ p.redirected.has REDI_PIPE_MASK then
        s.dup2 o.dupErr p.rediOutfd STDERR_FILENO else some s) = some s₁ ∧
      (if p.redirected.has REDI_OUT_MASK then s₁.dup2 o.dupOut p.rediOutfd STDOUT_FILENO
        else some s₁) = some s₂ ∧
      (if p.redirected.has REDI_IN_MASK then s₂.dup2 o.dupIn p.rediInfd STDIN_FILENO
        else some s₂) = some s₃ ∧
      execv dir p s₃ = .execv e := by
  unfold runProcess at h
  dsimp only at h
  split at h
  · cases h
  · rename_i s₃ h₃
    obtain ⟨s₂, h₂, h₃⟩ := Option.bind_eq_some_iff.mp h₃
    obtain ⟨s₁, h₁, h₂⟩ := Option.bind_eq_some_iff.mp h₂
    exact ⟨s₁, s₂, s₃, h₁, h₂, h₃, h⟩

/-- What a child that reaches `execv` looks like: the directory of the lookup, and the directory
it is in. -/
theorem runProcess_execv {o : RunOutcome} {dir : w.Dir} {p : Process} {s : Shell w} {e : Exec w}
    (h : runProcess o dir p s = .execv e) :
    e.accessDir = dir ∧ e.execDir = s.cwd ∧ e.path = p.execPath ∧ e.argv = p.argv := by
  have hdup : ∀ (c : Prop) [Decidable c] (ok : Bool) (k : Option Nat) (n : Nat) (a b : Shell w),
      (if c then a.dup2 ok k n else some a) = some b → b.cwd = a.cwd := by
    intro c _ ok k n a b hb
    split at hb
    · exact (dup2_frame hb).1
    · cases hb
      rfl
  obtain ⟨s₁, s₂, s₃, h₁, h₂, h₃, hexec⟩ := runProcess_steps h
  obtain ⟨he, _⟩ := execv_eq_execv hexec
  have hcwd : s₃.cwd = s.cwd :=
    (hdup _ _ _ _ _ _ h₃).trans ((hdup _ _ _ _ _ _ h₂).trans (hdup _ _ _ _ _ _ h₁))
  rw [he]
  exact ⟨rfl, hcwd, rfl, rfl⟩

/-- Beside a child of a pipeline the shell waits, once, and stays where it is. -/
theorem pipedParent_frame (o : StageOutcome) (s : Shell w) :
    (pipedParent o s).cwd = s.cwd ∧
      (pipedParent o s).trace = s.trace ++ [.waitpid (pipedParent o s).fds] := by
  obtain ⟨hcwd, _, _, _, htrace⟩ := Shell.dup_frame o.parentDup
    ((s.close s.fd.2).close STDIN_FILENO).fd.1 ((s.close s.fd.2).close STDIN_FILENO)
  exact ⟨hcwd, congrArg (· ++ [_]) htrace⟩

theorem lastParent_log (o : StageOutcome) (s : Shell w) :
    (lastParent o s).cwd = s.cwd ∧ (lastParent o s).trace = s.trace ++ [.waitpid s.fds] := by
  unfold lastParent
  dsimp only
  cases hd : (s.log (.waitpid s.fds)).dup2 o.restore s.saveIn STDIN_FILENO with
  | none =>
    rw [Shell.log_saveIn, hd]
    exact ⟨rfl, rfl⟩
  | some t =>
    obtain ⟨hcwd, htrace, _⟩ := dup2_frame hd
    rw [Shell.log_saveIn, hd]
    exact ⟨hcwd, htrace⟩

/-- What opening a file keeps, the redirections keep. -/
theorem openRedirections_keeps {I : Shell w → Prop}
    (hopen : ∀ (name : CString) (write : Bool) (s : Shell w), I s → I (s.openFile name write).2)
    {s : Shell w} (hs : I s) (type : RedirectionType) (b : Scratch) (p : Process) :
    I (openRedirections type b p s).2 := by
  unfold openRedirections
  dsimp only
  split <;> split
  · exact hopen _ _ _ (hopen _ _ _ hs)
  · exact hopen _ _ _ hs
  · exact hopen _ _ _ hs
  · exact hs

/-- `run_processes` leaves the descriptors as they are. -/
theorem forkProcesses_fds {o : LineOutcome} : ∀ {number : Nat}
    {process : List (Process × w.Dir)} {s t : Shell w},
    forkProcesses o number process s = .ok t → t.fds = s.fds
  | _, [], _, _, h => by
    cases h
    rfl
  | number, (p, dir) :: ps, s, _, h => by
    rw [forkProcesses] at h
    split at h
    · have hrest := forkProcesses_fds h
      exact hrest
    · cases h

/-- After the segments nothing happens to the descriptors any more. -/
theorem parseCommand_segments {o : LineOutcome} {line : CString} {env : Environment}
    {s t : Shell w} (h : parseCommand o line env s = .ok t) :
    ∃ process u, runSegments env o 0 (singleCommands line) [] s = .ok (process, u) ∧
      t.fds = u.fds := by
  unfold parseCommand at h
  split at h
  · cases h
  · obtain ⟨⟨process, u⟩, hu, h⟩ := bind_eq_ok h
    obtain ⟨v, hv, rfl⟩ := map_eq_ok h
    have hfds : v.fds = u.fds := (forkProcesses_fds hv).trans (Shell.chdir_fds _ u)
    refine ⟨process, u, hu, ?_⟩
    split
    · exact hfds
    · exact hfds

/-! ## 2. The obligations -/

/-- What a property `I` of the shell has to survive for a line to keep it.  `Ok` is what is known
of the calls of every stage, `Good` of every child, `Looked` of every directory in which a program
is looked up. -/
structure LineRule (env : Environment) (Ok : StageOutcome → Prop) (I : Shell w → Prop)
    (Good : Child w → Prop) (Looked : w.Dir → Prop) : Prop where
  save : ∀ {s : Shell w} (o : SegOutcome), I s → I (saveStreams o s)
  pipe : ∀ {ok : Bool} {s t : Shell w}, I s → s.pipe ok = some t → I t
  pipedChild : ∀ {s : Shell w} (o : StageOutcome) (firstCommand : CString),
    I s → Good (pipedChild o firstCommand env s)
  lastChild : ∀ {s : Shell w} (o : StageOutcome) (firstCommand : CString),
    I s → Good (handleRedirectionExec o firstCommand env s)
  piped : ∀ {o : StageOutcome} {s t : Shell w} {c : Child w}, Ok o → I s →
    s.pipe o.pipe = some t → Good c → I (pipedParent o (t.log (.fork c)))
  last : ∀ {o : StageOutcome} {s t : Shell w} {c : Child w}, Ok o → I s →
    s.pipe o.pipe = some t → Good c → I (lastParent o (t.log (.fork c)))
  openFile : ∀ {s : Shell w} (name : CString) (write : Bool), I s → I (s.openFile name write).2
  looked : ∀ {s : Shell w}, I s → Looked s.cwd
  chdir : ∀ {s : Shell w}, I s → I (s.chdir env.cwdString)
  child : ∀ {s : Shell w} (o : RunOutcome) (dir : w.Dir) (p : Process),
    I s → Looked dir → Good (runProcess o dir p s)
  fork : ∀ {s : Shell w} {c : Child w}, I s → Good c → I (s.log (.fork c))
  waitAll : ∀ {s : Shell w}, I s → I (s.log .waitAll)

namespace LineRule

variable {env : Environment} {Ok : StageOutcome → Prop} {I : Shell w → Prop}
  {Good : Child w → Prop} {Looked : w.Dir → Prop}

/-! ## 3. The recursion and the loops -/

theorem lastStage (R : LineRule env Ok I Good Looked) {s : Shell w} (hs : I s)
    {o : StageOutcome} (ho : Ok o) (firstCommand : CString) :
    I (lastStage o firstCommand env s) := by
  unfold Osexp.Seush.lastStage
  split
  · exact hs
  · rename_i t ht
    have hpipe : I t := R.pipe hs ht
    split
    · exact R.last ho hs ht (R.lastChild o firstCommand hpipe)
    · exact hpipe

/-- **A pipeline keeps what its stages keep**, however deep the recursion goes. -/
theorem handlePipe (R : LineRule env Ok I Good Looked) {o : Nat → StageOutcome}
    (ho : ∀ n, Ok (o n)) (line : CString) :
    ∀ (n : Nat) (leader : Bool) (s : Shell w), I s → I (handlePipe env o n line leader s).2 := by
  induction line using pipeline_induction with
  | null line h =>
    intro n leader s hs
    rw [handlePipe_null h]
    exact hs
  | single line token h =>
    intro n leader s hs
    rw [handlePipe_single h]
    cases leader
    · exact R.lastStage hs (ho n) _
    · exact hs
  | piped line token rest h hr ih =>
    intro n leader s hs
    rw [handlePipe_piped h hr]
    split
    · exact hs
    · rename_i t ht
      have hpipe : I t := R.pipe hs ht
      split
      · exact ih _ _ _ (R.piped (ho n) hs ht (R.pipedChild _ _ hpipe))
      · exact hpipe

theorem openRedirections (R : LineRule env Ok I Good Looked) {s : Shell w} (hs : I s)
    (type : RedirectionType) (b : Scratch) (p : Process) :
    I (openRedirections type b p s).2 :=
  openRedirections_keeps (fun name write _ => R.openFile name write) hs type b p

theorem handleRedirection (R : LineRule env Ok I Good Looked) {s t : Shell w} (hs : I s)
    {b : Scratch} {line : CString} {p q : Process}
    (h : handleRedirection b line p env s = .ok (q, t)) : I t := by
  obtain ⟨type, c, _, rfl⟩ := handleRedirection_shell h
  exact R.openRedirections hs type c _

/-- A segment, from the moment its streams are saved. -/
theorem runSegment_saved (R : LineRule env Ok I Good Looked) {o : SegOutcome}
    (ho : ∀ n, Ok (o.stage n)) {command : CString} {process process' : List (Process × w.Dir)}
    {s t : Shell w} (hs : I (saveStreams o s)) (hp : ∀ q ∈ process, Looked q.2)
    (h : runSegment env o command process s = .ok (process', t)) :
    I t ∧ ∀ q ∈ process', Looked q.2 := by
  have hpipe := R.handlePipe ho command 0 true _ hs
  unfold Osexp.Seush.runSegment at h
  split at h
  · rename_i u hu
    cases h
    rw [hu] at hpipe
    exact ⟨hpipe, hp⟩
  · rename_i res u hu
    rw [hu] at hpipe
    obtain ⟨⟨q, v⟩, hv, h⟩ := map_eq_ok h
    cases h
    refine ⟨R.handleRedirection hpipe hv, ?_⟩
    intro r hr
    rcases List.mem_append.mp hr with hr | hr
    · exact hp r hr
    · rw [List.mem_singleton.mp hr]
      exact R.looked hpipe
  · cases h

theorem runSegment (R : LineRule env Ok I Good Looked) {o : SegOutcome}
    (ho : ∀ n, Ok (o.stage n)) {command : CString} {process process' : List (Process × w.Dir)}
    {s t : Shell w} (hs : I s) (hp : ∀ q ∈ process, Looked q.2)
    (h : runSegment env o command process s = .ok (process', t)) :
    I t ∧ ∀ q ∈ process', Looked q.2 :=
  R.runSegment_saved ho (R.save o hs) hp h

theorem runSegments (R : LineRule env Ok I Good Looked) {o : LineOutcome}
    (ho : ∀ i n, Ok ((o.seg i).stage n)) :
    ∀ {i : Nat} {commands : List CString} {process process' : List (Process × w.Dir)}
      {s t : Shell w}, I s → (∀ q ∈ process, Looked q.2) →
      runSegments env o i commands process s = .ok (process', t) →
      I t ∧ ∀ q ∈ process', Looked q.2
  | _, [], _, _, _, _, hs, hp, h => by
    cases h
    exact ⟨hs, hp⟩
  | i, command :: commands, process, _, s, _, hs, hp, h => by
    rw [Osexp.Seush.runSegments] at h
    split at h
    · exact R.runSegments ho hs hp h
    · obtain ⟨⟨p₁, s₁⟩, h₁, h₂⟩ := bind_eq_ok h
      obtain ⟨hs₁, hp₁⟩ := R.runSegment (ho i) hs hp h₁
      exact R.runSegments ho hs₁ hp₁ h₂

theorem forkProcesses (R : LineRule env Ok I Good Looked) {o : LineOutcome} :
    ∀ {number : Nat} {process : List (Process × w.Dir)} {s t : Shell w}, I s →
      (∀ q ∈ process, Looked q.2) → forkProcesses o number process s = .ok t → I t
  | _, [], _, _, hs, _, h => by
    cases h
    exact hs
  | number, (p, dir) :: ps, s, _, hs, hp, h => by
    rw [Osexp.Seush.forkProcesses] at h
    split at h
    · have hc : Good (runProcess (o.run number) dir p s) :=
        R.child _ _ _ hs (hp (p, dir) List.mem_cons_self)
      exact R.forkProcesses (R.fork hs hc) (fun q hq => hp q (List.mem_cons_of_mem _ hq)) h
    · cases h

theorem runProcesses (R : LineRule env Ok I Good Looked) {o : LineOutcome}
    {process : List (Process × w.Dir)} {s t : Shell w} (hs : I s)
    (hp : ∀ q ∈ process, Looked q.2) (h : runProcesses o process s = .ok t) : I t := by
  obtain ⟨u, hu, rfl⟩ := map_eq_ok h
  have hi : I u := R.forkProcesses hs hp hu
  split
  · exact hi
  · exact R.waitAll hi

/-- **A line keeps what its parts keep.**  This is where the loops and the recursion of a line are
gone through, for all such properties at once. -/
theorem parseCommand (R : LineRule env Ok I Good Looked) {o : LineOutcome}
    (ho : ∀ i n, Ok ((o.seg i).stage n)) {line : CString} {s t : Shell w} (hs : I s)
    (h : parseCommand o line env s = .ok t) : I t := by
  unfold Osexp.Seush.parseCommand at h
  split at h
  · cases h
  · obtain ⟨⟨process, u⟩, hu, h⟩ := bind_eq_ok h
    obtain ⟨hi, hp⟩ := R.runSegments ho hs (by simp) hu
    exact R.runProcesses (R.chdir hi) hp h

end LineRule

/-! ## 4. Properties of the directory and the trace -/

/-- The obligations of a property that the descriptors cannot break. -/
structure QuietRule (env : Environment) (I : Shell w → Prop) (Good : Child w → Prop)
    (Looked : w.Dir → Prop) : Prop where
  quiet : ∀ {s t : Shell w}, I s → t.cwd = s.cwd → t.trace = s.trace → I t
  openCall : ∀ {s : Shell w} (name : CString) (write : Bool),
    I s → I (s.log (.openCall name write))
  waitpid : ∀ {s : Shell w} (fds : FdTable OpenFile), I s → I (s.log (.waitpid fds))
  waitAll : ∀ {s : Shell w}, I s → I (s.log .waitAll)
  fork : ∀ {s : Shell w} {c : Child w}, I s → Good c → I (s.log (.fork c))
  chdir : ∀ {s : Shell w}, I s → I (s.chdir env.cwdString)
  looked : ∀ {s : Shell w}, I s → Looked s.cwd
  child : ∀ {s : Shell w} (o : RunOutcome) (dir : w.Dir) (p : Process),
    I s → Looked dir → Good (runProcess o dir p s)
  fault : ∀ f, Good (.fault f)

namespace QuietRule

variable {env : Environment} {I : Shell w → Prop} {Good : Child w → Prop}
  {Looked : w.Dir → Prop}

theorem dup (R : QuietRule env I Good Looked) {s : Shell w} (hs : I s) (ok : Bool) (k : Nat) :
    I (s.dup ok k).2 := by
  obtain ⟨hcwd, _, _, _, htrace⟩ := Shell.dup_frame ok k s
  exact R.quiet hs hcwd htrace

theorem close (R : QuietRule env I Good Looked) {s : Shell w} (hs : I s) (k : Nat) :
    I (s.close k) :=
  R.quiet hs rfl rfl

theorem pipe (R : QuietRule env I Good Looked) {s t : Shell w} (hs : I s) {ok : Bool}
    (h : s.pipe ok = some t) : I t := by
  obtain ⟨_, hcwd, _, _, htrace, _⟩ := Shell.pipe_eq_some h
  exact R.quiet hs hcwd htrace

theorem openFile (R : QuietRule env I Good Looked) {s : Shell w} (name : CString)
    (write : Bool) (hs : I s) : I (s.openFile name write).2 := by
  obtain ⟨hcwd, htrace, _⟩ := openFile_frame name write s
  exact R.quiet (R.openCall name write hs) hcwd htrace

theorem openRedirections (R : QuietRule env I Good Looked) {s : Shell w} (hs : I s)
    (type : RedirectionType) (b : Scratch) (p : Process) :
    I (openRedirections type b p s).2 :=
  openRedirections_keeps (fun name write _ => R.openFile name write) hs type b p

theorem lastChild (R : QuietRule env I Good Looked) {s : Shell w} (o : StageOutcome)
    (line : CString) (hs : I s) : Good (handleRedirectionExec o line env s) := by
  unfold handleRedirectionExec
  split
  · exact R.fault _
  · rename_i p t h
    obtain ⟨type, c, _, rfl⟩ := handleRedirection_shell h
    exact R.child _ _ _ (R.chdir (R.openRedirections hs type c _)) (R.looked hs)

theorem lastParent (R : QuietRule env I Good Looked) {s : Shell w} (hs : I s)
    (o : StageOutcome) : I (lastParent o s) := by
  obtain ⟨hcwd, htrace⟩ := lastParent_log o s
  exact R.quiet (R.waitpid s.fds hs) hcwd htrace

/-- The full list of obligations follows. -/
theorem lineRule (R : QuietRule env I Good Looked) :
    LineRule env (fun _ => True) I Good Looked where
  save o hs := by
    obtain ⟨hcwd, htrace, _⟩ := saveStreams_frame o _
    exact R.quiet hs hcwd htrace
  pipe hs h := R.pipe hs h
  pipedChild o firstCommand hs :=
    R.lastChild o firstCommand (R.close (R.dup (R.close (R.close hs _) _) _ _) _)
  lastChild := R.lastChild
  piped _ hs ht hc :=
    R.waitpid _ (R.close (R.dup (R.close (R.close (R.fork (R.pipe hs ht) hc) _) _) _ _) _)
  last _ hs ht hc := R.lastParent (R.fork (R.pipe hs ht) hc) _
  openFile := R.openFile
  looked := R.looked
  chdir := R.chdir
  child := R.child
  fork := R.fork
  waitAll := R.waitAll

end QuietRule

/-! ## 5. Properties of the descriptor table -/

/-- The obligations of a property that speaks of the table, the number of the next open file and
the saved descriptor only. -/
structure TableRule (Ok : StageOutcome → Prop) (I : Shell w → Prop) : Prop where
  same : ∀ {s t : Shell w}, I s → t.fds = s.fds → t.fresh = s.fresh → t.saveIn = s.saveIn → I t
  save : ∀ {s : Shell w} (o : SegOutcome), I s → I (saveStreams o s)
  pipe : ∀ {ok : Bool} {s t : Shell w}, I s → s.pipe ok = some t → I t
  piped : ∀ {o : StageOutcome} {s t : Shell w} (c : Child w), Ok o → I s →
    s.pipe o.pipe = some t → I (pipedParent o (t.log (.fork c)))
  last : ∀ {o : StageOutcome} {s t : Shell w} (c : Child w), Ok o → I s →
    s.pipe o.pipe = some t → I (lastParent o (t.log (.fork c)))
  openFile : ∀ {s : Shell w} (name : CString) (write : Bool), I s → I (s.openFile name write).2

/-- The full list of obligations follows. -/
theorem TableRule.lineRule {Ok : StageOutcome → Prop} {I : Shell w → Prop}
    (R : TableRule Ok I) (env : Environment) :
    LineRule env Ok I (fun _ => True) (fun _ => True) where
  save := R.save
  pipe := R.pipe
  pipedChild _ _ _ := trivial
  lastChild _ _ _ := trivial
  piped ho hs ht _ := R.piped _ ho hs ht
  last ho hs ht _ := R.last _ ho hs ht
  openFile := R.openFile
  looked _ := trivial
  chdir hs := R.same hs rfl rfl rfl
  child _ _ _ _ _ := trivial
  fork hs _ := R.same hs rfl rfl rfl
  waitAll hs := R.same hs rfl rfl rfl

end Osexp.Seush
