/-
# How many descriptors a run leaves open

A process has a bounded number of descriptors, and a shell that loses a few with every line comes to
a point where `pipe`, `dup` and `open` fail for good.  `no_leak` says which runs leave the
descriptors as they were; for the others one wants to know how fast they are used up, and by what.

Nothing in the shell closes the two that `save_in = dup(0); save_out = dup(1)` open for a segment,
the pipe that the last stage of a pipeline makes for nobody, and the files that the shell opens
itself, for redirections outside pipelines.  `descriptors_counted` says that this is all: along
every run in which the `dup`, `pipe` and `fork` calls succeed no descriptor is closed, and the
number of open ones grows by two for each segment that is not blank, by two more for each pipeline
that gets to its last stage, and by one for each `open` call of the shell that succeeds.  The first
two numbers are read off the text of the line (`leftByLine`), the third off what the shell has done
(`openedByLine`): whether a file opens is for the directory in which the shell is to say.

What the children open and close is theirs.  The lemmas go call by call; `LeavesOpen` is what is
kept within a line, where the shell does not change its directory before all files are open.
-/
import Osexp.Seush.Language
import Osexp.Seush.Leaks
import Osexp.Seush.Reaping

namespace Osexp.Seush

open Lts FdTable

variable {w : World}

/-! ## 1. What is counted -/

/-- The event is an `open` call that succeeds in the directory. -/
def Event.opensIn (d : w.Dir) : Event w → Bool
  | .openCall name write => w.opens d name write
  | _ => false

/-- How many files the events open, for a process in the directory. -/
def filesOpened (d : w.Dir) (E : List (Event w)) : Nat := E.countP (Event.opensIn d)

/-- From the first shell to the second, in one directory, no descriptor is closed, and besides those
of the files that are opened there are `n` more. -/
structure LeavesOpen (n : Nat) (s t : Shell w) : Prop where
  cwd : t.cwd = s.cwd
  gains : ∃ E, t.trace = s.trace ++ E ∧ Gains (n + filesOpened s.cwd E) s.fds t.fds

/-- The calls that `handle_pipe` makes for its own descriptors succeed. -/
structure PipeCallsOk (o : StageOutcome) : Prop where
  pipe : o.pipe = true
  fork : o.fork = true
  dup : o.parentDup = true

/-- So do those of the shell for a whole line. -/
structure DescriptorsOk (o : LineOutcome) : Prop where
  saveIn : ∀ i, (o.seg i).dupIn = true
  saveOut : ∀ i, (o.seg i).dupOut = true
  stage : ∀ i n, PipeCallsOk ((o.seg i).stage n)

/-- What a segment leaves open: the saved streams, and the pipe of a last stage. -/
def leftBySegment (command : CString) : Nat :=
  if clean command = [] then 0
  else if (stages command).2 = true ∧ 2 ≤ (stages command).1.length then 4
  else 2

/-- What a line leaves open. -/
def leftByLine (line : CString) : Nat :=
  match dispatch (clean line) with
  | .external =>
    (singleCommands (clean line)).foldr (fun command n => leftBySegment command + n) 0
  | _ => 0

theorem filesOpened_append (d : w.Dir) (E F : List (Event w)) :
    filesOpened d (E ++ F) = filesOpened d E + filesOpened d F := List.countP_append

/-- Where nothing is opened. -/
theorem filesOpened_eq_zero {d : w.Dir} {E : List (Event w)} (h : ∀ ev ∈ E, ev.isOpen = false) :
    filesOpened d E = 0 := by
  refine List.countP_eq_zero.mpr fun ev hev => ?_
  cases ev with
  | openCall name write => exact absurd (h _ hev) (by simp [Event.isOpen])
  | _ => exact Bool.false_ne_true

namespace LeavesOpen

variable {n m : Nat} {s t u : Shell w}

theorem trans (h : LeavesOpen n s t) (h' : LeavesOpen m t u) : LeavesOpen (n + m) s u := by
  obtain ⟨hcwd, E, htrace, hgain⟩ := h
  obtain ⟨hcwd', F, htrace', hgain'⟩ := h'
  refine ⟨hcwd'.trans hcwd, E ++ F, by rw [htrace', htrace, List.append_assoc], ?_⟩
  have hboth := hgain.trans hgain'
  rw [hcwd] at hboth
  rwa [filesOpened_append, Nat.add_add_add_comm]

/-- A call that opens no file. -/
theorem of_gains (hcwd : t.cwd = s.cwd) (htrace : t.trace = s.trace)
    (h : Gains n s.fds t.fds) : LeavesOpen n s t :=
  ⟨hcwd, [], by rw [htrace, List.append_nil], h⟩

/-- A call that the trace tells of, and opens nothing. -/
theorem of_event {e : Event w} (hcwd : t.cwd = s.cwd) (htrace : t.trace = s.trace ++ [e])
    (he : e.isOpen = false) (h : ∀ k, t.fds.get k ≠ none ↔ s.fds.get k ≠ none) :
    LeavesOpen 0 s t := by
  refine ⟨hcwd, [e], htrace, ?_⟩
  rw [filesOpened_eq_zero (List.forall_mem_singleton.mpr he)]
  exact .same h

theorem opened (h : LeavesOpen n s t) {k : Nat} (hk : s.fds.get k ≠ none) :
    t.fds.get k ≠ none := by
  obtain ⟨_, _, _, hgain⟩ := h
  exact hgain.opened hk

end LeavesOpen

/-! ## 2. The calls -/

section Calls

variable {s t : Shell w}

/-- Saving the streams opens two descriptors. -/
theorem saveStreams_leaves {o : SegOutcome} (hin : o.dupIn = true) (hout : o.dupOut = true)
    (h0 : s.fds.get STDIN_FILENO ≠ none) (h1 : s.fds.get STDOUT_FILENO ≠ none) :
    LeavesOpen 2 s (saveStreams o s) := by
  obtain ⟨f, hf⟩ := Option.ne_none_iff_exists'.mp h0
  obtain ⟨g, hg⟩ := Option.ne_none_iff_exists'.mp h1
  have hfirst : (saveStdin true s).fds = s.fds.alloc f := (Shell.dup_of_get hf).2
  have hg' : (saveStdin true s).fds.get STDOUT_FILENO = some g := saveStdin_keeps true hg
  have hsecond : (saveStreams o s).fds = (s.fds.alloc f).alloc g := by
    rw [saveStreams, hin, hout, saveStdout, ← hfirst]
    exact (Shell.dup_of_get hg').2
  obtain ⟨hcwd, htrace, _⟩ := saveStreams_frame o s
  refine .of_gains hcwd htrace ?_
  rw [hsecond]
  exact (Gains.alloc s.fds f).trans (Gains.alloc _ g)

/-- A new pipe, two. -/
theorem pipe_leaves {ok : Bool} (h : s.pipe ok = some t) : LeavesOpen 2 s t := by
  obtain ⟨_, hcwd, _, _, htrace, _, _, hfds⟩ := Shell.pipe_eq_some h
  refine .of_gains hcwd htrace ?_
  rw [hfds]
  exact (Gains.alloc s.fds _).trans (Gains.alloc _ _)

/-- When a piped stage is over, the same descriptors are open as before its pipe was made. -/
theorem pipedParent_leaves {o : StageOutcome} (ho : PipeCallsOk o) (h : s.pipe o.pipe = some t)
    (h0 : s.fds.get STDIN_FILENO ≠ none) (c : Child w) :
    LeavesOpen 0 s (pipedParent o (t.log (.fork c))) := by
  obtain ⟨hother, hzero, _⟩ := piped_fds h (.fork c)
  obtain ⟨_, hcwd, _, _, htrace, _⟩ := Shell.pipe_eq_some h
  obtain ⟨hwaitCwd, hwait⟩ := pipedParent_frame o (t.log (.fork c))
  have htwo : (pipedParent o (t.log (.fork c))).trace =
      s.trace ++ [.fork c, .waitpid (pipedParent o (t.log (.fork c))).fds] := by
    rw [hwait, Shell.log_trace, htrace, List.append_assoc]
    rfl
  refine ⟨hwaitCwd.trans hcwd, _, htwo, .same fun k => ?_⟩
  by_cases hk : k = STDIN_FILENO
  · rw [hk, hzero, if_pos ⟨ho.dup, h0⟩]
    exact iff_of_true (Option.some_ne_none _) h0
  · rw [hother k hk]

/-- The last stage leaves its pipe. -/
theorem lastStage_leaves {o : StageOutcome} (ho : PipeCallsOk o)
    (h0 : s.fds.get STDIN_FILENO ≠ none) (firstCommand : CString) (env : Environment) :
    LeavesOpen 2 s (lastStage o firstCommand env s) := by
  unfold lastStage
  cases hpipe : s.pipe o.pipe with
  | none =>
    rw [Shell.pipe_eq_none_iff, ho.pipe] at hpipe
    cases hpipe
  | some t =>
    dsimp only
    rw [if_pos ho.fork]
    set u := t.log (.fork (handleRedirectionExec o firstCommand env t)) with hu
    have hfork : LeavesOpen 0 t u :=
      .of_event rfl (Shell.log_trace _ t) rfl (fun _ => Iff.rfl)
    have hpipe2 := pipe_leaves hpipe
    have hu0 := hfork.opened (hpipe2.opened h0)
    obtain ⟨hcwd, htrace⟩ := lastParent_log o u
    refine (hpipe2.trans hfork).trans (m := 0) (.of_event hcwd htrace rfl fun k => ?_)
    -- descriptor 0 is open whether it is taken back or not
    rw [lastParent_get]
    split
    · rename_i h
      rw [h.2.2]
      exact iff_of_true h.2.1 hu0
    · exact Iff.rfl

/-- **The recursion on a pipeline** leaves the pipe of its last stage, if there is one. -/
theorem handlePipe_leaves {env : Environment} {o : Nat → StageOutcome}
    (ho : ∀ n, PipeCallsOk (o n)) (line : CString) :
    ∀ (n : Nat) (s : Shell w), s.fds.get STDIN_FILENO ≠ none →
      LeavesOpen (if (stages line).2 = true then 2 else 0) s
        (handlePipe env o n line false s).2 := by
  induction line using pipeline_induction with
  | null line h =>
    intro n s _
    rw [handlePipe_null h, stages_null h]
    exact .of_gains rfl rfl (.same fun _ => Iff.rfl)
  | single line token h =>
    intro n s h0
    rw [handlePipe_single h, stages_single h]
    exact lastStage_leaves (ho n) h0 (clean token) env
  | piped line token rest h hr ih =>
    intro n s h0
    rw [handlePipe_piped h hr, stages_piped h hr]
    cases hpipe : s.pipe (o n).pipe with
    | none =>
      rw [Shell.pipe_eq_none_iff, (ho n).pipe] at hpipe
      cases hpipe
    | some t =>
      dsimp only
      rw [if_pos (ho n).fork]
      have hstage := pipedParent_leaves (ho n) hpipe h0 (pipedChild (o n) (clean token) env t)
      rw [← Nat.zero_add (ite _ _ _)]
      exact hstage.trans (ih (n + 1) _ (hstage.opened h0))

/-- The recursion returns no command when its forks succeed. -/
theorem handlePipe_returns_none {env : Environment} {o : Nat → StageOutcome}
    (ho : ∀ n, PipeCallsOk (o n)) (line : CString) : ∀ (n : Nat) (s : Shell w),
      (handlePipe env o n line false s).1 = none := by
  induction line using pipeline_induction with
  | null line h =>
    intro n s
    rw [handlePipe_null h]
  | single line token h =>
    intro n s
    rw [handlePipe_single h]
    rfl
  | piped line token rest h hr ih =>
    intro n s
    rw [handlePipe_piped h hr]
    cases s.pipe (o n).pipe with
    | none => rfl
    | some t =>
      dsimp only
      rw [if_pos (ho n).fork]
      exact ih (n + 1) _

/-- An `open` call opens one descriptor if it succeeds, and none if not. -/
theorem openFile_leaves (name : CString) (write : Bool) (s : Shell w) :
    LeavesOpen 0 s (s.openFile name write).2 := by
  obtain ⟨hcwd, htrace, _⟩ := openFile_frame name write s
  refine ⟨hcwd, _, htrace, ?_⟩
  have hone : filesOpened s.cwd [.openCall name write] =
      if w.opens s.cwd name write = true then 1 else 0 := List.countP_singleton
  rw [hone, Nat.zero_add]
  unfold Shell.openFile
  dsimp only
  change Gains _ _ (ite (w.opens s.cwd name write = true) _ _ : Option Nat × Shell w).2.fds
  split
  · exact Gains.alloc s.fds _
  · exact .same fun _ => Iff.rfl

theorem openRedirections_leaves (type : RedirectionType) (b : Scratch) (p : Process)
    (s : Shell w) : LeavesOpen 0 s (openRedirections type b p s).2 :=
  openRedirections_keeps (I := fun t => LeavesOpen 0 s t)
    (fun name write t ht => ht.trans (openFile_leaves name write t))
    (.of_gains rfl rfl (.same fun _ => Iff.rfl)) type b p

end Calls

/-! ## 3. Segments -/

section Segments

variable {env : Environment} {s t : Shell w}

/-- A segment that is not blank. -/
theorem runSegment_leaves {o : SegOutcome} (hin : o.dupIn = true) (hout : o.dupOut = true)
    (ho : ∀ n, PipeCallsOk (o.stage n)) (h0 : s.fds.get STDIN_FILENO ≠ none)
    (h1 : s.fds.get STDOUT_FILENO ≠ none) {command : CString} (hne : clean command ≠ [])
    {process process' : List (Process × w.Dir)}
    (h : runSegment env o command process s = .ok (process', t)) :
    LeavesOpen (leftBySegment command) s t := by
  have hsave := saveStreams_leaves hin hout h0 h1
  have h0' := hsave.opened h0
  unfold runSegment at h
  rw [leftBySegment, if_neg hne]
  cases htok : strtok ['|'] command with
  | none =>
    rw [handlePipe_null htok] at h
    cases h
    rw [stages_null htok, if_neg (by simp)]
    exact hsave
  | some tr =>
    obtain ⟨token, rest⟩ := tr
    rcases eq_or_ne rest [] with rfl | hr
    · -- a plain command, whose files are opened
      rw [handlePipe_single htok] at h
      obtain ⟨⟨q, u⟩, hu, h⟩ := map_eq_ok h
      cases h
      obtain ⟨type, c, _, rfl⟩ := handleRedirection_shell hu
      rw [stages_single htok, if_neg (by simp)]
      exact hsave.trans (m := 0) (openRedirections_leaves type c _ _)
    · -- a pipeline: its first stage, then the recursion
      rw [handlePipe_piped htok hr] at h
      cases hpipe : (saveStreams o s).pipe (o.stage 0).pipe with
      | none =>
        rw [Shell.pipe_eq_none_iff, (ho 0).pipe] at hpipe
        cases hpipe
      | some u =>
        rw [hpipe] at h
        dsimp only at h
        rw [if_pos (ho 0).fork] at h
        have hfirst := pipedParent_leaves (ho 0) hpipe h0'
          (pipedChild (o.stage 0) (clean token) env u)
        set v := pipedParent (o.stage 0)
          (u.log (.fork (pipedChild (o.stage 0) (clean token) env u))) with hv
        have hrec := @handlePipe_leaves w env o.stage ho (clean rest) 1 v (hfirst.opened h0')
        have hnone := @handlePipe_returns_none w env o.stage ho (clean rest) 1 v
        obtain ⟨u', hu'⟩ : ∃ u', handlePipe env o.stage 1 (clean rest) false v = (none, u') :=
          ⟨_, Prod.ext hnone rfl⟩
        rw [Nat.zero_add, hu'] at h
        cases h
        rw [hu'] at hrec
        have hcount : (if (stages command).2 = true ∧ 2 ≤ (stages command).1.length then 4 else 2) =
            2 + 0 + (if (stages (clean rest)).2 = true then 2 else 0) := by
          rw [stages_piped htok hr]
          by_cases hend : (stages (clean rest)).2 = true
          · have hpos := length_stages_pos _ hend
            rw [if_pos ⟨hend, Nat.succ_le_succ hpos⟩, if_pos hend]
          · rw [if_neg (fun hc => hend hc.1), if_neg hend]
        rw [hcount]
        exact (hsave.trans hfirst).trans hrec

/-- **The segments of a line.** -/
theorem runSegments_leaves {o : LineOutcome} (ho : DescriptorsOk o) :
    ∀ {i : Nat} {commands : List CString} {process process' : List (Process × w.Dir)}
      {s t : Shell w},
      s.fds.get STDIN_FILENO ≠ none → s.fds.get STDOUT_FILENO ≠ none →
      runSegments env o i commands process s = .ok (process', t) →
      LeavesOpen (commands.foldr (fun command n => leftBySegment command + n) 0) s t
  | _, [], _, _, _, _, _, _, h => by
    cases h
    exact .of_gains rfl rfl (.same fun _ => Iff.rfl)
  | i, command :: commands, process, process', s, t, h0, h1, h => by
    rw [List.foldr_cons]
    rw [runSegments] at h
    split at h
    · rename_i hblank
      rw [leftBySegment, if_pos hblank, Nat.zero_add]
      exact runSegments_leaves ho h0 h1 h
    · rename_i hne
      obtain ⟨⟨p, u⟩, hu, h⟩ := bind_eq_ok h
      have hseg := runSegment_leaves (ho.saveIn i) (ho.saveOut i) (ho.stage i) h0 h1 hne hu
      exact hseg.trans (runSegments_leaves ho (hseg.opened h0) (hseg.opened h1) h)

end Segments

/-! ## 4. Lines and runs -/

/-- The files that the shell has opened from the first session to the second, all in the directory
of the first. -/
def openedByLine (s t : Session w) : Nat :=
  filesOpened s.shell.cwd (t.shell.trace.drop s.shell.trace.length)

/-- What the line leaves open. -/
def LineLeaves (n : Nat) (s t : Shell w) : Prop :=
  Gains (n + filesOpened s.cwd (t.trace.drop s.trace.length)) s.fds t.fds

theorem LineLeaves.same {s t : Shell w} (htrace : t.trace = s.trace) (hfds : t.fds = s.fds) :
    LineLeaves 0 s t := by
  rw [LineLeaves, htrace, List.drop_length, hfds]
  exact .same fun _ => Iff.rfl

/-- The `chdir` behind the segments, and the children that `run_processes` starts, leave the
descriptors of the shell alone. -/
theorem parseCommand_leaves {o : LineOutcome} {line : CString} {env : Environment}
    {s t : Shell w} (ho : DescriptorsOk o) (h0 : s.fds.get STDIN_FILENO ≠ none)
    (h1 : s.fds.get STDOUT_FILENO ≠ none) (h : parseCommand o line env s = .ok t) :
    LineLeaves
      ((singleCommands line).foldr (fun command n => leftBySegment command + n) 0) s t := by
  unfold parseCommand at h
  split at h
  · cases h
  · obtain ⟨⟨process, u⟩, hu, h⟩ := bind_eq_ok h
    obtain ⟨_, E, hsegs, hgain⟩ := runSegments_leaves ho h0 h1 hu
    obtain ⟨v, hv, rfl⟩ := map_eq_ok h
    obtain ⟨cs, _, hforks⟩ := forkProcesses_trace hv
    have hfds : v.fds = u.fds := (forkProcesses_fds hv).trans (Shell.chdir_fds _ u)
    have htrace : v.trace = s.trace ++ (E ++ cs.map .fork) := by
      rw [hforks, Shell.chdir_trace, hsegs, List.append_assoc]
    have hnone : filesOpened s.cwd (cs.map .fork) = 0 := by
      refine filesOpened_eq_zero fun ev hev => ?_
      obtain ⟨c, _, rfl⟩ := List.mem_map.mp hev
      rfl
    unfold LineLeaves
    split
    · rw [htrace, List.drop_left, filesOpened_append, hnone, hfds]
      exact hgain
    · rw [Shell.log_trace, Shell.log_fds, htrace, List.append_assoc, List.drop_left,
        filesOpened_append, filesOpened_append, hnone, hfds]
      exact hgain

/-- **One line.**  A built-in command leaves nothing; any other line leaves what its segments
leave. -/
theorem step_leaves {s t : Session w} {i : Input} (ho : DescriptorsOk i.2)
    (h0 : s.shell.fds.get STDIN_FILENO ≠ none) (h1 : s.shell.fds.get STDOUT_FILENO ≠ none)
    (h : Step s i t) :
    Gains (leftByLine i.1 + openedByLine s t) s.shell.fds t.shell.fds := by
  change LineLeaves (leftByLine i.1) s.shell t.shell
  unfold Step runLine at h
  unfold leftByLine
  cases hd : dispatch (clean i.1) with
  | exit =>
    rw [hd] at h
    cases h
  | help =>
    rw [hd] at h
    cases h
    exact .same rfl rfl
  | path args =>
    rw [hd] at h
    obtain ⟨env, _, ht⟩ := map_eq_ok h
    cases ht
    exact .same rfl rfl
  | cd newDir =>
    rw [hd] at h
    cases h
    unfold runCd
    dsimp only
    split
    · exact .same rfl rfl
    · exact .same rfl rfl
  | external =>
    rw [hd] at h
    obtain ⟨u, hu, ht⟩ := map_eq_ok h
    cases ht
    exact parseCommand_leaves ho h0 h1 hu

/-- What the lines of a run leave open, by their text. -/
def leftByRun (r : Trail (Session w) Input) : Nat :=
  r.foldr (fun p n => leftByLine p.1.1 + n) 0

/-- The files that the shell itself opens in a run from the session, each in the directory in which
the shell is then. -/
def openedByRun : Session w → Trail (Session w) Input → Nat
  | _, [] => 0
  | s, (_, t) :: r => openedByLine s t + openedByRun t r

/-- **The descriptors of a run.**  No descriptor is closed, and the number of open ones grows by
what the text of the lines says and by one for each file that the shell itself opens.  So a shell
that is used long enough runs out of descriptors, after at most half as many commands as it may have
of them, and no line that is typed gives one back. -/
theorem descriptors_counted {s : Session w} {r : Trail (Session w) Input} (hr : Run Step s r)
    (h0 : s.shell.fds.get STDIN_FILENO ≠ none) (h1 : s.shell.fds.get STDOUT_FILENO ≠ none)
    (hok : ∀ p ∈ r, DescriptorsOk p.1.2) :
    Gains (leftByRun r + openedByRun s r) s.shell.fds (final s r).shell.fds := by
  induction hr with
  | nil s => exact .same fun _ => Iff.rfl
  | @cons s i t r hstep _ ih =>
    have hline := step_leaves (hok _ List.mem_cons_self) h0 h1 hstep
    have hrest := ih (hline.opened h0) (hline.opened h1)
      (fun p hp => hok p (List.mem_cons_of_mem _ hp))
    have hboth := hline.trans hrest
    rwa [Nat.add_add_add_comm] at hboth

/-- A run has only the lines it was given. -/
theorem mem_of_mem_trailOf {is : List Input} : ∀ {s : Session w} {p : Input × Session w},
    p ∈ trailOf s is → p.1 ∈ is := by
  induction is with
  | nil =>
    intro s p hp
    cases hp
  | cons i is ih =>
    intro s p hp
    rw [trailOf] at hp
    split at hp
    · rcases List.mem_cons.mp hp with rfl | hp
      · exact List.mem_cons_self
      · exact List.mem_cons_of_mem _ (ih hp)
    · cases hp

/-- An example with every kind of descriptor: `ls` leaves its two saved streams; the second line two
for each of its segments, the pipe of its last stage, and the file of the redirection. -/
theorem descriptors_counted_ls :
    Gains 9 rootSession.shell.fds
      (final rootSession (runOf ["ls", "ls | ls & ls > f"])).shell.fds := by
  have hcount : leftByRun (runOf ["ls", "ls | ls & ls > f"]) +
      openedByRun rootSession (runOf ["ls", "ls | ls & ls > f"]) = 9 := by decide +kernel
  rw [← hcount]
  refine descriptors_counted (run_trailOf _ _) (by decide) (by decide) ?_
  intro p hp
  obtain ⟨line, _, hline⟩ := List.mem_map.mp (mem_of_mem_trailOf hp)
  rw [← hline]
  exact ⟨fun _ => rfl, fun _ => rfl, fun _ _ => ⟨rfl, rfl, rfl⟩⟩

end Osexp.Seush
