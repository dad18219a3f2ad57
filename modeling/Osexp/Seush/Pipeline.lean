/-
# The stages of a pipeline and the descriptor table around one of them

`handle_pipe` cuts one stage off its text, runs it, and calls itself on what is left after
cleaning it.  Two things are fixed by this before anything is said of a whole pipeline.

* The text alone decides which stages there are and how the recursion ends (`stages`): in the
  branch of the last stage, or, when nothing but blanks and `|` is left, in the early return.
* Beside the child of one stage the shell closes and opens six descriptors, and all of it comes
  to one change: descriptor 0 is the read end of the new pipe, or closed when the `dup` failed
  (`piped_fds`).  This rests on `dup` and `pipe` taking the lowest free descriptors.

The recursion is on a text that gets shorter, and every result on a pipeline goes along it
(`pipeline_induction`): no more stages, the last stage, or a stage with more behind it.  The
equations for the three cases are stated once, for the stages as for `handle_pipe` itself, and
nobody unfolds the function after that.
-/
import Osexp.Seush.Rules

namespace Osexp.Seush

variable {w : World}

/-! ## 1. The stages -/

/-- The stages that the recursion on a text runs, and whether it ends with a last stage. -/
def stages (line : CString) : List CString × Bool :=
  match _h : strtok ['|'] line with
  | none => ([], false)
  | some (token, rest) =>
    if rest = [] then ([clean token], true)
    else (clean token :: (stages (clean rest)).1, (stages (clean rest)).2)
termination_by line.length
decreasing_by
  all_goals
    have h1 := strtok_rest_lt _h
    have h2 := length_clean_le rest
    omega

section Stages

variable {line token rest : CString}

theorem stages_null (h : strtok ['|'] line = none) : stages line = ([], false) := by
  rw [stages]
  split
  · rfl
  · rename_i h'
    rw [h] at h'
    cases h'

theorem stages_single (h : strtok ['|'] line = some (token, [])) :
    stages line = ([clean token], true) := by
  rw [stages]
  split
  · rename_i h'
    rw [h] at h'
    cases h'
  · rename_i h'
    rw [h] at h'
    cases h'
    rfl

theorem stages_piped (h : strtok ['|'] line = some (token, rest)) (hr : rest ≠ []) :
    stages line = (clean token :: (stages (clean rest)).1, (stages (clean rest)).2) := by
  rw [stages]
  split
  · rename_i h'
    rw [h] at h'
    cases h'
  · rename_i h'
    rw [h] at h'
    cases h'
    rw [if_neg hr]

end Stages

/-- A recursion that ends with a last stage runs one. -/
theorem length_stages_pos (line : CString) (h : (stages line).2 = true) :
    0 < (stages line).1.length := by
  cases hs : strtok ['|'] line with
  | none =>
    rw [stages_null hs] at h
    cases h
  | some tr =>
    obtain ⟨token, rest⟩ := tr
    rcases eq_or_ne rest [] with rfl | hr
    · rw [stages_single hs]
      exact Nat.one_pos
    · rw [stages_piped hs hr]
      exact Nat.succ_pos _

/-- The text that the recursion gets from a segment with a `|` in it: what is left after the
first stage. -/
def pipedRest (command : CString) : Option CString :=
  match strtok ['|'] command with
  | none => none
  | some (_, rest) => if rest = [] then none else some (clean rest)

/-! ## 2. A new pipe -/

/-- A new pipe leaves open descriptors as they were. -/
theorem pipe_get {ok : Bool} {s t : Shell w} (h : s.pipe ok = some t) {k : Nat} {f : OpenFile}
    (hk : s.fds.get k = some f) : t.fds.get k = some f := by
  obtain ⟨_, _, _, _, _, _, _, hfds⟩ := Shell.pipe_eq_some h
  rw [hfds]
  exact FdTable.get_alloc_of_get (FdTable.get_alloc_of_get hk)

/-- No descriptor refers to an older file than before a new pipe. -/
theorem pipe_get_iff {ok : Bool} {s t : Shell w} (h : s.pipe ok = some t) {f : OpenFile}
    (hf : f.MadeBefore s.fresh) (k : Nat) : t.fds.get k = some f ↔ s.fds.get k = some f := by
  obtain ⟨_, _, _, _, _, _, _, hfds⟩ := Shell.pipe_eq_some h
  have hread : OpenFile.pipeRead s.fresh ≠ f := by
    rintro rfl
    exact Nat.lt_irrefl _ hf
  have hwrite : OpenFile.pipeWrite s.fresh ≠ f := by
    rintro rfl
    exact Nat.lt_irrefl _ hf
  rw [hfds, FdTable.get_alloc_eq_iff hwrite, FdTable.get_alloc_eq_iff hread]

/-- Where the two ends of a new pipe are: on two descriptors that were free. -/
structure PipeEnds (s t : Shell w) : Prop where
  read : t.fds.get t.fd.1 = some (.pipeRead s.fresh)
  write : t.fds.get t.fd.2 = some (.pipeWrite s.fresh)
  ne : t.fd.1 ≠ t.fd.2
  readFree : s.fds.get t.fd.1 = none
  writeFree : s.fds.get t.fd.2 = none
  other : ∀ k, k ≠ t.fd.1 → k ≠ t.fd.2 → t.fds.get k = s.fds.get k

theorem pipe_ends {ok : Bool} {s t : Shell w} (h : s.pipe ok = some t) : PipeEnds s t := by
  obtain ⟨_, _, _, _, _, hread, hwrite, hfds⟩ := Shell.pipe_eq_some h
  have hr : (s.fds.alloc (.pipeRead s.fresh)).get t.fd.1 = some (.pipeRead s.fresh) := by
    rw [hread]
    exact FdTable.get_alloc_lowest _ _
  have hne : t.fd.1 ≠ t.fd.2 := by
    rw [hwrite]
    exact FdTable.ne_lowest_of_get hr
  have hfree : (s.fds.alloc (.pipeRead s.fresh)).get t.fd.2 = none := by
    rw [hwrite]
    exact FdTable.get_lowest _
  refine ⟨?_, ?_, hne, ?_, ?_, ?_⟩
  · rw [hfds]
    exact FdTable.get_alloc_of_get hr
  · rw [hfds, hwrite]
    exact FdTable.get_alloc_lowest _ _
  · rw [hread]
    exact FdTable.get_lowest _
  · rw [FdTable.get_alloc, if_neg (fun he => hne (hread.trans he.symm))] at hfree
    exact hfree
  · intro k h1 h2
    rw [hfds, FdTable.get_alloc, if_neg (fun he => h2 (he.trans hwrite.symm)),
      FdTable.get_alloc, if_neg (fun he => h1 (he.trans hread.symm))]

/-! ## 3. The shell beside one stage -/

/-- **What the shell has done to its descriptors when a piped stage is over**: the new pipe is
gone except for its read end on descriptor 0, and every other descriptor is as it was. -/
theorem piped_fds {o : StageOutcome} {s t : Shell w} (h : s.pipe o.pipe = some t)
    (e : Event w) :
    (∀ k, k ≠ STDIN_FILENO →
        (pipedParent o (t.log e)).fds.get k = s.fds.get k) ∧
      (pipedParent o (t.log e)).fds.get STDIN_FILENO =
        (if o.parentDup = true ∧ s.fds.get STDIN_FILENO ≠ none then
          some (.pipeRead s.fresh) else none) ∧
      (pipedParent o (t.log e)).saveIn = s.saveIn ∧
      (pipedParent o (t.log e)).fresh = s.fresh + 1 := by
  obtain ⟨_, _, hfresh, hsave, _⟩ := Shell.pipe_eq_some h
  have hends := pipe_ends h
  -- the shell after `close(fd[1]); close(STDIN_FILENO)`
  set c : Shell w := ((t.log e).close (t.log e).fd.2).close STDIN_FILENO with hc
  have hc0 : c.fds.get STDIN_FILENO = none := FdTable.get_close_same _ _
  have hcfd : c.fd = t.fd := rfl
  have hcget : ∀ k, k ≠ STDIN_FILENO → k ≠ t.fd.2 → c.fds.get k = t.fds.get k := by
    intro k hk0 hk2
    show ((t.fds.close t.fd.2).close STDIN_FILENO).get k = _
    rw [FdTable.get_close_ne _ hk0, FdTable.get_close_ne _ hk2]
  have hcwrite : c.fds.get t.fd.2 = none := by
    show ((t.fds.close t.fd.2).close STDIN_FILENO).get t.fd.2 = none
    rw [FdTable.get_close]
    split
    · rfl
    · exact FdTable.get_close_same _ _
  obtain ⟨_, hdfresh, hdsave, hdfd, _⟩ := Shell.dup_frame o.parentDup c.fd.1 c
  have hfin : ∀ k, (pipedParent o (t.log e)).fds.get k =
      if k = t.fd.1 then none
      else if o.parentDup = true ∧ k = STDIN_FILENO then c.fds.get t.fd.1 else c.fds.get k := by
    intro k
    show ((c.dup o.parentDup c.fd.1).2.fds.close (c.dup o.parentDup c.fd.1).2.fd.1).get k = _
    rw [hdfd, hcfd, FdTable.get_close, Shell.dup_get, FdTable.lowest_eq_zero hc0]
    rfl
  refine ⟨?_, ?_, hdsave.trans hsave, hdfresh.trans hfresh⟩
  · intro k hk
    rw [hfin, if_neg (fun he : o.parentDup = true ∧ k = STDIN_FILENO => hk he.2)]
    split
    · rename_i hk1
      rw [hk1]
      exact hends.readFree.symm
    · rename_i hk1
      by_cases hk2 : k = t.fd.2
      · rw [hk2, hcwrite]
        exact hends.writeFree.symm
      · rw [hcget k hk hk2]
        exact hends.other k hk1 hk2
  · rw [hfin, hc0]
    by_cases h1 : STDIN_FILENO = t.fd.1
    · have hclosed : s.fds.get STDIN_FILENO = none := by
        rw [h1]
        exact hends.readFree
      rw [if_pos h1, if_neg (fun he => he.2 hclosed)]
    · have hopen : s.fds.get STDIN_FILENO ≠ none := by
        intro hclosed
        obtain ⟨_, _, _, _, _, hread, _⟩ := Shell.pipe_eq_some h
        exact h1 (hread.trans (FdTable.lowest_eq_zero hclosed)).symm
      rw [if_neg h1, hcget t.fd.1 (Ne.symm h1) hends.ne, hends.read]
      simp [hopen]

/-- What a `dup2` onto descriptor 0 from the saved one would make of it. -/
def savedIn (s : Shell w) : Option OpenFile := s.saveIn.bind s.fds.get

/-- The shell beside the last stage: descriptor 0 is taken from the saved one if the `dup2` can
be made. -/
theorem lastParent_get (o : StageOutcome) (s : Shell w) (k : Nat) :
    (lastParent o s).fds.get k =
      if o.restore = true ∧ savedIn s ≠ none ∧ k = STDIN_FILENO then savedIn s
      else s.fds.get k := by
  unfold lastParent
  dsimp only
  cases hd : (s.log (.waitpid s.fds)).dup2 o.restore s.saveIn STDIN_FILENO with
  | none =>
    have hfail : ¬ (o.restore = true ∧ savedIn s ≠ none ∧ k = STDIN_FILENO) := by
      rintro ⟨hok, hsaved, _⟩
      rcases Shell.dup2_eq_none_iff.mp hd with hno | hno
      · rw [hok] at hno
        cases hno
      · exact hsaved hno
    rw [Shell.log_saveIn, hd, if_neg hfail]
    rfl
  | some t =>
    obtain ⟨hok, j, f, hj, hf, hfds, _⟩ := Shell.dup2_eq_some hd
    have hsaved : savedIn s = some f := by
      rw [savedIn, hj]
      exact hf
    rw [Shell.log_saveIn, hd, Option.getD_some, hfds, FdTable.get_set, hsaved]
    simp [hok]

theorem lastParent_frame (o : StageOutcome) (s : Shell w) :
    (lastParent o s).fresh = s.fresh ∧ (lastParent o s).saveIn = s.saveIn := by
  unfold lastParent
  dsimp only
  cases hd : (s.log (.waitpid s.fds)).dup2 o.restore s.saveIn STDIN_FILENO with
  | none =>
    rw [Shell.log_saveIn, hd]
    exact ⟨rfl, rfl⟩
  | some t =>
    obtain ⟨_, _, hfresh, hsave⟩ := dup2_frame hd
    rw [Shell.log_saveIn, hd]
    exact ⟨hfresh, hsave⟩

/-! ## 4. Saving the streams, and what a line never closes -/

/-- Open descriptors stay as they are while the streams are saved. -/
theorem saveStdin_keeps (ok : Bool) {s : Shell w} {k : Nat} {f : OpenFile}
    (hk : s.fds.get k = some f) : (saveStdin ok s).fds.get k = some f := by
  rw [saveStdin_get, if_neg (fun h => FdTable.ne_lowest_of_get hk h.2), hk]

theorem saveStreams_keeps (o : SegOutcome) {s : Shell w} {k : Nat} {f : OpenFile}
    (hk : s.fds.get k = some f) : (saveStreams o s).fds.get k = some f := by
  have hin := saveStdin_keeps o.dupIn hk
  rw [saveStreams_get, if_neg (fun h => FdTable.ne_lowest_of_get hin h.2), hin]

/-- The saved descriptor is not 0. -/
theorem saveStreams_saveIn_ne (o : SegOutcome) (s : Shell w) :
    (saveStreams o s).saveIn ≠ some STDIN_FILENO := by
  rw [saveStreams_saveIn]
  cases h0 : s.fds.get STDIN_FILENO with
  | none =>
    rw [Shell.dup_of_closed h0]
    exact fun h => nomatch h
  | some f =>
    cases o.dupIn with
    | false =>
      rw [Shell.dup_false]
      exact fun h => nomatch h
    | true =>
      rw [(Shell.dup_of_get h0).1]
      exact fun h => FdTable.ne_lowest_of_get h0 (Option.some.inj h).symm

/-- What is saved is what descriptor 0 refers to, if the `dup` succeeds. -/
theorem savedIn_saveStreams (o : SegOutcome) (s : Shell w) :
    savedIn (saveStreams o s) = if o.dupIn = true then s.fds.get STDIN_FILENO else none := by
  rw [savedIn, saveStreams_saveIn]
  cases h0 : s.fds.get STDIN_FILENO with
  | none =>
    rw [Shell.dup_of_closed h0, Option.bind_none, ite_self]
  | some f =>
    cases hok : o.dupIn with
    | false =>
      rw [Shell.dup_false]
      rfl
    | true =>
      have hin : (saveStdin o.dupIn s).fds.get s.fds.lowest = some f := by
        rw [saveStdin_get, if_pos ⟨hok, rfl⟩, h0]
      rw [(Shell.dup_of_get h0).1, Option.bind_some, saveStreams_get,
        if_neg (fun h => FdTable.ne_lowest_of_get hin h.2), hin]
      rfl

/-- A closed descriptor 0 stays closed, or is taken by the copy of descriptor 1. -/
theorem saveStreams_closed (o : SegOutcome) {s : Shell w}
    (h0 : s.fds.get STDIN_FILENO = none) :
    (saveStreams o s).fds.get STDIN_FILENO = none ∨
      (saveStreams o s).fds.get STDIN_FILENO = s.fds.get STDOUT_FILENO := by
  have hin : (saveStdin o.dupIn s).fds = s.fds := by
    rw [saveStdin, Shell.dup_of_closed h0]
  rw [saveStreams_get, hin, FdTable.lowest_eq_zero h0, h0]
  cases o.dupOut
  · exact Or.inl rfl
  · exact Or.inr rfl

/-- An open file leaves open descriptors as they were. -/
theorem openFile_get {s : Shell w} (name : CString) (write : Bool) {k : Nat} {f : OpenFile}
    (hk : s.fds.get k = some f) : (s.openFile name write).2.fds.get k = some f := by
  unfold Shell.openFile
  dsimp only
  split
  · exact FdTable.get_alloc_of_get hk
  · exact hk

/-- **The shell never closes a descriptor other than 0 that was open before the line**, and never
makes it refer to anything else.  So an entry of `process[]` still has its files when its child is
forked at the end of the line. -/
theorem keeps_open {k : Nat} (hk : k ≠ STDIN_FILENO) (f : OpenFile) :
    TableRule (fun _ => True) (fun s : Shell w => s.fds.get k = some f) where
  same hs hfds _ _ := by rw [hfds]; exact hs
  save o hs := saveStreams_keeps o hs
  pipe hs h := pipe_get h hs
  piped c _ hs h := by rw [(piped_fds h (.fork c)).1 k hk]; exact hs
  last c _ hs h := by
    rw [lastParent_get, if_neg (fun he => hk he.2.2)]
    exact pipe_get h hs
  openFile name write hs := openFile_get name write hs

/-- When the shell's own `dup` calls succeed, descriptor 0 stays open. -/
theorem stdin_open :
    TableRule (fun o => o.parentDup = true)
      (fun s : Shell w => s.fds.get STDIN_FILENO ≠ none) where
  same hs hfds _ _ := by rw [hfds]; exact hs
  save o hs := by
    obtain ⟨f, hf⟩ := Option.ne_none_iff_exists'.mp hs
    rw [saveStreams_keeps o hf]
    exact fun h => nomatch h
  pipe hs h := by
    obtain ⟨f, hf⟩ := Option.ne_none_iff_exists'.mp hs
    rw [pipe_get h hf]
    exact fun h => nomatch h
  piped c ho hs h := by
    rw [(piped_fds h (.fork c)).2.1, if_pos ⟨ho, hs⟩]
    exact fun h => nomatch h
  last c _ hs h := by
    obtain ⟨f, hf⟩ := Option.ne_none_iff_exists'.mp hs
    rw [lastParent_get]
    split
    · rename_i hsaved
      exact hsaved.2.1
    · rw [Shell.log_fds, pipe_get h hf]
      exact fun h => nomatch h
  openFile name write hs := by
    obtain ⟨f, hf⟩ := Option.ne_none_iff_exists'.mp hs
    rw [openFile_get name write hf]
    exact fun h => nomatch h

/-- The numbers given to open files only grow. -/
theorem fresh_grows (f : OpenFile) :
    TableRule (fun _ => True) (fun s : Shell w => f.MadeBefore s.fresh) where
  same hs _ hfresh _ := by rw [hfresh]; exact hs
  save o hs := by rw [(saveStreams_frame o _).2.2]; exact hs
  pipe hs h := by
    rw [(Shell.pipe_eq_some h).2.2.1]
    exact OpenFile.MadeBefore.mono (Nat.le_succ _) f hs
  piped c _ hs h := by
    rw [(piped_fds h (.fork c)).2.2.2]
    exact OpenFile.MadeBefore.mono (Nat.le_succ _) f hs
  last c _ hs h := by
    rw [(lastParent_frame _ _).1, Shell.log_fresh, (Shell.pipe_eq_some h).2.2.1]
    exact OpenFile.MadeBefore.mono (Nat.le_succ _) f hs
  openFile name write hs := by
    unfold Shell.openFile
    dsimp only
    split
    · exact OpenFile.MadeBefore.mono (Nat.le_succ _) f hs
    · exact hs

end Osexp.Seush
