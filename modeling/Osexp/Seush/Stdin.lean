/-
# Descriptor 0 after a line

`handle_pipe` replaces the shell's standard input at every piped stage and takes the saved one
back in one place only: beside the child of the last stage.  The recursion leaves through other
returns when nothing but blanks and `|` is left of the text, when a later `pipe` or `fork` fails,
when `save_in` is -1, and when that one `dup2` fails.  From the first child on, each of them
leaves the shell reading its next commands from a pipe, or from nothing.

* `TailOk`, `SegmentOk`, `LineOk`: that the recursion ends in the good place, stage by stage.
* `tail_stdin_iff`: from a state in which descriptor 0 is not the original file, the recursion
  brings it back exactly when it is saved and `TailOk` holds.
* `stdin_restored`: a line that satisfies `LineOk` restores descriptor 0, and a line that restores
  it satisfies `LineOk`, if a failing `dup` cannot bring the file back by accident.
-/
import Osexp.Seush.Loop
import Osexp.Seush.Pipeline

namespace Osexp.Seush

variable {w : World} {env : Environment} {F : OpenFile}

/-! ## 1. The condition -/

/-- From stage `n` on the recursion ends with a last stage, every stage gets its pipe and its
child, and the last one puts descriptor 0 back. -/
structure TailOk (o : Nat → StageOutcome) (n : Nat) (line : CString) : Prop where
  ends : (stages line).2 = true
  starts : ∀ i < (stages line).1.length, (o (n + i)).pipe = true ∧ (o (n + i)).fork = true
  restores : (o (n + ((stages line).1.length - 1))).restore = true

/-- If the segment has a `|` with text after it and its first child is forked, descriptor 0 was
saved before, and the rest of the pipeline comes to its end. -/
def SegmentOk (o : SegOutcome) (command : CString) : Prop :=
  ∀ rest, pipedRest command = some rest → (o.stage 0).pipe = true → (o.stage 0).fork = true →
    o.dupIn = true ∧ TailOk o.stage 1 rest

/-- Every segment that is not blank satisfies the condition; segments are counted from `i`. -/
def SegmentsOk (o : LineOutcome) (i : Nat) (commands : List CString) : Prop :=
  ∀ j command, commands[j]? = some command → clean command ≠ [] → SegmentOk (o.seg (i + j)) command

/-- The condition on a line. -/
def LineOk (o : LineOutcome) (line : CString) : Prop := SegmentsOk o 0 (singleCommands line)

theorem tailOk_null {o : Nat → StageOutcome} {n : Nat} {line : CString}
    (h : strtok ['|'] line = none) : ¬ TailOk o n line := by
  intro hok
  have hends := hok.ends
  rw [stages_null h] at hends
  cases hends

theorem tailOk_single {o : Nat → StageOutcome} {n : Nat} {line token : CString}
    (h : strtok ['|'] line = some (token, [])) :
    TailOk o n line ↔ (o n).pipe = true ∧ (o n).fork = true ∧ (o n).restore = true := by
  constructor
  · rintro ⟨_, hstarts, hrestores⟩
    rw [stages_single h] at hstarts hrestores
    obtain ⟨hpipe, hfork⟩ := hstarts 0 (by simp)
    exact ⟨hpipe, hfork, hrestores⟩
  · rintro ⟨hpipe, hfork, hrestore⟩
    refine ⟨by rw [stages_single h], ?_, ?_⟩
    · intro i hi
      rw [stages_single h] at hi
      have hi0 : i = 0 := Nat.lt_one_iff.mp hi
      subst hi0
      exact ⟨hpipe, hfork⟩
    · rw [stages_single h]
      exact hrestore

theorem tailOk_piped {o : Nat → StageOutcome} {n : Nat} {line token rest : CString}
    (h : strtok ['|'] line = some (token, rest)) (hr : rest ≠ []) :
    TailOk o n line ↔
      (o n).pipe = true ∧ (o n).fork = true ∧ TailOk o (n + 1) (clean rest) := by
  constructor
  · rintro ⟨hends, hstarts, hrestores⟩
    rw [stages_piped h hr] at hends hstarts hrestores
    obtain ⟨hpipe, hfork⟩ := hstarts 0 (Nat.succ_pos _)
    have hpos := length_stages_pos _ hends
    refine ⟨hpipe, hfork, hends, ?_, ?_⟩
    · intro i hi
      have hsucc := hstarts (i + 1) (Nat.succ_lt_succ hi)
      rwa [show n + (i + 1) = n + 1 + i by omega] at hsucc
    · rwa [List.length_cons, Nat.add_sub_cancel,
        show n + (stages (clean rest)).1.length = n + 1 + ((stages (clean rest)).1.length - 1) by
          omega] at hrestores
  · rintro ⟨hpipe, hfork, hends, hstarts, hrestores⟩
    have hpos := length_stages_pos _ hends
    refine ⟨by rw [stages_piped h hr]; exact hends, ?_, ?_⟩
    · intro i hi
      rw [stages_piped h hr, List.length_cons] at hi
      cases i with
      | zero => exact ⟨hpipe, hfork⟩
      | succ i =>
        have hsucc := hstarts i (Nat.lt_of_succ_lt_succ hi)
        rwa [show n + 1 + i = n + (i + 1) by omega] at hsucc
    · rw [stages_piped h hr, List.length_cons, Nat.add_sub_cancel]
      rwa [show n + (stages (clean rest)).1.length =
        n + 1 + ((stages (clean rest)).1.length - 1) by omega]

/-! ## 2. The recursion -/

/-- A new pipe does not change what is saved, as far as older files go. -/
theorem savedIn_pipe_iff {ok : Bool} {s t : Shell w} (h : s.pipe ok = some t)
    (hF : F.MadeBefore s.fresh) : savedIn t = some F ↔ savedIn s = some F := by
  rw [savedIn, savedIn, (Shell.pipe_eq_some h).2.2.2.1]
  cases s.saveIn with
  | none => exact Iff.rfl
  | some k => exact pipe_get_iff h hF k

/-- The last stage brings the file back exactly when it is saved and all its calls succeed. -/
theorem lastStage_stdin_iff {o : StageOutcome} {firstCommand : CString} {s : Shell w}
    (hF : F.MadeBefore s.fresh) (h0 : s.fds.get STDIN_FILENO ≠ some F) :
    (lastStage o firstCommand env s).fds.get STDIN_FILENO = some F ↔
      savedIn s = some F ∧ o.pipe = true ∧ o.fork = true ∧ o.restore = true := by
  unfold lastStage
  split
  · rename_i hpipe
    have hno := Shell.pipe_eq_none_iff.mp hpipe
    exact ⟨fun h => absurd h h0, fun h => by rw [hno] at h; cases h.2.1⟩
  · rename_i t hpipe
    have ht0 : t.fds.get STDIN_FILENO ≠ some F := fun h => h0 ((pipe_get_iff hpipe hF _).mp h)
    have hok := (Shell.pipe_eq_some hpipe).1
    split
    · rename_i hfork
      have hsaved := savedIn_pipe_iff hpipe hF
      have hlog : savedIn (t.log (.fork (handleRedirectionExec o firstCommand env t))) =
          savedIn t := rfl
      rw [lastParent_get, Shell.log_fds, hlog]
      constructor
      · intro h
        split at h
        · rename_i hr
          exact ⟨hsaved.mp h, hok, hfork, hr.1⟩
        · exact absurd h ht0
      · rintro ⟨hs, _, _, hr⟩
        have ht := hsaved.mpr hs
        rw [if_pos ⟨hr, by rw [ht]; exact Option.some_ne_none F, rfl⟩]
        exact ht
    · rename_i hfork
      exact ⟨fun h => absurd h ht0, fun h => absurd h.2.2.1 hfork⟩

/-- What a piped stage leaves on descriptor 0 is not an older file. -/
theorem piped_stdin_ne {o : StageOutcome} {s t : Shell w} (h : s.pipe o.pipe = some t)
    (e : Event w) (hF : F.MadeBefore s.fresh) :
    (pipedParent o (t.log e)).fds.get STDIN_FILENO ≠ some F := by
  rw [(piped_fds h e).2.1]
  split
  · intro he
    have hpipe : OpenFile.pipeRead s.fresh = F := Option.some.inj he
    rw [← hpipe] at hF
    exact Nat.lt_irrefl _ hF
  · exact fun he => nomatch he

/-- A piped stage does not touch what is saved. -/
theorem piped_savedIn {o : StageOutcome} {s t : Shell w} (h : s.pipe o.pipe = some t)
    (e : Event w) (hsave : s.saveIn ≠ some STDIN_FILENO) :
    savedIn (pipedParent o (t.log e)) = savedIn s := by
  obtain ⟨hget, _, hs, _⟩ := piped_fds h e
  rw [savedIn, savedIn, hs]
  cases hk : s.saveIn with
  | none => rfl
  | some k => exact hget k (fun hk0 => hsave (hk.trans (congrArg some hk0)))

/-- **The recursion brings descriptor 0 back exactly when it comes to its end.**  By induction
along the pipeline: a stage leaves descriptor 0 on its pipe, and what is saved untouched. -/
theorem tail_stdin_iff {o : Nat → StageOutcome} (line : CString) :
    ∀ (n : Nat) (s : Shell w), F.MadeBefore s.fresh → s.saveIn ≠ some STDIN_FILENO →
      s.fds.get STDIN_FILENO ≠ some F →
      ((handlePipe env o n line false s).2.fds.get STDIN_FILENO = some F ↔
        savedIn s = some F ∧ TailOk o n line) := by
  induction line using pipeline_induction with
  | null line h =>
    intro n s _ _ h0
    rw [handlePipe_null h]
    exact ⟨fun he => absurd he h0, fun he => absurd he.2 (tailOk_null h)⟩
  | single line token h =>
    intro n s hF _ h0
    rw [handlePipe_single h, tailOk_single h]
    exact lastStage_stdin_iff hF h0
  | piped line token rest h hr ih =>
    intro n s hF hsave h0
    rw [handlePipe_piped h hr, tailOk_piped h hr]
    split
    · rename_i hpipe
      have hno := Shell.pipe_eq_none_iff.mp hpipe
      exact ⟨fun he => absurd he h0, fun he => by rw [hno] at he; cases he.2.1⟩
    · rename_i t hpipe
      have hok := (Shell.pipe_eq_some hpipe).1
      split
      · rename_i hfork
        obtain ⟨_, _, hs, hfresh⟩ := piped_fds hpipe (.fork (pipedChild (o n) (clean token) env t))
        rw [ih (n + 1) _ (hfresh ▸ OpenFile.MadeBefore.mono (Nat.le_succ _) F hF)
          (hs ▸ hsave) (piped_stdin_ne hpipe _ hF), piped_savedIn hpipe _ hsave]
        exact ⟨fun he => ⟨he.1, hok, hfork, he.2⟩, fun he => ⟨he.1, he.2.2.2⟩⟩
      · rename_i hfork
        exact ⟨fun he => absurd ((pipe_get_iff hpipe hF _).mp he) h0,
          fun he => absurd he.2.2.1 hfork⟩

/-! ## 3. One segment -/

theorem pipedRest_null {line : CString} (h : strtok ['|'] line = none) :
    pipedRest line = none := by
  rw [pipedRest, h]

theorem pipedRest_single {line token : CString} (h : strtok ['|'] line = some (token, [])) :
    pipedRest line = none := by
  rw [pipedRest, h]
  rfl

theorem pipedRest_piped {line token rest : CString} (h : strtok ['|'] line = some (token, rest))
    (hr : rest ≠ []) : pipedRest line = some (clean rest) := by
  rw [pipedRest, h]
  exact if_neg hr

/-- A whole pipeline: descriptor 0 refers to the file afterwards when it did before and no child
was forked, or when the recursion brought it back. -/
theorem leader_stdin_iff {o : Nat → StageOutcome} (command : CString) (s : Shell w)
    (hF : F.MadeBefore s.fresh) (hsave : s.saveIn ≠ some STDIN_FILENO) :
    (handlePipe env o 0 command true s).2.fds.get STDIN_FILENO = some F ↔
      if (pipedRest command).isSome ∧ (o 0).pipe = true ∧ (o 0).fork = true then
        savedIn s = some F ∧ ∀ rest, pipedRest command = some rest → TailOk o 1 rest
      else s.fds.get STDIN_FILENO = some F := by
  cases h : strtok ['|'] command with
  | none =>
    rw [handlePipe_null h, pipedRest_null h]
    exact Iff.rfl
  | some tr =>
    obtain ⟨token, rest⟩ := tr
    rcases eq_or_ne rest [] with rfl | hr
    · rw [handlePipe_single h, pipedRest_single h]
      exact Iff.rfl
    · rw [handlePipe_piped h hr, pipedRest_piped h hr]
      split
      · rename_i hpipe
        have hno := Shell.pipe_eq_none_iff.mp hpipe
        rw [if_neg (by simp [hno])]
      · rename_i t hpipe
        have hok := (Shell.pipe_eq_some hpipe).1
        split
        · rename_i hfork
          obtain ⟨_, _, hs, hfresh⟩ :=
            piped_fds hpipe (.fork (pipedChild (o 0) (clean token) env t))
          rw [if_pos ⟨rfl, hok, hfork⟩,
            tail_stdin_iff _ _ _ (hfresh ▸ OpenFile.MadeBefore.mono (Nat.le_succ _) F hF)
              (hs ▸ hsave) (piped_stdin_ne hpipe _ hF), piped_savedIn hpipe _ hsave]
          simp
        · rename_i hfork
          rw [if_neg (fun he => hfork he.2.2)]
          exact pipe_get_iff hpipe hF _

/-- Redirections open new files; they do not change where an older file is. -/
theorem openFile_get_iff {s : Shell w} (hF : F.MadeBefore s.fresh) (name : CString)
    (write : Bool) (k : Nat) :
    (s.openFile name write).2.fds.get k = some F ↔ s.fds.get k = some F := by
  unfold Shell.openFile
  dsimp only
  split
  · refine FdTable.get_alloc_eq_iff ?_ k
    rintro rfl
    exact Nat.lt_irrefl _ hF
  · exact Iff.rfl

theorem openRedirections_get_iff {s : Shell w} (hF : F.MadeBefore s.fresh)
    (type : RedirectionType) (b : Scratch) (p : Process) (k : Nat) :
    (openRedirections type b p s).2.fds.get k = some F ↔ s.fds.get k = some F := by
  unfold openRedirections
  dsimp only
  split <;> split
  · rw [openFile_get_iff ((fresh_grows F).openFile _ _ hF), openFile_get_iff hF]
  · exact openFile_get_iff hF _ _ k
  · exact openFile_get_iff hF _ _ k
  · exact Iff.rfl

theorem runSegment_stdin_iff {o : SegOutcome} {command : CString}
    {process process' : List (Process × w.Dir)} {s t : Shell w} (hF : F.MadeBefore s.fresh)
    (h : runSegment env o command process s = .ok (process', t)) :
    t.fds.get STDIN_FILENO = some F ↔
      (handlePipe env o.stage 0 command true (saveStreams o s)).2.fds.get STDIN_FILENO =
        some F := by
  have hpipe : F.MadeBefore (handlePipe env o.stage 0 command true (saveStreams o s)).2.fresh :=
    ((fresh_grows F).lineRule env).handlePipe (fun _ => trivial) _ _ _ _
      ((fresh_grows F).save o hF)
  unfold runSegment at h
  split at h
  · rename_i u hu
    cases h
    rw [hu]
  · rename_i res u hu
    rw [hu] at hpipe ⊢
    obtain ⟨⟨q, v⟩, hv, h⟩ := map_eq_ok h
    cases h
    obtain ⟨type, c, _, rfl⟩ := handleRedirection_shell hv
    exact openRedirections_get_iff hpipe type c _ _
  · cases h

/-- **A segment keeps descriptor 0 exactly when it satisfies its condition.** -/
theorem segment_restores_iff {o : SegOutcome} {command : CString}
    {process process' : List (Process × w.Dir)} {s t : Shell w}
    (h0 : s.fds.get STDIN_FILENO = some F)
    (h : runSegment env o command process s = .ok (process', t)) :
    t.fds.get STDIN_FILENO = some F ↔ SegmentOk o command := by
  have hF : F.MadeBefore s.fresh := s.numbered _ _ h0
  rw [runSegment_stdin_iff hF h, leader_stdin_iff command _ ((fresh_grows F).save o hF)
    (saveStreams_saveIn_ne o s), savedIn_saveStreams, saveStreams_keeps o h0, h0]
  unfold SegmentOk
  cases pipedRest command with
  | none => simp
  | some rest => cases (o.stage 0).pipe <;> cases (o.stage 0).fork <;> cases o.dupIn <;> simp

/-! ## 4. The line -/

/-- Descriptor 0 no longer refers to the file, and a copy of descriptor 1 is not one either. -/
def Lost (F : OpenFile) (s : Shell w) : Prop :=
  s.fds.get STDIN_FILENO ≠ some F ∧
    (s.fds.get STDIN_FILENO = none → s.fds.get STDOUT_FILENO ≠ some F)

/-- A segment does not find the file again. -/
theorem segment_lost {o : SegOutcome} {command : CString}
    {process process' : List (Process × w.Dir)} {s t : Shell w} (hF : F.MadeBefore s.fresh)
    (hs : Lost F s) (h : runSegment env o command process s = .ok (process', t)) :
    t.fds.get STDIN_FILENO ≠ some F := by
  rw [Ne, runSegment_stdin_iff hF h, leader_stdin_iff command _ ((fresh_grows F).save o hF)
    (saveStreams_saveIn_ne o s), savedIn_saveStreams]
  split
  · rintro ⟨hsv, _⟩
    split at hsv
    · exact hs.1 hsv
    · cases hsv
  · cases h0 : s.fds.get STDIN_FILENO with
    | none =>
      rcases saveStreams_closed o h0 with hc | hc
      · rw [hc]
        exact fun he => nomatch he
      · rw [hc]
        exact hs.2 h0
    | some G =>
      rw [saveStreams_keeps o h0, ← h0]
      exact hs.1

/-- No `dup` that fails in the shell can bring the file back to descriptor 0 by accident: either
none fails, or the copy of descriptor 1 that would take the closed 0 is another file. -/
def NoAccident (F : OpenFile) (o : LineOutcome) (s : Shell w) : Prop :=
  (∀ i n, ((o.seg i).stage n).parentDup = true) ∨
    ∃ G, s.fds.get STDOUT_FILENO = some G ∧ G ≠ F

/-- What is left of `NoAccident` once the file is lost. -/
def StaysLost (F : OpenFile) (o : LineOutcome) (s : Shell w) : Prop :=
  s.fds.get STDIN_FILENO ≠ some F ∧ F.MadeBefore s.fresh ∧
    ((∀ i n, ((o.seg i).stage n).parentDup = true) ∧ s.fds.get STDIN_FILENO ≠ none ∨
      ∃ G, s.fds.get STDOUT_FILENO = some G ∧ G ≠ F)

/-- What `NoAccident` needs of the table is kept by a segment. -/
theorem segment_staysLost {o : LineOutcome} {i : Nat} {command : CString}
    {process process' : List (Process × w.Dir)} {s t : Shell w} (hF : F.MadeBefore s.fresh)
    (hacc : (∀ i n, ((o.seg i).stage n).parentDup = true) ∧ s.fds.get STDIN_FILENO ≠ none ∨
      ∃ G, s.fds.get STDOUT_FILENO = some G ∧ G ≠ F)
    (h : runSegment env (o.seg i) command process s = .ok (process', t)) :
    F.MadeBefore t.fresh ∧
      ((∀ i n, ((o.seg i).stage n).parentDup = true) ∧ t.fds.get STDIN_FILENO ≠ none ∨
        ∃ G, t.fds.get STDOUT_FILENO = some G ∧ G ≠ F) := by
  refine ⟨(((fresh_grows F).lineRule env).runSegment (fun _ => trivial) hF
    (fun _ _ => trivial) h).1, ?_⟩
  rcases hacc with ⟨hdup, h0⟩ | ⟨G, hG, hne⟩
  · exact Or.inl ⟨hdup, ((stdin_open.lineRule env).runSegment (hdup i) h0
      (fun _ _ => trivial) h).1⟩
  · exact Or.inr ⟨G, (((keeps_open (by decide) G).lineRule env).runSegment (fun _ => trivial) hG
      (fun _ _ => trivial) h).1, hne⟩

theorem segments_lost {o : LineOutcome} : ∀ {i : Nat} {commands : List CString}
    {process process' : List (Process × w.Dir)} {s t : Shell w}, StaysLost F o s →
      runSegments env o i commands process s = .ok (process', t) →
      t.fds.get STDIN_FILENO ≠ some F
  | _, [], _, _, _, _, hs, h => by
    cases h
    exact hs.1
  | i, command :: commands, process, _, s, _, hs, h => by
    rw [runSegments] at h
    split at h
    · exact segments_lost hs h
    · obtain ⟨⟨p₁, s₁⟩, h₁, h₂⟩ := bind_eq_ok h
      obtain ⟨h0, hF, hacc⟩ := hs
      have hlost : Lost F s := by
        refine ⟨h0, fun hnone => ?_⟩
        rcases hacc with ⟨_, hopen⟩ | ⟨G, hG, hne⟩
        · exact absurd hnone hopen
        · rw [hG]
          exact fun he => hne (Option.some.inj he)
      obtain ⟨hF₁, hacc₁⟩ := segment_staysLost hF hacc h₁
      exact segments_lost ⟨segment_lost hF hlost h₁, hF₁, hacc₁⟩ h₂

theorem segmentsOk_cons {o : LineOutcome} {i : Nat} {command : CString}
    {commands : List CString} :
    SegmentsOk o i (command :: commands) ↔
      (clean command ≠ [] → SegmentOk (o.seg i) command) ∧ SegmentsOk o (i + 1) commands := by
  constructor
  · intro h
    refine ⟨h 0 command rfl, ?_⟩
    intro j c hj hc
    have hsucc := h (j + 1) c hj hc
    rwa [show i + (j + 1) = i + 1 + j by omega] at hsucc
  · rintro ⟨h0, hs⟩ j c hj hc
    cases j with
    | zero =>
      cases hj
      exact h0 hc
    | succ j =>
      have hsucc := hs j c hj hc
      rwa [show i + 1 + j = i + (j + 1) by omega] at hsucc

/-- Segments that satisfy their conditions keep descriptor 0. -/
theorem segments_restore {o : LineOutcome} : ∀ {i : Nat} {commands : List CString}
    {process process' : List (Process × w.Dir)} {s t : Shell w},
      s.fds.get STDIN_FILENO = some F →
      runSegments env o i commands process s = .ok (process', t) → SegmentsOk o i commands →
      t.fds.get STDIN_FILENO = some F
  | _, [], _, _, _, _, h0, h, _ => by
    cases h
    exact h0
  | i, command :: commands, process, _, s, _, h0, h, hok => by
    obtain ⟨hok₀, hok₁⟩ := segmentsOk_cons.mp hok
    rw [runSegments] at h
    split at h
    · exact segments_restore h0 h hok₁
    · rename_i hne
      obtain ⟨⟨p₁, s₁⟩, h₁, h₂⟩ := bind_eq_ok h
      exact segments_restore ((segment_restores_iff h0 h₁).mpr (hok₀ hne)) h₂ hok₁

/-- Segments that keep descriptor 0 satisfy their conditions: the first that does not loses the
file for good. -/
theorem segmentsOk_of_restored {o : LineOutcome} : ∀ {i : Nat} {commands : List CString}
    {process process' : List (Process × w.Dir)} {s t : Shell w},
      s.fds.get STDIN_FILENO = some F → NoAccident F o s →
      runSegments env o i commands process s = .ok (process', t) →
      t.fds.get STDIN_FILENO = some F → SegmentsOk o i commands
  | _, [], _, _, _, _, _, _, _, _ => by
    intro j c hj
    simp at hj
  | i, command :: commands, process, _, s, t, h0, hacc, h, ht => by
    rw [segmentsOk_cons]
    rw [runSegments] at h
    split at h
    · rename_i hblank
      exact ⟨fun hne => absurd hblank hne, segmentsOk_of_restored h0 hacc h ht⟩
    · obtain ⟨⟨p₁, s₁⟩, h₁, h₂⟩ := bind_eq_ok h
      have hopen : s.fds.get STDIN_FILENO ≠ none := by
        rw [h0]
        exact Option.some_ne_none F
      obtain ⟨hF₁, hacc₁⟩ := segment_staysLost (s.numbered _ _ h0)
        (hacc.imp_left (fun hdup => ⟨hdup, hopen⟩)) h₁
      by_cases hfirst : s₁.fds.get STDIN_FILENO = some F
      · exact ⟨fun _ => (segment_restores_iff h0 h₁).mp hfirst,
          segmentsOk_of_restored hfirst (hacc₁.imp_left And.left) h₂ ht⟩
      · exact absurd ht (segments_lost ⟨hfirst, hF₁, hacc₁⟩ h₂)

/-- **Descriptor 0 after a line.** A line that satisfies `LineOk` leaves it on the open file it was
on; and unless a failing `dup` undoes the damage by accident, only such a line does.  The next line
is read from descriptor 0, so a line that does not give it back is the last one that the user can
type: the shell goes on with what is in a pipe. -/
theorem stdin_restored {o : LineOutcome} {line : CString} {s t : Shell w}
    (h0 : s.fds.get STDIN_FILENO = some F) (h : parseCommand o line env s = .ok t) :
    (LineOk o line → t.fds.get STDIN_FILENO = s.fds.get STDIN_FILENO) ∧
      (NoAccident F o s → t.fds.get STDIN_FILENO = s.fds.get STDIN_FILENO → LineOk o line) := by
  obtain ⟨process, u, hu, hfds⟩ := parseCommand_segments h
  rw [hfds, h0]
  exact ⟨fun hok => segments_restore h0 hu hok,
    fun hacc ht => segmentsOk_of_restored h0 hacc hu ht⟩

/-! ## 5. Runs -/

instance (o : Nat → StageOutcome) (n : Nat) (line : CString) : Decidable (TailOk o n line) :=
  decidable_of_iff
    ((stages line).2 = true ∧
      (∀ i < (stages line).1.length, (o (n + i)).pipe = true ∧ (o (n + i)).fork = true) ∧
      (o (n + ((stages line).1.length - 1))).restore = true)
    ⟨fun h => ⟨h.1, h.2.1, h.2.2⟩, fun h => ⟨h.ends, h.starts, h.restores⟩⟩

instance (o : SegOutcome) (command : CString) : Decidable (SegmentOk o command) :=
  decidable_of_iff
    (∀ rest ∈ pipedRest command, (o.stage 0).pipe = true → (o.stage 0).fork = true →
      o.dupIn = true ∧ TailOk o.stage 1 rest)
    Iff.rfl

instance decidableSegmentsOk (o : LineOutcome) : ∀ (i : Nat) (commands : List CString),
    Decidable (SegmentsOk o i commands)
  | _, [] => isTrue (by intro j c hj; simp at hj)
  | i, _ :: commands =>
    have := decidableSegmentsOk o (i + 1) commands
    decidable_of_iff _ segmentsOk_cons.symm

instance (o : LineOutcome) (line : CString) : Decidable (LineOk o line) :=
  inferInstanceAs (Decidable (SegmentsOk o 0 (singleCommands line)))

/-- `ls | ls & ls`: both sides of the theorem hold. -/
theorem stdin_restored_ls : ∃ t, parseCommand .ok "ls | ls & ls".toList rootSession.env
    rootSession.shell = .ok t ∧ t.fds.get STDIN_FILENO = some (.inherited 0) := by
  have hrun : (parseCommand .ok "ls | ls & ls".toList rootSession.env rootSession.shell).map
      (fun t => t.fds.get STDIN_FILENO) = .ok (some (.inherited 0)) := by
    decide +kernel
  obtain ⟨t, ht, _⟩ := map_eq_ok hrun
  have h0 : rootSession.shell.fds.get STDIN_FILENO = some (.inherited 0) := by decide +kernel
  exact ⟨t, ht, ((stdin_restored h0 ht).1 (by decide +kernel)).trans h0⟩

/-- **`ls||`: the shell goes on with its standard input on the pipe**, though every call
succeeded. -/
theorem stdin_left_on_pipe : ∃ t, parseCommand .ok "ls||".toList rootSession.env
    rootSession.shell = .ok t ∧ rootSession.shell.fds.get STDIN_FILENO = some (.inherited 0) ∧
      t.fds.get STDIN_FILENO = some (.pipeRead 0) := by
  have hrun : (parseCommand .ok "ls||".toList rootSession.env rootSession.shell).map
      (fun t => t.fds.get STDIN_FILENO) = .ok (some (.pipeRead 0)) := by
    decide +kernel
  obtain ⟨t, ht, h0⟩ := map_eq_ok hrun
  exact ⟨t, ht, by decide +kernel, h0⟩

end Osexp.Seush
