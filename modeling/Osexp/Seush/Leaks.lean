/-
# The descriptors open at the prompt

Every segment that is not blank begins with `save_in = dup(0); save_out = dup(1)`, and nothing in
the shell ever closes these two.  The last stage of a pipeline opens a pipe that stays as well, and
so do the files of a redirection outside a pipeline.

So the set of open descriptors is the same at every prompt only in a run in which no line gets as
far as a segment (`no_leak`), as long as `dup(0)` succeeds.

It does not matter which commands the line has or whether they are found: the two `dup` calls come
first.  The condition is therefore on the text, a built-in command, or segments that are all blank.
How many descriptors are lost by the other lines is counted in `Osexp.Seush.Descriptors`.

The converse needs `dup(0)` to succeed, since a segment whose calls fail may leave nothing behind.
-/
import Osexp.Seush.Loop
import Osexp.Seush.Pipeline

namespace Osexp.Seush

open Lts

variable {w : World}

/-! ## 1. The condition -/

/-- The line is a built-in command, or all its segments are blank. -/
def RunsNothing (line : CString) : Prop :=
  dispatch (clean line) = .external →
    ∀ command ∈ singleCommands (clean line), clean command = []

/-- The same descriptors are open. -/
def SameFds (s t : Session w) : Prop := t.shell.fds.openFds = s.shell.fds.openFds

instance (line : CString) : Decidable (RunsNothing line) :=
  inferInstanceAs (Decidable (_ → _))

/-- Blank segments do nothing. -/
theorem runSegments_blank {env : Environment} {o : LineOutcome} : ∀ {i : Nat}
    {commands : List CString} {process : List (Process × w.Dir)} {s : Shell w},
    (∀ command ∈ commands, clean command = []) →
      runSegments env o i commands process s = .ok (process, s)
  | _, [], _, _, _ => rfl
  | i, command :: commands, process, s, h => by
    rw [runSegments, if_pos (h command List.mem_cons_self)]
    exact runSegments_blank (fun c hc => h c (List.mem_cons_of_mem _ hc))

/-! ## 2. The saved descriptor stays open -/

/-- The descriptor that `dup(0)` takes was closed, and is open when the streams are saved. -/
theorem saveStreams_opens {o : SegOutcome} {s : Shell w} (hdup : o.dupIn = true)
    (h0 : s.fds.get STDIN_FILENO ≠ none) :
    ∃ k f, k ≠ STDIN_FILENO ∧ s.fds.get k = none ∧ (saveStreams o s).fds.get k = some f := by
  obtain ⟨f, hf⟩ := Option.ne_none_iff_exists'.mp h0
  have hin : (saveStdin o.dupIn s).fds.get s.fds.lowest = some f := by
    rw [saveStdin_get, if_pos ⟨hdup, rfl⟩, hf]
  refine ⟨s.fds.lowest, f, (FdTable.ne_lowest_of_get hf).symm, FdTable.get_lowest _, ?_⟩
  rw [saveStreams_get, if_neg (fun he => FdTable.ne_lowest_of_get hin he.2), hin]

/-- The rest of the segment, and the segments after it, leave it open. -/
theorem runSegments_opens {env : Environment} {o : LineOutcome}
    (hdup : ∀ i, (o.seg i).dupIn = true) : ∀ {i : Nat} {commands : List CString}
    {process process' : List (Process × w.Dir)} {s t : Shell w},
      s.fds.get STDIN_FILENO ≠ none → (∃ command ∈ commands, clean command ≠ []) →
      runSegments env o i commands process s = .ok (process', t) →
      ∃ k, s.fds.get k = none ∧ t.fds.get k ≠ none
  | _, [], _, _, _, _, _, ⟨_, hc, _⟩, _ => nomatch hc
  | i, command :: commands, process, process', s, t, h0, ⟨c, hc, hne⟩, h => by
    rw [runSegments] at h
    split at h
    · rename_i hblank
      rcases List.mem_cons.mp hc with rfl | hc
      · exact absurd hblank hne
      · exact runSegments_opens hdup h0 ⟨c, hc, hne⟩ h
    · obtain ⟨⟨p₁, s₁⟩, h₁, h₂⟩ := bind_eq_ok h
      obtain ⟨k, f, hk, hclosed, hopen⟩ := saveStreams_opens (hdup i) h0
      have hrule := (keeps_open hk f).lineRule (w := w) env
      obtain ⟨h₃, _⟩ :=
        hrule.runSegment_saved (fun _ => trivial) hopen (fun _ _ => trivial) h₁
      obtain ⟨h₄, _⟩ := hrule.runSegments (fun _ _ => trivial) h₃ (fun _ _ => trivial) h₂
      exact ⟨k, hclosed, by rw [h₄]; exact Option.some_ne_none f⟩

/-! ## 3. Lines and runs -/

/-- A line that runs nothing leaves the descriptors as they are. -/
theorem fds_of_runsNothing {s t : Session w} {i : Input} (h : Step s i t)
    (hi : RunsNothing i.1) : t.shell.fds = s.shell.fds := by
  unfold Step runLine at h
  cases hd : dispatch (clean i.1) with
  | exit =>
    rw [hd] at h
    cases h
  | help =>
    rw [hd] at h
    cases h
    rfl
  | path args =>
    rw [hd] at h
    obtain ⟨env, _, ht⟩ := map_eq_ok h
    cases ht
    rfl
  | cd newDir =>
    rw [hd] at h
    cases h
    unfold runCd
    split <;> rfl
  | external =>
    rw [hd] at h
    obtain ⟨u, hu, ht⟩ := map_eq_ok h
    cases ht
    obtain ⟨process, v, hv, hfds⟩ := parseCommand_segments hu
    rw [runSegments_blank (hi hd)] at hv
    cases hv
    exact hfds

/-- A line that runs something leaves a descriptor open that was closed. -/
theorem opens_of_not_runsNothing {s t : Session w} {i : Input} (h : Step s i t)
    (hdup : ∀ k, (i.2.seg k).dupIn = true) (h0 : s.shell.fds.get STDIN_FILENO ≠ none)
    (hi : ¬ RunsNothing i.1) : ∃ k, s.shell.fds.get k = none ∧ t.shell.fds.get k ≠ none := by
  unfold RunsNothing at hi
  push Not at hi
  obtain ⟨hd, hne⟩ := hi
  unfold Step runLine at h
  rw [hd] at h
  obtain ⟨u, hu, ht⟩ := map_eq_ok h
  cases ht
  obtain ⟨process, v, hv, hfds⟩ := parseCommand_segments hu
  obtain ⟨k, hclosed, hopen⟩ := runSegments_opens hdup h0 hne hv
  exact ⟨k, hclosed, by rw [hfds]; exact hopen⟩

/-- **The descriptors open at the prompt.** They stay the same along a run in which no line runs
anything; and if descriptor 0 is open and every `dup(0)` succeeds, only along such a run.  A shell
is expected to have the same descriptors at every prompt, since it lives long and hands them on to
every program.  This one keeps what `dup` gave it, so that the condition is as narrow as it can be.
-/
theorem no_leak {s : Session w} {r : Trail (Session w) Input} (hr : Run Step s r) :
    (StepsOk (fun _ i => RunsNothing i.1) s r →
        Always (SameFds s) r) ∧
      (s.shell.fds.get STDIN_FILENO ≠ none → (∀ p ∈ r, ∀ k, (p.1.2.seg k).dupIn = true) →
        Always (SameFds s) r →
          StepsOk (fun _ i => RunsNothing i.1) s r) := by
  constructor
  · intro hok
    refine hr.always_of_stepsOk ?_ (rfl : SameFds s s) hok
    intro a i b ha hi hstep
    have hfds := fds_of_runsNothing hstep hi
    exact (congrArg FdTable.openFds hfds).trans ha
  · intro h0 hdup hal
    have hr' := hr.restrict (Q := fun i : Input => ∀ k, (i.2.seg k).dupIn = true) hdup
    refine (hr'.always_iff (fun _ _ _ (_ : True) _ => trivial) ?_ trivial
      (rfl : SameFds s s)).mp hal
    rintro a i b _ ha ⟨hstep, hdups⟩
    have ha0 : STDIN_FILENO ∈ a.shell.fds.openFds := ha.symm ▸ h0
    constructor
    · intro hb
      by_contra hi
      obtain ⟨k, hclosed, hopen⟩ := opens_of_not_runsNothing hstep hdups ha0 hi
      have hmem : k ∈ a.shell.fds.openFds := by
        rw [ha, ← hb]
        exact hopen
      exact hmem hclosed
    · intro hi
      have hfds := fds_of_runsNothing hstep hi
      exact (congrArg FdTable.openFds hfds).trans ha

/-- `help`, `cd sub` and a blank line. -/
theorem no_leak_builtins :
    Always (SameFds rootSession) (runOf ["help", "cd sub", "  &  "]) :=
  (no_leak (run_trailOf _ _)).1 (by decide +kernel)

/-- **One `ls`, and descriptors 3 and 4 stay open.** -/
theorem ls_leaks : Run Step rootSession (runOf ["ls"]) ∧ (runOf ["ls"]).length = 1 ∧
    ¬ Always (SameFds rootSession) (runOf ["ls"]) := by
  refine ⟨run_trailOf _ _, by decide +kernel, ?_⟩
  intro h
  have hopen : (final rootSession (runOf ["ls"])).shell.fds.get 3 ≠ none := by decide +kernel
  have hclosed : rootSession.shell.fds.get 3 = none := by decide +kernel
  have hsame : SameFds rootSession (final rootSession (runOf ["ls"])) :=
    final_of_always (rfl : SameFds rootSession rootSession) h
  have hmem : 3 ∈ rootSession.shell.fds.openFds := by
    rw [← hsame]
    exact hopen
  exact hmem hclosed

end Osexp.Seush
