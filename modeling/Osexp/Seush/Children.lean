/-
# The children of a line

A stage of a pipeline is started by `handle_redirection_exec` at once; a command without a pipe is
started by `run_processes`, when all segments have been read.  Until then its redirection files stay
where `handle_redirection` opened them, since the shell closes no descriptor but 0 (`keeps_open`).

`parseCommand_children`: every process of a line is started for one of its texts, so what holds of
`Starts` holds of the processes of a line.

Results about one text (`operators_take_effect_iff`, `output_exact_iff`) are stated for `Starts`,
which knows one call of `handle_redirection` and one `execv`.  In the shell the two are far apart
for a plain command: other segments are read in between, pipelines are run, and the child is forked
by another function.  This module carries the entry from the one place to the other.

The condition is that the forks of the pipelines succeed.  After one that fails `handle_pipe` has no
value to return, and what the shell then takes for a command is not in the source
(`Fault.missingReturn`).
-/
import Osexp.Seush.Operators

namespace Osexp.Seush

variable {w : World}

/-! ## 1. Children and texts -/

/-- If the child gets to a program that starts, it is started for one of these texts. -/
def StartedFor (T : List CString) (c : Child w) : Prop :=
  ∀ e, c = .execv e → e.started = true → ∃ text ∈ T, ∃ s : Shell w, Starts s text e

/-- The children forked between two states of the shell are. -/
def ChildrenFor (T : List CString) (s t : Shell w) : Prop :=
  ∃ es, t.trace = s.trace ++ es ∧ ∀ c, .fork c ∈ es → StartedFor T c

/-- The texts of the commands of a line. -/
def commandTexts (line : CString) : List CString :=
  (singleCommands line).flatMap (fun command => (stages command).1)

section Children

variable {T : List CString} {env : Environment} {s t u : Shell w}

theorem ChildrenFor.of_trace_eq (h : t.trace = s.trace) : ChildrenFor T s t :=
  ⟨[], h.trans (List.append_nil _).symm, fun _ hc => nomatch hc⟩

theorem ChildrenFor.trans (h : ChildrenFor T s t) (h' : ChildrenFor T t u) : ChildrenFor T s u := by
  obtain ⟨es, htrace, hes⟩ := h
  obtain ⟨es', htrace', hes'⟩ := h'
  refine ⟨es ++ es', by rw [htrace', htrace, List.append_assoc], ?_⟩
  intro c hc
  exact (List.mem_append.mp hc).elim (hes c) (hes' c)

theorem ChildrenFor.fork (s : Shell w) {c : Child w} (hc : StartedFor T c) :
    ChildrenFor T s (s.log (.fork c)) := by
  refine ⟨[.fork c], rfl, ?_⟩
  intro c' hc'
  cases List.mem_singleton.mp hc'
  exact hc

/-- An event that is no fork. -/
theorem ChildrenFor.event {e : Event w} (htrace : t.trace = s.trace ++ [e])
    (he : ∀ c, e ≠ .fork c) : ChildrenFor T s t := by
  refine ⟨[e], htrace, ?_⟩
  intro c hc
  exact absurd (List.mem_singleton.mp hc).symm (he c)

theorem startedFor_stage {text : CString} (htext : text ∈ T) (env : Environment)
    (o : StageOutcome) (s : Shell w) : StartedFor T (handleRedirectionExec o text env s) :=
  fun _ he hstarted => ⟨text, htext, s, .stage he hstarted⟩

/-! ## 2. Pipelines -/

theorem lastStage_children {text : CString} (htext : text ∈ T) (o : StageOutcome) (s : Shell w) :
    ChildrenFor T s (lastStage o text env s) := by
  unfold lastStage
  split
  · exact .of_trace_eq rfl
  · rename_i t ht
    have hpipe : ChildrenFor T s t := .of_trace_eq (Shell.pipe_eq_some ht).2.2.2.2.1
    split
    · have hfork := ChildrenFor.fork t (startedFor_stage htext env o t)
      exact (hpipe.trans hfork).trans (.event (lastParent_log _ _).2 (by rintro _ ⟨⟩))
    · exact hpipe

/-- **A pipeline starts its stages**, and returns one of them when there is no pipe. -/
theorem handlePipe_children {o : Nat → StageOutcome} (ho : ∀ n, (o n).fork = true)
    (line : CString) : ∀ (n : Nat) (leader : Bool) (s : Shell w),
      (∀ text ∈ (stages line).1, text ∈ T) →
      ChildrenFor T s (handlePipe env o n line leader s).2 ∧
        ∀ res, (handlePipe env o n line leader s).1 = some (.ok res) → res ∈ T := by
  induction line using pipeline_induction with
  | null line h =>
    intro n leader s _
    rw [handlePipe_null h]
    exact ⟨.of_trace_eq rfl, by rintro _ ⟨⟩⟩
  | single line token h =>
    intro n leader s hT
    rw [stages_single h, List.forall_mem_singleton] at hT
    rw [handlePipe_single h]
    cases leader
    · exact ⟨lastStage_children hT _ _, by rintro _ ⟨⟩⟩
    · exact ⟨.of_trace_eq rfl, fun _ hres => Except.ok.inj (Option.some.inj hres) ▸ hT⟩
  | piped line token rest h hr ih =>
    intro n leader s hT
    rw [stages_piped h hr, List.forall_mem_cons] at hT
    rw [handlePipe_piped h hr]
    split
    · exact ⟨.of_trace_eq rfl, by rintro _ ⟨⟩⟩
    · rename_i t ht
      rw [if_pos (ho n)]
      have hpipe : ChildrenFor T s t := .of_trace_eq (Shell.pipe_eq_some ht).2.2.2.2.1
      have hfork := ChildrenFor.fork t
        (startedFor_stage hT.1 env (o n) (pipedSetup (o n) t))
      have hwait : ChildrenFor T _ (pipedParent (o n) (t.log (.fork (pipedChild (o n) (clean token)
        env t)))) := .event (pipedParent_frame _ _).2 (by rintro _ ⟨⟩)
      obtain ⟨hrest, hres⟩ := ih (n + 1) false (pipedParent (o n)
        (t.log (.fork (pipedChild (o n) (clean token) env t)))) hT.2
      exact ⟨((hpipe.trans hfork).trans hwait).trans hrest, hres⟩

/-! ## 3. Entries of `process[]` -/

/-- An entry was filled for one of the texts, and its redirection files are where they were opened,
on descriptors other than 0. -/
def EntryFor (T : List CString) (u : Shell w) (p : Process) : Prop :=
  ∃ text ∈ T, ∃ (b : Scratch) (env : Environment) (s t : Shell w),
    handleRedirection b text {} env s = .ok (p, t) ∧
      ∀ k, p.rediOutfd = some k ∨ p.rediInfd = some k →
        k ≠ STDIN_FILENO ∧ ∃ f, t.fds.get k = some f ∧ u.fds.get k = some f

theorem EntryFor.mono {p : Process} (h : EntryFor T t p)
    (hkeep : ∀ k f, k ≠ STDIN_FILENO → t.fds.get k = some f → u.fds.get k = some f) :
    EntryFor T u p := by
  obtain ⟨text, htext, b, env, s, t', hentry, hopen⟩ := h
  refine ⟨text, htext, b, env, s, t', hentry, ?_⟩
  intro k hk
  obtain ⟨hne, f, hf, hu⟩ := hopen k hk
  exact ⟨hne, f, hf, hkeep k f hne hu⟩

/-- A new entry is one. -/
theorem entryFor_new {text : CString} (htext : text ∈ T) {b : Scratch} {p : Process}
    (h : handleRedirection b text {} env s = .ok (p, t)) (h0 : s.fds.get STDIN_FILENO ≠ none) :
    EntryFor T t p := by
  refine ⟨text, htext, b, env, s, t, h, ?_⟩
  intro k hk
  rw [handleRedirection_eq] at h
  obtain ⟨r, _, hentry⟩ := bind_eq_ok h
  obtain ⟨hfree, f, hf⟩ := (handleReading_opened hentry).free hk
  refine ⟨?_, f, hf, hf⟩
  rintro rfl
  exact h0 hfree

/-- The child of an entry. -/
theorem EntryFor.startedFor {p : Process} (h : EntryFor T u p) (o : RunOutcome) (dir : w.Dir) :
    StartedFor T (runProcess o dir p u) := by
  intro e he hstarted
  obtain ⟨text, htext, b, env, s, t, hentry, hopen⟩ := h
  refine ⟨text, htext, s, .intro hentry ?_ he hstarted⟩
  intro k hk
  obtain ⟨_, f, hf, hu⟩ := hopen k hk
  exact hu.trans hf.symm

/-- The forks and the waits that leave descriptor 0 open: `handle_pipe` gets on with its own text. -/
structure StageCallsOk (o : StageOutcome) : Prop where
  fork : o.fork = true
  parentDup : o.parentDup = true

theorem runSegment_children {o : SegOutcome} (ho : ∀ n, StageCallsOk (o.stage n))
    {command : CString} (hT : ∀ text ∈ (stages command).1, text ∈ T)
    {process process' : List (Process × w.Dir)} (h0 : s.fds.get STDIN_FILENO ≠ none)
    (hp : ∀ q ∈ process, EntryFor T s q.1)
    (h : runSegment env o command process s = .ok (process', t)) :
    ChildrenFor T s t ∧ t.fds.get STDIN_FILENO ≠ none ∧ ∀ q ∈ process', EntryFor T t q.1 := by
  have hdup := fun n => (ho n).parentDup
  have hstdin := ((stdin_open.lineRule env).runSegment hdup h0 (fun _ _ => trivial) h).1
  have hkeep : ∀ k f, k ≠ STDIN_FILENO → s.fds.get k = some f → t.fds.get k = some f :=
    fun k f hk hf => (((keeps_open hk f).lineRule env).runSegment (fun _ => trivial) hf
      (fun _ _ => trivial) h).1
  have hsave : ChildrenFor T s (saveStreams o s) := .of_trace_eq (saveStreams_frame o s).2.1
  obtain ⟨hpipe, hres⟩ := @handlePipe_children w T env o.stage (fun n => (ho n).fork) command 0 true
    (saveStreams o s) hT
  have hpiped := (stdin_open.lineRule env).handlePipe hdup command 0 true _
    (stdin_open.save o h0)
  unfold runSegment at h
  split at h
  · rename_i v hv
    cases h
    rw [hv] at hpipe
    exact ⟨hsave.trans hpipe, hstdin, fun q hq => (hp q hq).mono hkeep⟩
  · rename_i res v hv
    rw [hv] at hpipe hres hpiped
    obtain ⟨⟨p, x⟩, hx, h⟩ := map_eq_ok h
    cases h
    have hopened : ChildrenFor T v t := by
      obtain ⟨type, c, _, htrace⟩ := handleRedirection_shell hx
      rw [htrace]
      refine openRedirections_keeps (I := ChildrenFor T v) ?_ (.of_trace_eq rfl) _ _ _
      intro name write y hy
      exact hy.trans (.event (openFile_frame name write y).2.1 (by rintro _ ⟨⟩))
    refine ⟨(hsave.trans hpipe).trans hopened, hstdin, ?_⟩
    intro q hq
    rcases List.mem_append.mp hq with hq | hq
    · exact (hp q hq).mono hkeep
    · cases List.mem_singleton.mp hq
      exact entryFor_new (hres res rfl) hx hpiped
  · cases h

theorem runSegments_children {o : LineOutcome} (ho : ∀ i n, StageCallsOk ((o.seg i).stage n)) :
    ∀ {i : Nat} {commands : List CString} {process process' : List (Process × w.Dir)}
      {s t : Shell w}, (∀ command ∈ commands, ∀ text ∈ (stages command).1, text ∈ T) →
      s.fds.get STDIN_FILENO ≠ none → (∀ q ∈ process, EntryFor T s q.1) →
      runSegments env o i commands process s = .ok (process', t) →
      ChildrenFor T s t ∧ ∀ q ∈ process', EntryFor T t q.1
  | _, [], _, _, _, _, _, _, hp, h => by
    cases h
    exact ⟨.of_trace_eq rfl, hp⟩
  | i, command :: commands, process, _, s, _, hT, h0, hp, h => by
    obtain ⟨hcommand, hmore⟩ := List.forall_mem_cons.mp hT
    rw [runSegments] at h
    split at h
    · exact runSegments_children ho hmore h0 hp h
    · obtain ⟨⟨p₁, s₁⟩, h₁, h₂⟩ := bind_eq_ok h
      obtain ⟨hchildren, hstdin, hentries⟩ := runSegment_children (ho i) hcommand h0 hp h₁
      obtain ⟨hrest, hall⟩ := runSegments_children ho hmore hstdin hentries h₂
      exact ⟨hchildren.trans hrest, hall⟩

/-! ## 4. Lines -/

theorem forkProcesses_children {o : LineOutcome} : ∀ {number : Nat}
    {process : List (Process × w.Dir)} {s t : Shell w}, (∀ q ∈ process, EntryFor T s q.1) →
      forkProcesses o number process s = .ok t → ChildrenFor T s t
  | _, [], _, _, _, h => by
    cases h
    exact .of_trace_eq rfl
  | number, (p, dir) :: ps, s, _, hp, h => by
    obtain ⟨hfirst, hrest⟩ := List.forall_mem_cons.mp hp
    rw [forkProcesses] at h
    split at h
    · exact (ChildrenFor.fork s (hfirst.startedFor _ _)).trans
        (forkProcesses_children (fun q hq => (hrest q hq).mono (fun _ _ _ hf => hf)) h)
    · cases h

/-- **Every process of a line is started for one of its texts.**  So what is proved of the process
of one text holds of every process of the line. -/
theorem parseCommand_children {o : LineOutcome} (ho : ∀ i n, StageCallsOk ((o.seg i).stage n))
    {line : CString} (h0 : s.fds.get STDIN_FILENO ≠ none)
    (h : parseCommand o line env s = .ok t) : ChildrenFor (commandTexts line) s t := by
  unfold parseCommand at h
  split at h
  · cases h
  · obtain ⟨⟨process, u⟩, hu, h⟩ := bind_eq_ok h
    have hT : ∀ command ∈ singleCommands line, ∀ text ∈ (stages command).1,
        text ∈ commandTexts line :=
      fun command hc text ht => List.mem_flatMap.mpr ⟨command, hc, ht⟩
    obtain ⟨hchildren, hentries⟩ := runSegments_children ho hT h0 (List.forall_mem_nil _) hu
    obtain ⟨v, hv, rfl⟩ := map_eq_ok h
    have hcd : ChildrenFor (commandTexts line) u (u.chdir env.cwdString) := .of_trace_eq rfl
    have hforks := (hchildren.trans hcd).trans
      (forkProcesses_children (fun q hq => (hentries q hq).mono (fun _ _ _ hf => hf)) hv)
    split
    · exact hforks
    · exact hforks.trans (.event rfl (by rintro _ ⟨⟩))

/-- **A line with at most one operator to a command**, each with a name: in every process of the line
the operators of its text take effect. -/
theorem parseCommand_takeEffect {o : LineOutcome} (ho : ∀ i n, StageCallsOk ((o.seg i).stage n))
    {line : CString} (h0 : s.fds.get STDIN_FILENO ≠ none)
    (hline : ∀ text ∈ commandTexts line,
      operators text = [] ∨ OneEach text ∧ (operators text).length = 1)
    (h : parseCommand o line env s = .ok t) :
    ∃ es, t.trace = s.trace ++ es ∧ ∀ e, .fork (.execv e) ∈ es → e.started = true →
      ∃ text ∈ commandTexts line, AllTakeEffect text e := by
  obtain ⟨es, htrace, hes⟩ := parseCommand_children ho h0 h
  refine ⟨es, htrace, ?_⟩
  intro e he hstarted
  obtain ⟨text, htext, u, hstarts⟩ := hes _ he e rfl hstarted
  refine ⟨text, htext, ?_⟩
  rcases hline text htext with hnil | ⟨hone, hlen⟩
  · exact allTakeEffect_of_nil hnil e
  · obtain ⟨command, _, hstage⟩ := List.mem_flatMap.mp htext
    exact hone.allTakeEffect (cleaned_stages command text hstage) hstarts (Or.inr hlen)

end Children

end Osexp.Seush
