/-
# A line runs its jobs

Every call succeeds and every command of the line is admissible.  Then `parse_command` does to the
text of the line what the line means.

* The passes over the text take it apart into the commands again (`stages_of_clean`), whatever
  spaces there are.
* A pipeline runs its stages (`handlePipe_runs`), by induction along it; afterwards the standard
  streams of the shell are as before, which the next segment relies on.
* A plain command becomes an entry whose files stay open until its child is forked
  (`Pending`).

This is the step from texts to commands for a whole line, where the modules before it are about one
text or one pipeline.  The order matters: pipelines are run while the line is still being read, and
plain commands wait until its end, so what a command finds open depends on what stands before it in
the line.  The lemmas carry three things through it, where the shell is, what its standard streams
are, and which entries are waiting.
-/
import Mathlib.Data.List.Forall2
import Osexp.Seush.AndList
import Osexp.Seush.Launch

namespace Osexp.Seush

open Text

variable {w : World} {env : Environment} {a : Place w} {std : Streams}

/-! ## 1. The text of a job -/

/-- `P` holds of everything that a command is typed with. -/
structure CommandChars (P : Char → Prop) : Prop where
  space : P ' '
  less : P '<'
  greater : P '>'
  plain : ∀ c, Osexp.Seush.plain c = true → P c

theorem CommandChars.inLine : CommandChars (fun c => inLine c = true) :=
  ⟨rfl, rfl, rfl, fun _ hc => (plain_spec hc).2.1⟩

theorem plain_ne_separator {c : Char} (h : plain c = true) : c ≠ '|' ∧ c ≠ '&' := by
  have hnot : c ∉ [' ', '\t', '\n', '\x00', '<', '>', '&', '|'] := by simpa [plain] using h
  simp only [List.mem_cons, List.not_mem_nil, or_false, not_or] at hnot
  exact ⟨hnot.2.2.2.2.2.2.2, hnot.2.2.2.2.2.2.1⟩

theorem CommandChars.noBar : CommandChars (fun c => c ≠ '|') :=
  ⟨by decide, by decide, by decide, fun _ hc => (plain_ne_separator hc).1⟩

theorem CommandChars.noAmp : CommandChars (fun c => c ≠ '&') :=
  ⟨by decide, by decide, by decide, fun _ hc => (plain_ne_separator hc).2⟩

section Chars

variable {P : Char → Prop}

theorem CommandChars.spaces (h : CommandChars P) (n : Nat) : ∀ c ∈ List.replicate n ' ', P c := by
  intro c hc
  rw [List.eq_of_mem_replicate hc]
  exact h.space

theorem CommandChars.operators (h : CommandChars P) {gap : Nat → Nat} :
    ∀ {k : Nat} {ops : List (Char × CString)},
    (∀ op ∈ ops, (op.1 = '<' ∨ op.1 = '>') ∧ ∀ c ∈ op.2, P c) →
      ∀ c ∈ renderOperators gap k ops, P c
  | _, [], _, c, hc => by cases hc
  | k, (d, name) :: ops, hall, c, hc => by
    obtain ⟨⟨hd, hname⟩, hops⟩ := List.forall_mem_cons.mp hall
    rw [renderOperators] at hc
    simp only [List.mem_append, List.mem_cons] at hc
    rcases hc with hc | rfl | hc | hc | hc
    · exact h.spaces _ c hc
    · rcases hd with rfl | rfl
      · exact h.less
      · exact h.greater
    · exact h.spaces _ c hc
    · exact hname c hc
    · exact h.operators hops c hc

theorem Redirected.render_forall (h : CommandChars P) (r : Redirected) : ∀ c ∈ r.render, P c := by
  intro c hc
  rcases List.mem_append.mp hc with hc | hc
  · exact mem_join_words h.space
      (fun word hw c hc => h.plain c ((r.isWord word hw).plain c hc)) c hc
  · exact h.operators (fun op hop => ⟨r.operators_char op hop,
      fun c hc => h.plain c ((r.isWord_operators op hop).plain c hc)⟩) c hc

theorem Spaced.text_forall (h : CommandChars P) (st : Spaced) : ∀ c ∈ st.text, P c := by
  intro c hc
  rcases List.mem_append.mp hc with hc | hc
  · exact h.spaces _ c hc
  · rcases List.mem_append.mp hc with hc | hc
    · exact st.render_forall h c hc
    · exact h.spaces _ c hc

/-- What holds of the separator and between the separators holds of the whole. -/
theorem join_forall {c : Char} (hc : P c) {texts : List CString}
    (h : ∀ text ∈ texts, ∀ x ∈ text, P x) : ∀ x ∈ join c texts, P x := by
  induction texts with
  | nil => simp
  | cons text texts ih =>
    obtain ⟨htext, htexts⟩ := List.forall_mem_cons.mp h
    rcases eq_or_ne texts [] with rfl | hne
    · simpa using htext
    · rw [join_cons _ _ hne]
      intro x hx
      rcases List.mem_append.mp hx with hx | hx
      · exact htext x hx
      · rcases List.mem_cons.mp hx with rfl | hx
        · exact hc
        · exact ih htexts x hx

theorem Job.text_forall (h : CommandChars P) (hbar : P '|') (j : Job) : ∀ c ∈ j.text, P c := by
  refine join_forall hbar ?_
  intro text htext
  obtain ⟨st, _, rfl⟩ := List.mem_map.mp htext
  exact st.text_forall h

end Chars

/-- The spaces around a command are cut. -/
theorem Spaced.clean_text (st : Spaced) : clean st.text = clean st.render := by
  have hline : ∀ c ∈ st.render, inLine c = true :=
    st.render_forall .inLine
  have hblank : ∀ c ∈ List.replicate st.behind ' ', isBlank c = true := by
    intro c hc
    rw [List.eq_of_mem_replicate hc]
    rfl
  rw [clean_of_inLine (st.text_forall .inLine), clean_of_inLine hline, Spaced.text, squeeze,
    squeezeFrom_false_replicate rfl, squeezeFrom_append_blanks hblank]
  rfl

theorem clean_render_ne (r : Redirected) : clean r.render ≠ [] := by
  obtain ⟨word, ws, hw⟩ := List.exists_cons_of_ne_nil r.words_ne
  obtain ⟨c, t, hc⟩ := List.exists_cons_of_ne_nil (r.isWord word (hw ▸ List.mem_cons_self)).ne
  have hrender : c ∈ r.render := by
    refine List.mem_append_left _ ?_
    rw [hw, hc]
    rcases eq_or_ne ws [] with rfl | hne
    · simp
    · rw [join_cons ' ' _ hne]
      simp
  have hline : ∀ x ∈ r.render, inLine x = true :=
    r.render_forall .inLine
  have hplain := (r.isWord word (hw ▸ List.mem_cons_self)).plain c (hc ▸ List.mem_cons_self)
  rw [clean_of_inLine hline, Ne, squeeze_eq_nil_iff]
  intro hall
  have hblank := hall c hrender
  rw [(plain_spec hplain).1] at hblank
  cases hblank

namespace Job

theorem pieces_text (j : Job) : pieces '|' j.text = j.stages.map Spaced.text := by
  refine pieces_join (by simpa using j.stages_ne) ?_
  intro text htext hmem
  obtain ⟨st, _, rfl⟩ := List.mem_map.mp htext
  exact st.text_forall .noBar _ hmem rfl

end Job

/-- **A text that cleans to that of a job has its commands as stages.**  What the typed spaces are
is of no consequence from here on. -/
theorem stages_of_clean {j : Job} {command : CString} (hline : ∀ c ∈ command, inLine c = true)
    (h : clean command = clean j.text) :
    stages command = (j.commands.map (fun r => clean r.render), true) := by
  have htext : ∀ c ∈ j.text, inLine c = true :=
    j.text_forall .inLine rfl
  have hpieces : (pieces '|' command).map (squeeze isBlank) =
      j.commands.map (fun r => clean r.render) := by
    calc (pieces '|' command).map (squeeze isBlank)
        = (pieces '|' (squeeze isBlank command)).map (squeeze isBlank) :=
          (map_squeeze_pieces rfl command).symm
      _ = (pieces '|' (squeeze isBlank j.text)).map (squeeze isBlank) := by
          rw [← clean_of_inLine hline, h, clean_of_inLine htext]
      _ = (j.stages.map Spaced.text).map (squeeze isBlank) := by
          rw [map_squeeze_pieces rfl, j.pieces_text]
      _ = j.commands.map (fun r => clean r.render) := by
          rw [Job.commands, List.map_map, List.map_map]
          refine List.map_congr_left ?_
          intro st _
          rw [Function.comp_apply, ← clean_of_inLine (st.text_forall .inLine), st.clean_text]
          rfl
  rw [stages_eq command hline, hpieces]
  intro q hq hnil
  have hmem := List.mem_map_of_mem (f := squeeze isBlank) hq
  rw [hpieces, hnil] at hmem
  obtain ⟨r, _, hr⟩ := List.mem_map.mp hmem
  exact clean_render_ne r hr

/-! ## 2. One stage -/

/-- Every call made for the line succeeds. -/
structure AllSucceed (o : LineOutcome) : Prop where
  save : ∀ i, (o.seg i).dupIn = true
  stage : ∀ i n, CallsOk ((o.seg i).stage n)
  stageRun : ∀ i n, ((o.seg i).stage n).run = ⟨true, true, true⟩
  fork : ∀ n, o.fork n = true
  run : ∀ n, o.run n = ⟨true, true, true⟩

/-- The shell as a line of the place finds it: its directory, the search list, a name in
`environment.cwd` that leads to the directory from there, and its streams. -/
structure ShellIn (env : Environment) (a : Place w) (std : Streams) (s : Shell w) : Prop where
  cwd : s.cwd = a.dir
  paths : env.paths = a.paths
  named : w.resolve a.dir env.cwdString = some a.dir
  streams : StreamsAre std s

theorem chdir_named (hnamed : w.resolve a.dir env.cwdString = some a.dir) {s : Shell w}
    (hcwd : s.cwd = a.dir) : (s.chdir env.cwdString).cwd = a.dir := by
  show (w.chdir s.cwd env.cwdString).getD s.cwd = a.dir
  rw [hcwd]
  exact DirTree.chdir_getD_of_resolve hnamed

theorem StreamsAre.congr {s t : Shell w} (h : StreamsAre std s)
    (hkeep : ∀ k f, s.fds.get k = some f → t.fds.get k = some f) : StreamsAre std t :=
  ⟨hkeep _ _ h.input, hkeep _ _ h.output, hkeep _ _ h.errors⟩

/-- **The child of a stage** starts the program of its command, and holds no older file that the
process it was forked from did not hold. -/
theorem stage_launched {r : Redirected} (hr : r.Admissible a) {s : Shell w}
    (hs : ShellIn env a std s) {o : StageOutcome} (ho : o.run = ⟨true, true, true⟩) :
    ∃ e, handleRedirectionExec o (clean r.render) env s = .execv e ∧ Launched a r std e ∧
      ∀ F : OpenFile, F.MadeBefore s.fresh → e.fds.Refers F → s.fds.Refers F := by
  obtain ⟨p, t, hp, hready, hopens⟩ := handleRedirection_ready hr hs.cwd hs.paths o.scratch
  obtain ⟨e, he, hlaunched, hrefers⟩ := @EntryReady.launched w a r s t (t.chdir env.cwdString) p
    std hready hr.few hs.streams.open (fun _ _ => rfl)
    (chdir_named hs.named (hopens.cwd.trans hs.cwd)) (hs.streams.congr hopens.keeps)
  refine ⟨e, ?_, hlaunched, ?_⟩
  · unfold handleRedirectionExec
    rw [hp]
    dsimp only
    rw [ho, hs.cwd]
    exact he
  · intro F hF href
    obtain ⟨k, hk⟩ := hrefers F href
    exact ⟨k, hopens.older F hF k hk⟩

/-! ## 3. A pipeline -/

/-- The events of a pipeline are forks and waits. -/
theorem StagesRun.noOpen {output errors : OpenFile} {m : Nat} {input : OpenFile}
    {rs : List Redirected} {E : List (Event w)} (h : StagesRun a output errors m input rs E) :
    ∀ ev ∈ E, ev.isOpen = false := by
  induction h with
  | last _ => simp [Event.isOpen]
  | piped _ _ _ _ ih => simpa [Event.isOpen] using ih

/-- The last stage. -/
theorem lastStage_runs {r : Redirected} (hr : r.Admissible a) {s : Shell w}
    (hs : ShellIn env a std s) {o : StageOutcome} (ho : CallsOk o)
    (hrun : o.run = ⟨true, true, true⟩) :
    ∃ E, (lastStage o (clean r.render) env s).trace = s.trace ++ E ∧
      StagesRun a std.output std.errors s.fresh std.input [r] E ∧
      ∀ F : OpenFile, F.MadeBefore s.fresh → ¬ s.fds.Refers F → ∀ ev ∈ E, ¬ ev.Holds F := by
  cases hpipe : s.pipe o.pipe with
  | none =>
    rw [Shell.pipe_eq_none_iff, ho.pipe] at hpipe
    cases hpipe
  | some t =>
    obtain ⟨_, hcwd, hfresh, _, htrace, _⟩ := Shell.pipe_eq_some hpipe
    have ht : ShellIn env a std t :=
      ⟨hcwd.trans hs.cwd, hs.paths, hs.named, hs.streams.congr (fun _ _ hk => pipe_get hpipe hk)⟩
    obtain ⟨e, he, hlaunched, hrefers⟩ := stage_launched hr ht hrun
    refine ⟨[.fork (.execv e), .waitpid t.fds], ?_, .last hlaunched, ?_⟩
    · unfold lastStage
      rw [hpipe]
      dsimp only
      rw [if_pos ho.fork, (lastParent_log _ _).2, Shell.log_trace, Shell.log_fds, htrace, he]
      simp
    · intro F hF hno
      have hnot : ¬ t.fds.Refers F := fun ⟨k, hk⟩ => hno ⟨k, (pipe_get_iff hpipe hF k).mp hk⟩
      have hFt : F.MadeBefore t.fresh := by
        rw [hfresh]
        exact hF.mono (Nat.le_succ _)
      intro ev hev
      rcases List.mem_pair.mp hev with rfl | rfl
      · exact fun hholds => hnot (hrefers F hFt hholds)
      · exact hnot

/-- What the child of a piped stage keeps besides its standard input. -/
theorem pipedSetup_keeps {o : StageOutcome} {ok : Bool} {s t : Shell w}
    (h : s.pipe ok = some t) :
    (pipedSetup o t).fresh = t.fresh ∧ ∀ {k : Nat} {f : OpenFile}, s.fds.get k = some f →
      k ≠ STDOUT_FILENO → (pipedSetup o t).fds.get k = some f := by
  have hends := pipe_ends h
  let d : Shell w := (t.close t.fd.1).close STDOUT_FILENO
  obtain ⟨_, hfresh, _, hfd, _⟩ := Shell.dup_frame o.childDup d.fd.2 d
  refine ⟨hfresh, ?_⟩
  intro k f hk hne
  have hnr : k ≠ t.fd.1 := by
    rintro rfl
    exact nomatch hends.readFree.symm.trans hk
  have hnw : k ≠ d.fd.2 := by
    rintro rfl
    exact nomatch hends.writeFree.symm.trans hk
  have hd : d.fds.get k = some f :=
    (FdTable.get_close_ne _ hne).trans ((FdTable.get_close_ne _ hnr).trans (pipe_get h hk))
  show ((d.dup o.childDup d.fd.2).2.close (d.dup o.childDup d.fd.2).2.fd.2).fds.get k = some f
  rw [Shell.close_fds, hfd, FdTable.get_close_ne _ hnw, Shell.dup_get,
    if_neg (fun hlow => FdTable.ne_lowest_of_get hd hlow.2), hd]

/-- **The recursion runs the stages of a text**, by induction along the pipeline: each is started
on what the one before it has left on descriptor 0, and nobody comes to hold an older file that
the shell did not hold. -/
theorem handlePipe_runs {o : Nat → StageOutcome} (ho : ∀ n, CallsOk (o n))
    (hrun : ∀ n, (o n).run = ⟨true, true, true⟩) (line : CString) :
    ∀ (n : Nat) (s : Shell w) (std : Streams) (rs : List Redirected),
      stages line = (rs.map (fun r => clean r.render), true) → (∀ r ∈ rs, r.Admissible a) →
      ShellIn env a std s →
      (handlePipe env o n line false s).1 = none ∧
      ∃ E, (handlePipe env o n line false s).2.trace = s.trace ++ E ∧
        StagesRun a std.output std.errors s.fresh std.input rs E ∧
        ∀ F : OpenFile, F.MadeBefore s.fresh → ¬ s.fds.Refers F → ∀ ev ∈ E, ¬ ev.Holds F := by
  induction line using pipeline_induction with
  | null line h =>
    intro n s std rs hst
    rw [stages_null h] at hst
    exact absurd (Prod.mk.inj hst).2 Bool.false_ne_true
  | single line token h =>
    intro n s std rs hst hrs hs
    rw [stages_single h] at hst
    obtain ⟨r, more, rfl, htoken, hmore⟩ := List.map_eq_cons_iff.mp (Prod.mk.inj hst).1.symm
    rw [List.map_eq_nil_iff.mp hmore] at hrs ⊢
    rw [handlePipe_single h, ← htoken]
    exact ⟨rfl, lastStage_runs (hrs r List.mem_cons_self) hs (ho n) (hrun n)⟩
  | piped line token rest h hr ih =>
    intro n s std rs hst hrs hs
    rw [stages_piped h hr] at hst
    obtain ⟨r, more, rfl, htoken, hmore⟩ := List.map_eq_cons_iff.mp (Prod.mk.inj hst).1.symm
    have hrest : stages (clean rest) = (more.map (fun r => clean r.render), true) :=
      Prod.ext hmore.symm (Prod.mk.inj hst).2
    obtain ⟨hadm, hadms⟩ := List.forall_mem_cons.mp hrs
    rw [handlePipe_piped h hr, ← htoken]
    cases hpipe : s.pipe (o n).pipe with
    | none =>
      rw [Shell.pipe_eq_none_iff, (ho n).pipe] at hpipe
      cases hpipe
    | some t =>
      obtain ⟨_, hcwd, hfreshT, _, htrace, _⟩ := Shell.pipe_eq_some hpipe
      obtain ⟨hchcwd, hch0, hch1, hchno⟩ :=
        pipedSetup_fds (ho n).childDup hpipe hs.streams.input hs.streams.output
      obtain ⟨hchfresh, hchkeep⟩ := pipedSetup_keeps (o := o n) hpipe
      have hchild : ShellIn env a ⟨std.input, .pipeWrite s.fresh, std.errors⟩
          (pipedSetup (o n) t) :=
        ⟨hchcwd.trans (hcwd.trans hs.cwd), hs.paths, hs.named, hch0, hch1,
          hchkeep hs.streams.errors (by decide)⟩
      obtain ⟨e, he, hlaunched, hrefers⟩ := stage_launched hadm hchild (hrun n)
      have hexec : pipedChild (o n) (clean r.render) env t = .execv e := he
      dsimp only
      rw [if_pos (ho n).fork, hexec]
      obtain ⟨hother, hstdin, _, hfresh⟩ := piped_fds hpipe (.fork (.execv e))
      obtain ⟨hucwd, hutrace⟩ := pipedParent_frame (o n) (t.log (.fork (.execv e)))
      set u := pipedParent (o n) (t.log (.fork (.execv e))) with hu
      have hopen : s.fds.get STDIN_FILENO ≠ none := by
        rw [hs.streams.input]
        exact Option.some_ne_none _
      rw [if_pos ⟨(ho n).parentDup, hopen⟩] at hstdin
      have hnext : ShellIn env a ⟨.pipeRead s.fresh, std.output, std.errors⟩ u :=
        ⟨hucwd.trans (hcwd.trans hs.cwd), hs.paths, hs.named, hstdin,
          (hother _ (by decide)).trans hs.streams.output,
          (hother _ (by decide)).trans hs.streams.errors⟩
      obtain ⟨hret, E, htraceE, hruns, hno⟩ := ih (n + 1) u _ more hrest hadms hnext
      -- what the shell holds after the stage it held before, or it is the read end of the pipe
      have hurefers : ∀ F : OpenFile, F ≠ .pipeRead s.fresh → u.fds.Refers F →
          s.fds.Refers F := by
        rintro F hF ⟨k, hk⟩
        rcases eq_or_ne k STDIN_FILENO with rfl | hk0
        · rw [hstdin] at hk
          exact absurd (Option.some.inj hk).symm hF
        · exact ⟨k, (hother k hk0).symm.trans hk⟩
      have hnowrite : ¬ u.fds.Refers (.pipeWrite s.fresh) := by
        intro hr
        obtain ⟨k, hk⟩ := hurefers _ (by simp) hr
        exact Nat.lt_irrefl _ (s.numbered k _ hk)
      rw [hfresh] at hruns
      refine ⟨hret, .fork (.execv e) :: .waitpid u.fds :: E, ?_, ?_, ?_⟩
      · rw [htraceE, hutrace, Shell.log_trace, htrace]
        simp
      · exact .piped hlaunched hnowrite (hno _ (hfresh ▸ Nat.lt_succ_self _) hnowrite) hruns
      · intro F hF hnoF ev hev
        have hnotread : F ≠ .pipeRead s.fresh := by
          rintro rfl
          exact Nat.lt_irrefl _ hF
        have hnotu : ¬ u.fds.Refers F := fun hr => hnoF (hurefers F hnotread hr)
        have hFchild : F.MadeBefore (pipedSetup (o n) t).fresh := by
          rw [hchfresh, hfreshT]
          exact hF.mono (Nat.le_succ _)
        rcases List.mem_cons.mp hev with rfl | hev
        · exact fun hholds => hnoF (hchno F hF (hrefers F hFchild hholds))
        · rcases List.mem_cons.mp hev with rfl | hev
          · exact hnotu
          · exact hno F (hfresh ▸ hF.mono (Nat.le_succ _)) hnotu ev hev

/-! ## 4. What a segment leaves behind -/

/-- Nothing that a line does moves the shell, except to where `environment.cwd` leads. -/
theorem cwd_quietRule (hnamed : w.resolve a.dir env.cwdString = some a.dir) :
    QuietRule env (fun s : Shell w => s.cwd = a.dir) (fun _ => True) (fun _ => True) where
  quiet hs hcwd _ := hcwd.trans hs
  openCall _ _ hs := hs
  waitpid _ hs := hs
  waitAll hs := hs
  fork hs _ := hs
  chdir hs := chdir_named hnamed hs
  looked _ := trivial
  child _ _ _ _ _ := trivial
  fault _ := trivial

/-- A segment whose last stage is not blank takes descriptor 0 back. -/
theorem segmentOk_of_calls {o : SegOutcome} {command : CString} (hsave : o.dupIn = true)
    (ho : ∀ n, CallsOk (o.stage n)) (hends : (stages command).2 = true) :
    SegmentOk o command := by
  intro rest hrest _ _
  refine ⟨hsave, ?_, fun i _ => ⟨(ho _).pipe, (ho _).fork⟩, (ho _).restore⟩
  unfold pipedRest at hrest
  cases htok : strtok ['|'] command with
  | none =>
    rw [htok] at hrest
    cases hrest
  | some tr =>
    obtain ⟨token, rest'⟩ := tr
    rw [htok] at hrest
    dsimp only at hrest
    split at hrest
    · cases hrest
    · rename_i hne
      cases hrest
      rw [stages_piped htok hne] at hends
      exact hends

/-- From one state to the other the shell has kept every open descriptor but 0. -/
def KeepsOpen (s t : Shell w) : Prop :=
  ∀ k f, k ≠ STDIN_FILENO → s.fds.get k = some f → t.fds.get k = some f

/-- **A segment leaves the shell as it was found.** -/
theorem ShellIn.segment {o : SegOutcome} {command : CString}
    {process process' : List (Process × w.Dir)} {s t : Shell w} (hs : ShellIn env a std s)
    (hsave : o.dupIn = true) (ho : ∀ n, CallsOk (o.stage n)) (hends : (stages command).2 = true)
    (h : runSegment env o command process s = .ok (process', t)) :
    ShellIn env a std t ∧ KeepsOpen s t := by
  have hkeep : KeepsOpen s t := fun k f hk hget =>
    (((keeps_open hk f).lineRule env).runSegment (fun _ => trivial) hget (fun _ _ => trivial) h).1
  have hcwd := ((cwd_quietRule hs.named).lineRule.runSegment (fun _ => trivial) hs.cwd
    (fun _ _ => trivial) h).1
  have hinput : t.fds.get STDIN_FILENO = some std.input :=
    (segment_restores_iff hs.streams.input h).mpr (segmentOk_of_calls hsave ho hends)
  exact ⟨⟨hcwd, hs.paths, hs.named, hinput, hkeep _ _ (by decide) hs.streams.output,
    hkeep _ _ (by decide) hs.streams.errors⟩, hkeep⟩

/-- An entry of `process[]` that waits for its fork: the shell has its files open still. -/
def Pending (a : Place w) (std : Streams) (u : Shell w) (r : Redirected) (q : Process × w.Dir) :
    Prop :=
  r.words.length < MAX_ARGUMENTS_NUM ∧ q.2 = a.dir ∧
    ∃ s t, StreamsAre std s ∧ EntryReady a r s q.1 t ∧ KeepsEntry q.1 t u

theorem Pending.keeps {u v : Shell w} {r : Redirected} {q : Process × w.Dir}
    (h : Pending a std u r q) (hkeep : KeepsOpen u v) : Pending a std v r q := by
  obtain ⟨hfew, hdir, s, t, hs, hready, hu⟩ := h
  refine ⟨hfew, hdir, s, t, hs, hready, ?_⟩
  intro k hk
  obtain ⟨hfree, f, hf⟩ := hready.opened.free hk
  have hne : k ≠ STDIN_FILENO := by
    rintro rfl
    exact nomatch hfree.symm.trans hs.input
  exact (hkeep k f hne ((hu k hk).trans hf)).trans hf.symm

/-- The streams are saved, and nothing else happens. -/
theorem ShellIn.save {s : Shell w} (hs : ShellIn env a std s) (o : SegOutcome) :
    ShellIn env a std (saveStreams o s) :=
  ⟨(saveStreams_frame o s).1.trans hs.cwd, hs.paths, hs.named,
    hs.streams.congr (fun _ _ hk => saveStreams_keeps o hk)⟩

section Segment

variable {o : SegOutcome} {j : Job} {command : CString}

/-- **A segment with a `|`** runs its stages. -/
theorem runSegment_pipeline (ho : ∀ n, CallsOk (o.stage n))
    (hrun : ∀ n, (o.stage n).run = ⟨true, true, true⟩) (hj : ∀ r ∈ j.commands, r.Admissible a)
    (htwo : 2 ≤ j.stages.length)
    (hst : stages command = (j.commands.map (fun r => clean r.render), true))
    (process : List (Process × w.Dir)) {s : Shell w} (hs : ShellIn env a std s) :
    ∃ t E, runSegment env o command process s = .ok (process, t) ∧ t.trace = s.trace ++ E ∧
      StagesRun a std.output std.errors s.fresh std.input j.commands E := by
  have hlen : 2 ≤ (stages command).1.length := by
    rw [hst, List.length_map, Job.commands, List.length_map]
    exact htwo
  obtain ⟨hret, E, htrace, hruns, _⟩ :=
    handlePipe_runs ho hrun command 0 (saveStreams o s) std j.commands hst hj (hs.save o)
  obtain ⟨_, hsaveTrace, hsaveFresh⟩ := saveStreams_frame o s
  rw [hsaveTrace] at htrace
  rw [hsaveFresh] at hruns
  refine ⟨(handlePipe env o.stage 0 command false (saveStreams o s)).2, E, ?_, htrace, hruns⟩
  unfold runSegment
  rw [handlePipe_leader hlen]
  split
  · rename_i u hu
    rw [hu]
  · rename_i res u hu
    rw [hu] at hret
    cases hret
  · rename_i f u hu
    rw [hu] at hret
    cases hret

/-- The text of a single stage. -/
theorem strtok_of_stages {r : Redirected} (hst : stages command = ([clean r.render], true)) :
    ∃ token, strtok ['|'] command = some (token, []) ∧ clean token = clean r.render := by
  cases htok : strtok ['|'] command with
  | none =>
    rw [stages_null htok] at hst
    exact absurd (Prod.mk.inj hst).2 Bool.false_ne_true
  | some tr =>
    obtain ⟨token, rest⟩ := tr
    rcases eq_or_ne rest [] with rfl | hne
    · rw [stages_single htok] at hst
      exact ⟨token, rfl, (List.cons.inj (Prod.mk.inj hst).1).1⟩
    · rw [stages_piped htok hne] at hst
      obtain ⟨hnil, hends⟩ := Prod.mk.inj hst
      have hpos := length_stages_pos _ hends
      rw [(List.cons.inj hnil).2] at hpos
      cases hpos

/-- **A segment without a `|`** adds its entry. -/
theorem runSegment_command {r : Redirected} (hr : r.Admissible a)
    (hst : stages command = ([clean r.render], true)) (process : List (Process × w.Dir))
    {s : Shell w} (hs : ShellIn env a std s) :
    ∃ p t, runSegment env o command process s = .ok (process ++ [(p, a.dir)], t) ∧
      t.trace = s.trace ++ r.opens ∧ Pending a std t r (p, a.dir) := by
  obtain ⟨token, htok, htoken⟩ := strtok_of_stages hst
  have hsave := hs.save o
  obtain ⟨p, t, hp, hready, hopens⟩ := handleRedirection_ready hr hsave.cwd hsave.paths o.scratch
  refine ⟨p, t, ?_, ?_, hr.few, rfl, _, t, hsave.streams, hready, fun _ _ => rfl⟩
  · unfold runSegment
    rw [handlePipe_single htok, if_pos rfl, htoken]
    dsimp only
    rw [hp, hsave.cwd]
    rfl
  · rw [hopens.trace, (saveStreams_frame o s).2.1]

end Segment

/-! ## 5. The loop over the segments -/

theorem Job.commands_of_plain {j : Job} (h : ¬ 2 ≤ j.stages.length) :
    ∃ r, j.commands = [r] ∧ j.plain = [r] ∧ j.pipeline = none := by
  have hlen : j.stages.length = 1 := by
    have hpos := List.length_pos_iff.mpr j.stages_ne
    omega
  obtain ⟨st, hst⟩ := List.length_eq_one_iff.mp hlen
  have hcommands : j.commands = [st.toRedirected] := by
    rw [Job.commands, hst]
    rfl
  exact ⟨st.toRedirected, hcommands, (if_neg h).trans hcommands, if_neg h⟩

/-- What the loop has done to the shell and to `process[]` for a list of jobs. -/
structure JobsHandled (a : Place w) (std : Streams) (jobs : List Job) (E : List (Event w)) :
    Prop where
  pipelines : PipelinesRun a std (jobs.filterMap Job.pipeline) (E.filter (fun ev => !ev.isOpen))
  opened : E.filter Event.isOpen = (jobs.flatMap Job.plain).flatMap Redirected.opens

theorem JobsHandled.pipeline {j : Job} {jobs : List Job} {E F : List (Event w)} {m : Nat}
    (htwo : 2 ≤ j.stages.length)
    (hE : StagesRun a std.output std.errors m std.input j.commands E)
    (hF : JobsHandled a std jobs F) : JobsHandled a std (j :: jobs) (E ++ F) := by
  have hno := hE.noOpen
  have hpipeline : j.pipeline = some j.commands := if_pos htwo
  have hplain : j.plain = [] := if_pos htwo
  refine ⟨?_, ?_⟩
  · rw [List.filterMap_cons_some hpipeline, List.filter_append,
      List.filter_eq_self.mpr (fun ev hev => by rw [hno ev hev]; rfl)]
    exact .cons hE hF.pipelines
  · rw [List.flatMap_cons, hplain, List.nil_append, List.filter_append, hF.opened,
      List.filter_eq_nil_iff.mpr (fun ev hev => by rw [hno ev hev]; exact Bool.false_ne_true),
      List.nil_append]

theorem JobsHandled.command {j : Job} {r : Redirected} {jobs : List Job} {F : List (Event w)}
    (hplain : j.plain = [r]) (hpipeline : j.pipeline = none) (hF : JobsHandled a std jobs F) :
    JobsHandled a std (j :: jobs) (r.opens ++ F) := by
  have hopen : ∀ ev ∈ (r.opens : List (Event w)), ev.isOpen = true := by
    intro ev hev
    simp only [Redirected.opens, List.mem_append, List.mem_map] at hev
    rcases hev with ⟨_, _, rfl⟩ | ⟨_, _, rfl⟩ <;> rfl
  refine ⟨?_, ?_⟩
  · rw [List.filterMap_cons_none hpipeline, List.filter_append,
      List.filter_eq_nil_iff.mpr (fun ev hev => by rw [hopen ev hev]; exact Bool.false_ne_true)]
    exact hF.pipelines
  · rw [List.flatMap_cons, hplain, List.flatMap_append, List.filter_append, hF.opened,
      List.filter_eq_self.mpr hopen]
    simp

/-- **The segment loop**, by induction on the segments: blank ones are skipped, a pipeline is run,
and a plain command waits in `process[]`. -/
theorem runSegments_run {o : LineOutcome} (ho : AllSucceed o) : ∀ (i : Nat)
    (segments : List CString) (jobs : List Job) (rs : List Redirected)
    (process : List (Process × w.Dir)) (s : Shell w),
    (∀ c ∈ segments, ∀ x ∈ c, inLine x = true) →
    (segments.filter (fun c => !(clean c).isEmpty)).map clean = jobs.map (fun j => clean j.text) →
    (∀ j ∈ jobs, ∀ r ∈ j.commands, r.Admissible a) → ShellIn env a std s →
    List.Forall₂ (Pending a std s) rs process →
    ∃ process' t E, runSegments env o i segments process s = .ok (process', t) ∧
      t.trace = s.trace ++ E ∧ ShellIn env a std t ∧ JobsHandled a std jobs E ∧
      List.Forall₂ (Pending a std t) (rs ++ jobs.flatMap Job.plain) process'
  | i, [], jobs, rs, process, s, _, hjobs, _, hs, hpending => by
    obtain rfl : jobs = [] := List.map_eq_nil_iff.mp hjobs.symm
    refine ⟨process, s, [], rfl, (List.append_nil _).symm, hs, ⟨.nil, rfl⟩, ?_⟩
    simpa using hpending
  | i, command :: segments, jobs, rs, process, s, hline, hjobs, hadm, hs, hpending => by
    obtain ⟨hcommand, hsegments⟩ := List.forall_mem_cons.mp hline
    rw [runSegments]
    by_cases hblank : clean command = []
    · rw [if_pos hblank]
      rw [List.filter_cons_of_neg (by simp [hblank])] at hjobs
      exact runSegments_run ho (i + 1) segments jobs rs process s hsegments hjobs hadm hs hpending
    · rw [if_neg hblank]
      rw [List.filter_cons_of_pos (by simp [hblank]), List.map_cons] at hjobs
      obtain ⟨j, jobs, rfl, hj, hjobs⟩ := List.map_eq_cons_iff.mp hjobs.symm
      obtain ⟨hadmj, hadms⟩ := List.forall_mem_cons.mp hadm
      have hst := stages_of_clean hcommand hj.symm
      have hends : (stages command).2 = true := by rw [hst]
      by_cases htwo : 2 ≤ j.stages.length
      · obtain ⟨t, E, hcall, htrace, hruns⟩ := @runSegment_pipeline w env a std (o.seg i) j command
          (ho.stage i) (ho.stageRun i) hadmj htwo hst process s hs
        obtain ⟨ht, hkeep⟩ := hs.segment (ho.save i) (ho.stage i) hends hcall
        obtain ⟨process', u, F, hrest, hutrace, hu, hF, hpending'⟩ := runSegments_run ho (i + 1)
          segments jobs rs process t hsegments hjobs.symm hadms ht
          (hpending.imp (fun _ _ h => h.keeps hkeep))
        refine ⟨process', u, E ++ F, ?_, ?_, hu, hF.pipeline htwo hruns, ?_⟩
        · rw [hcall]
          exact hrest
        · rw [hutrace, htrace, List.append_assoc]
        · rw [List.flatMap_cons, show j.plain = [] from if_pos htwo, List.nil_append]
          exact hpending'
      · obtain ⟨r, hcommands, hplain, hpipeline⟩ := Job.commands_of_plain htwo
        rw [hcommands] at hst hadmj
        obtain ⟨p, t, hcall, htrace, hnew⟩ := @runSegment_command w env a std (o.seg i) command r
          (hadmj r List.mem_cons_self) hst process s hs
        obtain ⟨ht, hkeep⟩ := hs.segment (ho.save i) (ho.stage i) hends hcall
        obtain ⟨process', u, F, hrest, hutrace, hu, hF, hpending'⟩ := runSegments_run ho (i + 1)
          segments jobs (rs ++ [r]) (process ++ [(p, a.dir)]) t hsegments hjobs.symm hadms ht
          (List.rel_append (hpending.imp (fun _ _ h => h.keeps hkeep)) (.cons hnew .nil))
        refine ⟨process', u, r.opens ++ F, ?_, ?_, hu, hF.command hplain hpipeline, ?_⟩
        · rw [hcall]
          exact hrest
        · rw [hutrace, htrace, List.append_assoc]
        · rw [List.flatMap_cons, hplain, ← List.append_assoc]
          exact hpending'

/-! ## 6. The children of the plain commands -/

/-- `run_processes` starts a program for each entry. -/
theorem forkProcesses_run {o : LineOutcome} (ho : AllSucceed o) : ∀ (number : Nat)
    (rs : List Redirected) (process : List (Process × w.Dir)) (s : Shell w),
    List.Forall₂ (Pending a std s) rs process → s.cwd = a.dir → StreamsAre std s →
    ∃ Q, forkProcesses o number process s = .ok { s with trace := s.trace ++ Q } ∧
      CommandsRun a std rs Q
  | _, [], _, s, .nil, _, _ => ⟨[], by rw [List.append_nil]; rfl, .nil⟩
  | number, r :: rs, (p, dir) :: ps, s, .cons hpending hrest, hcwd, hstd => by
    obtain ⟨hfew, rfl, s₀, t₀, hs₀, hready, hkeep⟩ := hpending
    obtain ⟨e, he, hlaunched, _⟩ := hready.launched hfew hs₀.open hkeep hcwd hstd
    obtain ⟨Q, hQ, hrun⟩ := forkProcesses_run ho (number + 1) rs ps
      (s.log (.fork (.execv e))) hrest hcwd ⟨hstd.input, hstd.output, hstd.errors⟩
    refine ⟨.fork (.execv e) :: Q, ?_, .cons ⟨e, rfl, hlaunched⟩ hrun⟩
    rw [forkProcesses, if_pos (ho.fork number), ho.run number, he, hQ]
    simp [Shell.log]

/-! ## 7. The line -/

theorem Job.clean_text_ne (j : Job) : clean j.text ≠ [] := by
  intro hnil
  have hempty : ∀ c ∈ ([] : CString), inLine c = true := by simp
  have hst := stages_of_clean hempty hnil.symm
  have hnone : strtok ['|'] [] = none := rfl
  rw [stages_null hnone] at hst
  exact absurd (Prod.mk.inj hst).2 Bool.false_ne_true

namespace Segment

theorem text_forall {P : Char → Prop} (h : CommandChars P) (hbar : P '|') (g : Segment) :
    ∀ c ∈ g.text, P c := by
  cases g with
  | blank spaces => exact h.spaces spaces
  | job j => exact j.text_forall h hbar

/-- The segments that are not blank are the jobs. -/
theorem filter_clean (segments : List Segment) :
    ((segments.map text).map (squeeze isBlank)).filter (fun c => !c.isEmpty) =
      (segments.filterMap toJob).map (fun j => clean j.text) := by
  induction segments with
  | nil => rfl
  | cons g segments ih =>
    rw [List.map_cons, List.map_cons]
    cases g with
    | blank spaces =>
      have hnil : squeeze isBlank (text (.blank spaces)) = [] := by
        refine squeeze_eq_nil_iff.mpr ?_
        intro c hc
        rw [List.eq_of_mem_replicate hc]
        rfl
      rw [List.filter_cons_of_neg (by simp [hnil]), ih]
      rfl
    | job j =>
      have hclean : squeeze isBlank (text (.job j)) = clean j.text :=
        (clean_of_inLine (j.text_forall .inLine rfl)).symm
      have hne := j.clean_text_ne
      rw [hclean, List.filter_cons_of_pos (by simp [hne]), ih]
      rfl

end Segment

section Line

variable {segments : List Segment}

theorem line_forall {P : Char → Prop} (h : CommandChars P) (hbar : P '|') (hamp : P '&') :
    ∀ c ∈ join '&' (segments.map Segment.text), P c := by
  refine join_forall hamp ?_
  intro text htext
  obtain ⟨g, _, rfl⟩ := List.mem_map.mp htext
  exact g.text_forall h hbar

theorem pieces_line (hne : segments ≠ []) :
    pieces '&' (join '&' (segments.map Segment.text)) = segments.map Segment.text := by
  refine pieces_join (by simpa using hne) ?_
  intro text htext hmem
  obtain ⟨g, _, rfl⟩ := List.mem_map.mp htext
  exact g.text_forall .noAmp (by decide) _ hmem rfl

/-- **What `&` and `clean` make of the line**: no more slots than segments, and those that are not
blank hold the jobs. -/
theorem singleCommands_line {line : CString}
    (hline : clean line = clean (join '&' (segments.map Segment.text))) :
    (singleCommands line).length ≤ segments.length ∧
      ((singleCommands line).filter (fun c => !(clean c).isEmpty)).map clean =
        (segments.filterMap Segment.toJob).map (fun j => clean j.text) := by
  have hsame : singleCommands line = singleCommands (join '&' (segments.map Segment.text)) :=
    congrArg (strtokAll ['&']) hline
  have hfirst : firstLine (join '&' (segments.map Segment.text)) =
      join '&' (segments.map Segment.text) :=
    List.takeWhile_eq_self_iff.mpr (line_forall .inLine rfl rfl)
  rw [hsame]
  rcases eq_or_ne segments [] with rfl | hne
  · have hnil : singleCommands [] = [] := by
      rw [singleCommands_eq]
      rfl
    exact ⟨(congrArg List.length hnil).le, by rw [show join '&' _ = [] from rfl, hnil]; rfl⟩
  · refine ⟨?_, ?_⟩
    · have hlen := congrArg List.length (map_squeeze_pieces (c := '&') (p := isBlank) rfl
        (join '&' (segments.map Segment.text)))
      rw [List.length_map, List.length_map, pieces_line hne, List.length_map] at hlen
      rw [singleCommands_eq, hfirst, ← hlen]
      exact List.length_filter_le _ _
    · rw [clean_singleCommands, hfirst, pieces_line hne, Segment.filter_clean]

theorem CommandsRun.noOpen {rs : List Redirected} {Q : List (Event w)}
    (h : CommandsRun a std rs Q) : ∀ ev ∈ Q, ev.isOpen = false := by
  induction h with
  | nil => simp
  | cons hev _ ih =>
    obtain ⟨e, rfl, _⟩ := hev
    exact List.forall_mem_cons.mpr ⟨rfl, ih⟩

/-- **`parse_command` on a text that cleans to the jobs of a line** does what the line means, and
leaves the shell where and how it was. -/
theorem parseCommand_runs {o : LineOutcome} (ho : AllSucceed o)
    (hlen : segments.length < MAX_ARGUMENTS_NUM)
    (hadm : ∀ j ∈ segments.filterMap Segment.toJob, ∀ r ∈ j.commands, r.Admissible a)
    {line : CString} (hline : clean line = clean (join '&' (segments.map Segment.text)))
    {s : Shell w} (hs : ShellIn env a std s) :
    ∃ t E, parseCommand o line env s = .ok t ∧ t.trace = s.trace ++ E ∧ ShellIn env a std t ∧
      LineRuns a std (segments.filterMap Segment.toJob) E := by
  obtain ⟨hslots, hjobs⟩ := singleCommands_line hline
  obtain ⟨process, u, E, hloop, htrace, hu, hhandled, hpending⟩ := runSegments_run (a := a) ho 0
    (singleCommands line) _ [] [] s
    (fun c hc x hx => inLine_firstLine x (mem_singleCommands hc x hx)) hjobs hadm hs .nil
  rw [List.nil_append] at hpending
  have hcwd : (u.chdir env.cwdString).cwd = a.dir := chdir_named hs.named hu.cwd
  obtain ⟨Q, hforks, hrun⟩ := forkProcesses_run ho 0 _ process (u.chdir env.cwdString) hpending
    hcwd ⟨hu.streams.input, hu.streams.output, hu.streams.errors⟩
  have hempty : process = [] ↔ (segments.filterMap Segment.toJob).flatMap Job.plain = [] := by
    rw [← List.length_eq_zero_iff, ← List.length_eq_zero_iff, hpending.length_eq]
  let W : List (Event w) := if process = [] then [] else [.waitAll]
  have hW : ∀ ev ∈ W, ev.isOpen = false := by
    intro ev hev
    dsimp only [W] at hev
    split at hev
    · cases hev
    · rw [List.mem_singleton.mp hev]
      rfl
  have htail : ∀ ev ∈ Q ++ W, ev.isOpen = false := by
    intro ev hev
    rcases List.mem_append.mp hev with hev | hev
    · exact hrun.noOpen ev hev
    · exact hW ev hev
  have hshown : (Q ++ W).filter (fun ev => !ev.isOpen) = Q ++ W :=
    List.filter_eq_self.mpr (fun ev hev => by rw [htail ev hev]; rfl)
  have hopened : (Q ++ W).filter Event.isOpen = [] :=
    List.filter_eq_nil_iff.mpr (fun ev hev => by rw [htail ev hev]; exact Bool.false_ne_true)
  refine ⟨{ u.chdir env.cwdString with trace := u.trace ++ Q ++ W }, E ++ (Q ++ W), ?_, ?_, ?_, ?_⟩
  · unfold parseCommand
    rw [if_neg (Nat.not_le.mpr (Nat.lt_of_le_of_lt hslots hlen)), hloop]
    dsimp only [bind, Except.bind]
    unfold runProcesses
    rw [hforks]
    dsimp only [Except.map, W]
    split
    · rw [List.append_nil]
      rfl
    · rfl
  · dsimp only
    rw [htrace]
    simp only [List.append_assoc]
  · exact ⟨hcwd, hs.paths, hs.named, hu.streams.input, hu.streams.output, hu.streams.errors⟩
  · refine ⟨⟨_, Q, hhandled.pipelines, hrun, ?_⟩, ?_⟩
    · rw [List.filter_append, hshown, List.append_assoc]
      simp only [W, hempty]
    · rw [List.filter_append, hhandled.opened, hopened, List.append_nil]

end Line

end Osexp.Seush
