/-
# How a pipeline is wired

A segment is `n` nonblank stages joined by single `|`, without redirections, and every call
succeeds.  Then `handle_pipe` forks the stages from left to right, and each is connected to the
next (`Wired`): the standard output of one is the write end of a pipe whose read end is the
standard input of the next, and when the one has exited nobody holds that write end any more.

The descriptors are always right (`pipeline_events`).  What the children run is not always what
was typed: `handle_redirection` copies the stage with a scan set that stops at a tab, into a
buffer of 200 bytes, and `argv` has room for 99 words and the final NULL.  `clean` keeps the first
blank of every run, so a tab between two words is still there.  `pipeline_wired_iff` says that the
pipeline is as it should be exactly when no stage meets one of these limits (`StageOk`).

`wired_composes` draws the conclusion for programs seen as functions on byte strings.
-/
import Osexp.Seush.Loop
import Osexp.Seush.Redirection

namespace Osexp.Seush

open Text

variable {w : World} {env : Environment}

/-! ## 1. The stages of a joined text -/

theorem clean_of_inLine {s : CString} (h : ∀ c ∈ s, inLine c = true) :
    clean s = squeeze isBlank s := by
  rw [clean_eq, firstLine, List.takeWhile_eq_self_iff.mpr h]

theorem isBlank_bar : isBlank '|' = false := rfl

/-- The first stage of a text, and what is left. -/
theorem strtok_bar {line : CString}
    (hne : ∀ q ∈ pieces '|' line, squeeze isBlank q ≠ []) :
    pieces '|' line = [line] ∧ strtok ['|'] line = some (line, []) ∨
      ∃ q rest, rest ≠ [] ∧ line = q ++ '|' :: rest ∧ strtok ['|'] line = some (q, rest) ∧
        pieces '|' line = q :: pieces '|' rest := by
  have hword : ∀ q : CString, '|' ∉ q → ∀ x ∈ q, ['|'].contains x = false := by
    intro q hq x hx
    have hxne : x ≠ '|' := fun he => hq (he ▸ hx)
    simp [hxne]
  have hnil : ∀ q : CString, squeeze isBlank q ≠ [] → q ≠ [] := by
    rintro q hq rfl
    exact hq rfl
  rcases pieces_cases '|' line with ⟨hbar, hp⟩ | ⟨q, rest, hbar, hline, hp⟩
  · have hq := hnil line (hne line (by simp [hp]))
    exact Or.inl ⟨hp, nextToken_of_word hq (hword line hbar)⟩
  · have hq := hnil q (hne q (by simp [hp]))
    refine Or.inr ⟨q, rest, ?_, hline, ?_, hp⟩
    · rintro rfl
      exact hne [] (by simp [hp, pieces]) rfl
    · rw [hline]
      exact nextToken_append_cons (c := '|') hq (hword q hbar) (by decide) _

/-- **The recursion runs the stages that the separators cut out, each cleaned.**  By induction
along the pipeline: cleaning what is left does not move anything across a `|`. -/
theorem stages_eq (line : CString) : (∀ c ∈ line, inLine c = true) →
    (∀ q ∈ pieces '|' line, squeeze isBlank q ≠ []) →
    stages line = ((pieces '|' line).map (squeeze isBlank), true) := by
  induction line using pipeline_induction with
  | null line h =>
    intro _ hne
    rcases strtok_bar hne with ⟨_, hs⟩ | ⟨q, rest, _, _, hs, _⟩
    · rw [h] at hs
      cases hs
    · rw [h] at hs
      cases hs
  | single line token h =>
    intro hin hne
    rcases strtok_bar hne with ⟨hp, hs⟩ | ⟨q, rest, hr, _, hs, _⟩
    · rw [h] at hs
      cases hs
      rw [stages_single h, hp, clean_of_inLine hin]
      rfl
    · rw [h] at hs
      cases hs
      exact absurd rfl hr
  | piped line token rest h hr ih =>
    intro hin hne
    rcases strtok_bar hne with ⟨hp, hs⟩ | ⟨q, rest', _, hline, hs, hp⟩
    · rw [h] at hs
      cases hs
      exact absurd rfl hr
    · rw [h] at hs
      cases hs
      have hrest : ∀ c ∈ rest, inLine c = true :=
        fun c hc => hin c (hline ▸ List.mem_append_right _ (List.mem_cons_of_mem _ hc))
      have htoken : ∀ c ∈ token, inLine c = true :=
        fun c hc => hin c (hline ▸ List.mem_append_left _ hc)
      have hmap := map_squeeze_pieces isBlank_bar rest
      rw [clean_of_inLine hrest] at ih
      have hne' : ∀ q ∈ pieces '|' (squeeze isBlank rest), squeeze isBlank q ≠ [] := by
        intro q hq
        have hmem := List.mem_map_of_mem (f := squeeze isBlank) hq
        rw [hmap] at hmem
        obtain ⟨v, hv, hvq⟩ := List.mem_map.mp hmem
        rw [← hvq]
        exact hne v (hp ▸ List.mem_cons_of_mem _ hv)
      rw [stages_piped h hr, clean_of_inLine hrest,
        ih (fun c hc => hrest c (mem_of_mem_squeeze hc)) hne', hmap, hp, List.map_cons,
        clean_of_inLine htoken]

/-! ## 2. One stage -/

/-- The words of a stage. -/
def words (stage : CString) : List CString := tokens isBlank stage

/-- A stage as `handle_pipe` hands it on: cleaned, not blank, without redirections. -/
structure IsStage (c : CString) : Prop where
  ne : c ≠ []
  cleaned : squeeze isBlank c = c
  line : ∀ x ∈ c, inLine x = true
  noRedi : ∀ x ∈ c, x ≠ '<' ∧ x ≠ '>'

/-- The lookup of the program succeeds. -/
def programFound (env : Environment) (cwd : w.Dir) : List CString → Bool
  | [] => false
  | name :: _ => w.access cwd name || (searchPaths cwd name env.paths).isSome

/-- The limits of `handle_redirection` that a cleaned stage must respect: no tab, a text that
fits in `command_noredi`, and room for the NULL in the `argv` of a program that is started. -/
structure StageOk (env : Environment) (cwd : w.Dir) (c : CString) : Prop where
  noTab : '\t' ∉ c
  short : c.length < MAX_COMMAND_NOREDI
  few : (words c).length < MAX_ARGUMENTS_NUM ∨ programFound env cwd (words c) = false

/-- What the first scan set takes of a stage. -/
def scanned (c : CString) : CString := c.takeWhile inScanset

theorem scan_lit_absent {a : Char} {ds : List Directive} {rest : CString} (h : a ∉ rest) :
    scan (.blank :: .lit a :: ds) rest = [] := by
  rw [scan]
  cases hd : rest.dropWhile isSpace with
  | nil => rfl
  | cons x t =>
    have hx : x ∈ rest := (List.dropWhile_sublist isSpace).subset (hd ▸ List.mem_cons_self)
    rw [scan, if_neg (fun he : x = a => h (he ▸ hx))]

namespace IsStage

variable {c : CString}

theorem scanned_ne (h : IsStage c) : scanned c ≠ [] := by
  obtain ⟨x, t, rfl⟩ := List.exists_cons_of_ne_nil h.ne
  have hblank := squeeze_cons h.cleaned
  have hline := h.line x List.mem_cons_self
  obtain ⟨hlt, hgt⟩ := h.noRedi x List.mem_cons_self
  have hin : inScanset x = true := by
    simp only [isBlank, inLine, inScanset, Bool.or_eq_false_iff, Bool.and_eq_true, bne_iff_ne,
      beq_eq_false_iff_ne] at *
    exact ⟨⟨⟨hblank.2, hline.2⟩, hlt⟩, hgt⟩
  rw [scanned, List.takeWhile_cons_of_pos hin]
  exact List.cons_ne_nil _ _

/-- Every format takes the stage up to its first tab, and stops. -/
theorem scan_eq (h : IsStage c) {a b : Char} (ha : a = '<' ∨ a = '>') :
    scan (format₂ a) c = [scanned c] ∧ scan (format₃ a b) c = [scanned c] := by
  have hsplit : scanned c ++ c.dropWhile inScanset = c := List.takeWhile_append_dropWhile
  have habs : a ∉ c.dropWhile inScanset := by
    intro hm
    have hmem : a ∈ c := (List.dropWhile_sublist inScanset).subset hm
    obtain ⟨hlt, hgt⟩ := h.noRedi a hmem
    rcases ha with rfl | rfl
    · exact hlt rfl
    · exact hgt rfl
  have hstop : ∀ x ∈ (c.dropWhile inScanset).head?, inScanset x = false := by
    intro x hx
    have hhead := List.head?_dropWhile_not inScanset c
    rw [Option.mem_def.mp hx] at hhead
    simpa using hhead
  have hfirst : ∀ ds, scan (.scanset :: .blank :: .lit a :: ds) c = [scanned c] := by
    intro ds
    have hitem := @scan_item (.blank :: .lit a :: ds) _ _ h.scanned_ne
      (fun x hx => List.mem_takeWhile_imp hx) hstop
    rw [hsplit, scan_lit_absent habs] at hitem
    exact hitem
  exact ⟨hfirst _, hfirst _⟩

/-- The four attempts find no redirection, and overflow the buffer when the text is too long. -/
theorem scanRedirection_eq (h : IsStage c) (b : Scratch) :
    ((scanned c).length < MAX_COMMAND_NOREDI →
        ∃ d, scanRedirection c b = .ok (.noRedi, d) ∧ d .commandNoredi = scanned c) ∧
      (MAX_COMMAND_NOREDI ≤ (scanned c).length →
        scanRedirection c b = .error (.overflow .commandNoredi)) := by
  obtain ⟨hC, hB⟩ := @scan_eq c h '<' '>' (Or.inl rfl)
  obtain ⟨hD, hA⟩ := @scan_eq c h '>' '<' (Or.inr rfl)
  constructor
  · intro hlt
    have hfit : (scanned c).length < Buffer.size .commandNoredi := hlt
    rw [Osexp.Seush.scanRedirection_eq hA hB hC hD (by simp [hfit]) (by simp [hfit])
      (by simp [hfit]) (by simp [hfit])]
    exact ⟨_, rfl, rfl⟩
  · intro hge
    unfold scanRedirection sscanf
    rw [hA]
    simp only [List.zip_cons_cons, List.zip_nil_right, Scratch.store]
    have hover : ¬ (scanned c).length < Buffer.size .commandNoredi := Nat.not_lt.mpr hge
    rw [if_neg hover]
    rfl

/-- Without a tab the words are those between the spaces. -/
theorem strtokAll_of_noTab {u : CString} (hline : ∀ x ∈ u, inLine x = true) (htab : '\t' ∉ u) :
    strtokAll [' '] (Osexp.Seush.clean u) = words u := by
  rw [strtokAll_eq, clean_of_inLine hline, words, ← tokens_squeeze u]
  refine tokens_congr ?_
  intro x hx
  have hne : (x == '\t') = false :=
    beq_eq_false_iff_ne.mpr (fun he => htab (he ▸ mem_of_mem_squeeze hx))
  simp only [isBlank, hne, List.contains_cons, List.contains_nil]

theorem scanned_of_noTab (h : IsStage c) (htab : '\t' ∉ c) : scanned c = c := by
  refine List.takeWhile_eq_self_iff.mpr ?_
  intro x hx
  have hne : x ≠ '\t' := fun he => htab (he ▸ hx)
  have hline := h.line x hx
  obtain ⟨hlt, hgt⟩ := h.noRedi x hx
  simp only [inLine, inScanset, Bool.and_eq_true, bne_iff_ne] at *
  exact ⟨⟨⟨hne, hline.2⟩, hlt⟩, hgt⟩

/-- The words before the first tab are all words only when there is no tab. -/
theorem noTab_of_words (h : IsStage c)
    (heq : strtokAll [' '] (Osexp.Seush.clean (scanned c)) = words c) : '\t' ∉ c := by
  intro htab
  have hsplit : scanned c ++ c.dropWhile inScanset = c := List.takeWhile_append_dropWhile
  have hscan : '\t' ∉ scanned c := by
    intro hm
    have hin : inScanset '\t' = true := List.mem_takeWhile_imp hm
    exact absurd hin (by decide)
  have hline : ∀ x ∈ scanned c, inLine x = true :=
    fun x hx => h.line x ((List.takeWhile_sublist _).subset hx)
  rw [strtokAll_of_noTab hline hscan] at heq
  cases hd : c.dropWhile inScanset with
  | nil =>
    rw [hd, List.append_nil] at hsplit
    exact hscan (hsplit.symm ▸ htab)
  | cons x v =>
    have hx : x ∈ c := (List.dropWhile_sublist inScanset).subset (hd ▸ List.mem_cons_self)
    have hxt : x = '\t' := by
      have hhead := List.head?_dropWhile_not inScanset c
      rw [hd] at hhead
      have hnot : inScanset x = false := by simpa using hhead
      have hxline := h.line x hx
      obtain ⟨hlt, hgt⟩ := h.noRedi x hx
      by_contra hne
      simp only [inLine, inScanset, Bool.and_eq_true, bne_iff_ne] at hxline hnot
      simp [hne, hxline.2, hlt, hgt] at hnot
    subst hxt
    rw [hd] at hsplit
    -- a word follows the tab, since a cleaned text does not end in a blank
    have hv : tokens isBlank v ≠ [] := by
      intro hnil
      have hblank := tokens_eq_nil_iff.mp hnil
      have hcut : squeeze isBlank c = squeeze isBlank (scanned c) := by
        conv_lhs => rw [← hsplit]
        exact squeezeFrom_append_blanks (List.forall_mem_cons.mpr ⟨rfl, hblank⟩) false _
      have hle := length_squeeze_le (p := isBlank) (scanned c)
      rw [← hcut, h.cleaned] at hle
      have hlen := congrArg List.length hsplit
      rw [List.length_append, List.length_cons] at hlen
      omega
    have happ : words c = words (scanned c) ++ tokens isBlank v := by
      conv_lhs => rw [← hsplit]
      exact tokens_append_cons rfl _ _
    rw [happ] at heq
    exact hv (List.self_eq_append_right.mp heq)

/-- A cleaned stage has a word, and no more than the text has room for. -/
theorem length_words (h : IsStage c) (htab : '\t' ∉ c) (hlen : c.length < MAX_COMMAND_NOREDI) :
    words c ≠ [] ∧ (words c).length ≤ MAX_ARGUMENTS_NUM := by
  have hjoin : c = join ' ' (words c) := by
    have hsp : ∀ x ∈ squeeze isBlank c, isBlank x = true → x = ' ' := by
      intro x hx hb
      have hne : x ≠ '\t' := fun he => htab (he ▸ mem_of_mem_squeeze hx)
      simpa [isBlank, hne] using hb
    conv_lhs => rw [← h.cleaned]
    exact squeeze_eq_join hsp
  refine ⟨?_, ?_⟩
  · intro hnil
    rw [hnil] at hjoin
    exact h.ne hjoin
  · have htwo := two_mul_length_le_join (fun word hw => (mem_tokens hw).1 : ∀ v ∈ words c, v ≠ [])
    rw [← hjoin] at htwo
    simp only [MAX_COMMAND_NOREDI, MAX_ARGUMENTS_NUM] at *
    omega

end IsStage

/-! ## 3. The child of a stage -/

theorem findExec_execPath {cwd : w.Dir} {p q : Process} (h : findExec env cwd p = .ok q)
    (hpath : p.execPath = none) :
    q.execPath = none ↔ programFound env cwd p.argv = false := by
  unfold findExec at h
  cases hargv : p.argv with
  | nil =>
    rw [hargv] at h
    dsimp only at h
    split at h
    · cases h
      simp [programFound, hpath]
    · cases h
  | cons name args =>
    rw [hargv] at h
    dsimp only at h
    cases hacc : w.access cwd name with
    | true =>
      rw [if_pos hacc] at h
      cases h
      simp [programFound, hacc]
    | false =>
      rw [if_neg (by simp [hacc])] at h
      cases h
      simp [programFound, hacc]

/-- Without redirections a child goes straight to `execv`. -/
theorem runProcess_noRedi {o : RunOutcome} {dir : w.Dir} {p : Process} {s : Shell w}
    (h : p.redirected = .noRedi) : runProcess o dir p s = execv dir p s := by
  unfold runProcess
  rw [h]
  rfl

/-- What `handle_redirection` returns for a text without redirections. -/
theorem handleRedirection_noRedi {b d : Scratch} {line : CString} {p : Process} {s t : Shell w}
    (hscan : scanRedirection line b = .ok (.noRedi, d))
    (h : handleRedirection b line {} env s = .ok (p, t)) :
    t = s ∧ p.redirected = .noRedi ∧ p.argv = strtokAll [' '] (clean (d .commandNoredi)) ∧
      (p.rediInfd = none ∧ p.rediOutfd = none) ∧
      (p.execPath = none ↔ programFound env s.cwd p.argv = false) := by
  unfold handleRedirection at h
  rw [hscan] at h
  dsimp only [bind, Except.bind] at h
  split at h
  · cases h
  · obtain ⟨q, hq, hp⟩ := map_eq_ok h
    cases hp
    obtain ⟨hargv, hred, hin, hout⟩ := findExec_spec hq
    have hpath := findExec_execPath hq rfl
    rw [← hargv] at hpath
    exact ⟨rfl, hred, hargv, ⟨hin, hout⟩, hpath⟩

/-- **A stage within the limits runs its words**, on the descriptors of the child.  The limits are
those of `StageOk`, which the text alone decides. -/
theorem exec_of_stageOk {c : CString} {s : Shell w} (hc : IsStage c)
    (hok : StageOk env s.cwd c) (o : StageOutcome) :
    ∃ e, handleRedirectionExec o c env s = .execv e ∧ e.argv = words c ∧ e.fds = s.fds := by
  obtain ⟨htab, hshort, hfew⟩ := hok
  have hscanned := hc.scanned_of_noTab htab
  obtain ⟨d, hscan, hd⟩ := (hc.scanRedirection_eq o.scratch).1 (by rw [hscanned]; exact hshort)
  have hargv : strtokAll [' '] (clean (d .commandNoredi)) = words c := by
    rw [hd, hscanned]
    exact IsStage.strtokAll_of_noTab hc.line htab
  obtain ⟨hne, hlen⟩ := hc.length_words htab hshort
  obtain ⟨p, t, hp⟩ := @handleRedirection_returns _ _ _ _ _ env s hscan
    (by rw [hargv]; exact hne) (by rw [hargv]; exact hlen)
  obtain ⟨rfl, hred, hpargv, _, hpath⟩ := handleRedirection_noRedi hscan hp
  have hwords := hpargv.trans hargv
  unfold handleRedirectionExec
  rw [hp]
  dsimp only
  rw [runProcess_noRedi hred]
  unfold execv
  split
  · exact ⟨_, rfl, hwords, rfl⟩
  · rename_i path hsome
    have hfound : ¬ programFound env t.cwd (words c) = false := by
      rw [← hwords, ← hpath, hsome]
      exact Option.some_ne_none path
    have hargc : ¬ MAX_ARGUMENTS_NUM ≤ p.argc := by
      rw [Process.argc, hwords]
      exact Nat.not_le.mpr (hfew.resolve_right hfound)
    rw [if_neg hargc]
    exact ⟨_, rfl, hwords, rfl⟩

/-- A stage that gets to its `execv` has been read whole, and has no redirection. -/
theorem IsStage.exec_spec {c : CString} {s : Shell w} (hc : IsStage c) {o : StageOutcome}
    {e : Exec w} (h : handleRedirectionExec o c env s = .execv e) :
    ∃ p : Process, (scanned c).length < MAX_COMMAND_NOREDI ∧
      p.argv = strtokAll [' '] (clean (scanned c)) ∧
      (p.execPath = none ↔ programFound env s.cwd p.argv = false) ∧
      execv s.cwd p (s.chdir env.cwdString) = .execv e := by
  obtain ⟨hfits, hover⟩ := hc.scanRedirection_eq o.scratch
  unfold handleRedirectionExec at h
  split at h
  · cases h
  · rename_i p t hp
    obtain ⟨type, d, hscan, _⟩ := handleRedirection_shell hp
    have hlt : (scanned c).length < MAX_COMMAND_NOREDI := by
      by_contra hge
      rw [hover (Nat.not_lt.mp hge)] at hscan
      cases hscan
    obtain ⟨d', hscan', hd⟩ := hfits hlt
    obtain ⟨rfl, hred, hargv, _, hpath⟩ := handleRedirection_noRedi hscan' hp
    rw [runProcess_noRedi hred] at h
    rw [hd] at hargv
    exact ⟨p, hlt, hargv, hpath, h⟩

/-- A stage that runs its words is within the limits. -/
theorem stageOk_of_exec {c : CString} {s : Shell w} (hc : IsStage c) {o : StageOutcome}
    {e : Exec w} (h : handleRedirectionExec o c env s = .execv e) (hargv : e.argv = words c) :
    StageOk env s.cwd c := by
  obtain ⟨p, hlt, hpargv, hpath, hexec⟩ := hc.exec_spec h
  obtain ⟨he, hstops⟩ := execv_eq_execv hexec
  have hwords : p.argv = words c := by
    rw [← hargv, he]
  have htab := hc.noTab_of_words (hpargv.symm.trans hwords)
  refine ⟨htab, hc.scanned_of_noTab htab ▸ hlt, ?_⟩
  rw [← hwords]
  rcases hstops with ⟨hnone, _⟩ | hfew
  · exact Or.inr (hpath.mp hnone)
  · exact Or.inl hfew

/-- The descriptors of a stage at its `execv` are those of the child. -/
theorem exec_fds {c : CString} {s : Shell w} (hc : IsStage c) {o : StageOutcome} {e : Exec w}
    (h : handleRedirectionExec o c env s = .execv e) : e.fds = s.fds := by
  obtain ⟨p, _, _, _, hexec⟩ := hc.exec_spec h
  exact congrArg Exec.fds (execv_eq_execv hexec).1

/-! ## 4. The descriptors of a piped stage -/

/-- Every call for the stage succeeds. -/
structure CallsOk (o : StageOutcome) : Prop where
  pipe : o.pipe = true
  fork : o.fork = true
  childDup : o.childDup = true
  parentDup : o.parentDup = true
  restore : o.restore = true

/-- The child of a piped stage when it gets to its command. -/
def pipedSetup (o : StageOutcome) (s : Shell w) : Shell w :=
  let s := s.close s.fd.1
  let s := s.close STDOUT_FILENO
  let s := (s.dup o.childDup s.fd.2).2
  s.close s.fd.2

theorem pipedChild_eq (o : StageOutcome) (firstCommand : CString) (s : Shell w) :
    pipedChild o firstCommand env s = handleRedirectionExec o firstCommand env (pipedSetup o s) :=
  rfl

/-- **The child of a piped stage**, when it gets to its command: its standard input is the
shell's, its standard output the new pipe, and it has nothing else that the shell had not. -/
theorem pipedSetup_fds {o : StageOutcome} {ok : Bool} {s t : Shell w} {A B : OpenFile}
    (hdup : o.childDup = true) (h : s.pipe ok = some t) (h0 : s.fds.get STDIN_FILENO = some A)
    (h1 : s.fds.get STDOUT_FILENO = some B) :
    (pipedSetup o t).cwd = t.cwd ∧ (pipedSetup o t).fds.get STDIN_FILENO = some A ∧
      (pipedSetup o t).fds.get STDOUT_FILENO = some (.pipeWrite s.fresh) ∧
      ∀ F : OpenFile, F.MadeBefore s.fresh → (pipedSetup o t).fds.Refers F → s.fds.Refers F := by
  have hends := pipe_ends h
  -- the child after `close(fd[0]); close(STDOUT_FILENO)`
  let d : Shell w := (t.close t.fd.1).close STDOUT_FILENO
  have hdget : ∀ k, k ≠ STDOUT_FILENO → k ≠ t.fd.1 → d.fds.get k = t.fds.get k := by
    intro k hk1 hk2
    exact (FdTable.get_close_ne _ hk1).trans (FdTable.get_close_ne _ hk2)
  have hd1 : d.fds.get STDOUT_FILENO = none := FdTable.get_close_same _ _
  have hopen : ∀ {k : Nat} {f : OpenFile}, s.fds.get k = some f → k ≠ t.fd.1 ∧ k ≠ t.fd.2 := by
    intro k f hk
    refine ⟨?_, ?_⟩
    · rintro rfl
      rw [hends.readFree] at hk
      cases hk
    · rintro rfl
      rw [hends.writeFree] at hk
      cases hk
  obtain ⟨h0r, h0w⟩ := hopen h0
  obtain ⟨h1r, h1w⟩ := hopen h1
  have hd0 : d.fds.get STDIN_FILENO = some A :=
    (hdget _ (by decide) h0r).trans (pipe_get h h0)
  have hdw : d.fds.get t.fd.2 = some (.pipeWrite s.fresh) :=
    (hdget _ (Ne.symm h1w) (Ne.symm hends.ne)).trans hends.write
  have hlow : d.fds.lowest = STDOUT_FILENO := FdTable.lowest_eq_one hd0 hd1
  obtain ⟨hcwd, _, _, hfd, _⟩ := Shell.dup_frame o.childDup d.fd.2 d
  have hget : ∀ k, (pipedSetup o t).fds.get k =
      if k = t.fd.2 then none
      else if k = STDOUT_FILENO then some (.pipeWrite s.fresh) else d.fds.get k := by
    intro k
    show ((d.dup o.childDup d.fd.2).2.close (d.dup o.childDup d.fd.2).2.fd.2).fds.get k = _
    rw [Shell.close_fds, FdTable.get_close, hfd, Shell.dup_get, hdup, hlow, ← hdw]
    simp only [true_and]
    rfl
  refine ⟨hcwd, ?_, ?_, ?_⟩
  · rw [hget, if_neg h0w, if_neg (by decide)]
    exact hd0
  · rw [hget, if_neg h1w, if_pos rfl]
  · rintro F hF ⟨k, hk⟩
    rw [hget] at hk
    split at hk
    · cases hk
    · split at hk
      · cases hk
        exact absurd hF (Nat.lt_irrefl _)
      · refine ⟨k, (pipe_get_iff h hF k).mp ?_⟩
        have hkr : k ≠ t.fd.1 := by
          rintro rfl
          rw [Shell.close_fds, FdTable.get_close_ne _ (by assumption), Shell.close_fds,
            FdTable.get_close_same] at hk
          cases hk
        rw [← hdget k (by assumption) hkr]
        exact hk

/-! ## 5. The wiring -/

/-- A process that the event shows holds a descriptor for the file. -/
def Event.Holds (F : OpenFile) : Event w → Prop
  | .fork (.execv e) => e.fds.Refers F
  | .waitpid fds => fds.Refers F
  | _ => False

/-- **The events of a pipeline as it should be**, for stages with the words `args :: more`: each
stage is forked, runs its words and is waited for before the next.  The first reads `input`, the
last writes `output`, and each writes to the pipe that the next reads.  When a stage has exited
neither the shell nor a later stage holds the write end of its pipe.  `m` numbers the next pipe. -/
inductive Wired : Nat → OpenFile → OpenFile → List (List CString) → List (Event w) → Prop
  | last {m : Nat} {input output : OpenFile} {e : Exec w} {fds : FdTable OpenFile} :
      e.fds.get STDIN_FILENO = some input → e.fds.get STDOUT_FILENO = some output →
      Wired m input output [e.argv] [.fork (.execv e), .waitpid fds]
  | piped {m : Nat} {input output : OpenFile} {e : Exec w} {fds : FdTable OpenFile}
      {more : List (List CString)} {rest : List (Event w)} :
      e.fds.get STDIN_FILENO = some input →
      e.fds.get STDOUT_FILENO = some (.pipeWrite m) →
      ¬ fds.Refers (.pipeWrite m) →
      (∀ ev ∈ rest, ¬ ev.Holds (.pipeWrite m)) →
      Wired (m + 1) (.pipeRead m) output more rest →
      Wired m input output (e.argv :: more) (.fork (.execv e) :: .waitpid fds :: rest)

theorem not_wired_nil {m : Nat} {input output : OpenFile} {more : List (List CString)} :
    ¬ Wired m input output more ([] : List (Event w)) := by
  intro h
  cases h

theorem Wired.ne_nil {m : Nat} {input output : OpenFile} {argvs : List (List CString)}
    {E : List (Event w)} (h : Wired m input output argvs E) : argvs ≠ [] := by
  cases h <;> exact List.cons_ne_nil _ _

theorem wired_last_inv {m : Nat} {input output : OpenFile} {args : List CString}
    {child : Child w} {fds : FdTable OpenFile}
    (h : Wired m input output [args] [.fork child, .waitpid fds]) :
    ∃ e, child = .execv e ∧ e.argv = args := by
  cases h with
  | last _ _ => exact ⟨_, rfl, rfl⟩
  | piped _ _ _ _ hrest => exact absurd hrest not_wired_nil

theorem wired_piped_inv {m : Nat} {input output : OpenFile} {args : List CString}
    {more : List (List CString)} {child : Child w} {fds : FdTable OpenFile}
    {rest : List (Event w)} (hmore : more ≠ [])
    (h : Wired m input output (args :: more) (.fork child :: .waitpid fds :: rest)) :
    (∃ e, child = .execv e ∧ e.argv = args) ∧
      Wired (m + 1) (.pipeRead m) output more rest := by
  cases h with
  | last _ _ => exact absurd rfl hmore
  | piped _ _ _ _ hrest => exact ⟨⟨_, rfl, rfl⟩, hrest⟩

/-- Only a program that is started holds anything. -/
theorem fork_not_holds {child : Child w} {F : OpenFile}
    (h : ∀ e, child = .execv e → ¬ e.fds.Refers F) : ¬ (Event.fork child).Holds F := by
  cases child with
  | execv e => exact h e rfl
  | exit n => exact id
  | fault f => exact id

/-- The last stage. -/
theorem last_wired_iff {o : StageOutcome} (ho : CallsOk o) {c : CString} (hc : IsStage c)
    {s : Shell w} {A B : OpenFile} (h0 : s.fds.get STDIN_FILENO = some A)
    (h1 : s.fds.get STDOUT_FILENO = some B) :
    ∃ E, (lastStage o c env s).trace = s.trace ++ E ∧
      (Wired s.fresh A B [words c] E ↔ StageOk env s.cwd c) ∧
      ∀ F : OpenFile, F.MadeBefore s.fresh → ¬ s.fds.Refers F → ∀ ev ∈ E, ¬ ev.Holds F := by
  cases hpipe : s.pipe o.pipe with
  | none =>
    rw [Shell.pipe_eq_none_iff, ho.pipe] at hpipe
    cases hpipe
  | some t =>
    obtain ⟨_, hcwd, _, _, htrace, _⟩ := Shell.pipe_eq_some hpipe
    refine ⟨[.fork (handleRedirectionExec o c env t), .waitpid t.fds], ?_, ?_, ?_⟩
    · unfold lastStage
      rw [hpipe]
      dsimp only
      rw [if_pos ho.fork, (lastParent_log _ _).2, Shell.log_trace, Shell.log_fds, htrace]
      simp
    · constructor
      · intro h
        obtain ⟨e, he, hargv⟩ := wired_last_inv h
        rw [← hcwd]
        exact stageOk_of_exec hc he hargv
      · intro h
        rw [← hcwd] at h
        obtain ⟨e, he, hargv, hfds⟩ := exec_of_stageOk hc h o
        rw [he, ← hargv]
        exact .last (by rw [hfds]; exact pipe_get hpipe h0)
          (by rw [hfds]; exact pipe_get hpipe h1)
    · intro F hF hno
      have hnot : ¬ t.fds.Refers F := fun ⟨k, hk⟩ => hno ⟨k, (pipe_get_iff hpipe hF k).mp hk⟩
      intro ev hev
      rcases List.mem_pair.mp hev with rfl | rfl
      · exact fork_not_holds (fun e he hholds => hnot (exec_fds hc he ▸ hholds))
      · exact hnot

/-- **What the recursion does to a whole text**, by induction along the pipeline: it logs the
events `E`, they are wired as they should be exactly when every stage is within the limits, and
nothing that the shell did not hold before is held by anybody. -/
theorem pipeline_events {o : Nat → StageOutcome} (ho : ∀ n, CallsOk (o n)) {B : OpenFile}
    (line : CString) : ∀ (n : Nat) (s : Shell w) (A : OpenFile), (stages line).2 = true →
      (∀ c ∈ (stages line).1, IsStage c) → s.fds.get STDIN_FILENO = some A →
      s.fds.get STDOUT_FILENO = some B →
      (handlePipe env o n line false s).1 = none ∧
      ∃ E, (handlePipe env o n line false s).2.trace = s.trace ++ E ∧
        (Wired s.fresh A B ((stages line).1.map words) E ↔
          ∀ c ∈ (stages line).1, StageOk env s.cwd c) ∧
        ∀ F : OpenFile, F.MadeBefore s.fresh → ¬ s.fds.Refers F → ∀ ev ∈ E, ¬ ev.Holds F := by
  induction line using pipeline_induction with
  | null line h =>
    intro n s A hend _ _ _
    rw [stages_null h] at hend
    cases hend
  | single line token h =>
    intro n s A _ hst h0 h1
    rw [stages_single h] at hst ⊢
    rw [handlePipe_single h]
    obtain ⟨E, htrace, hwired, hno⟩ :=
      @last_wired_iff w env (o n) (ho n) (clean token) (hst _ List.mem_cons_self) s A B h0 h1
    refine ⟨rfl, E, htrace, ?_, hno⟩
    simpa using hwired
  | piped line token rest h hr ih =>
    intro n s A hend hst h0 h1
    rw [stages_piped h hr] at hend hst ⊢
    rw [handlePipe_piped h hr]
    cases hpipe : s.pipe (o n).pipe with
    | none =>
      rw [Shell.pipe_eq_none_iff, (ho n).pipe] at hpipe
      cases hpipe
    | some t =>
      have hc : IsStage (clean token) := hst _ List.mem_cons_self
      obtain ⟨_, hcwd, _, _, htrace, _⟩ := Shell.pipe_eq_some hpipe
      obtain ⟨hchcwd, hch0, hch1, hchno⟩ := pipedSetup_fds (ho n).childDup hpipe h0 h1
      have hopen : s.fds.get STDIN_FILENO ≠ none := by
        rw [h0]
        exact Option.some_ne_none A
      dsimp only
      rw [if_pos (ho n).fork]
      have hchild := @pipedChild_eq w env (o n) (clean token) t
      set child := pipedChild (o n) (clean token) env t with hchilddef
      obtain ⟨hother, hstdin, _, hfresh⟩ := piped_fds hpipe (.fork child)
      obtain ⟨hucwd, hutrace⟩ := pipedParent_frame (o n) (t.log (.fork child))
      set u := pipedParent (o n) (t.log (.fork child)) with hu
      rw [if_pos ⟨(ho n).parentDup, hopen⟩] at hstdin
      have hstageCwd : u.cwd = s.cwd := hucwd.trans hcwd
      obtain ⟨hret, E, htraceE, hwired, hno⟩ := ih (n + 1) u (.pipeRead s.fresh) hend
        (fun c hcs => hst c (List.mem_cons_of_mem _ hcs)) hstdin
        ((hother _ (by decide)).trans h1)
      -- what the shell holds after the stage it held before, or it is the read end of the pipe
      have hurefers : ∀ F : OpenFile, F ≠ .pipeRead s.fresh → u.fds.Refers F → s.fds.Refers F := by
        rintro F hF ⟨k, hk⟩
        rcases eq_or_ne k STDIN_FILENO with rfl | hk0
        · rw [hstdin] at hk
          exact absurd (Option.some.inj hk).symm hF
        · exact ⟨k, (hother k hk0).symm.trans hk⟩
      have hnowrite : ¬ u.fds.Refers (.pipeWrite s.fresh) := by
        intro hr
        obtain ⟨k, hk⟩ := hurefers _ (by simp) hr
        exact Nat.lt_irrefl _ (s.numbered k _ hk)
      refine ⟨hret, .fork child :: .waitpid u.fds :: E, ?_, ?_, ?_⟩
      · rw [htraceE, hutrace, Shell.log_trace, htrace]
        simp
      · rw [hfresh, hstageCwd] at hwired
        rw [List.map_cons, List.forall_mem_cons]
        constructor
        · intro hw
          have hmore : (stages (clean rest)).1.map words ≠ [] := by
            intro hnil
            have hpos := length_stages_pos _ hend
            rw [List.map_eq_nil_iff.mp hnil] at hpos
            cases hpos
          obtain ⟨⟨e, he, hargv⟩, hrest⟩ := wired_piped_inv hmore hw
          refine ⟨?_, hwired.mp hrest⟩
          rw [← hcwd, ← hchcwd]
          exact stageOk_of_exec hc (hchild.symm.trans he) hargv
        · rintro ⟨hok, hoks⟩
          rw [← hcwd, ← hchcwd] at hok
          obtain ⟨e, he, hargv, hfds⟩ := exec_of_stageOk hc hok (o n)
          have hexec : child = .execv e := hchild.trans he
          rw [hexec, ← hargv]
          refine .piped (by rw [hfds]; exact hch0) (by rw [hfds]; exact hch1) hnowrite ?_
            (hwired.mpr hoks)
          exact hno _ (hfresh ▸ Nat.lt_succ_self _) hnowrite
      · intro F hF hnoF ev hev
        have hnotread : F ≠ .pipeRead s.fresh := by
          rintro rfl
          exact Nat.lt_irrefl _ hF
        have hnotu : ¬ u.fds.Refers F := fun hr => hnoF (hurefers F hnotread hr)
        rcases List.mem_cons.mp hev with rfl | hev
        · refine fork_not_holds (fun e he hholds => hnoF (hchno F hF ?_))
          exact exec_fds hc (hchild.symm.trans he) ▸ hholds
        · rcases List.mem_cons.mp hev with rfl | hev
          · exact hnotu
          · exact hno F (hfresh ▸ OpenFile.MadeBefore.mono (Nat.le_succ _) F hF) hnotu ev hev

/-! ## 6. The bytes -/

/-- What the pipes hold, and what has been written to the other open files. -/
structure Data where
  pipe : Nat → List UInt8
  written : OpenFile → List UInt8

/-- The programs as functions on byte strings.  The pipes of the pipeline are those numbered from
`own` on, and hold `cap` bytes; `outside` is what there is to be read elsewhere. -/
structure Programs where
  own : Nat
  cap : Nat
  outside : OpenFile → List UInt8
  program : List CString → List UInt8 → List UInt8

namespace Programs

variable (b : Programs)

/-- Read a file to its end.  That of a pipe comes when nobody holds its write end; before that
the reader waits, here for ever. -/
def readAll (holders : List (FdTable OpenFile)) (d : Data) :
    OpenFile → Option (List UInt8 × Data)
  | .pipeRead k =>
    if b.own ≤ k then
      if ∀ t ∈ holders, ¬ t.Refers (.pipeWrite k) then
        some (d.pipe k, { d with pipe := Function.update d.pipe k [] })
      else none
    else some (b.outside (.pipeRead k), d)
  | F => some (b.outside F, d)

/-- Write to a file.  What a pipe has no room for is never written, since its reader is forked
only when the writer has exited. -/
def writeAll (d : Data) (out : List UInt8) : OpenFile → Option Data
  | .pipeWrite k =>
    if b.own ≤ k then
      if (d.pipe k ++ out).length ≤ b.cap then
        some { d with pipe := Function.update d.pipe k (d.pipe k ++ out) }
      else none
    else
      some { d with
        written := Function.update d.written (.pipeWrite k) (d.written (.pipeWrite k) ++ out) }
  | F => some { d with written := Function.update d.written F (d.written F ++ out) }

/-- The children of a trace, each running to its end while the shell waits for it; `none` when
one of them never ends. -/
def runStages : List (Event w) → Data → Option Data
  | .fork (.execv e) :: .waitpid fds :: rest, d =>
    match e.fds.get STDIN_FILENO, e.fds.get STDOUT_FILENO with
    | some input, some output =>
      (b.readAll [e.fds, fds] d input).bind fun (x, d) =>
      (b.writeAll d (b.program e.argv x) output).bind (runStages rest)
    | _, _ => none
  | [], d => some d
  | _, _ => none

/-- The composition `f_n(...f_1(x))` for the stages with these words. -/
def compose (stages : List (List CString)) (x : List UInt8) : List UInt8 :=
  stages.foldl (fun x args => b.program args x) x

/-- What each stage but the last writes fits in a pipe. -/
def OutputsFit : List (List CString) → List UInt8 → Prop
  | args :: next :: more, x =>
    (b.program args x).length ≤ b.cap ∧ OutputsFit (next :: more) (b.program args x)
  | _, _ => True

/-- A process that comes to read `F` during the events `E` finds `x` in it. -/
def Ready (m : Nat) (E : List (Event w)) (d : Data) (x : List UInt8) (F : OpenFile) : Prop :=
  (F.MadeBefore b.own ∧ b.outside F = x) ∨
    ∃ k, F = .pipeRead k ∧ b.own ≤ k ∧ k < m ∧ d.pipe k = x ∧
      ∀ ev ∈ E, ¬ ev.Holds (.pipeWrite k)

variable {b}

theorem readAll_ready {m : Nat} {e : Exec w} {fds : FdTable OpenFile} {rest : List (Event w)}
    {d : Data} {x : List UInt8} {F : OpenFile}
    (h : b.Ready m (.fork (.execv e) :: .waitpid fds :: rest) d x F) :
    ∃ d₁, b.readAll [e.fds, fds] d F = some (x, d₁) ∧ d₁.written = d.written ∧
      ∀ k, m ≤ k → d₁.pipe k = d.pipe k := by
  rcases h with ⟨hF, hx⟩ | ⟨k, rfl, hown, hkm, hx, hno⟩
  · refine ⟨d, ?_, rfl, fun _ _ => rfl⟩
    rw [← hx]
    cases F with
    | pipeRead k =>
      have hlt : ¬ b.own ≤ k := Nat.not_le.mpr hF
      rw [readAll, if_neg hlt]
    | inherited k => rfl
    | batchFile => rfl
    | pipeWrite k => rfl
    | opened k name write => rfl
  · have hexec : ¬ e.fds.Refers (.pipeWrite k) := hno (.fork (.execv e)) (by simp)
    have hshell : ¬ fds.Refers (.pipeWrite k) := hno (.waitpid fds) (by simp)
    refine ⟨{ d with pipe := Function.update d.pipe k [] }, ?_, rfl, ?_⟩
    · rw [readAll, if_pos hown, if_pos (by simp [hexec, hshell]), hx]
    · intro j hj
      exact Function.update_of_ne (by omega) _ _

theorem writeAll_outside {d : Data} {out : List UInt8} {F : OpenFile}
    (hF : F.MadeBefore b.own) :
    ∃ d₁, b.writeAll d out F = some d₁ ∧ d₁.written F = d.written F ++ out := by
  cases F with
  | pipeWrite k =>
    have hlt : ¬ b.own ≤ k := Nat.not_le.mpr hF
    refine ⟨_, by rw [writeAll, if_neg hlt], ?_⟩
    exact Function.update_self _ _ _
  | pipeRead k => exact ⟨_, rfl, Function.update_self _ _ _⟩
  | inherited k => exact ⟨_, rfl, Function.update_self _ _ _⟩
  | batchFile => exact ⟨_, rfl, Function.update_self OpenFile.batchFile _ d.written⟩
  | opened k name write => exact ⟨_, rfl, Function.update_self _ _ _⟩

theorem writeAll_pipe {m : Nat} {d : Data} {out : List UInt8} (hown : b.own ≤ m)
    (hempty : d.pipe m = []) (hfit : out.length ≤ b.cap) :
    b.writeAll d out (.pipeWrite m) =
      some { d with pipe := Function.update d.pipe m out } := by
  rw [writeAll, if_pos hown, hempty, List.nil_append, if_pos hfit]

/-- **Stages wired as they should be compose**, when what they write fits in the pipes: by
induction along the pipeline, what a stage has written is what the next one reads. -/
theorem wired_composes {m : Nat} {input output : OpenFile} {argvs : List (List CString)}
    {E : List (Event w)} (h : Wired m input output argvs E) (hout : output.MadeBefore b.own) :
    ∀ {d : Data} {x : List UInt8}, b.own ≤ m → (∀ k, m ≤ k → d.pipe k = []) →
      b.Ready m E d x input → b.OutputsFit argvs x →
      ∃ d', b.runStages E d = some d' ∧
        d'.written output = d.written output ++ b.compose argvs x := by
  induction h with
  | last hin hstdout =>
    intro d x _ _ hready _
    obtain ⟨d₁, hread, hwritten, _⟩ := readAll_ready hready
    obtain ⟨d₂, hwrite, hd₂⟩ := writeAll_outside (d := d₁) hout
    refine ⟨d₂, ?_, ?_⟩
    · rw [runStages, hin, hstdout]
      dsimp only
      rw [hread, Option.bind_some]
      dsimp only
      rw [hwrite, Option.bind_some, runStages]
    · rw [hd₂, hwritten]
      rfl
  | @piped m input output e fds more rest hin hstdout hshell hrest hnext ih =>
    intro d x hown hempty hready hfit
    obtain ⟨d₁, hread, hwritten, hpipe⟩ := readAll_ready hready
    have hd₁ : d₁.pipe m = [] := (hpipe m le_rfl).trans (hempty m le_rfl)
    obtain ⟨next, more, rfl⟩ := List.exists_cons_of_ne_nil hnext.ne_nil
    obtain ⟨hcap, hfit⟩ := hfit
    have hwrite := writeAll_pipe (d := d₁) hown hd₁ hcap
    have hempty₂ : ∀ k, m + 1 ≤ k →
        Function.update d₁.pipe m (b.program e.argv x) k = [] := by
      intro k hk
      rw [Function.update_of_ne (by omega), hpipe k (by omega), hempty k (by omega)]
    obtain ⟨d', hrun, hd'⟩ := ih hout (d := ⟨Function.update d₁.pipe m (b.program e.argv x),
      d₁.written⟩) (Nat.le_succ_of_le hown) hempty₂
      (Or.inr ⟨m, rfl, hown, Nat.lt_succ_self m, Function.update_self _ _ _, hrest⟩) hfit
    refine ⟨d', ?_, ?_⟩
    · rw [runStages, hin, hstdout]
      dsimp only
      rw [hread, Option.bind_some]
      dsimp only
      rw [hwrite, Option.bind_some, hrun]
    · rw [hd', hwritten]
      rfl

end Programs

/-! ## 7. The pipeline -/

/-- A stage as typed: not blank, and without the characters that mean something to the shell. -/
structure StageText (st : CString) : Prop where
  notBlank : squeeze isBlank st ≠ []
  line : ∀ c ∈ st, inLine c = true
  noBar : '|' ∉ st
  noRedi : ∀ c ∈ st, c ≠ '<' ∧ c ≠ '>'

theorem StageText.isStage {st : CString} (h : StageText st) : IsStage (clean st) := by
  rw [clean_of_inLine h.line]
  exact ⟨h.notBlank, squeeze_idem st, fun x hx => h.line x (mem_of_mem_squeeze hx),
    fun x hx => h.noRedi x (mem_of_mem_squeeze hx)⟩

theorem words_clean {st : CString} (h : ∀ c ∈ st, inLine c = true) :
    words (clean st) = words st := by
  rw [clean_of_inLine h, words, tokens_squeeze, words]

theorem inLine_join {sts : List CString} (h : ∀ st ∈ sts, ∀ c ∈ st, inLine c = true) :
    ∀ c ∈ join '|' sts, inLine c = true := by
  induction sts with
  | nil => simp
  | cons st sts ih =>
    obtain ⟨hst, hsts⟩ := List.forall_mem_cons.mp h
    rcases eq_or_ne sts [] with rfl | hne
    · simpa using hst
    · rw [join_cons _ _ hne]
      intro c hc
      rcases List.mem_append.mp hc with hc | hc
      · exact hst c hc
      · rcases List.mem_cons.mp hc with rfl | hc
        · rfl
        · exact ih hsts c hc

/-- The stages of a typed pipeline. -/
theorem stages_join {sts : List CString} (hne : sts ≠ []) (hst : ∀ st ∈ sts, StageText st) :
    stages (join '|' sts) = (sts.map clean, true) := by
  have hpieces : pieces '|' (join '|' sts) = sts := pieces_join hne (fun st h => (hst st h).noBar)
  rw [stages_eq _ (inLine_join (fun st h => (hst st h).line)), hpieces,
    List.map_congr_left (fun st h => (clean_of_inLine (hst st h).line).symm)]
  intro q hq
  rw [hpieces] at hq
  exact (hst q hq).notBlank

/-- Called on more than one stage, `handle_pipe` does not look at `is_leader`. -/
theorem handlePipe_leader {o : Nat → StageOutcome} {n : Nat} {line : CString} {s : Shell w}
    (h : 2 ≤ (stages line).1.length) :
    handlePipe env o n line true s = handlePipe env o n line false s := by
  cases htok : strtok ['|'] line with
  | none => rw [handlePipe_null htok, handlePipe_null htok]
  | some tr =>
    obtain ⟨token, rest⟩ := tr
    rcases eq_or_ne rest [] with rfl | hr
    · rw [stages_single htok] at h
      cases h with
      | step h => cases h
    · rw [handlePipe_piped htok hr, handlePipe_piped htok hr]

/-- What `handle_pipe` does to a typed pipeline. -/
theorem handlePipe_join {s : Shell w} {o : Nat → StageOutcome} {A B : OpenFile}
    {sts : List CString} (hn : 2 ≤ sts.length) (hst : ∀ st ∈ sts, StageText st)
    (ho : ∀ n, CallsOk (o n)) (h0 : s.fds.get STDIN_FILENO = some A)
    (h1 : s.fds.get STDOUT_FILENO = some B) :
    (handlePipe env o 0 (join '|' sts) true s).1 = none ∧
      ∃ E, (handlePipe env o 0 (join '|' sts) true s).2.trace = s.trace ++ E ∧
        (Wired s.fresh A B (sts.map words) E ↔ ∀ st ∈ sts, StageOk env s.cwd (clean st)) := by
  have hne : sts ≠ [] := List.ne_nil_of_length_pos (by omega)
  have hstages := stages_join hne hst
  have hlen : 2 ≤ (stages (join '|' sts)).1.length := by
    rw [hstages, List.length_map]
    exact hn
  have hisStage : ∀ c ∈ (stages (join '|' sts)).1, IsStage c := by
    rw [hstages]
    intro c hc
    obtain ⟨st, hmem, rfl⟩ := List.mem_map.mp hc
    exact (hst st hmem).isStage
  obtain ⟨hret, E, htrace, hwired, _⟩ := @pipeline_events w env o ho B (join '|' sts) 0 s A
    (by rw [hstages]) hisStage h0 h1
  have hwords : sts.map (words ∘ clean) = sts.map words :=
    List.map_congr_left (fun st h => words_clean (hst st h).line)
  rw [hstages, List.map_map, hwords, List.forall_mem_map] at hwired
  rw [← handlePipe_leader hlen] at hret htrace
  exact ⟨hret, E, htrace, hwired⟩

/-- **A pipeline is as it should be exactly when every stage is within the limits**, for `n ≥ 2`
stages when every call succeeds: the children are forked from left to right with the words of
their stages, each is connected to the next and sees the end of its input (`Wired`), and for
programs that are functions whose outputs fit in a pipe the composition is written to the shell's
standard output. -/
theorem pipeline_wired_iff (env : Environment) (s : Shell w) (o : Nat → StageOutcome)
    (A B : OpenFile) (sts : List CString) (hn : 2 ≤ sts.length)
    (hst : ∀ st ∈ sts, StageText st) (ho : ∀ n, CallsOk (o n))
    (h0 : s.fds.get STDIN_FILENO = some A) (h1 : s.fds.get STDOUT_FILENO = some B) :
    ((handlePipe env o 0 (join '|' sts) true s).1 = none ∧
      ∃ E, (handlePipe env o 0 (join '|' sts) true s).2.trace = s.trace ++ E ∧
        Wired s.fresh A B (sts.map words) E ∧
        ∀ b : Programs, b.own = s.fresh → ∀ d : Data, (∀ k, s.fresh ≤ k → d.pipe k = []) →
          b.OutputsFit (sts.map words) (b.outside A) →
          ∃ d', b.runStages E d = some d' ∧
            d'.written B = d.written B ++ b.compose (sts.map words) (b.outside A)) ↔
      ∀ st ∈ sts, StageOk env s.cwd (clean st) := by
  obtain ⟨hret, E, htrace, hwired⟩ :=
    @handlePipe_join w env s o A B sts hn hst ho h0 h1
  constructor
  · rintro ⟨_, E', htrace', hw, _⟩
    have hE : E' = E := List.append_cancel_left (htrace'.symm.trans htrace)
    exact hwired.mp (hE ▸ hw)
  · intro hok
    have hw := hwired.mpr hok
    refine ⟨hret, E, htrace, hw, ?_⟩
    intro b hown d hempty hfit
    exact Programs.wired_composes hw (hown ▸ s.numbered _ _ h1) hown.le hempty
      (Or.inl ⟨hown ▸ s.numbered _ _ h0, rfl⟩) hfit

theorem CallsOk.ok : CallsOk StageOutcome.ok := ⟨rfl, rfl, rfl, rfl, rfl⟩

theorem stageText_of_all {st : CString} (hb : squeeze isBlank st ≠ [])
    (h : st.all (fun c => inLine c && c != '|' && c != '<' && c != '>') = true) :
    StageText st := by
  have hall : ∀ c ∈ st, inLine c = true ∧ c ≠ '|' ∧ c ≠ '<' ∧ c ≠ '>' := by
    intro c hc
    have hcc := List.all_eq_true.mp h c hc
    simp only [Bool.and_eq_true, bne_iff_ne] at hcc
    exact ⟨hcc.1.1.1, hcc.1.1.2, hcc.1.2, hcc.2⟩
  exact ⟨hb, fun c hc => (hall c hc).1, fun hbar => (hall _ hbar).2.1 rfl,
    fun c hc => ⟨(hall c hc).2.2.1, (hall c hc).2.2.2⟩⟩

theorem forall_mem_two {P : CString → Prop} {a b : CString} (ha : P a) (hb : P b) :
    ∀ st ∈ [a, b], P st :=
  List.forall_mem_cons.mpr ⟨ha, List.forall_mem_cons.mpr ⟨hb, List.forall_mem_nil P⟩⟩

/-- The line `ls | ls`, in a shell that has just been started. -/
theorem pipeline_wired_ls :
    ∃ E, (handlePipe rootSession.env (fun _ => .ok) 0 "ls | ls".toList true
        rootSession.shell).2.trace = E ∧
      Wired 0 (.inherited 0) (.inherited 1) [["ls".toList], ["ls".toList]] E := by
  have hst : ∀ st ∈ ["ls ".toList, " ls".toList], StageText st :=
    forall_mem_two (stageText_of_all (by decide) (by decide))
      (stageText_of_all (by decide) (by decide))
  have hok : ∀ st ∈ ["ls ".toList, " ls".toList],
      StageOk rootSession.env rootSession.shell.cwd (clean st) :=
    forall_mem_two ⟨by decide, by decide, Or.inl (by decide)⟩
      ⟨by decide, by decide, Or.inl (by decide)⟩
  obtain ⟨_, E, htrace, hwired, _⟩ := (pipeline_wired_iff rootSession.env rootSession.shell
    (fun _ => .ok) (.inherited 0) (.inherited 1) ["ls ".toList, " ls".toList] (by decide) hst
    (fun _ => .ok) rfl rfl).mpr hok
  exact ⟨E, htrace, hwired⟩

/-- The line `ls<tab>x | ls`: the first child is not started with the words of its stage. -/
theorem tab_drops_word :
    ¬ ∃ E, (handlePipe rootSession.env (fun _ => .ok) 0 "ls\tx | ls".toList true
        rootSession.shell).2.trace = E ∧
      Wired 0 (.inherited 0) (.inherited 1) [["ls".toList, "x".toList], ["ls".toList]] E := by
  rintro ⟨E, htrace, hw⟩
  have hst : ∀ st ∈ ["ls\tx ".toList, " ls".toList], StageText st :=
    forall_mem_two (stageText_of_all (by decide) (by decide))
      (stageText_of_all (by decide) (by decide))
  obtain ⟨_, E', htrace', hwired⟩ := @handlePipe_join nested rootSession.env rootSession.shell
    (fun _ => .ok) (.inherited 0) (.inherited 1) _ (by decide) hst (fun _ => .ok) rfl rfl
  have hE : E = E' := htrace.symm.trans htrace'
  have hok := hwired.mp (hE ▸ hw) _ List.mem_cons_self
  exact hok.noTab (by decide)

end Osexp.Seush
