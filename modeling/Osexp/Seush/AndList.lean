/-
# A list of commands separated by `&`

A line without pipes and redirections goes through four passes that cut it: `clean` on the whole
line, `strtok` at `&`, `clean` again on each piece together with the `strtok` at `|` that finds
none, and `strtok` at the blanks.  Blank pieces are skipped by the segment loop without an entry in
`process[]`.

`list_runs_its_commands`: what comes out is the list of the nonblank segments, each with its words,
one child for each and in their order.  That the passes commute with the one cut at `&` that a
reader of the line has in mind is `map_squeeze_pieces`.

The passes would not have to agree.  A piece that is blank for one of them may have a word for
another, `clean` has been applied once too often or not often enough, and the numbering of
`process[]` goes by one counter while the loop goes by another.  The theorem is about all of this at
once: one child for each command that a reader of the line sees, and none besides.
-/
import Osexp.Seush.Wiring

namespace Osexp.Seush

open Text

variable {w : World}

/-! ## 1. The statement -/

/-- The `&`-separated segments of a line that have a word. -/
def commands (line : CString) : List CString :=
  (pieces '&' (firstLine line)).filter (fun segment => !(spaceWords segment).isEmpty)

/-- A line without pipes, redirections and tabs that fits in the arrays.  The text of the line is
what stands before its newline. -/
structure ListLine (line : CString) : Prop where
  plain : ∀ c ∈ firstLine line, c ≠ '|' ∧ c ≠ '<' ∧ c ≠ '>' ∧ c ≠ '\t'
  slots : (singleCommands line).length < MAX_ARGUMENTS_NUM
  short : ∀ segment ∈ commands line, (clean segment).length < MAX_COMMAND_NOREDI
  few : ∀ segment ∈ commands line, (spaceWords segment).length < MAX_ARGUMENTS_NUM

/-- An entry of `process[]` with a program, a NULL after its last word, and no redirection. -/
structure PlainEntry (p : Process) : Prop where
  program : 1 ≤ p.argc
  null : p.argc < MAX_ARGUMENTS_NUM
  noRedi : p.redirected = .noRedi
  noFiles : p.rediInfd = none ∧ p.rediOutfd = none

/-- The shell after a fork for each entry, in their order, and the loop of `wait` if there is an
entry.  A child without redirections goes straight to `execv`. -/
def forked (process : List (Process × w.Dir)) (s : Shell w) : Shell w :=
  { s with
    trace := s.trace ++ process.map (fun q => .fork (execv q.2 q.1 s)) ++
      (if process = [] then [] else [.waitAll]) }

/-! ## 2. One segment -/

/-- A segment without pipe, redirection and tab that fits in the arrays. -/
structure PlainSegment (command : CString) : Prop extends StageText command where
  noTab : '\t' ∉ command
  short : (clean command).length < MAX_COMMAND_NOREDI
  few : (words command).length < MAX_ARGUMENTS_NUM

section Segment

variable {env : Environment}

theorem strtok_noBar {command : CString} (h : StageText command) :
    strtok ['|'] command = some (command, []) := by
  refine nextToken_of_word ?_ ?_
  · rintro rfl
    exact h.notBlank rfl
  · intro c hc
    have hbar : c ≠ '|' := fun he => h.noBar (he ▸ hc)
    simp [hbar]

theorem handleRedirection_plain {command : CString} (h : PlainSegment command) (b : Scratch)
    (s : Shell w) : ∃ p, handleRedirection b (clean command) {} env s = .ok (p, s) ∧
      p.argv = words command ∧ PlainEntry p := by
  have hc := h.toStageText.isStage
  have htab : '\t' ∉ clean command := by
    rw [clean_of_inLine h.line]
    exact fun hm => h.noTab (mem_of_mem_squeeze hm)
  have hscanned := hc.scanned_of_noTab htab
  obtain ⟨d, hscan, hd⟩ := (hc.scanRedirection_eq b).1 (by rw [hscanned]; exact h.short)
  have hargv : strtokAll [' '] (clean (d .commandNoredi)) = words command := by
    rw [hd, hscanned, IsStage.strtokAll_of_noTab hc.line htab, words_clean h.line]
  obtain ⟨hne, _⟩ := hc.length_words htab h.short
  rw [words_clean h.line] at hne
  obtain ⟨p, t, hp⟩ := @handleRedirection_returns w _ _ _ _ env s hscan
    (by rw [hargv]; exact hne) (by rw [hargv]; exact h.few.le)
  obtain ⟨rfl, hred, hpargv, hfiles, _⟩ := handleRedirection_noRedi hscan hp
  have hwords := hpargv.trans hargv
  refine ⟨p, hp, hwords, ?_⟩
  have hargc : p.argc = (words command).length := congrArg List.length hwords
  refine ⟨?_, ?_, hred, hfiles⟩
  · rw [hargc]
    exact List.length_pos_iff.mpr hne
  · rw [hargc]
    exact h.few

/-- One turn of the segment loop adds the entry of the segment. -/
theorem runSegment_plain {command : CString} (h : PlainSegment command) (o : SegOutcome)
    (process : List (Process × w.Dir)) (s : Shell w) :
    ∃ p, runSegment env o command process s =
        .ok (process ++ [(p, (saveStreams o s).cwd)], saveStreams o s) ∧
      p.argv = words command ∧ PlainEntry p := by
  obtain ⟨p, hp, hentry⟩ := @handleRedirection_plain w env _ h o.scratch (saveStreams o s)
  refine ⟨p, ?_, hentry⟩
  unfold runSegment
  rw [handlePipe_single (strtok_noBar h.toStageText), if_pos rfl]
  dsimp only
  rw [hp]
  rfl

/-- **The segment loop**: the segments that are not blank, one entry for each. -/
theorem runSegments_plain (o : LineOutcome) : ∀ (i : Nat) (segments : List CString)
    (process : List (Process × w.Dir)) (s : Shell w),
    (∀ command ∈ segments, clean command ≠ [] → PlainSegment command) →
    ∃ entries t, runSegments env o i segments process s = .ok (process ++ entries, t) ∧
      entries.map (fun q => q.1.argv) =
        (segments.filter (fun command => !(clean command).isEmpty)).map words ∧
      (∀ q ∈ entries, PlainEntry q.1) ∧ t.trace = s.trace
  | _, [], process, s, _ => ⟨[], s, by rw [List.append_nil]; rfl, rfl, by simp, rfl⟩
  | i, command :: segments, process, s, h => by
    obtain ⟨hcommand, hsegments⟩ := List.forall_mem_cons.mp h
    rw [runSegments]
    split
    · rename_i hblank
      obtain ⟨entries, t, hrun, hargv, hentries⟩ :=
        runSegments_plain o (i + 1) segments process s hsegments
      refine ⟨entries, t, hrun, ?_, hentries⟩
      rw [hargv, List.filter_cons_of_neg (by simp [hblank])]
    · rename_i hblank
      obtain ⟨p, hp, hwords, hplain⟩ :=
        @runSegment_plain w env _ (hcommand hblank) (o.seg i) process s
      obtain ⟨entries, t, hrun, hargv, hentries, htrace⟩ := runSegments_plain o (i + 1) segments
        (process ++ [(p, (saveStreams (o.seg i) s).cwd)]) (saveStreams (o.seg i) s) hsegments
      refine ⟨(p, (saveStreams (o.seg i) s).cwd) :: entries, t, ?_, ?_, ?_, ?_⟩
      · rw [hp]
        simpa [bind, Except.bind] using hrun
      · rw [List.map_cons, hargv, List.filter_cons_of_pos (by simp [hblank]), List.map_cons, hwords]
      · exact List.forall_mem_cons.mpr ⟨hplain, hentries⟩
      · exact htrace.trans (saveStreams_frame _ _).2.1

end Segment

/-! ## 3. The passes over the text -/

theorem words_eq_spaceWords {segment : CString} (h : '\t' ∉ segment) :
    words segment = spaceWords segment := by
  refine tokens_congr ?_
  intro c hc
  have hne : (c == '\t') = false := beq_eq_false_iff_ne.mpr (fun he => h (he ▸ hc))
  simp only [isBlank, hne, Bool.or_false]

theorem inLine_firstLine {line : CString} : ∀ c ∈ firstLine line, inLine c = true :=
  fun _ hc => List.mem_takeWhile_imp hc

/-- The slots of `single_commands` are the pieces of the cleaned line that are not empty. -/
theorem singleCommands_eq (line : CString) :
    singleCommands line =
      (pieces '&' (squeeze isBlank (firstLine line))).filter (fun command => !command.isEmpty) := by
  rw [singleCommands, strtokAll_eq, clean_eq]
  refine tokens_eq_filter_pieces ?_ _
  intro x
  simp

/-- A slot holds letters of the line. -/
theorem mem_singleCommands {line command : CString} (h : command ∈ singleCommands line) :
    ∀ c ∈ command, c ∈ firstLine line := by
  intro c hc
  rw [singleCommands_eq] at h
  exact mem_of_mem_squeeze (mem_of_mem_pieces (List.mem_of_mem_filter h) hc)

/-- Cutting the cleaned line at `&` and cleaning what is not blank, or cutting the line itself. -/
theorem clean_singleCommands (line : CString) :
    ((singleCommands line).filter (fun command => !(clean command).isEmpty)).map clean =
      ((pieces '&' (firstLine line)).map (squeeze isBlank)).filter (fun c => !c.isEmpty) := by
  have hclean : ∀ command ∈ pieces '&' (squeeze isBlank (firstLine line)),
      clean command = squeeze isBlank command := by
    intro command hcommand
    refine clean_of_inLine ?_
    intro c hc
    exact inLine_firstLine c (mem_of_mem_squeeze (mem_of_mem_pieces hcommand hc))
  have hsep : ∀ x, ['&'].contains x = decide (x = '&') := by
    intro x
    simp
  calc ((singleCommands line).filter (fun command => !(clean command).isEmpty)).map clean
      = ((singleCommands line).map clean).filter (fun c => !c.isEmpty) := by
        rw [List.filter_map]
        rfl
    _ = ((pieces '&' (squeeze isBlank (firstLine line))).map clean).filter
          (fun c => !c.isEmpty) := by
        rw [singleCommands, strtokAll_eq, filter_map_tokens hsep rfl, clean_eq]
    _ = ((pieces '&' (firstLine line)).map (squeeze isBlank)).filter (fun c => !c.isEmpty) := by
        rw [List.map_congr_left hclean, map_squeeze_pieces rfl]

/-- The segments with a word, cleaned. -/
theorem clean_commands {line : CString} (h : '\t' ∉ firstLine line) :
    (commands line).map clean =
      ((pieces '&' (firstLine line)).map (squeeze isBlank)).filter (fun c => !c.isEmpty) := by
  have hsegment : ∀ segment ∈ pieces '&' (firstLine line),
      (!(spaceWords segment).isEmpty) = ((fun c => !c.isEmpty) ∘ squeeze isBlank) segment := by
    intro segment hs
    have htab : '\t' ∉ segment := fun hm => h (mem_of_mem_pieces hs hm)
    rw [← words_eq_spaceWords htab, words, Function.comp_apply, Bool.eq_iff_iff]
    simp only [Bool.not_eq_true', List.isEmpty_eq_false_iff, ne_eq, tokens_eq_nil_iff,
      squeeze_eq_nil_iff]
  rw [commands, List.filter_congr hsegment, List.filter_map]
  refine List.map_congr_left ?_
  intro segment hs
  refine clean_of_inLine ?_
  exact fun c hc => inLine_firstLine c (mem_of_mem_pieces (List.mem_of_mem_filter hs) hc)

/-- The slots that are not blank hold plain segments. -/
theorem ListLine.plainSegment {line : CString} (h : ListLine line) :
    ∀ command ∈ singleCommands line, clean command ≠ [] → PlainSegment command := by
  intro command hcommand hne
  have hmem := mem_singleCommands hcommand
  have hline : ∀ c ∈ command, inLine c = true := fun c hc => inLine_firstLine c (hmem c hc)
  have htab : ∀ segment ∈ commands line, '\t' ∉ segment := by
    intro segment hs hm
    exact (h.plain _ (mem_of_mem_pieces (List.mem_of_mem_filter hs) hm)).2.2.2 rfl
  -- the segment of the typed line with the same cleaned text
  obtain ⟨segment, hs, heq⟩ : ∃ segment ∈ commands line, clean segment = clean command := by
    rw [← List.mem_map, clean_commands (fun hm => (h.plain _ hm).2.2.2 rfl),
      ← clean_singleCommands]
    exact List.mem_map.mpr ⟨command, List.mem_filter.mpr ⟨hcommand, by simpa using hne⟩, rfl⟩
  have hsline : ∀ c ∈ segment, inLine c = true :=
    fun c hc => inLine_firstLine c (mem_of_mem_pieces (List.mem_of_mem_filter hs) hc)
  refine ⟨⟨?_, hline, ?_, ?_⟩, ?_, ?_, ?_⟩
  · rw [← clean_of_inLine hline]
    exact hne
  · exact fun hm => (h.plain _ (hmem _ hm)).1 rfl
  · exact fun c hc => ⟨(h.plain c (hmem c hc)).2.1, (h.plain c (hmem c hc)).2.2.1⟩
  · exact fun hm => (h.plain _ (hmem _ hm)).2.2.2 rfl
  · rw [← heq]
    exact h.short segment hs
  · rw [← words_clean hline, ← heq, words_clean hsline, words_eq_spaceWords (htab segment hs)]
    exact h.few segment hs

/-- The words of the slots that are not blank. -/
theorem ListLine.words_singleCommands {line : CString} (h : ListLine line) :
    ((singleCommands line).filter (fun command => !(clean command).isEmpty)).map words =
      (commands line).map spaceWords := by
  have htab : '\t' ∉ firstLine line := fun hm => (h.plain _ hm).2.2.2 rfl
  have hslots : ((singleCommands line).filter (fun command => !(clean command).isEmpty)).map
      words = (((singleCommands line).filter (fun command => !(clean command).isEmpty)).map
      clean).map words := by
    rw [List.map_map]
    refine List.map_congr_left ?_
    intro command hcommand
    exact (words_clean (fun c hc => inLine_firstLine c
      (mem_singleCommands (List.mem_of_mem_filter hcommand) c hc))).symm
  rw [hslots, clean_singleCommands, ← clean_commands htab, List.map_map]
  refine List.map_congr_left ?_
  intro segment hs
  have hmem : ∀ c ∈ segment, c ∈ firstLine line :=
    fun c hc => mem_of_mem_pieces (List.mem_of_mem_filter hs) hc
  rw [Function.comp_apply, words_clean (fun c hc => inLine_firstLine c (hmem c hc)),
    words_eq_spaceWords (fun hm => htab (hmem _ hm))]

/-! ## 4. The children -/

/-- `run_processes` forks one child for each entry, or leaves at the first fork that fails. -/
theorem forkProcesses_plain (o : LineOutcome) : ∀ (number : Nat)
    (process : List (Process × w.Dir)) (s : Shell w),
    (∀ q ∈ process, q.1.redirected = .noRedi) →
    forkProcesses o number process s =
      if ∀ i < process.length, o.fork (number + i) = true then
        .ok { s with trace := s.trace ++ process.map (fun q => .fork (execv q.2 q.1 s)) }
      else .error (.exit 1)
  | _, [], s, _ => by
    rw [forkProcesses, if_pos (by simp), List.map_nil, List.append_nil]
  | number, (p, dir) :: ps, s, h => by
    obtain ⟨hp, hps⟩ := List.forall_mem_cons.mp h
    rw [forkProcesses, runProcess_noRedi hp]
    cases hfork : o.fork number with
    | false =>
      rw [if_neg Bool.false_ne_true, if_neg]
      intro hall
      have h0 := hall 0 (Nat.succ_pos _)
      rw [Nat.add_zero, hfork] at h0
      cases h0
    | true =>
      have hiff : (∀ i < ps.length, o.fork (number + 1 + i) = true) ↔
          ∀ i < ((p, dir) :: ps).length, o.fork (number + i) = true := by
        rw [List.length_cons, Nat.forall_lt_succ_left]
        simp only [Nat.add_zero, hfork, true_and, Nat.add_assoc, Nat.add_comm 1]
      rw [if_pos rfl, forkProcesses_plain o (number + 1) ps _ hps]
      simp only [hiff]
      congr 2
      simp [Shell.log, execv]

end Osexp.Seush
