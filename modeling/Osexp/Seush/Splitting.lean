/-
# Cleaning a text and cutting it commute

A line is cleaned by `run_shell` and again by `parse_command`, cut at `&`, each segment is cleaned
to see whether it is blank, and `handle_pipe` cleans what it cuts off at `|` and what is
left.  What comes out is what one gets by cutting the typed text at `&` and `|` and cleaning the
tokens (`cleanTokens`).

`splitting_iff`: this is so for every text whose only newline is its last character, exactly as
long as `clean` can count the characters of the text (`copied`).  Every later call works on a part
of the text, and copies no more than the first one (`Counted.sublist`).

That the passes can be exchanged is not a matter of course: `clean` cuts at a newline and at a NUL,
drops blanks at both ends, and is applied to parts that another function has cut out of its own
result.  The condition comes from its counter, which is an `int`; the theorem says that it is the
only thing in the way.
-/
import Osexp.Seush.InPlace
import Osexp.Seush.Wiring

namespace Osexp.Seush

open Text

/-! ## 1. The passes over the text -/

/-- `clean` on a string of its own. -/
def cleanString (s : CString) : Except Stop CString :=
  ((cleanRun (s.length + 2)).run ⟨s ++ ['\x00'], []⟩).map (fun r => cstr r.2.cells)

/-- The texts that are not blank, when all are cleaned. -/
def nonblank (texts : List CString) : List CString := texts.filter (fun text => !text.isEmpty)

/-- Every token cleaned, without the blank ones. -/
def cleanTokens (texts : List CString) : Except Stop (List CString) := do
  let cleaned ← texts.mapM cleanString
  pure (nonblank cleaned)

/-- Cleaning the text before it is cut. -/
def cleanThenSplit (d : Char) (s : CString) : Except Stop (List CString) := do
  let line ← cleanString s
  cleanTokens (strtokAll [d] line)

/-- The cleaning in `handle_pipe`: the first command, and what is left for the next call. -/
def pipeCommands : Nat → CString → Except Stop (List CString)
  | 0, _ => .error .fuel
  | fuel + 1, line =>
    match strtok ['|'] line with
    | none => .ok []
    | some (token, rest) => do
      let firstCommand ← cleanString token
      if rest = [] then pure [firstCommand]
      else
        let leftover ← cleanString rest
        let later ← pipeCommands fuel leftover
        pure (firstCommand :: later)

/-- A turn of the loop in `parse_command`: `cur_command` is cleaned only to be compared with `""`.
-/
def segmentCommands (command : CString) : Except Stop (List CString) := do
  let curCommand ← cleanString command
  if curCommand = [] then pure [] else pipeCommands (command.length + 1) command

/-- The commands of a line, as `run_shell`, `parse_command` and `handle_pipe` cut them out. -/
def shellCommands (line : CString) : Except Stop (List CString) := do
  let line ← cleanString line
  let line ← cleanString line
  let commands ← (strtokAll ['&'] line).mapM segmentCommands
  pure (nonblank commands.flatten)

/-- The commands as they are typed. -/
def typedCommands (line : CString) : Except Stop (List CString) :=
  cleanTokens ((strtokAll ['&'] line).flatMap (strtokAll ['|']))

/-- Cleaning a text changes nothing about the commands in it. -/
structure CleaningCommutes (s : CString) : Prop where
  split : ∀ d, d = '&' ∨ d = '|' → ∃ commands, cleanThenSplit d s = .ok commands ∧
    cleanTokens (strtokAll [d] s) = .ok commands
  passes : ∃ commands, shellCommands s = .ok commands ∧ typedCommands s = .ok commands

/-! ## 2. Texts that `clean` can count -/

/-- A C string with at most one newline, at its end, of which `clean` does not copy more
characters than an `int` counts. -/
structure Counted (s : CString) : Prop where
  noNul : '\x00' ∉ s
  size : s.length + 1 < 2 ^ 64
  newline : '\n' ∉ s.dropLast
  counted : (copied s : Int) ≤ INT_MAX

theorem dropLast_sublist_dropLast {α : Type} {s t : List α} (h : s.Sublist t) :
    s.dropLast.Sublist t.dropLast := by
  have htail := h.reverse.tail
  rw [List.tail_reverse, List.tail_reverse] at htail
  exact List.reverse_sublist.mp htail

/-- Where the newline is the last character, the first line is all the rest. -/
theorem firstLine_eq_filter {s : CString} (hnul : '\x00' ∉ s) (hnewline : '\n' ∉ s.dropLast) :
    firstLine s = s.filter inLine := by
  induction s with
  | nil => rfl
  | cons c s ih =>
    obtain ⟨hc, hs⟩ := List.ne_and_not_mem_of_not_mem_cons hnul
    cases s with
    | nil =>
      rw [firstLine, List.takeWhile_cons, List.filter_cons]
      rfl
    | cons d s =>
      rw [List.dropLast_cons_of_ne_nil (List.cons_ne_nil d s)] at hnewline
      obtain ⟨hcn, hrest⟩ := List.ne_and_not_mem_of_not_mem_cons hnewline
      have hin : inLine c = true := by simp [inLine, Ne.symm hc, Ne.symm hcn]
      rw [firstLine_cons hin, List.filter_cons_of_pos hin, ih hs hrest]

theorem firstLine_sublist {s t : CString} (h : s.Sublist t) (hnul : '\x00' ∉ t)
    (hnewline : '\n' ∉ t.dropLast) : (firstLine s).Sublist (firstLine t) := by
  have hs : (firstLine s).filter inLine = firstLine s :=
    List.filter_eq_self.mpr (fun _ hc => List.mem_takeWhile_imp hc)
  rw [firstLine_eq_filter hnul hnewline, ← hs]
  exact ((List.takeWhile_sublist _).trans h).filter inLine

/-- **A part of a text that fits** fits as well. -/
theorem Counted.sublist {s t : CString} (h : Counted t) (hs : s.Sublist t) : Counted s := by
  have hcopied : copied s ≤ copied t :=
    length_collapse_sublist (firstLine_sublist hs h.noNul h.newline) true
  have hlen := hs.length_le
  have hsize := h.size
  have hcounted := h.counted
  refine ⟨?_, by omega, ?_, by omega⟩
  · exact fun hm => h.noNul (hs.subset hm)
  · exact fun hm => h.newline ((dropLast_sublist_dropLast hs).subset hm)

/-- A string alone in its buffer. -/
def InMemory.ofText (s : CString) (hnul : '\x00' ∉ s) (hsize : s.length + 1 < 2 ^ 64) :
    InMemory where
  text := s
  behind := []
  noNul := hnul
  size := hsize

/-- Where the text can be counted, `clean` leaves its normal form. -/
theorem cleanString_ok {s : CString} (h : Counted s) : cleanString s = .ok (clean s) := by
  obtain ⟨m, hrun, hclean⟩ := cleanRun_ok (b := InMemory.ofText s h.noNul h.size) h.counted
  have hfuel : (InMemory.ofText s h.noNul h.size).bytes.length + 1 = s.length + 2 :=
    congrArg (· + 1) (InMemory.ofText s h.noNul h.size).length_bytes
  rw [hfuel] at hrun
  have hrun' : (cleanRun (s.length + 2)).run ⟨s ++ ['\x00'], []⟩ = .ok ((), m) := hrun
  rw [cleanString, hrun', clean_eq]
  exact congrArg Except.ok hclean.normal

theorem cleanString_overflow {s : CString} (hnul : '\x00' ∉ s) (hsize : s.length + 1 < 2 ^ 64)
    (h : INT_MAX < (copied s : Int)) : ∃ e, cleanString s = .error e := by
  obtain ⟨e, he⟩ := cleanRun_overflow (b := InMemory.ofText s hnul hsize) h (s.length + 2)
  have he' : (cleanRun (s.length + 2)).run ⟨s ++ ['\x00'], []⟩ = .error e := he
  exact ⟨e, by rw [cleanString, he']; rfl⟩

/-! ## 3. The parts of a text -/

section Parts

variable {s token rest : CString}

theorem clean_sublist (s : CString) : (clean s).Sublist s := by
  rw [clean_eq]
  exact (squeeze_sublist _).trans (List.takeWhile_sublist _)

theorem strtokAll_sublist {delims : List Char} (h : token ∈ strtokAll delims s) :
    token.Sublist s := by
  rw [strtokAll_eq] at h
  exact sublist_of_mem_tokens h

theorem strtok_rest_sublist {delims : List Char} (h : strtok delims s = some (token, rest)) :
    rest.Sublist s :=
  sublist_of_nextToken h

theorem Counted.clean (h : Counted s) : Counted (clean s) := h.sublist (clean_sublist s)

theorem Counted.of_token {delims : List Char} (h : Counted s) (ht : token ∈ strtokAll delims s) :
    Counted token :=
  h.sublist (strtokAll_sublist ht)

theorem Counted.of_rest {delims : List Char} (h : Counted s)
    (hr : strtok delims s = some (token, rest)) : Counted rest :=
  h.sublist (strtok_rest_sublist hr)

/-- The tokens, one call of `strtok` after the other. -/
theorem strtokAll_of_some {delims : List Char} (h : strtok delims s = some (token, rest)) :
    strtokAll delims s = token :: strtokAll delims rest := by
  rw [strtokAll_eq, strtokAll_eq]
  exact tokens_of_nextToken h

theorem strtokAll_of_none {delims : List Char} (h : strtok delims s = none) :
    strtokAll delims s = [] := by
  rw [strtokAll_eq]
  exact tokens_eq_nil_iff.mpr (nextToken_eq_none_iff.mp h)

end Parts

/-! ## 4. The normal forms -/

section NormalForms

variable {s : CString} {d : Char}

theorem firstLine_clean (s : CString) : firstLine (clean s) = clean s := by
  refine List.takeWhile_eq_self_iff.mpr ?_
  intro c hc
  rw [clean_eq] at hc
  exact List.mem_takeWhile_imp (mem_of_mem_squeeze hc)

theorem clean_clean (s : CString) : clean (clean s) = clean s := by
  rw [clean_eq (clean s), firstLine_clean, clean_eq, squeeze_idem]

/-- The pieces of a text, cleaned, are the squeezed pieces of its first line. -/
theorem map_clean_pieces (h : Counted s) (hd : inLine d = true) :
    (pieces d s).map clean = (pieces d (firstLine s)).map (squeeze isBlank) := by
  have hfirst : ∀ piece ∈ pieces d s, clean piece = squeeze isBlank (piece.filter inLine) := by
    intro piece hpiece
    have hfits := h.sublist (sublist_of_mem_pieces hpiece)
    rw [clean_eq, firstLine_eq_filter hfits.noNul hfits.newline]
  rw [List.map_congr_left hfirst, firstLine_eq_filter h.noNul h.newline, pieces_filter hd,
    List.map_map]
  rfl

/-- **Cutting the cleaned text**, piece by piece: each piece has the same normal form. -/
theorem map_clean_pieces_clean (h : Counted s) (hd : inLine d = true) (hb : isBlank d = false) :
    (pieces d (clean s)).map clean = (pieces d s).map clean := by
  rw [map_clean_pieces h.clean hd, firstLine_clean, clean_eq, map_squeeze_pieces hb,
    ← map_clean_pieces h hd]

theorem nonblank_tokens (d : Char) (s : CString) :
    nonblank ((strtokAll [d] s).map clean) = nonblank ((pieces d s).map clean) := by
  rw [strtokAll_eq]
  refine filter_map_tokens ?_ rfl s
  intro c
  simp

/-- **Cleaning before the cut changes no token that is not blank.** -/
theorem nonblank_clean (h : Counted s) (hd : inLine d = true) (hb : isBlank d = false) :
    nonblank ((strtokAll [d] (clean s)).map clean) = nonblank ((strtokAll [d] s).map clean) := by
  rw [nonblank_tokens, nonblank_tokens, map_clean_pieces_clean h hd hb]

end NormalForms

/-! ## 5. The commands of a text -/

section Commands

variable {s : CString}

theorem nonblank_cons_congr (text : CString) {ts us : List CString}
    (h : nonblank ts = nonblank us) : nonblank (text :: ts) = nonblank (text :: us) := by
  unfold nonblank at h ⊢
  rw [List.filter_cons, List.filter_cons, h]

/-- The commands between the bars of a text. -/
def barCommands (s : CString) : List CString := nonblank ((strtokAll ['|'] s).map clean)

theorem barCommands_nil : barCommands [] = [] := by
  rw [barCommands, strtokAll_of_none rfl]
  rfl

theorem barCommands_clean (h : Counted s) : barCommands (clean s) = barCommands s :=
  nonblank_clean h rfl isBlank_bar

/-- **The recursion of `handle_pipe`** finds the commands between the bars. -/
theorem nonblank_stages (s : CString) : Counted s → nonblank (stages s).1 = barCommands s := by
  induction s using pipeline_induction with
  | null s hs =>
    intro _
    rw [stages_null hs, barCommands, strtokAll_of_none hs]
    rfl
  | single s token hs =>
    intro _
    rw [stages_single hs, barCommands, strtokAll_of_some hs, strtokAll_of_none rfl]
    rfl
  | piped s token rest hs hr ih =>
    intro h
    have hrest := h.of_rest hs
    have hlater := (ih hrest.clean).trans (barCommands_clean hrest)
    rw [stages_piped hs hr, barCommands, strtokAll_of_some hs, List.map_cons]
    exact nonblank_cons_congr _ hlater

/-- What a turn of the segment loop makes of a segment. -/
def segmentStages (s : CString) : List CString := if clean s = [] then [] else (stages s).1

theorem nonblank_segmentStages (h : Counted s) : nonblank (segmentStages s) = barCommands s := by
  unfold segmentStages
  split
  · rename_i hblank
    rw [← barCommands_clean h, hblank, barCommands_nil]
    rfl
  · exact nonblank_stages s h

/-- Only the segments that are not blank have commands, and they have those of their normal form. -/
theorem flatMap_barCommands (segments : List CString) (h : ∀ t ∈ segments, Counted t) :
    segments.flatMap barCommands = (nonblank (segments.map clean)).flatMap barCommands := by
  induction segments with
  | nil => rfl
  | cons t ts ih =>
    obtain ⟨ht, hts⟩ := List.forall_mem_cons.mp h
    have hrest := ih hts
    unfold nonblank at hrest ⊢
    rw [List.flatMap_cons, List.map_cons, List.filter_cons, hrest, ← barCommands_clean ht]
    split
    · rw [List.flatMap_cons]
    · rename_i hblank
      have hnil : clean t = [] := by simpa using hblank
      rw [hnil, barCommands_nil, List.nil_append]

theorem nonblank_flatten (lists : List (List CString)) :
    nonblank lists.flatten = lists.flatMap nonblank :=
  List.filter_flatten

/-- The line that `parse_command` gets is clean already. -/
theorem singleCommands_clean (s : CString) :
    singleCommands (clean s) = strtokAll ['&'] (clean s) := by
  rw [singleCommands, clean_clean]

/-- **The commands of the cleaned line** are those of the line. -/
theorem nonblank_segments (h : Counted s) :
    nonblank ((singleCommands (clean s)).map segmentStages).flatten =
      nonblank (((strtokAll ['&'] s).flatMap (strtokAll ['|'])).map clean) := by
  have hsegment : ∀ t ∈ strtokAll ['&'] (clean s), nonblank (segmentStages t) = barCommands t :=
    fun t ht => nonblank_segmentStages (h.clean.of_token ht)
  calc nonblank ((singleCommands (clean s)).map segmentStages).flatten
      = (strtokAll ['&'] (clean s)).flatMap barCommands := by
        rw [nonblank_flatten, List.flatMap_map, singleCommands_clean]
        exact List.flatMap_congr hsegment
    _ = (nonblank ((strtokAll ['&'] (clean s)).map clean)).flatMap barCommands :=
        flatMap_barCommands _ (fun t ht => h.clean.of_token ht)
    _ = (nonblank ((strtokAll ['&'] s).map clean)).flatMap barCommands := by
        rw [nonblank_clean h rfl rfl]
    _ = (strtokAll ['&'] s).flatMap barCommands :=
        (flatMap_barCommands _ (fun t ht => h.of_token ht)).symm
    _ = nonblank (((strtokAll ['&'] s).flatMap (strtokAll ['|'])).map clean) := by
        rw [List.map_flatMap, nonblank, List.filter_flatMap]
        rfl

end Commands

/-! ## 6. The passes, where the text can be counted -/

section Passes

variable {s : CString}

/-- Steps that all succeed, one for each entry of a list. -/
theorem mapM_ok {α β ε : Type} {f : α → Except ε β} {g : α → β} {xs : List α}
    (h : ∀ x ∈ xs, f x = .ok (g x)) : xs.mapM f = .ok (xs.map g) := by
  induction xs with
  | nil => rfl
  | cons x xs ih =>
    obtain ⟨hx, hxs⟩ := List.forall_mem_cons.mp h
    rw [List.mapM_cons, hx, ih hxs]
    rfl

theorem cleanTokens_ok {texts : List CString} (h : ∀ t ∈ texts, Counted t) :
    cleanTokens texts = .ok (nonblank (texts.map clean)) := by
  rw [cleanTokens, mapM_ok (fun t ht => cleanString_ok (h t ht))]
  rfl

theorem cleanThenSplit_ok (d : Char) (h : Counted s) :
    cleanThenSplit d s = .ok (nonblank ((strtokAll [d] (clean s)).map clean)) := by
  rw [cleanThenSplit, cleanString_ok h]
  exact cleanTokens_ok (fun t ht => h.clean.of_token ht)

theorem pipeCommands_ok : ∀ (fuel : Nat) (s : CString), s.length < fuel → Counted s →
    pipeCommands fuel s = .ok (stages s).1
  | 0, s, hlt, _ => absurd hlt (Nat.not_lt_zero _)
  | fuel + 1, s, hlt, h => by
    rw [pipeCommands]
    cases hs : strtok ['|'] s with
    | none => rw [stages_null hs]
    | some tr =>
      obtain ⟨token, rest⟩ := tr
      have htoken : Counted token := by
        refine @Counted.of_token s token ['|'] h ?_
        rw [strtokAll_of_some hs]
        exact List.mem_cons_self
      have hrest := h.of_rest hs
      dsimp only
      rw [cleanString_ok htoken, cleanString_ok hrest]
      by_cases hr : rest = []
      · subst hr
        rw [stages_single hs]
        rfl
      · have hlen := strtok_rest_lt hs
        have hle := length_clean_le rest
        have hlater := pipeCommands_ok fuel (clean rest) (by omega) hrest.clean
        rw [stages_piped hs hr]
        simp only [bind, Except.bind, if_neg hr, hlater]
        rfl

theorem segmentCommands_ok (h : Counted s) : segmentCommands s = .ok (segmentStages s) := by
  rw [segmentCommands, cleanString_ok h, segmentStages]
  simp only [bind, Except.bind]
  split
  · rfl
  · exact pipeCommands_ok _ s (Nat.lt_succ_self _) h

theorem shellCommands_ok (h : Counted s) : shellCommands s =
    .ok (nonblank ((singleCommands (clean s)).map segmentStages).flatten) := by
  have hsegments : ∀ t ∈ singleCommands (clean s), segmentCommands t = .ok (segmentStages t) :=
    fun t ht => segmentCommands_ok (h.clean.clean.of_token ht)
  rw [shellCommands, cleanString_ok h]
  simp only [bind, Except.bind]
  rw [cleanString_ok h.clean]
  dsimp only
  rw [← singleCommands]
  rw [mapM_ok hsegments]
  rfl

theorem typedCommands_ok (h : Counted s) : typedCommands s =
    .ok (nonblank (((strtokAll ['&'] s).flatMap (strtokAll ['|'])).map clean)) := by
  refine cleanTokens_ok ?_
  intro t ht
  obtain ⟨segment, hsegment, htoken⟩ := List.mem_flatMap.mp ht
  exact (h.of_token hsegment).of_token htoken

theorem Counted.cleaningCommutes (h : Counted s) : CleaningCommutes s where
  split := by
    intro d hd
    refine ⟨_, cleanThenSplit_ok d h, ?_⟩
    rw [cleanTokens_ok (fun t ht => h.of_token ht)]
    rcases hd with rfl | rfl
    · rw [nonblank_clean h rfl rfl]
    · rw [nonblank_clean h rfl isBlank_bar]
  passes := by
    refine ⟨_, shellCommands_ok h, ?_⟩
    rw [typedCommands_ok h, nonblank_segments h]

end Passes

/-- Where the text has more characters, the first `clean` does not return. -/
theorem not_cleaningCommutes (b : InMemory) (h : INT_MAX < (copied b.text : Int)) :
    ¬ CleaningCommutes b.text := by
  have hsize : b.text.length + 1 < 2 ^ 64 := by
    have hobject := b.size
    omega
  obtain ⟨e, he⟩ := cleanString_overflow b.noNul hsize h
  intro hcommutes
  obtain ⟨commands, hcommands, _⟩ := hcommutes.split '&' (Or.inl rfl)
  rw [cleanThenSplit, he] at hcommands
  cases hcommands

/-- **When cleaning commutes with cutting**: when `clean` can count the characters of the text.  A
line is cleaned and cut several times, in an order that has grown with the program, and a reader
wants to think of it as cut once at the separators.  For every line that an `int` can count he may.
-/
theorem splitting_iff (b : InMemory) (hnewline : '\n' ∉ b.text.dropLast) :
    CleaningCommutes b.text ↔ (copied b.text : Int) ≤ INT_MAX := by
  constructor
  · intro h
    by_contra hover
    exact not_cleaningCommutes b (Int.not_le.mp hover) h
  · intro h
    have hobject := b.size
    exact Counted.cleaningCommutes ⟨b.noNul, by omega, hnewline, h⟩

/-- Blanks on both sides of the separators, a blank segment, and the newline at the end. -/
def typedLine : InMemory where
  text := "ls  \t|\twc & \t&pwd \n".toList
  behind := []
  noNul := by decide
  size := by decide

theorem typedLine_commutes : CleaningCommutes typedLine.text :=
  (splitting_iff typedLine (by decide)).mpr (by decide)

/-- A line of 2 GiB of `&` has no command, and `clean` counts every one of its characters. -/
theorem separators_overflow :
    '\n' ∉ (longLine '&' (by decide)).text.dropLast ∧
      ¬ CleaningCommutes (longLine '&' (by decide)).text := by
  constructor
  · intro h
    have hmem := List.dropLast_subset _ h
    exact absurd (List.eq_of_mem_replicate hmem) (by decide)
  · exact not_cleaningCommutes _ (longLine_overflow (by decide) rfl rfl)

end Osexp.Seush
