/-
# Tabs for spaces

`clean` takes tabs and spaces for the same: it cuts every run of them to its first character.  But
it keeps that character, and what reads the line afterwards does not: `run_shell` compares with
`"path "` and `"cd "`, `strtok` cuts at spaces only, and the scan sets of `handle_redirection` stop
at a tab and take spaces along.

The comment on `clean` ("redundant space and tab") makes one expect that it does not matter which of
the two is typed.  `parse_untab_iff` says for which lines that is so: among those that overrun no
array (`InBounds`) the ones none of whose tabs, after cleaning, stands where one of these readers
would see it (`TabsHarmless`).  A line that does overrun an array is left out, because what the
shell reads from it afterwards is not in the source.

`runLine_untab` draws the conclusion for the shell: lines that are read alike are run alike.
-/
import Osexp.Seush.Reading
import Osexp.Seush.Wiring

namespace Osexp.Seush

open Text

variable {w : World}

/-! ## 1. What is read from a line -/

def spaceFor (c : Char) : Char := if c = '\t' then ' ' else c

/-- The line with a space for every tab. -/
def untab (s : CString) : CString := s.map spaceFor

/-- The commands of a segment: what is read from each stage, and whether there is a last one. -/
def readSegment (command : CString) : List (Scratch → Except Fault Reading) × Bool :=
  ((stages command).1.map readCommand, (stages command).2)

/-- The commands that `parse_command` makes of a line: those of each segment that is not blank. -/
def readCommands (line : CString) :
    Except Fault (List (List (Scratch → Except Fault Reading) × Bool)) :=
  if MAX_ARGUMENTS_NUM ≤ (singleCommands line).length then .error (.overflow .singleCommands)
  else .ok (((singleCommands line).filter (fun c => !(clean c).isEmpty)).map readSegment)

/-- The entries of a `path` command. -/
def readPath (args : CString) : Except Fault (List CString) :=
  if MAX_PATH_NUM ≤ (strtokAll [' '] args).length then .error (.overflow .paths)
  else .ok (strtokAll [' '] args)

/-- The branch that `run_shell` takes, with what it has read for it. -/
inductive Parse
  | exit
  | help
  | path (entries : Except Fault (List CString))
  | cd (newDir : CString)
  | external (commands : Except Fault (List (List (Scratch → Except Fault Reading) × Bool)))

def parse (line : CString) : Parse :=
  match dispatch (clean line) with
  | .exit => .exit
  | .help => .help
  | .path args => .path (readPath args)
  | .cd newDir => .cd newDir
  | .external => .external (readCommands (clean line))

/-! ## 2. Where a tab does no harm -/

/-- The characters on which a scan set would go on if a tab were a space. -/
def notOperator (c : Char) : Bool := c != '\n' && c != '<' && c != '>'

/-- The text up to the next operator, and from there on. -/
def upTo (s : CString) : CString := s.takeWhile notOperator

def after (s : CString) : CString := s.dropWhile notOperator

/-- No tab in the name after `a` nor, if there is such a name, in one after `b` behind it. -/
def PlainNames (a b : Char) (s : CString) : Prop :=
  ∀ t, afterOp a s = some t → '\t' ∉ upTo t ∧
    (upTo t ≠ [] → ∀ r, afterOp b (after t) = some r → '\t' ∉ upTo r)

/-- Tabs only where the formats do not see them: as the last character before the first operator,
or after what they read. -/
structure PlainTabs (text : CString) : Prop where
  command : '\t' ∉ (upTo text).dropLast
  outIn : PlainNames '>' '<' (after text)
  inOut : PlainNames '<' '>' (after text)

/-- The tabs of the text do no harm: the text begins with an operator, so that nothing is taken of
it, or its tabs are plain. -/
def TextHarmless (text : CString) : Prop := upTo text ≠ [] → PlainTabs text

/-- The tabs of the line do no harm: none in the name of a directory for `cd`, none in the arguments
of `path`; and otherwise the line does not begin like `cd` or `path` with a tab, and the texts of
its commands are harmless. -/
def TabsHarmless (line : CString) : Prop :=
  match dispatch (clean line) with
  | .exit => True
  | .help => True
  | .path args => '\t' ∉ args
  | .cd newDir => '\t' ∉ newDir
  | .external => ¬ "path\t".toList <+: clean line ∧ ¬ "cd\t".toList <+: clean line ∧
      ∀ command ∈ singleCommands (clean line), clean command ≠ [] →
        ∀ text ∈ (stages command).1, TextHarmless text

/-- Nothing that is read from the line overruns an array: not the entries of a `path` command, nor
the segments of any other line, nor one of its texts. -/
def InBounds (line : CString) : Prop :=
  match dispatch (clean line) with
  | .path args => (spaceWords args).length < MAX_PATH_NUM
  | .external => (singleCommands (clean line)).length < MAX_ARGUMENTS_NUM ∧
      ∀ command ∈ singleCommands (clean line), clean command ≠ [] →
        ∀ text ∈ (stages command).1, ¬ Overruns text
  | _ => True

/-! ## 3. A text and its spaces -/

/-- A test that does not tell a tab from a space. -/
theorem spaceFor_keeps {p : Char → Bool} (h : p ' ' = p '\t') (c : Char) :
    p (spaceFor c) = p c := by
  unfold spaceFor
  split
  · rename_i hc
    rw [hc, h]
  · rfl

/-- The scan sets do: they take a space and stop at a tab. -/
theorem inScanset_spaceFor (c : Char) : inScanset (spaceFor c) = notOperator c := by
  unfold spaceFor
  split
  · rename_i hc
    rw [hc]
    rfl
  · rename_i hc
    have hne : (c != '\t') = true := bne_iff_ne.mpr hc
    simp only [inScanset, notOperator, hne, Bool.true_and]

theorem inScanset_iff {c : Char} : inScanset c = true ↔ c ≠ '\t' ∧ notOperator c = true := by
  simp [inScanset, notOperator, and_assoc]

theorem tab_notMem_untab (s : CString) : '\t' ∉ untab s := by
  intro h
  obtain ⟨c, _, hc⟩ := List.mem_map.mp h
  unfold spaceFor at hc
  split at hc
  · exact absurd hc (by decide)
  · contradiction

theorem untab_eq_self_iff {s : CString} : untab s = s ↔ '\t' ∉ s := by
  constructor
  · intro h
    rw [← h]
    exact tab_notMem_untab s
  · intro h
    have hc : ∀ c ∈ s, spaceFor c = c := by
      rintro c hc
      exact if_neg (fun he : c = '\t' => h (he ▸ hc))
    rw [untab, List.map_congr_left hc, List.map_id']

theorem length_untab (s : CString) : (untab s).length = s.length := List.length_map ..

theorem untab_ne_nil {s : CString} (h : s ≠ []) : untab s ≠ [] :=
  fun hnil => h (List.map_eq_nil_iff.mp hnil)

/-- The tokens of a text have no blanks, so no tabs either. -/
theorem map_untab_tokens (s : CString) : (tokens isBlank s).map untab = tokens isBlank s := by
  have hword : ∀ word ∈ tokens isBlank s, untab word = word := by
    intro word hw
    refine untab_eq_self_iff.mpr (fun htab => ?_)
    exact absurd ((mem_tokens hw).2 _ htab) (by decide)
  rw [List.map_congr_left hword, List.map_id']

theorem takeWhile_untab {p q : Char → Bool} (h : ∀ c, q (spaceFor c) = p c) (s : CString) :
    (untab s).takeWhile q = untab (s.takeWhile p) := by
  rw [untab, List.takeWhile_map, (funext h : q ∘ spaceFor = p), untab]

theorem dropWhile_untab {p q : Char → Bool} (h : ∀ c, q (spaceFor c) = p c) (s : CString) :
    (untab s).dropWhile q = untab (s.dropWhile p) := by
  rw [untab, List.dropWhile_map, (funext h : q ∘ spaceFor = p), untab]

theorem upTo_append_after (s : CString) : upTo s ++ after s = s :=
  List.takeWhile_append_dropWhile

theorem notOperator_upTo {s : CString} : ∀ c ∈ upTo s, notOperator c = true :=
  fun _ hc => List.mem_takeWhile_imp hc

theorem scanset_append {u v : CString} (hu : ∀ c ∈ u, inScanset c = true)
    (hv : ∀ c ∈ v.head?, inScanset c = false) :
    (u ++ v).takeWhile inScanset = u ∧ (u ++ v).dropWhile inScanset = v := by
  rw [List.takeWhile_append_of_pos hu, List.dropWhile_append_of_pos hu]
  cases v with
  | nil => simp
  | cons c v => simp [hv c rfl]

/-- Without a tab a scan set takes the text up to the next operator. -/
theorem scanset_of_noTab {s : CString} (h : '\t' ∉ upTo s) :
    s.takeWhile inScanset = upTo s ∧ s.dropWhile inScanset = after s := by
  have hin : ∀ c ∈ upTo s, inScanset c = true :=
    fun c hc => inScanset_iff.mpr ⟨fun he => h (he ▸ hc), notOperator_upTo c hc⟩
  have hstop : ∀ c ∈ (after s).head?, inScanset c = false := by
    intro c hc
    have hhead := List.head?_dropWhile_not notOperator s
    rw [after] at hc
    rw [hc] at hhead
    simp [inScanset_iff, hhead, Bool.eq_false_iff]
  have happ := scanset_append hin hstop
  rwa [upTo_append_after] at happ

/-- With one, what stands before the first tab. -/
theorem scanset_of_tab {s u v : CString} (h : upTo s = u ++ '\t' :: v) (hu : '\t' ∉ u) :
    s.takeWhile inScanset = u ∧ s.dropWhile inScanset = '\t' :: (v ++ after s) := by
  have hin : ∀ c ∈ u, inScanset c = true := by
    intro c hc
    refine inScanset_iff.mpr ⟨fun he => hu (he ▸ hc), notOperator_upTo (s := s) c ?_⟩
    rw [h]
    exact List.mem_append_left _ hc
  have happ := scanset_append hin (v := '\t' :: (v ++ after s)) (by simp; decide)
  rwa [← List.cons_append, ← List.append_assoc, ← h, upTo_append_after] at happ

/-- What the scan set takes has no tab. -/
theorem tab_notMem_scanset (s : CString) : '\t' ∉ s.takeWhile inScanset := by
  intro h
  exact absurd (List.mem_takeWhile_imp h) (by decide)

/-- What the scan set takes is what it would take with spaces for tabs only when there are none. -/
theorem takeWhile_eq_untab_iff (s : CString) :
    s.takeWhile inScanset = untab (upTo s) ↔ '\t' ∉ upTo s := by
  constructor
  · intro h htab
    obtain ⟨u, v, huv, hu⟩ := List.eq_append_cons_of_mem htab
    have hlen := congrArg List.length h
    rw [(scanset_of_tab huv hu).1, length_untab, huv, List.length_append, List.length_cons] at hlen
    omega
  · intro h
    rw [(scanset_of_noTab h).1, untab_eq_self_iff.mpr h]

/-! ## 4. The file names -/

theorem afterOp_untab (a : Char) (s : CString) :
    afterOp a (untab s) = (afterOp a s).map untab := by
  have hskip : ∀ t, (untab t).dropWhile isSpace = untab (t.dropWhile isSpace) :=
    dropWhile_untab (spaceFor_keeps rfl)
  unfold afterOp
  rw [hskip]
  cases h : s.dropWhile isSpace with
  | nil => rfl
  | cons x t =>
    have hx : isSpace x = false := by
      have hhead := List.head?_dropWhile_not isSpace s
      rw [h] at hhead
      simpa using hhead
    have hkeep : spaceFor x = x := if_neg (fun he => by rw [he] at hx; cases hx)
    rw [untab, List.map_cons, hkeep]
    dsimp only
    split
    · rw [← untab, hskip, Option.map_some]
    · rfl

/-- A name does not begin with white space. -/
theorem head_afterOp {a : Char} {s t : CString} (h : afterOp a s = some t) :
    ∀ c ∈ t.head?, isSpace c = false := by
  unfold afterOp at h
  split at h
  · cases h
  · rename_i x r hr
    split at h
    · cases h
      intro c hc
      have hhead := List.head?_dropWhile_not isSpace r
      rw [hc] at hhead
      simpa using hhead
    · cases h

/-- Where a scan set takes nothing it would take nothing with spaces for tabs. -/
theorem takeWhile_eq_nil_iff {t : CString} (h : '\t' ∉ t.head?) :
    t.takeWhile inScanset = [] ↔ upTo t = [] := by
  cases t with
  | nil => simp [upTo]
  | cons c t =>
    have hc : inScanset c = notOperator c := by
      rw [← inScanset_spaceFor, spaceFor, if_neg]
      rintro rfl
      exact h rfl
    rw [upTo, List.takeWhile_cons, List.takeWhile_cons, hc]
    split <;> simp

theorem takeItem_untab (t : CString) :
    takeItem (untab t) = if upTo t = [] then none else some (untab (upTo t), untab (after t)) := by
  rw [takeItem, takeWhile_untab inScanset_spaceFor, dropWhile_untab inScanset_spaceFor, upTo, after,
    untab, List.isEmpty_map]
  simp only [List.isEmpty_iff]

theorem takeItem_eq {t : CString} (h : ∀ c ∈ t.head?, isSpace c = false) :
    takeItem t =
      if upTo t = [] then none else some (t.takeWhile inScanset, t.dropWhile inScanset) := by
  have htab : '\t' ∉ t.head? := fun hm => absurd (h '\t' hm) (by decide)
  rw [takeItem]
  simp only [List.isEmpty_iff, takeWhile_eq_nil_iff htab]

/-- **A name is the same with spaces for tabs** exactly when it has no tab. -/
theorem name_untab_iff (b : Char) (s : CString) :
    (operand b (untab s)).map Prod.fst = (operand b s).map Prod.fst ↔
      ∀ t, afterOp b s = some t → '\t' ∉ upTo t := by
  rw [operand, operand, afterOp_untab]
  cases hs : afterOp b s with
  | none => simp
  | some t =>
    rw [Option.map_some, Option.bind_some, Option.bind_some, takeItem_untab,
      takeItem_eq (head_afterOp hs)]
    rcases eq_or_ne (upTo t) [] with ht | ht
    · simp [ht]
    · rw [if_neg ht, if_neg ht, Option.map_some, Option.map_some, Option.some_inj]
      exact eq_comm.trans ((takeWhile_eq_untab_iff t).trans (by simp))

/-- **Both names**: the second is looked at only behind a first one. -/
theorem files_untab_iff (a b : Char) (s : CString) :
    files a b (untab s) = files a b s ↔ PlainNames a b s := by
  rw [files, files, operand, operand, afterOp_untab, PlainNames]
  cases hs : afterOp a s with
  | none => simp
  | some t =>
    rw [Option.map_some, Option.bind_some, Option.bind_some, takeItem_untab,
      takeItem_eq (head_afterOp hs)]
    rcases eq_or_ne (upTo t) [] with ht | ht
    · simp [ht]
    · rw [if_neg ht, if_neg ht, Option.map_some, Option.map_some, Option.some_inj, Prod.mk.injEq]
      constructor
      · rintro ⟨hname, hrest⟩ t' ht'
        cases ht'
        have htab := (takeWhile_eq_untab_iff t).mp hname.symm
        rw [(scanset_of_noTab htab).2] at hrest
        exact ⟨htab, fun _ => (name_untab_iff b _).mp hrest⟩
      · intro h
        obtain ⟨htab, hrest⟩ := h t rfl
        dsimp only
        rw [(scanset_of_noTab htab).2]
        exact ⟨((takeWhile_eq_untab_iff t).mpr htab).symm, (name_untab_iff b _).mpr (hrest ht)⟩

/-! ## 5. One text -/

/-- A text as `handle_pipe` hands it on: cleaned, so on one line and without two blanks in a row. -/
structure Cleaned (text : CString) : Prop where
  squeezed : squeeze isBlank text = text
  line : ∀ c ∈ text, inLine c = true

theorem cleaned_clean (s : CString) : Cleaned (clean s) := by
  rw [clean_eq]
  exact ⟨squeeze_idem _, fun c hc => List.mem_takeWhile_imp (mem_of_mem_squeeze hc)⟩

/-- The texts of a pipeline are cleaned. -/
theorem cleaned_stages (line : CString) : ∀ text ∈ (stages line).1, Cleaned text := by
  induction line using pipeline_induction with
  | null line h =>
    rw [stages_null h]
    exact fun _ htext => absurd htext List.not_mem_nil
  | single line token h =>
    rw [stages_single h]
    rintro text htext
    rw [List.mem_singleton.mp htext]
    exact cleaned_clean token
  | piped line token rest h hr ih =>
    rw [stages_piped h hr]
    exact List.forall_mem_cons.mpr ⟨cleaned_clean token, ih⟩

section OneText

variable {text : CString}

theorem mem_upTo {c : Char} (h : c ∈ upTo text) : c ∈ text := (List.takeWhile_sublist _).subset h

/-- The words of the command. -/
theorem Cleaned.words_command (h : Cleaned text) :
    argvItem text = words (text.takeWhile inScanset) :=
  IsStage.strtokAll_of_noTab (fun c hc => h.line c ((List.takeWhile_sublist _).subset hc))
    (tab_notMem_scanset text)

/-- With spaces for tabs they are those up to the operator. -/
theorem Cleaned.words_untab (h : Cleaned text) :
    argvItem (untab text) = words (upTo text) := by
  have hline : ∀ c ∈ untab (upTo text), inLine c = true := by
    intro c hc
    obtain ⟨d, hd, rfl⟩ := List.mem_map.mp hc
    exact (spaceFor_keeps (p := inLine) rfl d).trans (h.line d (mem_upTo hd))
  rw [argvItem, takeWhile_untab inScanset_spaceFor]
  refine (IsStage.strtokAll_of_noTab hline (tab_notMem_untab _)).trans ?_
  rw [words, untab, tokens_map (spaceFor_keeps rfl : ∀ c, isBlank (spaceFor c) = isBlank c)]
  exact map_untab_tokens _

/-- **The words are the same** exactly when no tab stands before the last character. -/
theorem Cleaned.words_iff (h : Cleaned text) :
    words (upTo text) = words (text.takeWhile inScanset) ↔ '\t' ∉ (upTo text).dropLast := by
  by_cases htab : '\t' ∈ upTo text
  · obtain ⟨u, v, huv, hu⟩ := List.eq_append_cons_of_mem htab
    have hwords : words (upTo text) = words u ++ words v := by
      rw [huv]
      exact tokens_append_cons rfl u v
    rw [(scanset_of_tab huv hu).1, hwords, huv, List.append_right_eq_self]
    cases v with
    | nil =>
      rw [List.dropLast_concat]
      exact ⟨fun _ => hu, fun _ => rfl⟩
    | cons y v =>
      have hneighbour : text = u ++ '\t' :: y :: (v ++ after text) := by
        conv_lhs => rw [← upTo_append_after text, huv]
        simp
      have hy : isBlank y = false := squeeze_neighbour (h.squeezed.trans hneighbour) rfl
      constructor
      · intro hnil
        have hblank := tokens_eq_nil_iff.mp hnil y List.mem_cons_self
        rw [hy] at hblank
        cases hblank
      · intro hno
        refine absurd ?_ hno
        simp
  · rw [(scanset_of_noTab htab).1]
    exact ⟨fun _ hm => htab (List.dropLast_subset _ hm), fun _ => rfl⟩

/-- Then the file names are looked for in the same place. -/
theorem files_rest (hplain : '\t' ∉ (upTo text).dropLast) (a b : Char) :
    files a b (text.dropWhile inScanset) = files a b (after text) := by
  by_cases htab : '\t' ∈ upTo text
  · obtain ⟨u, v, huv, hu⟩ := List.eq_append_cons_of_mem htab
    have hv : v = [] := by
      cases v with
      | nil => rfl
      | cons y v =>
        rw [huv] at hplain
        refine absurd ?_ hplain
        simp
    rw [(scanset_of_tab huv hu).2, hv]
    rfl
  · rw [(scanset_of_noTab htab).2]

theorem Cleaned.head (h : Cleaned text) : '\t' ∉ text.head? := by
  intro hm
  cases text with
  | nil => cases hm
  | cons c t =>
    cases hm
    exact absurd (squeeze_cons h.squeezed) (by decide)

theorem Cleaned.untabbed (h : Cleaned text) : Cleaned (untab text) := by
  constructor
  · rw [untab, squeeze_map (spaceFor_keeps rfl : ∀ c, isBlank (spaceFor c) = isBlank c),
      h.squeezed]
  · intro c hc
    obtain ⟨d, hd, rfl⟩ := List.mem_map.mp hc
    exact (spaceFor_keeps (p := inLine) rfl d).trans (h.line d hd)

/-- An item that fits has no more words than `argv` has room for. -/
theorem Cleaned.length_argvItem (h : Cleaned text) (hfit : overflow text = none) :
    (argvItem text).length ≤ MAX_ARGUMENTS_NUM := by
  have hshort : (text.takeWhile inScanset).length < MAX_COMMAND_NOREDI := by
    have hitems := itemsFit_iff.mpr (Option.map_eq_none_iff.mp hfit)
    rcases eq_or_ne (text.takeWhile inScanset) [] with hnil | hne
    · rw [hnil]
      decide
    · refine hitems (.commandNoredi, text.takeWhile inScanset) (List.mem_append_left _ ?_)
      rw [outInItems, scan_format₃, takeItem, if_neg (by simpa using hne)]
      exact List.mem_cons_self
  have hsp : ∀ x ∈ squeeze isBlank (text.takeWhile inScanset), isBlank x = true → x = ' ' := by
    intro x hx hb
    have hne : x ≠ '\t' :=
      fun he => tab_notMem_scanset text (he ▸ mem_of_mem_squeeze hx)
    simpa [isBlank, hne] using hb
  have htwo := two_mul_length_le_join
    (fun word hw => (mem_tokens hw).1 : ∀ v ∈ words (text.takeWhile inScanset), v ≠ [])
  rw [words, ← squeeze_eq_join hsp] at htwo
  have hle := length_squeeze_le (p := isBlank) (text.takeWhile inScanset)
  rw [h.words_command, words]
  simp only [MAX_COMMAND_NOREDI, MAX_ARGUMENTS_NUM] at *
  omega

/-- **A cleaned text whose items fit is read.** -/
theorem Cleaned.reading (h : Cleaned text) (hfit : overflow text = none)
    (hne : text.takeWhile inScanset ≠ []) (b : Scratch) :
    readCommand text b =
      .ok (readingOf (argvItem text) (outFiles text) (inFiles text)) := by
  rw [readCommand_eq hfit hne, if_neg (Nat.not_lt.mpr (h.length_argvItem hfit))]

/-- **What the formats take is the same with spaces for tabs** exactly when the tabs are plain. -/
theorem Cleaned.plainTabs_iff (h : Cleaned text) :
    PlainTabs text ↔ argvItem (untab text) = argvItem text ∧
      outFiles (untab text) = outFiles text ∧
      inFiles (untab text) = inFiles text := by
  have hrest : (untab text).dropWhile inScanset = untab (after text) :=
    dropWhile_untab inScanset_spaceFor text
  rw [h.words_command, h.words_untab, h.words_iff, outFiles, outFiles, inFiles, inFiles, hrest]
  constructor
  · intro hplain
    rw [files_rest hplain.command, files_rest hplain.command]
    exact ⟨hplain.command, (files_untab_iff _ _ _).mpr hplain.outIn,
      (files_untab_iff _ _ _).mpr hplain.inOut⟩
  · rintro ⟨hcommand, hout, hin⟩
    rw [files_rest hcommand] at hout hin
    exact ⟨hcommand, (files_untab_iff _ _ _).mp hout, (files_untab_iff _ _ _).mp hin⟩

/-- Where no array is too small the readings are made of the items. -/
theorem Cleaned.readCommand_untab_eq (h : Cleaned text) (hfit : overflow text = none)
    (hfit' : overflow (untab text) = none) (hne : upTo text ≠ []) :
    readCommand (untab text) = readCommand text ↔ PlainTabs text := by
  have htext : text.takeWhile inScanset ≠ [] :=
    fun hnil => hne ((takeWhile_eq_nil_iff h.head).mp hnil)
  have huntab : (untab text).takeWhile inScanset ≠ [] := by
    rw [takeWhile_untab inScanset_spaceFor]
    exact untab_ne_nil hne
  rw [h.plainTabs_iff]
  constructor
  · intro heq
    have hread := congrFun heq (fun _ => [])
    rw [h.reading hfit htext, h.untabbed.reading hfit' huntab] at hread
    exact readingOf_inj (Except.ok.inj hread)
  · rintro ⟨hargv, hout, hin⟩
    funext b
    rw [h.reading hfit htext, h.untabbed.reading hfit' huntab, hargv, hout, hin]

/-- **A text is read as with spaces for its tabs** exactly when they do no harm.  The three readers
of the text are compared one by one: the words, the name behind the first operator, and the one
behind the second. -/
theorem Cleaned.readCommand_untab_iff (h : Cleaned text) (hfit : overflow text = none)
    (hfit' : overflow (untab text) = none) :
    readCommand (untab text) = readCommand text ↔ TextHarmless text := by
  rcases eq_or_ne (upTo text) [] with hnil | hne
  · have htake : (untab text).takeWhile inScanset = [] := by
      rw [takeWhile_untab inScanset_spaceFor]
      exact congrArg untab hnil
    rw [readCommand_nothing ((takeWhile_eq_nil_iff h.head).mpr hnil), readCommand_nothing htake]
    exact ⟨fun _ hne => absurd hnil hne, fun _ => rfl⟩
  · rw [h.readCommand_untab_eq hfit hfit' hne]
    exact ⟨fun hplain _ => hplain, fun hharm => hharm hne⟩

end OneText

/-! ## 6. The passes over a line -/

theorem clean_untab (s : CString) : clean (untab s) = untab (clean s) := by
  have hline : firstLine (untab s) = untab (firstLine s) := takeWhile_untab (spaceFor_keeps rfl) s
  rw [clean_eq, clean_eq, hline, untab,
    squeeze_map (spaceFor_keeps rfl : ∀ c, isBlank (spaceFor c) = isBlank c), untab]

theorem clean_untab_eq_nil (s : CString) : clean (untab s) = [] ↔ clean s = [] := by
  rw [clean_untab, untab, List.map_eq_nil_iff]

theorem strtok_bar_untab (line : CString) :
    strtok ['|'] (untab line) = (strtok ['|'] line).map (Prod.map untab untab) :=
  nextToken_map (spaceFor_keeps rfl) line

theorem strtok_bar_none {line : CString} (h : strtok ['|'] line = none) :
    strtok ['|'] (untab line) = none := by
  rw [strtok_bar_untab, h, Option.map_none]

theorem strtok_bar_some {line token rest : CString}
    (h : strtok ['|'] line = some (token, rest)) :
    strtok ['|'] (untab line) = some (untab token, untab rest) := by
  rw [strtok_bar_untab, h, Option.map_some, Prod.map_apply]

/-- Cutting at `&`. -/
theorem singleCommands_untab (line : CString) :
    singleCommands (untab line) = (singleCommands line).map untab := by
  rw [singleCommands, singleCommands, clean_untab, strtokAll_eq, strtokAll_eq]
  exact tokens_map (spaceFor_keeps rfl) (clean line)

/-- Cutting at `|`. -/
theorem stages_untab (line : CString) :
    stages (untab line) = ((stages line).1.map untab, (stages line).2) := by
  induction line using pipeline_induction with
  | null line h => rw [stages_null h, stages_null (strtok_bar_none h), List.map_nil]
  | single line token h =>
    rw [stages_single h, stages_single (strtok_bar_some h), clean_untab, List.map_singleton]
  | piped line token rest h hr ih =>
    rw [stages_piped h hr, stages_piped (strtok_bar_some h) (untab_ne_nil hr), clean_untab,
      clean_untab, ih, List.map_cons]

theorem readSegment_untab_iff (command : CString) :
    readSegment (untab command) = readSegment command ↔
      ∀ text ∈ (stages command).1, readCommand (untab text) = readCommand text := by
  rw [readSegment, readSegment, stages_untab, Prod.mk.injEq, List.map_map, List.map_inj_left]
  exact ⟨fun h => h.1, fun h => ⟨h, rfl⟩⟩

theorem readCommands_untab_iff (line : CString) :
    readCommands (untab line) = readCommands line ↔
      ((singleCommands line).length < MAX_ARGUMENTS_NUM →
        ∀ command ∈ singleCommands line, clean command ≠ [] →
          ∀ text ∈ (stages command).1, readCommand (untab text) = readCommand text) := by
  have hblank : ((fun c => !(clean c).isEmpty) ∘ untab) = fun c => !(clean c).isEmpty := by
    funext c
    rw [Function.comp_apply, clean_untab, untab, List.isEmpty_map]
  rw [readCommands, readCommands, singleCommands_untab, List.length_map]
  split
  · rename_i hmany
    exact ⟨fun _ hfew => absurd hmany (Nat.not_le.mpr hfew), fun _ => rfl⟩
  · rename_i hfew
    rw [List.filter_map, hblank, List.map_map, Except.ok.injEq, List.map_inj_left]
    constructor
    · intro h _ command hcommand hne
      refine (readSegment_untab_iff command).mp (h command ?_)
      exact List.mem_filter.mpr ⟨hcommand, by simpa using hne⟩
    · intro h command hcommand
      obtain ⟨hmem, hne⟩ := List.mem_filter.mp hcommand
      exact (readSegment_untab_iff command).mpr
        (h (Nat.not_le.mp hfew) command hmem (by simpa using hne))

/-- The words of a `path` command keep their tabs. -/
theorem readPath_untab_iff {args : CString} (hfit : (spaceWords args).length < MAX_PATH_NUM)
    (hfit' : (spaceWords (untab args)).length < MAX_PATH_NUM) :
    readPath (untab args) = readPath args ↔ '\t' ∉ args := by
  rw [readPath, readPath, strtokAll_space, strtokAll_space, if_neg (Nat.not_le.mpr hfit),
    if_neg (Nat.not_le.mpr hfit'), Except.ok.injEq]
  constructor
  · intro heq htab
    have hmem : '\t' ∈ (spaceWords args).flatten := by
      rw [spaceWords, flatten_tokens]
      exact List.mem_filter.mpr ⟨htab, rfl⟩
    rw [← heq, spaceWords, flatten_tokens] at hmem
    exact tab_notMem_untab args (List.mem_of_mem_filter hmem)
  · intro htab
    rw [untab_eq_self_iff.mpr htab]

/-! ## 7. The branches -/

/-- A word without blanks is the line itself or not with spaces for tabs. -/
theorem untab_eq_iff {l k : CString} (hword : k.any isBlank = false) :
    untab l = k ↔ l = k := by
  have hk : ∀ c ∈ k, ¬ isBlank c = true := List.any_eq_false.mp hword
  have htab : '\t' ∉ k := fun hm => hk _ hm rfl
  constructor
  · intro h
    have hl : '\t' ∉ l := fun hm =>
      hk ' ' (h ▸ List.mem_map_of_mem (f := spaceFor) hm) rfl
    rw [← h, untab_eq_self_iff.mpr hl]
  · rintro rfl
    exact untab_eq_self_iff.mpr htab

/-- A line that begins with a word and a space has either blank there. -/
theorem command_untab_iff {k l : CString} (hword : k.any isBlank = false) :
    k ++ [' '] <+: untab l ↔ k ++ [' '] <+: l ∨ k ++ ['\t'] <+: l := by
  induction k generalizing l with
  | nil =>
    cases l with
    | nil => simp [untab]
    | cons c l =>
      have hc : ' ' = spaceFor c ↔ ' ' = c ∨ '\t' = c := by
        unfold spaceFor
        split
        · rename_i h
          exact ⟨fun _ => Or.inr h.symm, fun _ => rfl⟩
        · rename_i h
          exact ⟨Or.inl, fun h' => h'.resolve_right (fun he => h he.symm)⟩
      simp only [untab, List.map_cons, List.nil_append, List.cons_prefix_cons, List.nil_prefix,
        and_true, hc]
  | cons x k ih =>
    rw [List.any_cons, Bool.or_eq_false_iff] at hword
    obtain ⟨hx, hword⟩ := hword
    cases l with
    | nil => simp [untab]
    | cons c l =>
      have hc : x = spaceFor c ↔ x = c := by
        unfold spaceFor
        split
        · rename_i h
          rw [h]
          constructor
          · intro he
            rw [he] at hx
            cases hx
          · intro he
            rw [he] at hx
            cases hx
        · rfl
      simp only [untab, List.map_cons, List.cons_append, List.cons_prefix_cons, hc]
      rw [← untab, ih hword, and_or_left]

/-- **The branch with spaces for tabs.** -/
theorem dispatch_untab (l : CString) :
    dispatch (untab l) = match dispatch l with
      | .exit => .exit
      | .help => .help
      | .path args => .path (untab args)
      | .cd newDir => .cd (untab newDir)
      | .external =>
        if "path\t".toList <+: l then .path (untab (l.drop 4))
        else if "cd\t".toList <+: l then .cd (untab (l.drop 3))
        else .external := by
  have hexit : untab l = "exit".toList ↔ l = "exit".toList := untab_eq_iff rfl
  have hhelp : untab l = "help".toList ↔ l = "help".toList := untab_eq_iff rfl
  have hpath : untab l = "path".toList ↔ l = "path".toList := untab_eq_iff rfl
  have hpath' : "path ".toList <+: untab l ↔ "path ".toList <+: l ∨ "path\t".toList <+: l :=
    command_untab_iff (k := "path".toList) rfl
  have hcd : "cd ".toList <+: untab l ↔ "cd ".toList <+: l ∨ "cd\t".toList <+: l :=
    command_untab_iff (k := "cd".toList) rfl
  have hdrop : ∀ n, (untab l).drop n = untab (l.drop n) := fun n => List.map_drop.symm
  have hboth : "cd ".toList <+: l → ¬ "path\t".toList <+: l := by
    rintro ⟨u, rfl⟩ h
    exact absurd (List.cons_prefix_cons.mp h).1 (by decide)
  unfold dispatch
  simp only [hexit, hhelp, hpath, hpath', hcd, hdrop, ← or_assoc]
  by_cases h₁ : l = "exit".toList
  · rw [if_pos h₁, if_pos h₁]
  by_cases h₂ : l = "help".toList
  · rw [if_neg h₁, if_pos h₂, if_neg h₁, if_pos h₂]
  rw [if_neg h₁, if_neg h₂, if_neg h₁, if_neg h₂]
  by_cases h₃ : l = "path".toList ∨ "path ".toList <+: l
  · rw [if_pos (Or.inl h₃), if_pos h₃]
  rw [if_neg h₃]
  by_cases h₄ : "cd ".toList <+: l
  · rw [if_neg (not_or.mpr ⟨h₃, hboth h₄⟩), if_pos (Or.inl h₄), if_pos h₄]
  · rw [if_neg h₄]
    simp only [h₃, h₄, false_or]

/-- The texts of two such lines, when neither line overruns an array. -/
theorem texts_untab_iff {line : CString}
    (hfit : ∀ command ∈ singleCommands line, clean command ≠ [] →
      ∀ text ∈ (stages command).1, ¬ Overruns text)
    (hfit' : ∀ command ∈ singleCommands (untab line), clean command ≠ [] →
      ∀ text ∈ (stages command).1, ¬ Overruns text) :
    (∀ command ∈ singleCommands line, clean command ≠ [] →
        ∀ text ∈ (stages command).1, readCommand (untab text) = readCommand text) ↔
      ∀ command ∈ singleCommands line, clean command ≠ [] →
        ∀ text ∈ (stages command).1, TextHarmless text := by
  have hone : ∀ command ∈ singleCommands line, clean command ≠ [] →
      ∀ text ∈ (stages command).1,
        (readCommand (untab text) = readCommand text ↔ TextHarmless text) := by
    intro command hcommand hne text htext
    have hshort := (not_or.mp (hfit command hcommand hne text htext)).1
    have hshort' := (not_or.mp (hfit' (untab command)
      (by rw [singleCommands_untab]; exact List.mem_map_of_mem hcommand)
      (fun hnil => hne ((clean_untab_eq_nil command).mp hnil)) (untab text)
      (by rw [stages_untab]; exact List.mem_map_of_mem htext))).1
    exact (cleaned_stages command text htext).readCommand_untab_iff (not_not.mp hshort)
      (not_not.mp hshort')
  exact forall₂_congr fun command hcommand => forall_congr' fun hne =>
    forall₂_congr fun text htext => hone command hcommand hne text htext

/-- **A line is read like the one with a space for every tab exactly when its tabs do no harm.**
`clean` takes tabs and spaces for the same, so one expects every line to be; the comparison is made
for all lines that stay within the arrays, with tabs and with spaces, because of the others nothing
is known once an array has been overrun. -/
theorem parse_untab_iff {line : CString} (hfit : InBounds line) (hfit' : InBounds (untab line)) :
    parse (untab line) = parse line ↔ TabsHarmless line := by
  unfold parse TabsHarmless
  unfold InBounds at hfit hfit'
  rw [clean_untab, dispatch_untab] at *
  cases hd : dispatch (clean line) with
  | exit => simp
  | help => simp
  | path args =>
    rw [hd] at hfit hfit'
    dsimp only
    rw [Parse.path.injEq]
    exact readPath_untab_iff hfit hfit'
  | cd newDir =>
    dsimp only
    rw [Parse.cd.injEq]
    exact untab_eq_self_iff
  | external =>
    rw [hd] at hfit hfit'
    dsimp only at hfit hfit' ⊢
    by_cases hpath : "path\t".toList <+: clean line
    · rw [if_pos hpath]
      constructor
      · intro h
        cases h
      · intro h
        exact absurd hpath h.1
    by_cases hcd : "cd\t".toList <+: clean line
    · rw [if_neg hpath, if_pos hcd]
      constructor
      · intro h
        cases h
      · intro h
        exact absurd hcd h.2.1
    rw [if_neg hpath, if_neg hcd] at hfit' ⊢
    dsimp only at hfit' ⊢
    rw [Parse.external.injEq, readCommands_untab_iff, ← texts_untab_iff hfit.2 hfit'.2]
    exact ⟨fun h => ⟨hpath, hcd, h hfit.1⟩, fun h _ => h.2.2⟩

/-! ## 8. The shell -/

section Shell

variable {env : Environment}

theorem handleRedirection_congr {text text' : CString} (h : readCommand text' = readCommand text)
    (b : Scratch) (s : Shell w) :
    handleRedirection b text' {} env s = handleRedirection b text {} env s := by
  rw [handleRedirection_eq, handleRedirection_eq, h]

theorem handleRedirectionExec_congr {text text' : CString}
    (h : readCommand text' = readCommand text) (o : StageOutcome) (s : Shell w) :
    handleRedirectionExec o text' env s = handleRedirectionExec o text env s := by
  rw [handleRedirectionExec, handleRedirectionExec, handleRedirection_congr h]

theorem pipedChild_congr {text text' : CString} (h : readCommand text' = readCommand text)
    (o : StageOutcome) (s : Shell w) : pipedChild o text' env s = pipedChild o text env s :=
  handleRedirectionExec_congr h o _

theorem lastStage_congr {text text' : CString} (h : readCommand text' = readCommand text)
    (o : StageOutcome) (s : Shell w) : lastStage o text' env s = lastStage o text env s := by
  unfold lastStage
  simp only [handleRedirectionExec_congr h]

/-- **A pipeline** does the same, and returns a text that is read alike. -/
theorem handlePipe_untab (o : Nat → StageOutcome) (line : CString) :
    (∀ text ∈ (stages line).1, readCommand (untab text) = readCommand text) → ∀ (n : Nat) (leader : Bool) (s : Shell w),
      (handlePipe env o n (untab line) leader s).2 = (handlePipe env o n line leader s).2 ∧
        (handlePipe env o n (untab line) leader s).1.map (Except.map readCommand) =
          (handlePipe env o n line leader s).1.map (Except.map readCommand) := by
  induction line using pipeline_induction with
  | null line h =>
    intro _ n leader s
    rw [handlePipe_null h, handlePipe_null (strtok_bar_none h)]
    exact ⟨rfl, rfl⟩
  | single line token h =>
    intro hharm n leader s
    rw [stages_single h] at hharm
    have hread : readCommand (untab (clean token)) = readCommand (clean token) :=
      hharm _ List.mem_cons_self
    rw [handlePipe_single h, handlePipe_single (strtok_bar_some h), clean_untab]
    cases leader with
    | true =>
      rw [if_pos rfl, if_pos rfl]
      exact ⟨rfl, congrArg (fun r => some (Except.ok r)) hread⟩
    | false =>
      rw [if_neg Bool.false_ne_true, if_neg Bool.false_ne_true, lastStage_congr hread]
      exact ⟨rfl, rfl⟩
  | piped line token rest h hr ih =>
    intro hharm n leader s
    rw [stages_piped h hr] at hharm
    obtain ⟨hread, hrest⟩ := List.forall_mem_cons.mp hharm
    rw [handlePipe_piped h hr, handlePipe_piped (strtok_bar_some h) (untab_ne_nil hr),
      clean_untab, clean_untab]
    cases s.pipe (o n).pipe with
    | none => exact ⟨rfl, rfl⟩
    | some t =>
      dsimp only
      split
      · rw [pipedChild_congr hread]
        exact ih hrest (n + 1) false _
      · exact ⟨rfl, rfl⟩

theorem runSegment_untab {o : SegOutcome} {command : CString}
    (h : ∀ text ∈ (stages command).1, readCommand (untab text) = readCommand text)
    (process : List (Process × w.Dir)) (s : Shell w) :
    runSegment env o (untab command) process s = runSegment env o command process s := by
  obtain ⟨hshell, hres⟩ := @handlePipe_untab w env o.stage command h 0 true (saveStreams o s)
  unfold runSegment
  cases hrun' : handlePipe env o.stage 0 (untab command) true (saveStreams o s) with
  | mk res' u' =>
    cases hrun : handlePipe env o.stage 0 command true (saveStreams o s) with
    | mk res u =>
      rw [hrun, hrun'] at hshell hres
      obtain rfl : u' = u := hshell
      cases res with
      | none =>
        cases Option.map_eq_none_iff.mp hres
        rfl
      | some res =>
        obtain ⟨res₁, hsome, hread⟩ := Option.map_eq_some_iff.mp hres
        obtain rfl : res' = some res₁ := hsome
        cases res with
        | error f =>
          cases res₁ with
          | error g =>
            cases hread
            rfl
          | ok text' => cases hread
        | ok text =>
          cases res₁ with
          | error g => cases hread
          | ok text' =>
            dsimp only
            rw [handleRedirection_congr (Except.ok.inj hread)]

theorem runSegments_untab {o : LineOutcome} : ∀ {i : Nat} {commands : List CString}
    {process : List (Process × w.Dir)} {s : Shell w},
    (∀ command ∈ commands, clean command ≠ [] →
      ∀ text ∈ (stages command).1, readCommand (untab text) = readCommand text) →
    runSegments env o i (commands.map untab) process s = runSegments env o i commands process s
  | _, [], _, _, _ => rfl
  | i, command :: commands, process, s, h => by
    obtain ⟨hcommand, hcommands⟩ := List.forall_mem_cons.mp h
    rw [List.map_cons, runSegments, runSegments]
    by_cases hblank : clean command = []
    · rw [if_pos hblank, if_pos ((clean_untab_eq_nil command).mpr hblank)]
      exact runSegments_untab hcommands
    · rw [if_neg hblank, if_neg (fun hnil => hblank ((clean_untab_eq_nil command).mp hnil)),
        runSegment_untab (hcommand hblank)]
      cases runSegment env (o.seg i) command process s with
      | error f => rfl
      | ok r => exact runSegments_untab hcommands

theorem parseCommand_untab {o : LineOutcome} {line : CString}
    (h : readCommands (untab line) = readCommands line) (s : Shell w) :
    parseCommand o (untab line) env s = parseCommand o line env s := by
  rw [parseCommand, parseCommand, singleCommands_untab, List.length_map]
  split
  · rfl
  · rename_i hfew
    rw [runSegments_untab ((readCommands_untab_iff line).mp h (Nat.not_le.mp hfew))]

theorem runPath_eq (args : CString) (env : Environment) :
    runPath args env = (readPath args).map
      (fun entries => { env with paths := entries, pathSetByUser := true }) := by
  rw [runPath, readPath]
  split <;> rfl

/-- **The shell does the same** on a line that is read like the one with spaces, whatever the calls
return: nothing else of a line is looked at. -/
theorem runLine_untab {line : CString} (h : parse (untab line) = parse line) (o : LineOutcome)
    (s : Session w) : runLine o (untab line) s = runLine o line s := by
  unfold parse at h
  unfold runLine
  rw [clean_untab, dispatch_untab] at *
  cases hd : dispatch (clean line) with
  | exit => rfl
  | help => rfl
  | path args =>
    rw [hd] at h
    dsimp only at h ⊢
    rw [runPath_eq, runPath_eq, Parse.path.inj h]
  | cd newDir =>
    rw [hd] at h
    dsimp only at h ⊢
    rw [Parse.cd.inj h]
  | external =>
    rw [hd] at h
    dsimp only at h ⊢
    by_cases hpath : "path\t".toList <+: clean line
    · rw [if_pos hpath] at h
      cases h
    by_cases hcd : "cd\t".toList <+: clean line
    · rw [if_neg hpath, if_pos hcd] at h
      cases h
    rw [if_neg hpath, if_neg hcd] at h ⊢
    dsimp only at h ⊢
    rw [parseCommand_untab (Parse.external.inj h)]

end Shell

instance (line : CString) : Decidable (InBounds line) :=
  match hd : dispatch (clean line) with
  | .path args =>
    decidable_of_iff ((spaceWords args).length < MAX_PATH_NUM) (by rw [InBounds, hd])
  | .external =>
    decidable_of_iff ((singleCommands (clean line)).length < MAX_ARGUMENTS_NUM ∧
      ∀ command ∈ singleCommands (clean line), clean command ≠ [] →
        ∀ text ∈ (stages command).1, ¬ Overruns text) (by rw [InBounds, hd])
  | .exit => isTrue (by rw [InBounds, hd]; trivial)
  | .help => isTrue (by rw [InBounds, hd]; trivial)
  | .cd _ => isTrue (by rw [InBounds, hd]; trivial)

/-- Tabs around the arguments of a line do no harm. -/
theorem parse_untab_path : parse (untab "\tpath \t/bin  /usr/bin\t".toList) =
    parse "\tpath \t/bin  /usr/bin\t".toList := by
  refine (parse_untab_iff (by decide +kernel) (by decide +kernel)).mpr ?_
  have hd : dispatch (clean "\tpath \t/bin  /usr/bin\t".toList) =
      .path " /bin /usr/bin".toList := by decide +kernel
  rw [TabsHarmless, hd]
  decide

/-- **Tabs are not spaces**: with a tab behind it `cd` is the name of a program, and a tab behind
the name of a program ends the command. -/
theorem tabs_seen :
    parse (untab "cd\tsub".toList) ≠ parse "cd\tsub".toList ∧
      parse (untab "ls\t-l".toList) ≠ parse "ls\t-l".toList := by
  constructor
  · have hspace : dispatch (clean (untab "cd\tsub".toList)) = .cd "sub".toList := by
      decide +kernel
    have htab : dispatch (clean "cd\tsub".toList) = .external := by decide +kernel
    rw [parse, parse, hspace, htab]
    intro h
    cases h
  · have hclean : clean "ls\t-l".toList = "ls\t-l".toList := by decide +kernel
    have hspace : dispatch (untab "ls\t-l".toList) = .external := by decide +kernel
    have htab : dispatch "ls\t-l".toList = .external := by decide +kernel
    have hsegments : singleCommands "ls\t-l".toList = ["ls\t-l".toList] := by
      rw [singleCommands, hclean]
      decide +kernel
    have hbar : strtok ['|'] "ls\t-l".toList = some ("ls\t-l".toList, []) := by decide +kernel
    have hstages : stages "ls\t-l".toList = (["ls\t-l".toList], true) := by
      rw [stages_single hbar, hclean]
    rw [parse, parse, clean_untab, hclean, hspace, htab]
    intro h
    have hread := (readCommands_untab_iff _).mp (Parse.external.inj h)
    rw [hsegments] at hread
    have hsame := hread (by decide) _ (List.mem_singleton.mpr rfl) (by rw [hclean]; decide)
    rw [hstages] at hsame
    have hcleaned : Cleaned "ls\t-l".toList := hclean ▸ cleaned_clean "ls\t-l".toList
    have hharm := (hcleaned.readCommand_untab_iff (by decide +kernel) (by decide +kernel)).mp
      (hsame _ (List.mem_singleton.mpr rfl))
    exact absurd (hharm (by decide)).command (by decide)

end Osexp.Seush
