/-
# The shell refines its language

`Place.Step` is the abstract shell: a place, and lines that move it.  `shell_simulates` says that
the shell of `run_shell` takes each of these steps on any text that cleans to that of the line,
and shows what the line means; by the rule for simulations whole scripts follow
(`script_runs`).

What is proved of the shell elsewhere is mostly what goes wrong, and when.  This is the other side:
on the lines that a user of the shell is told about, with room in the arrays and calls that succeed,
it does what they mean, for scripts of any length and in every directory.  The conditions of
`Typed.Ok` are the room and the calls.

The relation between the two is `Session.At`: the shell is where the place says, its search list is
the one of the place, `environment.cwd` names that directory from there, and its three streams are
what they were.  Descriptors that lines leave open are not part of it, since no command can tell.
-/
import Osexp.Lib.Simulation
import Osexp.Seush.Cwd
import Osexp.Seush.Jobs
import Osexp.Seush.Splitting

namespace Osexp.Seush

open Text Lts

variable {w : World}

/-! ## 1. The branch that a line takes -/

/-- The text up to the first character that ends a word. -/
def firstWord (line : CString) : CString := line.takeWhile plain

/-- The text does not go on with a word. -/
def Separated (text : CString) : Prop := ∀ c ∈ text.head?, plain c = false

theorem Separated.nil : Separated [] := by
  intro c hc
  cases hc

theorem Separated.cons {c : Char} (h : plain c = false) (text : CString) :
    Separated (c :: text) := by
  rintro d ⟨⟩
  exact h

theorem Separated.append {s t : CString} (hs : Separated s) (ht : Separated t) :
    Separated (s ++ t) := by
  cases s with
  | nil => exact ht
  | cons c s => exact .cons (hs c rfl) _

theorem Separated.spaces (n : Nat) : Separated (List.replicate n ' ') := by
  cases n with
  | zero => exact .nil
  | succ n => exact .cons rfl _

theorem Separated.firstWord {text : CString} (h : Separated text) : firstWord text = [] := by
  cases text with
  | nil => rfl
  | cons c text => exact List.takeWhile_cons_of_neg (by rw [h c rfl]; exact Bool.false_ne_true)

theorem Separated.operators (gap : Nat → Nat) {k : Nat} {ops : List (Char × CString)}
    (h : ∀ op ∈ ops, op.1 = '<' ∨ op.1 = '>') : Separated (renderOperators gap k ops) := by
  cases ops with
  | nil => exact .nil
  | cons op ops =>
    obtain ⟨c, name⟩ := op
    refine (Separated.spaces _).append (.cons ?_ _)
    rcases h _ List.mem_cons_self with hc | hc <;> (cases hc; rfl)

/-- Joined texts are the first of them and then the separator, if anything. -/
theorem join_eq_append (c : Char) (text : CString) (texts : List CString) :
    ∃ rest, join c (text :: texts) = text ++ rest ∧ ∀ x ∈ rest.head?, x = c := by
  rcases eq_or_ne texts [] with rfl | hne
  · exact ⟨[], by rw [join_singleton, List.append_nil], by simp⟩
  · exact ⟨_, join_cons c text hne, by simp⟩

theorem Separated.of_head {c : Char} (hc : plain c = false) {text : CString}
    (h : ∀ x ∈ text.head?, x = c) : Separated text :=
  fun x hx => h x hx ▸ hc

theorem plain_of_isBlank {c : Char} (h : isBlank c = true) : plain c = false := by
  by_contra hp
  rw [Bool.not_eq_false] at hp
  rw [(plain_spec hp).1] at h
  cases h

theorem firstWord_squeezeFrom (s : CString) :
    firstWord (squeezeFrom isBlank true s) = firstWord s := by
  induction s with
  | nil => rfl
  | cons c s ih =>
    by_cases hc : isBlank c = true
    · have hp := plain_of_isBlank hc
      rw [(Separated.cons hp s).firstWord, squeezeFrom, if_pos hc]
      split
      · rfl
      · exact (Separated.cons hp _).firstWord
    · have hc : isBlank c = false := by simpa using hc
      rw [squeezeFrom_cons_of_not hc]
      unfold firstWord at ih ⊢
      rw [List.takeWhile_cons, List.takeWhile_cons, ih]

/-- A word stays the first one when the text is cleaned. -/
theorem firstWord_clean {n : Nat} {name rest : CString} (hname : IsWord name)
    (hrest : Separated rest)
    (hline : ∀ c ∈ List.replicate n ' ' ++ (name ++ rest), inLine c = true) :
    firstWord (clean (List.replicate n ' ' ++ (name ++ rest))) = name := by
  obtain ⟨c, u, rfl⟩ := List.exists_cons_of_ne_nil hname.ne
  have hc : plain c = true := hname.plain c List.mem_cons_self
  rw [clean_of_inLine hline, squeeze, squeezeFrom_false_replicate rfl, List.cons_append,
    squeezeFrom_cons_of_not (plain_spec hc).1]
  have hu : firstWord (squeezeFrom isBlank true (u ++ rest)) = u := by
    rw [firstWord_squeezeFrom]
    unfold firstWord
    rw [List.takeWhile_append_of_pos (fun x hx => hname.plain x (List.mem_cons_of_mem _ hx))]
    exact (congrArg _ hrest.firstWord).trans (List.append_nil u)
  unfold firstWord at hu ⊢
  rw [List.takeWhile_cons_of_pos hc, hu]

/-- A line whose first word is no built-in command goes to `run_command`. -/
theorem dispatch_external {line : CString} (h : firstWord line ∉ builtins) :
    dispatch line = .external := by
  unfold dispatch
  split
  · rename_i hexit
    exact absurd (by rw [hexit]; decide) h
  · split
    · rename_i hhelp
      exact absurd (by rw [hhelp]; decide) h
    · split
      · rename_i hpath
        rcases hpath with hpath | ⟨t, ht⟩
        · exact absurd (by rw [hpath]; decide) h
        · have hword : firstWord line = "path".toList := by
            rw [← ht]
            rfl
          exact absurd (by rw [hword]; decide) h
      · split
        · rename_i hcd
          obtain ⟨t, ht⟩ := hcd
          have hword : firstWord line = "cd".toList := by
            rw [← ht]
            rfl
          exact absurd (by rw [hword]; decide) h
        · rfl

/-- The first word of a line of segments is that of its first command. -/
theorem firstWord_line {segments : List Segment} (h : StartsProgram segments) :
    firstWord (clean (join '&' (segments.map Segment.text))) ∉ builtins := by
  have hempty : ([] : CString) ∉ builtins := by decide
  have hline : ∀ c ∈ join '&' (segments.map Segment.text), inLine c = true :=
    line_forall .inLine rfl rfl
  cases segments with
  | nil => exact hempty
  | cons g segments =>
    rw [List.map_cons] at hline ⊢
    obtain ⟨rest, hjoin, hrest⟩ := join_eq_append '&' g.text (segments.map Segment.text)
    rw [hjoin] at hline ⊢
    cases g with
    | blank spaces =>
      have hclean : clean ((Segment.blank spaces).text ++ rest) =
          squeezeFrom isBlank false rest := by
        rw [clean_of_inLine hline]
        exact squeezeFrom_false_replicate rfl _ _
      have hnone : firstWord (squeezeFrom isBlank false rest) = [] := by
        cases rest with
        | nil => rfl
        | cons x t =>
          rw [hrest x rfl]
          exact (Separated.cons rfl _).firstWord
      rw [hclean, hnone]
      exact hempty
    | job j =>
      obtain ⟨_ | ⟨st, sts⟩, hne⟩ := j
      · exact absurd rfl hne
      · obtain ⟨behind, hbar, hbehind⟩ := join_eq_append '|' st.text (sts.map Spaced.text)
        obtain ⟨name, args, hwords⟩ := List.exists_cons_of_ne_nil st.words_ne
        obtain ⟨more, hjoined, hmore⟩ := join_eq_append ' ' name args
        have hname := st.isWord name (hwords ▸ List.mem_cons_self)
        -- the line is its first word between spaces and something that ends it
        have hsplit : (Segment.job ⟨st :: sts, hne⟩).text ++ rest =
            List.replicate st.before ' ' ++ (name ++ (more ++
              (renderOperators st.gap 0 st.operators ++
                (List.replicate st.behind ' ' ++ (behind ++ rest))))) := by
          rw [Segment.text, Job.text, List.map_cons, hbar, Spaced.text, Redirected.render, hwords,
            hjoined]
          simp only [List.append_assoc]
        have hends : Separated (more ++ (renderOperators st.gap 0 st.operators ++
            (List.replicate st.behind ' ' ++ (behind ++ rest)))) :=
          (Separated.of_head rfl hmore).append ((Separated.operators _ st.operators_char).append
            ((Separated.spaces _).append ((Separated.of_head rfl hbehind).append
              (Separated.of_head rfl hrest))))
        rw [hsplit] at hline ⊢
        rw [firstWord_clean hname hends hline]
        exact h name (by rw [hwords]; rfl)

/-! ## 2. The built-in commands -/

/-- Words joined by one space are clean. -/
theorem clean_words {ws : List CString} (hne : ws ≠ []) (hws : ∀ word ∈ ws, IsWord word) :
    clean (join ' ' ws) = join ' ' ws := by
  have hline : ∀ c ∈ join ' ' ws, inLine c = true :=
    mem_join_words rfl (fun word hw c hc => (plain_spec ((hws word hw).plain c hc)).2.1)
  have hblank : isBlank ' ' = true := rfl
  have hjoin := squeezeFrom_join_append hblank hne (fun word hw => (hws word hw).blank) false []
  rw [List.append_nil, squeezeFrom_nil, List.append_nil] at hjoin
  rw [clean_of_inLine hline]
  exact hjoin

theorem isWord_words {name : CString} (hname : IsWord name) (args : List Word) :
    ∀ word ∈ name :: args.map Subtype.val, IsWord word := by
  refine List.forall_mem_cons.mpr ⟨hname, ?_⟩
  intro word hw
  obtain ⟨v, _, rfl⟩ := List.mem_map.mp hw
  exact v.property

/-- What follows `path` are the directories. -/
theorem dispatch_path (dirs : List Word) :
    ∃ args, dispatch (clean (CommandLine.text (.path dirs))) = .path args ∧
      strtokAll [' '] args = dirs.map Subtype.val := by
  have hname : IsWord "path".toList := by decide
  have hwords := isWord_words hname dirs
  rw [CommandLine.text, clean_words (List.cons_ne_nil _ _) hwords]
  cases dirs with
  | nil => exact ⟨[], by decide, by rw [strtokAll_eq]; rfl⟩
  | cons dir dirs =>
    have hdirs : (dir :: dirs).map Subtype.val ≠ [] := List.cons_ne_nil _ _
    rw [join_cons ' ' _ hdirs]
    refine ⟨' ' :: join ' ' ((dir :: dirs).map Subtype.val), ?_, ?_⟩
    · unfold dispatch
      rw [if_neg (by simp), if_neg (by simp), if_pos (Or.inr ⟨_, rfl⟩)]
      rfl
    · rw [strtokAll_eq, tokens, if_pos (by decide)]
      refine tokens_join (by decide) ?_
      intro word hw
      obtain ⟨v, _, rfl⟩ := List.mem_map.mp hw
      refine ⟨v.property.ne, ?_⟩
      intro c hc
      have hblank := v.property.blank.2 c hc
      have hsp : c ≠ ' ' := by
        rintro rfl
        cases hblank
      simp [hsp]

theorem dispatch_cd (newDir : Word) :
    dispatch (clean (CommandLine.text (.cd newDir))) = .cd newDir.val := by
  have hwords : ∀ word ∈ ["cd".toList, newDir.val], IsWord word :=
    isWord_words (by decide) [newDir]
  have hclean : clean (CommandLine.text (.cd newDir)) = "cd".toList ++ ' ' :: newDir.val := by
    rw [CommandLine.text, clean_words (List.cons_ne_nil _ _) hwords,
      join_cons ' ' _ (List.cons_ne_nil _ _), join_singleton]
  rw [hclean]
  unfold dispatch
  rw [if_neg (by simp), if_neg (by simp), if_neg, if_pos ⟨_, rfl⟩]
  · rfl
  · rintro (h | ⟨t, ht⟩)
    · simp at h
    · simp at ht

/-! ## 3. The simulation -/

/-- A line and a text that spells it: any that `clean` cannot tell from `CommandLine.text`. -/
structure Spelled where
  line : CommandLine
  text : CString
  spelled : clean text = clean line.text

/-- A line with the outcomes of the calls made for it. -/
structure Typed extends Spelled where
  outcome : LineOutcome

/-- What the shell reads. -/
def Typed.input (i : Typed) : Input := (i.text, i.outcome)

/-- **The abstract shell**: every line but `exit` moves it to the next place. -/
def Place.Step (a : Place w) (i : Typed) (b : Place w) : Prop := i.line ≠ .exit ∧ b = a.next i.line

/-- The session is at the place: its directory and search list are those, and `environment.cwd`
holds a name of the directory. -/
structure Session.At (std : Streams) (a : Place w) (s : Session w) : Prop where
  cwd : s.shell.cwd = a.dir
  paths : s.env.paths = a.paths
  named : ∃ name, s.env.Holds name ∧ w.resolve a.dir name = some a.dir
  streams : StreamsAre std s.shell

theorem Session.At.shellAt {std : Streams} {a : Place w} {s : Session w} (h : s.At std a) :
    ShellIn s.env a std s.shell := by
  obtain ⟨name, hholds, hname⟩ := h.named
  exact ⟨h.cwd, h.paths, hholds.cwdString.symm ▸ hname, h.streams⟩

/-- A line that the shell has room for, all of whose calls succeed. -/
structure Typed.Ok (a : Place w) (i : Typed) : Prop where
  line : i.line.Admissible a
  calls : AllSucceed i.outcome

/-- The line has added to the trace what it means. -/
def Typed.Shown (std : Streams) (a : Place w) (i : Typed) (s t : Session w) : Prop :=
  ∃ E, t.shell.trace = s.shell.trace ++ E ∧ i.line.Shows a std E

theorem Typed.shown_nothing {std : Streams} {a : Place w} {i : Typed} {s t : Session w}
    (hline : i.line.Shows a std []) (h : t.shell.trace = s.shell.trace) : i.Shown std a s t :=
  ⟨[], by rw [h, List.append_nil], hline⟩

section Step

variable {std : Streams} {a : Place w} {s : Session w} {i : Typed}

/-- A `cd` that is admissible. -/
theorem cd_matched {newDir : Word} (hs : s.At std a)
    (hadm : CommandLine.Admissible a (.cd newDir)) :
    Session.At std (a.next (.cd newDir))
      ⟨(runCd newDir.val s.env s.shell).1, (runCd newDir.val s.env s.shell).2⟩ := by
  obtain ⟨habs, hlen, hsearch⟩ := hadm
  have hnext : a.next (.cd newDir) =
      { a with dir := (w.opendir a.dir newDir.val).getD a.dir } := rfl
  rw [hnext, runCd, hs.cwd]
  cases hopen : w.opendir a.dir newDir.val with
  | none => exact hs
  | some d =>
    rw [Option.getD_some]
    have hresolve : w.resolve a.dir newDir.val = some d := (Option.filter_eq_some_iff.mp hopen).1
    have hchdir : w.chdir a.dir newDir.val = some d :=
      Option.filter_eq_some_iff.mpr ⟨hresolve, hsearch d hopen⟩
    have hnul : '\x00' ∉ newDir.val := by
      intro hmem
      exact absurd (newDir.property.plain _ hmem) (by decide)
    refine ⟨?_, hs.paths, ⟨newDir.val, holds_setCwd s.env hlen hnul, ?_⟩,
      ⟨hs.streams.input, hs.streams.output, hs.streams.errors⟩⟩
    · show (w.chdir s.shell.cwd newDir.val).getD s.shell.cwd = d
      rw [hs.cwd, hchdir, Option.getD_some]
    · exact (DirTree.resolve_of_isAbsolute habs d a.dir).trans hresolve

/-- **One line**: the shell does what it means and is at the next place. -/
theorem line_matched (hs : s.At std a) (hok : i.Ok a) (hexit : i.line ≠ .exit) :
    ∃ t, Osexp.Seush.Step s i.input t ∧ t.At std (a.next i.line) ∧ i.Shown std a s t := by
  obtain ⟨⟨line, text, hspelled⟩, o⟩ := i
  obtain ⟨hadm, hcalls⟩ := hok
  unfold Osexp.Seush.Step runLine Typed.input
  dsimp only at hspelled hadm hcalls hexit ⊢
  rw [hspelled]
  cases line with
  | exit => exact absurd rfl hexit
  | help =>
    rw [show dispatch (clean (CommandLine.text .help)) = .help by decide]
    exact ⟨s, rfl, hs, Typed.shown_nothing rfl rfl⟩
  | path dirs =>
    obtain ⟨args, hdispatch, hargs⟩ := dispatch_path dirs
    have hfew : ¬ MAX_PATH_NUM ≤ (strtokAll [' '] args).length := by
      rw [hargs, List.length_map]
      exact Nat.not_le.mpr hadm
    rw [hdispatch]
    dsimp only
    unfold runPath
    rw [if_neg hfew, hargs]
    exact ⟨_, rfl, ⟨hs.cwd, rfl, hs.named, hs.streams⟩, Typed.shown_nothing rfl rfl⟩
  | cd newDir =>
    rw [dispatch_cd]
    refine ⟨_, rfl, cd_matched hs hadm, Typed.shown_nothing rfl ?_⟩
    unfold runCd
    split <;> rfl
  | run segments =>
    obtain ⟨hlen, hstarts, hadms⟩ := hadm
    have hdispatch : dispatch (clean (CommandLine.text (.run segments))) = .external :=
      dispatch_external (firstWord_line hstarts)
    obtain ⟨t, E, hcall, htrace, ht, hruns⟩ := parseCommand_runs hcalls hlen hadms
      (clean_clean (CommandLine.text (.run segments))) hs.shellAt
    rw [hdispatch]
    dsimp only
    rw [hcall]
    exact ⟨_, rfl, ⟨ht.cwd, ht.paths, hs.named, ht.streams⟩, E, htrace, hruns⟩

/-- **The shell simulates the abstract shell** on every text that spells the line.  From here on
scripts are a matter of the rule for simulations. -/
theorem shell_simulates (std : Streams) :
    Simulation (Place.Step (w := w)) Osexp.Seush.Step Typed.Ok (Session.At std) Typed.input
      (Typed.Shown std) where
  matched hs hok hstep := by
    obtain ⟨hexit, rfl⟩ := hstep
    exact line_matched hs hok hexit

end Step

/-! ## 4. Scripts -/

/-- The abstract run of a script. -/
def Place.trail (a : Place w) : List Typed → Trail (Place w) Typed
  | [] => []
  | i :: script => (i, a.next i.line) :: (a.next i.line).trail script

theorem Place.run_trail {script : List Typed} (h : ∀ i ∈ script, i.line ≠ .exit) :
    ∀ a : Place w, Run Place.Step a (a.trail script) := by
  induction script with
  | nil => exact .nil
  | cons i script ih =>
    obtain ⟨hi, hscript⟩ := List.forall_mem_cons.mp h
    exact fun a => .cons ⟨hi, rfl⟩ (ih hscript _)

/-- **A script does what its lines mean**, from any session that is at a place: when the shell has
room for each line at the place where it is run, it takes them one by one, adds to its trace at
each what the line means there, and ends at the place where the script leads. -/
theorem script_runs (std : Streams) (a : Place w) (s : Session w) (script : List Typed)
    (hs : s.At std a) (hexit : ∀ i ∈ script, i.line ≠ .exit)
    (hok : StepsOk Typed.Ok a (a.trail script)) :
    ∃ r, Run Osexp.Seush.Step s r ∧
      SideBySide Typed.input (Typed.Shown std) a (a.trail script) s r ∧
      (final s r).At std (final a (a.trail script)) :=
  (shell_simulates std).run (Place.run_trail hexit a) hs hok

/-- `ls` without redirections. -/
def lsCommand : Redirected where
  words := ["ls".toList]
  input := none
  output := none
  outFirst := false
  gap := fun _ => 0
  words_ne := by decide
  isWord := by decide
  isInput := by simp
  isOutput := by simp

/-- `wc -l<out.txt>wc.txt | ls & ls &`. -/
def exampleLine : CommandLine :=
  .run [.job ⟨[⟨wcCommand 0, 0, 1⟩, ⟨lsCommand, 1, 1⟩], by simp⟩,
    .job ⟨[⟨lsCommand, 1, 1⟩], by simp⟩, .blank 0]

/-- `cd /sub`, and then the jobs with some more spaces. -/
def exampleScript : List Spelled :=
  [⟨.cd ⟨"/sub".toList, by decide⟩, "cd /sub".toList, by decide +kernel⟩,
    ⟨exampleLine, "  wc  -l<out.txt>wc.txt   |  ls  &  ls  &".toList, by decide +kernel⟩]

theorem AllSucceed.ok : AllSucceed .ok :=
  ⟨fun _ => rfl, fun _ _ => .ok, fun _ _ => rfl, fun _ => rfl, fun _ => rfl⟩

theorem lsCommand_admissible (a : Place w) : lsCommand.Admissible a where
  fits := ⟨by decide, by decide⟩
  tight := fun h => absurd h (by decide)
  names := by
    intro op hop
    cases hop
  few := by decide
  input := by simp [lsCommand]
  output := by simp [lsCommand]

theorem wcCommand_admissible {a : Place w} (hopens : ∀ d name write, w.opens d name write = true) :
    (wcCommand 0).Admissible a where
  fits := ⟨by decide, by decide⟩
  tight := fun _ => rfl
  names := by
    intro op hop
    rcases List.mem_pair.mp hop with rfl | rfl <;> (rintro c ⟨⟩; rfl)
  few := by decide
  input := fun _ _ => hopens _ _ _
  output := fun _ _ => hopens _ _ _

theorem exampleLine_admissible (a : Place w)
    (hopens : ∀ d name write, w.opens d name write = true) : exampleLine.Admissible a := by
  refine ⟨by decide, ?_, ?_⟩
  · rintro name ⟨⟩
    decide
  · intro j hj
    rcases List.mem_pair.mp hj with rfl | rfl
    · intro r hr
      rcases List.mem_pair.mp hr with rfl | rfl
      · exact wcCommand_admissible hopens
      · exact lsCommand_admissible a
    · intro r hr
      rw [List.mem_singleton.mp hr]
      exact lsCommand_admissible a

/-- The streams that the shell is started with. -/
def startStreams : Streams := ⟨.inherited 0, .inherited 1, .inherited 2⟩

/-- The place where the shell is started. -/
def rootPlace : Place nested := ⟨depth 0, ["/bin".toList]⟩

theorem rootSession_at : rootSession.At startStreams rootPlace :=
  ⟨rfl, rfl, ⟨"/".toList, holds_initEnvironment rfl (by decide) (by decide), rfl⟩, rfl, rfl, rfl⟩

/-- The example, in a shell that has just been started. -/
theorem script_runs_example : ∃ r, Run Osexp.Seush.Step rootSession r ∧
    r.map Prod.fst = exampleScript.map (fun l => (l.text, .ok)) ∧
    (final rootSession r).At startStreams ⟨depth 1, ["/bin".toList]⟩ := by
  have hcd : CommandLine.Admissible rootPlace (.cd ⟨"/sub".toList, by decide⟩) :=
    ⟨by decide, by decide, fun _ _ => rfl⟩
  have hexit : ∀ i ∈ exampleScript.map (fun l => (⟨l, .ok⟩ : Typed)), i.line ≠ .exit := by
    intro i hi
    rcases List.mem_pair.mp hi with rfl | rfl <;> exact fun h => nomatch h
  obtain ⟨r, hrun, hside, hfinal⟩ := script_runs startStreams rootPlace rootSession _
    rootSession_at hexit
    ⟨⟨hcd, .ok⟩, ⟨exampleLine_admissible _ (fun _ _ _ => rfl), .ok⟩, trivial⟩
  exact ⟨r, hrun, hside.actions, hfinal⟩

end Osexp.Seush
