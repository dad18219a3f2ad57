/-
# The operators of a text

A `<` or `>` takes effect when the text up to the next operator names a file, and the program that
is started has this file as its standard input or output.  `handle_redirection` compares the return
values of four `sscanf` calls.  They do not say whether something is left of the text, and when no
call takes enough, the command is run as if there were no operators.

One would expect a shell to refuse what it does not understand: either every operator of a text is
in effect, or nothing is started.  `operators_take_effect_iff` says for which texts that is so: for
those without operators, and for a command with one operator or one of each behind it, every one
with a name and nothing else (`OneEach`).  Two operators take effect together only if the shell has
lost at most one of its three standard streams.

The texts are those that overrun no array.  A longer one is not refused either: the program is
started from what the overrun buffers hold by then, about which the source says nothing.
-/
import Osexp.Lib.Marks
import Osexp.Seush.Buffers
import Osexp.Seush.Streams

namespace Osexp.Seush

open Text Marks

variable {w : World}

/-! ## 1. The property -/

def isOperator (c : Char) : Bool := c == '<' || c == '>'

/-- The text before the first operator. -/
def command (text : CString) : CString := lead isOperator text

/-- The operators of a text, each with the text up to the next one. -/
def operators (text : CString) : List (Char × CString) := marks isOperator text

/-- The stream that an operator redirects. -/
def streamOf (op : Char) : Nat := if op = '>' then STDOUT_FILENO else STDIN_FILENO

def Blank (s : CString) : Prop := ∀ c ∈ s, isSpace c = true

instance (s : CString) : Decidable (Blank s) := inferInstanceAs (Decidable (∀ c ∈ s, _))

/-- The text is a name, with white space before and behind it.  Whether a blank behind the name
belongs to it is left open. -/
def NamedBy (text name : CString) : Prop :=
  name ≠ [] ∧ ∃ before behind, text = before ++ name ++ behind ∧ Blank before ∧ Blank behind

/-- The file named by the text behind an operator is open and is the stream of the operator. -/
def TakesEffect (e : Exec w) (op : Char × CString) : Prop :=
  ∃ n name, NamedBy op.2 name ∧
    e.fds.get (streamOf op.1) = some (.opened n name (decide (op.1 = '>')))

/-- All operators of a text take effect, each on a stream of its own. -/
structure AllTakeEffect (text : CString) (e : Exec w) : Prop where
  different : ((operators text).map Prod.fst).Nodup
  each : ∀ op ∈ operators text, TakesEffect e op

/-- A program that is started for a text: `handle_redirection` fills an entry in the shell `s`, and
`run_process` gets to the program in a child that has the descriptors of the entry. -/
inductive Starts (s : Shell w) (text : CString) : Exec w → Prop
  | intro {b : Scratch} {env : Environment} {p : Process} {t u : Shell w} {o : RunOutcome}
      {dir : w.Dir} {e : Exec w} : handleRedirection b text {} env s = .ok (p, t) →
      KeepsEntry p t u → runProcess o dir p u = .execv e → e.started = true → Starts s text e

/-- The process of a pipeline stage is such a program. -/
theorem Starts.stage {o : StageOutcome} {text : CString} {env : Environment} {s : Shell w}
    {e : Exec w} (h : handleRedirectionExec o text env s = .execv e) (he : e.started = true) :
    Starts s text e := by
  unfold handleRedirectionExec at h
  split at h
  · cases h
  · rename_i p t hp
    exact .intro (u := t.chdir env.cwdString) hp (fun _ _ => rfl) h he

/-! ## 2. The condition -/

/-- The name that a scan set takes behind an operator, and what it leaves. -/
def fileName (text : CString) : CString := (text.dropWhile isSpace).takeWhile inScanset

def leftover (text : CString) : CString := (text.dropWhile isSpace).dropWhile inScanset

/-- A command and behind it at most one operator of each kind, every one with a name.  Where a scan
set stops at a tab, nothing but white space follows. -/
structure OneEach (text : CString) : Prop where
  begins : BeginsCommand text
  command : Blank ((command text).dropWhile inScanset)
  different : ((operators text).map Prod.fst).Nodup
  named : ∀ op ∈ operators text, fileName op.2 ≠ [] ∧ Blank (leftover op.2)

/-! ## 3. Names -/

theorem isSpace_of_isOperator {c : Char} (h : isOperator c = true) : isSpace c = false := by
  have hop : c = '<' ∨ c = '>' := by simpa [isOperator] using h
  rcases hop with rfl | rfl <;> rfl

theorem inScanset_of_isOperator {c : Char} (h : isOperator c = true) : inScanset c = false := by
  have hop : c = '<' ∨ c = '>' := by simpa [isOperator] using h
  rcases hop with rfl | rfl <;> rfl

theorem blank_iff_countP (s : CString) : Blank s ↔ s.countP (fun c => !isSpace c) = 0 := by
  rw [List.countP_eq_zero]
  simp [Blank]

theorem dropWhile_isSpace_eq_nil_iff {s : CString} : s.dropWhile isSpace = [] ↔ Blank s :=
  List.dropWhile_eq_nil_iff

/-- What is taken is the name when what is left is white space. -/
theorem namedBy_fileName_iff (text : CString) :
    NamedBy text (fileName text) ↔ fileName text ≠ [] ∧ Blank (leftover text) := by
  have hsplit : text = text.takeWhile isSpace ++ fileName text ++ leftover text := by
    rw [List.append_assoc, fileName, leftover, List.takeWhile_append_dropWhile,
      List.takeWhile_append_dropWhile]
  refine and_congr_right fun _ => ⟨?_, ?_⟩
  · rintro ⟨before, behind, heq, hbefore, hbehind⟩
    -- all that is not white space is in the name
    have hcount := congrArg (List.countP (fun c => !isSpace c)) (hsplit.symm.trans heq)
    simp only [List.countP_append, (blank_iff_countP _).mp hbefore,
      (blank_iff_countP _).mp hbehind] at hcount
    rw [blank_iff_countP]
    omega
  · intro hleft
    exact ⟨_, _, hsplit, fun c hc => List.mem_takeWhile_imp hc, hleft⟩

/-! ## 4. What the formats take -/

section Operands

variable {a b c : Char} {u seg text : CString} {ops : List (Char × CString)}

/-- The other operator. -/
def otherOperator (op : Char) : Char := if op = '>' then '<' else '>'

theorem operator_cases (ha : isOperator a = true) : a = '>' ∨ a = '<' := by
  have hop : a = '<' ∨ a = '>' := by simpa [isOperator] using ha
  exact hop.symm

theorem afterOp_text (ha : isOperator a = true) (hu : ∀ x ∈ u, isOperator x = false)
    (hblank : ¬ Blank u) (s : CString) (hs : (u ++ s).dropWhile isSpace = u.dropWhile isSpace ++ s) :
    afterOp a (u ++ s) = none := by
  rw [afterOp, hs]
  cases hd : u.dropWhile isSpace with
  | nil => exact absurd (dropWhile_isSpace_eq_nil_iff.mp hd) hblank
  | cons x t =>
    have hx : isOperator x = false := hu x ((List.dropWhile_suffix isSpace).subset (by
      rw [hd]
      exact List.mem_cons_self))
    refine if_neg ?_
    rintro rfl
    rw [ha] at hx
    cases hx

/-- Without an operator no name is taken. -/
theorem operand_none (ha : isOperator a = true) (hu : ∀ x ∈ u, isOperator x = false) :
    operand a u = none := by
  by_cases hblank : Blank u
  · rw [operand, afterOp, dropWhile_isSpace_eq_nil_iff.mpr hblank]
    rfl
  · have hafter := afterOp_text ha hu hblank [] (by rw [List.append_nil, List.append_nil])
    rw [List.append_nil] at hafter
    rw [operand, hafter]
    rfl

/-- **A name is taken behind the operator** that comes next, when there is nothing before it. -/
theorem operand_marks (ha : isOperator a = true) (hc : isOperator c = true)
    (hu : ∀ x ∈ u, isOperator x = false) (hops : ∀ op ∈ ops, isOperator op.1 = true) :
    operand a (u ++ unmark ((c, seg) :: ops)) =
      if Blank u ∧ c = a ∧ fileName seg ≠ [] then
        some (fileName seg, leftover seg ++ unmark ops) else none := by
  have hall : ∀ op ∈ (c, seg) :: ops, isOperator op.1 = true :=
    List.forall_mem_cons.mpr ⟨hc, hops⟩
  have hskip := (takeWhile_append_unmark (p := isOperator) (fun _ => isSpace_of_isOperator) hall u).2
  by_cases hblank : Blank u
  · rw [operand, afterOp, hskip, dropWhile_isSpace_eq_nil_iff.mpr hblank, List.nil_append,
      unmark_cons]
    dsimp only
    by_cases hca : c = a
    · obtain ⟨_, hname⟩ := takeWhile_append_unmark (p := isOperator)
        (fun _ => isSpace_of_isOperator) hops seg
      obtain ⟨htake, hdrop⟩ := takeWhile_append_unmark (p := isOperator)
        (fun _ => inScanset_of_isOperator) hops (seg.dropWhile isSpace)
      rw [if_pos hca, Option.bind_some, hname, takeItem, htake, hdrop, ← fileName, ← leftover]
      simp only [List.isEmpty_iff]
      by_cases hnil : fileName seg = []
      · rw [if_pos hnil, if_neg (fun h => h.2.2 hnil)]
      · rw [if_neg hnil, if_pos ⟨hblank, hca, hnil⟩]
    · rw [if_neg hca, if_neg (fun h => hca h.2.1)]
      rfl
  · rw [operand, afterOp_text ha hu hblank _ hskip, if_neg (fun h => hblank h.1)]
    rfl

end Operands

/-! ## 5. Readings and operators -/

/-- What stands between the command that is taken and the first operator, and the operators. -/
theorem dropWhile_inScanset (text : CString) : text.dropWhile inScanset =
    (command text).dropWhile inScanset ++ unmark (operators text) := by
  have hmarks : ∀ op ∈ operators text, isOperator op.1 = true := fun op hop => (mem_marks hop).1
  conv_lhs => rw [← lead_append_unmark isOperator text]
  exact (takeWhile_append_unmark (p := isOperator) (fun _ => inScanset_of_isOperator) hmarks _).2

/-- The file that a reading has for an operator. -/
def Reading.file (r : Reading) (op : Char) : Option CString := if op = '>' then r.outfile else r.infile

/-- Every operator has a file, named by the text behind it, and the two files are for different
operators. -/
def Reading.Covers (r : Reading) (text : CString) : Prop :=
  ((operators text).map Prod.fst).Nodup ∧
    ∀ op ∈ operators text, ∃ name, r.file op.1 = some name ∧ NamedBy op.2 name

section Readings

variable {a : Char} {seg text : CString} {ops : List (Char × CString)} {argv : List CString}

theorem isOperator_other (ha : isOperator a = true) :
    isOperator (otherOperator a) = true ∧ otherOperator a ≠ a := by
  rcases operator_cases ha with rfl | rfl <;> decide

/-- Different operators are at most two. -/
theorem two_operators (ha : isOperator a = true) (hops : ∀ op ∈ ops, isOperator op.1 = true)
    (h : (((a, seg) :: ops).map Prod.fst).Nodup) :
    ops = [] ∨ ∃ seg', ops = [(otherOperator a, seg')] := by
  have hother : ∀ c, isOperator c = true → c ≠ a → c = otherOperator a := by
    intro c hc hca
    rcases operator_cases ha with rfl | rfl <;> rcases operator_cases hc with rfl | rfl
    · exact absurd rfl hca
    · rfl
    · rfl
    · exact absurd rfl hca
  rw [List.map_cons, List.nodup_cons] at h
  obtain ⟨hnot, hnodup⟩ := h
  have hall : ∀ op ∈ ops, op.1 = otherOperator a := by
    intro op hop
    refine hother op.1 (hops op hop) ?_
    intro hsame
    exact hnot (List.mem_map.mpr ⟨op, hop, hsame⟩)
  match ops, hall, hnodup with
  | [], _, _ => exact Or.inl rfl
  | [(c, seg')], hall, _ => exact Or.inr ⟨seg', by rw [← hall (c, seg') List.mem_cons_self]⟩
  | op :: op' :: more, hall, hnodup =>
    have hfirst := hall op List.mem_cons_self
    have hsecond := hall op' (List.mem_cons_of_mem _ List.mem_cons_self)
    rw [List.map_cons, List.map_cons, List.nodup_cons, hfirst, hsecond] at hnodup
    exact absurd List.mem_cons_self hnodup.1

/-- **The files of a reading**, for the first operator of the text and the other one. -/
theorem reading_files (hops : operators text = (a, seg) :: ops) :
    (readingOf argv (outFiles text) (inFiles text)).file a =
        (if Blank ((command text).dropWhile inScanset) ∧ fileName seg ≠ [] then
          some (fileName seg) else none) ∧
      (readingOf argv (outFiles text) (inFiles text)).file (otherOperator a) =
        if Blank ((command text).dropWhile inScanset) ∧ fileName seg ≠ [] then
          (operand (otherOperator a) (leftover seg ++ unmark ops)).map Prod.fst else none := by
  have hmarks : ∀ op ∈ operators text, isOperator op.1 = true := fun op hop => (mem_marks hop).1
  rw [hops] at hmarks
  obtain ⟨ha, hmore⟩ := List.forall_mem_cons.mp hmarks
  obtain ⟨hother, hne⟩ := isOperator_other ha
  have hlead : ∀ x ∈ (command text).dropWhile inScanset, isOperator x = false :=
    fun x hx => not_mark_lead text x ((List.dropWhile_suffix inScanset).subset hx)
  have hrest := dropWhile_inScanset text
  rw [hops] at hrest
  -- the files behind the first operator, and none behind the other one
  have hfirst : files a (otherOperator a) (text.dropWhile inScanset) =
      if Blank ((command text).dropWhile inScanset) ∧ fileName seg ≠ [] then
        some (fileName seg,
          (operand (otherOperator a) (leftover seg ++ unmark ops)).map Prod.fst)
      else none := by
    rw [files, hrest, operand_marks ha ha hlead hmore]
    simp only [true_and]
    split <;> rfl
  have hnone : files (otherOperator a) a (text.dropWhile inScanset) = none := by
    rw [files, hrest, operand_marks hother ha hlead hmore, if_neg (fun h => hne h.2.1.symm)]
    rfl
  have hread : (readingOf argv (outFiles text) (inFiles text)).file a =
        (files a (otherOperator a) (text.dropWhile inScanset)).map Prod.fst ∧
      (readingOf argv (outFiles text) (inFiles text)).file (otherOperator a) =
        (files a (otherOperator a) (text.dropWhile inScanset)).bind Prod.snd := by
    rw [outFiles, inFiles]
    rcases operator_cases ha with rfl | rfl
    · have hswap : otherOperator '>' = '<' := rfl
      rw [hswap] at hnone ⊢
      rw [hnone]
      rcases files '>' '<' (text.dropWhile inScanset) with _ | ⟨n, _ | m⟩ <;> exact ⟨rfl, rfl⟩
    · have hswap : otherOperator '<' = '>' := rfl
      rw [hswap] at hnone ⊢
      rw [hnone]
      rcases files '<' '>' (text.dropWhile inScanset) with _ | ⟨n, _ | m⟩ <;> exact ⟨rfl, rfl⟩
  rw [hread.1, hread.2, hfirst]
  split <;> exact ⟨rfl, rfl⟩

/-- **The file of each operator** is the name behind it, or there is none, and then something in the
text is ignored. -/
theorem reading_file (hdifferent : ((operators text).map Prod.fst).Nodup) {op : Char × CString}
    (hop : op ∈ operators text) :
    (readingOf argv (outFiles text) (inFiles text)).file op.1 = some (fileName op.2) ∧
        Blank ((command text).dropWhile inScanset) ∨
      (readingOf argv (outFiles text) (inFiles text)).file op.1 = none ∧
        ¬ (Blank ((command text).dropWhile inScanset) ∧
          ∀ op ∈ operators text, fileName op.2 ≠ [] ∧ Blank (leftover op.2)) := by
  obtain ⟨⟨a, seg⟩, ops, hops⟩ := List.exists_cons_of_ne_nil (List.ne_nil_of_mem hop)
  obtain ⟨hfile, hother⟩ := @reading_files a seg text ops argv hops
  have hmarks := fun op hop => mem_marks (p := isOperator) (s := text) (m := op) hop
  rw [show marks isOperator text = (a, seg) :: ops from hops] at hmarks
  rw [hops] at hop hdifferent ⊢
  obtain ⟨⟨ha, hseg⟩, hmore⟩ := List.forall_mem_cons.mp hmarks
  by_cases hcond : Blank ((command text).dropWhile inScanset) ∧ fileName seg ≠ []
  · rw [if_pos hcond] at hfile hother
    rcases List.mem_cons.mp hop with rfl | hop
    · exact Or.inl ⟨hfile, hcond.1⟩
    · -- the second operator is the other one
      rcases two_operators ha (fun op hop => (hmore op hop).1) hdifferent with rfl | ⟨seg', rfl⟩
      · cases hop
      · have hlast := (isOperator_other ha).1
        have hleft : ∀ x ∈ leftover seg, isOperator x = false := fun x hx => hseg x
          ((List.dropWhile_suffix isSpace).subset ((List.dropWhile_suffix inScanset).subset hx))
        rw [operand_marks hlast hlast hleft (List.forall_mem_nil _)] at hother
        rw [List.mem_singleton.mp hop, hother]
        by_cases hsecond : Blank (leftover seg) ∧ otherOperator a = otherOperator a ∧
            fileName seg' ≠ []
        · rw [if_pos hsecond]
          exact Or.inl ⟨rfl, hcond.1⟩
        · rw [if_neg hsecond]
          refine Or.inr ⟨rfl, fun ⟨_, hall⟩ => hsecond ⟨?_, rfl, ?_⟩⟩
          · exact (hall _ List.mem_cons_self).2
          · exact (hall _ (List.mem_cons_of_mem _ List.mem_cons_self)).1
  · rw [if_neg hcond] at hfile hother
    refine Or.inr ⟨?_, fun ⟨hblank, hall⟩ => hcond ⟨hblank, (hall _ List.mem_cons_self).1⟩⟩
    rcases List.mem_cons.mp hop with rfl | hop
    · exact hfile
    · rcases two_operators ha (fun op hop => (hmore op hop).1) hdifferent with rfl | ⟨seg', rfl⟩
      · cases hop
      · rw [List.mem_singleton.mp hop]
        exact hother

/-- **A reading covers the operators** when each has a name and nothing is left over. -/
theorem covers_iff (hne : operators text ≠ []) :
    (readingOf argv (outFiles text) (inFiles text)).Covers text ↔
      ((operators text).map Prod.fst).Nodup ∧ Blank ((command text).dropWhile inScanset) ∧
        ∀ op ∈ operators text, fileName op.2 ≠ [] ∧ Blank (leftover op.2) := by
  refine and_congr_right fun hdifferent => ⟨?_, ?_⟩
  · intro hall
    have hnamed : ∀ op ∈ operators text, Blank ((command text).dropWhile inScanset) ∧
        fileName op.2 ≠ [] ∧ Blank (leftover op.2) := by
      intro op hop
      obtain ⟨name, hname, hby⟩ := hall op hop
      rcases @reading_file text argv hdifferent op hop with ⟨hfile, hblank⟩ | ⟨hnone, _⟩
      · cases hname.symm.trans hfile
        exact ⟨hblank, (namedBy_fileName_iff _).mp hby⟩
      · cases hname.symm.trans hnone
    obtain ⟨op, hop⟩ := List.exists_mem_of_ne_nil _ hne
    exact ⟨(hnamed op hop).1, fun op hop => (hnamed op hop).2⟩
  · intro hcond op hop
    rcases @reading_file text argv hdifferent op hop with ⟨hfile, _⟩ | ⟨_, hnot⟩
    · exact ⟨_, hfile, (namedBy_fileName_iff _).mpr (hcond.2 op hop)⟩
    · exact absurd hcond hnot

end Readings

/-! ## 6. Programs that are started -/

section Started

variable {text : CString} {r : Reading} {s t u : Shell w} {p : Process} {o : RunOutcome}
  {dir : w.Dir} {e : Exec w}

/-- **Operators that are covered take effect**, unless both files are opened where the shell has
lost more than one stream. -/
theorem allTakeEffect_of_covers (hcov : r.Covers text) (hr : r.Consistent)
    (hopen : Opened r s p t) (hu : KeepsEntry p t u) (h : runProcess o dir p u = .execv e)
    (hs : r.infile ≠ none → r.outfile = none ∨ StreamsOpen s) : AllTakeEffect text e := by
  refine ⟨hcov.1, ?_⟩
  intro op hop
  obtain ⟨name, hfile, hname⟩ := hcov.2 op hop
  obtain ⟨c, seg⟩ := op
  rcases operator_cases (mem_marks hop).1 with rfl | rfl
  · exact ⟨s.fresh, name, hname, (entry_output hr hopen hu h hfile).1⟩
  · have hin : r.infile = some name := hfile
    obtain ⟨n, hin⟩ := entry_input hr hopen hu h hin (hs (by simp [hin]))
    exact ⟨n, name, hname, hin⟩

/-- In a shell with its own streams nothing else makes them take effect. -/
theorem covers_of_allTakeEffect (hr : r.Consistent) (hopen : Opened r s p t)
    (h : runProcess o dir p t = .execv e) (hs : StreamsOpen s) {i j : Nat}
    (h0 : s.fds.get STDIN_FILENO = some (.inherited i))
    (h1 : s.fds.get STDOUT_FILENO = some (.inherited j)) (hall : AllTakeEffect text e) :
    r.Covers text := by
  obtain ⟨hnoOut, hnoIn⟩ := entry_unredirected hr hopen h
  refine ⟨hall.different, ?_⟩
  intro op hop
  obtain ⟨n, name, hname, hstream⟩ := hall.each op hop
  refine ⟨name, ?_, hname⟩
  obtain ⟨c, seg⟩ := op
  rcases operator_cases (mem_marks hop).1 with rfl | rfl
  · have hget : e.fds.get STDOUT_FILENO = some (.opened n name true) := hstream
    show r.outfile = some name
    cases hout : r.outfile with
    | none =>
      rw [hnoOut hout, hopen.keeps _ _ h1] at hget
      cases hget
    | some f =>
      rw [(entry_output hr hopen (fun _ _ => rfl) h hout).1] at hget
      cases hget
      rfl
  · have hget : e.fds.get STDIN_FILENO = some (.opened n name false) := hstream
    show r.infile = some name
    cases hin : r.infile with
    | none =>
      rw [hnoIn hin, hopen.keeps _ _ h0] at hget
      cases hget
    | some f =>
      obtain ⟨m, hm⟩ := entry_input hr hopen (fun _ _ => rfl) h hin (Or.inr hs)
      rw [hm] at hget
      cases hget
      rfl

/-- What `Starts` says of the reading of a text that begins with a command. -/
theorem Starts.reading (h : Starts s text e) (hclean : Cleaned text)
    (hne : text.takeWhile inScanset ≠ []) :
    ¬ Overruns text ∧ ∃ (p : Process) (t u : Shell w) (o : RunOutcome) (dir : w.Dir),
      Opened (readingOf (argvItem text) (outFiles text) (inFiles text)) s p t ∧
        KeepsEntry p t u ∧ runProcess o dir p u = .execv e := by
  obtain ⟨hentry, hu, hrun, hstarted⟩ := h
  rename_i b env p t u o dir
  rw [handleRedirection_eq] at hentry
  obtain ⟨r, hread, hentry⟩ := bind_eq_ok hentry
  have hopen := handleReading_opened hentry
  cases hover : overflow text with
  | some k =>
    rw [readCommand_overflow hover] at hread
    cases hread
  | none =>
    rw [hclean.reading hover hne] at hread
    cases hread
    refine ⟨?_, p, t, u, o, dir, hopen, hu, hrun⟩
    rintro (hsome | hfull)
    · exact hsome hover
    · -- a full `argv` has no NULL: the child does not start the program
      have hargc : MAX_ARGUMENTS_NUM ≤ p.argc := by
        rw [Process.argc, hopen.argv, (readingOf_names _ (outFiles_or_inFiles text)).1]
        exact hfull
      obtain ⟨_, _, _, _, _, _, hexec⟩ := runProcess_steps hrun
      rcases (execv_eq_execv hexec).2 with ⟨_, hstopped⟩ | hfew
      · rw [hstopped] at hstarted
        cases hstarted
      · exact absurd hfew (Nat.not_lt.mpr hargc)

end Started

/-! ## 7. A world that refuses nothing -/

/-- Every path is a program that starts, and every file opens. -/
def permissive : World where
  Dir := Unit
  root := ()
  child := fun _ _ => some ()
  readable := fun _ => true
  searchable := fun _ => true
  File := Unit
  file := fun _ _ => some ()
  executable := fun _ => true
  startable := fun _ => true
  opens := fun _ _ _ => true

/-- A `dup2` of an open descriptor leaves open descriptors open. -/
theorem dup2_open {src : Option Nat} (dst : Nat) {s : Shell w} (h : src.bind s.fds.get ≠ none) :
    ∃ t, s.dup2 true src dst = some t ∧ ∀ k, s.fds.get k ≠ none → t.fds.get k ≠ none := by
  cases hd : s.dup2 true src dst with
  | none =>
    rcases Shell.dup2_eq_none_iff.mp hd with hno | hno
    · cases hno
    · exact absurd hno h
  | some t =>
    obtain ⟨_, _, f, _, _, hfds, _⟩ := Shell.dup2_eq_some hd
    refine ⟨t, rfl, fun k hk => ?_⟩
    rw [hfds, FdTable.get_set]
    split
    · exact Option.some_ne_none f
    · exact hk

/-- One of the `dup2` steps, whether it is taken or not. -/
theorem dup2_step_open {c : Prop} [Decidable c] {src : Option Nat} (dst : Nat) {s : Shell w}
    (h : c → src.bind s.fds.get ≠ none) :
    ∃ t, (if c then s.dup2 true src dst else some s) = some t ∧
      ∀ k, s.fds.get k ≠ none → t.fds.get k ≠ none := by
  split
  · rename_i hc
    exact dup2_open dst (h hc)
  · exact ⟨s, rfl, fun _ hk => hk⟩

/-- A descriptor of an entry stays open where open descriptors do. -/
theorem bind_get_ne_none {s t : Shell w} (hkeep : ∀ k, s.fds.get k ≠ none → t.fds.get k ≠ none)
    {src : Option Nat} (h : src.bind s.fds.get ≠ none) : src.bind t.fds.get ≠ none := by
  cases src with
  | none => exact h
  | some k => exact hkeep k h

/-- A child whose redirection files are open gets to its `execv`. -/
theorem runProcess_open {dir : w.Dir} {p : Process} {u : Shell w}
    (hout : p.redirected.has REDI_OUT_MASK = true → p.rediOutfd.bind u.fds.get ≠ none)
    (hin : p.redirected.has REDI_IN_MASK = true → p.rediInfd.bind u.fds.get ≠ none) :
    ∃ v, runProcess ⟨true, true, true⟩ dir p u = execv dir p v := by
  obtain ⟨u₁, h₁, hkeep₁⟩ := dup2_step_open
    (c := p.redirected.has REDI_OUT_MASK = true ∧ ¬ p.redirected.has REDI_PIPE_MASK = true)
    STDERR_FILENO (fun h => hout h.1)
  obtain ⟨u₂, h₂, hkeep₂⟩ := dup2_step_open STDOUT_FILENO
    (fun h : p.redirected.has REDI_OUT_MASK = true => bind_get_ne_none hkeep₁ (hout h))
  obtain ⟨u₃, h₃, _⟩ := dup2_step_open STDIN_FILENO
    (fun h : p.redirected.has REDI_IN_MASK = true =>
      bind_get_ne_none hkeep₂ (bind_get_ne_none hkeep₁ (hin h)))
  refine ⟨u₃, ?_⟩
  unfold runProcess
  dsimp only
  rw [h₁, Option.bind_some, h₂, Option.bind_some, h₃]

section Permissive

variable {text : CString} {r : Reading} {b : Scratch}

/-- Every file opens, on a descriptor of its own. -/
theorem permissive_openFile (n : CString) (write : Bool) (s : Shell permissive) :
    (s.openFile n write).1.bind (s.openFile n write).2.fds.get ≠ none := by
  intro hnone
  have hget : (s.openFile n write).2.fds.get s.fds.lowest = some (.opened s.fresh n write) :=
    FdTable.get_alloc_lowest s.fds _
  exact nomatch hget.symm.trans hnone

/-- The entry of a reading with a word: its files are open. -/
theorem permissive_entry {name : CString} {args : List CString} (hargv : r.argv = name :: args)
    (env : Environment) (s : Shell permissive) :
    ∃ p t, handleReading r env s = .ok (p, t) ∧ p.execPath = some name ∧
      (r.outfile.isSome = true → p.rediOutfd.bind t.fds.get ≠ none) ∧
        (r.infile.isSome = true → p.rediInfd.bind t.fds.get ≠ none) := by
  have hkeep : ∀ (n : CString) (write : Bool) (s : Shell permissive) (k : Nat),
      s.fds.get k ≠ none → (s.openFile n write).2.fds.get k ≠ none := by
    intro n write s k hk
    obtain ⟨f, hf⟩ := Option.ne_none_iff_exists'.mp hk
    rw [openFile_get n write hf]
    exact Option.some_ne_none f
  unfold handleReading findExec
  rw [hargv]
  cases r.outfile with
  | none =>
    cases r.infile with
    | none => exact ⟨_, _, rfl, rfl, by rintro ⟨⟩, by rintro ⟨⟩⟩
    | some g => exact ⟨_, _, rfl, rfl, by rintro ⟨⟩, fun _ => permissive_openFile g false s⟩
  | some g =>
    cases r.infile with
    | none => exact ⟨_, _, rfl, rfl, fun _ => permissive_openFile g true s, by rintro ⟨⟩⟩
    | some g' =>
      exact ⟨_, _, rfl, rfl,
        fun _ => bind_get_ne_none (hkeep g' false _) (permissive_openFile g true s),
        fun _ => permissive_openFile g' false _⟩

/-- Every reading with a word, and not too many, is started. -/
theorem permissive_starts (s : Shell permissive) (env : Environment)
    (hread : readCommand text b = .ok r) (hne : r.argv ≠ [])
    (hlen : r.argv.length < MAX_ARGUMENTS_NUM) :
    ∃ p t e, Opened r s p t ∧ runProcess ⟨true, true, true⟩ s.cwd p t = .execv e ∧
      Starts s text e := by
  have hr := readCommand_consistent hread
  obtain ⟨name, args, hargv⟩ := List.exists_cons_of_ne_nil hne
  obtain ⟨p, t, hentry, hpath, hout, hin⟩ := permissive_entry hargv env s
  have hopen := handleReading_opened hentry
  obtain ⟨v, hrun⟩ := @runProcess_open permissive s.cwd p t
    (fun h => hout (by rwa [hopen.redirected, hr.out] at h))
    (fun h => hin (by rwa [hopen.redirected, hr.onIn] at h))
  have hargc : ¬ MAX_ARGUMENTS_NUM ≤ p.argc := by
    rw [Process.argc, hopen.argv]
    exact Nat.not_le.mpr hlen
  have hexec : execv s.cwd p v = .execv ⟨some name, p.argv, v.fds, s.cwd, v.cwd, true⟩ := by
    rw [execv, hpath]
    dsimp only
    rw [if_neg hargc]
    rfl
  have hcall : handleRedirection b text {} env s = .ok (p, t) := by
    rw [handleRedirection_eq, hread]
    exact hentry
  exact ⟨p, t, _, hopen, hrun.trans hexec, .intro hcall (fun _ _ => rfl) (hrun.trans hexec) rfl⟩

end Permissive

/-! ## 8. The theorem -/

section Texts

variable {text : CString}

/-- The shell with standard input and output closed. -/
def Shell.closed : Shell permissive := ((Shell.start ()).close STDOUT_FILENO).close STDIN_FILENO

theorem streamsOpen_start : StreamsOpen (Shell.start () : Shell permissive) := by
  refine ⟨3, ?_⟩
  decide

/-- When the operators take effect in the shell as it is started, every reading covers them. -/
theorem covers_of_start
    (h : ∀ e, Starts (Shell.start () : Shell permissive) text e → AllTakeEffect text e)
    {b : Scratch} {r : Reading} (hread : readCommand text b = .ok r) (hne : r.argv ≠ [])
    (hlen : r.argv.length < MAX_ARGUMENTS_NUM) : r.Covers text := by
  obtain ⟨p, t, e, hopen, hrun, hstarts⟩ :=
    permissive_starts (Shell.start ()) rootSession.env hread hne hlen
  exact covers_of_allTakeEffect (readCommand_consistent hread) hopen hrun streamsOpen_start rfl rfl
    (h e hstarts)

/-- A text that begins with a command, has operators and overruns nothing has one reading. -/
theorem Cleaned.one_reading (hclean : Cleaned text) (hbegins : BeginsCommand text)
    (hover : ¬ Overruns text) (b : Scratch) :
    readCommand text b = .ok (readingOf (argvItem text) (outFiles text) (inFiles text)) ∧
      (readingOf (argvItem text) (outFiles text) (inFiles text)).argv ≠ [] ∧
      (readingOf (argvItem text) (outFiles text) (inFiles text)).argv.length <
        MAX_ARGUMENTS_NUM := by
  obtain ⟨hfit, hfew⟩ := not_or.mp hover
  have hne := hclean.beginsCommand_iff.mp hbegins
  rw [(readingOf_names _ (outFiles_or_inFiles text)).1]
  exact ⟨hclean.reading (not_not.mp hfit) hne b, hclean.argvItem_ne_nil hne, Nat.not_le.mp hfew⟩

/-- **The texts that are accepted as a whole** are those with one operator of each kind.  A text
with operators that is not of this kind is run in some shell all the same, with one of them dropped.
-/
theorem Cleaned.oneEach (hclean : Cleaned text) (hne : operators text ≠ [])
    (hover : ¬ Overruns text)
    (h : ∀ e, Starts (Shell.start () : Shell permissive) text e → AllTakeEffect text e) :
    OneEach text := by
  have hbegins : BeginsCommand text := by
    rw [hclean.beginsCommand_iff]
    intro hnil
    -- the command is what the stack held, without redirections
    have hread : readCommand text (fun _ => ['x']) = .ok ⟨.noRedi, [['x']], none, none⟩ := by
      rw [readCommand_nothing hnil]
      decide +kernel
    obtain ⟨op, hop⟩ := List.exists_mem_of_ne_nil _ hne
    obtain ⟨name, hfile, _⟩ := (covers_of_start h hread (by decide) (by decide)).2 op hop
    unfold Reading.file at hfile
    split at hfile <;> cases hfile
  obtain ⟨hread, hargv, hlen⟩ := hclean.one_reading hbegins hover (fun _ => [])
  obtain ⟨hdifferent, hcommand, hnamed⟩ := (covers_iff hne).mp (covers_of_start h hread hargv hlen)
  exact ⟨hbegins, hcommand, hdifferent, hnamed⟩

/-- The files of such a text. -/
theorem OneEach.file (hone : OneEach text) {op : Char × CString} (hop : op ∈ operators text) :
    (readingOf (argvItem text) (outFiles text) (inFiles text)).file op.1 = some (fileName op.2) := by
  rcases @reading_file text (argvItem text) hone.different op hop with ⟨hfile, _⟩ | ⟨_, hnot⟩
  · exact hfile
  · exact absurd ⟨hone.command, hone.named⟩ hnot

theorem allTakeEffect_of_nil (hnil : operators text = []) (e : Exec w) : AllTakeEffect text e :=
  ⟨by simp [hnil], by simp [hnil]⟩

/-- In the programs started for such a text the operators take effect. -/
theorem OneEach.allTakeEffect (hone : OneEach text) (hclean : Cleaned text) {s : Shell w}
    {e : Exec w} (h : Starts s text e) (hs : StreamsOpen s ∨ (operators text).length = 1) :
    AllTakeEffect text e := by
  by_cases hnil : operators text = []
  · exact allTakeEffect_of_nil hnil e
  obtain ⟨⟨a, seg⟩, ops, hops⟩ := List.exists_cons_of_ne_nil hnil
  obtain ⟨hover, p, t, u, o, dir, hopen, hu, hrun⟩ :=
    h.reading hclean (hclean.beginsCommand_iff.mp hone.begins)
  have hcov := (@covers_iff text (argvItem text) hnil).mpr
    ⟨hone.different, hone.command, hone.named⟩
  have hr := readCommand_consistent (hclean.one_reading hone.begins hover (fun _ => [])).1
  refine allTakeEffect_of_covers hcov hr hopen hu hrun ?_
  intro hin
  refine hs.symm.imp_left fun hlen => ?_
  -- one operator has one file
  have hmore : ops = [] := by
    rw [hops, List.length_cons] at hlen
    exact List.length_eq_zero_iff.mp (Nat.succ.inj hlen)
  subst hmore
  have hmarks := fun op hop => mem_marks (p := isOperator) (s := text) (m := op) hop
  have hfirst := hmarks (a, seg) (by
    rw [show marks isOperator text = [(a, seg)] from hops]
    exact List.mem_cons_self)
  have hleft : ∀ x ∈ leftover seg, isOperator x = false := fun x hx => hfirst.2 x
    ((List.dropWhile_suffix isSpace).subset ((List.dropWhile_suffix inScanset).subset hx))
  have hother := (@reading_files a seg text [] (argvItem text) hops).2
  rw [unmark_nil, List.append_nil, operand_none (isOperator_other hfirst.1).1 hleft,
    Option.map_none, ite_self] at hother
  rcases operator_cases hfirst.1 with rfl | rfl
  · exact absurd hother hin
  · exact hother

/-- A text with both operators loses its input in a shell without standard input and output. -/
theorem OneEach.not_both (hone : OneEach text) (hclean : Cleaned text) (hover : ¬ Overruns text)
    (hnil : operators text ≠ []) (hlen : (operators text).length ≠ 1) :
    ∃ e, Starts Shell.closed text e ∧ ¬ AllTakeEffect text e := by
  obtain ⟨hread, hargv, hfew⟩ := hclean.one_reading hone.begins hover (fun _ => [])
  obtain ⟨p, t, e, hopen, hrun, hstarts⟩ :=
    permissive_starts Shell.closed rootSession.env hread hargv hfew
  refine ⟨e, hstarts, fun hall => ?_⟩
  obtain ⟨⟨a, seg⟩, ops, hops⟩ := List.exists_cons_of_ne_nil hnil
  have hmarks := fun op hop => mem_marks (p := isOperator) (s := text) (m := op) hop
  rw [show marks isOperator text = (a, seg) :: ops from hops] at hmarks
  obtain ⟨⟨ha, _⟩, hmore⟩ := List.forall_mem_cons.mp hmarks
  have hdifferent := hone.different
  rw [hops] at hdifferent hlen
  obtain ⟨seg', rfl⟩ := (two_operators ha (fun op hop => (hmore op hop).1) hdifferent).resolve_left
    (fun hnone => hlen (by rw [hnone]; rfl))
  have hcov := (@covers_iff text (argvItem text) hnil).mpr
    ⟨hone.different, hone.command, hone.named⟩
  -- so there is a `>` and a `<`, each with its file
  have hboth : (∃ seg, ('>', seg) ∈ operators text) ∧ ∃ seg, ('<', seg) ∈ operators text := by
    rw [hops]
    rcases operator_cases ha with rfl | rfl
    · exact ⟨⟨seg, by simp⟩, ⟨seg', by simp [otherOperator]⟩⟩
    · exact ⟨⟨seg', by simp [otherOperator]⟩, ⟨seg, by simp⟩⟩
  obtain ⟨⟨_, hgt⟩, ⟨_, hlt⟩⟩ := hboth
  obtain ⟨f, hf, _⟩ := hcov.2 _ hgt
  obtain ⟨g, hg, _⟩ := hcov.2 _ hlt
  have hclobbered := entry_clobbered (readCommand_consistent hread) hopen (fun _ _ => rfl) hrun
    (show _ = some f from hf) (show _ = some g from hg) rfl rfl
  obtain ⟨n, name, _, hstream⟩ := hall.each _ hlt
  have hget : e.fds.get STDIN_FILENO = some (.opened n name false) := hstream
  rw [hclobbered] at hget
  cases hget

end Texts

/-- **When no operator is dropped**: in every shell that has lost at most one standard stream, and
in every shell.  The four attempts with `sscanf` are there to take every combination of one `<` and
one `>`, and these are the texts they take; all others are run as well, and that they are run
without a redirection that was typed is what a user of the shell does not see. -/
theorem operators_take_effect_iff {t : CString} (hfit : ¬ Overruns (clean t)) :
    ((∀ (w : World) (s : Shell w) (e : Exec w), StreamsOpen s → Starts s (clean t) e →
        AllTakeEffect (clean t) e) ↔
      operators (clean t) = [] ∨ OneEach (clean t)) ∧
    ((∀ (w : World) (s : Shell w) (e : Exec w), Starts s (clean t) e →
        AllTakeEffect (clean t) e) ↔
      operators (clean t) = [] ∨
        OneEach (clean t) ∧ (operators (clean t)).length = 1) := by
  have hclean := cleaned_clean t
  constructor
  · constructor
    · intro h
      by_cases hnil : operators (clean t) = []
      · exact Or.inl hnil
      exact Or.inr (hclean.oneEach hnil hfit fun e he => h _ _ e streamsOpen_start he)
    · rintro (hnil | hone) w s e hs h
      · exact allTakeEffect_of_nil hnil e
      · exact hone.allTakeEffect hclean h (Or.inl hs)
  · constructor
    · intro h
      by_cases hnil : operators (clean t) = []
      · exact Or.inl hnil
      have hone := hclean.oneEach hnil hfit fun e he => h _ _ e he
      refine Or.inr ⟨hone, ?_⟩
      by_contra hlen
      obtain ⟨e, he, hnot⟩ := hone.not_both hclean hfit hnil hlen
      exact hnot (h _ _ e he)
    · rintro (hnil | ⟨hone, hlen⟩) w s e h
      · exact allTakeEffect_of_nil hnil e
      · exact hone.allTakeEffect hclean h (Or.inr hlen)

theorem cat_oneEach : OneEach (clean "cat < in > out".toList) := by
  have hcommand : command (clean "cat < in > out".toList) = "cat ".toList := by decide +kernel
  have hops : operators (clean "cat < in > out".toList) =
      [('<', " in ".toList), ('>', " out".toList)] := by decide +kernel
  refine ⟨⟨'c', by decide +kernel, by decide, by decide⟩, ?_, ?_, ?_⟩
  · rw [hcommand]
    exact List.forall_mem_nil _
  · rw [hops]
    decide
  · rw [hops]
    have hin : leftover " in ".toList = [] := by decide +kernel
    have hout : leftover " out".toList = [] := by decide +kernel
    refine List.forall_mem_cons.mpr ⟨⟨by decide +kernel, ?_⟩,
      List.forall_mem_singleton.mpr ⟨by decide +kernel, ?_⟩⟩
    · rw [hin]
      exact List.forall_mem_nil _
    · rw [hout]
      exact List.forall_mem_nil _

/-- A `cat` with both operators is started, and both are in effect. -/
theorem operators_take_effect_both : ∃ e : Exec permissive,
    Starts (Shell.start ()) (clean "cat < in > out".toList) e ∧
      AllTakeEffect (clean "cat < in > out".toList) e := by
  have hread : readCommand (clean "cat < in > out".toList) (fun _ => []) =
      .ok ⟨.rediInOut, ["cat".toList], some "out".toList, some "in ".toList⟩ := by decide +kernel
  obtain ⟨_, _, e, _, _, hstarts⟩ :=
    permissive_starts (Shell.start ()) rootSession.env hread (by decide) (by decide)
  exact ⟨e, hstarts, (operators_take_effect_iff (by decide +kernel)).1.mpr (Or.inr cat_oneEach)
    _ _ _ streamsOpen_start hstarts⟩

/-- `cat <` runs `cat` on the input of the shell, and of `cat > a > b` the second name is dropped. -/
theorem operators_dropped :
    (∃ e : Exec permissive, Starts (Shell.start ()) (clean "cat <".toList) e ∧
      e.fds.get STDIN_FILENO = some (.inherited 0) ∧ ¬ AllTakeEffect (clean "cat <".toList) e) ∧
    ∃ e : Exec permissive, Starts (Shell.start ()) (clean "cat > a > b".toList) e ∧
      e.fds.get STDOUT_FILENO = some (.opened 0 "a ".toList true) ∧
      ¬ AllTakeEffect (clean "cat > a > b".toList) e := by
  constructor
  · have hread : readCommand (clean "cat <".toList) (fun _ => []) =
        .ok ⟨.noRedi, ["cat".toList], none, none⟩ := by decide +kernel
    obtain ⟨p, t, e, hopen, hrun, hstarts⟩ :=
      permissive_starts (Shell.start ()) rootSession.env hread (by decide) (by decide)
    have hstdin : e.fds.get STDIN_FILENO = some (.inherited 0) :=
      ((entry_unredirected (readCommand_consistent hread) hopen hrun).2 rfl).trans
        (hopen.keeps _ _ rfl)
    refine ⟨e, hstarts, hstdin, fun hall => ?_⟩
    obtain ⟨n, name, _, hstream⟩ := hall.each ('<', []) (by decide +kernel)
    exact nomatch hstdin.symm.trans hstream
  · have hread : readCommand (clean "cat > a > b".toList) (fun _ => []) =
        .ok ⟨.rediOut, ["cat".toList], some "a ".toList, none⟩ := by decide +kernel
    obtain ⟨p, t, e, hopen, hrun, hstarts⟩ :=
      permissive_starts (Shell.start ()) rootSession.env hread (by decide) (by decide)
    have hstdout :=
      (entry_output (readCommand_consistent hread) hopen (fun _ _ => rfl) hrun rfl).1
    refine ⟨e, hstarts, hstdout, fun hall => ?_⟩
    exact absurd hall.different (by decide +kernel)

end Osexp.Seush
