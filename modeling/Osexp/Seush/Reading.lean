/-
# What `handle_redirection` reads

`handle_redirection` takes from its text a kind of redirection, the words of a command and up to two
file names, and does everything else with these (`handleRedirection_eq`).  They come out of four
attempts with `sscanf` on the same text.  Here the attempts are put together: one command, one name
behind an operator, one more behind the other operator (`files`).

* When everything fits, the reading is made of these (`readCommand_eq`).
* Otherwise the first item that does not fit decides which array is overrun
  (`readCommand_overflow`).

The source tries the format with both operators in one order, then in the other, then each operator
alone; where none of the four takes enough, there is no redirection, and what the attempts have
stored stays in the buffers.  Going through all of them in every proof would be hopeless, and what
is true of the result is simple: they agree on what they read, they only read different amounts of
it.  So the items are defined on the text (`argvItem`, `inFiles`, `outFiles`), and the two theorems
are what the rest of the development knows of the formats.
-/
import Osexp.Seush.Redirection

namespace Osexp.Seush

variable {w : World}

/-! ## 1. Readings -/

/-- What `handle_redirection` reads from its text. -/
structure Reading where
  redirected : RedirectionType
  argv : List CString
  outfile : Option CString
  infile : Option CString
  deriving DecidableEq, Repr

/-- `handle_redirection` up to the words of `argv`, over the contents of its three buffers. -/
def readCommand (text : CString) (b : Scratch) : Except Fault Reading :=
  scanRedirection text b >>= fun (type, b) =>
  let argv := strtokAll [' '] (clean (b .commandNoredi))
  if MAX_ARGUMENTS_NUM < argv.length then .error (.overflow .argv)
  else .ok
    { redirected := type
      argv := argv
      outfile := if type.has REDI_OUT_MASK then some (b .rediOutfile) else none
      infile := if type.has REDI_IN_MASK then some (b .rediInfile) else none }

/-- `handle_redirection` once the text is read. -/
def handleReading (r : Reading) (env : Environment) (s : Shell w) :
    Except Fault (Process × Shell w) :=
  let (outfd, s) := match r.outfile with
    | some name => s.openFile name true
    | none => (none, s)
  let (infd, s) := match r.infile with
    | some name => s.openFile name false
    | none => (none, s)
  let p : Process :=
    { redirected := r.redirected, argv := r.argv, rediOutfd := outfd, rediInfd := infd }
  (findExec env s.cwd p).map (fun p => (p, s))

/-- All of it is done when the lookup begins. -/
theorem handleReading_eq (r : Reading) (env : Environment) (s : Shell w) :
    ∃ (p : Process) (t : Shell w), p.argv = r.argv ∧
      handleReading r env s = (findExec env t.cwd p).map (fun p => (p, t)) :=
  ⟨_, _, rfl, rfl⟩

/-- **`handle_redirection` sees of its text what `readCommand` reads.**  The files are opened and
the program is looked up from the reading alone, so a result about texts is one about readings. -/
theorem handleRedirection_eq (b : Scratch) (text : CString) (env : Environment) (s : Shell w) :
    handleRedirection b text {} env s =
      readCommand text b >>= fun r => handleReading r env s := by
  unfold handleRedirection readCommand
  cases scanRedirection text b with
  | error f => rfl
  | ok r =>
    obtain ⟨type, c⟩ := r
    dsimp only [bind, Except.bind]
    split
    · rfl
    · unfold handleReading openRedirections
      cases type.has REDI_OUT_MASK <;> cases type.has REDI_IN_MASK <;> rfl

/-! ## 2. The formats, item by item -/

/-- What follows the operator `a` and the white space after it. -/
def afterOp (a : Char) (s : CString) : Option CString :=
  match s.dropWhile isSpace with
  | [] => none
  | x :: t => if x = a then some (t.dropWhile isSpace) else none

/-- What a scan set takes of a text, and what it leaves. -/
def takeItem (s : CString) : Option (CString × CString) :=
  if (s.takeWhile inScanset).isEmpty then none
  else some (s.takeWhile inScanset, s.dropWhile inScanset)

/-- The file name after the operator `a`, and what is left. -/
def operand (a : Char) (s : CString) : Option (CString × CString) := (afterOp a s).bind takeItem

/-- The names after `a` and, behind it, `b`. -/
def files (a b : Char) (s : CString) : Option (CString × Option CString) :=
  (operand a s).map (fun n => (n.1, (operand b n.2).map Prod.fst))

/-- The items of such names. -/
def names : Option (CString × Option CString) → List CString
  | none => []
  | some (n, none) => [n]
  | some (n, some m) => [n, m]

theorem scan_operand (a : Char) (ds : List Directive) (s : CString) :
    scan (.blank :: .lit a :: .blank :: .scanset :: ds) s =
      (operand a s).elim [] (fun n => n.1 :: scan ds n.2) := by
  rw [scan, operand, afterOp]
  cases s.dropWhile isSpace with
  | nil => rfl
  | cons x t =>
    dsimp only
    rw [scan]
    split
    · rw [scan, scan, Option.bind_some, takeItem]
      split <;> rfl
    · rfl

theorem scan_command (ds : List Directive) (s : CString) :
    scan (.scanset :: ds) s = (takeItem s).elim [] (fun n => n.1 :: scan ds n.2) := by
  rw [scan, takeItem]
  split <;> rfl

theorem scan_format₃ (a b : Char) (s : CString) :
    scan (format₃ a b) s =
      (takeItem s).elim [] (fun n => n.1 :: names (files a b n.2)) := by
  have hlast : ∀ (a : Char) (r : CString), scan [.blank, .lit a, .blank, .scanset] r =
      ((operand a r).map Prod.fst).toList := by
    intro a r
    rw [scan_operand]
    cases operand a r <;> rfl
  unfold format₃ format₂
  rw [List.cons_append, scan_command]
  congr 1
  funext n
  simp only [List.cons_append, List.nil_append]
  rw [scan_operand, files]
  cases operand a n.2 with
  | none => rfl
  | some m =>
    simp only [Option.elim_some, Option.map_some, hlast]
    cases operand b m.2 <;> rfl

theorem scan_format₂ (a b : Char) (s : CString) :
    scan (format₂ a) s =
      (takeItem s).elim [] (fun n => n.1 :: (names (files a b n.2)).take 1) := by
  unfold format₂
  rw [scan_command]
  congr 1
  funext n
  rw [scan_operand, files]
  cases operand a n.2 with
  | none => rfl
  | some m =>
    simp only [Option.elim_some, Option.map_some]
    cases operand b m.2 <;> rfl

/-- A text has one first operator. -/
theorem files_exclusive {a b : Char} (hab : a ≠ b) (s : CString) :
    files a b s = none ∨ files b a s = none := by
  unfold files operand afterOp
  cases s.dropWhile isSpace with
  | nil => exact Or.inl rfl
  | cons x t =>
    dsimp only
    by_cases hx : x = a
    · rw [if_neg (fun hb : x = b => hab (hx.symm.trans hb))]
      exact Or.inr rfl
    · rw [if_neg hx]
      exact Or.inl rfl

/-! ## 3. Items that do not fit -/

/-- The items that the first and the second attempt take of a text, each with its buffer.  The
other two take no others. -/
def outInItems (text : CString) : List (Buffer × CString) :=
  [.commandNoredi, .rediOutfile, .rediInfile].zip (scan (format₃ '>' '<') text)

def inOutItems (text : CString) : List (Buffer × CString) :=
  [.commandNoredi, .rediInfile, .rediOutfile].zip (scan (format₃ '<' '>') text)

def tooLong (e : Buffer × CString) : Bool := decide (e.1.size ≤ e.2.length)

/-- The array that is too small for what is taken of the text, if there is one. -/
def overflow (text : CString) : Option FixedArray :=
  ((outInItems text ++ inOutItems text).find? tooLong).map (fun e => e.1.array)

/-- The third and fourth attempt take the first two items of another one. -/
theorem itemsFit_take {j k l : Buffer} {item : CString} {more : List CString}
    (h : ItemsFit ([j, k, l].zip (item :: more))) :
    ItemsFit ([j, k].zip (item :: more.take 1)) := by
  intro e he
  refine h e ?_
  cases more with
  | nil => exact he
  | cons m more =>
    simp only [List.take_succ_cons, List.take_zero, List.zip_cons_cons, List.zip_nil_right,
      List.mem_cons, List.not_mem_nil, or_false] at he ⊢
    rcases he with he | he
    · exact Or.inl he
    · exact Or.inr (Or.inl he)

theorem itemsFit_iff {items : List (Buffer × CString)} :
    ItemsFit items ↔ items.find? tooLong = none := by
  simp [ItemsFit, tooLong]

theorem store_overflow : ∀ {b : Scratch} {items : List (Buffer × CString)} {e : Buffer × CString},
    items.find? tooLong = some e → b.store items = .error (.overflow e.1.array)
  | b, [], e, h => by cases h
  | b, (k, item) :: items, e, h => by
    rw [Scratch.store]
    split
    · rename_i hlt
      rw [List.find?_cons_of_neg (by simpa [tooLong] using hlt)] at h
      exact store_overflow h
    · rename_i hge
      rw [List.find?_cons_of_pos (by simpa [tooLong] using hge)] at h
      cases h
      rfl

theorem sscanf_overflow {format : List Directive} {dests : List Buffer} {text : CString}
    {e : Buffer × CString} (h : (dests.zip (scan format text)).find? tooLong = some e)
    (b : Scratch) : sscanf format dests text b = .error (.overflow e.1.array) := by
  rw [sscanf, store_overflow h]
  rfl

/-- Three items of the first attempt leave only the command for the second. -/
theorem length_outIn {text : CString} {e : Buffer × CString}
    (hfits : ItemsFit (outInItems text)) (h : (inOutItems text).find? tooLong = some e) :
    (scan (format₃ '>' '<') text).length ≠ 3 := by
  intro hlen
  have hmem := List.mem_of_find?_eq_some h
  rw [inOutItems, scan_format₃] at hmem
  rw [outInItems] at hfits
  rw [scan_format₃] at hlen hfits
  cases htake : takeItem text with
  | none =>
    rw [htake] at hmem
    cases hmem
  | some n =>
    rw [htake, Option.elim_some] at hlen hfits hmem
    rcases hout : files '>' '<' n.2 with _ | ⟨m, _ | l⟩
    · rw [hout] at hlen
      cases hlen
    · rw [hout] at hlen
      cases hlen
    · have hin : files '<' '>' n.2 = none :=
        (files_exclusive (by decide : '>' ≠ '<') n.2).resolve_left (by rw [hout]; simp)
      rw [hin] at hmem
      cases List.mem_singleton.mp hmem
      have hlong := List.find?_some h
      exact absurd (of_decide_eq_true hlong)
        (Nat.not_le.mpr (hfits (.commandNoredi, n.1) List.mem_cons_self))

/-! ## 4. What is read -/

/-- What is read when the command is `item` and these names follow. -/
def readingOf (argv : List CString) :
    Option (CString × Option CString) → Option (CString × Option CString) → Reading
  | some (outfile, some infile), _ => ⟨.rediOutIn, argv, some outfile, some infile⟩
  | _, some (infile, some outfile) => ⟨.rediInOut, argv, some outfile, some infile⟩
  | _, some (infile, none) => ⟨.rediIn, argv, none, some infile⟩
  | some (outfile, none), none => ⟨.rediOut, argv, some outfile, none⟩
  | none, none => ⟨.noRedi, argv, none, none⟩

/-- The names that a reading comes from. -/
def Reading.names (r : Reading) :
    Option (CString × Option CString) × Option (CString × Option CString) :=
  match r.redirected, r.outfile, r.infile with
  | .rediOutIn, some outfile, infile => (some (outfile, infile), none)
  | .rediOut, some outfile, _ => (some (outfile, none), none)
  | .rediInOut, outfile, some infile => (none, some (infile, outfile))
  | .rediIn, _, some infile => (none, some (infile, none))
  | _, _, _ => (none, none)

theorem readingOf_names (argv : List CString) {fo fi : Option (CString × Option CString)}
    (h : fo = none ∨ fi = none) :
    (readingOf argv fo fi).argv = argv ∧ (readingOf argv fo fi).names = (fo, fi) := by
  rcases h with rfl | rfl
  · rcases fi with _ | ⟨n, _ | m⟩ <;> exact ⟨rfl, rfl⟩
  · rcases fo with _ | ⟨n, _ | m⟩ <;> exact ⟨rfl, rfl⟩

/-- The command of a text and its words. -/
def argvItem (s : CString) : List CString := strtokAll [' '] (clean (s.takeWhile inScanset))

def outFiles (s : CString) : Option (CString × Option CString) :=
  files '>' '<' (s.dropWhile inScanset)

def inFiles (s : CString) : Option (CString × Option CString) :=
  files '<' '>' (s.dropWhile inScanset)

theorem outFiles_or_inFiles (s : CString) : outFiles s = none ∨ inFiles s = none :=
  files_exclusive (by decide : '>' ≠ '<') _

/-- An item taken of the text is too long for its array, or its words fill `argv` and leave no room
for the NULL.  The process does not stop there: it goes on with what it has overwritten, and what is
read of such a text says nothing about it. -/
def Overruns (text : CString) : Prop :=
  overflow text ≠ none ∨ MAX_ARGUMENTS_NUM ≤ (argvItem text).length

instance (text : CString) : Decidable (Overruns text) := inferInstanceAs (Decidable (_ ∨ _))

/-- Different items give different readings. -/
theorem readingOf_inj {s t : CString}
    (h : readingOf (argvItem s) (outFiles s) (inFiles s) =
      readingOf (argvItem t) (outFiles t) (inFiles t)) :
    argvItem s = argvItem t ∧ outFiles s = outFiles t ∧ inFiles s = inFiles t := by
  obtain ⟨hargv, hnames⟩ := readingOf_names (argvItem s) (outFiles_or_inFiles s)
  rw [h] at hargv hnames
  obtain ⟨hargv', hnames'⟩ := readingOf_names (argvItem t) (outFiles_or_inFiles t)
  exact ⟨hargv.symm.trans hargv', Prod.mk.inj (hnames.symm.trans hnames')⟩

/-- Nothing is taken of a text that begins with an operator. -/
theorem readCommand_nothing {text : CString} (h : text.takeWhile inScanset = []) :
    readCommand text = readCommand [] := by
  have hscan : ∀ ds, scan (.scanset :: ds) text = [] := by
    intro ds
    rw [scan, h]
    rfl
  have hnil : ∀ ds, scan (.scanset :: ds) [] = [] := fun ds => rfl
  funext b
  unfold readCommand scanRedirection sscanf format₃ format₂
  simp only [List.cons_append, hscan, hnil]

/-- **What is read from a text whose items fit.**  None of the four attempts is mentioned any more. -/
theorem readCommand_eq {text : CString} (hfit : overflow text = none)
    (hne : text.takeWhile inScanset ≠ []) (b : Scratch) :
    readCommand text b =
      if MAX_ARGUMENTS_NUM < (argvItem text).length then .error (.overflow .argv)
      else .ok (readingOf (argvItem text) (outFiles text) (inFiles text)) := by
  have htake : takeItem text = some (text.takeWhile inScanset, text.dropWhile inScanset) := by
    rw [takeItem, if_neg (by simpa using hne)]
  have hA : scan (format₃ '>' '<') text =
      text.takeWhile inScanset :: names (outFiles text) := by
    rw [scan_format₃, htake]
    rfl
  have hB : scan (format₃ '<' '>') text = text.takeWhile inScanset :: names (inFiles text) := by
    rw [scan_format₃, htake]
    rfl
  have hC : scan (format₂ '<') text =
      text.takeWhile inScanset :: (names (inFiles text)).take 1 := by
    rw [scan_format₂ '<' '>', htake]
    rfl
  have hD : scan (format₂ '>') text =
      text.takeWhile inScanset :: (names (outFiles text)).take 1 := by
    rw [scan_format₂ '>' '<', htake]
    rfl
  have hitems := itemsFit_iff.mpr (Option.map_eq_none_iff.mp hfit)
  rw [outInItems, inOutItems, hA, hB] at hitems
  have hfA := fun e he => hitems e (List.mem_append_left _ he)
  have hfB := fun e he => hitems e (List.mem_append_right _ he)
  unfold readCommand
  rw [Osexp.Seush.scanRedirection_eq hA hB hC hD hfA hfB (itemsFit_take hfB) (itemsFit_take hfA)]
  rcases outFiles_or_inFiles text with hout | hin
  · rw [hout]
    rcases inFiles text with _ | ⟨n, _ | m⟩ <;> rfl
  · rw [hin]
    rcases outFiles text with _ | ⟨n, _ | m⟩ <;> rfl

/-- **A text with an item that does not fit.** -/
theorem readCommand_overflow {text : CString} {k : FixedArray} (h : overflow text = some k)
    (b : Scratch) : readCommand text b = .error (.overflow k) := by
  obtain ⟨e, he, rfl⟩ := Option.map_eq_some_iff.mp h
  rw [List.find?_append] at he
  unfold readCommand scanRedirection
  cases hA : (outInItems text).find? tooLong with
  | some e' =>
    rw [hA] at he
    cases he
    rw [sscanf_overflow hA]
    rfl
  | none =>
    rw [hA, Option.none_or] at he
    have hfits := itemsFit_iff.mpr hA
    rw [sscanf_fits _ rfl hfits]
    dsimp only [bind, Except.bind]
    rw [if_neg (length_outIn hfits he), sscanf_overflow he]

end Osexp.Seush
