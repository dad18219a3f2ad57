/-
# Redirections there and back

A command with redirections is rendered, with any spacing around its operators, and given to
`handle_redirection` the way its callers do, after `clean`.

* Cleaning leaves at most one space in every gap (`clean_render`).
* Each of the four formats then either takes the whole text apart or stops at an operator it does
  not name (`scan_item`, `scan_op`, `scan_op_ne`), and what the failed ones leave in the buffers
  is overwritten by the one that succeeds.
* A scan set takes the space that follows its item.  After the command words this is harmless,
  the words are cleaned again.  After the file name in front of a second operator it is not: the
  name goes to `open` with the space.  And the blank in front of a name skips more than blanks, so
  a name that begins with `\v`, `\f` or `\r` loses its first characters.

`round_trips_iff` says that these are the only two ways to fail.
-/
import Osexp.Seush.Loop
import Osexp.Seush.Pipeline

namespace Osexp.Seush

open Text

variable {w : World}

/-! ## 1. Rendering -/

/-- A character of a word or a file name: no blank, no newline, no terminator, no operator. -/
def plain (c : Char) : Bool :=
  !([' ', '\t', '\n', '\x00', '<', '>', '&', '|'].contains c)

/-- A word or a file name. -/
structure IsWord (word : CString) : Prop where
  ne : word ≠ []
  plain : ∀ c ∈ word, plain c = true

instance (word : CString) : Decidable (IsWord word) :=
  decidable_of_iff (word ≠ [] ∧ word.all Osexp.Seush.plain = true)
    ⟨fun h => ⟨h.1, List.all_eq_true.mp h.2⟩, fun h => ⟨h.ne, List.all_eq_true.mpr h.plain⟩⟩

/-- A command with its redirections, their order when there are two, and the number of spaces in
each gap: before and after the first operator, before and after the second. -/
structure Redirected where
  words : List CString
  input : Option CString
  output : Option CString
  outFirst : Bool
  gap : Nat → Nat
  words_ne : words ≠ []
  isWord : ∀ word ∈ words, IsWord word
  isInput : ∀ name ∈ input, IsWord name
  isOutput : ∀ name ∈ output, IsWord name

namespace Redirected

/-- The operators with their file names, in the order in which they are written. -/
def operators (r : Redirected) : List (Char × CString) :=
  match r.input, r.output with
  | none, none => []
  | some i, none => [('<', i)]
  | none, some o => [('>', o)]
  | some i, some o => if r.outFirst then [('>', o), ('<', i)] else [('<', i), ('>', o)]

end Redirected

/-- The operators as text; gap `k` is the one before the first of them. -/
def renderOperators (gap : Nat → Nat) : Nat → List (Char × CString) → CString
  | _, [] => []
  | k, (c, name) :: ops =>
    List.replicate (gap k) ' ' ++
      c :: (List.replicate (gap (k + 1)) ' ' ++ (name ++ renderOperators gap (k + 2) ops))

namespace Redirected

/-- The command as it is typed. -/
def render (r : Redirected) : CString := join ' ' r.words ++ renderOperators r.gap 0 r.operators

/-- The command part as the scan set takes it, with the space in front of the first operator. -/
def item (r : Redirected) : CString :=
  join ' ' r.words ++ List.replicate (if r.operators = [] then 0 else min (r.gap 0) 1) ' '

/-- The first of two file names as the scan set takes it, with the space in front of the second
operator. -/
def firstName (r : Redirected) (name : CString) : CString :=
  name ++ List.replicate (min (r.gap 2) 1) ' '

/-- The operators with the file names as the scan sets take them. -/
def taken (r : Redirected) : List (Char × CString) :=
  match r.operators with
  | [(c, first), (d, second)] => [(c, r.firstName first), (d, second)]
  | ops => ops

/-- Everything fits in the local buffers. -/
structure Fits (r : Redirected) : Prop where
  command : r.item.length < MAX_COMMAND_NOREDI
  names : ∀ op ∈ r.taken, op.2.length < MAX_REDIFILE

/-- The calls of `open` that the redirections ask for, the output first. -/
def opens (r : Redirected) : List (Event w) :=
  r.output.toList.map (Event.openCall · true) ++ r.input.toList.map (Event.openCall · false)

/-- `handle_redirection` gives everything back: the words, the kinds of redirection, and the
names as arguments of `open`. -/
def RoundTrips (r : Redirected) (b : Scratch) (env : Environment) (s : Shell w) : Prop :=
  ∃ p t, handleRedirection b (clean r.render) {} env s = .ok (p, t) ∧
    p.argv = r.words ∧ p.argc = r.words.length ∧
    p.redirected.has REDI_IN_MASK = r.input.isSome ∧
    p.redirected.has REDI_OUT_MASK = r.output.isSome ∧
    t.trace = s.trace ++ r.opens

/-- No space stands between the first file name and a second operator. -/
def TightSecond (r : Redirected) : Prop := r.operators.length = 2 → r.gap 2 = 0

/-- No file name begins with a character that the blank of a format skips. -/
def NamesStart (r : Redirected) : Prop :=
  ∀ op ∈ r.operators, ∀ c ∈ op.2.head?, isSpace c = false

/-! ## 2. Cleaning a rendered command -/

/-- Every operator is one of the two, with the name that belongs to it. -/
theorem mem_operators_iff (r : Redirected) (c : Char) (name : CString) :
    (c, name) ∈ r.operators ↔
      c = '<' ∧ r.input = some name ∨ c = '>' ∧ r.output = some name := by
  unfold operators
  cases r.input with
  | none => cases r.output <;> simp [eq_comm]
  | some i =>
    cases r.output with
    | none => simp [eq_comm]
    | some o => cases r.outFirst <;> simp [eq_comm, or_comm]

theorem isWord_operators (r : Redirected) : ∀ op ∈ r.operators, IsWord op.2 := by
  rintro ⟨c, name⟩ hop
  rcases (r.mem_operators_iff c name).mp hop with ⟨_, hi⟩ | ⟨_, ho⟩
  · exact r.isInput name hi
  · exact r.isOutput name ho

theorem operators_char (r : Redirected) : ∀ op ∈ r.operators, op.1 = '<' ∨ op.1 = '>' := by
  rintro ⟨c, name⟩ hop
  exact ((r.mem_operators_iff c name).mp hop).imp And.left And.left

end Redirected

theorem plain_spec {c : Char} (h : plain c = true) :
    isBlank c = false ∧ inLine c = true ∧ inScanset c = true := by
  have hnot : c ∉ [' ', '\t', '\n', '\x00', '<', '>', '&', '|'] := by simpa [plain] using h
  simp only [List.mem_cons, List.not_mem_nil, or_false, not_or] at hnot
  obtain ⟨hsp, htab, hnl, hnul, hlt, hgt, _⟩ := hnot
  simp [isBlank, inLine, inScanset, hsp, htab, hnl, hnul, hlt, hgt]

theorem IsWord.blank {word : CString} (h : IsWord word) :
    word ≠ [] ∧ ∀ c ∈ word, isBlank c = false :=
  ⟨h.ne, fun c hc => (plain_spec (h.plain c hc)).1⟩

theorem mem_join_words {ws : List CString} {P : Char → Prop} (hsp : P ' ')
    (hws : ∀ word ∈ ws, ∀ c ∈ word, P c) : ∀ c ∈ join ' ' ws, P c := by
  induction ws with
  | nil =>
    intro c hc
    cases hc
  | cons word ws ih =>
    have hword := hws word List.mem_cons_self
    have hrest := ih (fun v hv => hws v (List.mem_cons_of_mem _ hv))
    intro c hc
    rcases eq_or_ne ws [] with rfl | hne
    · rw [join_singleton] at hc
      exact hword c hc
    · rw [join_cons ' ' _ hne] at hc
      rcases List.mem_append.mp hc with hc | hc
      · exact hword c hc
      · rcases List.mem_cons.mp hc with rfl | hc
        · exact hsp
        · exact hrest c hc

/-- Every character of the rendered operators is on the line. -/
theorem mem_renderOperators {gap : Nat → Nat} : ∀ {k : Nat} {ops : List (Char × CString)},
    (∀ op ∈ ops, (op.1 = '<' ∨ op.1 = '>') ∧ IsWord op.2) →
      ∀ c ∈ renderOperators gap k ops, inLine c = true
  | _, [], _, c, hc => by cases hc
  | k, (d, name) :: ops, h, c, hc => by
    obtain ⟨hd, hname⟩ := h _ List.mem_cons_self
    have hrest := @mem_renderOperators gap (k + 2) ops
      (fun op hop => h op (List.mem_cons_of_mem _ hop))
    have hspace : ∀ n, c ∈ List.replicate n ' ' → inLine c = true := by
      intro n hn
      rw [List.eq_of_mem_replicate hn]
      rfl
    rw [renderOperators] at hc
    rcases List.mem_append.mp hc with hc | hc
    · exact hspace _ hc
    · rcases List.mem_cons.mp hc with rfl | hc
      · rcases hd with rfl | rfl <;> rfl
      · rcases List.mem_append.mp hc with hc | hc
        · exact hspace _ hc
        · rcases List.mem_append.mp hc with hc | hc
          · exact (plain_spec (hname.plain c hc)).2.1
          · exact hrest c hc

/-- Cleaning cuts every gap between operators to at most one space. -/
theorem squeeze_renderOperators {gap : Nat → Nat} : ∀ {k : Nat} {ops : List (Char × CString)},
    (∀ op ∈ ops, (op.1 = '<' ∨ op.1 = '>') ∧ IsWord op.2) →
      squeezeFrom isBlank true (renderOperators gap k ops) =
        renderOperators (fun k => min (gap k) 1) k ops
  | _, [], _ => rfl
  | k, (d, name) :: ops, h => by
    obtain ⟨hd, hname⟩ := h _ List.mem_cons_self
    have hrest := @squeeze_renderOperators gap (k + 2) ops
      (fun op hop => h op (List.mem_cons_of_mem _ hop))
    have hdb : isBlank d = false := by rcases hd with rfl | rfl <;> rfl
    have hstart : startsWord isBlank (name ++ renderOperators gap (k + 2) ops) = true := by
      obtain ⟨c, t, rfl⟩ := List.exists_cons_of_ne_nil hname.ne
      have hc := hname.blank.2 c List.mem_cons_self
      simp [startsWord, hc]
    rw [renderOperators, squeezeFrom_replicate_append rfl _ (by simp [startsWord, hdb]),
      squeezeFrom_cons_of_not hdb, squeezeFrom_replicate_append rfl _ hstart,
      squeezeFrom_word_append hname.blank.2, hrest, renderOperators]

/-- **A cleaned rendering is the rendering with every gap cut to at most one space.** -/
theorem clean_render (r : Redirected) :
    clean r.render =
      join ' ' r.words ++ renderOperators (fun k => min (r.gap k) 1) 0 r.operators := by
  have hops : ∀ op ∈ r.operators, (op.1 = '<' ∨ op.1 = '>') ∧ IsWord op.2 :=
    fun op hop => ⟨r.operators_char op hop, r.isWord_operators op hop⟩
  have hline : firstLine r.render = r.render := by
    refine List.takeWhile_eq_self_iff.mpr ?_
    intro c hc
    rcases List.mem_append.mp hc with hc | hc
    · exact mem_join_words (P := fun c => inLine c = true) rfl
        (fun word hw c hc => (plain_spec ((r.isWord word hw).plain c hc)).2.1) c hc
    · exact mem_renderOperators hops c hc
  rw [clean_eq, hline]
  unfold squeeze Redirected.render
  rw [squeezeFrom_join_append rfl r.words_ne (fun word hw => (r.isWord word hw).blank),
    squeeze_renderOperators hops]

/-! ## 3. Formats on a cleaned text -/

/-- A scan set takes a run of its characters. -/
theorem scan_item {ds : List Directive} {item rest : CString} (hne : item ≠ [])
    (hin : ∀ c ∈ item, inScanset c = true) (hstop : ∀ c ∈ rest.head?, inScanset c = false) :
    scan (.scanset :: ds) (item ++ rest) = item :: scan ds rest := by
  have htake : (item ++ rest).takeWhile inScanset = item := by
    rw [List.takeWhile_append_of_pos hin]
    cases rest with
    | nil => simp
    | cons c t => simp [hstop c rfl]
  have hdrop : (item ++ rest).dropWhile inScanset = rest := by
    rw [List.dropWhile_append_of_pos hin]
    cases rest with
    | nil => rfl
    | cons c t => simp [hstop c rfl]
  rw [scan, htake, hdrop, if_neg (by simp [hne])]

/-- The same at the end of the text. -/
theorem scan_last {item : CString} (ds : List Directive) (hne : item ≠ [])
    (hin : ∀ c ∈ item, inScanset c = true) :
    scan (.scanset :: ds) item = item :: scan ds [] := by
  have h := @scan_item ds item [] hne hin (by simp)
  rwa [List.append_nil] at h

/-- An operator that the format names is taken, with the spaces after it. -/
theorem scan_op {ds : List Directive} {a : Char} {k : Nat} {rest : CString}
    (ha : isSpace a = false) (hr : ∀ c ∈ rest.head?, isSpace c = false) :
    scan (.blank :: .lit a :: .blank :: ds) (a :: (List.replicate k ' ' ++ rest)) =
      scan ds rest := by
  have hsp : ∀ c ∈ List.replicate k ' ', isSpace c = true := by
    intro c hc
    rw [List.eq_of_mem_replicate hc]
    rfl
  rw [scan, List.dropWhile_cons_of_neg (by simp [ha]), scan, if_pos rfl, scan,
    List.dropWhile_append_of_pos hsp]
  cases rest with
  | nil => rfl
  | cons c t => rw [List.dropWhile_cons_of_neg (by simp [hr c rfl])]

/-- At any other character, and at the end of the text, the format stops. -/
theorem scan_op_ne {ds : List Directive} {a : Char} {rest : CString}
    (h : ∀ c ∈ rest.head?, isSpace c = false ∧ c ≠ a) :
    scan (.blank :: .lit a :: ds) rest = [] := by
  cases rest with
  | nil => rfl
  | cons c t =>
    obtain ⟨hc, hne⟩ := h c rfl
    rw [scan, List.dropWhile_cons_of_neg (by simp [hc]), scan, if_neg hne]

/-! ## 4. The four attempts -/

/-- A text without an operator: every format takes the command and stops. -/
theorem scan_plain {item : CString} (hne : item ≠ []) (hin : ∀ c ∈ item, inScanset c = true)
    (a b : Char) : scan (format₂ a) item = [item] ∧ scan (format₃ a b) item = [item] := by
  have hstop : ∀ ds, scan (.scanset :: .blank :: .lit a :: ds) item = [item] := by
    intro ds
    rw [scan_last _ hne hin]
    rfl
  exact ⟨hstop _, hstop _⟩

section OneOperator

variable {item name : CString} {a b c : Char} {k : Nat}

/-- One operator: a format that begins with it takes the command and the name. -/
theorem scan_one (hne : item ≠ []) (hin : ∀ x ∈ item, inScanset x = true)
    (hc : inScanset c = false ∧ isSpace c = false) (hname : name ≠ [])
    (hnin : ∀ x ∈ name, inScanset x = true) (hstart : ∀ x ∈ name.head?, isSpace x = false) :
    scan (format₂ a) (item ++ c :: (List.replicate k ' ' ++ name)) =
        (if c = a then [item, name] else [item]) ∧
      scan (format₃ a b) (item ++ c :: (List.replicate k ' ' ++ name)) =
        (if c = a then [item, name] else [item]) := by
  have hfirst : ∀ ds, scan (.scanset :: .blank :: .lit a :: ds)
      (item ++ c :: (List.replicate k ' ' ++ name)) =
        item :: scan (.blank :: .lit a :: ds) (c :: (List.replicate k ' ' ++ name)) :=
    fun ds => scan_item hne hin (by simp [hc.1])
  unfold format₃ format₂
  simp only [List.cons_append, List.nil_append]
  rw [hfirst, hfirst]
  split
  · rename_i hca
    subst hca
    rw [scan_op hc.2 hstart, scan_op hc.2 hstart]
    rw [scan_last _ hname hnin, scan_last _ hname hnin]
    exact ⟨rfl, rfl⟩
  · rename_i hca
    rw [scan_op_ne (by simp [hc.2, hca]), scan_op_ne (by simp [hc.2, hca])]
    exact ⟨rfl, rfl⟩

end OneOperator

section TwoOperators

variable {item first second : CString} {a b c d : Char} {k l : Nat}

/-- Two operators: a format that names them in this order takes everything, one that names the
first of them the command and the first name. -/
theorem scan_two (hne : item ≠ []) (hin : ∀ x ∈ item, inScanset x = true)
    (hc : inScanset c = false ∧ isSpace c = false) (hd : inScanset d = false ∧ isSpace d = false)
    (hfne : first ≠ []) (hfin : ∀ x ∈ first, inScanset x = true)
    (hfstart : ∀ x ∈ first.head?, isSpace x = false)
    (hsne : second ≠ []) (hsin : ∀ x ∈ second, inScanset x = true)
    (hsstart : ∀ x ∈ second.head?, isSpace x = false) :
    scan (format₂ a) (item ++ c :: (List.replicate k ' ' ++
        (first ++ d :: (List.replicate l ' ' ++ second)))) =
        (if c = a then [item, first] else [item]) ∧
      scan (format₃ a b) (item ++ c :: (List.replicate k ' ' ++
        (first ++ d :: (List.replicate l ' ' ++ second)))) =
        (if c = a then (if d = b then [item, first, second] else [item, first]) else [item]) := by
  have hfirst : ∀ ds, scan (.scanset :: .blank :: .lit a :: ds) (item ++ c ::
      (List.replicate k ' ' ++ (first ++ d :: (List.replicate l ' ' ++ second)))) =
        item :: scan (.blank :: .lit a :: ds) (c ::
          (List.replicate k ' ' ++ (first ++ d :: (List.replicate l ' ' ++ second)))) :=
    fun ds => scan_item hne hin (by simp [hc.1])
  unfold format₃ format₂
  simp only [List.cons_append, List.nil_append]
  rw [hfirst, hfirst]
  split
  · rename_i hca
    subst hca
    have hstart : ∀ x ∈ (first ++ d :: (List.replicate l ' ' ++ second)).head?,
        isSpace x = false := by
      obtain ⟨x, t, rfl⟩ := List.exists_cons_of_ne_nil hfne
      exact hfstart
    rw [scan_op hc.2 hstart, scan_op hc.2 hstart, scan_item hfne hfin (by simp [hd.1]),
      scan_item hfne hfin (by simp [hd.1])]
    refine ⟨rfl, ?_⟩
    split
    · rename_i hdb
      subst hdb
      rw [scan_op hd.2 hsstart, scan_last _ hsne hsin]
      rfl
    · rename_i hdb
      rw [scan_op_ne (by simp [hd.2, hdb])]
  · rename_i hca
    rw [scan_op_ne (by simp [hc.2, hca]), scan_op_ne (by simp [hc.2, hca])]
    exact ⟨rfl, rfl⟩

end TwoOperators

/-- The buffers after storing items that fit. -/
def Scratch.fill : Scratch → List (Buffer × CString) → Scratch
  | b, [] => b
  | b, (k, item) :: items => Scratch.fill (fun j => if j = k then item else b j) items

/-- Every item fits in the buffer it is stored in. -/
def ItemsFit (items : List (Buffer × CString)) : Prop := ∀ e ∈ items, e.2.length < e.1.size

@[simp] theorem itemsFit_nil : ItemsFit [] := by
  intro e he
  cases he

@[simp] theorem itemsFit_cons {k : Buffer} {item : CString} {items : List (Buffer × CString)} :
    ItemsFit ((k, item) :: items) ↔ item.length < k.size ∧ ItemsFit items := by
  simp [ItemsFit]

theorem store_eq_fill : ∀ (b : Scratch) (items : List (Buffer × CString)), ItemsFit items →
    b.store items = .ok (b.fill items)
  | _, [], _ => rfl
  | b, (k, item) :: items, h => by
    rw [Scratch.store, if_pos (h (k, item) List.mem_cons_self)]
    exact store_eq_fill _ items (fun e he => h e (List.mem_cons_of_mem _ he))

theorem sscanf_fits {format : List Directive} {line : CString} {items : List CString}
    (dests : List Buffer) (h : scan format line = items) (hfit : ItemsFit (dests.zip items))
    (b : Scratch) :
    sscanf format dests line b = .ok (items.length, b.fill (dests.zip items)) := by
  rw [sscanf, h, store_eq_fill b _ hfit]
  rfl

/-- The buffers after the first, second, third and fourth attempt. -/
def attempts (b : Scratch) (A B C D : List CString) : RedirectionType × Scratch :=
  let b₁ := b.fill ([.commandNoredi, .rediOutfile, .rediInfile].zip A)
  let b₂ := b₁.fill ([.commandNoredi, .rediInfile, .rediOutfile].zip B)
  let b₃ := b₂.fill ([.commandNoredi, .rediInfile].zip C)
  let b₄ := b₃.fill ([.commandNoredi, .rediOutfile].zip D)
  if A.length = 3 then (.rediOutIn, b₁)
  else if B.length = 3 then (.rediInOut, b₂)
  else if C.length = 2 then (.rediIn, b₃)
  else if D.length = 2 then (.rediOut, b₄)
  else (.noRedi, b₄)

/-- **The four attempts, when everything they take fits.** -/
theorem scanRedirection_eq {line : CString} {A B C D : List CString}
    (hA : scan (format₃ '>' '<') line = A) (hB : scan (format₃ '<' '>') line = B)
    (hC : scan (format₂ '<') line = C) (hD : scan (format₂ '>') line = D)
    (hfA : ItemsFit ([.commandNoredi, .rediOutfile, .rediInfile].zip A))
    (hfB : ItemsFit ([.commandNoredi, .rediInfile, .rediOutfile].zip B))
    (hfC : ItemsFit ([.commandNoredi, .rediInfile].zip C))
    (hfD : ItemsFit ([.commandNoredi, .rediOutfile].zip D)) (b : Scratch) :
    scanRedirection line b = .ok (attempts b A B C D) := by
  have h₁ := sscanf_fits _ hA hfA
  have h₂ := sscanf_fits _ hB hfB
  have h₃ := sscanf_fits _ hC hfC
  have h₄ := sscanf_fits _ hD hfD
  unfold scanRedirection attempts
  rw [h₁]
  dsimp only [bind, Except.bind]
  split
  · rfl
  · rw [h₂]
    dsimp only [bind, Except.bind]
    split
    · rfl
    · rw [h₃]
      dsimp only [bind, Except.bind]
      split
      · rfl
      · rw [h₄]
        dsimp only [bind, Except.bind]
        split <;> rfl

/-! ## 5. What `handle_redirection` makes of them -/

/-- The `open` calls for a kind of redirection and the buffers. -/
def opensOf (type : RedirectionType) (c : Scratch) : List (Event w) :=
  (if type.has REDI_OUT_MASK = true then [Event.openCall (c .rediOutfile) true] else []) ++
    (if type.has REDI_IN_MASK = true then [Event.openCall (c .rediInfile) false] else [])

theorem openRedirections_spec (type : RedirectionType) (c : Scratch) (s : Shell w) :
    (openRedirections type c { redirected := type } s).1.redirected = type ∧
      (openRedirections type c { redirected := type } s).2.trace =
        s.trace ++ opensOf type c := by
  have htrace : ∀ (name : CString) (write : Bool) (t : Shell w),
      (t.openFile name write).2.trace = t.trace ++ [.openCall name write] :=
    fun name write t => (openFile_frame name write t).2.1
  unfold openRedirections opensOf
  cases type.has REDI_OUT_MASK <;> cases type.has REDI_IN_MASK <;> simp [htrace]

theorem findExec_spec {env : Environment} {cwd : w.Dir} {p q : Process}
    (h : findExec env cwd p = .ok q) :
    q.argv = p.argv ∧ q.redirected = p.redirected ∧ q.rediInfd = p.rediInfd ∧
      q.rediOutfd = p.rediOutfd := by
  unfold findExec at h
  split at h
  · split at h
    · cases h
      exact ⟨rfl, rfl, rfl, rfl⟩
    · cases h
  · split at h <;> cases h <;> exact ⟨rfl, rfl, rfl, rfl⟩

/-- What comes out of `handle_redirection`. -/
theorem handleRedirection_spec {b : Scratch} {line : CString} {p : Process}
    {env : Environment} {s t : Shell w} (h : handleRedirection b line {} env s = .ok (p, t)) :
    ∃ type c, scanRedirection line b = .ok (type, c) ∧ p.redirected = type ∧
      p.argv = strtokAll [' '] (clean (c .commandNoredi)) ∧
      t.trace = s.trace ++ opensOf type c := by
  obtain ⟨⟨type, c⟩, hscan, h⟩ := bind_eq_ok h
  obtain ⟨hred, htrace⟩ := openRedirections_spec type c s
  refine ⟨type, c, hscan, ?_⟩
  dsimp only at h
  split at h
  · cases h
  · obtain ⟨q, hq, hp⟩ := map_eq_ok h
    cases hp
    obtain ⟨hargv, hr, _⟩ := findExec_spec hq
    exact ⟨hr.trans hred, hargv, htrace⟩

/-- `handle_redirection` returns when there is a command of at most as many words as `argv`
holds. -/
theorem handleRedirection_returns {b c : Scratch} {line : CString} {type : RedirectionType}
    {env : Environment} {s : Shell w} (h : scanRedirection line b = .ok (type, c))
    (hne : strtokAll [' '] (clean (c .commandNoredi)) ≠ [])
    (hlen : (strtokAll [' '] (clean (c .commandNoredi))).length ≤ MAX_ARGUMENTS_NUM) :
    ∃ p t, handleRedirection b line {} env s = .ok (p, t) := by
  obtain ⟨name, args, hargv⟩ := List.exists_cons_of_ne_nil hne
  unfold handleRedirection
  rw [h]
  dsimp only [bind, Except.bind]
  rw [if_neg (Nat.not_lt.mpr hlen), hargv]
  unfold findExec
  dsimp only
  split
  · exact ⟨_, _, rfl⟩
  · exact ⟨_, _, rfl⟩

/-! ## 6. The words -/

/-- A word and the blank after it take at least two characters. -/
theorem two_mul_length_le_join {ws : List CString} (hws : ∀ word ∈ ws, word ≠ []) :
    2 * ws.length ≤ (join ' ' ws).length + 1 := by
  induction ws with
  | nil => simp
  | cons word ws ih =>
    have hpos : 0 < word.length := List.length_pos_iff.mpr (hws word List.mem_cons_self)
    have hrest := ih (fun v hv => hws v (List.mem_cons_of_mem _ hv))
    rcases eq_or_ne ws [] with rfl | hne
    · rw [join_singleton, List.length_singleton]
      omega
    · rw [join_cons ' ' _ hne, List.length_append, List.length_cons, List.length_cons]
      omega

/-- The command part of a text, with the spaces the scan set took along, gives the words. -/
theorem argv_command {ws : List CString} (hne : ws ≠ []) (hws : ∀ word ∈ ws, IsWord word)
    (k : Nat) : strtokAll [' '] (clean (join ' ' ws ++ List.replicate k ' ')) = ws := by
  have hline : firstLine (join ' ' ws ++ List.replicate k ' ') =
      join ' ' ws ++ List.replicate k ' ' := by
    refine List.takeWhile_eq_self_iff.mpr ?_
    intro c hc
    rcases List.mem_append.mp hc with hc | hc
    · exact mem_join_words (P := fun c => inLine c = true) rfl
        (fun word hw c hc => (plain_spec ((hws word hw).plain c hc)).2.1) c hc
    · rw [List.eq_of_mem_replicate hc]
      rfl
  have hnil : squeezeFrom isBlank true (List.replicate k ' ') = [] := by
    refine squeezeFrom_eq_nil_iff.mpr ?_
    intro c hc
    rw [List.eq_of_mem_replicate hc]
    rfl
  rw [clean_eq, hline, squeeze,
    squeezeFrom_join_append rfl hne (fun word hw => (hws word hw).blank), hnil,
    List.append_nil, strtokAll_eq]
  refine tokens_join rfl (fun word hw => ⟨(hws word hw).ne, fun c hc => ?_⟩)
  have hblank := (hws word hw).blank.2 c hc
  have hsp : c ≠ ' ' := by
    rintro rfl
    cases hblank
  simp [hsp]

/-! ## 7. The round trip -/

namespace Redirected

/-- The kind of redirection that the operators ask for. -/
def kind (r : Redirected) : RedirectionType :=
  match r.input, r.output with
  | none, none => .noRedi
  | some _, none => .rediIn
  | none, some _ => .rediOut
  | some _, some _ => if r.outFirst then .rediOutIn else .rediInOut

theorem kind_has (r : Redirected) :
    r.kind.has REDI_IN_MASK = r.input.isSome ∧ r.kind.has REDI_OUT_MASK = r.output.isSome := by
  unfold kind
  cases r.input <;> cases r.output <;> cases r.outFirst <;> simp <;> decide

theorem item_ok (r : Redirected) : r.item ≠ [] ∧ ∀ c ∈ r.item, inScanset c = true := by
  refine ⟨?_, ?_⟩
  · obtain ⟨word, ws, hw⟩ := List.exists_cons_of_ne_nil r.words_ne
    have hne := (r.isWord word (hw ▸ List.mem_cons_self)).ne
    obtain ⟨c, t, hc⟩ := List.exists_cons_of_ne_nil hne
    unfold item
    rw [hw, hc]
    rcases eq_or_ne ws [] with rfl | hws
    · simp
    · rw [join_cons ' ' _ hws]
      simp
  · intro c hc
    rcases List.mem_append.mp hc with hc | hc
    · exact mem_join_words (P := fun c => inScanset c = true) rfl
        (fun word hw c hc => (plain_spec ((r.isWord word hw).plain c hc)).2.2) c hc
    · rw [List.eq_of_mem_replicate hc]
      rfl

theorem argv_item (r : Redirected) : strtokAll [' '] (clean r.item) = r.words :=
  argv_command r.words_ne r.isWord _

/-! The text after cleaning, by the number of operators. -/

theorem clean_render_none {r : Redirected} (h : r.operators = []) : clean r.render = r.item := by
  rw [clean_render, h, item, if_pos h]
  rfl

theorem clean_render_one {r : Redirected} {c : Char} {x : CString}
    (h : r.operators = [(c, x)]) :
    clean r.render = r.item ++ c :: (List.replicate (min (r.gap 1) 1) ' ' ++ x) := by
  rw [clean_render, item, if_neg (by simp [h]), h]
  simp [renderOperators]

theorem clean_render_two {r : Redirected} {c d : Char} {x y : CString}
    (h : r.operators = [(c, x), (d, y)]) :
    clean r.render = r.item ++ c :: (List.replicate (min (r.gap 1) 1) ' ' ++
      (r.firstName x ++ d :: (List.replicate (min (r.gap 3) 1) ' ' ++ y))) := by
  rw [clean_render, item, if_neg (by simp [h]), h]
  simp [renderOperators, firstName]

theorem operator_char {c : Char} (h : c = '<' ∨ c = '>') :
    inScanset c = false ∧ isSpace c = false := by
  rcases h with rfl | rfl <;> exact ⟨rfl, rfl⟩

theorem scanset_name {name : CString} (h : IsWord name) :
    name ≠ [] ∧ ∀ c ∈ name, inScanset c = true :=
  ⟨h.ne, fun c hc => (plain_spec (h.plain c hc)).2.2⟩

theorem scanset_firstName (r : Redirected) {name : CString} (h : IsWord name) :
    r.firstName name ≠ [] ∧ ∀ c ∈ r.firstName name, inScanset c = true := by
  obtain ⟨hne, hin⟩ := scanset_name h
  refine ⟨by simp [firstName, hne], ?_⟩
  intro c hc
  rcases List.mem_append.mp hc with hc | hc
  · exact hin c hc
  · rw [List.eq_of_mem_replicate hc]
    rfl

theorem head_firstName (r : Redirected) {name : CString} (h : IsWord name) :
    (r.firstName name).head? = name.head? := by
  obtain ⟨c, t, rfl⟩ := List.exists_cons_of_ne_nil h.ne
  rfl

/-- The four attempts on a command with one operator. -/
theorem scan_one_operator {r : Redirected} {c : Char} {x : CString} (hstart : r.NamesStart)
    (h : r.operators = [(c, x)]) (a b : Char) :
    scan (format₂ a) (clean r.render) = (if c = a then [r.item, x] else [r.item]) ∧
      scan (format₃ a b) (clean r.render) = (if c = a then [r.item, x] else [r.item]) := by
  have hmem : (c, x) ∈ r.operators := by simp [h]
  obtain ⟨hne, hin⟩ := r.item_ok
  obtain ⟨hxne, hxin⟩ := scanset_name (r.isWord_operators _ hmem)
  rw [clean_render_one h]
  exact scan_one hne hin (operator_char (r.operators_char _ hmem)) hxne hxin (hstart _ hmem)

/-- The four attempts on a command with two operators. -/
theorem scan_two_operators {r : Redirected} {c d : Char} {x y : CString}
    (hstart : r.NamesStart) (h : r.operators = [(c, x), (d, y)]) (a b : Char) :
    scan (format₂ a) (clean r.render) =
        (if c = a then [r.item, r.firstName x] else [r.item]) ∧
      scan (format₃ a b) (clean r.render) =
        (if c = a then (if d = b then [r.item, r.firstName x, y] else [r.item, r.firstName x])
          else [r.item]) := by
  have hx : (c, x) ∈ r.operators := by simp [h]
  have hy : (d, y) ∈ r.operators := by simp [h]
  obtain ⟨hne, hin⟩ := r.item_ok
  obtain ⟨hxne, hxin⟩ := r.scanset_firstName (r.isWord_operators _ hx)
  obtain ⟨hyne, hyin⟩ := scanset_name (r.isWord_operators _ hy)
  have hxstart : ∀ z ∈ (r.firstName x).head?, isSpace z = false := by
    rw [r.head_firstName (r.isWord_operators _ hx)]
    exact hstart _ hx
  rw [clean_render_two h]
  exact scan_two hne hin (operator_char (r.operators_char _ hx))
    (operator_char (r.operators_char _ hy)) hxne hxin hxstart hyne hyin (hstart _ hy)

/-- The calls of `open` for the names as the scan sets take them, the output first. -/
def takenOpens (r : Redirected) : List (Event w) :=
  ((r.taken.filter (fun op => op.1 == '>')).map (fun op => Event.openCall op.2 true)) ++
    ((r.taken.filter (fun op => op.1 == '<')).map (fun op => Event.openCall op.2 false))

/-- The sizes that the items of a command have to fit in. -/
theorem fits_sizes {r : Redirected} (hfit : r.Fits) :
    r.item.length < Buffer.size .commandNoredi ∧
      ∀ op ∈ r.taken, op.2.length < Buffer.size .rediInfile ∧
        op.2.length < Buffer.size .rediOutfile :=
  ⟨hfit.command, fun op hop => ⟨hfit.names op hop, hfit.names op hop⟩⟩

/-- **What the four attempts make of a rendered command**, by its operators. -/
theorem scanRedirection_render {r : Redirected} (hfit : r.Fits) (hstart : r.NamesStart)
    (b : Scratch) : ∃ c, scanRedirection (clean r.render) b = .ok (r.kind, c) ∧
      c .commandNoredi = r.item ∧ opensOf (w := w) r.kind c = r.takenOpens := by
  obtain ⟨hcmd, hnames⟩ := fits_sizes hfit
  unfold takenOpens
  unfold taken at hnames ⊢
  cases hi : r.input with
  | none =>
    cases ho : r.output with
    | none =>
      have hops : r.operators = [] := by simp [operators, hi, ho]
      have hkind : r.kind = .noRedi := by simp [kind, hi, ho]
      obtain ⟨hne, hin⟩ := r.item_ok
      rw [hops, hkind, clean_render_none hops]
      obtain ⟨hC, hB⟩ := scan_plain hne hin '<' '>'
      obtain ⟨hD, hA⟩ := scan_plain hne hin '>' '<'
      rw [scanRedirection_eq hA hB hC hD (by simp [hcmd]) (by simp [hcmd]) (by simp [hcmd])
        (by simp [hcmd])]
      exact ⟨_, rfl, rfl, rfl⟩
    | some o =>
      have hops : r.operators = [('>', o)] := by simp [operators, hi, ho]
      have hkind : r.kind = .rediOut := by simp [kind, hi, ho]
      obtain ⟨hC, hB⟩ := scan_one_operator hstart hops '<' '>'
      obtain ⟨hD, hA⟩ := scan_one_operator hstart hops '>' '<'
      rw [hops] at hnames ⊢
      obtain ⟨_, hout⟩ := hnames ('>', o) (by simp)
      rw [hkind, scanRedirection_eq hA hB hC hD (by simp [hcmd, hout]) (by simp [hcmd])
        (by simp [hcmd]) (by simp [hcmd, hout])]
      exact ⟨_, rfl, rfl, rfl⟩
  | some i =>
    cases ho : r.output with
    | none =>
      have hops : r.operators = [('<', i)] := by simp [operators, hi, ho]
      have hkind : r.kind = .rediIn := by simp [kind, hi, ho]
      obtain ⟨hC, hB⟩ := scan_one_operator hstart hops '<' '>'
      obtain ⟨hD, hA⟩ := scan_one_operator hstart hops '>' '<'
      rw [hops] at hnames ⊢
      obtain ⟨hinf, _⟩ := hnames ('<', i) (by simp)
      rw [hkind, scanRedirection_eq hA hB hC hD (by simp [hcmd]) (by simp [hcmd, hinf])
        (by simp [hcmd, hinf]) (by simp [hcmd])]
      exact ⟨_, rfl, rfl, rfl⟩
    | some o =>
      cases hf : r.outFirst with
      | true =>
        have hops : r.operators = [('>', o), ('<', i)] := by simp [operators, hi, ho, hf]
        have hkind : r.kind = .rediOutIn := by simp [kind, hi, ho, hf]
        obtain ⟨hC, hB⟩ := scan_two_operators hstart hops '<' '>'
        obtain ⟨hD, hA⟩ := scan_two_operators hstart hops '>' '<'
        rw [hops] at hnames ⊢
        obtain ⟨_, hout⟩ := hnames ('>', r.firstName o) (by simp)
        obtain ⟨hinf, _⟩ := hnames ('<', i) (by simp)
        rw [hkind, scanRedirection_eq hA hB hC hD (by simp [hcmd, hout, hinf]) (by simp [hcmd])
          (by simp [hcmd]) (by simp [hcmd, hout])]
        exact ⟨_, rfl, rfl, rfl⟩
      | false =>
        have hops : r.operators = [('<', i), ('>', o)] := by simp [operators, hi, ho, hf]
        have hkind : r.kind = .rediInOut := by simp [kind, hi, ho, hf]
        obtain ⟨hC, hB⟩ := scan_two_operators hstart hops '<' '>'
        obtain ⟨hD, hA⟩ := scan_two_operators hstart hops '>' '<'
        rw [hops] at hnames ⊢
        obtain ⟨hinf, _⟩ := hnames ('<', r.firstName i) (by simp)
        obtain ⟨_, hout⟩ := hnames ('>', o) (by simp)
        rw [hkind, scanRedirection_eq hA hB hC hD (by simp [hcmd]) (by simp [hcmd, hout, hinf])
          (by simp [hcmd, hinf]) (by simp [hcmd])]
        exact ⟨_, rfl, rfl, rfl⟩

/-- The names as taken are the names exactly when no space stands before a second operator. -/
theorem takenOpens_eq_iff (r : Redirected) :
    (r.takenOpens : List (Event w)) = r.opens ↔ r.TightSecond := by
  have hfirst : ∀ name : CString, r.firstName name = name ↔ r.gap 2 = 0 := by
    intro name
    simp only [firstName, List.append_right_eq_self, List.replicate_eq_nil_iff]
    omega
  unfold takenOpens taken opens TightSecond
  cases hi : r.input with
  | none => cases ho : r.output <;> simp [operators, hi, ho]
  | some i =>
    cases ho : r.output with
    | none => simp [operators, hi, ho]
    | some o => cases hf : r.outFirst <;> simp [operators, hi, ho, hf, hfirst]

end Redirected

/-! ## 8. Names that begin with white space -/

section Names

variable {ds : List Directive} {a b : Char} {line item : CString} {items : List CString}

theorem scan_scanset_inv (h : scan (.scanset :: ds) line = item :: items) :
    ∃ rest, scan ds rest = items := by
  rw [scan] at h
  split at h
  · cases h
  · cases h
    exact ⟨_, rfl⟩

theorem scan_lit_inv (h : scan (.blank :: .lit a :: ds) line = item :: items) :
    ∃ rest, scan ds rest = item :: items := by
  rw [scan] at h
  cases hl : line.dropWhile isSpace with
  | nil =>
    rw [hl] at h
    cases h
  | cons c t =>
    rw [hl, scan] at h
    split at h
    · exact ⟨t, h⟩
    · cases h

/-- What a scan set takes after a blank does not begin with white space. -/
theorem scan_name_inv (h : scan (.blank :: .scanset :: ds) line = item :: items) :
    (∀ c ∈ item.head?, isSpace c = false) ∧ ∃ rest, scan ds rest = items := by
  rw [scan] at h
  refine ⟨?_, scan_scanset_inv h⟩
  rw [scan] at h
  split at h
  · cases h
  · cases h
    intro c hc
    cases hl : line.dropWhile isSpace with
    | nil =>
      rw [hl] at hc
      cases hc
    | cons x t =>
      have hx : isSpace x = false := by
        have hhead := List.head?_dropWhile_not isSpace line
        rw [hl] at hhead
        simpa using hhead
      rw [hl, List.takeWhile_cons] at hc
      split at hc
      · cases hc
        exact hx
      · cases hc

theorem scan_format₂_inv {i j : CString} (h : scan (format₂ a) line = [i, j]) :
    ∀ c ∈ j.head?, isSpace c = false := by
  obtain ⟨r₁, h₁⟩ := scan_scanset_inv h
  obtain ⟨r₂, h₂⟩ := scan_lit_inv h₁
  exact (scan_name_inv h₂).1

theorem scan_format₃_inv {i j k : CString} (h : scan (format₃ a b) line = [i, j, k]) :
    (∀ c ∈ j.head?, isSpace c = false) ∧ ∀ c ∈ k.head?, isSpace c = false := by
  obtain ⟨r₁, h₁⟩ := scan_scanset_inv h
  obtain ⟨r₂, h₂⟩ := scan_lit_inv h₁
  obtain ⟨hj, r₃, h₃⟩ := scan_name_inv h₂
  obtain ⟨r₄, h₄⟩ := scan_lit_inv h₃
  exact ⟨hj, (scan_name_inv h₄).1⟩

end Names

theorem store_inv : ∀ {b c : Scratch} {items : List (Buffer × CString)},
    b.store items = .ok c → c = b.fill items
  | _, _, [], h => (Except.ok.inj h).symm
  | _, _, (k, item) :: items, h => by
    rw [Scratch.store] at h
    split at h
    · rw [Scratch.fill]
      exact store_inv h
    · cases h

theorem sscanf_inv {format : List Directive} {dests : List Buffer} {line : CString}
    {b c : Scratch} {n : Nat} (h : sscanf format dests line b = .ok (n, c)) :
    n = (scan format line).length ∧ c = b.fill (dests.zip (scan format line)) := by
  obtain ⟨d, hd, h⟩ := map_eq_ok h
  cases h
  exact ⟨rfl, store_inv hd⟩

/-- **A name that `handle_redirection` opens never begins with white space**, whatever the text:
each is what a scan set took after a blank. -/
theorem scanRedirection_names {line : CString} {b c : Scratch} {type : RedirectionType}
    (h : scanRedirection line b = .ok (type, c)) :
    (type.has REDI_OUT_MASK = true → ∀ x ∈ (c .rediOutfile).head?, isSpace x = false) ∧
      (type.has REDI_IN_MASK = true → ∀ x ∈ (c .rediInfile).head?, isSpace x = false) := by
  obtain ⟨⟨n₁, b₁⟩, h₁, h⟩ := bind_eq_ok h
  obtain ⟨hn₁, hb₁⟩ := sscanf_inv h₁
  dsimp only at h
  split at h
  · rename_i hn
    obtain ⟨i, j, k, hl⟩ := List.length_eq_three.mp (hn₁.symm.trans hn)
    obtain ⟨hj, hk⟩ := scan_format₃_inv hl
    cases h
    rw [hb₁, hl]
    exact ⟨fun _ => hj, fun _ => hk⟩
  · obtain ⟨⟨n₂, b₂⟩, h₂, h⟩ := bind_eq_ok h
    obtain ⟨hn₂, hb₂⟩ := sscanf_inv h₂
    dsimp only at h
    split at h
    · rename_i hn
      obtain ⟨i, j, k, hl⟩ := List.length_eq_three.mp (hn₂.symm.trans hn)
      obtain ⟨hj, hk⟩ := scan_format₃_inv hl
      cases h
      rw [hb₂, hl]
      exact ⟨fun _ => hk, fun _ => hj⟩
    · obtain ⟨⟨n₃, b₃⟩, h₃, h⟩ := bind_eq_ok h
      obtain ⟨hn₃, hb₃⟩ := sscanf_inv h₃
      dsimp only at h
      split at h
      · rename_i hn
        obtain ⟨i, j, hl⟩ := List.length_eq_two.mp (hn₃.symm.trans hn)
        have hj := scan_format₂_inv hl
        cases h
        rw [hb₃, hl]
        exact ⟨fun hout => absurd hout (by decide), fun _ => hj⟩
      · obtain ⟨⟨n₄, b₄⟩, h₄, h⟩ := bind_eq_ok h
        obtain ⟨hn₄, hb₄⟩ := sscanf_inv h₄
        dsimp only at h
        split at h
        · rename_i hn
          obtain ⟨i, j, hl⟩ := List.length_eq_two.mp (hn₄.symm.trans hn)
          have hj := scan_format₂_inv hl
          cases h
          rw [hb₄, hl]
          exact ⟨fun _ => hj, fun hin => absurd hin (by decide)⟩
        · cases h
          exact ⟨fun hout => absurd hout (by decide), fun hin => absurd hin (by decide)⟩

/-! ## 9. The theorem -/

namespace Redirected

variable {r : Redirected} {b : Scratch} {env : Environment} {s : Shell w}

/-- A round trip shows that no name begins with white space. -/
theorem namesStart_of_roundTrips (h : r.RoundTrips b env s) : r.NamesStart := by
  obtain ⟨p, t, hp, _, _, hin, hout, htrace⟩ := h
  obtain ⟨type, c, hscan, hred, _, htrace'⟩ := handleRedirection_spec hp
  obtain ⟨houtName, hinName⟩ := scanRedirection_names hscan
  have hopens : (opensOf type c : List (Event w)) = r.opens :=
    List.append_cancel_left (htrace'.symm.trans htrace)
  rw [hred] at hin hout
  unfold opensOf opens at hopens
  rw [hin, hout] at hopens
  rintro ⟨d, name⟩ hop
  rcases (r.mem_operators_iff d name).mp hop with ⟨_, hi⟩ | ⟨_, ho⟩
  · have hc : c .rediInfile = name := by
      rw [hi] at hopens
      have htail := List.append_inj_right' hopens rfl
      exact (Event.openCall.inj (List.cons.inj htail).1).1
    rw [hi] at hin
    exact hc ▸ hinName hin
  · have hc : c .rediOutfile = name := by
      rw [ho] at hopens
      exact (Event.openCall.inj (List.cons.inj hopens).1).1
    rw [ho] at hout
    exact hc ▸ houtName hout

/-- **The round trip.** `handle_redirection` gives back the words, the kinds of redirection and the
file names exactly when no space stands between the first of two file names and the second operator,
and no file name begins with white space.  The spaces are the user's, who thinks that they do not
matter; this says that they do at one place only, where the name that is opened has a space at its
end. -/
theorem round_trips_iff (hfit : r.Fits) : r.RoundTrips b env s ↔ r.TightSecond ∧ r.NamesStart := by
  constructor
  · intro h
    have hstart := namesStart_of_roundTrips h
    refine ⟨?_, hstart⟩
    obtain ⟨c, hscan, _, hopens⟩ := scanRedirection_render (w := w) hfit hstart b
    obtain ⟨p, t, hp, _, _, _, _, htrace⟩ := h
    obtain ⟨type, c', hscan', _, _, htrace'⟩ := handleRedirection_spec hp
    rw [hscan] at hscan'
    cases hscan'
    rw [← takenOpens_eq_iff (w := w), ← hopens]
    exact List.append_cancel_left (htrace'.symm.trans htrace)
  · rintro ⟨htight, hstart⟩
    obtain ⟨c, hscan, hcmd, hopens⟩ := scanRedirection_render (w := w) hfit hstart b
    have hargv : strtokAll [' '] (clean (c .commandNoredi)) = r.words := by
      rw [hcmd]
      exact r.argv_item
    have hlen : r.words.length ≤ MAX_ARGUMENTS_NUM := by
      have htwo := two_mul_length_le_join (fun word hw => (r.isWord word hw).ne)
      have hfits := hfit.command
      unfold item at hfits
      rw [List.length_append] at hfits
      simp only [MAX_COMMAND_NOREDI, MAX_ARGUMENTS_NUM] at *
      omega
    obtain ⟨p, t, hp⟩ := @handleRedirection_returns _ _ _ _ _ env s hscan
      (by rw [hargv]; exact r.words_ne) (by rw [hargv]; exact hlen)
    obtain ⟨type, c', hscan', hred, hpargv, htrace⟩ := handleRedirection_spec hp
    rw [hscan] at hscan'
    cases hscan'
    have hwords := hpargv.trans hargv
    refine ⟨p, t, hp, hwords, congrArg List.length hwords, ?_, ?_, ?_⟩
    · rw [hred]
      exact r.kind_has.1
    · rw [hred]
      exact r.kind_has.2
    · rw [htrace, hopens, (takenOpens_eq_iff r).mpr htight]

end Redirected

/-- `wc -l`, its input from `out.txt`, its output to `wc.txt`, and `n` spaces before the second
operator. -/
def wcCommand (n : Nat) : Redirected where
  words := ["wc".toList, "-l".toList]
  input := some "out.txt".toList
  output := some "wc.txt".toList
  outFirst := false
  gap := fun k => if k = 2 then n else 0
  words_ne := by decide
  isWord := by decide
  isInput := by decide
  isOutput := by decide

/-- `wc -l<out.txt>wc.txt`. -/
theorem round_trips_wc :
    (wcCommand 0).RoundTrips (fun _ => []) rootSession.env rootSession.shell :=
  (Redirected.round_trips_iff ⟨by decide, by decide⟩).mpr
    ⟨fun _ => rfl, by
      intro op hop
      rcases List.mem_pair.mp hop with rfl | rfl <;> (rintro c ⟨⟩; rfl)⟩

/-- The `open` calls in a trace. -/
def openCalls (trace : List (Event w)) : List (CString × Bool) :=
  trace.filterMap (fun e => match e with
    | .openCall name write => some (name, write)
    | _ => none)

/-- **`wc -l<out.txt >wc.txt` opens `out.txt` with a space at its end.** -/
theorem wc_space_opens : ¬ (wcCommand 1).RoundTrips (fun _ => []) rootSession.env
    rootSession.shell := by
  rintro ⟨p, t, hp, _, _, _, _, htrace⟩
  have hrun : (handleRedirection (fun _ => []) (clean (wcCommand 1).render) {} rootSession.env
      rootSession.shell).map (fun pt => openCalls pt.2.trace) =
      .ok [("wc.txt".toList, true), ("out.txt ".toList, false)] := by
    decide +kernel
  rw [hp] at hrun
  have hcalls := Except.ok.inj hrun
  dsimp only at hcalls
  rw [htrace] at hcalls
  exact absurd hcalls (by decide)

end Osexp.Seush
