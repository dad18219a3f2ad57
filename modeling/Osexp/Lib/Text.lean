/-
# Blanks, words and pieces of a text

A text is a list over any alphabet, with a predicate `p` for its blanks.

* `tokens p s`: the maximal blank-free runs of `s`.
* `pieces c s`: what lies between the occurrences of the separator `c`, empty pieces included.
* `squeeze p s`: `s` without leading and trailing blanks, every inner run of blanks replaced by
  its first one.  `squeezeFrom p true` is the same for a text that continues a word: a leading
  run then counts as an inner one.

The laws are the ones a line editor needs: squeezing keeps the tokens (`tokens_squeezeFrom`), a
squeezed text whose blanks are all alike is its tokens joined by that blank
(`squeeze_eq_join`), and squeezing commutes with splitting at a separator that is no blank
(`map_squeeze_pieces`).  A map of letters that keeps the blanks commutes with all of it
(`squeeze_map`, `tokens_map`).
-/
import Mathlib.Data.List.DropRight

namespace Text

variable {α : Type*}

/-! ## 1. Definitions -/

/-- Put a letter in front of the first word of a list of words. -/
def consHead (c : α) : List (List α) → List (List α)
  | [] => [[c]]
  | w :: ws => (c :: w) :: ws

/-- The text begins inside a word. -/
def startsWord (p : α → Bool) : List α → Bool
  | [] => false
  | c :: _ => !p c

/-- The maximal blank-free runs of a text, in order. -/
def tokens (p : α → Bool) : List α → List (List α)
  | [] => []
  | c :: s =>
    if p c then tokens p s
    else if startsWord p s then consHead c (tokens p s) else [c] :: tokens p s

/-- The text cut at every occurrence of `c`. -/
def pieces [DecidableEq α] (c : α) : List α → List (List α)
  | [] => [[]]
  | x :: s => if x = c then [] :: pieces c s else consHead x (pieces c s)

/-- Drop the trailing blanks and keep of every inner run its first blank.  The flag says whether
the text continues a word; if not, its leading blanks are dropped too. -/
def squeezeFrom (p : α → Bool) : Bool → List α → List α
  | _, [] => []
  | false, c :: s => if p c then squeezeFrom p false s else c :: squeezeFrom p true s
  | true, c :: s =>
    if p c then
      (if (squeezeFrom p false s).isEmpty then [] else c :: squeezeFrom p false s)
    else c :: squeezeFrom p true s

/-- The text without leading and trailing blanks, each inner run cut to its first blank. -/
def squeeze (p : α → Bool) (s : List α) : List α := squeezeFrom p false s

/-- Words joined by one separator. -/
def join (c : α) (ws : List (List α)) : List α := [c].intercalate ws

/-! ## 2. Tokens -/

section Tokens

variable {p : α → Bool}

@[simp] theorem join_nil (c : α) : join c ([] : List (List α)) = [] := rfl

@[simp] theorem join_singleton (c : α) (w : List α) : join c [w] = w := by
  simp [join]

theorem join_cons (c : α) (w : List α) {ws : List (List α)} (h : ws ≠ []) :
    join c (w :: ws) = w ++ c :: join c ws := by
  cases ws with
  | nil => exact absurd rfl h
  | cons v vs => simp [join, List.intercalate]

theorem join_consHead (c x : α) {ws : List (List α)} (h : ws ≠ []) :
    join c (consHead x ws) = x :: join c ws := by
  cases ws with
  | nil => exact absurd rfl h
  | cons w ws =>
    cases ws with
    | nil => simp [consHead]
    | cons v vs => rw [consHead, join_cons c _ (by simp), join_cons c w (by simp)]; rfl

theorem consHead_ne_nil (c : α) (ws : List (List α)) : consHead c ws ≠ [] := by
  cases ws <;> simp [consHead]

/-- A text of blanks only has no token, and conversely. -/
theorem tokens_eq_nil_iff {s : List α} : tokens p s = [] ↔ ∀ c ∈ s, p c = true := by
  induction s with
  | nil => simp [tokens]
  | cons c s ih =>
    by_cases hc : p c = true
    · simp [tokens, hc, ih]
    · have hcf : p c = false := by simpa using hc
      have hne : tokens p (c :: s) ≠ [] := by
        rw [tokens, if_neg hc]
        split
        · exact consHead_ne_nil _ _
        · simp
      simp [hne, hcf]

theorem tokens_ne_nil_of_startsWord {s : List α} (h : startsWord p s = true) :
    tokens p s ≠ [] := by
  cases s with
  | nil => simp [startsWord] at h
  | cons c s =>
    intro hn
    have hc := tokens_eq_nil_iff.mp hn c List.mem_cons_self
    simp [startsWord, hc] at h

/-- Every token is a nonempty word without blanks. -/
theorem mem_tokens {s w : List α} (h : w ∈ tokens p s) : w ≠ [] ∧ ∀ c ∈ w, p c = false := by
  induction s generalizing w with
  | nil => simp [tokens] at h
  | cons c s ih =>
    by_cases hc : p c = true
    · simp only [tokens, hc, if_true] at h
      exact ih h
    · have hcf : p c = false := by simpa using hc
      simp only [tokens, hcf, Bool.false_eq_true, if_false] at h
      split at h
      · cases hs : tokens p s with
        | nil => simp [hs, consHead] at h; simp [h, hcf]
        | cons v vs =>
          rw [hs, consHead, List.mem_cons] at h
          rcases h with rfl | h
          · have hv := ih (w := v) (by simp [hs])
            simpa [hcf] using hv.2
          · exact ih (by simp [hs, h])
      · rcases List.mem_cons.mp h with rfl | h
        · simp [hcf]
        · exact ih h

/-- The tokens hold all letters that are no blanks. -/
theorem flatten_tokens (s : List α) : (tokens p s).flatten = s.filter (fun c => !p c) := by
  have hconsHead : ∀ (c : α) (ws : List (List α)), (consHead c ws).flatten = c :: ws.flatten := by
    intro c ws
    cases ws <;> rfl
  induction s with
  | nil => rfl
  | cons c s ih =>
    rw [tokens]
    by_cases hc : p c = true
    · rw [if_pos hc, List.filter_cons_of_neg (by simp [hc]), ih]
    · rw [if_neg hc, List.filter_cons_of_pos (by simp [hc]), ← ih]
      split
      · rw [hconsHead]
      · rfl

/-- A token is a part of the text. -/
theorem sublist_of_mem_tokens {s w : List α} (h : w ∈ tokens p s) : w.Sublist s := by
  have hflat := List.sublist_flatten_of_mem h
  rw [flatten_tokens] at hflat
  exact hflat.trans List.filter_sublist

/-- A blank separates the tokens before it from those after it. -/
theorem tokens_append_cons {c : α} (hc : p c = true) (s t : List α) :
    tokens p (s ++ c :: t) = tokens p s ++ tokens p t := by
  induction s with
  | nil => simp [tokens, hc]
  | cons x s ih =>
    have hst : startsWord p (s ++ c :: t) = startsWord p s := by
      cases s <;> simp [startsWord, hc]
    by_cases hx : p x = true
    · simp [tokens, hx, ih]
    · simp only [List.cons_append, tokens, hx, hst, ih]
      by_cases hs : startsWord p s = true
      · have hne := tokens_ne_nil_of_startsWord hs
        cases ht : tokens p s with
        | nil => exact absurd ht hne
        | cons w ws => simp [hs, consHead]
      · simp [hs]

/-- A nonempty blank-free text is its own only token. -/
theorem tokens_of_word {w : List α} (hne : w ≠ []) (hw : ∀ c ∈ w, p c = false) :
    tokens p w = [w] := by
  induction w with
  | nil => exact absurd rfl hne
  | cons c s ih =>
    have hc : p c = false := hw c List.mem_cons_self
    cases s with
    | nil => simp [tokens, hc, startsWord]
    | cons d s =>
      have hd : p d = false := hw d (by simp)
      have hs := ih (by simp) (fun x hx => hw x (List.mem_cons_of_mem _ hx))
      rw [tokens, if_neg (by simp [hc]), if_pos (by simp [startsWord, hd]), hs, consHead]

/-- Joining words by a blank and cutting again gives the words back. -/
theorem tokens_join {c : α} (hc : p c = true) {ws : List (List α)}
    (hws : ∀ w ∈ ws, w ≠ [] ∧ ∀ x ∈ w, p x = false) : tokens p (join c ws) = ws := by
  induction ws with
  | nil => rfl
  | cons w ws ih =>
    have hw := hws w List.mem_cons_self
    have ht := ih (fun v hv => hws v (List.mem_cons_of_mem _ hv))
    cases ws with
    | nil => rw [join_singleton, tokens_of_word hw.1 hw.2]
    | cons v vs =>
      rw [join_cons c w (by simp), tokens_append_cons hc, tokens_of_word hw.1 hw.2, ht]
      rfl

/-- Words with a blank after each. -/
theorem tokens_flatMap {β : Type*} {c : α} (hc : p c = true) {f : β → List α} {xs : List β}
    (hf : ∀ x ∈ xs, f x ≠ [] ∧ ∀ y ∈ f x, p y = false) :
    tokens p (xs.flatMap fun x => f x ++ [c]) = xs.map f := by
  induction xs with
  | nil => rfl
  | cons x xs ih =>
    obtain ⟨⟨hne, hword⟩, hxs⟩ := List.forall_mem_cons.mp hf
    rw [List.flatMap_cons, List.append_assoc, List.singleton_append, tokens_append_cons hc,
      tokens_of_word hne hword, ih hxs, List.map_cons, List.singleton_append]

/-- Leading blanks do not matter to the tokens. -/
theorem tokens_dropWhile (s : List α) : tokens p (s.dropWhile p) = tokens p s := by
  induction s with
  | nil => rfl
  | cons c s ih =>
    by_cases hc : p c = true
    · rw [List.dropWhile_cons_of_pos hc, ih]
      simp [tokens, hc]
    · rw [List.dropWhile_cons_of_neg hc]

/-- The first token is what stands before the first blank; the others follow that blank. -/
theorem tokens_cons_of_not {c : α} (hc : p c = false) (s : List α) :
    tokens p (c :: s) =
      (c :: s.takeWhile (fun x => !p x)) :: tokens p ((s.dropWhile fun x => !p x).drop 1) := by
  induction s generalizing c with
  | nil => simp [tokens, hc, startsWord]
  | cons d s ih =>
    by_cases hd : p d = true
    · simp [tokens, hc, hd, startsWord]
    · have hdf : p d = false := by simpa using hd
      rw [tokens, if_neg (by simp [hc]), if_pos (by simp [startsWord, hdf]), ih hdf, consHead]
      simp [hdf]

/-- The first token and what follows the blank after it. -/
def nextToken (p : α → Bool) (s : List α) : Option (List α × List α) :=
  match s.dropWhile p with
  | [] => none
  | c :: t => some (c :: t.takeWhile (fun x => !p x), (t.dropWhile (fun x => !p x)).drop 1)

theorem nextToken_eq_none_iff {s : List α} : nextToken p s = none ↔ ∀ c ∈ s, p c = true := by
  unfold nextToken
  cases h : s.dropWhile p with
  | nil => simpa using h
  | cons c t =>
    have hn : ¬ ∀ x ∈ s, p x = true := by
      rw [← List.dropWhile_eq_nil_iff, h]
      simp
    simp [hn]

/-- The first token stands in front of the tokens of the rest. -/
theorem tokens_of_nextToken {s w r : List α} (h : nextToken p s = some (w, r)) :
    tokens p s = w :: tokens p r := by
  unfold nextToken at h
  rw [← tokens_dropWhile]
  cases ht : s.dropWhile p with
  | nil => rw [ht] at h; cases h
  | cons c t =>
    have hc : p c = false := by
      have := List.head?_dropWhile_not p s
      simpa [ht] using this
    rw [ht] at h
    simp only [Option.some.injEq, Prod.mk.injEq] at h
    obtain ⟨rfl, rfl⟩ := h
    exact tokens_cons_of_not hc t

/-- Cutting off a token makes the text shorter. -/
theorem length_of_nextToken {s w r : List α} (h : nextToken p s = some (w, r)) :
    r.length < s.length := by
  unfold nextToken at h
  have hle := (List.dropWhile_suffix (l := s) p).length_le
  cases ht : s.dropWhile p with
  | nil => rw [ht] at h; cases h
  | cons c t =>
    rw [ht] at h hle
    simp only [Option.some.injEq, Prod.mk.injEq] at h
    obtain ⟨rfl, rfl⟩ := h
    have h2 := (List.dropWhile_suffix (l := t) (fun x => !p x)).length_le
    rw [List.length_drop]
    rw [List.length_cons] at hle
    omega

/-- What is left behind a token is a part of the text. -/
theorem sublist_of_nextToken {s w r : List α} (h : nextToken p s = some (w, r)) :
    r.Sublist s := by
  unfold nextToken at h
  have hle := (List.dropWhile_suffix (l := s) p).sublist
  cases ht : s.dropWhile p with
  | nil => rw [ht] at h; cases h
  | cons c t =>
    rw [ht] at h hle
    simp only [Option.some.injEq, Prod.mk.injEq] at h
    obtain ⟨-, rfl⟩ := h
    refine ((List.drop_sublist 1 _).trans ?_).trans hle
    exact (List.dropWhile_suffix _).sublist.trans (List.sublist_cons_self c t)

/-- A word in front of a blank is the first token. -/
theorem nextToken_append_cons {w : List α} {c : α} (hne : w ≠ []) (hw : ∀ x ∈ w, p x = false)
    (hc : p c = true) (r : List α) : nextToken p (w ++ c :: r) = some (w, r) := by
  cases w with
  | nil => exact absurd rfl hne
  | cons x w =>
    have hx : p x = false := hw x List.mem_cons_self
    have hall : ∀ y ∈ w, (!p y) = true := fun y hy => by
      simp [hw y (List.mem_cons_of_mem _ hy)]
    rw [nextToken, List.cons_append, List.dropWhile_cons_of_neg (by simp [hx])]
    simp only [List.takeWhile_append_of_pos hall, List.dropWhile_append_of_pos hall]
    simp [hc]

/-- A word alone is the first token, with nothing after it. -/
theorem nextToken_of_word {w : List α} (hne : w ≠ []) (hw : ∀ x ∈ w, p x = false) :
    nextToken p w = some (w, []) := by
  cases w with
  | nil => exact absurd rfl hne
  | cons x w =>
    have hx : p x = false := hw x List.mem_cons_self
    have hall : ∀ y ∈ w, (!p y) = true := fun y hy => by
      simp [hw y (List.mem_cons_of_mem _ hy)]
    rw [nextToken, List.dropWhile_cons_of_neg (by simp [hx])]
    simp [List.takeWhile_eq_self_iff.mpr hall, List.dropWhile_eq_nil_iff.mpr hall]

/-- The tokens depend only on which letters of the text are blanks. -/
theorem tokens_congr {q : α → Bool} {s : List α} (h : ∀ c ∈ s, p c = q c) :
    tokens p s = tokens q s := by
  induction s with
  | nil => rfl
  | cons c s ih =>
    have hs := ih (fun x hx => h x (List.mem_cons_of_mem _ hx))
    have hst : startsWord p s = startsWord q s := by
      cases s with
      | nil => rfl
      | cons d s => simp [startsWord, h d (by simp)]
    simp [tokens, h c List.mem_cons_self, hs, hst]

end Tokens

/-! ## 3. Squeezing -/

section Squeeze

variable {p : α → Bool}

theorem squeezeFrom_nil (b : Bool) : squeezeFrom p b [] = [] := by
  cases b <;> rfl

/-- A letter that is no blank is kept, and the rest continues its word. -/
theorem squeezeFrom_cons_of_not {c : α} (h : p c = false) (b : Bool) (s : List α) :
    squeezeFrom p b (c :: s) = c :: squeezeFrom p true s := by
  cases b <;> simp [squeezeFrom, h]

/-- Squeezing from the start of a word drops the blank that squeezing inside one would keep. -/
theorem squeezeFrom_false (s : List α) :
    squeezeFrom p false s = (squeezeFrom p true s).dropWhile p := by
  induction s with
  | nil => rfl
  | cons c s ih =>
    by_cases hc : p c = true
    · simp only [squeezeFrom, hc, if_true]
      by_cases he : (squeezeFrom p false s).isEmpty = true
      · simp [List.isEmpty_iff.mp he]
      · rw [if_neg he, List.dropWhile_cons, if_pos hc, ih]
        exact ((List.dropWhile_idempotent p) _).symm
    · have hcf : p c = false := by simpa using hc
      simp [squeezeFrom, hcf]

/-- Nothing is left exactly of a text of blanks. -/
theorem squeezeFrom_eq_nil_iff {b : Bool} {s : List α} :
    squeezeFrom p b s = [] ↔ ∀ c ∈ s, p c = true := by
  induction s generalizing b with
  | nil => simp [squeezeFrom_nil]
  | cons c s ih =>
    by_cases hc : p c = true
    · cases b with
      | false => simp [squeezeFrom, hc, ih]
      | true =>
        by_cases he : (squeezeFrom p false s).isEmpty = true
        · have hs := ih.mp (List.isEmpty_iff.mp he)
          simpa [squeezeFrom, hc, he] using hs
        · have hs : ¬ ∀ x ∈ s, p x = true := fun h => he (List.isEmpty_iff.mpr (ih.mpr h))
          simpa [squeezeFrom, hc, he] using hs
    · have hcf : p c = false := by simpa using hc
      simp [squeezeFrom_cons_of_not hcf, hcf]

theorem squeeze_eq_nil_iff {s : List α} : squeeze p s = [] ↔ ∀ c ∈ s, p c = true :=
  squeezeFrom_eq_nil_iff

/-- A squeezed text begins with a letter that is no blank. -/
theorem squeeze_cons {s t : List α} {c : α} (h : squeeze p s = c :: t) : p c = false := by
  induction s with
  | nil => simp [squeeze, squeezeFrom] at h
  | cons x s ih =>
    by_cases hx : p x = true
    · exact ih (by simpa [squeeze, squeezeFrom, hx] using h)
    · have hxf : p x = false := by simpa using hx
      simp only [squeeze, squeezeFrom_cons_of_not hxf, List.cons.injEq] at h
      rw [← h.1, hxf]

/-- Squeezing looks through a text that is already squeezed. -/
theorem squeezeFrom_idem (b : Bool) (s : List α) :
    squeezeFrom p b (squeezeFrom p b s) = squeezeFrom p b s := by
  induction s generalizing b with
  | nil => simp [squeezeFrom_nil]
  | cons c s ih =>
    by_cases hc : p c = true
    · cases b with
      | false => simpa [squeezeFrom, hc] using ih false
      | true =>
        by_cases he : (squeezeFrom p false s).isEmpty = true
        · simp [squeezeFrom, hc, he]
        · simp [squeezeFrom, hc, he, ih false]
    · have hcf : p c = false := by simpa using hc
      rw [squeezeFrom_cons_of_not hcf, squeezeFrom_cons_of_not hcf, ih true]

theorem squeeze_idem (s : List α) : squeeze p (squeeze p s) = squeeze p s :=
  squeezeFrom_idem false s

theorem startsWord_squeezeFrom_true (s : List α) :
    startsWord p (squeezeFrom p true s) = startsWord p s := by
  cases s with
  | nil => rfl
  | cons c s =>
    by_cases hc : p c = true
    · by_cases he : (squeezeFrom p false s).isEmpty = true
      · simp [squeezeFrom, hc, he, startsWord]
      · simp [squeezeFrom, hc, he, startsWord]
    · have hcf : p c = false := by simpa using hc
      simp [squeezeFrom_cons_of_not hcf, startsWord]

/-- **Squeezing keeps the tokens.** -/
theorem tokens_squeezeFrom (b : Bool) (s : List α) :
    tokens p (squeezeFrom p b s) = tokens p s := by
  induction s generalizing b with
  | nil => simp [squeezeFrom_nil]
  | cons c s ih =>
    by_cases hc : p c = true
    · cases b with
      | false => simpa [squeezeFrom, tokens, hc] using ih false
      | true =>
        by_cases he : (squeezeFrom p false s).isEmpty = true
        · have hs : tokens p s = [] := by
            rw [← ih false, List.isEmpty_iff.mp he]; rfl
          simp [squeezeFrom, tokens, hc, he, hs]
        · simpa [squeezeFrom, tokens, hc, he] using ih false
    · have hcf : p c = false := by simpa using hc
      rw [squeezeFrom_cons_of_not hcf]
      simp only [tokens, hcf, startsWord_squeezeFrom_true, ih true]

theorem tokens_squeeze (s : List α) : tokens p (squeeze p s) = tokens p s :=
  tokens_squeezeFrom false s

/-- Squeezing only takes letters away. -/
theorem squeezeFrom_sublist (b : Bool) (s : List α) : (squeezeFrom p b s).Sublist s := by
  induction s generalizing b with
  | nil => rw [squeezeFrom_nil]
  | cons c s ih =>
    by_cases hc : p c = true
    · cases b with
      | false =>
        rw [squeezeFrom, if_pos hc]
        exact (ih false).cons c
      | true =>
        rw [squeezeFrom, if_pos hc]
        split
        · exact List.nil_sublist _
        · exact (ih false).cons_cons c
    · rw [squeezeFrom_cons_of_not (by simpa using hc)]
      exact (ih true).cons_cons c

theorem squeeze_sublist (s : List α) : (squeeze p s).Sublist s :=
  squeezeFrom_sublist false s

theorem mem_of_mem_squeeze {s : List α} {x : α} (h : x ∈ squeeze p s) : x ∈ s :=
  (squeeze_sublist s).subset h

/-- Of two neighbours in a squeezed text at most one is a blank. -/
theorem squeezeFrom_neighbour {b : Bool} {s u v : List α} {c d : α}
    (h : squeezeFrom p b s = u ++ c :: d :: v) (hc : p c = true) : p d = false := by
  induction s generalizing b u with
  | nil =>
    rw [squeezeFrom_nil] at h
    exact absurd h (by simp)
  | cons x s ih =>
    -- what follows the first letter of the text, if that letter stays
    have hword : ∀ b', x :: squeezeFrom p b' s = u ++ c :: d :: v →
        (p x = true → b' = false) → p d = false := by
      intro b' h hx
      cases u with
      | nil =>
        obtain ⟨rfl, hrest⟩ := List.cons.inj h
        rw [hx hc] at hrest
        exact squeeze_cons hrest
      | cons y u => exact ih (List.cons.inj h).2
    by_cases hx : p x = true
    · cases b with
      | false =>
        rw [squeezeFrom, if_pos hx] at h
        exact ih h
      | true =>
        rw [squeezeFrom, if_pos hx] at h
        split at h
        · exact absurd h (by simp)
        · exact hword false h (fun _ => rfl)
    · rw [squeezeFrom_cons_of_not (by simpa using hx)] at h
      exact hword true h (fun hx' => absurd hx' hx)

theorem squeeze_neighbour {s u v : List α} {c d : α} (h : squeeze p s = u ++ c :: d :: v)
    (hc : p c = true) : p d = false :=
  squeezeFrom_neighbour h hc

/-- A squeezed text is not longer than the text. -/
theorem length_squeeze_le (s : List α) : (squeeze p s).length ≤ s.length :=
  (squeeze_sublist s).length_le

/-- The two texts `squeezeFrom` can leave, when every blank it keeps is `sp`. -/
theorem squeezeFrom_eq_join {sp : α} (b : Bool) (s : List α)
    (h : ∀ c ∈ squeezeFrom p b s, p c = true → c = sp) :
    squeezeFrom p b s =
      if b = true ∧ startsWord p s = false ∧ tokens p s ≠ [] then sp :: join sp (tokens p s)
      else join sp (tokens p s) := by
  induction s generalizing b with
  | nil => simp [squeezeFrom_nil, tokens]
  | cons c s ih =>
    by_cases hc : p c = true
    · have hst : startsWord p (c :: s) = false := by simp [startsWord, hc]
      cases b with
      | false =>
        have h' := ih false (by simpa [squeezeFrom, hc] using h)
        simpa [squeezeFrom, tokens, hc] using h'
      | true =>
        by_cases he : (squeezeFrom p false s).isEmpty = true
        · have hs : tokens p s = [] := by
            rw [← tokens_squeezeFrom false s, List.isEmpty_iff.mp he]; rfl
          simp [squeezeFrom, tokens, hc, he, hs]
        · have hne : tokens p s ≠ [] := by
            intro ht
            exact he (List.isEmpty_iff.mpr
              (squeezeFrom_eq_nil_iff.mpr (tokens_eq_nil_iff.mp ht)))
          have heq : squeezeFrom p true (c :: s) = c :: squeezeFrom p false s := by
            simp [squeezeFrom, hc, he]
          rw [heq] at h ⊢
          have hcsp : c = sp := h c List.mem_cons_self hc
          have h' := ih false (fun x hx => h x (List.mem_cons_of_mem _ hx))
          have htok : tokens p (c :: s) = tokens p s := by simp [tokens, hc]
          rw [htok, if_pos ⟨rfl, hst, hne⟩, h', hcsp]
          simp
    · have hcf : p c = false := by simpa using hc
      rw [squeezeFrom_cons_of_not hcf] at h ⊢
      have h' := ih true (fun x hx => h x (List.mem_cons_of_mem _ hx))
      have hst : startsWord p (c :: s) = true := by simp [startsWord, hcf]
      rw [if_neg (by simp [hst]), h']
      by_cases hs : startsWord p s = true
      · have hne := tokens_ne_nil_of_startsWord hs
        have htok : tokens p (c :: s) = consHead c (tokens p s) := by
          simp [tokens, hcf, hs]
        rw [if_neg (by simp [hs]), htok, join_consHead sp c hne]
      · have hsf : startsWord p s = false := by simpa using hs
        have htok : tokens p (c :: s) = [c] :: tokens p s := by simp [tokens, hcf, hsf]
        rw [htok]
        by_cases hne : tokens p s = []
        · simp [hne]
        · rw [if_pos ⟨rfl, hsf, hne⟩, join_cons sp _ hne]
          rfl

/-- **A squeezed text whose blanks are all `sp` is its tokens joined by `sp`.** -/
theorem squeeze_eq_join {sp : α} {s : List α}
    (h : ∀ c ∈ squeeze p s, p c = true → c = sp) : squeeze p s = join sp (tokens p s) := by
  have h' := squeezeFrom_eq_join false s h
  rwa [if_neg (by simp)] at h'

/-- Inside a text, a blank-free word is kept whole. -/
theorem squeezeFrom_word_append {w : List α} (hw : ∀ c ∈ w, p c = false) (s : List α) :
    squeezeFrom p true (w ++ s) = w ++ squeezeFrom p true s := by
  induction w with
  | nil => rfl
  | cons c w ih =>
    have hrest := ih (fun x hx => hw x (List.mem_cons_of_mem _ hx))
    rw [List.cons_append, squeezeFrom_cons_of_not (hw c List.mem_cons_self), hrest]
    rfl

/-- A run of blanks before a word is dropped at the start of a text. -/
theorem squeezeFrom_false_replicate {sp : α} (hsp : p sp = true) (k : Nat) (s : List α) :
    squeezeFrom p false (List.replicate k sp ++ s) = squeezeFrom p false s := by
  induction k with
  | zero => rfl
  | succ k ih =>
    rw [List.replicate_succ, List.cons_append, squeezeFrom, if_pos hsp, ih]

/-- A run of blanks between two words is cut to one. -/
theorem squeezeFrom_replicate_append {sp : α} (hsp : p sp = true) (k : Nat) {s : List α}
    (hs : startsWord p s = true) :
    squeezeFrom p true (List.replicate k sp ++ s) =
      List.replicate (min k 1) sp ++ squeezeFrom p true s := by
  cases s with
  | nil => cases hs
  | cons c s =>
    have hc : p c = false := by simpa [startsWord] using hs
    cases k with
    | zero => rfl
    | succ k =>
      have hrun := squeezeFrom_false_replicate hsp k (c :: s)
      rw [squeezeFrom_cons_of_not hc] at hrun
      rw [List.replicate_succ, List.cons_append, squeezeFrom, if_pos hsp, hrun,
        squeezeFrom_cons_of_not hc, show min (k + 1) 1 = 1 by omega]
      rfl

/-- Words joined by one blank are kept whole. -/
theorem squeezeFrom_join_append {sp : α} (hsp : p sp = true) {ws : List (List α)}
    (hne : ws ≠ []) (hws : ∀ w ∈ ws, w ≠ [] ∧ ∀ c ∈ w, p c = false) (b : Bool) (s : List α) :
    squeezeFrom p b (join sp ws ++ s) = join sp ws ++ squeezeFrom p true s := by
  induction ws generalizing b with
  | nil => exact absurd rfl hne
  | cons w ws ih =>
    obtain ⟨hw, hblank⟩ := hws w List.mem_cons_self
    obtain ⟨c, u, rfl⟩ := List.exists_cons_of_ne_nil hw
    have hu : ∀ x ∈ u, p x = false := fun x hx => hblank x (List.mem_cons_of_mem _ hx)
    have hc : p c = false := hblank c List.mem_cons_self
    rcases eq_or_ne ws [] with rfl | hrest
    · rw [join_singleton, List.cons_append, squeezeFrom_cons_of_not hc,
        squeezeFrom_word_append hu]
      rfl
    · have hstart : startsWord p (join sp ws ++ s) = true := by
        obtain ⟨v, vs, rfl⟩ := List.exists_cons_of_ne_nil hrest
        obtain ⟨hv, hvb⟩ := hws v (List.mem_cons_of_mem _ List.mem_cons_self)
        obtain ⟨d, t, rfl⟩ := List.exists_cons_of_ne_nil hv
        have hd : p d = false := hvb d List.mem_cons_self
        rcases eq_or_ne vs [] with rfl | hvs
        · simp [startsWord, hd]
        · rw [join_cons sp _ hvs]
          simp [startsWord, hd]
      have hone := squeezeFrom_replicate_append hsp 1 hstart
      have hjoin := ih hrest (fun v hv => hws v (List.mem_cons_of_mem _ hv)) true
      rw [join_cons sp _ hrest]
      simp only [List.cons_append, List.append_assoc]
      rw [squeezeFrom_cons_of_not hc, squeezeFrom_word_append hu]
      simp only [List.replicate_one, List.cons_append, List.nil_append, Nat.min_self] at hone
      rw [hone, hjoin]

/-- Trailing blanks do not matter. -/
theorem squeezeFrom_append_blanks {v : List α} (hv : ∀ c ∈ v, p c = true) (b : Bool)
    (u : List α) : squeezeFrom p b (u ++ v) = squeezeFrom p b u := by
  induction u generalizing b with
  | nil => rw [squeezeFrom_nil, List.nil_append, squeezeFrom_eq_nil_iff.mpr hv]
  | cons c u ih =>
    cases b <;> simp only [List.cons_append, squeezeFrom, ih]

end Squeeze

/-! ## 4. Pieces -/

section Pieces

variable {p : α → Bool}

/-- The first piece squeezed as the rest of a word when `b`, the others from their start. -/
def squeezePieces (p : α → Bool) (b : Bool) : List (List α) → List (List α)
  | [] => []
  | w :: ws => squeezeFrom p b w :: ws.map (squeeze p)

theorem squeezePieces_false (ws : List (List α)) :
    squeezePieces p false ws = ws.map (squeeze p) := by
  cases ws <;> rfl

/-- Pieces that agree when the first continues a word agree when it starts one. -/
theorem map_squeeze_of_squeezePieces {ws vs : List (List α)}
    (h : squeezePieces p true ws = squeezePieces p true vs) :
    ws.map (squeeze p) = vs.map (squeeze p) := by
  cases ws with
  | nil => cases vs with
    | nil => rfl
    | cons v vs => simp [squeezePieces] at h
  | cons w ws => cases vs with
    | nil => simp [squeezePieces] at h
    | cons v vs =>
      simp only [squeezePieces, List.cons.injEq] at h
      simp only [List.map_cons, h.2, List.cons.injEq, and_true]
      rw [squeeze, squeeze, squeezeFrom_false, squeezeFrom_false, h.1]

variable [DecidableEq α]

theorem pieces_ne_nil (c : α) (s : List α) : pieces c s ≠ [] := by
  cases s with
  | nil => simp [pieces]
  | cons x s =>
    simp only [pieces]
    split
    · simp
    · exact consHead_ne_nil _ _

/-- The separator cuts off what stands before it. -/
theorem pieces_append_cons {c : α} {w : List α} (hw : c ∉ w) (s : List α) :
    pieces c (w ++ c :: s) = w :: pieces c s := by
  induction w with
  | nil => simp [pieces]
  | cons x w ih =>
    have hx : x ≠ c := fun h => hw (by simp [h])
    rw [List.cons_append, pieces, if_neg hx, ih (fun h => hw (List.mem_cons_of_mem _ h))]
    rfl

/-- Without the separator there is one piece. -/
theorem pieces_of_notMem {c : α} {w : List α} (hw : c ∉ w) : pieces c w = [w] := by
  induction w with
  | nil => rfl
  | cons x w ih =>
    have hx : x ≠ c := fun h => hw (by simp [h])
    rw [pieces, if_neg hx, ih (fun h => hw (List.mem_cons_of_mem _ h))]
    rfl

/-- The first piece, and what is left after the separator that ends it. -/
theorem pieces_cases (c : α) (s : List α) :
    c ∉ s ∧ pieces c s = [s] ∨
      ∃ w t, c ∉ w ∧ s = w ++ c :: t ∧ pieces c s = w :: pieces c t := by
  induction s with
  | nil => exact Or.inl ⟨by simp, rfl⟩
  | cons x s ih =>
    rcases eq_or_ne x c with rfl | hx
    · exact Or.inr ⟨[], s, by simp, rfl, by simp [pieces]⟩
    · rcases ih with ⟨hc, hs⟩ | ⟨w, t, hc, rfl, hs⟩
      · refine Or.inl ⟨?_, by rw [pieces, if_neg hx, hs]; rfl⟩
        intro hm
        rcases List.mem_cons.mp hm with h | h
        · exact hx h.symm
        · exact hc h
      · refine Or.inr ⟨x :: w, t, ?_, rfl, by rw [pieces, if_neg hx, hs]; rfl⟩
        intro hm
        rcases List.mem_cons.mp hm with h | h
        · exact hx h.symm
        · exact hc h

/-- A piece is a part of the text. -/
theorem sublist_of_mem_pieces {c : α} {s w : List α} (hw : w ∈ pieces c s) : w.Sublist s := by
  induction hlen : s.length using Nat.strong_induction_on generalizing s with
  | _ n ih =>
    rcases pieces_cases c s with ⟨_, hs⟩ | ⟨v, t, _, rfl, hs⟩
    · rw [hs] at hw
      rw [List.mem_singleton.mp hw]
    · rw [hs] at hw
      rcases List.mem_cons.mp hw with rfl | hw
      · exact List.sublist_append_left _ _
      · have hlt : t.length < n := by
          rw [← hlen, List.length_append, List.length_cons]
          omega
        have hrest := (ih _ hlt hw rfl).cons c
        exact hrest.trans (List.sublist_append_right _ _)

/-- The letters of a piece are letters of the text. -/
theorem mem_of_mem_pieces {c : α} {s w : List α} {x : α} (hw : w ∈ pieces c s) (hx : x ∈ w) :
    x ∈ s :=
  (sublist_of_mem_pieces hw).subset hx

/-- Letters that are no separators can be left out before cutting or after it. -/
theorem pieces_filter {c : α} {q : α → Bool} (hq : q c = true) (s : List α) :
    pieces c (s.filter q) = (pieces c s).map (List.filter q) := by
  induction s with
  | nil => rfl
  | cons x s ih =>
    by_cases hx : q x = true
    · rw [List.filter_cons_of_pos hx, pieces, pieces, ih]
      split
      · rfl
      · obtain ⟨w, ws, hw⟩ := List.exists_cons_of_ne_nil (pieces_ne_nil c s)
        rw [hw, consHead, List.map_cons, consHead, List.map_cons, List.filter_cons_of_pos hx]
    · have hxc : x ≠ c := by
        rintro rfl
        exact hx hq
      obtain ⟨w, ws, hw⟩ := List.exists_cons_of_ne_nil (pieces_ne_nil c s)
      rw [List.filter_cons_of_neg hx, ih, pieces, if_neg hxc, hw, consHead, List.map_cons,
        List.map_cons, List.filter_cons_of_neg hx]

/-- Cutting undoes joining. -/
theorem pieces_join {c : α} {ws : List (List α)} (hne : ws ≠ []) (hws : ∀ w ∈ ws, c ∉ w) :
    pieces c (join c ws) = ws := by
  induction ws with
  | nil => exact absurd rfl hne
  | cons w ws ih =>
    have hw := hws w List.mem_cons_self
    cases ws with
    | nil => rw [join_singleton, pieces_of_notMem hw]
    | cons v vs =>
      rw [join_cons c w (by simp), pieces_append_cons hw,
        ih (by simp) (fun u hu => hws u (List.mem_cons_of_mem _ hu))]

/-- The tokens between single letters are the pieces that are not empty. -/
theorem tokens_eq_filter_pieces {c : α} (hp : ∀ x, p x = decide (x = c)) (s : List α) :
    tokens p s = (pieces c s).filter (fun w => !w.isEmpty) := by
  have hword : ∀ w : List α, c ∉ w → tokens p w = [w].filter (fun w => !w.isEmpty) := by
    intro w hw
    rcases eq_or_ne w [] with rfl | hne
    · rfl
    · have hblank : ∀ x ∈ w, p x = false := by
        intro x hx
        rw [hp, decide_eq_false_iff_not]
        rintro rfl
        exact hw hx
      rw [tokens_of_word hne hblank]
      simp [hne]
  induction hlen : s.length using Nat.strong_induction_on generalizing s with
  | _ n ih =>
    rcases pieces_cases c s with ⟨hc, hs⟩ | ⟨w, t, hw, rfl, hs⟩
    · rw [hs, hword s hc]
    · have hlt : t.length < n := by
        rw [← hlen, List.length_append, List.length_cons]
        omega
      rw [hs, tokens_append_cons (by rw [hp, decide_eq_true rfl]), hword w hw, ih _ hlt t rfl,
        ← List.filter_append, List.singleton_append]

/-- Where empty texts are dropped afterwards, it does not matter whether a text is cut into tokens
or into pieces. -/
theorem filter_map_tokens {β : Type*} {c : α} (hp : ∀ x, p x = decide (x = c))
    {f : List α → List β} (hf : f [] = []) (s : List α) :
    ((tokens p s).map f).filter (fun w => !w.isEmpty) =
      ((pieces c s).map f).filter (fun w => !w.isEmpty) := by
  rw [tokens_eq_filter_pieces hp]
  induction pieces c s with
  | nil => rfl
  | cons w ws ih =>
    cases w with
    | nil =>
      rw [List.filter_cons_of_neg (by simp), ih, List.map_cons, hf,
        List.filter_cons_of_neg (by simp)]
    | cons x w =>
      rw [List.filter_cons_of_pos (by simp), List.map_cons, List.map_cons, List.filter_cons,
        List.filter_cons, ih]

/-- Squeezing does not move a letter across a separator that is no blank. -/
theorem squeezePieces_squeezeFrom {c : α} (hc : p c = false) (b : Bool) (s : List α) :
    squeezePieces p b (pieces c (squeezeFrom p b s)) = squeezePieces p b (pieces c s) := by
  induction s generalizing b with
  | nil => simp [squeezeFrom_nil]
  | cons x s ih =>
    obtain ⟨w, ws, hw⟩ := List.exists_cons_of_ne_nil (pieces_ne_nil c s)
    by_cases hx : p x = true
    · have hxc : x ≠ c := by rintro rfl; simp [hc] at hx
      have hpx : pieces c (x :: s) = (x :: w) :: ws := by rw [pieces, if_neg hxc, hw]; rfl
      have ihf := ih false
      rw [hw] at ihf
      cases b with
      | false =>
        have hsq : squeezeFrom p false (x :: s) = squeezeFrom p false s := by
          simp [squeezeFrom, hx]
        rw [hsq, ihf, hpx]
        simp [squeezePieces, squeezeFrom, hx]
      | true =>
        by_cases he : (squeezeFrom p false s).isEmpty = true
        · have hall := squeezeFrom_eq_nil_iff.mp (List.isEmpty_iff.mp he)
          have hsc : c ∉ x :: s := by
            intro hm
            rcases List.mem_cons.mp hm with h | h
            · exact hxc h.symm
            · simp [hall c h] at hc
          have hnil : squeezeFrom p true (x :: s) = [] := by simp [squeezeFrom, hx, he]
          rw [hnil, pieces_of_notMem hsc]
          simp only [pieces, squeezePieces, hnil, squeezeFrom_nil, List.map_nil]
        · obtain ⟨v, vs, hv⟩ :=
            List.exists_cons_of_ne_nil (pieces_ne_nil c (squeezeFrom p false s))
          have hsq : squeezeFrom p true (x :: s) = x :: squeezeFrom p false s := by
            simp [squeezeFrom, hx, he]
          rw [hv] at ihf
          simp only [squeezePieces, List.cons.injEq] at ihf
          rw [hsq, hpx, pieces, if_neg hxc, hv, consHead]
          simp [squeezePieces, squeezeFrom, hx, ihf.1, ihf.2]
    · have hxf : p x = false := by simpa using hx
      obtain ⟨v, vs, hv⟩ :=
        List.exists_cons_of_ne_nil (pieces_ne_nil c (squeezeFrom p true s))
      have iht := ih true
      rw [squeezeFrom_cons_of_not hxf]
      by_cases hxc : x = c
      · have hmap := map_squeeze_of_squeezePieces iht
        simp [pieces, hxc, squeezePieces, hmap]
      · rw [hw, hv] at iht
        simp only [squeezePieces, List.cons.injEq] at iht
        rw [pieces, if_neg hxc, pieces, if_neg hxc, hv, hw]
        simp [consHead, squeezePieces, squeezeFrom_cons_of_not hxf, iht.1, iht.2]

/-- **Squeezing commutes with splitting.**  Cutting the squeezed text and squeezing the pieces
gives the squeezed pieces of the text itself. -/
theorem map_squeeze_pieces {c : α} (hc : p c = false) (s : List α) :
    (pieces c (squeeze p s)).map (squeeze p) = (pieces c s).map (squeeze p) := by
  have h := squeezePieces_squeezeFrom hc false s
  rwa [squeezePieces_false, squeezePieces_false] at h

end Pieces

/-! ## 5. Another alphabet -/

section Maps

variable {β : Type*} {p : α → Bool} {q : β → Bool} {f : α → β}

theorem squeezeFrom_map (hq : ∀ c, q (f c) = p c) (b : Bool) (s : List α) :
    squeezeFrom q b (s.map f) = (squeezeFrom p b s).map f := by
  induction s generalizing b with
  | nil => simp [squeezeFrom_nil]
  | cons c s ih =>
    rw [List.map_cons]
    cases b with
    | false =>
      rw [squeezeFrom, squeezeFrom, hq]
      split
      · exact ih false
      · rw [ih true, List.map_cons]
    | true =>
      rw [squeezeFrom, squeezeFrom, hq, ih false, ih true, List.isEmpty_map]
      split_ifs <;> simp

/-- **A map that keeps the blanks commutes with squeezing.** -/
theorem squeeze_map (hq : ∀ c, q (f c) = p c) (s : List α) :
    squeeze q (s.map f) = (squeeze p s).map f :=
  squeezeFrom_map hq false s

/-- **And with cutting into tokens.** -/
theorem tokens_map (hq : ∀ c, q (f c) = p c) (s : List α) :
    tokens q (s.map f) = (tokens p s).map (List.map f) := by
  have hconsHead : ∀ (c : α) (ws : List (List α)),
      consHead (f c) (ws.map (List.map f)) = (consHead c ws).map (List.map f) := by
    intro c ws
    cases ws <;> rfl
  have hstart : ∀ s : List α, startsWord q (s.map f) = startsWord p s := by
    intro s
    cases s with
    | nil => rfl
    | cons c s => rw [List.map_cons, startsWord, startsWord, hq]
  induction s with
  | nil => rfl
  | cons c s ih =>
    rw [List.map_cons, tokens, tokens, hq, hstart, ih, hconsHead]
    split_ifs <;> simp

theorem nextToken_map (hq : ∀ c, q (f c) = p c) (s : List α) :
    nextToken q (s.map f) = (nextToken p s).map (Prod.map (List.map f) (List.map f)) := by
  have hcomp : q ∘ f = p := funext hq
  have hnot : (fun x => !q x) ∘ f = fun x => !p x := funext (fun c => by simp [hq])
  unfold nextToken
  rw [List.dropWhile_map, hcomp]
  cases s.dropWhile p with
  | nil => rfl
  | cons c t =>
    simp only [List.map_cons, List.takeWhile_map, List.dropWhile_map, hnot, Option.map_some,
      Prod.map_apply, List.map_drop]

end Maps

end Text
