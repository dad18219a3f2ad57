/-
# `clean`: the blanks of a line, removed in place

`utilities.c`.  `clean` walks one buffer with a write index `character` and a read offset `i`,
and cuts the result after the last character that is no blank.  The model keeps the buffer, the
two indices, `lastNonSpace` and the flag as the source has them; its loops carry a fuel that
bounds their turns by the length of the buffer.

`clean_eq` is the one fact the rest of the shell uses: what `clean` leaves is `Text.squeeze` of
the text before the first newline.

So every other module can speak of texts and blanks, with the lemmas of `Osexp.Lib.Text`, and
nothing in them depends on how the two loops go round; the loops themselves are looked at once more
in `Osexp.Seush.InPlace`, for what they do to memory on the way.  `firstLine` is what they see of a
text: they stop at a newline as they do at the terminator.
-/
import Osexp.Lib.Text
import Osexp.Seush.Structures

namespace Osexp.Seush

open Text

/-! ## 1. The function -/

/-- `line[k]`, with a terminator past the end of the buffer. -/
def charAt (line : List Char) (k : Nat) : Char := line.getD k '\x00'

/-- `while (line[character + i] == ' ' || line[character + i] == '\t') ++i;` -/
def skipBlanks (line : List Char) (character : Nat) : Nat → Nat → Nat
  | 0, i => i
  | fuel + 1, i =>
    if isBlank (charAt line (character + i)) then skipBlanks line character fuel (i + 1) else i

/-- The main loop of `clean`: the buffer and `lastNonSpace` when it ends. -/
def cleanLoop : Nat → List Char → Nat → Nat → Int → Bool → List Char × Int
  | 0, line, _, _, lastNonSpace, _ => (line, lastNonSpace)
  | fuel + 1, line, character, i, lastNonSpace, flag =>
    if charAt line (character + i) = '\x00' ∨ charAt line (character + i) = '\n' then
      (line, lastNonSpace)
    else
      let line := line.set character (charAt line (character + i))
      if isBlank (charAt line (character + i)) then
        let j := skipBlanks line character line.length i
        let flag := flag || decide (i < j)
        cleanLoop fuel line (character + 1) (if flag then j - 1 else j) lastNonSpace flag
      else
        cleanLoop fuel line (character + 1) i character false

/-- The buffer as `clean` leaves it. -/
def cleanBuffer (line : List Char) : List Char :=
  let i := skipBlanks line 0 line.length 0
  let r := cleanLoop line.length line 0 i (-1) false
  r.1.set (r.2 + 1).toNat '\x00'

/-- `clean`, from string to string: the buffer holds the text and its terminator. -/
def clean (s : CString) : CString := cstr (cleanBuffer (s ++ ['\x00']))

/-! ## 2. The loops -/

/-- The characters before which the loop of `clean` does not stop. -/
def inLine (c : Char) : Bool := c != '\x00' && c != '\n'

/-- The text before the first newline. -/
def firstLine (s : List Char) : CString := s.takeWhile inLine

theorem firstLine_cons {c : Char} (h : inLine c = true) (s : List Char) :
    firstLine (c :: s) = c :: firstLine s :=
  List.takeWhile_cons_of_pos h

theorem firstLine_cons_of_not {c : Char} (h : ¬ inLine c = true) (s : List Char) :
    firstLine (c :: s) = [] :=
  List.takeWhile_cons_of_neg h

theorem inLine_of_isBlank {c : Char} (h : isBlank c = true) : inLine c = true := by
  simp only [isBlank, Bool.or_eq_true, beq_iff_eq] at h
  rcases h with rfl | rfl <;> rfl

theorem isBlank_of_dropWhile {s t : List Char} {c : Char}
    (h : s.dropWhile isBlank = c :: t) : isBlank c = false := by
  have := List.head?_dropWhile_not isBlank s
  simpa [h] using this

theorem charAt_eq_of_drop {line : List Char} {k : Nat} {c : Char} {t : List Char}
    (h : line.drop k = c :: t) : charAt line k = c := by
  have hk : (line)[k]? = some c := by
    have h0 : (line.drop k)[0]? = (line)[k + 0]? := List.getElem?_drop
    rw [h] at h0
    exact h0.symm
  simp [charAt, List.getD_eq_getElem?_getD, hk]

theorem charAt_eq_of_drop_nil {line : List Char} {k : Nat} (h : line.drop k = []) :
    charAt line k = '\x00' := by
  have hk : line.length ≤ k := List.drop_eq_nil_iff.mp h
  simp [charAt, List.getD_eq_getElem?_getD, List.getElem?_eq_none hk]

theorem drop_succ_of_drop {line : List Char} {k : Nat} {c : Char} {t : List Char}
    (h : line.drop k = c :: t) : line.drop (k + 1) = t := by
  rw [← List.drop_drop, h]
  rfl

/-- The inner loop stops at the first character after the run. -/
theorem drop_skipBlanks (line : List Char) (character : Nat) : ∀ fuel i,
    (line.drop (character + i)).length ≤ fuel →
      i ≤ skipBlanks line character fuel i ∧
      line.drop (character + skipBlanks line character fuel i) =
        (line.drop (character + i)).dropWhile isBlank
  | 0, i, h => by
    have hnil : line.drop (character + i) = [] := List.length_eq_zero_iff.mp (by omega)
    simp [skipBlanks, hnil]
  | fuel + 1, i, h => by
    cases hd : line.drop (character + i) with
    | nil => simp [skipBlanks, charAt_eq_of_drop_nil hd, isBlank, hd]
    | cons c t =>
      have hc := charAt_eq_of_drop hd
      have ht : line.drop (character + (i + 1)) = t := drop_succ_of_drop hd
      by_cases hb : isBlank c = true
      · have hlen : (line.drop (character + (i + 1))).length ≤ fuel := by
          rw [ht]; rw [hd, List.length_cons] at h; omega
        have ih := drop_skipBlanks line character fuel (i + 1) hlen
        simp only [skipBlanks, hc, hb, if_true, List.dropWhile_cons]
        rw [ht] at ih
        exact ⟨by omega, ih.2⟩
      · simp [skipBlanks, hc, hb, hd]

/-- Writing at or before the read position leaves what is still to be read. -/
theorem drop_set_succ (line : List Char) (k j : Nat) (c : Char) (h : k ≤ j) :
    (line.set k c).drop (j + 1) = line.drop (j + 1) :=
  List.drop_set_of_lt (by omega)

/-- Writing at the write index extends the text written so far. -/
theorem take_set_succ {line : List Char} {k : Nat} (c : Char) (h : k < line.length) :
    (line.set k c).take (k + 1) = line.take k ++ [c] := by
  have hk : k < (line.set k c).length := by simpa using h
  rw [List.take_succ_eq_append_getElem hk, List.take_set_of_le (Nat.le_refl k)]
  simp

/-- Dropping the leading blanks first, the text is squeezed from the start of a word. -/
theorem squeezeFrom_dropWhile (t : List Char) :
    squeezeFrom isBlank true (firstLine (t.dropWhile isBlank)) =
      squeeze isBlank (firstLine t) := by
  induction t with
  | nil => rfl
  | cons x t ih =>
    by_cases hx : isBlank x = true
    · rw [List.dropWhile_cons_of_pos hx, ih, firstLine_cons (inLine_of_isBlank hx)]
      simp [squeeze, squeezeFrom, hx]
    · have hxf : isBlank x = false := by simpa using hx
      rw [List.dropWhile_cons_of_neg hx, squeeze]
      by_cases hin : inLine x = true
      · rw [firstLine_cons hin, squeezeFrom_cons_of_not hxf, squeezeFrom_cons_of_not hxf]
      · rw [firstLine_cons_of_not hin, squeezeFrom_nil, squeezeFrom_nil]

/-- A run of blanks inside a word is one blank, or none at the end of the text. -/
theorem squeezeFrom_firstLine_blank {c : Char} (hc : isBlank c = true) (t : List Char) :
    squeezeFrom isBlank true (firstLine (c :: t)) =
      if (squeezeFrom isBlank true (firstLine (t.dropWhile isBlank))).isEmpty then []
      else c :: squeezeFrom isBlank true (firstLine (t.dropWhile isBlank)) := by
  rw [firstLine_cons (inLine_of_isBlank hc), squeezeFrom_dropWhile]
  simp only [squeezeFrom, hc, if_true]
  rfl

theorem lt_length_of_drop {line : List Char} {k : Nat} {c : Char} {t : List Char}
    (h : line.drop k = c :: t) : k < line.length := by
  by_contra hk
  rw [List.drop_eq_nil_of_le (Nat.le_of_not_lt hk)] at h
  cases h

theorem length_cleanLoop : ∀ (fuel : Nat) (line : List Char) (character i : Nat) (last : Int)
    (flag : Bool), (cleanLoop fuel line character i last flag).1.length = line.length
  | 0, _, _, _, _, _ => rfl
  | fuel + 1, line, character, i, last, flag => by
    simp only [cleanLoop]
    split
    · rfl
    · split
      · rw [length_cleanLoop, List.length_set]
      · rw [length_cleanLoop, List.length_set]

/-- Copied to the write index, the character is still at the read position. -/
theorem charAt_set_of_drop {line t : List Char} {character i : Nat} {c : Char}
    (hd : line.drop (character + i) = c :: t) :
    charAt (line.set character c) (character + i) = c := by
  have hlt := lt_length_of_drop hd
  rcases Nat.eq_zero_or_pos i with rfl | hi
  · simp only [Nat.add_zero] at hlt ⊢
    simp [charAt, List.getD_eq_getElem?_getD, hlt]
  · rw [charAt, List.getD_eq_getElem?_getD, List.getElem?_set_ne (by omega),
      ← List.getD_eq_getElem?_getD]
    exact charAt_eq_of_drop hd

/-- What the loop keeps: the buffer up to the cut after `lastNonSpace`. -/
def kept (r : List Char × Int) : CString := r.1.take (r.2 + 1).toNat

/-- One turn on a character that is no blank: it is copied and the flag cleared. -/
theorem cleanLoop_word {fuel : Nat} {line t : List Char} {character i : Nat} {last : Int}
    {flag : Bool} {c : Char} (hd : line.drop (character + i) = c :: t) (hin : inLine c = true)
    (hb : isBlank c = false) :
    cleanLoop (fuel + 1) line character i last flag =
      cleanLoop fuel (line.set character c) (character + 1) i character false := by
  have hc := charAt_eq_of_drop hd
  have hstop : ¬ (c = '\x00' ∨ c = '\n') := by simpa [inLine] using hin
  have hset := charAt_set_of_drop hd
  simp only [cleanLoop, hc, hstop, if_false, hset, hb, Bool.false_eq_true]

/-- One turn on a run of blanks: its first is copied and the read position moved past it. -/
theorem cleanLoop_blank {fuel : Nat} {line t : List Char} {character i : Nat} {last : Int}
    {flag : Bool} {c : Char} (hd : line.drop (character + i) = c :: t)
    (hb : isBlank c = true) :
    ∃ j, (line.set character c).drop (character + 1 + j) = t.dropWhile isBlank ∧
      cleanLoop (fuel + 1) line character i last flag =
        cleanLoop fuel (line.set character c) (character + 1) j last true := by
  have hc := charAt_eq_of_drop hd
  have hlt := lt_length_of_drop hd
  have hstop : ¬ (c = '\x00' ∨ c = '\n') := by rintro (rfl | rfl) <;> simp [isBlank] at hb
  have hset := charAt_set_of_drop hd
  -- the run begins at the read position, so the inner loop turns at least once
  obtain ⟨n, hn⟩ : ∃ n, (line.set character c).length = n + 1 :=
    ⟨(line.set character c).length - 1, by rw [List.length_set]; omega⟩
  have hfirst : skipBlanks (line.set character c) character (line.set character c).length i =
      skipBlanks (line.set character c) character n (i + 1) := by
    rw [hn, skipBlanks, hset, if_pos hb]
  have hdrop : (line.set character c).drop (character + (i + 1)) = t := by
    rw [← Nat.add_assoc, drop_set_succ _ _ _ _ (by omega)]
    exact drop_succ_of_drop hd
  have hskip := drop_skipBlanks (line.set character c) character n (i + 1) (by
    rw [hdrop]
    have : (line.drop (character + i)).length = t.length + 1 := by rw [hd]; rfl
    rw [List.length_drop] at this
    rw [List.length_set] at hn
    omega)
  rw [hdrop] at hskip
  set j := skipBlanks (line.set character c) character n (i + 1) with hj
  refine ⟨j - 1, ?_, ?_⟩
  · rw [show character + 1 + (j - 1) = character + j by omega]
    exact hskip.2
  · have hflag : (flag || decide (i < j)) = true := by
      simp only [Bool.or_eq_true, decide_eq_true_eq]
      omega
    simp only [cleanLoop, hc, hstop, if_false, hset, hb, if_true, hfirst, hflag]

/-- The loop of `clean` ends at a terminator or a newline. -/
theorem cleanLoop_stop {fuel : Nat} {line : List Char} {character i : Nat} {last : Int}
    {flag : Bool} (h : firstLine (line.drop (character + i)) = []) :
    cleanLoop fuel line character i last flag = (line, last) := by
  cases fuel with
  | zero => rfl
  | succ fuel =>
    have hstop : charAt line (character + i) = '\x00' ∨ charAt line (character + i) = '\n' := by
      cases hd : line.drop (character + i) with
      | nil => exact Or.inl (charAt_eq_of_drop_nil hd)
      | cons c t =>
        rw [charAt_eq_of_drop hd]
        by_contra hc
        have hin : inLine c = true := by simpa [inLine] using hc
        rw [hd, firstLine_cons hin] at h
        cases h
    rw [cleanLoop, if_pos hstop]

/-- **The loop invariant of `clean`, carried to its end.**  When the last character written is
no blank (or none is written yet), the buffer finally holds what was written so far, followed by
the rest of the first line squeezed as the continuation of a word. -/
theorem kept_cleanLoop : ∀ (fuel : Nat) (line : List Char) (character i : Nat) (last : Int)
    (flag : Bool), (line.drop (character + i)).length ≤ fuel → last + 1 = character →
      character ≤ line.length →
      kept (cleanLoop fuel line character i last flag) =
        line.take character ++
          squeezeFrom isBlank true (firstLine (line.drop (character + i))) := by
  intro fuel
  induction fuel using Nat.strong_induction_on with
  | _ fuel ih =>
    intro line character i last flag hfuel hlast hch
    have hkeep : kept (line, last) = line.take character := by
      rw [kept, hlast]; simp
    cases hd : line.drop (character + i) with
    | nil =>
      rw [cleanLoop_stop (by rw [hd]; rfl), hkeep]
      simp [firstLine, squeezeFrom_nil]
    | cons c t =>
      have hlt := lt_length_of_drop hd
      rw [hd, List.length_cons] at hfuel
      obtain ⟨fuel, rfl⟩ : ∃ n, fuel = n + 1 := ⟨fuel - 1, by omega⟩
      by_cases hin : inLine c = true
      · by_cases hb : isBlank c = true
        · -- the turn on the blanks, then the turn on the character after them, if there is one
          obtain ⟨j, hj, heq⟩ := cleanLoop_blank hd hb
          rw [heq, squeezeFrom_firstLine_blank hb]
          have htake := take_set_succ c (show character < line.length by omega)
          cases hu : t.dropWhile isBlank with
          | nil =>
            rw [hu] at hj
            rw [cleanLoop_stop (by rw [hj]; rfl)]
            rw [kept, hlast]
            simp [firstLine, squeezeFrom_nil, List.take_set_of_le]
          | cons d u =>
            rw [hu] at hj
            have hdb : isBlank d = false := isBlank_of_dropWhile hu
            by_cases hdin : inLine d = true
            · have hulen : u.length + 1 ≤ t.length := by
                have := (List.dropWhile_suffix (l := t) isBlank).length_le
                rw [hu, List.length_cons] at this
                exact this
              obtain ⟨fuel, rfl⟩ : ∃ n, fuel = n + 1 := ⟨fuel - 1, by omega⟩
              have hlt2 := lt_length_of_drop hj
              rw [cleanLoop_word hj hdin hdb]
              have hdrop2 : ((line.set character c).set (character + 1) d).drop
                  (character + 1 + 1 + j) = u := by
                rw [show character + 1 + 1 + j = (character + 1 + j) + 1 by omega,
                  drop_set_succ _ _ _ _ (by omega)]
                exact drop_succ_of_drop hj
              rw [ih fuel (by omega) _ _ _ _ _ (by rw [hdrop2]; omega) (by omega)
                (by simp only [List.length_set] at hlt2 ⊢; omega), hdrop2,
                take_set_succ d (by omega), htake]
              rw [firstLine_cons hdin, squeezeFrom_cons_of_not hdb]
              simp
            · have hnil : firstLine (d :: u) = [] := firstLine_cons_of_not hdin u
              rw [cleanLoop_stop (by rw [hj]; exact hnil), hnil, kept, hlast]
              simp [squeezeFrom_nil, List.take_set_of_le]
        · have hbf : isBlank c = false := by simpa using hb
          rw [cleanLoop_word hd hin hbf]
          have hdrop : (line.set character c).drop (character + 1 + i) = t := by
            rw [show character + 1 + i = (character + i) + 1 by omega,
              drop_set_succ _ _ _ _ (by omega)]
            exact drop_succ_of_drop hd
          rw [ih fuel (by omega) _ _ _ _ _ (by rw [hdrop]; omega) (by omega)
            (by simp only [List.length_set]; omega), hdrop, take_set_succ c (by omega)]
          rw [firstLine_cons hin, squeezeFrom_cons_of_not hbf]
          simp
      · have hnil : firstLine (c :: t) = [] := firstLine_cons_of_not hin t
        rw [cleanLoop_stop (by rw [hd]; exact hnil), hkeep, hnil]
        simp [squeezeFrom_nil]

/-! ## 3. `clean` -/

theorem mem_firstLine {s : List Char} {c : Char} (h : c ∈ firstLine s) :
    c ≠ '\x00' ∧ c ≠ '\n' ∧ c ∈ s := by
  have hin : inLine c = true := List.mem_takeWhile_imp h
  have hmem : c ∈ s := (List.takeWhile_sublist _).subset h
  have hne : c ≠ '\x00' ∧ c ≠ '\n' := by simpa [inLine] using hin
  exact ⟨hne.1, hne.2, hmem⟩

theorem firstLine_append_nul (s behind : List Char) :
    firstLine (s ++ '\x00' :: behind) = firstLine s := by
  induction s with
  | nil => rfl
  | cons c s ih =>
    by_cases hin : inLine c = true
    · rw [List.cons_append, firstLine_cons hin, firstLine_cons hin, ih]
    · rw [List.cons_append, firstLine_cons_of_not hin, firstLine_cons_of_not hin]

/-- A string cut short inside its buffer. -/
theorem cstr_set_nul {line : List Char} {k : Nat} (hk : k < line.length)
    (h : ∀ c ∈ line.take k, c ≠ '\x00') : cstr (line.set k '\x00') = line.take k := by
  rw [List.set_eq_take_append_cons_drop, if_pos hk, cstr]
  rw [List.takeWhile_append_of_pos (by simpa using h)]
  simp

/-- The loop in a buffer with a text and its terminator: it ends inside the text, and cut after
`lastNonSpace` the buffer holds the squeezed first line. -/
theorem cut_cleanLoop (text behind : List Char) {fuel i : Nat}
    (hfuel : (text ++ '\x00' :: behind).length ≤ fuel)
    (hi : (text ++ '\x00' :: behind).drop i = (text ++ '\x00' :: behind).dropWhile isBlank) :
    ((cleanLoop fuel (text ++ '\x00' :: behind) 0 i (-1) false).2 + 1).toNat =
        (squeeze isBlank (firstLine text)).length ∧
      cstr ((cleanLoop fuel (text ++ '\x00' :: behind) 0 i (-1) false).1.set
          ((cleanLoop fuel (text ++ '\x00' :: behind) 0 i (-1) false).2 + 1).toNat '\x00') =
        squeeze isBlank (firstLine text) := by
  set r := cleanLoop fuel (text ++ '\x00' :: behind) 0 i (-1) false with hr
  have hkept : kept r = squeeze isBlank (firstLine text) := by
    have h := kept_cleanLoop fuel (text ++ '\x00' :: behind) 0 i (-1) false
      (by rw [List.length_drop]; omega) (by omega) (Nat.zero_le _)
    rw [Nat.zero_add, hi, squeezeFrom_dropWhile, firstLine_append_nul, List.take_zero,
      List.nil_append] at h
    exact h
  have hnul : ∀ c ∈ kept r, c ≠ '\x00' := by
    intro c hc
    rw [hkept] at hc
    exact (mem_firstLine (mem_of_mem_squeeze hc)).1
  have hlen : (kept r).length ≤ text.length := by
    rw [hkept]
    exact (length_squeeze_le _).trans (List.takeWhile_sublist _).length_le
  have hrlen : r.1.length = text.length + (behind.length + 1) := by
    rw [hr, length_cleanLoop, List.length_append, List.length_cons]
  have hk : (r.2 + 1).toNat < r.1.length := by
    rw [kept, List.length_take] at hlen
    omega
  refine ⟨?_, (cstr_set_nul hk hnul).trans hkept⟩
  rw [← hkept, kept, List.length_take]
  omega

/-- **What `clean` computes**: the text before the first newline, without leading and trailing
blanks, every inner run of blanks cut to its first character. -/
theorem clean_eq (s : CString) : clean s = squeeze isBlank (firstLine s) := by
  have hskip := drop_skipBlanks (s ++ ['\x00']) 0 (s ++ ['\x00']).length 0 (by simp)
  simp only [Nat.zero_add, List.drop_zero] at hskip
  exact (cut_cleanLoop s [] (Nat.le_refl _) hskip.2).2

theorem length_clean_le (s : CString) : (clean s).length ≤ s.length := by
  rw [clean_eq]
  exact (length_squeeze_le _).trans (List.takeWhile_sublist _).length_le

end Osexp.Seush
