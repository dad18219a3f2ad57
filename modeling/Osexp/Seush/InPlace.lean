/-
# `clean` in the memory it works in

The same loops as in `cleanLoop`, with the integers of the source: `i` is a `size_t`, `character`
and `lastNonSpace` are of type `int`.  Every access to the line is recorded, and a step outside
the buffer or outside the range of `int` ends the run.

`cleans_in_place_iff`: `clean` ends, stays between the start of the buffer and its terminator,
never reads what it has spoiled, and leaves the normal form of the text, as long as it does not
copy more characters than an `int` can count.  What it copies is the first line without its
leading blanks, every run of blanks cut to one (`collapse`), and `character` is incremented for
each of them.

`Osexp.Seush.Utilities` says what comes out; this module says that the way there is one that C
allows.  The loop reads at `character + i` and writes at `character` in the same array, where the
sum of an `int` and a `size_t` is taken.  That the reads are always ahead of the writes is not
written anywhere in the source; it is the invariant here (`Position`).

The exception is not a matter of taste: a line of 2 GiB can be typed by a program, and `getline`
takes it.
-/
import Mathlib.Algebra.Group.Int.Defs
import Mathlib.Algebra.Group.Nat.Defs
import Osexp.Lib.Accesses
import Osexp.Lib.Collapse
import Osexp.Seush.Utilities

namespace Osexp.Seush

open Text Cells

/-! ## 1. The function -/

/-- A string in memory: its text, and behind the terminator the rest of the object that it stands
in. The sizes of objects are of type `size_t`. -/
structure InMemory where
  text : CString
  behind : List Char
  noNul : '\x00' ∉ text
  size : text.length + 1 + behind.length < 2 ^ 64

def InMemory.bytes (b : InMemory) : List Char := b.text ++ '\x00' :: b.behind

/-- How a run can end before its time: at an access outside the object, or at an `int` that grows
too large.  The fuel that bounds the turns of the loops belongs to the model. -/
inductive Stop
  | outside | intOverflow | fuel
  deriving DecidableEq, Repr

abbrev CleanRun := Run Char Stop

def INT_MAX : Int := 2 ^ 31 - 1

/-- A sum of type `size_t`. -/
def sizeT (x : Int) : Int := x % 2 ^ 64

/-- `x + 1`, of type `int`. -/
def intSucc (x : Int) : CleanRun Int := if x < INT_MAX then pure (x + 1) else throw .intOverflow

/-- `line[k]`. -/
def lineAt (k : Int) : CleanRun Char :=
  if 0 ≤ k then Cells.read .outside k.toNat else throw .outside

/-- `line[k] = c`. -/
def setLine (k : Int) (c : Char) : CleanRun Unit :=
  if 0 ≤ k then Cells.write .outside k.toNat c else throw .outside

/-- `while (p(line[character + i])) ++i;` -/
def advance (p : Char → Bool) (character : Int) : Nat → Int → CleanRun Int
  | 0, _ => throw .fuel
  | fuel + 1, i => do
    let c ← lineAt (sizeT (character + i))
    if p c then advance p character fuel (sizeT (i + 1)) else pure i

/-- The main loop of `clean`; it returns `lastNonSpace`. -/
def cleanTurns : Nat → Int → Int → Int → Bool → CleanRun Int
  | 0, _, _, _, _ => throw .fuel
  | fuel + 1, character, i, lastNonSpace, flag => do
    let c ← lineAt (sizeT (character + i))
    if c = '\x00' ∨ c = '\n' then pure lastNonSpace
    else
      setLine character c
      let c ← lineAt (sizeT (character + i))
      if isBlank c then
        let j ← advance isBlank character fuel i
        let flag := flag || decide (j ≠ i)
        let next ← intSucc character
        cleanTurns fuel next (if flag then sizeT (j - 1) else j) lastNonSpace flag
      else
        let next ← intSucc character
        cleanTurns fuel next i character false

/-- `clean`.  The length of the line is computed, and not used. -/
def cleanRun (fuel : Nat) : CleanRun Unit := do
  let _len ← advance (fun c => c != '\x00') 0 fuel 0
  let i ← advance isBlank 0 fuel 0
  let lastNonSpace ← cleanTurns fuel 0 i (-1) false
  let cut ← intSucc lastNonSpace
  setLine cut '\x00'

/-! ## 2. The property and its condition -/

/-- What the memory of a string is to be when `clean` has returned: the accesses stay in the
string, each read finds the byte that was there at the start, the normal form is in the buffer,
and behind the terminator nothing has changed. -/
structure CleansInPlace (b : InMemory) (m : Cells Char) : Prop where
  inside : ∀ a ∈ m.log, a.index ≤ b.text.length
  unspoiled : ∀ k c, Access.read k c ∈ m.log → b.bytes[k]? = some c
  normal : cstr m.cells = squeeze isBlank (firstLine b.text)
  behind : m.cells.drop (b.text.length + 1) = b.behind

/-- The number of characters that `clean` copies. -/
def copied (s : List Char) : Nat := (collapse isBlank true (firstLine s)).length

/-! ## 3. The steps -/

section Steps

variable {b : InMemory} {m : Cells Char} {n : Nat}

theorem sizeT_of_lt {k : Nat} (h : k < 2 ^ 64) : sizeT k = k := by
  rw [sizeT]
  omega

theorem intSucc_ok {k : Int} (h : k < INT_MAX) : (intSucc k).run m = .ok (k + 1, m) := by
  rw [intSucc, if_pos h]
  rfl

theorem intSucc_overflow {k : Int} (h : INT_MAX ≤ k) :
    (intSucc k).run m = .error .intOverflow := by
  rw [intSucc, if_neg (Int.not_lt.mpr h)]
  rfl

theorem InMemory.length_bytes (b : InMemory) :
    b.bytes.length = b.text.length + 1 + b.behind.length := by
  rw [InMemory.bytes, List.length_append, List.length_cons]
  omega

/-- Where the loop is: what is still to be read is as it was, and begins inside the string. -/
structure Position (b : InMemory) (character i : Nat) (m : Cells Char) : Prop where
  tidy : Tidy b.bytes b.text.length m
  length : m.cells.length = b.bytes.length
  rest : m.cells.drop (character + i) = b.bytes.drop (character + i)
  inside : character + i ≤ b.text.length

theorem Position.lt_size {k i : Nat} (h : Position b k i m) : k + i < 2 ^ 64 := by
  have hsize := b.size
  have hin := h.inside
  omega

/-- A read at the read position. -/
theorem Position.lineAt_run {k i : Nat} (h : Position b k i m) {c : Char} {t : List Char}
    (hd : b.bytes.drop (k + i) = c :: t) :
    ∃ m', (lineAt (sizeT ((k : Int) + i))).run m = .ok (c, m') ∧ m'.cells = m.cells ∧
      Position b k i m' := by
  have hindex : sizeT ((k : Int) + i) = ((k + i : Nat) : Int) := by
    rw [← Int.natCast_add]
    exact sizeT_of_lt h.lt_size
  have horig : b.bytes[k + i]? = some c := by
    rw [← List.head?_drop, hd]
    rfl
  have hcell : m.cells[k + i]? = some c := by
    rw [← List.head?_drop, h.rest, hd]
    rfl
  obtain ⟨m', hrun, hcells, htidy⟩ := h.tidy.read Stop.outside h.inside hcell horig
  refine ⟨m', ?_, hcells, htidy, ?_, ?_, h.inside⟩
  · rw [hindex, lineAt, if_pos (Int.natCast_nonneg _)]
    exact hrun
  · rw [hcells]
    exact h.length
  · rw [hcells]
    exact h.rest

/-- The positions behind this one. -/
theorem Position.later {k i k' i' : Nat} (h : Position b k i m) (hle : k + i ≤ k' + i')
    (hin : k' + i' ≤ b.text.length) : Position b k' i' m := by
  refine ⟨h.tidy, h.length, ?_, hin⟩
  have hsum : k' + i' = k + i + (k' + i' - (k + i)) := by omega
  rw [hsum, ← List.drop_drop, h.rest, List.drop_drop]

/-- The loop that skips characters ends behind the last of them, if the fuel lasts. -/
theorem Position.advance_run {p : Char → Bool} {k : Nat} {c : Char} {t : List Char}
    (hc : p c = false) : ∀ (fuel : Nat) {i : Nat} {w : List Char} {m : Cells Char},
    Position b k i m → b.bytes.drop (k + i) = w ++ c :: t → (∀ x ∈ w, p x = true) →
    k + i + w.length ≤ b.text.length →
    (∃ m', (advance p k fuel i).run m = .ok (((i + w.length : Nat) : Int), m') ∧
        m'.cells = m.cells ∧ Position b k (i + w.length) m') ∨
      fuel ≤ w.length ∧ (advance p k fuel i).run m = .error .fuel
  | 0, i, w, m, _, _, _, _ => Or.inr ⟨Nat.zero_le _, rfl⟩
  | fuel + 1, i, [], m, h, hd, _, _ => by
    obtain ⟨m', hread, hcells, h'⟩ := h.lineAt_run hd
    refine Or.inl ⟨m', ?_, hcells, h'⟩
    rw [advance, bind_ok hread, hc, if_neg Bool.false_ne_true]
    rfl
  | fuel + 1, i, x :: w, m, h, hd, hw, hin => by
    obtain ⟨m', hread, hcells, h'⟩ := h.lineAt_run hd
    obtain ⟨hx, hw⟩ := List.forall_mem_cons.mp hw
    rw [List.length_cons] at hin ⊢
    have hlen : i + (w.length + 1) = i + 1 + w.length := by omega
    have hnext : sizeT ((i : Int) + 1) = ((i + 1 : Nat) : Int) := by
      rw [← Int.natCast_succ]
      have hsize := h.lt_size
      have hbytes := b.size
      exact sizeT_of_lt (by omega)
    have hrest : b.bytes.drop (k + (i + 1)) = w ++ c :: t := by
      rw [← Nat.add_assoc, ← List.drop_drop, hd]
      rfl
    have hrun : (advance p k (fuel + 1) i).run m =
        (advance p k fuel ((i + 1 : Nat) : Int)).run m' := by
      rw [advance, bind_ok hread, hx, if_pos rfl, hnext]
    have h'' : Position b k (i + 1) m' := h'.later (by omega) (by omega)
    rw [hrun, hlen]
    rcases Position.advance_run hc fuel h'' hrest hw (by omega) with
      ⟨m'', hok, hc'', hp''⟩ | ⟨hle, he⟩
    · exact Or.inl ⟨m'', hok, hc''.trans hcells, hp''⟩
    · exact Or.inr ⟨Nat.succ_le_succ hle, he⟩

/-- A character is copied from the read position to the write index. -/
theorem Position.setLine_run {k i : Nat} (h : Position b k i m) {c : Char} {t : List Char}
    (hd : b.bytes.drop (k + i) = c :: t) :
    ∃ m', (setLine k c).run m = .ok ((), m') ∧ m'.cells = m.cells.set k c ∧
      Position b k i m' := by
  have hlt : k < m.cells.length := by
    have hin := h.inside
    rw [h.length, b.length_bytes]
    omega
  have hk : k ≤ b.text.length := by
    have hin := h.inside
    omega
  obtain ⟨m', hrun, hcells, htidy⟩ := h.tidy.write Stop.outside hk hlt c
  refine ⟨m', ?_, hcells, htidy, ?_, ?_, h.inside⟩
  · rw [setLine, if_pos (Int.natCast_nonneg _)]
    exact hrun
  · rw [hcells, List.length_set]
    exact h.length
  · rw [hcells, ← h.rest]
    rcases Nat.eq_zero_or_pos i with rfl | hi
    · -- the character is already there
      have hcell : m.cells[k]? = some c := by
        rw [← Nat.add_zero k, ← List.head?_drop, h.rest, hd]
        rfl
      obtain ⟨_, rfl⟩ := List.getElem?_eq_some_iff.mp hcell
      rw [List.set_getElem_self]
    · exact List.drop_set_of_lt (by omega)

/-- One turn on a character that is no blank. -/
theorem Position.turn_word {k i : Nat} (h : Position b k i m) {c : Char} {t : List Char}
    (hd : b.bytes.drop (k + i) = c :: t) (hin : inLine c = true) (hb : isBlank c = false)
    (hlt : k + i < b.text.length) (fuel : Nat) (last : Int) (flag : Bool) :
    ∃ m', (cleanTurns (fuel + 1) k i last flag).run m =
        (intSucc k >>= fun next => cleanTurns fuel next i k false).run m' ∧
      m'.cells = m.cells.set k c ∧ Position b (k + 1) i m' := by
  have hstop : ¬ (c = '\x00' ∨ c = '\n') := by simpa [inLine] using hin
  obtain ⟨m₁, h₁, hc₁, hp₁⟩ := h.lineAt_run hd
  obtain ⟨m₂, h₂, hc₂, hp₂⟩ := hp₁.setLine_run hd
  obtain ⟨m₃, h₃, hc₃, hp₃⟩ := hp₂.lineAt_run hd
  refine ⟨m₃, ?_, by rw [hc₃, hc₂, hc₁], hp₃.later (by omega) (by omega)⟩
  rw [cleanTurns, bind_ok h₁, if_neg hstop, bind_ok h₂, bind_ok h₃, hb,
    if_neg Bool.false_ne_true]

/-- One turn on a run of blanks: its first is copied. -/
theorem Position.turn_blank {k i : Nat} (h : Position b k i m) {c d : Char} {w t : List Char}
    (hd : b.bytes.drop (k + i) = c :: w ++ d :: t) (hb : isBlank c = true)
    (hw : ∀ x ∈ w, isBlank x = true) (hnot : isBlank d = false)
    (hle : k + i + (w.length + 1) ≤ b.text.length) (fuel : Nat) (last : Int) (flag : Bool) :
    (∃ m', (cleanTurns (fuel + 1) k i last flag).run m =
        (intSucc k >>= fun next =>
          cleanTurns fuel next ((i + w.length : Nat) : Int) last true).run m' ∧
      m'.cells = m.cells.set k c ∧ Position b (k + 1) (i + w.length) m') ∨
    fuel ≤ w.length + 1 ∧ (cleanTurns (fuel + 1) k i last flag).run m = .error .fuel := by
  have hstop : ¬ (c = '\x00' ∨ c = '\n') := by rintro (rfl | rfl) <;> simp [isBlank] at hb
  obtain ⟨m₁, h₁, hc₁, hp₁⟩ := h.lineAt_run hd
  obtain ⟨m₂, h₂, hc₂, hp₂⟩ := hp₁.setLine_run hd
  obtain ⟨m₃, h₃, hc₃, hp₃⟩ := hp₂.lineAt_run hd
  have hrun : (cleanTurns (fuel + 1) k i last flag).run m =
      (advance isBlank k fuel i >>= fun j => intSucc k >>= fun next =>
        cleanTurns fuel next
          (if (flag || decide (j ≠ (i : Int))) = true then sizeT (j - 1) else j) last
          (flag || decide (j ≠ (i : Int)))).run m₃ := by
    rw [cleanTurns, bind_ok h₁, if_neg hstop, bind_ok h₂, bind_ok h₃, hb, if_pos rfl]
  rw [hrun]
  rcases hp₃.advance_run hnot fuel hd (List.forall_mem_cons.mpr ⟨hb, hw⟩) hle with
    ⟨m₄, h₄, hc₄, hp₄⟩ | ⟨hfuel, he⟩
  · refine Or.inl ⟨m₄, ?_, by rw [hc₄, hc₃, hc₂, hc₁], hp₄.later ?_ ?_⟩
    · have hmoved : (flag || decide (((i + (c :: w).length : Nat) : Int) ≠ i)) = true := by
        rw [List.length_cons, Bool.or_eq_true, decide_eq_true_iff]
        omega
      have hback :
          sizeT (((i + (c :: w).length : Nat) : Int) - 1) = ((i + w.length : Nat) : Int) := by
        have hsize := hp₄.lt_size
        rw [List.length_cons] at hsize ⊢
        rw [sizeT]
        omega
      rw [bind_ok h₄, hmoved, if_pos rfl, hback]
    · rw [List.length_cons]
      omega
    · omega
  · exact Or.inr ⟨hfuel, bind_error he⟩

/-- The loop stops at the newline or the terminator. -/
theorem Position.turn_stop {k i : Nat} (h : Position b k i m) {c : Char} {t : List Char}
    (hd : b.bytes.drop (k + i) = c :: t) (hstop : ¬ inLine c = true) (fuel : Nat) (last : Int)
    (flag : Bool) :
    ∃ m', (cleanTurns (fuel + 1) k i last flag).run m = .ok (last, m') ∧ m'.cells = m.cells ∧
      Tidy b.bytes b.text.length m' := by
  have hends : c = '\x00' ∨ c = '\n' := by
    by_contra hne
    exact hstop (by simpa [inLine] using hne)
  obtain ⟨m', hread, hcells, h'⟩ := h.lineAt_run hd
  refine ⟨m', ?_, hcells, h'.tidy⟩
  rw [cleanTurns, bind_ok hread, if_pos hends]
  rfl

end Steps

/-! ## 4. What is left to copy -/

section Left

variable {b : InMemory} {j : Nat} {c : Char} {t : List Char}

/-- What the loop still copies when it is at this byte. -/
def left (b : InMemory) (j : Nat) : Nat :=
  (collapse isBlank false (firstLine (b.bytes.drop j))).length

theorem InMemory.drop_bytes (h : j ≤ b.text.length) :
    b.bytes.drop j = b.text.drop j ++ '\x00' :: b.behind :=
  List.drop_append_of_le_length h

/-- Letters of one kind, up to the first of another kind, stay in front of it. -/
theorem length_le_of_append {p : Char → Bool} {u v s r : List Char} {x : Char}
    (h : u ++ v = s ++ x :: r) (hu : ∀ c ∈ u, p c = true) (hx : p x = false) :
    u.length ≤ s.length := by
  by_contra hlt
  have hat : (u ++ v)[s.length]? = some x := by
    rw [h, List.getElem?_append_right (Nat.le_refl _), Nat.sub_self]
    rfl
  rw [List.getElem?_append_left (by omega)] at hat
  rw [hu x (List.mem_of_getElem? hat)] at hx
  cases hx

theorem dropWhile_blanks {w t : List Char} {d : Char} (hw : ∀ x ∈ w, isBlank x = true)
    (hnot : isBlank d = false) : (w ++ d :: t).dropWhile isBlank = d :: t := by
  rw [List.dropWhile_append_of_pos hw, List.dropWhile_cons_of_neg (by simp [hnot])]

/-- From any place in the string, the blanks and what follows them. -/
theorem blanks_at (h : j ≤ b.text.length) :
    ∃ w d t, b.bytes.drop j = w ++ d :: t ∧ (∀ x ∈ w, isBlank x = true) ∧ isBlank d = false ∧
      j + w.length ≤ b.text.length := by
  have hsplit := List.takeWhile_append_dropWhile (p := isBlank) (l := b.bytes.drop j)
  have hblanks : ∀ x ∈ (b.bytes.drop j).takeWhile isBlank, isBlank x = true :=
    fun x hx => List.mem_takeWhile_imp hx
  have hlen := length_le_of_append (hsplit.trans (b.drop_bytes h)) hblanks rfl
  rw [List.length_drop] at hlen
  cases hd : (b.bytes.drop j).dropWhile isBlank with
  | nil =>
    rw [hd, List.append_nil] at hsplit
    have hnul : '\x00' ∈ b.bytes.drop j := by
      rw [b.drop_bytes h]
      exact List.mem_append_right _ List.mem_cons_self
    rw [← hsplit] at hnul
    exact absurd (hblanks _ hnul) (by decide)
  | cons d t =>
    rw [hd] at hsplit
    exact ⟨_, d, t, hsplit.symm, hblanks, isBlank_of_dropWhile hd, by omega⟩

/-- Where there is still a character of the line, the terminator is further on. -/
theorem lt_of_inLine (h : j ≤ b.text.length) (hd : b.bytes.drop j = c :: t)
    (hin : inLine c = true) : j < b.text.length := by
  refine Nat.lt_of_le_of_ne h ?_
  rintro rfl
  rw [b.drop_bytes h, List.drop_length] at hd
  cases hd
  cases hin

theorem left_stop (hd : b.bytes.drop j = c :: t) (hstop : ¬ inLine c = true) : left b j = 0 := by
  rw [left, hd, firstLine_cons_of_not hstop, collapse_nil]
  rfl

theorem left_word (hd : b.bytes.drop j = c :: t) (hin : inLine c = true)
    (hb : isBlank c = false) : left b j = left b (j + 1) + 1 := by
  rw [left, left, ← List.drop_drop, hd, firstLine_cons hin, collapse_cons_of_not hb]
  rfl

theorem firstLine_dropWhile (s : List Char) :
    firstLine (s.dropWhile isBlank) = (firstLine s).dropWhile isBlank := by
  induction s with
  | nil => rfl
  | cons c s ih =>
    by_cases hb : isBlank c = true
    · rw [List.dropWhile_cons_of_pos hb, firstLine_cons (inLine_of_isBlank hb),
        List.dropWhile_cons_of_pos hb, ih]
    · rw [List.dropWhile_cons_of_neg hb]
      by_cases hin : inLine c = true
      · rw [firstLine_cons hin, List.dropWhile_cons_of_neg hb]
      · rw [firstLine_cons_of_not hin]
        rfl

theorem left_blank {w : List Char} {d : Char} (hd : b.bytes.drop j = c :: w ++ d :: t)
    (hb : isBlank c = true) (hw : ∀ x ∈ w, isBlank x = true) (hnot : isBlank d = false) :
    left b j = left b (j + 1 + w.length) + 1 := by
  have hrest : b.bytes.drop (j + 1 + w.length) = d :: t := by
    rw [Nat.add_assoc, ← List.drop_drop, hd, Nat.add_comm 1]
    exact List.drop_left' rfl
  rw [left, left, hrest, hd, List.cons_append, firstLine_cons (inLine_of_isBlank hb),
    collapse_false_cons_blank hb, collapse_true, ← firstLine_dropWhile, dropWhile_blanks hw hnot]
  rfl

end Left

/-! ## 5. The loop -/

section Loop

variable {b : InMemory}

/-- What a turn finds at the read position, and what it does there. -/
theorem Position.turn {k i : Nat} {m : Cells Char} (h : Position b k i m) (fuel : Nat) (last : Int)
    (flag : Bool) :
    (left b (k + i) = 0 ∧
      cleanLoop (fuel + 1) m.cells k i last flag = (m.cells, last) ∧
      ∃ m', (cleanTurns (fuel + 1) k i last flag).run m = .ok (last, m') ∧ m'.cells = m.cells ∧
        Tidy b.bytes b.text.length m') ∨
    (∃ (i' : Nat) (last' : Int) (flag' : Bool) (m' : Cells Char),
      left b (k + i) = left b (k + 1 + i') + 1 ∧ k + i < k + 1 + i' ∧
      cleanLoop (fuel + 1) m.cells k i last flag = cleanLoop fuel m'.cells (k + 1) i' last' flag' ∧
      (cleanTurns (fuel + 1) k i last flag).run m =
        (intSucc k >>= fun next => cleanTurns fuel next i' last' flag').run m' ∧
      Position b (k + 1) i' m') ∨
    fuel ≤ b.text.length - (k + i) ∧
      (cleanTurns (fuel + 1) k i last flag).run m = .error .fuel := by
  obtain ⟨w, d, t, hd, hw, hnot, hle⟩ := blanks_at h.inside
  cases w with
  | nil =>
    rw [List.nil_append] at hd
    have hcell : m.cells.drop (k + i) = d :: t := h.rest.trans hd
    by_cases hin : inLine d = true
    · obtain ⟨m', hrun, hcells, hp⟩ :=
        h.turn_word hd hin hnot (lt_of_inLine h.inside hd hin) fuel last flag
      refine Or.inr (Or.inl ⟨i, k, false, m', ?_, by omega, ?_, hrun, hp⟩)
      · rw [left_word hd hin hnot]
        congr 2
        omega
      · rw [cleanLoop_word hcell hin hnot, hcells]
    · refine Or.inl ⟨left_stop hd hin, cleanLoop_stop ?_, h.turn_stop hd hin fuel last flag⟩
      rw [hcell, firstLine_cons_of_not hin]
  | cons c w =>
    obtain ⟨hb, hw⟩ := List.forall_mem_cons.mp hw
    rw [List.length_cons] at hle
    rcases h.turn_blank hd hb hw hnot hle fuel last flag with ⟨m', hrun, hcells, hp⟩ | ⟨hfuel, he⟩
    · refine Or.inr (Or.inl ⟨i + w.length, last, true, m', ?_, by omega, ?_, hrun, hp⟩)
      · rw [left_blank hd hb hw hnot]
        congr 2
        omega
      · have hcell : m.cells.drop (k + i) = c :: (w ++ d :: t) := h.rest.trans hd
        obtain ⟨j, hj, heq⟩ := @cleanLoop_blank fuel m.cells _ k i last flag c hcell hb
        -- both read on at the first character behind the run
        have hsame : (m.cells.set k c).drop (k + 1 + (i + w.length)) = d :: t := by
          rw [← hcells, hp.rest]
          have hsum : k + 1 + (i + w.length) = k + i + (c :: w).length := by
            rw [List.length_cons]
            omega
          rw [hsum, ← List.drop_drop, hd]
          exact List.drop_left' rfl
        have hlen := congrArg List.length (hj.trans (dropWhile_blanks hw hnot))
        have hlen' := congrArg List.length hsame
        rw [List.length_drop, List.length_cons] at hlen hlen'
        have hij : j = i + w.length := by omega
        rw [heq, hcells, hij]
    · exact Or.inr (Or.inr ⟨by omega, he⟩)

/-- **The loop**, where `character` stays in its range: it does what `cleanLoop` does, tidily. -/
theorem cleanTurns_ok : ∀ (fuel : Nat) {k i : Nat} {last : Int} {flag : Bool} {m : Cells Char},
    Position b k i m → b.text.length - (k + i) + 1 < fuel → (k : Int) + left b (k + i) ≤ INT_MAX →
    ∃ m', (cleanTurns fuel k i last flag).run m =
        .ok ((cleanLoop fuel m.cells k i last flag).2, m') ∧
      m'.cells = (cleanLoop fuel m.cells k i last flag).1 ∧ Tidy b.bytes b.text.length m'
  | 0, _, _, _, _, _, _, hfuel, _ => absurd hfuel (Nat.not_lt_zero _)
  | fuel + 1, k, i, last, flag, m, h, hfuel, hroom => by
    rcases h.turn fuel last flag with ⟨_, hloop, hstop⟩ | ⟨i', last', flag', m', hleft, hlt, hloop,
      hrun, hp⟩ | ⟨hshort, _⟩
    · rw [hloop]
      exact hstop
    · have hnext : (k : Int) < INT_MAX := by omega
      have hin := hp.inside
      obtain ⟨m'', hok, hcells, htidy⟩ := @cleanTurns_ok fuel _ _ last' flag' m' hp
        (by omega) (by omega)
      rw [hloop]
      refine ⟨m'', ?_, hcells, htidy⟩
      rw [hrun, bind_ok (intSucc_ok hnext), ← Int.natCast_succ]
      exact hok
    · omega

/-- Where `character` would leave its range, no fuel makes the loop return. -/
theorem cleanTurns_overflow : ∀ (fuel : Nat) {k i : Nat} {last : Int} {flag : Bool}
    {m : Cells Char}, Position b k i m → (k : Int) ≤ INT_MAX →
    INT_MAX < (k : Int) + left b (k + i) →
    ∃ e, (cleanTurns fuel k i last flag).run m = .error e
  | 0, _, _, _, _, _, _, _, _ => ⟨.fuel, rfl⟩
  | fuel + 1, k, i, last, flag, m, h, hk, hroom => by
    rcases h.turn fuel last flag with ⟨hnone, _⟩ | ⟨i', last', flag', m', hleft, hlt, hloop, hrun,
      hp⟩ | ⟨_, he⟩
    · omega
    · rw [hrun]
      by_cases hnext : (k : Int) < INT_MAX
      · obtain ⟨e, he⟩ := @cleanTurns_overflow fuel _ _ last' flag' m' hp (by omega)
          (by omega)
        refine ⟨e, ?_⟩
        rw [bind_ok (intSucc_ok hnext), ← Int.natCast_succ]
        exact he
      · exact ⟨_, bind_error (intSucc_overflow (by omega))⟩
    · exact ⟨_, he⟩

end Loop

/-! ## 6. `clean` -/

section Run

variable {b : InMemory}

/-- A buffer that has only been read. -/
theorem Position.of_cells {k i : Nat} {m : Cells Char} (h : Tidy b.bytes b.text.length m)
    (hcells : m.cells = b.bytes) (hin : k + i ≤ b.text.length) : Position b k i m := by
  refine ⟨h, ?_, ?_, hin⟩
  · rw [hcells]
  · rw [hcells]

theorem neg_one_le_cleanLoop : ∀ (fuel : Nat) {line : List Char} {character i : Nat} {last : Int}
    {flag : Bool}, -1 ≤ last → -1 ≤ (cleanLoop fuel line character i last flag).2
  | 0, _, _, _, _, _, h => h
  | fuel + 1, _, character, _, _, _, h => by
    rw [cleanLoop]
    split
    · exact h
    · dsimp only
      split
      · exact neg_one_le_cleanLoop fuel h
      · exact neg_one_le_cleanLoop fuel (by omega)

/-- The two loops in front: the length of the line, and the blanks that it begins with. -/
theorem cleanRun_front (b : InMemory) (fuel : Nat) :
    (∃ i m, b.bytes.drop i = b.bytes.dropWhile isBlank ∧ m.cells = b.bytes ∧ Position b 0 i m ∧
      (cleanRun fuel).run ⟨b.bytes, []⟩ = (cleanTurns fuel (0 : Nat) i (-1) false >>= fun last =>
        intSucc last >>= fun cut => setLine cut '\x00').run m) ∨
    fuel ≤ b.text.length ∧ (cleanRun fuel).run ⟨b.bytes, []⟩ = .error .fuel := by
  have hstart : Position b 0 0 ⟨b.bytes, []⟩ := .of_cells (tidy_start _ _) rfl (Nat.zero_le _)
  have hword : ∀ c ∈ b.text, (c != '\x00') = true := by
    intro c hc
    rw [bne_iff_ne]
    rintro rfl
    exact b.noNul hc
  obtain ⟨w, d, t, hd, hw, hnot, hle⟩ := blanks_at (Nat.zero_le b.text.length)
  have hskip : b.bytes.drop w.length = b.bytes.dropWhile isBlank := by
    rw [List.drop_zero] at hd
    rw [hd, dropWhile_blanks hw hnot]
    exact List.drop_left' rfl
  -- in front of both loops the two indices are 0
  have hzero : ((0 : Nat) : Int) = 0 := rfl
  rcases hstart.advance_run (p := fun c => c != '\x00') rfl fuel rfl hword (by omega) with
    ⟨m₁, h₁, hc₁, hp₁⟩ | ⟨hfuel, he⟩
  · rw [hzero] at h₁
    have hagain : Position b 0 0 m₁ := .of_cells hp₁.tidy hc₁ (Nat.zero_le _)
    rcases hagain.advance_run hnot fuel hd hw (by omega) with ⟨m₂, h₂, hc₂, hp₂⟩ | ⟨hfuel, he⟩
    · rw [hzero] at h₂
      refine Or.inl ⟨w.length, m₂, hskip, hc₂.trans hc₁, hp₂.later (by omega) (by omega), ?_⟩
      rw [cleanRun, bind_ok h₁, bind_ok h₂, Nat.zero_add]
      rfl
    · rw [hzero] at he
      exact Or.inr ⟨by omega, by rw [cleanRun, bind_ok h₁, bind_error he]⟩
  · rw [hzero] at he
    exact Or.inr ⟨hfuel, by rw [cleanRun, bind_error he]⟩

theorem left_eq_copied {i : Nat} (h : b.bytes.drop i = b.bytes.dropWhile isBlank) :
    left b i = copied b.text := by
  rw [left, h, firstLine_dropWhile, ← collapse_true, InMemory.bytes, firstLine_append_nul, copied]

/-- The text that is left ends inside the string, and is no longer than what was copied. -/
theorem length_normal_le (s : List Char) :
    (squeeze isBlank (firstLine s)).length ≤ s.length ∧
      (squeeze isBlank (firstLine s)).length ≤ copied s :=
  ⟨(length_squeeze_le _).trans (List.takeWhile_sublist _).length_le,
    length_squeezeFrom_le_collapse false (firstLine s)⟩

/-- **A run that copies no more than an `int` counts** ends, and leaves the normal form. -/
theorem cleanRun_ok (h : (copied b.text : Int) ≤ INT_MAX) :
    ∃ m, (cleanRun (b.bytes.length + 1)).run ⟨b.bytes, []⟩ = .ok ((), m) ∧ CleansInPlace b m := by
  have hbytes := b.length_bytes
  obtain ⟨hinside, hcopied⟩ := length_normal_le b.text
  rcases cleanRun_front b (b.bytes.length + 1) with ⟨i, m, hi, hcells, hp, hrun⟩ | ⟨hshort, _⟩
  · obtain ⟨m', hturns, hcells', htidy⟩ := @cleanTurns_ok b (b.bytes.length + 1) 0 i (-1) false m hp
      (by omega) (by rw [Nat.zero_add, left_eq_copied hi]; omega)
    rw [hcells] at hturns hcells'
    obtain ⟨hcut, hnormal⟩ := @cut_cleanLoop b.text b.behind (b.bytes.length + 1) i
      (Nat.le_succ _) hi
    have hlow := @neg_one_le_cleanLoop (b.bytes.length + 1) b.bytes 0 i (-1) false
      (Int.le_refl (-1))
    have hlen : m'.cells.length = b.bytes.length := by
      rw [hcells', length_cleanLoop]
    rw [← InMemory.bytes] at hcut hnormal
    generalize cleanLoop (b.bytes.length + 1) b.bytes 0 i (-1) false = r at *
    obtain ⟨m'', hwrite, hcells'', htidy'⟩ :=
      htidy.write Stop.outside (k := (r.2 + 1).toNat) (by omega) (by omega) '\x00'
    have hset : (setLine (r.2 + 1) '\x00').run m' = .ok ((), m'') := by
      rw [setLine, if_pos (by omega)]
      exact hwrite
    refine ⟨m'', ?_, htidy'.within, htidy'.unspoiled, ?_, ?_⟩
    · rw [hrun, bind_ok hturns, bind_ok (intSucc_ok (by omega)), hset]
    · rw [hcells'', hcells']
      exact hnormal
    · rw [htidy'.beyond, InMemory.bytes, ← List.drop_drop, List.drop_left' rfl]
      rfl
  · omega

/-- **A run that would copy more** never ends well.  The index `character` leaves the range of its
type before the line is read to its end. -/
theorem cleanRun_overflow (h : INT_MAX < (copied b.text : Int)) (fuel : Nat) :
    ∃ e, (cleanRun fuel).run ⟨b.bytes, []⟩ = .error e := by
  rcases cleanRun_front b fuel with ⟨i, m, hi, hcells, hp, hrun⟩ | ⟨_, he⟩
  · obtain ⟨e, he⟩ := @cleanTurns_overflow b fuel 0 i (-1) false m hp (by decide)
      (by rw [Nat.zero_add, left_eq_copied hi]; omega)
    exact ⟨e, hrun.trans (bind_error he)⟩
  · exact ⟨_, he⟩

end Run

/-- **When `clean` works in place**: it ends, tidily, with the normal form in the buffer.  The
function reads ahead of the place where it writes, in one array, and counts with three integers of
two types.  The only bound is that of `character`, an `int` that counts what is copied while the
text is counted by a `size_t`; all smaller texts are cleaned, whatever stands in them. -/
theorem cleans_in_place_iff (b : InMemory) :
    (∃ fuel m, (cleanRun fuel).run ⟨b.bytes, []⟩ = .ok ((), m) ∧ CleansInPlace b m) ↔
      (copied b.text : Int) ≤ INT_MAX := by
  constructor
  · rintro ⟨fuel, m, hrun, _⟩
    by_contra hover
    obtain ⟨e, he⟩ := cleanRun_overflow (Int.not_le.mp hover) fuel
    rw [hrun] at he
    cases he
  · intro h
    obtain ⟨m, hrun, hm⟩ := cleanRun_ok h
    exact ⟨_, m, hrun, hm⟩

/-- A word is copied as it is. -/
theorem copied_replicate (n : Nat) {c : Char} (hin : inLine c = true) (hb : isBlank c = false) :
    copied (List.replicate n c) = n := by
  have hline : ∀ x ∈ List.replicate n c, inLine x = true := by
    intro x hx
    rw [List.eq_of_mem_replicate hx, hin]
  have hword : ∀ x ∈ List.replicate n c, isBlank x = false := by
    intro x hx
    rw [List.eq_of_mem_replicate hx, hb]
  rw [copied, firstLine, List.takeWhile_eq_self_iff.mpr hline, collapse_of_notBlank hword]
  exact List.length_replicate

/-- A line of 2 GiB of one letter. -/
def longLine (c : Char) (hc : '\x00' ≠ c) : InMemory where
  text := List.replicate (2 ^ 31) c
  behind := []
  noNul := fun h => hc (List.eq_of_mem_replicate h)
  size := by
    rw [List.length_replicate]
    decide

/-- `character` leaves its range on it, unless the letter is a blank or the newline. -/
theorem longLine_overflow {c : Char} (hc : '\x00' ≠ c) (hin : inLine c = true)
    (hb : isBlank c = false) : INT_MAX < (copied (longLine c hc).text : Int) := by
  have hcopied : copied (longLine c hc).text = 2 ^ 31 := copied_replicate _ hin hb
  rw [hcopied]
  decide

/-- A line of 2 GiB without a blank is not cleaned. -/
theorem character_overflows :
    ¬ ∃ fuel m, (cleanRun fuel).run ⟨(longLine 'a' (by decide)).bytes, []⟩ = .ok ((), m) ∧
      CleansInPlace (longLine 'a' (by decide)) m := by
  rintro ⟨fuel, m, hrun, _⟩
  obtain ⟨e, he⟩ := cleanRun_overflow (@longLine_overflow 'a' (by decide) rfl rfl) fuel
  rw [hrun] at he
  cases he

end Osexp.Seush
