/-
# Integers written in decimal

A number is one or more digits, with or without a newline behind them; an integer has a sign in
front or none.  `ReadsNat` and `Reads` are these two languages, each with the value of its texts.
They are decided by `readNat` and `read`, so a text has one value at most.

`readsNat_digits_append` is for a text that is followed by something else, such as what a buffer
held before: the number is still read exactly when what follows adds nothing to it.

The languages are relations (a text reads as a value), because that is how a parser is documented;
the deciding functions are there so that examples can be computed.  They agree
(`readNat_eq_some_iff`, `read_eq_some_iff`), and no proof needs to look into the functions.
-/
import Mathlib.Data.Nat.Basic
import Mathlib.Data.List.TakeWhile

namespace IntText

/-! ## 1. The languages -/

/-- The value of a run of digits. -/
def value (ds : List Char) : Nat := Nat.ofDigitChars 10 ds 0

/-- One or more digits, and at most one newline. -/
inductive ReadsNat : List Char → Nat → Prop
  | plain {ds : List Char} : ds ≠ [] → (∀ c ∈ ds, c.isDigit = true) → ReadsNat ds (value ds)
  | line {ds : List Char} : ds ≠ [] → (∀ c ∈ ds, c.isDigit = true) →
      ReadsNat (ds ++ ['\n']) (value ds)

/-- The same with a sign or without. -/
inductive Reads : List Char → Int → Prop
  | unsigned {s : List Char} {n : Nat} : ReadsNat s n → Reads s n
  | plus {s : List Char} {n : Nat} : ReadsNat s n → Reads ('+' :: s) n
  | minus {s : List Char} {n : Nat} : ReadsNat s n → Reads ('-' :: s) (-n)

/-! ## 2. Reading -/

/-- What may stand behind the digits. -/
def isEnd (s : List Char) : Bool := s == [] || s == ['\n']

def readNat (s : List Char) : Option Nat :=
  if (s.takeWhile Char.isDigit).isEmpty then none
  else if isEnd (s.dropWhile Char.isDigit) then some (value (s.takeWhile Char.isDigit))
  else none

def read : List Char → Option Int
  | [] => none
  | c :: s =>
    if c = '-' then (readNat s).map (fun n : Nat => -(n : Int))
    else if c = '+' then (readNat s).map Int.ofNat
    else (readNat (c :: s)).map Int.ofNat

section Read

variable {s t ds : List Char} {n : Nat} {v : Int}

theorem isEnd_iff : isEnd s = true ↔ s = [] ∨ s = ['\n'] := by
  simp [isEnd]

/-- Digits and an end are taken apart at the border. -/
theorem takeWhile_isDigit (hds : ∀ c ∈ ds, c.isDigit = true) (ht : isEnd t = true) :
    (ds ++ t).takeWhile Char.isDigit = ds ∧ (ds ++ t).dropWhile Char.isDigit = t := by
  rw [List.takeWhile_append_of_pos hds, List.dropWhile_append_of_pos hds]
  rcases isEnd_iff.mp ht with rfl | rfl
  · exact ⟨List.append_nil ds, rfl⟩
  · exact ⟨List.append_nil ds, rfl⟩

theorem readNat_of_digits (hne : ds ≠ []) (hds : ∀ c ∈ ds, c.isDigit = true)
    (ht : isEnd t = true) : readNat (ds ++ t) = some (value ds) := by
  obtain ⟨htake, hdrop⟩ := takeWhile_isDigit hds ht
  rw [readNat, htake, hdrop, if_neg (by simpa using hne), if_pos ht]

/-- **`readNat` decides `ReadsNat`.** -/
theorem readNat_eq_some_iff : readNat s = some n ↔ ReadsNat s n := by
  constructor
  · intro h
    have hall : ∀ c ∈ s.takeWhile Char.isDigit, c.isDigit = true :=
      fun c hc => List.mem_takeWhile_imp hc
    have hsplit : s.takeWhile Char.isDigit ++ s.dropWhile Char.isDigit = s :=
      List.takeWhile_append_dropWhile
    unfold readNat at h
    split at h
    · cases h
    · rename_i hne
      split at h
      · rename_i hend
        cases h
        have hne : s.takeWhile Char.isDigit ≠ [] := by simpa using hne
        rcases isEnd_iff.mp hend with hnil | hline
        · rw [hnil, List.append_nil] at hsplit
          rw [hsplit] at hne hall ⊢
          exact .plain hne hall
        · rw [hline] at hsplit
          have hread := ReadsNat.line hne hall
          rwa [hsplit] at hread
      · cases h
  · rintro (⟨hne, hds⟩ | ⟨hne, hds⟩)
    · have hread := readNat_of_digits hne hds (isEnd_iff.mpr (Or.inl rfl))
      rwa [List.append_nil] at hread
    · exact readNat_of_digits hne hds (isEnd_iff.mpr (Or.inr rfl))

/-- A number has a digit in front. -/
theorem ReadsNat.head {c : Char} (h : ReadsNat (c :: s) n) : c.isDigit = true := by
  have hread := readNat_eq_some_iff.mpr h
  unfold readNat at hread
  by_contra hc
  rw [List.takeWhile_cons_of_neg hc] at hread
  cases hread

theorem not_readsNat_nil : ¬ ReadsNat [] n := by
  intro h
  cases readNat_eq_some_iff.mpr h

/-- **`read` decides `Reads`.** -/
theorem read_eq_some_iff : read s = some v ↔ Reads s v := by
  constructor
  · intro h
    unfold read at h
    split at h
    · cases h
    · split at h
      · rename_i hc
        obtain ⟨n, hn, rfl⟩ := Option.map_eq_some_iff.mp h
        rw [hc]
        exact .minus (readNat_eq_some_iff.mp hn)
      · split at h
        · rename_i hc
          obtain ⟨n, hn, rfl⟩ := Option.map_eq_some_iff.mp h
          rw [hc]
          exact .plus (readNat_eq_some_iff.mp hn)
        · obtain ⟨n, hn, rfl⟩ := Option.map_eq_some_iff.mp h
          exact .unsigned (readNat_eq_some_iff.mp hn)
  · rintro (h | h | h)
    · cases s with
      | nil => exact absurd h not_readsNat_nil
      | cons c s =>
        have hc := h.head
        have hminus : c ≠ '-' := by
          rintro rfl
          cases hc
        have hplus : c ≠ '+' := by
          rintro rfl
          cases hc
        rw [read, if_neg hminus, if_neg hplus, readNat_eq_some_iff.mpr h]
        rfl
    · rw [read, if_neg (by decide), if_pos rfl, readNat_eq_some_iff.mpr h]
      rfl
    · rw [read, if_pos rfl, readNat_eq_some_iff.mpr h]
      rfl

/-- Without a sign the text is a number. -/
theorem reads_iff_of_head {c : Char} (hc : c.isDigit = true) :
    Reads (c :: s) (n : Int) ↔ ReadsNat (c :: s) n := by
  have hminus : c ≠ '-' := by
    rintro rfl
    cases hc
  have hplus : c ≠ '+' := by
    rintro rfl
    cases hc
  rw [← read_eq_some_iff, read, if_neg hminus, if_neg hplus, ← readNat_eq_some_iff,
    Option.map_eq_some_iff]
  constructor
  · rintro ⟨m, hm, hcast⟩
    rw [hm, Int.ofNat_inj.mp hcast]
  · exact fun h => ⟨n, h, rfl⟩

theorem reads_minus_iff : Reads ('-' :: s) (-(n : Int)) ↔ ReadsNat s n := by
  rw [← read_eq_some_iff, read, if_pos rfl, ← readNat_eq_some_iff, Option.map_eq_some_iff]
  constructor
  · rintro ⟨m, hm, hcast⟩
    rw [hm, Int.ofNat_inj.mp (Int.neg_inj.mp hcast)]
  · exact fun h => ⟨n, h, rfl⟩

/-- The letters of the language. -/
def isLetter (c : Char) : Bool := c.isDigit || c == '+' || c == '-' || c == '\n'

theorem ReadsNat.isLetter (h : ReadsNat s n) : ∀ c ∈ s, isLetter c = true := by
  have hdigit : ∀ c : Char, c.isDigit = true → IntText.isLetter c = true := by
    intro c hc
    simp [IntText.isLetter, hc]
  cases h with
  | plain _ hds => exact fun c hc => hdigit c (hds c hc)
  | line _ hds =>
    intro c hc
    rcases List.mem_append.mp hc with hc | hc
    · exact hdigit c (hds c hc)
    · rw [List.mem_singleton.mp hc]
      rfl

theorem Reads.isLetter (h : Reads s v) : ∀ c ∈ s, isLetter c = true := by
  cases h with
  | unsigned h => exact h.isLetter
  | plus h => exact List.forall_mem_cons.mpr ⟨rfl, h.isLetter⟩
  | minus h => exact List.forall_mem_cons.mpr ⟨rfl, h.isLetter⟩

end Read

/-! ## 3. A number with something behind it -/

/-- What may follow the digits of `n` without a change of the number: digits that add nothing, and a
newline. -/
def AddsNothing (n : Nat) (s : List Char) : Prop :=
  ∃ zeros nl, s = zeros ++ nl ∧ isEnd nl = true ∧ (∀ c ∈ zeros, c = '0') ∧ (n ≠ 0 → zeros = [])

section Append

variable {s t ds : List Char} {n : Nat}

/-- Digits behind a number leave it as it is only if there are none, or all are zeros behind 0. -/
theorem ofDigitChars_eq_self_iff (hds : ∀ c ∈ ds, c.isDigit = true) :
    Nat.ofDigitChars 10 ds n = n ↔ (∀ c ∈ ds, c = '0') ∧ (n ≠ 0 → ds = []) := by
  induction ds generalizing n with
  | nil => simp
  | cons d ds ih =>
    obtain ⟨hd, htail⟩ := List.forall_mem_cons.mp hds
    rw [Nat.ofDigitChars_cons, List.forall_mem_cons]
    have hsplit := @Nat.ofDigitChars_eq_ofDigitChars_zero ds (10 * n + (d.toNat - '0'.toNat))
    have hpow : 1 ≤ 10 ^ ds.length := Nat.one_le_pow _ _ (by decide)
    have hle : 10 * n + (d.toNat - '0'.toNat) ≤
        10 ^ ds.length * (10 * n + (d.toNat - '0'.toNat)) := Nat.le_mul_of_pos_left _ hpow
    constructor
    · intro h
      have hn : n = 0 := by omega
      subst hn
      have hzero : d.toNat - '0'.toNat = 0 := by omega
      rw [hzero] at h
      refine ⟨⟨?_, ((ih htail).mp h).1⟩, fun hne => absurd rfl hne⟩
      have hge : 48 ≤ d.toNat := by
        simp only [Char.isDigit, Bool.and_eq_true, decide_eq_true_eq] at hd
        exact hd.1
      have h48 : ('0' : Char).toNat = 48 := rfl
      exact Char.toNat_inj.mp (by omega)
    · rintro ⟨⟨rfl, hzeros⟩, hn⟩
      have hn : n = 0 := by
        by_contra hne
        cases hn hne
      subst hn
      exact (ih htail).mpr ⟨hzeros, fun hne => absurd rfl hne⟩

/-- **A number and what follows it** read as the number exactly when what follows adds nothing. -/
theorem readsNat_digits_append :
    ReadsNat (Nat.toDigits 10 n ++ t) n ↔ AddsNothing n t := by
  have hdigits : ∀ c ∈ Nat.toDigits 10 n, c.isDigit = true :=
    fun c hc => Nat.isDigit_of_mem_toDigits (by decide) (by decide) hc
  have hvalue : ∀ ds, value (Nat.toDigits 10 n ++ ds) = Nat.ofDigitChars 10 ds n := by
    intro ds
    rw [value, Nat.ofDigitChars_append, Nat.ofDigitChars_ten_toDigits]
  constructor
  · intro h
    have hread := readNat_eq_some_iff.mpr h
    unfold readNat at hread
    rw [List.takeWhile_append_of_pos hdigits, List.dropWhile_append_of_pos hdigits] at hread
    split at hread
    · cases hread
    · split at hread
      · rename_i hend
        have hsame := Option.some.inj hread
        rw [hvalue] at hsame
        obtain ⟨hzeros, hnone⟩ :=
          (ofDigitChars_eq_self_iff fun c hc => List.mem_takeWhile_imp hc).mp hsame
        exact ⟨_, _, List.takeWhile_append_dropWhile.symm, hend, hzeros, hnone⟩
      · cases hread
  · rintro ⟨zeros, nl, rfl, hend, hzeros, hnone⟩
    have hzdigits : ∀ c ∈ zeros, c.isDigit = true := by
      intro c hc
      rw [hzeros c hc]
      rfl
    have hall : ∀ c ∈ Nat.toDigits 10 n ++ zeros, c.isDigit = true := by
      intro c hc
      exact (List.mem_append.mp hc).elim (hdigits c) (hzdigits c)
    have hne : Nat.toDigits 10 n ++ zeros ≠ [] := by
      simp [Nat.toDigits_ne_nil]
    rw [← readNat_eq_some_iff, ← List.append_assoc, readNat_of_digits hne hall hend, hvalue,
      (ofDigitChars_eq_self_iff hzdigits).mpr ⟨hzeros, hnone⟩]

end Append

end IntText
