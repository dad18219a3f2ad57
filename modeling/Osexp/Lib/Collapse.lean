/-
# Runs of blanks cut to one

`collapse p b s` keeps of every run of blanks of `s` the first one; the flag says that the text
begins inside a run, so that blanks at its start are dropped.  Unlike `squeeze` it keeps a blank
at the end: it is what a single pass over the text writes before it knows that no word follows.

A part of a text collapses to no more than the text (`length_collapse_sublist`).

The two are needed together where a loop counts what it writes and cuts the result afterwards: the
count is that of `collapse`, the result is `squeeze`, and `length_squeezeFrom_le_collapse` compares
them.  That the count is bounded by the text is what makes a bound for one pass over a text a bound
for every later pass over its parts.
-/
import Osexp.Lib.Text

namespace Text

variable {α : Type*} {p : α → Bool} {b : Bool} {c : α} {s : List α}

/-- The text with every run of blanks cut to its first one. -/
def collapse (p : α → Bool) : Bool → List α → List α
  | _, [] => []
  | b, c :: s =>
    if p c then (if b then collapse p true s else c :: collapse p true s)
    else c :: collapse p false s

theorem collapse_nil (b : Bool) : collapse p b [] = [] := by
  cases b <;> rfl

theorem collapse_cons_of_not (h : p c = false) (b : Bool) (s : List α) :
    collapse p b (c :: s) = c :: collapse p false s := by
  simp [collapse, h]

theorem collapse_false_cons_blank (h : p c = true) (s : List α) :
    collapse p false (c :: s) = c :: collapse p true s := by
  simp [collapse, h]

theorem collapse_true_cons_blank (h : p c = true) (s : List α) :
    collapse p true (c :: s) = collapse p true s := by
  simp [collapse, h]

/-- Behind a run the text goes on with a word. -/
theorem collapse_true (s : List α) : collapse p true s = collapse p false (s.dropWhile p) := by
  induction s with
  | nil => rfl
  | cons c s ih =>
    by_cases hc : p c = true
    · rw [collapse_true_cons_blank hc, List.dropWhile_cons_of_pos hc, ih]
    · have hcf : p c = false := by simpa using hc
      rw [List.dropWhile_cons_of_neg hc, collapse_cons_of_not hcf, collapse_cons_of_not hcf]

/-- A text without blanks stays as it is. -/
theorem collapse_of_notBlank (h : ∀ c ∈ s, p c = false) : collapse p b s = s := by
  induction s generalizing b with
  | nil => exact collapse_nil b
  | cons c s ih =>
    obtain ⟨hc, hs⟩ := List.forall_mem_cons.mp h
    rw [collapse_cons_of_not hc, ih hs]

/-- Inside a run one blank less is kept, if anything. -/
theorem length_collapse_true_le (b : Bool) (s : List α) :
    (collapse p true s).length ≤ (collapse p b s).length := by
  cases b with
  | true => exact Nat.le_refl _
  | false =>
    cases s with
    | nil => exact Nat.le_refl _
    | cons c s =>
      by_cases hc : p c = true
      · rw [collapse_true_cons_blank hc, collapse_false_cons_blank hc]
        exact Nat.le_succ _
      · have hcf : p c = false := by simpa using hc
        rw [collapse_cons_of_not hcf, collapse_cons_of_not hcf]

/-- And outside of one at most one blank more. -/
theorem length_collapse_false_le (b : Bool) (s : List α) :
    (collapse p false s).length ≤ (collapse p b s).length + 1 := by
  cases b with
  | false => exact Nat.le_succ _
  | true =>
    cases s with
    | nil => exact Nat.zero_le _
    | cons c s =>
      by_cases hc : p c = true
      · rw [collapse_false_cons_blank hc, collapse_true_cons_blank hc]
        exact Nat.le_refl _
      · have hcf : p c = false := by simpa using hc
        rw [collapse_cons_of_not hcf, collapse_cons_of_not hcf]
        exact Nat.le_succ _

/-- **A part of a text** collapses to no more than the text, whatever letters have been left out. -/
theorem length_collapse_sublist {s t : List α} (h : s.Sublist t) (b : Bool) :
    (collapse p b s).length ≤ (collapse p b t).length := by
  induction h generalizing b with
  | slnil => exact Nat.le_refl _
  | @cons s t c h ih =>
    by_cases hc : p c = true
    · cases b with
      | true =>
        rw [collapse_true_cons_blank hc]
        exact ih true
      | false =>
        rw [collapse_false_cons_blank hc]
        exact (length_collapse_false_le true s).trans (Nat.succ_le_succ (ih true))
    · rw [collapse_cons_of_not (by simpa using hc), List.length_cons]
      have hword := ih false
      cases b with
      | true => exact ((length_collapse_true_le false s).trans hword).trans (Nat.le_succ _)
      | false => exact hword.trans (Nat.le_succ _)
  | @cons_cons s t c h ih =>
    by_cases hc : p c = true
    · cases b with
      | true =>
        rw [collapse_true_cons_blank hc, collapse_true_cons_blank hc]
        exact ih true
      | false =>
        rw [collapse_false_cons_blank hc, collapse_false_cons_blank hc]
        exact Nat.succ_le_succ (ih true)
    · have hcf : p c = false := by simpa using hc
      rw [collapse_cons_of_not hcf, collapse_cons_of_not hcf]
      exact Nat.succ_le_succ (ih false)

/-- A squeezed text is no longer than the collapsed one. -/
theorem length_squeezeFrom_le_collapse (b : Bool) (s : List α) :
    (squeezeFrom p b s).length ≤ (collapse p (!b) s).length := by
  induction s generalizing b with
  | nil => rw [squeezeFrom_nil]; exact Nat.zero_le _
  | cons c s ih =>
    by_cases hc : p c = true
    · cases b with
      | true =>
        rw [Bool.not_true, collapse_false_cons_blank hc, squeezeFrom, if_pos hc]
        split
        · exact Nat.zero_le _
        · exact Nat.succ_le_succ (ih false)
      | false =>
        rw [Bool.not_false, collapse_true_cons_blank hc, squeezeFrom, if_pos hc]
        exact ih false
    · have hcf : p c = false := by simpa using hc
      rw [squeezeFrom_cons_of_not hcf, collapse_cons_of_not hcf]
      exact Nat.succ_le_succ (ih true)

end Text
