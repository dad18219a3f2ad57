/-
# A text taken apart at its marks

Some elements of a list are marks.  `lead` is what stands before the first one, and `marks` are the
marks in their order, each with what stands behind it up to the next one.  Together they are the
list again (`lead_append_unmark`), and a scan that stops at every mark stays within one part
(`takeWhile_append_unmark`).

This is the shape of a command line with operators in it: words, and then each operator with what it
applies to.  A scanner that stops at operators never sees more than one part at a time, so what it
does can be said part by part, and what it has not looked at is named by the parts that are left.

The marks are given by a predicate, over any type of elements.
-/
import Mathlib.Data.List.TakeWhile

namespace Marks

variable {α : Type*} {p q : α → Bool}

/-- What stands before the first mark. -/
def lead (p : α → Bool) (s : List α) : List α := s.takeWhile (fun c => !p c)

/-- The marks, each with what stands behind it. -/
def marks (p : α → Bool) : List α → List (α × List α)
  | [] => []
  | c :: s => if p c then (c, lead p s) :: marks p s else marks p s

def unmark (ms : List (α × List α)) : List α := ms.flatMap (fun m => m.1 :: m.2)

@[simp] theorem unmark_nil : unmark ([] : List (α × List α)) = [] := rfl

theorem unmark_cons (m : α × List α) (ms : List (α × List α)) :
    unmark (m :: ms) = m.1 :: (m.2 ++ unmark ms) := rfl

/-- **Nothing is lost.** -/
theorem lead_append_unmark (p : α → Bool) (s : List α) : lead p s ++ unmark (marks p s) = s := by
  induction s with
  | nil => rfl
  | cons c s ih =>
    by_cases hc : p c = true
    · rw [lead, List.takeWhile_cons_of_neg (by simp [hc]), marks, if_pos hc, unmark_cons, ih]
      rfl
    · rw [lead, List.takeWhile_cons_of_pos (by simp [hc]), marks, if_neg hc, List.cons_append]
      exact congrArg (c :: ·) ih

theorem not_mark_lead (s : List α) : ∀ c ∈ lead p s, p c = false := by
  intro c hc
  have hnot := List.mem_takeWhile_imp hc
  simpa using hnot

/-- A mark is one, and there is none in what stands behind it. -/
theorem mem_marks {s : List α} {m : α × List α} (h : m ∈ marks p s) :
    p m.1 = true ∧ ∀ c ∈ m.2, p c = false := by
  induction s with
  | nil => cases h
  | cons c s ih =>
    rw [marks] at h
    split at h
    · rename_i hc
      rcases List.mem_cons.mp h with rfl | h
      · exact ⟨hc, not_mark_lead s⟩
      · exact ih h
    · exact ih h

/-- **A scan that stops at every mark** takes of a part what it takes of the whole. -/
theorem takeWhile_append_unmark (hq : ∀ c, p c = true → q c = false) {ms : List (α × List α)}
    (hms : ∀ m ∈ ms, p m.1 = true) (u : List α) :
    (u ++ unmark ms).takeWhile q = u.takeWhile q ∧
      (u ++ unmark ms).dropWhile q = u.dropWhile q ++ unmark ms := by
  induction u with
  | nil =>
    cases ms with
    | nil => exact ⟨rfl, rfl⟩
    | cons m ms =>
      have hm : ¬ q m.1 = true := by
        rw [hq m.1 (hms m List.mem_cons_self)]
        exact Bool.false_ne_true
      rw [unmark_cons, List.nil_append]
      exact ⟨List.takeWhile_cons_of_neg hm, List.dropWhile_cons_of_neg hm⟩
  | cons c u ih =>
    by_cases hc : q c = true
    · rw [List.cons_append, List.takeWhile_cons_of_pos hc, List.takeWhile_cons_of_pos hc,
        List.dropWhile_cons_of_pos hc, List.dropWhile_cons_of_pos hc]
      exact ⟨congrArg (c :: ·) ih.1, ih.2⟩
    · rw [List.cons_append, List.takeWhile_cons_of_neg hc, List.takeWhile_cons_of_neg hc,
        List.dropWhile_cons_of_neg hc, List.dropWhile_cons_of_neg hc]
      exact ⟨rfl, rfl⟩

end Marks
