/-
# A loop over a list that changes between its turns

A loop stands at an element, or before the first one, and each turn goes to the next element.
Between two turns elements may leave the list and new ones may come at its end; only the element at
which the loop stands has to stay, since the loop finds the next one from there.

Whatever happens to the list, the elements behind the loop (`Passed`) are those it has been at and
that are still there, and at the end they are all (`passed_last`).

That is how a kernel list is walked without a lock.  A loop that is written as if it saw one list
has seen pieces of many, and it is not clear what can be said at its end of the elements it has met.
The answer is about the elements that are there at the end, and not about those of any one moment
before: each of them has been passed once.
-/
import Mathlib.Data.List.Basic
import Mathlib.Data.List.Nodup
import Mathlib.Data.List.TakeWhile

namespace Walk

variable {α : Type*}

/-! ## 1. What is before the loop and what is behind it -/

/-- The loop stands at an element of the list, or has not begun. -/
def Stands (xs : List α) (stand : Option α) : Prop := ∀ s ∈ stand, s ∈ xs

theorem stands_none {xs : List α} : Stands xs none := by
  rintro s ⟨⟩

theorem stands_some {xs : List α} {y : α} (h : y ∈ xs) : Stands xs (some y) := by
  intro s hs
  exact Option.mem_some.mp hs ▸ h

/-- The element at which the loop stands is still there after a change that leaves it. -/
theorem Stands.change {xs ys : List α} {stand : Option α} (h : Stands xs stand) {p : α → Bool}
    (hp : ∀ s ∈ stand, p s = true) : Stands (xs.filter p ++ ys) stand :=
  fun s hs => List.mem_append_left _ (List.mem_filter.mpr ⟨h s hs, hp s hs⟩)

variable [DecidableEq α]

/-- The elements that the loop has still to come to. -/
def ahead (xs : List α) : Option α → List α
  | none => xs
  | some s => (xs.dropWhile (fun x => x != s)).tail

/-- The element is behind the loop, or the one at which it stands. -/
def Passed (xs : List α) (stand : Option α) (x : α) : Prop := x ∈ xs ∧ x ∉ ahead xs stand

instance (xs : List α) : ∀ stand : Option α, Decidable (Stands xs stand)
  | none => isTrue (by rintro s ⟨⟩)
  | some s => decidable_of_iff (s ∈ xs)
    ⟨fun h t ht => Option.mem_some.mp ht ▸ h, fun h => h s rfl⟩

instance (xs : List α) (stand : Option α) (x : α) : Decidable (Passed xs stand x) :=
  inferInstanceAs (Decidable (_ ∧ _))

variable {xs ys : List α} {stand : Option α} {x y : α}

/-- A loop that has not begun has passed nothing, -/
theorem not_passed_none : ¬ Passed xs none x := fun h => h.2 h.1

/-- and one that has come to the end everything. -/
theorem passed_last (h : ahead xs stand = []) : Passed xs stand x ↔ x ∈ xs := by
  rw [Passed, h]
  simp

theorem mem_of_mem_ahead (h : x ∈ ahead xs stand) : x ∈ xs := by
  cases stand with
  | none => exact h
  | some s => exact (List.dropWhile_sublist _).subset (List.mem_of_mem_tail h)

/-! ## 2. The next turn -/

/-- **The loop goes on**: the element it comes to is behind it now. -/
theorem ahead_next (hnd : xs.Nodup) (h : ahead xs stand = y :: ys) : ahead xs (some y) = ys := by
  obtain ⟨before, hxs⟩ : ∃ before, xs = before ++ y :: ys := by
    cases stand with
    | none => exact ⟨[], h⟩
    | some s =>
      rw [ahead] at h
      cases hd : xs.dropWhile (fun x => x != s) with
      | nil =>
        rw [hd] at h
        cases h
      | cons x rest =>
        rw [hd, List.tail_cons] at h
        refine ⟨xs.takeWhile (fun x => x != s) ++ [x], ?_⟩
        rw [List.append_assoc, List.singleton_append, ← h, ← hd, List.takeWhile_append_dropWhile]
  have hbefore : ∀ z ∈ before, (z != y) = true := by
    intro z hz
    rw [hxs] at hnd
    have hne := (List.nodup_append.mp hnd).2.2 z hz y List.mem_cons_self
    exact bne_iff_ne.mpr hne
  rw [ahead, hxs, List.dropWhile_append_of_pos hbefore, List.dropWhile_cons_of_neg (by simp),
    List.tail_cons]

theorem passed_next (hnd : xs.Nodup) (h : ahead xs stand = y :: ys) :
    Passed xs (some y) x ↔ Passed xs stand x ∨ x = y := by
  have hy : y ∈ xs := mem_of_mem_ahead (h ▸ List.mem_cons_self)
  have hrest : y ∉ ys := by
    have hsub : (ahead xs stand).Nodup := by
      cases stand with
      | none => exact hnd
      | some s => exact hnd.sublist ((List.tail_sublist _).trans (List.dropWhile_sublist _))
    rw [h] at hsub
    exact (List.nodup_cons.mp hsub).1
  rw [Passed, Passed, ahead_next hnd h, h, List.mem_cons]
  constructor
  · rintro ⟨hx, hno⟩
    by_cases heq : x = y
    · exact Or.inr heq
    · exact Or.inl ⟨hx, fun hmem => hmem.elim heq hno⟩
  · rintro (⟨hx, hno⟩ | rfl)
    · exact ⟨hx, fun hmem => hno (Or.inr hmem)⟩
    · exact ⟨hy, hrest⟩

/-! ## 3. The list changes -/

theorem ahead_filter {p : α → Bool} (hp : ∀ s ∈ stand, p s = true) :
    ahead (xs.filter p) stand = (ahead xs stand).filter p := by
  cases stand with
  | none => rfl
  | some s =>
    have hs : p s = true := hp s rfl
    rw [ahead, ahead]
    induction xs with
    | nil => rfl
    | cons x xs ih =>
      by_cases hx : x = s
      · rw [hx, List.filter_cons_of_pos hs, List.dropWhile_cons_of_neg (by simp),
          List.dropWhile_cons_of_neg (by simp), List.tail_cons, List.tail_cons]
      · have hne : (x != s) = true := bne_iff_ne.mpr hx
        rw [List.dropWhile_cons_of_pos (p := fun x => x != s) hne, ← ih]
        by_cases hpx : p x = true
        · rw [List.filter_cons_of_pos hpx, List.dropWhile_cons_of_pos (p := fun x => x != s) hne]
        · rw [List.filter_cons_of_neg hpx]

theorem ahead_append (h : Stands xs stand) : ahead (xs ++ ys) stand = ahead xs stand ++ ys := by
  cases stand with
  | none => rfl
  | some s =>
    have hs : s ∈ xs := h s rfl
    rw [ahead, ahead]
    have hne : xs.dropWhile (fun x => x != s) ≠ [] := by
      intro hnil
      have hall := List.dropWhile_eq_nil_iff.mp hnil s hs
      simp at hall
    obtain ⟨x, rest, hd⟩ := List.exists_cons_of_ne_nil hne
    rw [List.dropWhile_append, hd]
    rfl

/-- **A change of the list** moves nothing past the loop: what is behind it is what was, as far as
it has stayed. -/
theorem passed_change (h : Stands xs stand) {p : α → Bool} (hp : ∀ s ∈ stand, p s = true) :
    Passed (xs.filter p ++ ys) stand x ↔ Passed xs stand x ∧ p x = true ∧ x ∉ ys := by
  have hfilter : Stands (xs.filter p) stand :=
    fun s hs => List.mem_filter.mpr ⟨h s hs, hp s hs⟩
  rw [Passed, ahead_append hfilter, ahead_filter hp, Passed]
  simp only [List.mem_append, List.mem_filter]
  tauto

end Walk
