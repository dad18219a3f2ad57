/-
# Descriptor tables

A process sees its open files through small numbers.  A table maps each number to the open file
it refers to, or to nothing; only finitely many numbers are in use.  Duplication shares the open
file under another number, and a new descriptor is always the lowest number that is free.

A table is a function from numbers, with a bound beyond which nothing is open, so that the lowest
free number can be computed.  What programs rely on are the exact numbers: `close(0); dup(fd)` puts
`fd` on descriptor 0 because 0 is then the lowest.  The lemmas on `alloc` say what a new descriptor
changes (one number, which was free) and that everything else stays; `Gains` counts what a longer
computation has opened and not closed.

The type of open files is arbitrary, and so is what may be said of them: `Forall` carries a property
of all open files from one table to the next.
-/
import Mathlib.Data.List.Nodup
import Mathlib.Data.Set.Basic
import Mathlib.Order.Basic

/-- A descriptor table: what each descriptor refers to, with a bound on those in use. -/
structure FdTable (α : Type*) where
  get : Nat → Option α
  bound : Nat
  closed_of_ge : ∀ k, bound ≤ k → get k = none

namespace FdTable

variable {α : Type*}

/-! ## 1. The operations -/

/-- The table in which no descriptor is open. -/
def empty : FdTable α := ⟨fun _ => none, 0, fun _ _ => rfl⟩

/-- The descriptors in use. -/
def openFds (t : FdTable α) : Set Nat := {k | t.get k ≠ none}

/-- Make descriptor `k` refer to `v`, whatever it referred to. -/
def set (t : FdTable α) (k : Nat) (v : α) : FdTable α where
  get := fun j => if j = k then some v else t.get j
  bound := max t.bound (k + 1)
  closed_of_ge := by
    intro j hj
    have hj1 : j ≠ k := by omega
    have hj2 : t.bound ≤ j := by omega
    simp [hj1, t.closed_of_ge j hj2]

/-- Close descriptor `k`. -/
def close (t : FdTable α) (k : Nat) : FdTable α where
  get := fun j => if j = k then none else t.get j
  bound := t.bound
  closed_of_ge := by
    intro j hj
    simp [t.closed_of_ge j hj]

/-- The first free number among `k, .., k + n - 1`, or `k + n`. -/
def lowestFrom (t : FdTable α) : Nat → Nat → Nat
  | 0, k => k
  | n + 1, k => if t.get k = none then k else t.lowestFrom n (k + 1)

/-- The lowest free descriptor. -/
def lowest (t : FdTable α) : Nat := t.lowestFrom t.bound 0

/-- Open `v` on the lowest free descriptor. -/
def alloc (t : FdTable α) (v : α) : FdTable α := t.set t.lowest v

/-! ## 2. Reading a table after an operation -/

@[simp] theorem get_empty (k : Nat) : (empty : FdTable α).get k = none := rfl

theorem get_set (t : FdTable α) (k : Nat) (v : α) (j : Nat) :
    (t.set k v).get j = if j = k then some v else t.get j := rfl

theorem get_close (t : FdTable α) (k j : Nat) :
    (t.close k).get j = if j = k then none else t.get j := rfl

@[simp] theorem get_set_same (t : FdTable α) (k : Nat) (v : α) :
    (t.set k v).get k = some v := by
  simp [get_set]

@[simp] theorem get_close_same (t : FdTable α) (k : Nat) : (t.close k).get k = none := by
  simp [get_close]

theorem get_set_ne (t : FdTable α) {k j : Nat} (v : α) (h : j ≠ k) :
    (t.set k v).get j = t.get j := by
  simp [get_set, h]

theorem get_close_ne (t : FdTable α) {k j : Nat} (h : j ≠ k) :
    (t.close k).get j = t.get j := by
  simp [get_close, h]

@[simp] theorem mem_openFds {t : FdTable α} {k : Nat} : k ∈ t.openFds ↔ t.get k ≠ none :=
  Iff.rfl

/-- Some descriptor refers to `v`. -/
def Refers (t : FdTable α) (v : α) : Prop := ∃ k, t.get k = some v

instance [DecidableEq α] (t : FdTable α) (v : α) : Decidable (t.Refers v) :=
  decidable_of_iff (∃ k ∈ List.range t.bound, t.get k = some v) (by
    constructor
    · rintro ⟨k, _, hk⟩
      exact ⟨k, hk⟩
    · rintro ⟨k, hk⟩
      refine ⟨k, List.mem_range.mpr ?_, hk⟩
      by_contra hge
      rw [t.closed_of_ge k (Nat.le_of_not_lt hge)] at hk
      cases hk)

/-- Everything the table refers to satisfies `P`. -/
def Forall (P : α → Prop) (t : FdTable α) : Prop := ∀ k v, t.get k = some v → P v

theorem Forall.set {P : α → Prop} {t : FdTable α} (h : t.Forall P) {v : α} (hv : P v)
    (k : Nat) : (t.set k v).Forall P := by
  intro j u hj
  rw [get_set] at hj
  split at hj
  · exact Option.some.inj hj ▸ hv
  · exact h j u hj

theorem Forall.close {P : α → Prop} {t : FdTable α} (h : t.Forall P) (k : Nat) :
    (t.close k).Forall P := by
  intro j u hj
  rw [get_close] at hj
  split at hj
  · cases hj
  · exact h j u hj

theorem Forall.mono {P Q : α → Prop} {t : FdTable α} (h : t.Forall P) (hPQ : ∀ v, P v → Q v) :
    t.Forall Q :=
  fun k v hk => hPQ v (h k v hk)

/-! ## 3. The lowest free descriptor -/

/-- `lowestFrom` stops at a free number and passes only numbers in use. -/
theorem lowestFrom_spec (t : FdTable α) : ∀ n k, t.bound ≤ k + n →
    t.get (t.lowestFrom n k) = none ∧ k ≤ t.lowestFrom n k ∧
      ∀ j, k ≤ j → j < t.lowestFrom n k → t.get j ≠ none
  | 0, k, h => by
    refine ⟨t.closed_of_ge k (by omega), Nat.le_refl k, ?_⟩
    intro j h1 h2
    simp only [lowestFrom] at h2
    omega
  | n + 1, k, h => by
    by_cases hk : t.get k = none
    · simp only [lowestFrom, hk, if_true]
      exact ⟨trivial, Nat.le_refl k, fun j h1 h2 => by omega⟩
    · simp only [lowestFrom, hk, if_false]
      obtain ⟨h1, h2, h3⟩ := lowestFrom_spec t n (k + 1) (by omega)
      refine ⟨h1, by omega, ?_⟩
      intro j hj hlt
      rcases Nat.eq_or_lt_of_le hj with rfl | hj
      · exact hk
      · exact h3 j hj hlt

/-- The lowest free descriptor is free. -/
@[simp] theorem get_lowest (t : FdTable α) : t.get t.lowest = none :=
  (t.lowestFrom_spec t.bound 0 (by omega)).1

/-- Every smaller descriptor is in use. -/
theorem get_of_lt_lowest (t : FdTable α) {j : Nat} (h : j < t.lowest) : t.get j ≠ none :=
  (t.lowestFrom_spec t.bound 0 (by omega)).2.2 j (Nat.zero_le j) h

/-- A descriptor in use is not the lowest free one. -/
theorem ne_lowest_of_get {t : FdTable α} {k : Nat} {v : α} (h : t.get k = some v) :
    k ≠ t.lowest := by
  rintro rfl
  simp at h

/-- A free descriptor below which all are in use is the lowest free one. -/
theorem lowest_eq {t : FdTable α} {k : Nat} (hk : t.get k = none)
    (hlt : ∀ j < k, t.get j ≠ none) : t.lowest = k := by
  rcases Nat.lt_trichotomy t.lowest k with h | h | h
  · exact absurd t.get_lowest (hlt _ h)
  · exact h
  · exact absurd hk (t.get_of_lt_lowest h)

/-- Descriptor 0, once free, is the one the next allocation takes. -/
theorem lowest_eq_zero {t : FdTable α} (h : t.get 0 = none) : t.lowest = 0 :=
  lowest_eq h (fun j hj => absurd hj (Nat.not_lt_zero j))

/-- With 0 in use, descriptor 1, once free, is the one the next allocation takes. -/
theorem lowest_eq_one {t : FdTable α} {v : α} (h0 : t.get 0 = some v) (h1 : t.get 1 = none) :
    t.lowest = 1 := by
  refine lowest_eq h1 ?_
  intro j hj
  have hj0 : j = 0 := by omega
  subst hj0
  simp [h0]

@[simp] theorem get_alloc_lowest (t : FdTable α) (v : α) :
    (t.alloc v).get t.lowest = some v := by
  simp [alloc]

/-- An allocation leaves the descriptors in use as they were. -/
theorem get_alloc_of_get {t : FdTable α} {k : Nat} {v w : α} (h : t.get k = some v) :
    (t.alloc w).get k = some v := by
  rw [alloc, get_set_ne _ _ (ne_lowest_of_get h), h]

theorem get_alloc (t : FdTable α) (v : α) (j : Nat) :
    (t.alloc v).get j = if j = t.lowest then some v else t.get j := rfl

theorem Forall.alloc {P : α → Prop} {t : FdTable α} (h : t.Forall P) {v : α} (hv : P v) :
    (t.alloc v).Forall P :=
  h.set hv t.lowest

/-- An allocation of something else does not change which descriptors refer to `v`. -/
theorem get_alloc_eq_iff {t : FdTable α} {u v : α} (hne : u ≠ v) (k : Nat) :
    (t.alloc u).get k = some v ↔ t.get k = some v := by
  rw [get_alloc]
  split
  · rename_i hk
    subst hk
    simp [hne]
  · exact Iff.rfl

/-! ## 4. Descriptors that stay open -/

/-- From the first table to the second, `n` descriptors have been opened and none closed. -/
def Gains (n : Nat) (t t' : FdTable α) : Prop :=
  ∃ ks : List Nat, ks.length = n ∧ ks.Nodup ∧ (∀ k ∈ ks, t.get k = none) ∧
    ∀ k, t'.get k ≠ none ↔ t.get k ≠ none ∨ k ∈ ks

namespace Gains

variable {n m : Nat} {t t' t'' : FdTable α} {v : α}

/-- The same descriptors are open. -/
theorem same (h : ∀ k, t'.get k ≠ none ↔ t.get k ≠ none) : Gains 0 t t' :=
  ⟨[], rfl, List.nodup_nil, List.forall_mem_nil _, fun k => (h k).trans (by simp)⟩

theorem opened (h : Gains n t t') {k : Nat} (hk : t.get k ≠ none) : t'.get k ≠ none := by
  obtain ⟨ks, _, _, _, hopen⟩ := h
  exact (hopen k).mpr (Or.inl hk)

theorem trans (h : Gains n t t') (h' : Gains m t' t'') : Gains (n + m) t t'' := by
  obtain ⟨ks, hlen, hnodup, hclosed, hopen⟩ := h
  obtain ⟨ks', hlen', hnodup', hclosed', hopen'⟩ := h'
  refine ⟨ks ++ ks', by rw [List.length_append, hlen, hlen'], ?_, ?_, ?_⟩
  · -- what is opened later was closed after the first part
    refine List.nodup_append.mpr ⟨hnodup, hnodup', ?_⟩
    rintro k hk _ hk' rfl
    exact (hopen k).mpr (Or.inr hk) (hclosed' k hk')
  · intro k hk
    rcases List.mem_append.mp hk with hk | hk
    · exact hclosed k hk
    · by_contra hne
      exact (hopen k).mpr (Or.inl hne) (hclosed' k hk)
  · intro k
    rw [hopen' k, hopen k, List.mem_append, or_assoc]

theorem alloc (t : FdTable α) (v : α) : Gains 1 t (t.alloc v) := by
  refine ⟨[t.lowest], rfl, List.nodup_singleton _, ?_, ?_⟩
  · intro k hk
    rw [List.mem_singleton.mp hk, get_lowest]
  · intro k
    rw [get_alloc, List.mem_singleton]
    split
    · rename_i hk
      simp [hk]
    · rename_i hk
      simp [hk]

end Gains

/-! ## 5. One descriptor more -/

/-- The number that `k` becomes when descriptor `p` is taken by somebody else. -/
def skip (p k : Nat) : Nat := if k < p then k else k + 1

theorem skip_of_lt {p k : Nat} (h : k < p) : skip p k = k := if_pos h

theorem skip_ne (p k : Nat) : skip p k ≠ p := by
  unfold skip
  split <;> omega

theorem skip_inj {p j k : Nat} : skip p j = skip p k ↔ j = k := by
  unfold skip
  split <;> split <;> omega

/-- Every other number is one of these, and they are in the same order. -/
theorem eq_skip_of_ne {p j k : Nat} (hne : j ≠ p) (hlt : j < skip p k) :
    ∃ i < k, skip p i = j := by
  unfold skip at *
  by_cases hj : j < p
  · exact ⟨j, by split at hlt <;> omega, if_pos hj⟩
  · exact ⟨j - 1, by split at hlt <;> omega, by rw [if_neg (by omega)]; omega⟩

/-- The second table is the first with one descriptor more: `p`, which refers to `v`.  The others
are moved out of its way. -/
structure OneMore (p : Nat) (v : α) (t t' : FdTable α) : Prop where
  more : t'.get p = some v
  others : ∀ k, t'.get (skip p k) = t.get k

namespace OneMore

variable {p : Nat} {u v : α} {t t' : FdTable α}

theorem close (h : OneMore p v t t') (k : Nat) : OneMore p v (t.close k) (t'.close (skip p k)) where
  more := by rw [get_close_ne _ (skip_ne p k).symm, h.more]
  others j := by simp only [get_close, skip_inj, h.others]

theorem set (h : OneMore p v t t') (k : Nat) (u : α) :
    OneMore p v (t.set k u) (t'.set (skip p k) u) where
  more := by rw [get_set_ne _ _ (skip_ne p k).symm, h.more]
  others j := by simp only [get_set, skip_inj, h.others]

/-- Both give out the same descriptor next. -/
theorem lowest (h : OneMore p v t t') : t'.lowest = skip p t.lowest := by
  refine lowest_eq ?_ fun j hj => ?_
  · rw [h.others, get_lowest]
  · rcases eq_or_ne j p with rfl | hne
    · rw [h.more]
      exact Option.some_ne_none v
    · obtain ⟨i, hi, rfl⟩ := eq_skip_of_ne hne hj
      rw [h.others]
      exact t.get_of_lt_lowest hi

theorem alloc (h : OneMore p v t t') (u : α) : OneMore p v (t.alloc u) (t'.alloc u) := by
  rw [FdTable.alloc, FdTable.alloc, h.lowest]
  exact h.set t.lowest u

/-- An allocation behind everything that is open. -/
theorem of_alloc {t : FdTable α} (h : ∀ k, t.lowest ≤ k → t.get k = none) (v : α) :
    OneMore t.lowest v t (t.alloc v) where
  more := get_alloc_lowest t v
  others k := by
    rw [get_alloc, if_neg (skip_ne _ k)]
    unfold skip
    split
    · rfl
    · rename_i hk
      rw [h k (Nat.le_of_not_lt hk), h (k + 1) (Nat.le_succ_of_le (Nat.le_of_not_lt hk))]

end OneMore

end FdTable
