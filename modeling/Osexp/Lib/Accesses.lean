/-
# Arrays whose accesses are recorded

A computation over an array reads and writes cells by their index, fails outside the array, and
leaves behind the list of its accesses.  What is promised of a loop that works in place can then
be said about that list: `Tidy orig n` says that no cell beyond `n` has been touched and that
every read has seen what its cell held at the start, so nothing is read once it is spoiled.

A loop that works in place reads and writes one array at two places that move at different speeds.
Its result alone does not show that it is right to do so: it may read a cell that it has written,
and come out right by accident, or write behind the end.  With the accesses recorded both can be
stated, and a rule for a read and one for a write (`Tidy.read`, `Tidy.write`) carry the statement
through the loop.

Nothing here says what the computation is for; the array holds elements of any type.
-/
import Mathlib.Data.List.Basic

/-- One access to a cell, with what was read there or written. -/
inductive Access (α : Type)
  | read (k : Nat) (x : α)
  | write (k : Nat) (x : α)

def Access.index {α : Type} : Access α → Nat
  | read k _ => k
  | write k _ => k

/-- The cells of an array and the accesses to it so far. -/
structure Cells (α : Type) where
  cells : List α
  log : List (Access α)

namespace Cells

variable {α β γ ε : Type}

/-- A computation over an array, with the ways in which it can fail. -/
abbrev Run (α ε : Type) := StateT (Cells α) (Except ε)

def read (outside : ε) (k : Nat) : Run α ε α := fun m =>
  match m.cells[k]? with
  | none => .error outside
  | some x => .ok (x, ⟨m.cells, m.log ++ [.read k x]⟩)

def write (outside : ε) (k : Nat) (x : α) : Run α ε Unit := fun m =>
  if k < m.cells.length then .ok ((), ⟨m.cells.set k x, m.log ++ [.write k x]⟩)
  else .error outside

/-- The first step of two, when it succeeds. -/
theorem bind_ok {a : Run α ε β} {f : β → Run α ε γ} {m m' : Cells α} {x : β}
    (h : a.run m = .ok (x, m')) : (a >>= f).run m = (f x).run m' := by
  rw [StateT.run_bind, h]
  rfl

theorem bind_error {a : Run α ε β} {f : β → Run α ε γ} {m : Cells α} {e : ε}
    (h : a.run m = .error e) : (a >>= f).run m = .error e := by
  rw [StateT.run_bind, h]
  rfl

/-- Nothing beyond the cell `n` has been touched, and every read has seen the cell as it was. -/
structure Tidy (orig : List α) (n : Nat) (m : Cells α) : Prop where
  within : ∀ a ∈ m.log, a.index ≤ n
  unspoiled : ∀ k x, Access.read k x ∈ m.log → orig[k]? = some x
  beyond : m.cells.drop (n + 1) = orig.drop (n + 1)

section Tidy

variable {orig : List α} {n k : Nat} {m : Cells α} {x : α}

theorem tidy_start (orig : List α) (n : Nat) : Tidy orig n ⟨orig, []⟩ where
  within := List.forall_mem_nil _
  unspoiled := by rintro _ _ ⟨⟩
  beyond := rfl

/-- A read of a cell that is as it was at the start. -/
theorem Tidy.read (h : Tidy orig n m) (outside : ε) (hk : k ≤ n) (hx : m.cells[k]? = some x)
    (horig : orig[k]? = some x) :
    ∃ m', (Cells.read outside k).run m = .ok (x, m') ∧ m'.cells = m.cells ∧ Tidy orig n m' := by
  have hrun : (Cells.read outside k).run m = .ok (x, ⟨m.cells, m.log ++ [.read k x]⟩) := by
    show Cells.read outside k m = _
    rw [Cells.read, hx]
  refine ⟨_, hrun, rfl, ?_, ?_, h.beyond⟩
  · intro a ha
    rcases List.mem_append.mp ha with ha | ha
    · exact h.within a ha
    · rw [List.mem_singleton.mp ha]
      exact hk
  · intro j y hy
    rcases List.mem_append.mp hy with hy | hy
    · exact h.unspoiled j y hy
    · cases List.mem_singleton.mp hy
      exact horig

theorem Tidy.write (h : Tidy orig n m) (outside : ε) (hk : k ≤ n) (hlt : k < m.cells.length)
    (x : α) : ∃ m', (Cells.write outside k x).run m = .ok ((), m') ∧
      m'.cells = m.cells.set k x ∧ Tidy orig n m' := by
  have hrun : (Cells.write outside k x).run m =
      .ok ((), ⟨m.cells.set k x, m.log ++ [.write k x]⟩) := if_pos hlt
  refine ⟨_, hrun, rfl, ?_, ?_, ?_⟩
  · intro a ha
    rcases List.mem_append.mp ha with ha | ha
    · exact h.within a ha
    · rw [List.mem_singleton.mp ha]
      exact hk
  · intro j y hy
    rcases List.mem_append.mp hy with hy | hy
    · exact h.unspoiled j y hy
    · cases List.mem_singleton.mp hy
  · exact (List.drop_set_of_lt (Nat.lt_succ_of_le hk)).trans h.beyond

end Tidy

end Cells
