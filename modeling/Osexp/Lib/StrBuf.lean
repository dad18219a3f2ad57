/-
# Strings built in an array

A string in an array of `n` cells takes one cell more than it has letters.  The functions that build
one from others (`strcpy`, `strcat`, `strncat`) know nothing of `n`; here each of them returns the
string it leaves, or nothing where it has written behind the array.

The terminator is where such code goes wrong: a bound on the letters is taken for one on the cells,
and a string of exactly `n` letters fits by the one and not by the other.  So the functions here
count the cells that are written, and a result that is there is the proof that all of them were
inside.

Two strings are built by copying and appending only; there is no function that reads behind a
string, since the strings come from elsewhere and have their terminators.
-/
import Mathlib.Data.List.Basic

namespace StrBuf

variable {α : Type*} {n : Nat} {s t r : List α}

/-- The string in an array of `n` cells. -/
def hold (n : Nat) (s : List α) : Option (List α) := if s.length < n then some s else none

/-- `strcpy(array, t)`. -/
def strcpy (n : Nat) (t : List α) : Option (List α) := hold n t

/-- `strcat(array, t)`, with `s` in the array. -/
def strcat (n : Nat) (s t : List α) : Option (List α) := hold n (s ++ t)

/-- `strncat(array, t, k)`: of `t`, the first `k` letters at most. -/
def strncat (n : Nat) (s t : List α) (k : Nat) : Option (List α) := hold n (s ++ t.take k)

/-- `strnlen(s, k)`. -/
def strnlen (s : List α) (k : Nat) : Nat := min s.length k

theorem hold_eq_some_iff : hold n s = some r ↔ s.length < n ∧ s = r := by
  unfold hold
  split
  · rename_i hfits
    rw [Option.some_inj, and_iff_right hfits]
  · rename_i hover
    refine iff_of_false ?_ (fun h => hover h.1)
    rintro ⟨⟩

theorem hold_of_lt (h : s.length < n) : hold n s = some s := if_pos h

/-- **Two strings and a separator**, the second one cut at the room `k` that the first one leaves:
the array holds the whole, or it is overrun. -/
theorem join_map_eq_some_iff {β : Type*} {f : List α → β} {b : β} (c : α) {k : Nat}
    (hk : s.length < n → k = n - s.length - 1) :
    ((strcpy n s).bind fun a => (strcat n a [c]).bind fun a => (strncat n a t k).map f) = some b ↔
      s.length + 1 + t.length < n ∧ f (s ++ c :: t) = b := by
  have hsplit : s ++ [c] ++ t = s ++ c :: t := by
    rw [List.append_assoc, List.singleton_append]
  simp only [Option.bind_eq_some_iff, Option.map_eq_some_iff, strcpy, strcat, strncat,
    hold_eq_some_iff]
  constructor
  · rintro ⟨_, ⟨hs, rfl⟩, _, ⟨_, rfl⟩, _, ⟨hfits, rfl⟩, rfl⟩
    have hroom := hk hs
    simp only [List.length_append, List.length_singleton, List.length_take] at hfits
    have hwhole : t.length ≤ k := by omega
    refine ⟨by omega, ?_⟩
    rw [List.take_of_length_le hwhole, hsplit]
  · rintro ⟨hfits, rfl⟩
    have hs : s.length < n := by omega
    have hroom := hk hs
    have hwhole : t.length ≤ k := by omega
    refine ⟨s, ⟨hs, rfl⟩, s ++ [c], ⟨?_, rfl⟩, s ++ c :: t, ⟨?_, ?_⟩, rfl⟩
    · rw [List.length_append, List.length_singleton]
      omega
    · rw [List.take_of_length_le hwhole]
      simp only [List.length_append, List.length_singleton]
      exact hfits
    · rw [List.take_of_length_le hwhole, hsplit]

end StrBuf
