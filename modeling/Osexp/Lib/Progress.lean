/-
# Progress

A system of processes is a step relation on its global states.  It never gets stuck when every
state that can be reached is finished or has a step (`NeverStuck`).

`neverStuck_iff` gives the exact condition for that from one invariant: when every step also
brings a number down, each run ends, so a system that never gets stuck reaches a finished state,
and what the invariant says there is what was needed on the way.

Deadlock freedom is usually proved for systems that have it.  Here the interest is in a system that
has it under a condition on its data, and the condition is to be found and shown to be the right
one.  One direction is an invariant with which every state has a step.  For the other it is enough
that every run ends: if the system never gets stuck, some run ends in a finished state, and such a
state tells what must have been the case.

The relation is on states of any type, with any number of processes in it, and nothing is assumed
about fairness.
-/
import Mathlib.Logic.Relation

namespace Progress

open Relation

variable {σ : Type*} {step : σ → σ → Prop} {Finished Inv : σ → Prop} {s t : σ}

/-- From `s` no state is reached that is not finished and has no step. -/
def NeverStuck (step : σ → σ → Prop) (Finished : σ → Prop) (s : σ) : Prop :=
  ∀ t, ReflTransGen step s t → Finished t ∨ ∃ u, step t u

/-- What every step preserves holds of every state that can be reached. -/
theorem invariant (hstep : ∀ s t, Inv s → step s t → Inv t) (h : ReflTransGen step s t)
    (hs : Inv s) : Inv t := by
  induction h with
  | refl => exact hs
  | tail _ hbc ih => exact hstep _ _ ih hbc

/-- When a number comes down with every step, some run ends. -/
theorem exists_ended (μ : σ → Nat) (hstep : ∀ s t, Inv s → step s t → Inv t)
    (hdec : ∀ s t, Inv s → step s t → μ t < μ s) (hs : Inv s) :
    ∃ t, ReflTransGen step s t ∧ ¬ ∃ u, step t u := by
  induction hn : μ s using Nat.strongRecOn generalizing s with
  | _ n ih =>
    rcases Classical.em (∃ u, step s u) with ⟨u, hu⟩ | hno
    · have hlt : μ u < n := hn ▸ hdec s u hs hu
      obtain ⟨t, ht, hend⟩ := ih (μ u) hlt (hstep s u hs hu) rfl
      exact ⟨t, ht.head hu, hend⟩
    · exact ⟨s, .refl, hno⟩

/-- **The exact condition for progress.**  `C` lets every state of the invariant go on, and a
finished state of the invariant shows `C`. -/
theorem neverStuck_iff {C : Prop} (μ : σ → Nat) (hstep : ∀ s t, Inv s → step s t → Inv t)
    (hdec : ∀ s t, Inv s → step s t → μ t < μ s)
    (hprogress : C → ∀ t, Inv t → Finished t ∨ ∃ u, step t u)
    (hfinished : ∀ t, Inv t → Finished t → C) (hs : Inv s) :
    NeverStuck step Finished s ↔ C := by
  constructor
  · intro h
    obtain ⟨t, ht, hend⟩ := exists_ended μ hstep hdec hs
    exact hfinished t (invariant hstep ht hs) ((h t ht).resolve_right hend)
  · intro hC t ht
    exact hprogress hC t (invariant hstep ht hs)

end Progress
