/-
# Forward simulation

Two labelled step relations are related by `R`.  A simulation says that a step of the first from
related states, if it satisfies `Ok`, is matched by a step of the second under the translated
action, that the states reached are related again, and that the two steps show the same (`Shown`
says what that means).

`Simulation.run`: a run whose steps all satisfy `Ok` is matched by a run over the translated
actions, step by step.

The relation `R` is the only thing that has to be found.  It connects what an abstract system says
of a state with what a program keeps of it; `Ok` is where the program needs more than the abstract
system asks for (room in its arrays, calls that succeed).  `Shown` is there because two systems may
go side by side without doing the same: a step also has to show what the other one means by it.
-/
import Osexp.Lib.Runs

namespace Lts

variable {σ τ υ α β γ : Type*}

/-- Every step from related states that satisfies `Ok` is matched by one step. -/
structure Simulation (step : σ → α → σ → Prop) (step' : τ → β → τ → Prop) (Ok : σ → α → Prop)
    (R : σ → τ → Prop) (translate : α → β) (Shown : σ → α → τ → τ → Prop) : Prop where
  matched : ∀ {s s' : σ} {a : α} {t : τ}, R s t → Ok s a → step s a s' →
    ∃ t', step' t (translate a) t' ∧ R s' t' ∧ Shown s a t t'

/-- Two runs of one length, whose steps show the same one by one. -/
inductive SideBySide (translate : α → β) (Shown : σ → α → τ → τ → Prop) :
    σ → Trail σ α → τ → Trail τ β → Prop
  | nil (s : σ) (t : τ) : SideBySide translate Shown s [] t []
  | cons {s s' : σ} {a : α} {w : Trail σ α} {t t' : τ} {w' : Trail τ β} :
      Shown s a t t' → SideBySide translate Shown s' w t' w' →
      SideBySide translate Shown s ((a, s') :: w) t ((translate a, t') :: w')

section Rules

variable {step : σ → α → σ → Prop} {step' : τ → β → τ → Prop} {Ok : σ → α → Prop}
  {R : σ → τ → Prop} {translate : α → β} {Shown : σ → α → τ → τ → Prop}

/-- **A simulation lifts to runs**, by induction on the run.  This is the only induction that a
refinement needs. -/
theorem Simulation.run (h : Simulation step step' Ok R translate Shown) {s : σ}
    {w : Trail σ α} (hw : Run step s w) :
    ∀ {t : τ}, R s t → StepsOk Ok s w →
      ∃ w', Run step' t w' ∧ SideBySide translate Shown s w t w' ∧ R (final s w) (final t w') := by
  induction hw with
  | nil s => exact fun {t} hR _ => ⟨[], .nil t, .nil s t, hR⟩
  | @cons s s' a w hstep _ ih =>
    intro t hR hok
    obtain ⟨t', hstep', hR', hshown⟩ := h.matched hR hok.1 hstep
    obtain ⟨w', hrun, hside, hfinal⟩ := ih hR' hok.2
    exact ⟨(translate a, t') :: w', .cons hstep' hrun, .cons hshown hside, hfinal⟩

/-- The second run is over the translated actions of the first. -/
theorem SideBySide.actions {s : σ} {w : Trail σ α} {t : τ} {w' : Trail τ β}
    (h : SideBySide translate Shown s w t w') :
    w'.map Prod.fst = w.map (fun p => translate p.1) := by
  induction h with
  | nil s t => rfl
  | cons _ _ ih => rw [List.map_cons, List.map_cons, ih]

end Rules

end Lts
