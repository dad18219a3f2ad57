/-
# Runs of a labelled step relation, and the two rules for invariants

A system is a relation `step s a t` ("in state `s` the action `a` leads to `t`").  A run is kept
as the list of its actions with the state each one reached, so a property of a run can speak of
every state it visits and of every step it takes.

* `Run.invariant`: what one step preserves, a whole run preserves.
* `Run.always_iff`: when one step keeps `P` exactly on the steps that satisfy `Ok`, a run stays
  inside `P` exactly when all its steps satisfy `Ok`.  This turns a step lemma into the exact
  condition under which a law survives a run.
* `foldl_perm`: actions that commute pairwise, inside an invariant, lead to the same state in any
  order.

The second rule is what most results about runs come from.  An invariant that some steps break is
not an invariant; but where it can be said step by step which ones break it, the runs that keep it
are known exactly, and nothing more has to be proved about runs.
-/
import Mathlib.Data.List.Basic

namespace Lts

variable {σ α : Type*}

/-! ## 1. Runs -/

/-- The action of a step and the state it reached, in order. -/
abbrev Trail (σ α : Type*) := List (α × σ)

/-- `Run step s w`: from `s` the actions of `w` are possible and reach the states of `w`. -/
inductive Run (step : σ → α → σ → Prop) : σ → Trail σ α → Prop
  | nil (s : σ) : Run step s []
  | cons {s t : σ} {a : α} {w : Trail σ α} :
      step s a t → Run step t w → Run step s ((a, t) :: w)

/-- The state in which a run ends. -/
def final : σ → Trail σ α → σ
  | s, [] => s
  | _, (_, t) :: w => final t w

/-- `P` holds of every state a run reaches after a step. -/
def Always (P : σ → Prop) (w : Trail σ α) : Prop := ∀ p ∈ w, P p.2

/-- `Ok` holds of every step of a run: of the state it starts in and of its action. -/
def StepsOk (Ok : σ → α → Prop) : σ → Trail σ α → Prop
  | _, [] => True
  | s, (a, t) :: w => Ok s a ∧ StepsOk Ok t w

instance decidableStepsOk {Ok : σ → α → Prop} [∀ s a, Decidable (Ok s a)] :
    ∀ (s : σ) (w : Trail σ α), Decidable (StepsOk Ok s w)
  | _, [] => isTrue trivial
  | _, (_, t) :: w => @instDecidableAnd _ _ _ (decidableStepsOk t w)

@[simp] theorem final_nil (s : σ) : final s ([] : Trail σ α) = s := rfl

@[simp] theorem final_cons (s t : σ) (a : α) (w : Trail σ α) :
    final s ((a, t) :: w) = final t w := rfl

@[simp] theorem always_nil (P : σ → Prop) : Always P ([] : Trail σ α) := by
  intro p hp
  cases hp

@[simp] theorem always_cons {P : σ → Prop} {t : σ} {a : α} {w : Trail σ α} :
    Always P ((a, t) :: w) ↔ P t ∧ Always P w := by
  simp [Always]

@[simp] theorem stepsOk_nil (Ok : σ → α → Prop) (s : σ) : StepsOk Ok s [] := trivial

@[simp] theorem stepsOk_cons {Ok : σ → α → Prop} {s t : σ} {a : α} {w : Trail σ α} :
    StepsOk Ok s ((a, t) :: w) ↔ Ok s a ∧ StepsOk Ok t w := Iff.rfl

theorem StepsOk.and {Ok Ok' : σ → α → Prop} {s : σ} {w : Trail σ α} (h : StepsOk Ok s w)
    (h' : StepsOk Ok' s w) : StepsOk (fun s a => Ok s a ∧ Ok' s a) s w := by
  induction w generalizing s with
  | nil => trivial
  | cons p w ih => exact ⟨⟨h.1, h'.1⟩, ih h.2 h'.2⟩

theorem final_concat (s t : σ) (a : α) (w : Trail σ α) : final s (w ++ [(a, t)]) = t := by
  induction w generalizing s with
  | nil => rfl
  | cons p w ih => exact ih p.2

/-! ## 2. The rules -/

section Rules

variable {step : σ → α → σ → Prop} {Inv P : σ → Prop} {Ok : σ → α → Prop}

/-- A step-preserved property holds of every state of a run. -/
theorem Run.invariant (hstep : ∀ s a t, Inv s → step s a t → Inv t) :
    ∀ {s : σ} {w : Trail σ α}, Run step s w → Inv s → Always Inv w
  | _, _, .nil _, _ => always_nil Inv
  | _, _, .cons h hw, hs =>
    always_cons.mpr ⟨hstep _ _ _ hs h, hw.invariant hstep (hstep _ _ _ hs h)⟩

/-- A run that takes one more step. -/
theorem run_concat {s t : σ} {a : α} {w : Trail σ α} :
    Run step s (w ++ [(a, t)]) ↔ Run step s w ∧ step (final s w) a t := by
  induction w generalizing s with
  | nil =>
    constructor
    · rintro (_ | ⟨h, _⟩)
      exact ⟨.nil s, h⟩
    · rintro ⟨_, h⟩
      exact .cons h (.nil t)
  | cons p w ih =>
    obtain ⟨b, u⟩ := p
    constructor
    · rintro (_ | ⟨h, hw⟩)
      exact ⟨.cons h (ih.mp hw).1, (ih.mp hw).2⟩
    · rintro ⟨_ | ⟨h, hw⟩, hlast⟩
      exact .cons h (ih.mpr ⟨hw, hlast⟩)

/-- A run whose actions all satisfy `Q` is a run of the steps with such an action. -/
theorem Run.restrict {Q : α → Prop} : ∀ {s : σ} {w : Trail σ α}, Run step s w →
    (∀ p ∈ w, Q p.1) → Run (fun s a t => step s a t ∧ Q a) s w
  | _, _, .nil s, _ => .nil s
  | _, _, .cons h hw, hq =>
    .cons ⟨h, hq _ List.mem_cons_self⟩
      (hw.restrict (fun p hp => hq p (List.mem_cons_of_mem _ hp)))

/-- A run of more steps, and of fewer ones when all that it takes are among these. -/
theorem Run.mono {step' : σ → α → σ → Prop} (hle : ∀ s a t, step s a t → step' s a t) :
    ∀ {s : σ} {w : Trail σ α}, Run step s w → Run step' s w
  | _, _, .nil s => .nil s
  | _, _, .cons h hw => .cons (hle _ _ _ h) (hw.mono hle)

theorem Run.of_stepsOk {step' : σ → α → σ → Prop} {Ok : σ → α → Prop}
    (hle : ∀ s a t, Ok s a → step s a t → step' s a t) :
    ∀ {s : σ} {w : Trail σ α}, Run step s w → StepsOk Ok s w → Run step' s w
  | _, _, .nil s, _ => .nil s
  | _, _, .cons h hw, hok => .cons (hle _ _ _ hok.1 h) (hw.of_stepsOk hle hok.2)

/-- The last state of a run is the start or one of the states reached. -/
theorem final_of_always {s : σ} {w : Trail σ α} (hs : P s) (hw : Always P w) :
    P (final s w) := by
  induction w generalizing s with
  | nil => exact hs
  | cons p w ih =>
    obtain ⟨a, t⟩ := p
    exact ih (always_cons.mp hw).1 (always_cons.mp hw).2

/-- A property that the steps satisfying `Ok` preserve holds along a run of such steps. -/
theorem Run.always_of_stepsOk
    (hstep : ∀ s a t, Inv s → Ok s a → step s a t → Inv t) :
    ∀ {s : σ} {w : Trail σ α}, Run step s w → Inv s → StepsOk Ok s w → Always Inv w
  | _, _, .nil _, _, _ => always_nil Inv
  | _, _, .cons h hw, hs, hok =>
    have ht := hstep _ _ _ hs hok.1 h
    always_cons.mpr ⟨ht, hw.always_of_stepsOk hstep ht hok.2⟩

/-- **The exact rule.**  If, inside the invariant, one step from a `P`-state ends in a
`P`-state exactly when it satisfies `Ok`, then a run from a `P`-state visits only `P`-states
exactly when all its steps satisfy `Ok`. -/
theorem Run.always_iff (hinv : ∀ s a t, Inv s → step s a t → Inv t)
    (hok : ∀ s a t, Inv s → P s → step s a t → (P t ↔ Ok s a)) {s : σ} {w : Trail σ α}
    (hw : Run step s w) (hs : Inv s) (hp : P s) : Always P w ↔ StepsOk Ok s w := by
  induction hw with
  | nil => simp
  | @cons s t a w h _ ih =>
    have ht : Inv t := hinv s a t hs h
    have hiff : P t ↔ Ok s a := hok s a t hs hp h
    rw [always_cons, stepsOk_cons, hiff]
    constructor
    · rintro ⟨h1, h2⟩
      exact ⟨h1, (ih ht (hiff.mpr h1)).mp h2⟩
    · rintro ⟨h1, h2⟩
      exact ⟨h1, (ih ht (hiff.mpr h1)).mpr h2⟩

end Rules

/-! ## 3. Actions in any order -/

/-- **Actions that commute inside an invariant** can be taken in any order. -/
theorem foldl_perm {f : σ → α → σ} {Inv : σ → Prop} {l l' : List α} (hp : l.Perm l')
    (hinv : ∀ s, Inv s → ∀ a ∈ l, Inv (f s a))
    (hcomm : ∀ s, Inv s → ∀ a ∈ l, ∀ b ∈ l, f (f s a) b = f (f s b) a) {s : σ} (hs : Inv s) :
    l.foldl f s = l'.foldl f s := by
  induction hp generalizing s with
  | nil => rfl
  | cons a _ ih =>
    refine ih (fun s hs b hb => hinv s hs b (List.mem_cons_of_mem _ hb)) ?_
      (hinv s hs a List.mem_cons_self)
    exact fun s hs b hb c hc =>
      hcomm s hs b (List.mem_cons_of_mem _ hb) c (List.mem_cons_of_mem _ hc)
  | swap a b l =>
    rw [List.foldl_cons, List.foldl_cons, List.foldl_cons, List.foldl_cons,
      hcomm s hs b List.mem_cons_self a (List.mem_cons_of_mem _ List.mem_cons_self)]
  | trans hp _ ih ih' =>
    refine (ih hinv hcomm hs).trans (ih' ?_ ?_ hs)
    · exact fun s hs a ha => hinv s hs a (hp.mem_iff.mpr ha)
    · exact fun s hs a ha b hb => hcomm s hs a (hp.mem_iff.mpr ha) b (hp.mem_iff.mpr hb)

end Lts
