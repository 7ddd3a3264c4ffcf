import Mathlib.Logic.Relation

/-!
# Forward simulation

General support: a relation between the states of two systems such that a step of the one is matched
by any number of steps of the other. Then every run is matched by a run.
-/

universe u v

variable {σ : Type u} {τ : Type v}

/-- From related states, what the first system does in one step the second does in some. -/
def Simulation (step : σ → σ → Prop) (step' : τ → τ → Prop) (R : σ → τ → Prop) : Prop :=
  ∀ s t s', R s t → step s s' → ∃ t', R s' t' ∧ Relation.ReflTransGen step' t t'

namespace Simulation

variable {step : σ → σ → Prop} {step' : τ → τ → Prop} {R : σ → τ → Prop}

/-- What the first system does in a run the second does in a run. -/
theorem run (h : Simulation step step' R) {s s' : σ} {t : τ} (hst : R s t)
    (hrun : Relation.ReflTransGen step s s') :
    ∃ t', R s' t' ∧ Relation.ReflTransGen step' t t' := by
  induction hrun with
  | refl => exact ⟨t, hst, .refl⟩
  | tail _ hstep ih =>
    obtain ⟨t₁, hrel, hrun₁⟩ := ih
    obtain ⟨t₂, hrel', hrun₂⟩ := h _ _ _ hrel hstep
    exact ⟨t₂, hrel', hrun₁.trans hrun₂⟩

/-- A function of the state that maps steps to runs where an invariant holds. -/
theorem of_abstraction {Inv : σ → Prop} {abs : σ → τ}
    (h : ∀ s s', Inv s → step s s' → Inv s' ∧ Relation.ReflTransGen step' (abs s) (abs s')) :
    Simulation step step' fun s t ↦ Inv s ∧ t = abs s := by
  rintro s t s' ⟨hinv, rfl⟩ hstep
  obtain ⟨hinv', hrun⟩ := h s s' hinv hstep
  exact ⟨abs s', ⟨hinv', rfl⟩, hrun⟩

end Simulation
