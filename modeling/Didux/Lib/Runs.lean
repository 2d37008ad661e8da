import Mathlib.Logic.Relation

set_option autoImplicit false

namespace Didux.Runs

variable {σ : Type}

variable (start : σ → Prop) (step : σ → σ → Prop) (state : σ)

def Reached : Prop :=
  ∃ first, start first ∧ Relation.ReflTransGen step first state

theorem reached_start (initial : start state) : Reached start step state :=
  ⟨state, initial, .refl⟩

theorem reached_step (state next : σ)
    (reached : Reached start step state) (taken : step state next) : Reached start step next := by
  obtain ⟨first, initial, run⟩ := reached
  exact ⟨first, initial, run.tail taken⟩

theorem run_invariant (step : σ → σ → Prop) (inv : σ → Prop) (keep : ∀ state next, inv state → step state next → inv next)
    (first last : σ) (run : Relation.ReflTransGen step first last) (holds : inv first) : inv last := by
  induction run with
  | refl => exact holds
  | tail _ taken ih => exact keep _ _ ih taken

theorem reached_invariant (inv : σ → Prop) (initial : ∀ state, start state → inv state)
    (keep : ∀ state next, inv state → step state next → inv next)
    (state : σ) (reached : Reached start step state) : inv state := by
  obtain ⟨first, begun, run⟩ := reached
  exact run_invariant step inv keep first state run (initial first begun)

end Didux.Runs
