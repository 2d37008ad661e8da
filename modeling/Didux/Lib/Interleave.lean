import Mathlib.Logic.Relation
import Didux.Lib.Program

set_option autoImplicit false

namespace Didux.Program

variable {ι : Type} {ρ : ι → Type} {α β σ : Type}

-- A program that only asks, in an environment that may move before each of its commands. The states that the
-- commands met are kept, in order.
inductive Interleaved (answer : (command : ι) → σ → ρ command) (moves : σ → σ → Prop) : σ → Program ι ρ α → List σ → α → Prop where
  | done (s : σ) (value : α) : Interleaved answer moves s (.done value) [] value
  | step (s met : σ) (command : ι) (next : ρ command → Program ι ρ α) (trace : List σ) (value : α)
      (moved : Relation.ReflTransGen moves s met) (rest : Interleaved answer moves met (next (answer command met)) trace value) :
      Interleaved answer moves s (.step command next) (met :: trace) value

def alone (answer : (command : ι) → σ → ρ command) (p : Program ι ρ α) (s : σ) : α := (p.run (fun command s => (answer command s, s)) s).1

section Alone

variable (answer : (command : ι) → σ → ρ command)

@[simp] theorem alone_done (value : α) (s : σ) : (Program.done value : Program ι ρ α).alone answer s = value := rfl

@[simp] theorem alone_step (command : ι) (next : ρ command → Program ι ρ α) (s : σ) :
    (Program.step command next).alone answer s = (next (answer command s)).alone answer s := rfl

@[simp] theorem alone_bind (p : Program ι ρ α) (k : α → Program ι ρ β) (s : σ) :
    (p >>= k).alone answer s = (k (p.alone answer s)).alone answer s := by
  induction p with
  | done value => rfl
  | step command next ih => exact ih _

@[simp] theorem alone_ite (c : Prop) [Decidable c] (p q : Program ι ρ α) (s : σ) :
    (if c then p else q).alone answer s = if c then p.alone answer s else q.alone answer s := by
  split <;> rfl

end Alone

def Stable (moves : σ → σ → Prop) (J : σ → Prop) : Prop := ∀ s t, J s → moves s t → J t

def Ensures (answer : (command : ι) → σ → ρ command) (moves : σ → σ → Prop) (J : σ → Prop) (p : Program ι ρ α) (Q : α → Prop) : Prop :=
  ∀ s trace value, J s → Interleaved answer moves s p trace value → Q value

section Rules

variable {answer : (command : ι) → σ → ρ command} {moves : σ → σ → Prop} {J K : σ → Prop}

theorem stable_moved (stable : Stable moves J) {s t : σ} (holds : J s) (moved : Relation.ReflTransGen moves s t) : J t := by
  induction moved with
  | refl => exact holds
  | tail _ step ih => exact stable _ _ ih step

theorem stable_and (first : Stable moves J) (second : Stable moves K) : Stable moves fun s => J s ∧ K s :=
  fun s t holds step => ⟨first s t holds.1 step, second s t holds.2 step⟩

def after (s : σ) (trace : List σ) : σ := trace.getLastD s

theorem after_cons (s met : σ) (trace : List σ) : after s (met :: trace) = after met trace := by
  cases trace <;> rfl

variable {p : Program ι ρ α} {trace : List σ}

theorem interleaved_moved {s : σ} {value : α} (run : Interleaved answer moves s p trace value) :
    Relation.ReflTransGen moves s (after s trace) := by
  induction run with
  | done s value => exact .refl
  | step s met command next trace value moved rest ih =>
    rw [after_cons]
    exact moved.trans ih

theorem interleaved_bind {k : α → Program ι ρ β} {s : σ} {value : β} (run : Interleaved answer moves s (p >>= k) trace value) :
    ∃ first second middle, trace = first ++ second ∧ Interleaved answer moves s p first middle ∧
      Interleaved answer moves (after s first) (k middle) second value := by
  induction p generalizing s trace with
  | done middle => exact ⟨[], trace, middle, rfl, .done s middle, run⟩
  | step command next ih =>
    cases run with
    | step _ met _ _ rest _ moved run =>
      obtain ⟨first, second, middle, rfl, before, later⟩ := ih _ run
      refine ⟨met :: first, second, middle, rfl, .step s met command next first middle moved before, ?_⟩
      rw [after_cons]
      exact later

variable {Q : α → Prop}

theorem ensures_done {value : α} (holds : Q value) : Ensures answer moves J (.done value) Q := by
  rintro s trace result - ⟨⟩
  exact holds

theorem ensures_step {command : ι} {next : ρ command → Program ι ρ α} (stable : Stable moves J)
    (rest : ∀ met found, J met → found = answer command met → ∃ K : σ → Prop, K met ∧ Ensures answer moves K (next found) Q) :
    Ensures answer moves J (.step command next) Q := by
  intro s trace value holds run
  cases run with
  | step _ met _ _ trace _ moved run =>
    obtain ⟨K, known, ensures⟩ := rest met _ (stable_moved stable holds moved) rfl
    exact ensures met trace value known run

theorem ensures_bind {S : β → Prop} {k : α → Program ι ρ β} (stable : Stable moves J) (first : Ensures answer moves J p Q)
    (rest : ∀ value, Q value → Ensures answer moves J (k value) S) :
    Ensures answer moves J (p >>= k) S := by
  intro s trace value holds run
  obtain ⟨before, later, middle, -, ran, continued⟩ := interleaved_bind run
  exact rest middle (first s before middle holds ran) _ later value (stable_moved stable holds (interleaved_moved ran)) continued

theorem alone_interleaved (p : Program ι ρ α) (s : σ) : ∃ trace, Interleaved answer moves s p trace (alone answer p s) := by
  induction p with
  | done value => exact ⟨[], .done s value⟩
  | step command next ih =>
    obtain ⟨trace, run⟩ := ih (answer command s)
    exact ⟨s :: trace, .step s s command next trace _ .refl run⟩

theorem ensures_alone {s : σ} (ensures : Ensures answer moves J p Q) (holds : J s) :
    Q (alone answer p s) := by
  obtain ⟨trace, run⟩ := alone_interleaved p s
  exact ensures s trace _ holds run

end Rules

end Didux.Program
