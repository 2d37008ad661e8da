import Mathlib.Logic.Basic

set_option autoImplicit false

namespace Didux

-- A program is a tree of commands: each node issues one command and goes on
-- with the answer. What a command does is left to the handler that runs it.
inductive Program (ι : Type) (ρ : ι → Type) (α : Type) where
  | done (value : α)
  | step (command : ι) (next : ρ command → Program ι ρ α)

namespace Program

variable {ι : Type} {ρ : ι → Type} {α β σ τ : Type}

def bind : Program ι ρ α → (α → Program ι ρ β) → Program ι ρ β
  | .done value, k => k value
  | .step command next, k => .step command (fun answer => (next answer).bind k)

instance : Monad (Program ι ρ) where
  pure := .done
  bind := Program.bind

def run (handle : (command : ι) → σ → ρ command × σ) : Program ι ρ α → σ → α × σ
  | .done value, s => (value, s)
  | .step command next, s => (next (handle command s).1).run handle (handle command s).2

@[simp] theorem pure_eq (value : α) : (pure value : Program ι ρ α) = .done value := rfl

@[simp] theorem bind_done (value : α) (k : α → Program ι ρ β) : (Program.done value >>= k) = k value := rfl

@[simp] theorem bind_step (command : ι) (next : ρ command → Program ι ρ α) (k : α → Program ι ρ β) :
    (Program.step command next >>= k) = .step command (fun answer => next answer >>= k) := rfl

section Run

variable (handle : (command : ι) → σ → ρ command × σ)

@[simp] theorem run_done (value : α) (s : σ) : (Program.done value : Program ι ρ α).run handle s = (value, s) := rfl

@[simp] theorem run_step (command : ι) (next : ρ command → Program ι ρ α) (s : σ) :
    (Program.step command next).run handle s = (next (handle command s).1).run handle (handle command s).2 := rfl

@[simp] theorem run_bind (p : Program ι ρ α) (k : α → Program ι ρ β) (s : σ) :
    (p >>= k).run handle s = (k (p.run handle s).1).run handle (p.run handle s).2 := by
  induction p generalizing s with
  | done value => rfl
  | step command next ih => exact ih _ _

@[simp] theorem run_ite (c : Prop) [Decidable c] (p q : Program ι ρ α) (s : σ) :
    (if c then p else q).run handle s = if c then p.run handle s else q.run handle s := by
  split <;> rfl

end Run

-- Two handlers that answer alike and keep their states related run every
-- program to the same result and to related states.
theorem run_simulates (first : (command : ι) → σ → ρ command × σ) (second : (command : ι) → τ → ρ command × τ) (R : σ → τ → Prop)
    (steps : ∀ command s t, R s t → (first command s).1 = (second command t).1 ∧ R (first command s).2 (second command t).2)
    (p : Program ι ρ α) (s : σ) (t : τ) (related : R s t) :
    (p.run first s).1 = (p.run second t).1 ∧ R (p.run first s).2 (p.run second t).2 := by
  induction p generalizing s t with
  | done value => exact ⟨rfl, related⟩
  | step command next ih =>
    obtain ⟨answer, after⟩ := steps command s t related
    rw [run_step, answer]
    exact ih _ _ _ after

def Yields (Q : α → Prop) : Program ι ρ α → Prop
  | .done value => Q value
  | .step command next => ∀ answer : ρ command, (next answer).Yields Q

theorem yields_bind (Q : α → Prop) (S : β → Prop) (p : Program ι ρ α) (k : α → Program ι ρ β) (first : p.Yields Q)
    (rest : ∀ value, Q value → (k value).Yields S) : (p >>= k).Yields S := by
  induction p with
  | done value => exact rest value first
  | step command next ih => exact fun answer => ih answer (first answer)

theorem yields_after (S : β → Prop) (p : Program ι ρ α) (k : α → Program ι ρ β) (rest : ∀ value, (k value).Yields S) :
    (p >>= k).Yields S := by
  induction p with
  | done value => exact rest value
  | step command next ih => exact fun answer => ih answer

theorem yields_ite (Q : α → Prop) (c : Prop) [Decidable c] (p q : Program ι ρ α) (yes : p.Yields Q) (no : q.Yields Q) :
    (if c then p else q).Yields Q := by
  split
  · exact yes
  · exact no

theorem yields_mono (Q S : α → Prop) (p : Program ι ρ α) (weaker : ∀ value, Q value → S value) (yields : p.Yields Q) :
    p.Yields S := by
  induction p with
  | done value => exact weaker value yields
  | step command next ih => exact fun answer => ih answer (yields answer)

theorem yields_run (handle : (command : ι) → σ → ρ command × σ) (Q : α → Prop) (p : Program ι ρ α) (s : σ)
    (yields : p.Yields Q) : Q (p.run handle s).1 := by
  induction p generalizing s with
  | done value => exact yields
  | step command next ih => exact ih _ _ (yields _)

def Triple (handle : (command : ι) → σ → ρ command × σ) (pre : σ → Prop) (p : Program ι ρ α) (post : α → σ → Prop) : Prop :=
  ∀ s, pre s → post (p.run handle s).1 (p.run handle s).2

section Rules

variable {handle : (command : ι) → σ → ρ command × σ} {pre : σ → Prop}

theorem triple_bind {post : β → σ → Prop} (p : Program ι ρ α) (k : α → Program ι ρ β) (middle : α → σ → Prop)
    (first : Triple handle pre p middle) (rest : ∀ value, Triple handle (middle value) (k value) post) :
    Triple handle pre (p >>= k) post := by
  intro s holds
  rw [run_bind]
  exact rest _ _ (first s holds)

end Rules

-- Every command the run issues meets `P` in the state it is issued in.
def Along (handle : (command : ι) → σ → ρ command × σ) (P : ι → σ → Prop) : Program ι ρ α → σ → Prop
  | .done _, _ => True
  | .step command next, s => P command s ∧ (next (handle command s).1).Along handle P (handle command s).2

theorem along_bind (handle : (command : ι) → σ → ρ command × σ) (P : ι → σ → Prop) (p : Program ι ρ α)
    (k : α → Program ι ρ β) (s : σ) :
    (p >>= k).Along handle P s ↔ p.Along handle P s ∧ (k (p.run handle s).1).Along handle P (p.run handle s).2 := by
  induction p generalizing s with
  | done value => simp only [bind_done, Along, run_done, true_and]
  | step command next ih =>
    have rest := ih (handle command s).1 (handle command s).2
    simp only [bind_step, Along, run_step, rest, and_assoc]

theorem along_true (handle : (command : ι) → σ → ρ command × σ) (p : Program ι ρ α) (s : σ) : p.Along handle (fun _ _ => True) s := by
  induction p generalizing s with
  | done value => trivial
  | step command next ih => exact ⟨trivial, ih _ _⟩

theorem along_mono (handle : (command : ι) → σ → ρ command × σ) {P Q : ι → σ → Prop} (weaker : ∀ command s, P command s → Q command s)
    (p : Program ι ρ α) (s : σ) (along : p.Along handle P s) : p.Along handle Q s := by
  induction p generalizing s with
  | done value => trivial
  | step command next ih => exact ⟨weaker command s along.1, ih _ _ along.2⟩

theorem along_run (handle : (command : ι) → σ → ρ command × σ) {P : ι → σ → Prop} {J : σ → Prop}
    (steps : ∀ command s, P command s → J s → J (handle command s).2) (p : Program ι ρ α) (s : σ) (along : p.Along handle P s)
    (holds : J s) : J (p.run handle s).2 := by
  induction p generalizing s with
  | done value => exact holds
  | step command next ih => exact ih _ _ along.2 (steps command s along.1 holds)

instance alongDecidable (handle : (command : ι) → σ → ρ command × σ) (P : ι → σ → Prop) [∀ command s, Decidable (P command s)] :
    (p : Program ι ρ α) → (s : σ) → Decidable (p.Along handle P s)
  | .done _, _ => .isTrue trivial
  | .step command next, s => match (inferInstance : Decidable (P command s)) with
    | .isFalse no => .isFalse fun along => no along.1
    | .isTrue yes =>
      match alongDecidable handle P (next (handle command s).1) (handle command s).2 with
      | .isFalse no => .isFalse fun along => no along.2
      | .isTrue rest => .isTrue ⟨yes, rest⟩

-- If every command of the run meets `C`, every command of it meets `P`, and the run ends where `post` holds.
def Assures (handle : (command : ι) → σ → ρ command × σ) (C P : ι → σ → Prop) (p : Program ι ρ α) (s : σ) (post : α → σ → Prop) :
    Prop :=
  p.Along handle C s → p.Along handle P s ∧ post (p.run handle s).1 (p.run handle s).2

section Assures

variable {handle : (command : ι) → σ → ρ command × σ} {C P : ι → σ → Prop}

variable {post : α → σ → Prop}

theorem assures_done (value : α) (s : σ) (holds : post value s) :
    Assures handle C P (.done value) s post := fun _ => ⟨trivial, holds⟩

theorem assures_step (command : ι) (next : ρ command → Program ι ρ α) (s : σ) (kept : C command s → P command s)
    (rest : C command s → Assures handle C P (next (handle command s).1) (handle command s).2 post) :
    Assures handle C P (.step command next) s post := by
  intro along
  obtain ⟨after, holds⟩ := rest along.1 along.2
  exact ⟨⟨kept along.1, after⟩, holds⟩

variable (p : Program ι ρ α)

theorem assures_bind {post : β → σ → Prop} (k : α → Program ι ρ β) (s : σ) (middle : α → σ → Prop)
    (first : Assures handle C P p s middle) (rest : ∀ value t, middle value t → Assures handle C P (k value) t post) :
    Assures handle C P (p >>= k) s post := by
  intro along
  rw [along_bind] at along ⊢
  obtain ⟨before, holds⟩ := first along.1
  obtain ⟨after, ends⟩ := rest _ _ holds along.2
  rw [run_bind]
  exact ⟨⟨before, after⟩, ends⟩

theorem assures_mono {weak strong : α → σ → Prop} (s : σ) (weaker : ∀ value t, strong value t → weak value t)
    (holds : Assures handle C P p s strong) : Assures handle C P p s weak :=
  fun along => ⟨(holds along).1, weaker _ _ (holds along).2⟩

end Assures

end Program

end Didux
