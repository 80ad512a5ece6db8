import Mathlib

/-!
# Runs of a machine

A machine makes one total step for each action it is given, and a run is the
fold of the steps. An invariant is shown for one step and then holds after a
run, either when every step meets a condition or up to the point where a
bound that only the past can break is reached.
-/

set_option autoImplicit false

namespace NeuralOs.Machine

variable {σ α : Type*} (step : σ → α → σ)

def run : σ → List α → σ
  | s, [] => s
  | s, a::l => run (step s a) l

def Along (P : σ → α → Prop) : σ → List α → Prop
  | _, [] => True
  | s, a::l => P s a ∧ Along P (step s a) l

instance decidableAlong (P : σ → α → Prop) [∀ s a, Decidable (P s a)] :
    (s : σ) → (l : List α) → Decidable (Along step P s l)
  | _, [] => .isTrue trivial
  | s, a::l =>
    @instDecidableAnd (P s a) (Along step P (step s a) l) _ (decidableAlong P (step s a) l)

variable {step}

theorem run_append (s : σ) (l m : List α) : run step s (l++m) = run step (run step s l) m := by
  induction l generalizing s with
  | nil => rfl
  | cons a l ih => exact ih _

theorem run_invariant {I : σ → Prop} {P : σ → α → Prop}
    (hstep : ∀ s a, I s → P s a → I (step s a)) {s : σ} {l : List α} (hs : I s)
    (hl : Along step P s l) : I (run step s l) := by
  induction l generalizing s with
  | nil => exact hs
  | cons a l ih => exact ih (hstep s a hs hl.1) hl.2

theorem run_back {G : σ → Prop} (hback : ∀ s a, G (step s a) → G s) {s : σ} {l : List α}
    (h : G (run step s l)) : G s := by
  induction l generalizing s with
  | nil => exact h
  | cons a l ih => exact hback s a (ih h)

theorem run_within {I G : σ → Prop} (hback : ∀ s a, G (step s a) → G s)
    (hstep : ∀ s a, I s → G (step s a) → I (step s a)) {s : σ} {l : List α} (hs : I s)
    (h : G (run step s l)) : I (run step s l) := by
  induction l generalizing s with
  | nil => exact hs
  | cons a l ih => exact ih (hstep s a hs (run_back hback h)) h

end NeuralOs.Machine
