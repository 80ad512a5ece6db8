import Mathlib

/-!
# While loops with a decreasing measure

A loop body either continues with a new state or stops with a result. Each
continuing turn lowers a natural measure, so the loop is a total function
and evaluates without a fuel argument. Properties of a run are proved from
its turns: an induction rule for one loop and a simulation rule for two.
-/

set_option autoImplicit false

namespace NeuralOs.MeasuredLoop

structure Loop (σ ρ : Type*) where
  step : σ → σ ⊕ ρ
  measure : σ → ℕ
  decreases : ∀ s t, step s = .inl t → measure t < measure s

variable {σ τ ρ κ : Type*}

/-- The bound `n` only drives the recursion; the result does not depend on it. -/
def Loop.turns (l : Loop σ ρ) : (n : ℕ) → (s : σ) → l.measure s < n → ρ
  | 0, _, h => absurd h (Nat.not_lt_zero _)
  | n+1, s, h =>
    match hs : l.step s with
    | .inr r => r
    | .inl t => l.turns n t (by have := l.decreases s t hs; omega)

def Loop.exec (l : Loop σ ρ) (s : σ) : ρ := l.turns (l.measure s+1) s (Nat.lt_succ_self _)

theorem turns_bound (l : Loop σ ρ) {n m : ℕ} {s : σ} {hn : l.measure s < n}
    {hm : l.measure s < m} : l.turns n s hn = l.turns m s hm := by
  induction n generalizing m s with
  | zero => omega
  | succ n ih =>
    cases m with
    | zero => omega
    | succ m =>
      rw [Loop.turns, Loop.turns]
      split
      · rfl
      · exact ih

variable {l : Loop σ ρ} {s t : σ}

theorem exec_stop (l : Loop σ ρ) {r : ρ} (h : l.step s = .inr r) : l.exec s = r := by
  rw [Loop.exec, Loop.turns]
  split
  · next r' hs => exact Sum.inr.inj (hs.symm.trans h)
  · next t hs => rw [hs] at h; cases h

theorem exec_turn (l : Loop σ ρ) (h : l.step s = .inl t) : l.exec s = l.exec t := by
  rw [Loop.exec, Loop.turns]
  split
  · next r hs => rw [hs] at h; cases h
  · next t' hs =>
    obtain rfl : t' = t := Sum.inl.inj (hs.symm.trans h)
    exact turns_bound l

theorem exec_rule (l : Loop σ ρ) (P : σ → ρ → Prop)
    (stop : ∀ s r, l.step s = .inr r → P s r)
    (turn : ∀ s t r, l.step s = .inl t → P t r → P s r) (s : σ) : P s (l.exec s) := by
  induction hm : l.measure s using Nat.strong_induction_on generalizing s with
  | _ m ih =>
    cases hs : l.step s with
    | inr r => rw [exec_stop l hs]; exact stop s r hs
    | inl t =>
      rw [exec_turn l hs]
      exact turn s t _ hs (ih _ (hm ▸ l.decreases s t hs) t rfl)

theorem exec_simulation (l : Loop σ ρ) (m : Loop τ κ) (R : σ → τ → Prop) (Q : ρ → κ → Prop)
    (stop : ∀ s t r, R s t → l.step s = .inr r → ∃ r', m.step t = .inr r' ∧ Q r r')
    (turn : ∀ s t s', R s t → l.step s = .inl s' → ∃ t', m.step t = .inl t' ∧ R s' t')
    (s : σ) (t : τ) (h : R s t) : Q (l.exec s) (m.exec t) := by
  revert t
  apply exec_rule l (fun s r => ∀ t, R s t → Q r (m.exec t))
  · intro s r hs t h
    obtain ⟨r', ht, hq⟩ := stop s t r h hs
    rw [exec_stop m ht]
    exact hq
  · intro s s' r hs ih t h
    obtain ⟨t', ht, hr⟩ := turn s t s' h hs
    rw [exec_turn m ht]
    exact ih t' hr

inductive Visits (l : Loop σ ρ) (s : σ) : σ → Prop
  | start : Visits l s s
  | turn {t u : σ} (h : Visits l s t) (hs : l.step t = .inl u) : Visits l s u

theorem visits_stop {u : σ} {r : ρ} (hs : l.step s = .inr r) : Visits l s u ↔ u = s := by
  constructor
  · intro h
    induction h with
    | start => rfl
    | turn _ hu ih =>
      rw [ih, hs] at hu
      cases hu
  · rintro rfl
    exact .start

theorem visits_turn {u : σ} (hs : l.step s = .inl t) : Visits l s u ↔ u = s ∨ Visits l t u := by
  constructor
  · intro h
    induction h with
    | start => exact .inl rfl
    | turn _ hu ih =>
      rcases ih with rfl | h
      · exact .inr (Sum.inl.inj (hs.symm.trans hu) ▸ .start)
      · exact .inr (.turn h hu)
  · rintro (rfl | h)
    · exact .start
    · induction h with
      | start => exact .turn .start hs
      | turn _ hu ih => exact .turn ih hu

theorem Visits.exec_eq (h : Visits l s t) : l.exec s = l.exec t := by
  induction h with
  | start => rfl
  | turn _ hs ih => exact ih.trans (exec_turn l hs)

end NeuralOs.MeasuredLoop
