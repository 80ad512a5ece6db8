import NeuralOs.Lib.ByteString
import NeuralOs.Lib.MeasuredLoop

/-!
# Checked byte access

A computation over received bytes ends with a value, with an error that it
reports, or with a panic: an index, a slice or a subtraction out of bounds.
The rules below show, connective by connective, that a computation is safe.
-/

set_option autoImplicit false

namespace NeuralOs.Checked
open ByteString

inductive Stop (ε : Type)
  | panic
  | refused (e : ε)
  deriving DecidableEq

/-- A computation without errors of its own: it returns or panics. -/
abbrev Run (α : Type) := Except (Stop Empty) α

variable {ε α β : Type}

/-- `b[i]` -/
def byteAt (b : Bytes) (i : ℕ) : Except (Stop ε) UInt8 :=
  match b[i]? with
  | some x => .ok x
  | none => .error .panic

/-- `&b[i..j]` -/
def sub (b : Bytes) (i j : ℕ) : Except (Stop ε) Bytes :=
  if i ≤ j ∧ j ≤ b.length then .ok (slice b i (j-i)) else .error .panic

/-- `m - n` on unsigned integers. -/
def minus (m n : ℕ) : Except (Stop ε) ℕ := if n ≤ m then .ok (m-n) else .error .panic

/-- `o.ok_or(e)?` -/
def okOr (o : Option α) (e : ε) : Except (Stop ε) α :=
  match o with
  | some a => .ok a
  | none => .error (.refused e)

def refuse (e : ε) : Except (Stop ε) α := .error (.refused e)

variable {b : Bytes} {f : α → Except (Stop ε) β} {i j : ℕ} {x : Except (Stop ε) α}

theorem bind_ok {b : β} : x >>= f = .ok b ↔ ∃ a, x = .ok a ∧ f a = .ok b := by
  cases x with
  | error e =>
    constructor
    · intro h
      cases h
    · rintro ⟨a, h, -⟩
      cases h
  | ok a =>
    constructor
    · intro h
      exact ⟨a, rfl, h⟩
    · rintro ⟨c, h, hb⟩
      cases h
      exact hb

@[simp] theorem ok_bind (a : α) (f : α → Except (Stop ε) β) : (Except.ok a >>= f) = f a := rfl

theorem byteAt_eq (h : i < b.length) : (byteAt b i : Except (Stop ε) UInt8) = .ok b[i] := by
  simp [byteAt, h]

theorem sub_eq (h : i ≤ j) (hj : j ≤ b.length) :
    (sub b i j : Except (Stop ε) Bytes) = .ok (slice b i (j-i)) := if_pos ⟨h, hj⟩

theorem sub_ok {d : Bytes} (h : (sub b i j : Except (Stop ε) Bytes) = .ok d) :
    i ≤ j ∧ j ≤ b.length ∧ d = slice b i (j-i) := by
  rw [sub] at h
  split at h
  next hij => exact ⟨hij.1, hij.2, (Except.ok.inj h).symm⟩
  · cases h

theorem okOr_ok {o : Option α} {e : ε} {a : α} (h : okOr o e = .ok a) : o = some a := by
  cases o with
  | none => cases h
  | some b => exact congrArg some (Except.ok.inj h)

theorem unit_bind_ok {x : Except (Stop ε) Unit} {f : Unit → Except (Stop ε) β} {b : β} :
    x >>= f = .ok b ↔ x = .ok () ∧ f () = .ok b := by
  rw [bind_ok]
  exact ⟨fun ⟨_, h, hb⟩ => ⟨h, hb⟩, fun ⟨h, hb⟩ => ⟨(), h, hb⟩⟩

theorem okOr_ok_iff {o : Option α} {e : ε} {a : α} : okOr o e = .ok a ↔ o = some a := by
  cases o with
  | none => simp [okOr]
  | some b => simp [okOr]

def Safe (x : Except (Stop ε) α) : Prop := x ≠ .error .panic

theorem safe_ok (a : α) : Safe (.ok a : Except (Stop ε) α) := by simp [Safe]

theorem safe_refuse (e : ε) : Safe (refuse e : Except (Stop ε) α) := by simp [Safe, refuse]

theorem safe_okOr {o : Option α} {e : ε} : Safe (okOr o e) := by
  cases o <;> simp [Safe, okOr]

theorem safe_byteAt (h : i < b.length) : Safe (byteAt b i : Except (Stop ε) UInt8) := by
  simp [Safe, byteAt_eq h]

theorem safe_sub (h : i ≤ j) (hj : j ≤ b.length) : Safe (sub b i j : Except (Stop ε) Bytes) := by
  simp [Safe, sub_eq h hj]

theorem safe_bind (hx : Safe x) (hf : ∀ a, x = .ok a → Safe (f a)) : Safe (x >>= f) := by
  cases x with
  | error e =>
    intro h
    cases h
    exact hx rfl
  | ok a => exact hf a rfl

theorem safe_ite {c : Prop} [Decidable c] {y : Except (Stop ε) α} (hx : c → Safe x)
    (hy : ¬c → Safe y) : Safe (if c then x else y) := by
  split
  · exact hx (by assumption)
  · exact hy (by assumption)

def Refused (x : Except (Stop ε) α) : Prop := ∃ e, x = .error (.refused e)

theorem refused_of_safe {x : Except (Stop ε) Unit} (hs : Safe x) (h : x ≠ .ok ()) : Refused x := by
  cases x with
  | ok u => exact absurd rfl h
  | error e =>
    cases e with
    | panic => exact absurd rfl hs
    | refused e => exact ⟨e, rfl⟩

theorem refused_bind (hx : Safe x) (hf : ∀ a, x = .ok a → Refused (f a)) : Refused (x >>= f) := by
  cases x with
  | ok a => exact hf a rfl
  | error e =>
    cases e with
    | panic => exact absurd rfl hx
    | refused e => exact ⟨e, rfl⟩

theorem Refused.bind (hx : Refused x) (f : α → Except (Stop ε) β) : Refused (x >>= f) := by
  obtain ⟨e, rfl⟩ := hx
  exact ⟨e, rfl⟩

end NeuralOs.Checked

/-! ## Machine arithmetic and loops that may panic -/

namespace NeuralOs.CheckedLoop
open Checked MeasuredLoop

variable {ε σ ρ : Type}

/-- `m + n` on `u64` and `usize`. -/
def plus (m n : ℕ) : Except (Stop ε) ℕ := if m+n < 2^64 then .ok (m+n) else .error .panic

theorem plus_eq {m n : ℕ} (h : m+n < 2^64) : (plus m n : Except (Stop ε) ℕ) = .ok (m+n) :=
  if_pos h

theorem plus_panics {m n : ℕ} (h : 2^64 ≤ m+n) :
    (plus m n : Except (Stop ε) ℕ) = .error .panic := if_neg (not_lt.mpr h)

def checkedStep (step : σ → Except (Stop ε) (σ ⊕ ρ)) (s : σ) : σ ⊕ Except (Stop ε) ρ :=
  match step s with
  | .error e => .inr (.error e)
  | .ok (.inl t) => .inl t
  | .ok (.inr r) => .inr (.ok r)

theorem checkedStep_ok {step : σ → Except (Stop ε) (σ ⊕ ρ)} {s : σ} {x : σ ⊕ ρ}
    (h : step s = .ok x) : checkedStep step s = x.map id .ok := by
  rw [checkedStep, h]
  cases x <;> rfl

theorem checkedStep_inl {step : σ → Except (Stop ε) (σ ⊕ ρ)} {s t : σ}
    (h : checkedStep step s = .inl t) : step s = .ok (.inl t) := by
  unfold checkedStep at h
  split at h
  · cases h
  · next hs => rw [hs, Sum.inl.inj h]
  · cases h

def checkedLoop (step : σ → Except (Stop ε) (σ ⊕ ρ)) (measure : σ → ℕ)
    (h : ∀ s t, step s = .ok (.inl t) → measure t < measure s) : Loop σ (Except (Stop ε) ρ) where
  step := checkedStep step
  measure := measure
  decreases s t ht := h s t (checkedStep_inl ht)

theorem exec_checked {l : Loop σ ρ} {step : σ → Except (Stop ε) (σ ⊕ ρ)} {measure : σ → ℕ}
    {h : ∀ s t, step s = .ok (.inl t) → measure t < measure s} (I : σ → Prop)
    (hok : ∀ s, I s → step s = .ok (l.step s)) (hkeep : ∀ s t, I s → l.step s = .inl t → I t)
    (s : σ) (hs : I s) : (checkedLoop step measure h).exec s = .ok (l.exec s) := by
  revert hs
  apply exec_rule l (fun s r => I s → (checkedLoop step measure h).exec s = .ok r)
  · intro s r hr hs
    apply exec_stop
    exact (checkedStep_ok (hok s hs)).trans (by rw [hr]; rfl)
  · intro s t r ht ih hs
    have hturn : (checkedLoop step measure h).step s = .inl t :=
      (checkedStep_ok (hok s hs)).trans (by rw [ht]; rfl)
    rw [exec_turn _ hturn]
    exact ih (hkeep s t hs ht)

end NeuralOs.CheckedLoop

/-! ## Runs of a machine that can panic -/

namespace NeuralOs.CheckedMachine
open Checked

variable {σ α : Type} (step : σ → α → Run σ)

def run : σ → List α → Run σ
  | s, [] => .ok s
  | s, a::l => do
    let s' ← step s a
    run s' l

def Along (P : σ → α → Prop) : σ → List α → Prop
  | _, [] => True
  | s, a::l => P s a ∧ ∀ s', step s a = .ok s' → Along P s' l

variable {step}

theorem run_append (s : σ) (l m : List α) :
    run step s (l++m) = run step s l >>= fun s' => run step s' m := by
  induction l generalizing s with
  | nil => rfl
  | cons a l ih =>
    rw [List.cons_append, run, run]
    cases step s a with
    | error e => rfl
    | ok s' => exact ih s'

theorem along_append {P : σ → α → Prop} {s : σ} {l m : List α} :
    Along step P s (l++m) ↔ Along step P s l ∧ ∀ s', run step s l = .ok s' → Along step P s' m := by
  induction l generalizing s with
  | nil =>
    constructor
    · intro h
      refine ⟨trivial, fun s' hs => ?_⟩
      cases hs
      exact h
    · intro h
      exact h.2 s rfl
  | cons a l ih =>
    constructor
    · intro h
      refine ⟨⟨h.1, fun s' hs => (ih.mp (h.2 s' hs)).1⟩, fun t ht => ?_⟩
      obtain ⟨s', hs, hrun⟩ := bind_ok.mp ht
      exact (ih.mp (h.2 s' hs)).2 t hrun
    · intro h
      refine ⟨h.1.1, fun s' hs => ih.mpr ⟨h.1.2 s' hs, fun t ht => h.2 t ?_⟩⟩
      rw [run, hs, ok_bind, ht]

theorem first_failure {P : σ → α → Prop} {s : σ} {l : List α} (h : ¬Along step P s l) :
    ∃ l₁ a l₂ s', l = l₁++a::l₂ ∧ Along step P s l₁ ∧ run step s l₁ = .ok s' ∧ ¬P s' a := by
  induction l generalizing s with
  | nil => exact absurd trivial h
  | cons a l ih =>
    by_cases ha : P s a
    · have hrest : ∃ s', step s a = .ok s' ∧ ¬Along step P s' l := by
        by_contra hnone
        exact h ⟨ha, fun s' hs => by_contra fun hl => hnone ⟨s', hs, hl⟩⟩
      obtain ⟨s', hs, hl⟩ := hrest
      obtain ⟨l₁, b, l₂, t, rfl, hal, hrun, hb⟩ := ih hl
      refine ⟨a::l₁, b, l₂, t, rfl, ⟨ha, fun u hu => ?_⟩, ?_, hb⟩
      · rw [hs] at hu
        cases hu
        exact hal
      · rw [run, hs, ok_bind, hrun]
    · exact ⟨[], a, l, s, rfl, trivial, rfl, ha⟩

end NeuralOs.CheckedMachine
