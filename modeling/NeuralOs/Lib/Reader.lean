import NeuralOs.Lib.Checked

/-!
# Readers and grammars

A reader goes through a byte string by position: it returns a value and the
position after it, refuses, or panics. A grammar says which values the bytes
between two positions denote. `Exact` says that a reader never panics and
reads precisely its grammar; the rules follow the ways readers are composed.
-/

set_option autoImplicit false

namespace NeuralOs.Reading
open Checked ByteString

structure Reader (ε α : Type) where
  run : ℕ → Except (Stop ε) (α × ℕ)

variable {ε α β : Type}

instance : Monad (Reader ε) where
  pure a := ⟨fun o => .ok (a, o)⟩
  bind r f := ⟨fun o => r.run o >>= fun p => (f p.1).run p.2⟩

def refuse (e : ε) : Reader ε α := ⟨fun _ => .error (.refused e)⟩

/-- Go on if `c` holds and refuse with `e` otherwise. -/
def require (c : Prop) [Decidable c] (e : ε) : Reader ε Unit :=
  if c then pure () else refuse e

/-- The next `n` bytes: the end is computed with a check, compared with the
length, and then the bytes are indexed. -/
def take (data : Bytes) (n : ℕ) (e : ε) : Reader ε Bytes where
  run o :=
    if o+n < 2^64 then
      if o+n > data.length then .error (.refused e)
      else sub data o (o+n) >>= fun b => .ok (b, o+n)
    else .error (.refused e)

def peek (data : Bytes) (n : ℕ) (e : ε) : Reader ε Unit where
  run o := (require (o+n < 2^64 ∧ o+n ≤ data.length) e).run o

def many (r : Reader ε α) : ℕ → Reader ε (List α)
  | 0 => pure []
  | n+1 => do
    let a ← r
    let l ← many r n
    return a::l

/-- Which values the bytes from one position to another denote. -/
def Grammar (α : Type) : Type := ℕ → α → ℕ → Prop

def Field (data : Bytes) (n : ℕ) : Grammar Bytes := fun o b o' =>
  o' = o+n ∧ o+n ≤ data.length ∧ o+n < 2^64 ∧ b = slice data o n

def Many (G : Grammar α) : ℕ → Grammar (List α)
  | 0 => fun o l o' => l = [] ∧ o' = o
  | n+1 => fun o l o' => ∃ a m rest, G o a m ∧ Many G n m rest o' ∧ l = a::rest

/-- The reader never panics and returns exactly what the grammar denotes. -/
def Exact (r : Reader ε α) (G : Grammar α) : Prop :=
  ∀ o, Safe (r.run o) ∧ ∀ a o', r.run o = .ok (a, o') ↔ G o a o'

variable {G : Grammar α} {r : Reader ε α}

theorem Exact.safe (h : Exact r G) (o : ℕ) : Safe (r.run o) :=
  (h o).1

theorem Exact.ok_iff (h : Exact r G) {o : ℕ} {a : α} {o' : ℕ} :
    r.run o = .ok (a, o') ↔ G o a o' := (h o).2 a o'

theorem Exact.congr {H : Grammar α} (h : Exact r G)
    (hGH : ∀ o a o', G o a o' ↔ H o a o') : Exact r H :=
  fun o => ⟨h.safe o, fun a o' => h.ok_iff.trans (hGH o a o')⟩

theorem exact_pure (a : α) : Exact (pure a : Reader ε α) fun o b o' => b = a ∧ o' = o := by
  intro o
  refine ⟨safe_ok _, fun b o' => ?_⟩
  constructor
  · intro h
    cases h
    exact ⟨rfl, rfl⟩
  · rintro ⟨rfl, rfl⟩
    rfl

theorem exact_refuse (e : ε) : Exact (refuse e : Reader ε α) fun _ _ _ => False := by
  intro o
  refine ⟨safe_refuse e, fun a o' => ⟨fun h => ?_, False.elim⟩⟩
  cases h

theorem exact_bind {f : α → Reader ε β} {H : α → Grammar β}
    (hr : Exact r G) (hf : ∀ a, Exact (f a) (H a)) :
    Exact (r >>= f) fun o b o' => ∃ a m, G o a m ∧ H a m b o' := by
  intro o
  constructor
  · exact safe_bind (hr.safe o) fun p _ => (hf p.1).safe p.2
  intro b o'
  refine bind_ok.trans ?_
  constructor
  · rintro ⟨⟨a, m⟩, h1, h2⟩
    exact ⟨a, m, hr.ok_iff.mp h1, (hf a).ok_iff.mp h2⟩
  · rintro ⟨a, m, h1, h2⟩
    exact ⟨(a, m), hr.ok_iff.mpr h1, (hf a).ok_iff.mpr h2⟩

theorem exact_require (c : Prop) [Decidable c] (e : ε) :
    Exact (require c e) fun o _ o' => c ∧ o' = o := by
  by_cases hc : c
  · rw [require, if_pos hc]
    exact (exact_pure ()).congr fun o a o' => by simp [hc]
  · rw [require, if_neg hc]
    exact (exact_refuse e).congr fun o a o' => by simp [hc]

theorem exact_take (data : Bytes) (n : ℕ) (e : ε) : Exact (take data n e) (Field data n) := by
  intro o
  by_cases hw : o+n < 2^64
  · by_cases hl : o+n ≤ data.length
    · have hrun : (take data n e).run o = .ok (slice data o n, o+n) := by
        simp only [take, if_pos hw, if_neg (by omega : ¬o+n > data.length),
          sub_eq (Nat.le_add_right o n) hl, ok_bind, Nat.add_sub_cancel_left]
      rw [hrun]
      refine ⟨safe_ok _, fun b o' => ?_⟩
      simp only [Field, Except.ok.injEq, Prod.mk.injEq]
      constructor
      · rintro ⟨rfl, rfl⟩
        exact ⟨rfl, hl, hw, rfl⟩
      · rintro ⟨rfl, -, -, rfl⟩
        exact ⟨rfl, rfl⟩
    · have hrun : (take data n e).run o = .error (.refused e) := by
        simp only [take, if_pos hw, if_pos (by omega : o+n > data.length)]
      rw [hrun]
      refine ⟨safe_refuse e, fun b o' => ⟨fun h => ?_, fun h => absurd h.2.1 hl⟩⟩
      cases h
  · have hrun : (take data n e).run o = .error (.refused e) := by
      simp only [take, if_neg hw]
    rw [hrun]
    refine ⟨safe_refuse e, fun b o' => ⟨fun h => ?_, fun h => absurd h.2.2.1 hw⟩⟩
    cases h

theorem exact_peek (data : Bytes) (n : ℕ) (e : ε) : Exact (peek data n e)
    fun o _ o' => (o+n < 2^64 ∧ o+n ≤ data.length) ∧ o' = o := by
  intro o
  exact exact_require (o+n < 2^64 ∧ o+n ≤ data.length) e o

theorem exact_many (h : Exact r G) (n : ℕ) : Exact (many r n) (Many G n) := by
  induction n with
  | zero => exact exact_pure []
  | succ n ih =>
    refine (exact_bind h fun a => exact_bind ih fun l => exact_pure (a::l)).congr ?_
    intro o l o'
    constructor
    · rintro ⟨a, m, h1, rest, m', h2, rfl, rfl⟩
      exact ⟨a, m, rest, h1, h2, rfl⟩
    · rintro ⟨a, m, rest, h1, h2, rfl⟩
      exact ⟨a, m, h1, rest, o', h2, rfl, rfl⟩

end NeuralOs.Reading
