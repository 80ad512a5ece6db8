import Mathlib

/-!
# Hash chains

Each entry of a chain carries the digest of the entry before it and of its own
body. Any bodies can be chained, every first part of a chain is a chain, and two
chains of one length that end in the same digest are equal when the digests in
play do not collide.
-/

set_option autoImplicit false

namespace NeuralOs.HashChain

variable {α δ : Type*} (link : δ → α → δ)

def Chained : δ → List (α × δ) → Prop
  | _, [] => True
  | prev, (a, h)::l => h = link prev a ∧ Chained h l

def endOf : δ → List (α × δ) → δ
  | base, [] => base
  | _, (_, h)::l => endOf h l

def inputs : δ → List (α × δ) → List (δ × α)
  | _, [] => []
  | prev, (a, h)::l => (prev, a) :: inputs h l

def chainOf : δ → List α → List (α × δ)
  | _, [] => []
  | prev, a::l => (a, link prev a) :: chainOf (link prev a) l

variable {link}

theorem chainOf_chained {base : δ} {l : List α} : Chained link base (chainOf link base l) := by
  induction l generalizing base with
  | nil => trivial
  | cons a l ih => exact ⟨rfl, ih⟩

variable {base : δ} {l : List (α × δ)}

theorem chained_append {m : List (α × δ)} :
    Chained link base (l++m) ↔ Chained link base l ∧ Chained link (endOf base l) m := by
  induction l generalizing base with
  | nil => simp [Chained, endOf]
  | cons x l ih => simp [Chained, endOf, ih, and_assoc]

theorem chained_take (h : Chained link base l) (k : ℕ) : Chained link base (l.take k) := by
  rw [← List.take_append_drop k l] at h
  exact (chained_append.mp h).1

@[simp] theorem endOf_snoc (base : δ) (l : List (α × δ)) (x : α × δ) :
    endOf base (l++[x]) = x.2 := by
  induction l generalizing base with
  | nil => rfl
  | cons y l ih => exact ih _

theorem inputs_snoc (base : δ) (l : List (α × δ)) (x : α × δ) :
    inputs base (l++[x]) = inputs base l ++ [(endOf base l, x.1)] := by
  induction l generalizing base with
  | nil => rfl
  | cons y l ih => simp [inputs, endOf, ih]

theorem chained_unique {m : List (α × δ)} (hl : Chained link base l)
    (hm : Chained link base m) (hlen : l.length = m.length) (hend : endOf base l = endOf base m)
    (hinj : ∀ x ∈ inputs base l, ∀ y ∈ inputs base m, link x.1 x.2 = link y.1 y.2 → x = y) :
    l = m := by
  induction l using List.reverseRecOn generalizing m with
  | nil => exact (List.eq_nil_of_length_eq_zero hlen.symm).symm
  | append_singleton l x ih =>
    rcases List.eq_nil_or_concat m with rfl | ⟨m, y, rfl⟩
    · simp at hlen
    rw [List.concat_eq_append] at hm hlen hend hinj ⊢
    rw [endOf_snoc, endOf_snoc] at hend
    obtain ⟨hl, hx, -⟩ := chained_append.mp hl
    obtain ⟨hm, hy, -⟩ := chained_append.mp hm
    have hlast := hinj (endOf base l, x.1) (by simp [inputs_snoc]) (endOf base m, y.1)
      (by simp [inputs_snoc]) (hx.symm.trans (hend.trans hy))
    rw [Prod.mk.injEq] at hlast
    have hrest : l = m := by
      refine ih hl hm (by simpa using hlen) hlast.1 fun u hu v hv => ?_
      exact hinj u (by simp [inputs_snoc, hu]) v (by simp [inputs_snoc, hv])
    rw [hrest, Prod.ext hlast.2 hend]

end NeuralOs.HashChain
