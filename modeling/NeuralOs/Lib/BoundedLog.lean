import Mathlib

/-!
# A log that keeps its last entries

A bounded list that drops its oldest entry when a new one arrives holds the
last entries of the log without a bound. An entry that is unique can be
changed in either, and a search from the newest entry finds the same one as
long as it is recent enough.
-/

set_option autoImplicit false

namespace NeuralOs.BoundedLog

variable {α : Type*}

def push (cap : ℕ) (l : List α) (x : α) : List α :=
  (if l.length ≥ cap then l.tail else l) ++ [x]

def modifyFirst (p : α → Bool) (f : α → α) : List α → List α
  | [] => []
  | x::l => if p x then f x::l else x::modifyFirst p f l

variable {cap : ℕ} {p : α → Bool} {f : α → α} {log : List α}

theorem push_rtake (hcap : 0 < cap) (log : List α) (x : α) :
    push cap (log.rtake cap) x = (log++[x]).rtake cap := by
  unfold push List.rtake
  rw [List.length_drop, List.length_append, List.length_singleton]
  by_cases hfull : cap ≤ log.length
  · have hlen : log.length - (log.length-cap) ≥ cap := by omega
    have hdrop : log.length+1-cap = (log.length-cap)+1 := by omega
    rw [if_pos hlen, List.tail_drop, hdrop, List.drop_append_of_le_length (by omega)]
  · have hlen : ¬ log.length - (log.length-cap) ≥ cap := by omega
    have hnone : log.length-cap = 0 := by omega
    have hdrop : log.length+1-cap = 0 := by omega
    rw [if_neg hlen, hnone, hdrop, List.drop_zero, List.drop_zero]

theorem modifyFirst_length (l : List α) : (modifyFirst p f l).length = l.length := by
  induction l with
  | nil => rfl
  | cons x l ih =>
    rw [modifyFirst]
    split
    · rfl
    · rw [List.length_cons, List.length_cons, ih]

theorem modifyFirst_absent {l : List α} (h : ∀ x ∈ l, p x = false) : modifyFirst p f l = l := by
  induction l with
  | nil => rfl
  | cons x l ih =>
    have hx := h x List.mem_cons_self
    rw [modifyFirst, hx, if_neg (by decide), ih fun y hy => h y (List.mem_cons_of_mem x hy)]

theorem modifyFirst_drop {l : List α} (hone : l.Pairwise fun x y => p x = true → p y = false)
    (n : ℕ) : (modifyFirst p f l).drop n = modifyFirst p f (l.drop n) := by
  induction l generalizing n with
  | nil => simp [modifyFirst]
  | cons x l ih =>
    obtain ⟨hx, hl⟩ := List.pairwise_cons.mp hone
    cases n with
    | zero => rfl
    | succ n =>
      rw [List.drop_succ_cons, modifyFirst]
      split
      next hp =>
        rw [List.drop_succ_cons, modifyFirst_absent]
        intro y hy
        exact hx y (List.mem_of_mem_drop hy) hp
      next => exact ih hl n

theorem modifyFirst_rtake (hone : log.Pairwise fun x y => p x = true → p y = false) :
    (modifyFirst p f log).rtake cap = modifyFirst p f (log.rtake cap) := by
  rw [List.rtake, List.rtake, modifyFirst_length, modifyFirst_drop hone]

theorem find_take (l : List α) (n : ℕ) : (l.take n).find? p =
    if (l.takeWhile fun x => !p x).length < n then l.find? p else none := by
  induction l generalizing n with
  | nil => cases n <;> simp
  | cons x l ih =>
    cases n with
    | zero => simp
    | succ n =>
      cases hx : p x with
      | true => simp [hx]
      | false => simp [hx, ih n]

theorem find_rtake (log : List α) : (log.rtake cap).reverse.find? p =
    if (log.reverse.takeWhile fun x => !p x).length < cap then log.reverse.find? p else none := by
  rw [List.rtake_eq_reverse_take_reverse, List.reverse_reverse, find_take]

end NeuralOs.BoundedLog
