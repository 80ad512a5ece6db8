import Mathlib

/-!
# Bitmaps

A bitmap is read as the Boolean function of its bits. Runs of bits are marked
and cleared together, and a search returns the first position at which nothing
is in its way.
-/

set_option autoImplicit false

namespace NeuralOs.Bitmap

abbrev Bits := ℕ → Bool

def mark (b : Bits) (s n : ℕ) : Bits := fun i => b i || decide (s ≤ i ∧ i < s+n)

def clear (b : Bits) (s n : ℕ) : Bits := fun i => b i && !decide (s ≤ i ∧ i < s+n)

def nextClear (b : Bits) : ℕ → ℕ → Option ℕ
  | _, 0 => none
  | i, n+1 => if b i then nextClear b (i+1) n else some i

/-- The first set bit of a run, counted from the start of the run. -/
def obstacle (b : Bits) (i count : ℕ) : Option ℕ := (List.range count).find? fun j => b (i+j)

/-- Move from obstacle to obstacle until a position has none; `next i` is where
the search goes on when position `i` is obstructed. -/
def search (more : ℕ → Bool) (next : ℕ → Option ℕ) : ℕ → ℕ → Option ℕ
  | 0, _ => none
  | n+1, i =>
    if more i then
      match next i with
      | some j => search more next n j
      | none => some i
    else none

variable {b : Bits} {i j s n : ℕ}

@[simp] theorem mark_iff : mark b s n i = true ↔ b i = true ∨ s ≤ i ∧ i < s+n := by
  simp [mark]

@[simp] theorem clear_iff : clear b s n i = true ↔ b i = true ∧ ¬(s ≤ i ∧ i < s+n) := by
  simp only [clear, Bool.and_eq_true, Bool.not_eq_true', decide_eq_false_iff_not]

theorem mark_outside (h : i < s ∨ s+n ≤ i) : mark b s n i = b i := by
  rw [Bool.eq_iff_iff, mark_iff]
  exact or_iff_left (by omega)

theorem clear_outside (h : i < s ∨ s+n ≤ i) : clear b s n i = b i := by
  rw [Bool.eq_iff_iff, clear_iff]
  exact and_iff_left (by omega)

theorem mark_zero (b : Bits) (s : ℕ) : mark b s 0 = b := by
  funext i
  exact mark_outside (by omega)

theorem mark_mark (b : Bits) (s m n : ℕ) : mark (mark b s m) (s+m) n = mark b s (m+n) := by
  funext i
  rw [Bool.eq_iff_iff]
  simp only [mark_iff, or_assoc]
  exact or_congr_right (by omega)

theorem nextClear_some {k : ℕ} (h : nextClear b i n = some k) : b k = false ∧ i ≤ k ∧ k < i+n := by
  induction n generalizing i with
  | zero => simp [nextClear] at h
  | succ n ih =>
    by_cases hb : b i
    · obtain ⟨h₁, h₂, h₃⟩ := ih (by simpa [nextClear, hb] using h)
      exact ⟨h₁, by omega, by omega⟩
    · obtain rfl : i = k := by simpa [nextClear, hb] using h
      exact ⟨by simpa using hb, le_rfl, by omega⟩

theorem nextClear_none (h : nextClear b i n = none) {k : ℕ} (hk : i ≤ k) (hn : k < i+n) :
    b k = true := by
  induction n generalizing i with
  | zero => omega
  | succ n ih =>
    by_cases hb : b i
    · rcases Nat.eq_or_lt_of_le hk with rfl | hlt
      · exact hb
      · exact ih (by simpa [nextClear, hb] using h) hlt (by omega)
    · simp [nextClear, hb] at h

theorem nextClear_first {k : ℕ} (h : nextClear b i n = some k) {j : ℕ} (hi : i ≤ j)
    (hj : j < k) : b j = true := by
  induction n generalizing i with
  | zero => simp [nextClear] at h
  | succ n ih =>
    by_cases hb : b i
    · rcases Nat.eq_or_lt_of_le hi with rfl | hlt
      · exact hb
      · exact ih (by simpa [nextClear, hb] using h) hlt
    · obtain rfl : i = k := by simpa [nextClear, hb] using h
      omega

theorem obstacle_some {count : ℕ} (h : obstacle b i count = some j) :
    j < count ∧ b (i+j) = true := by
  have hj := List.find?_some h
  exact ⟨List.mem_range.mp (List.mem_of_find?_eq_some h), hj⟩

theorem obstacle_none {count : ℕ} (h : obstacle b i count = none) (hj : j < count) :
    b (i+j) = false := by
  simpa using List.find?_eq_none.mp h j (List.mem_range.mpr hj)

theorem search_some {more : ℕ → Bool} {next : ℕ → Option ℕ} {k : ℕ}
    (h : search more next n i = some k) : more k = true ∧ next k = none := by
  induction n generalizing i with
  | zero => simp [search] at h
  | succ n ih =>
    rw [search] at h
    split at h
    · split at h
      · exact ih h
      · obtain rfl : i = k := by simpa using h
        exact ⟨by assumption, by assumption⟩
    · simp at h

theorem search_reaches {more : ℕ → Bool} {next : ℕ → Option ℕ} {I : ℕ → Prop} {t : ℕ}
    (hmore : ∀ p ≤ t, more p = true) (ht : next t = none)
    (hstep : ∀ p q, I p → p < t → next p = some q → I q ∧ p < q ∧ q ≤ t) (hI : I i)
    (hi : i ≤ t) (hn : t < i+n) : ∃ k ≤ t, search more next n i = some k := by
  induction n generalizing i with
  | zero => omega
  | succ n ih =>
    rw [search, if_pos (hmore i hi)]
    cases hp : next i with
    | none => exact ⟨i, hi, rfl⟩
    | some q =>
      have hlt : i < t := by
        rcases Nat.eq_or_lt_of_le hi with rfl | hlt
        · rw [ht] at hp
          cases hp
        · exact hlt
      obtain ⟨hIq, hpq, hqt⟩ := hstep i q hI hlt hp
      exact ih hIq hqt (by omega)

theorem search_keeps {more : ℕ → Bool} {next : ℕ → Option ℕ} {I : ℕ → Prop} {k : ℕ}
    (hstep : ∀ p q, I p → next p = some q → I q) (hI : I i)
    (h : search more next n i = some k) : I k := by
  induction n generalizing i with
  | zero => simp [search] at h
  | succ n ih =>
    rw [search] at h
    split at h
    · split at h
      next q hq => exact ih (hstep i q hI hq) h
      · obtain rfl : i = k := by simpa using h
        exact hI
    · simp at h

end NeuralOs.Bitmap
