import Mathlib

/-!
# Lists of keyed entries

The entries of a search-tree node: a list kept in increasing key order, searched
from the front and changed at the place the search ends.
-/

set_option autoImplicit false

namespace NeuralOs.KeyedList

variable {κ α β : Type} [LinearOrder κ]

def Sorted (l : List (κ × α)) : Prop := l.Pairwise fun a b => a.1 < b.1

def ins (k : κ) (v : α) : List (κ × α) → List (κ × α)
  | [] => [(k, v)]
  | e::l => if k < e.1 then (k, v) :: e :: l else e :: ins k v l

variable {k : κ} {v : α} {l a b : List (κ × α)} {i p : ℕ}

theorem ins_perm (k : κ) (v : α) (l : List (κ × α)) : (ins k v l).Perm ((k, v) :: l) := by
  induction l with
  | nil => exact List.Perm.refl _
  | cons e l ih =>
    rw [ins]
    split
    · exact List.Perm.refl _
    · exact (ih.cons e).trans (List.Perm.swap ..)

theorem mem_ins {e : κ × α} : e ∈ ins k v l ↔ e = (k, v) ∨ e ∈ l := by
  rw [(ins_perm k v l).mem_iff, List.mem_cons]

theorem length_ins : (ins k v l).length = l.length+1 := by
  simpa using (ins_perm k v l).length_eq

theorem sorted_ins (h : Sorted l) (hk : ∀ e ∈ l, e.1 ≠ k) : Sorted (ins k v l) := by
  induction l with
  | nil => exact List.pairwise_singleton _ _
  | cons e l ih =>
    obtain ⟨he, hl⟩ := List.pairwise_cons.mp h
    rw [ins]
    split
    · next hlt =>
      refine List.pairwise_cons.mpr ⟨fun x hx => ?_, h⟩
      rcases List.mem_cons.mp hx with rfl | hx
      · exact hlt
      · exact lt_trans hlt (he x hx)
    · next hge =>
      have hlt : e.1 < k := lt_of_le_of_ne (not_lt.mp hge) (hk e (List.mem_cons_self ..))
      refine List.pairwise_cons.mpr ⟨fun x hx => ?_, ih hl fun x hx =>
        hk x (List.mem_cons_of_mem _ hx)⟩
      rcases mem_ins.mp hx with rfl | hx
      · exact hlt
      · exact he x hx

theorem lookup_iff_mem (h : Sorted l) : l.lookup k = some v ↔ (k, v) ∈ l := by
  induction l with
  | nil => simp
  | cons e l ih =>
    obtain ⟨he, hl⟩ := List.pairwise_cons.mp h
    obtain ⟨ek, ev⟩ := e
    rw [List.lookup_cons, List.mem_cons]
    by_cases hk : k = ek
    · subst hk
      have hn : (k, v) ∉ l := fun hm => lt_irrefl k (he (k, v) hm)
      simp [hn, eq_comm]
    · have hb : (k == ek) = false := by simpa using hk
      simp [hb, ih hl, hk]

end NeuralOs.KeyedList
