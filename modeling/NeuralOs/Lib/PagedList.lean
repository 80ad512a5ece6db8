import Mathlib

/-!
# Lists kept in pages

A list stored in pages of one size, with the number of elements in use. Pages are
asked for before elements are written, and the writes go page by page; nothing
already stored moves. What the pages hold is read as one list, and a push appends
to it.
-/

set_option autoImplicit false

namespace NeuralOs.PagedList

variable {α : Type}

def overwrite (off : ℕ) (d x : List α) : List α := x.take off ++ (d ++ x.drop (off+d.length))

variable {d x : List α}

theorem overwrite_length {off : ℕ} (h : off+d.length ≤ x.length) :
    (overwrite off d x).length = x.length := by
  simp only [overwrite, List.length_append, List.length_take, List.length_drop]
  omega

theorem overwrite_overwrite {off : ℕ} {e : List α} (h : off+d.length ≤ x.length) :
    overwrite (off+d.length) e (overwrite off d x) = overwrite off (d++e) x := by
  have hpre : (x.take off ++ d).length = off+d.length := by
    simp only [List.length_append, List.length_take]
    omega
  have hsplit : overwrite off d x = (x.take off ++ d) ++ x.drop (off+d.length) :=
    (List.append_assoc _ _ _).symm
  rw [hsplit, overwrite, List.take_left' hpre, List.drop_append, hpre,
    List.drop_eq_nil_of_le (by omega), List.nil_append, List.drop_drop, overwrite]
  simp only [List.append_assoc, List.length_append]
  rw [show off+d.length+(off+d.length+e.length-(off+d.length)) = off+(d.length+e.length) by omega]

theorem take_overwrite {off : ℕ} (h : off ≤ x.length) :
    (overwrite off d x).take (off+d.length) = x.take off ++ d := by
  have hpre : (x.take off ++ d).length = off+d.length := by
    simp only [List.length_append, List.length_take]
    omega
  rw [overwrite, ← List.append_assoc, List.take_left' hpre]

structure Paged (α : Type) (p : ℕ) where
  pages : List (List α)
  used : ℕ
  sized : ∀ q ∈ pages, q.length = p
  fits : used ≤ p*pages.length

variable {p : ℕ}

theorem flatten_length {pages : List (List α)} (h : ∀ q ∈ pages, q.length = p) :
    pages.flatten.length = p*pages.length := by
  induction pages with
  | nil => rfl
  | cons q pages ih =>
    rw [List.flatten_cons, List.length_append, h q List.mem_cons_self,
      ih fun r hr => h r (List.mem_cons_of_mem q hr), List.length_cons]
    ring

theorem flatten_modify {pages : List (List α)} {k off : ℕ}
    (h : ∀ q ∈ pages, q.length = p) (hk : k < pages.length) (hoff : off+d.length ≤ p) :
    (pages.modify k (overwrite off d)).flatten = overwrite (p*k+off) d pages.flatten := by
  induction pages generalizing k with
  | nil => cases hk
  | cons q pages ih =>
    have hq : q.length = p := h q List.mem_cons_self
    cases k with
    | zero =>
      rw [List.modify_zero_cons, List.flatten_cons, List.flatten_cons, Nat.mul_zero, Nat.zero_add,
        overwrite, overwrite, List.take_append_of_le_length (by omega),
        List.drop_append_of_le_length (by omega)]
      simp only [List.append_assoc]
    | succ k =>
      have hk' : k < pages.length := Nat.lt_of_succ_lt_succ hk
      have hpos : p*(k+1)+off = q.length+(p*k+off) := by
        rw [hq, Nat.mul_succ]
        omega
      rw [List.modify_succ_cons, List.flatten_cons, List.flatten_cons,
        ih (fun r hr => h r (List.mem_cons_of_mem q hr)) hk', overwrite, overwrite, hpos,
        List.take_length_add_append, Nat.add_assoc q.length, List.drop_length_add_append,
        List.append_assoc]

/-- Write page by page; each turn fills the current page or ends. -/
def writePages (p : ℕ) : ℕ → List (List α) → ℕ → List α → List (List α)
  | 0, pages, _, _ => pages
  | n+1, pages, pos, src =>
    if src = [] then pages
    else
      let k := min (p-pos%p) src.length
      writePages p n (pages.modify (pos/p) (overwrite (pos%p) (src.take k))) (pos+k) (src.drop k)

theorem modify_sized {pages : List (List α)} {k off : ℕ}
    (h : ∀ q ∈ pages, q.length = p) (hoff : off+d.length ≤ p) :
    ∀ q ∈ pages.modify k (overwrite off d), q.length = p := by
  intro q hq
  obtain ⟨i, hi⟩ := List.mem_iff_getElem?.mp hq
  rw [List.getElem?_modify] at hi
  cases hp : pages[i]? with
  | none =>
    rw [hp] at hi
    cases hi
  | some r =>
    have hr := h r (List.mem_of_getElem? hp)
    rw [hp, Option.map_eq_map, Option.map_some, Option.some.injEq] at hi
    subst hi
    split
    · rw [overwrite_length (by omega), hr]
    · exact hr

section write
variable {n pos : ℕ} {pages : List (List α)} {src : List α}

theorem turn_fits (hp : 0 < p) : pos%p+(src.take (min (p-pos%p) src.length)).length ≤ p := by
  have := Nat.mod_lt pos hp
  rw [List.length_take]
  omega

theorem writePages_sized (hp : 0 < p) (h : ∀ q ∈ pages, q.length = p) :
    (∀ q ∈ writePages p n pages pos src, q.length = p) ∧
      (writePages p n pages pos src).length = pages.length := by
  induction n generalizing pages pos src with
  | zero => exact ⟨h, rfl⟩
  | succ n ih =>
    rw [writePages]
    split
    · exact ⟨h, rfl⟩
    · have hsized : ∀ q ∈ pages.modify (pos/p)
          (overwrite (pos%p) (src.take (min (p-pos%p) src.length))), q.length = p :=
        modify_sized h (turn_fits hp)
      exact ⟨(ih hsized).1, (ih hsized).2.trans (List.length_modify _ _ _)⟩

theorem writePages_flatten (hp : 0 < p) (h : ∀ q ∈ pages, q.length = p) (hn : src.length ≤ n)
    (hfit : pos+src.length ≤ p*pages.length) :
    (writePages p n pages pos src).flatten = overwrite pos src pages.flatten := by
  induction n generalizing pages pos src with
  | zero =>
    have hsrc : src = [] := List.length_eq_zero_iff.mp (by omega)
    simp [hsrc, writePages, overwrite]
  | succ n ih =>
    rw [writePages]
    by_cases hsrc : src = []
    · simp [hsrc, overwrite]
    have hpos : 0 < src.length := List.length_pos_iff.mpr hsrc
    have hmod := Nat.mod_lt pos hp
    have hdiv := Nat.div_add_mod pos p
    have hturn : pos%p+(src.take (min (p-pos%p) src.length)).length ≤ p := turn_fits hp
    rw [if_neg hsrc]
    generalize hk : min (p-pos%p) src.length = k at hturn ⊢
    have htake : (src.take k).length = k := by
      rw [List.length_take]
      omega
    have hpage : pos/p < pages.length := by
      apply Nat.div_lt_of_lt_mul
      omega
    rw [ih (modify_sized h hturn) (by rw [List.length_drop]; omega)
      (by rw [List.length_drop, List.length_modify]; omega), flatten_modify h hpage hturn, hdiv]
    have hroom : pos+(src.take k).length ≤ pages.flatten.length := by
      rw [flatten_length h]
      omega
    nth_rewrite 1 [← htake]
    rw [overwrite_overwrite hroom, List.take_append_drop]

end write

namespace Paged

def new (α : Type) (p : ℕ) : Paged α p := ⟨[], 0, by simp, Nat.zero_le _⟩

def values (l : Paged α p) : List α := l.pages.flatten.take l.used

theorem values_length (l : Paged α p) : l.values.length = l.used := by
  rw [values, List.length_take, flatten_length l.sized]
  exact Nat.min_eq_left l.fits

@[simp] theorem new_used : (new α p).used = 0 := rfl

@[simp] theorem new_values : (new α p).values = [] := rfl

def missing (l : Paged α p) (extra : ℕ) : ℕ := (l.used+extra+p-1)/p-l.pages.length

def grow [Inhabited α] (l : Paged α p) (k : ℕ) : Paged α p where
  pages := l.pages ++ List.replicate k (List.replicate p default)
  used := l.used
  sized := by
    intro q hq
    rcases List.mem_append.mp hq with hq | hq
    · exact l.sized q hq
    · rw [List.eq_of_mem_replicate hq, List.length_replicate]
  fits := by
    rw [List.length_append, Nat.mul_add]
    exact le_trans l.fits (Nat.le_add_right _ _)

@[simp] theorem grow_used [Inhabited α] (l : Paged α p) (k : ℕ) : (l.grow k).used = l.used := rfl

theorem grow_values [Inhabited α] (l : Paged α p) (k : ℕ) : (l.grow k).values = l.values := by
  rw [values, values, grow, List.flatten_append, List.take_append_of_le_length]
  rw [flatten_length l.sized]
  exact l.fits

theorem grow_fits [Inhabited α] (hp : 0 < p) (l : Paged α p) (extra : ℕ) :
    (l.grow (l.missing extra)).used+extra ≤ p*(l.grow (l.missing extra)).pages.length := by
  have hceil : l.used+extra ≤ p*((l.used+extra+p-1)/p) := by
    have hdiv := Nat.div_add_mod (l.used+extra+p-1) p
    have hmod := Nat.mod_lt (l.used+extra+p-1) hp
    omega
  have hlen : (l.used+extra+p-1)/p ≤ (l.grow (l.missing extra)).pages.length := by
    simp only [grow, missing, List.length_append, List.length_replicate]
    omega
  exact le_trans hceil (Nat.mul_le_mul_left p hlen)

def write (hp : 0 < p) (l : Paged α p) (src : List α)
    (hfit : l.used+src.length ≤ p*l.pages.length) : Paged α p where
  pages := writePages p src.length l.pages l.used src
  used := l.used+src.length
  sized := (writePages_sized hp l.sized).1
  fits := by
    rw [(writePages_sized hp l.sized).2]
    exact hfit

theorem write_values (hp : 0 < p) (l : Paged α p) (src : List α)
    (hfit : l.used+src.length ≤ p*l.pages.length) :
    (l.write hp src hfit).values = l.values ++ src := by
  have hcells := flatten_length l.sized
  rw [values, write, writePages_flatten hp l.sized le_rfl hfit, take_overwrite (by omega), ← values]

/-- Ask for the missing pages, of which `avail` can be had, and append. On failure the pages
that were granted stay. -/
def push [Inhabited α] (hp : 0 < p) (l : Paged α p) (src : List α) (avail : ℕ) :
    Bool × Paged α p :=
  if l.missing src.length ≤ avail then
    (true, (l.grow (l.missing src.length)).write hp src (l.grow_fits hp src.length))
  else (false, l.grow avail)

variable {avail : ℕ} {hp : 0 < p} {l : Paged α p}

theorem push_true [Inhabited α] {src : List α} (h : (l.push hp src avail).1 = true) :
    (l.push hp src avail).2.values = l.values ++ src ∧
      (l.push hp src avail).2.used = l.used+src.length := by
  rw [push] at h ⊢
  split
  · exact ⟨by simp only [write_values, grow_values], rfl⟩
  · next hno =>
    rw [if_neg hno] at h
    cases h

theorem push_done [Inhabited α] {src : List α} :
    (l.push hp src avail).1 = decide (l.missing src.length ≤ avail) := by
  rw [push]
  split
  · next h => simp [h]
  · next h => simp [h]

theorem push_false [Inhabited α] {src : List α}
    (h : (l.push hp src avail).1 = false) : (l.push hp src avail).2.values = l.values := by
  rw [push] at h ⊢
  split
  · next hyes =>
    rw [if_pos hyes] at h
    cases h
  · exact grow_values l avail

theorem push_served [Inhabited α] {src : List α}
    (h : l.missing src.length ≤ avail) : (l.push hp src avail).1 = true := by
  rw [push, if_pos h]

end Paged

end NeuralOs.PagedList
