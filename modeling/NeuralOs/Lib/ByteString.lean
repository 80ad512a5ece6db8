import Mathlib

/-!
# Byte strings

Slices, in-place updates and little-endian integers over lists of bytes.
An image under study is a concatenation of segments, so each operation comes
with the lemmas that move it past a segment on its left or on its right.
-/

set_option autoImplicit false

namespace NeuralOs.ByteString

abbrev Bytes := List UInt8

def zeros (n : ℕ) : Bytes := List.replicate n 0

def slice (b : Bytes) (off n : ℕ) : Bytes := (b.drop off).take n

def patch (b : Bytes) (off : ℕ) (d : Bytes) : Bytes :=
  b.take off ++ d ++ b.drop (off+d.length)

/-- `(n + a - 1) & !(a - 1)` for a power of two `a`. -/
def alignUp (a n : ℕ) : ℕ := (n+(a-1))/a*a

def toLe : ℕ → ℕ → Bytes
  | 0, _ => []
  | w+1, n => UInt8.ofNat n :: toLe w (n/256)

def fromLe : Bytes → ℕ
  | [] => 0
  | b::bs => b.toNat+256*fromLe bs

@[simp] theorem zeros_length (n : ℕ) : (zeros n).length = n := List.length_replicate

theorem zeros_append (m n : ℕ) : zeros m ++ zeros n = zeros (m+n) :=
  List.replicate_append_replicate

theorem slice_length (b : Bytes) (off n : ℕ) (h : off+n ≤ b.length) :
    (slice b off n).length = n := by
  simp [slice]
  omega

theorem slice_congr {a b : Bytes} {o n : ℕ} (h : ∀ i, o ≤ i → i < o+n → a[i]? = b[i]?) :
    slice a o n = slice b o n := by
  apply List.ext_getElem?
  intro i
  simp only [slice, List.getElem?_take, List.getElem?_drop]
  split
  · exact h (o+i) (by omega) (by omega)
  · rfl

theorem slice_right (a x : Bytes) (i n : ℕ) : slice (a ++ x) (a.length+i) n = slice x i n := by
  have hd : a.drop (a.length+i) = [] := List.drop_eq_nil_of_le (by omega)
  simp [slice, List.drop_append, hd]

theorem slice_left {x y : Bytes} {i n : ℕ} (h : i+n ≤ x.length) :
    slice (x ++ y) i n = slice x i n := by
  rw [slice, slice, List.drop_append_of_le_length (by omega),
    List.take_append_of_le_length (by simp; omega)]

theorem slice_whole (x y : Bytes) : slice (x ++ y) 0 x.length = x := by
  simp [slice]

theorem slice_mid (a x y : Bytes) : slice (a ++ (x ++ y)) a.length x.length = x := by
  simpa using (slice_right a (x ++ y) 0 x.length).trans (slice_whole x y)

theorem slice_at (a x y : Bytes) {o n : ℕ} (ho : o = a.length) (hn : n = x.length) :
    slice (a ++ (x ++ y)) o n = x := by
  rw [ho, hn, slice_mid]

theorem slice_slice (b : Bytes) (o n i m : ℕ) (h : i+m ≤ n) :
    slice (slice b o n) i m = slice b (o+i) m := by
  simp only [slice, List.drop_take, List.drop_drop, List.take_take]
  congr 1
  omega

theorem slice_zeros (n i m : ℕ) (h : i+m ≤ n) : slice (zeros n) i m = zeros m := by
  simp [slice, zeros]
  omega

theorem slice_append_slice (b : Bytes) (o m n : ℕ) :
    slice b o m ++ slice b (o+m) n = slice b o (m+n) := by
  simp only [slice]
  rw [List.take_add, List.drop_drop]

theorem patch_length {b : Bytes} {off : ℕ} {d : Bytes} (h : off+d.length ≤ b.length) :
    (patch b off d).length = b.length := by
  simp [patch]
  omega

theorem patch_right (a x : Bytes) (i : ℕ) (d : Bytes) :
    patch (a ++ x) (a.length+i) d = a ++ patch x i d := by
  have ht : a.take (a.length+i) = a := List.take_of_length_le (by omega)
  have hd : a.drop (a.length+(i+d.length)) = [] := List.drop_eq_nil_of_le (by omega)
  simp [patch, List.drop_append, Nat.add_assoc, List.take_append, ht, hd]

theorem patch_left {x y : Bytes} {i : ℕ} {d : Bytes} (h : i+d.length ≤ x.length) :
    patch (x ++ y) i d = patch x i d ++ y := by
  rw [patch, patch, List.take_append_of_le_length (by omega), List.drop_append_of_le_length h]
  simp

theorem patch_head (d x y : Bytes) (h : x.length = d.length) : patch (x ++ y) 0 d = d ++ y := by
  simp [patch, ← h]

theorem patch_patch {b : Bytes} {off : ℕ} {d e : Bytes} (hl : e.length = d.length)
    (h : off ≤ b.length) : patch (patch b off d) off e = patch b off e := by
  have ht : (b.take off).length = off := by simp [h]
  have hd : off+e.length = (b.take off ++ d).length := by simp [h, hl]
  rw [patch, patch, patch, List.append_assoc (b.take off), List.take_left' ht,
    ← List.append_assoc, hd, List.drop_left, ← hd, hl]

theorem slice_patch_before {b : Bytes} {off : ℕ} {d : Bytes} {i n : ℕ} (h : i+n ≤ off)
    (hb : off ≤ b.length) : slice (patch b off d) i n = slice b i n := by
  have ht : (b.take off).length = off := by simp [hb]
  rw [patch, List.append_assoc, slice_left (by omega)]
  conv_rhs => rw [← List.take_append_drop off b]
  rw [slice_left (by omega)]

theorem slice_patch_after {b : Bytes} {off : ℕ} {d : Bytes} {i n : ℕ} (h : off+d.length ≤ i)
    (hb : off ≤ b.length) : slice (patch b off d) i n = slice b i n := by
  have ht : (b.take off ++ d).length = off+d.length := by simp [hb]
  obtain ⟨j, rfl⟩ := Nat.exists_eq_add_of_le h
  rw [patch, ← ht, slice_right, slice, slice, List.drop_drop, ht]

theorem slice_patch_self (b : Bytes) (off : ℕ) (d : Bytes) (hb : off ≤ b.length) :
    slice (patch b off d) off d.length = d := by
  have ht : (b.take off).length = off := by simp [hb]
  rw [patch, List.append_assoc]
  conv_lhs => arg 2; rw [← ht]
  exact slice_mid _ _ _

@[simp] theorem toLe_length (w n : ℕ) : (toLe w n).length = w := by
  induction w generalizing n with
  | zero => rfl
  | succ w ih => simp [toLe, ih]

theorem fromLe_toLe (w n : ℕ) : fromLe (toLe w n) = n % 256^w := by
  induction w generalizing n with
  | zero => simp [toLe, fromLe, Nat.mod_one]
  | succ w ih =>
    have hb : (UInt8.ofNat n).toNat = n % 256 := by simp
    rw [toLe, fromLe, ih, hb, Nat.pow_succ, Nat.mul_comm (256^w), Nat.mod_mul]

theorem toLe_fromLe (b : Bytes) : toLe b.length (fromLe b) = b := by
  induction b with
  | nil => rfl
  | cons x b ih =>
    have hx : UInt8.ofNat (x.toNat+256*fromLe b) = x := by
      apply UInt8.toNat_inj.mp
      simp
    have hb : (x.toNat+256*fromLe b)/256 = fromLe b := by
      have := x.toNat_lt
      omega
    rw [List.length_cons, fromLe, toLe, hx, hb, ih]

theorem fromLe_lt (b : Bytes) : fromLe b < 256^b.length := by
  induction b with
  | nil => simp [fromLe]
  | cons x b ih =>
    have hx := x.toNat_lt
    simp only [fromLe, List.length_cons, Nat.pow_succ]
    omega

theorem alignUp_ge (a n : ℕ) (ha : 0 < a) : n ≤ alignUp a n := by
  have hm := Nat.div_add_mod (n+(a-1)) a
  have hr := Nat.mod_lt (n+(a-1)) ha
  rw [alignUp, Nat.mul_comm]
  omega

theorem alignUp_dvd (a n : ℕ) : a ∣ alignUp a n := Dvd.intro_left _ rfl

theorem alignUp_of_dvd (a n : ℕ) (ha : 0 < a) (h : a ∣ n) : alignUp a n = n := by
  obtain ⟨q, rfl⟩ := h
  rw [alignUp, Nat.mul_add_div ha, Nat.div_eq_of_lt (by omega), Nat.add_zero, Nat.mul_comm]

theorem alignUp_pos (a n : ℕ) (ha : 0 < a) (h : 0 < n) : 0 < alignUp a n :=
  lt_of_lt_of_le h (alignUp_ge a n ha)

end NeuralOs.ByteString

/-! ## Pieces of a byte string -/

namespace NeuralOs.Pieces
open ByteString

/-- `(n + size - 1) / size` -/
def pieceCount (size n : ℕ) : ℕ := (n+size-1)/size

def piece (size : ℕ) (b : Bytes) (i : ℕ) : Bytes := slice b (i*size) size

variable {size : ℕ} {b : Bytes}

theorem piece_length_le (i : ℕ) : (piece size b i).length ≤ size := by
  simp [piece, slice]

theorem piece_length_pos {i : ℕ} (hs : 0 < size) (h : i < pieceCount size b.length) :
    0 < (piece size b i).length := by
  have hlt : i*size < b.length := by
    have := (Nat.le_div_iff_mul_le hs).mp (Nat.succ_le_of_lt h)
    rw [Nat.succ_mul] at this
    omega
  simp only [piece, slice, List.length_take, List.length_drop]
  omega

theorem pieces_take (k : ℕ) : ((List.range k).map (piece size b)).flatten = b.take (k*size) := by
  induction k with
  | zero => simp
  | succ k ih =>
    rw [List.range_succ, List.map_append, List.flatten_append, ih, Nat.succ_mul, List.take_add]
    simp [piece, slice]

theorem le_pieceCount_mul (hs : 0 < size) (n : ℕ) : n ≤ pieceCount size n*size := by
  have h := Nat.div_add_mod (n+size-1) size
  have hm := Nat.mod_lt (n+size-1) hs
  rw [pieceCount, Nat.mul_comm]
  omega

theorem pieceCount_le_iff (hs : 0 < size) (n k : ℕ) : pieceCount size n ≤ k ↔ n ≤ k*size := by
  constructor
  · intro h
    exact (le_pieceCount_mul hs n).trans (Nat.mul_le_mul_right size h)
  · intro h
    rw [pieceCount, Nat.div_le_iff_le_mul_add_pred hs, Nat.mul_comm]
    omega

theorem pieces_join (hs : 0 < size) :
    ((List.range (pieceCount size b.length)).map (piece size b)).flatten = b := by
  rw [pieces_take, List.take_of_length_le (le_pieceCount_mul hs b.length)]

end NeuralOs.Pieces
