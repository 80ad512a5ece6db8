import NeuralOs.Lib.ByteString

/-!
# Byte blocks of a fixed size

A sector or a page keeps its length through every update. Fields are read and
written at an offset, raw or as little-endian numbers, and a block is cut into
equal parts and put together again.
-/

set_option autoImplicit false

namespace NeuralOs.ByteBlock

open ByteString

@[ext] structure Block (n : ℕ) where
  bytes : Bytes
  size : bytes.length = n
  deriving DecidableEq

namespace Block

variable {n : ℕ}

def zero (n : ℕ) : Block n := ⟨zeros n, zeros_length n⟩

def get (b : Block n) (off len : ℕ) : Bytes := slice b.bytes off len

/-- Overwrite the bytes at `off`; an update that would run past the end is not made. -/
def put (b : Block n) (off : ℕ) (d : Bytes) : Block n :=
  if h : off+d.length ≤ n then
    ⟨patch b.bytes off d, by rw [patch_length (b.size.symm ▸ h), b.size]⟩
  else b

def getLe (b : Block n) (off w : ℕ) : ℕ := fromLe (b.get off w)

def putLe (b : Block n) (off w v : ℕ) : Block n := b.put off (toLe w v)

def joinBytes {m : ℕ} (f : ℕ → Block m) : ℕ → Bytes
  | 0 => []
  | k+1 => joinBytes f k ++ (f k).bytes

end Block

open Block (zero joinBytes)

variable {n : ℕ}

@[simp] theorem get_length (b : Block n) (off len : ℕ) (h : off+len ≤ n) :
    (b.get off len).length = len := slice_length _ _ _ (b.size.symm ▸ h)

theorem put_bytes {b : Block n} {off : ℕ} {d : Bytes} (h : off+d.length ≤ n) :
    (b.put off d).bytes = patch b.bytes off d := by
  simp [Block.put, h]

theorem get_put_same (b : Block n) (off : ℕ) (d : Bytes) (h : off+d.length ≤ n) :
    (b.put off d).get off d.length = d := by
  have hb := b.size
  rw [Block.get, put_bytes h, slice_patch_self _ _ _ (by omega)]

theorem get_put_ne {b : Block n} {o : ℕ} {d : Bytes} {i len : ℕ}
    (h : i+len ≤ o ∨ o+d.length ≤ i) : (b.put o d).get i len = b.get i len := by
  have hb := b.size
  by_cases hd : o+d.length ≤ n
  · rw [Block.get, put_bytes hd]
    rcases h with h | h
    · exact slice_patch_before h (by omega)
    · exact slice_patch_after h (by omega)
  · simp [Block.put, hd]

theorem get_put_inside {b : Block n} {off : ℕ} {d : Bytes} {i len : ℕ} (hi : off ≤ i)
    (hl : i+len ≤ off+d.length) (h : off+d.length ≤ n) :
    (b.put off d).get i len = slice d (i-off) len := by
  have hs := slice_slice (b.put off d).bytes off d.length (i-off) len (by omega)
  rw [show off+(i-off) = i by omega] at hs
  rw [Block.get, ← hs]
  exact congrArg (slice · (i-off) len) (get_put_same b off d h)

theorem getLe_putLe (b : Block n) (off w v : ℕ) (h : off+w ≤ n) :
    (b.putLe off w v).getLe off w = v % 256^w := by
  have hs := get_put_same b off (toLe w v) (by simpa using h)
  rw [toLe_length] at hs
  rw [Block.getLe, Block.putLe, hs, fromLe_toLe]

theorem getLe_putLe_of_lt {b : Block n} {off w v : ℕ} (h : off+w ≤ n) (hv : v < 256^w) :
    (b.putLe off w v).getLe off w = v := by
  rw [getLe_putLe b off w v h, Nat.mod_eq_of_lt hv]

theorem get_putLe_ne {b : Block n} {off w v i len : ℕ} (h : i+len ≤ off ∨ off+w ≤ i) :
    (b.putLe off w v).get i len = b.get i len :=
  get_put_ne (by simpa using h)

theorem getLe_put_ne {b : Block n} {off : ℕ} {d : Bytes} {i w : ℕ}
    (h : i+w ≤ off ∨ off+d.length ≤ i) : (b.put off d).getLe i w = b.getLe i w :=
  congrArg fromLe (get_put_ne h)

theorem getLe_putLe_ne {b : Block n} {off w v i u : ℕ} (h : i+u ≤ off ∨ off+w ≤ i) :
    (b.putLe off w v).getLe i u = b.getLe i u :=
  congrArg fromLe (get_putLe_ne h)

theorem put_get (b : Block n) (off len : ℕ) (h : off+len ≤ n) : b.put off (b.get off len) = b := by
  have hb := b.size
  have hl := get_length b off len h
  apply Block.ext
  rw [put_bytes (by omega), patch, hl, Block.get, slice, ← List.drop_drop, List.append_assoc,
    List.take_append_drop, List.take_append_drop]

theorem put_put_get (b : Block n) (off : ℕ) (d : Bytes) (h : off+d.length ≤ n) :
    (b.put off d).put off (b.get off d.length) = b := by
  have hb := b.size
  have hl := get_length b off d.length h
  conv_rhs => rw [← put_get b off d.length h]
  apply Block.ext
  rw [put_bytes (by omega), put_bytes h, put_bytes (by omega),
    patch_patch hl (by omega)]

theorem get_zero {off len : ℕ} (h : off+len ≤ n) : (zero n).get off len = zeros len :=
  slice_zeros n off len h

section join
variable {m : ℕ}

theorem joinBytes_length (f : ℕ → Block m) (k : ℕ) : (joinBytes f k).length = m*k := by
  induction k with
  | zero => rfl
  | succ k ih => simp [joinBytes, ih, (f k).size, Nat.mul_succ]

variable {k : ℕ}

theorem joinBytes_congr {f g : ℕ → Block m} (h : ∀ i < k, f i = g i) :
    joinBytes f k = joinBytes g k := by
  induction k with
  | zero => rfl
  | succ k ih => rw [joinBytes, joinBytes, ih fun i hi => h i (by omega), h k (by omega)]

theorem joinBytes_part (b : Block n) (f : ℕ → Block m)
    (hf : ∀ i < k, (f i).bytes = b.get (m*i) m) : joinBytes f k = b.get 0 (m*k) := by
  induction k with
  | zero => simp [joinBytes, Block.get, slice]
  | succ k ih =>
    rw [joinBytes, ih fun i hi => hf i (by omega), hf k (by omega), Block.get, Block.get, Block.get,
      Nat.mul_succ, ← slice_append_slice b.bytes 0 (m*k) m, Nat.zero_add]

theorem get_joinBytes (f : ℕ → Block m) {i : ℕ} (hi : i < k) :
    slice (joinBytes f k) (m*i) m = (f i).bytes := by
  induction k with
  | zero => omega
  | succ k ih =>
    have hl := joinBytes_length f k
    by_cases hk : i = k
    · subst hk
      rw [joinBytes]
      simpa using slice_at (joinBytes f i) (f i).bytes [] hl.symm (f i).size.symm
    · have hm : m*i+m ≤ m*k := by
        rw [← Nat.mul_succ]
        exact Nat.mul_le_mul_left m (by omega)
      rw [joinBytes, slice_left (by omega)]
      exact ih (by omega)

end join

theorem get_whole (b : Block n) : b.get 0 n = b.bytes := by
  simp [Block.get, slice, b.size]

end NeuralOs.ByteBlock

/-! ## Updates put together -/

namespace NeuralOs.ByteSpan
open ByteString ByteBlock ByteBlock.Block

theorem patch_append (b : Bytes) (o : ℕ) (d e : Bytes) (h : o+d.length ≤ b.length) :
    patch (patch b o d) (o+d.length) e = patch b o (d ++ e) := by
  have hpre : (b.take o ++ d).length = o+d.length := by
    simp only [List.length_append, List.length_take]
    omega
  simp only [patch]
  rw [List.take_left' hpre, List.drop_append, hpre, List.drop_eq_nil_of_le (by omega),
    List.nil_append, List.drop_drop, List.length_append]
  simp only [List.append_assoc]
  congr 4
  omega

theorem take_patch (b : Bytes) (o : ℕ) (d : Bytes) (h : o ≤ b.length) :
    (patch b o d).take (o+d.length) = b.take o ++ d := by
  have hpre : (b.take o ++ d).length = o+d.length := by
    simp only [List.length_append, List.length_take]
    omega
  rw [patch, List.take_left' hpre]

theorem patch_slice (b : Bytes) (o n i : ℕ) (d : Bytes) (h : o+n ≤ b.length)
    (hi : i+d.length ≤ n) : patch b o (patch (slice b o n) i d) = patch b (o+i) d := by
  have hl : (slice b o n).length = n := slice_length b o n h
  have hpl : (patch (slice b o n) i d).length = n := by
    rw [patch_length (by omega), hl]
  have hsplit : b = b.take o ++ (slice b o n ++ b.drop (o+n)) := by
    rw [slice, ← List.drop_drop, List.take_append_drop, List.take_append_drop]
  have ht : (b.take o).length = o := by
    rw [List.length_take]
    omega
  have hr := patch_right (b.take o) (slice b o n ++ b.drop (o+n)) i d
  rw [ht, ← hsplit, patch_left (by omega)] at hr
  rw [hr, patch, hpl, List.append_assoc]

theorem put_whole {n : ℕ} (b c : Block n) (p : Bytes) (h : p.length = n) :
    b.put 0 p = c.put 0 p := by
  have hall (x : Block n) : (x.put 0 p).bytes = p := by
    have hhead := patch_head p x.bytes [] (x.size.trans h.symm)
    rw [List.append_nil, List.append_nil] at hhead
    rw [put_bytes (by omega), hhead]
  apply Block.ext
  rw [hall b, hall c]

theorem joinBytes_update {m : ℕ} (f g : ℕ → Block m) {k i : ℕ} (hi : i < k)
    (h : ∀ j < k, j ≠ i → g j = f j) :
    joinBytes g k = patch (joinBytes f k) (m*i) (g i).bytes := by
  induction k with
  | zero => omega
  | succ k ih =>
    have hl := joinBytes_length f k
    rw [joinBytes, joinBytes]
    by_cases hk : i = k
    · subst hk
      have hsame : joinBytes g i = joinBytes f i :=
        joinBytes_congr fun j hj => h j (by omega) (by omega)
      rw [hsame, show m*i = (joinBytes f i).length+0 by omega, patch_right]
      have hhead := patch_head (g i).bytes (f i).bytes [] ((f i).size.trans (g i).size.symm)
      rw [List.append_nil, List.append_nil] at hhead
      rw [hhead]
    · have hm : m*i+m ≤ m*k := by
        rw [← Nat.mul_succ]
        exact Nat.mul_le_mul_left m (by omega)
      rw [ih (by omega) fun j hj => h j (by omega), h k (by omega) (Ne.symm hk),
        patch_left (by rw [(g i).size]; omega)]

end NeuralOs.ByteSpan
