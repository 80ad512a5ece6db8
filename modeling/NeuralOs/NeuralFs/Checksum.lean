import NeuralOs.Lib.ByteBlock

/-!
# CRC32C of the NeuralFS checksums

One table step is eight shifts of the register, shifts are linear and lose nothing,
and feeding the four bytes of a word is adding the word to the register first. A
stored checksum can therefore only survive being checksummed itself if it is zero,
and damage to at most four adjacent bytes of a page is noticed.
-/

set_option autoImplicit false

namespace NeuralOs.NeuralFs.Checksum

open ByteString ByteBlock

def poly : UInt32 := 0x82F63B78

def shift (crc : UInt32) : UInt32 :=
  if crc &&& 1 != 0 then (crc >>> 1) ^^^ poly else crc >>> 1

def shifts : ℕ → UInt32 → UInt32
  | 0, crc => crc
  | j+1, crc => shifts j (shift crc)

def makeTable : List UInt32 := (List.range 256).map fun i => shifts 8 (UInt32.ofNat i)

structure Crc32c where
  reg : UInt32
  deriving DecidableEq

namespace Crc32c

def new : Crc32c := ⟨~~~0⟩

def feed (c : Crc32c) (b : UInt8) : Crc32c :=
  ⟨makeTable.getD (c.reg.toUInt8 ^^^ b).toNat 0 ^^^ (c.reg >>> 8)⟩

def update (c : Crc32c) (data : Bytes) : Crc32c := data.foldl feed c

def finish (c : Crc32c) : UInt32 := ~~~c.reg

end Crc32c

def crc32c (data : Bytes) : UInt32 := (Crc32c.new.update data).finish

theorem crc32c_lt (data : Bytes) : (crc32c data).toNat < 256^4 := by
  simpa using (crc32c data).toNat_lt

theorem update_append (c : Crc32c) (a b : Bytes) : c.update (a ++ b) = (c.update a).update b :=
  List.foldl_append

/-! ## The register under shifts -/

theorem odd_iff (c : UInt32) : (c &&& 1 != 0) = c.toBitVec.getLsbD 0 := by
  have h : (c &&& 1).toBitVec = BitVec.setWidth 32 (BitVec.ofBool (c.toBitVec.getLsbD 0)) := by
    rw [UInt32.toBitVec_and]
    exact BitVec.and_one_eq_setWidth_ofBool_getLsbD
  cases hb : c.toBitVec.getLsbD 0 with
  | false =>
    rw [hb] at h
    have h0 : c &&& 1 = 0 := UInt32.toBitVec_inj.mp (by rw [h]; decide)
    simp [h0]
  | true =>
    rw [hb] at h
    have h1 : c &&& 1 = 1 := UInt32.toBitVec_inj.mp (by rw [h]; decide)
    simp [h1]

theorem shift_bits (c : UInt32) : (shift c).toBitVec =
    if c.toBitVec.getLsbD 0 then (c.toBitVec >>> 1) ^^^ poly.toBitVec
    else c.toBitVec >>> 1 := by
  rw [shift, odd_iff]
  split <;> simp

theorem shift_xor (a b : UInt32) : shift (a ^^^ b) = shift a ^^^ shift b := by
  apply UInt32.toBitVec_inj.mp
  simp only [shift_bits, UInt32.toBitVec_xor, BitVec.getLsbD_xor, BitVec.ushiftRight_xor_distrib]
  generalize a.toBitVec >>> 1 = x, b.toBitVec >>> 1 = y, poly.toBitVec = p
  -- with both low bits set the polynomial cancels
  have hc : x ^^^ p ^^^ (y ^^^ p) = x ^^^ y := by
    rw [BitVec.xor_assoc x p, BitVec.xor_comm y p, ← BitVec.xor_assoc p p, BitVec.xor_self,
      BitVec.zero_xor]
  cases a.toBitVec.getLsbD 0 <;> cases b.toBitVec.getLsbD 0 <;> simp [hc] <;> ac_rfl

theorem shifts_xor (n : ℕ) (a b : UInt32) : shifts n (a ^^^ b) = shifts n a ^^^ shifts n b := by
  induction n generalizing a b with
  | zero => rfl
  | succ n ih => rw [shifts, shifts, shifts, shift_xor, ih]

theorem shift_eq_zero (c : UInt32) (h : shift c = 0) : c = 0 := by
  have hb := congrArg UInt32.toBitVec h
  rw [shift_bits] at hb
  split at hb
  · -- the polynomial sets the top bit, which a shifted register leaves clear
    have ht := congrArg (·.getLsbD 31) hb
    have hp : poly.toBitVec.getLsbD 31 = true := by decide
    simp only [BitVec.getLsbD_xor, BitVec.getLsbD_ushiftRight, hp] at ht
    simp at ht
  · next h0 =>
    apply UInt32.toBitVec_inj.mp
    apply BitVec.eq_of_getLsbD_eq
    intro i hi
    cases i with
    | zero => simpa using h0
    | succ i =>
      have ht := congrArg (·.getLsbD i) hb
      simpa [Nat.add_comm 1 i] using ht

theorem xor_eq_zero (a b : UInt32) : a ^^^ b = 0 ↔ a = b := by
  constructor
  · intro h
    have ha : a ^^^ b ^^^ b = b := by rw [h, UInt32.zero_xor]
    rwa [UInt32.xor_assoc, UInt32.xor_self, UInt32.xor_zero] at ha
  · rintro rfl
    exact UInt32.xor_self

theorem shifts_injective (n : ℕ) : Function.Injective (shifts n) := by
  induction n with
  | zero => exact fun _ _ h => h
  | succ n ih =>
    intro a b h
    have hs : shift a = shift b := ih h
    exact (xor_eq_zero a b).mp (shift_eq_zero _ (by rw [shift_xor, hs, UInt32.xor_self]))

theorem shifts_succ (k : ℕ) (c : UInt32) : shifts (k+1) c = shift (shifts k c) := by
  induction k generalizing c with
  | zero => rfl
  | succ k ih => rw [shifts, ih, shifts]

theorem shifts_clear (c : UInt32) (k : ℕ) (hk : k ≤ 8) (h : ∀ i < 8, c.toBitVec.getLsbD i = false) :
    (shifts k c).toBitVec = c.toBitVec >>> k := by
  induction k with
  | zero => simp [shifts]
  | succ k ih =>
    have h0 : (c.toBitVec >>> k).getLsbD 0 = false := by simpa using h k (by omega)
    rw [shifts_succ, shift_bits, ih (by omega), h0]
    simp [BitVec.shiftRight_add]

theorem shifts_high {x y : UInt32}
    (h : ∀ i, x.toBitVec.getLsbD i = (decide (8 ≤ i) && y.toBitVec.getLsbD i)) :
    shifts 8 x = y >>> 8 := by
  apply UInt32.toBitVec_inj.mp
  rw [shifts_clear x 8 le_rfl fun i hi => by simp [h i, show ¬8 ≤ i by omega]]
  apply BitVec.eq_of_getLsbD_eq
  intro i _
  simp [h, Nat.add_comm]

/-! ## One table step is eight shifts -/

theorem table_getD (i : ℕ) (h : i < 256) : makeTable.getD i 0 = shifts 8 (UInt32.ofNat i) := by
  simp [makeTable, List.getD, h]

theorem feed_reg (c : Crc32c) (b : UInt8) : (c.feed b).reg = shifts 8 (c.reg ^^^ b.toUInt32) := by
  set low := (c.reg.toUInt8 ^^^ b).toUInt32 with hlow
  set high := c.reg ^^^ b.toUInt32 ^^^ low with hhigh
  have hx : c.reg ^^^ b.toUInt32 = low ^^^ high := by
    rw [hhigh, ← UInt32.xor_assoc, UInt32.xor_comm low, UInt32.xor_assoc, UInt32.xor_self,
      UInt32.xor_zero]
  have hbits : ∀ i, high.toBitVec.getLsbD i = (decide (8 ≤ i) && c.reg.toBitVec.getLsbD i) := by
    intro i
    simp only [hhigh, hlow, UInt32.toBitVec_xor, UInt8.toBitVec_toUInt32, UInt8.toBitVec_xor,
      UInt32.toBitVec_toUInt8, BitVec.getLsbD_xor, BitVec.getLsbD_setWidth]
    by_cases hi : i < 8
    · have h32 : i < 32 := by omega
      simp only [h32, hi, decide_true, Bool.true_and, show ¬8 ≤ i by omega, decide_false,
        Bool.false_and]
      cases c.reg.toBitVec.getLsbD i <;> cases b.toBitVec.getLsbD i <;> rfl
    · simp [hi, show 8 ≤ i by omega]
  have hh : shifts 8 high = c.reg >>> 8 := shifts_high hbits
  have hl : shifts 8 low = makeTable.getD (c.reg.toUInt8 ^^^ b).toNat 0 := by
    rw [table_getD _ (UInt8.toNat_lt _), hlow]
    exact congrArg (shifts 8) (UInt32.toNat_inj.mp (by simp; omega))
  rw [hx, shifts_xor, hh, hl, Crc32c.feed]

theorem feed_injective (b : UInt8) : Function.Injective fun c : Crc32c => c.feed b := by
  intro c d h
  have hr := congrArg Crc32c.reg h
  simp only [feed_reg] at hr
  have hx := shifts_injective 8 hr
  have hc : c.reg = d.reg := by
    have := congrArg (· ^^^ b.toUInt32) hx
    simpa only [UInt32.xor_assoc, UInt32.xor_self, UInt32.xor_zero] using this
  cases c
  cases d
  simpa using hc

theorem update_injective (data : Bytes) : Function.Injective fun c : Crc32c => c.update data := by
  induction data with
  | nil => exact fun _ _ h => h
  | cons b data ih => exact fun c d h => feed_injective b (ih h)

/-! ## A word inside the checksummed bytes -/

theorem feed_word (c : Crc32c) (v : UInt32) :
    (⟨c.reg ^^^ v⟩ : Crc32c).feed 0 = ⟨(c.feed (UInt8.ofNat v.toNat)).reg ^^^ (v >>> 8)⟩ := by
  set low := (UInt8.ofNat v.toNat).toUInt32 with hlow
  have hbits : ∀ i, (low ^^^ v).toBitVec.getLsbD i =
      (decide (8 ≤ i) && v.toBitVec.getLsbD i) := by
    intro i
    have hv : UInt8.ofNat v.toNat = v.toUInt8 := UInt8.toNat_inj.mp (by simp)
    simp only [hlow, hv, UInt32.toBitVec_xor, UInt8.toBitVec_toUInt32, UInt32.toBitVec_toUInt8,
      BitVec.getLsbD_xor, BitVec.getLsbD_setWidth]
    by_cases hi : i < 8
    · simp [hi, show i < 32 by omega]
    · simp [hi, show 8 ≤ i by omega]
  have hh : shifts 8 (low ^^^ v) = v >>> 8 := shifts_high hbits
  have hx : c.reg ^^^ v ^^^ (0 : UInt8).toUInt32 = (c.reg ^^^ low) ^^^ (low ^^^ v) := by
    rw [UInt32.xor_assoc c.reg low, ← UInt32.xor_assoc low low, UInt32.xor_self, UInt32.zero_xor]
    exact UInt32.xor_zero
  have hr : ((⟨c.reg ^^^ v⟩ : Crc32c).feed 0).reg =
      (c.feed (UInt8.ofNat v.toNat)).reg ^^^ (v >>> 8) := by
    rw [feed_reg, feed_reg, hx, shifts_xor, hh]
  rw [← hr]

theorem update_word (w : ℕ) (c : Crc32c) (v : UInt32) (h : v.toNat < 256^w) :
    c.update (toLe w v.toNat) = (⟨c.reg ^^^ v⟩ : Crc32c).update (zeros w) := by
  induction w generalizing c v with
  | zero =>
    obtain rfl : v = 0 := UInt32.toNat_inj.mp (by simpa using h)
    simp [toLe, zeros, Crc32c.update]
  | succ w ih =>
    have hs : (v >>> 8).toNat = v.toNat/256 := by simp [Nat.shiftRight_eq_div_pow]
    have hz : zeros (w+1) = 0 :: zeros w := rfl
    have hv := ih (c.feed (UInt8.ofNat v.toNat)) (v >>> 8) (by
      rw [hs]
      exact Nat.div_lt_of_lt_mul (by rwa [← Nat.pow_succ']))
    calc c.update (toLe (w+1) v.toNat)
        = (c.feed (UInt8.ofNat v.toNat)).update (toLe w (v.toNat/256)) := rfl
      _ = (⟨(c.feed (UInt8.ofNat v.toNat)).reg ^^^ (v >>> 8)⟩ : Crc32c).update (zeros w) := by
        rw [← hs, hv]
      _ = (⟨c.reg ^^^ v⟩ : Crc32c).update (zeros (w+1)) := by rw [← feed_word, hz]; rfl

theorem finish_injective : Function.Injective Crc32c.finish := by
  intro c d h
  have hn := congrArg (fun x : UInt32 => ~~~x) h
  simp only [Crc32c.finish, UInt32.not_not] at hn
  cases c
  cases d
  simpa using hn

theorem crc32c_word_iff (a b : Bytes) (v : UInt32) :
    crc32c (a ++ (toLe 4 v.toNat ++ b)) = crc32c (a ++ (zeros 4 ++ b)) ↔ v = 0 := by
  have hw := update_word 4 (Crc32c.new.update a) v (by simpa using v.toNat_lt)
  simp only [crc32c, update_append, hw]
  constructor
  · intro h
    have hr := congrArg Crc32c.reg (update_injective _ (update_injective _ (finish_injective h)))
    have hx := congrArg ((Crc32c.new.update a).reg ^^^ ·) hr
    simpa only [← UInt32.xor_assoc, UInt32.xor_self, UInt32.zero_xor] using hx
  · rintro rfl
    rw [UInt32.xor_zero]

/-! ## Bit by bit -/

def feedBit (crc : UInt32) (bit : Bool) : UInt32 := shift (crc ^^^ if bit then 1 else 0)

def messageBits (data : Bytes) : List Bool :=
  data.flatMap fun b => (List.range 8).map b.toBitVec.getLsbD

def bitwiseCrc (data : Bytes) : UInt32 := ~~~((messageBits data).foldl feedBit (~~~0))

theorem feedBits_xor (bits : List Bool) (a c : UInt32) :
    bits.foldl feedBit (a ^^^ c) = shifts bits.length a ^^^ bits.foldl feedBit c := by
  induction bits generalizing a c with
  | nil => rfl
  | cons bit bits ih =>
    have hstep : feedBit (a ^^^ c) bit = shift a ^^^ feedBit c bit := by
      rw [feedBit, feedBit, UInt32.xor_assoc, shift_xor]
    rw [List.foldl_cons, hstep, ih, List.length_cons, shifts, List.foldl_cons]

theorem feed_bits (c : Crc32c) (b : UInt8) :
    ((List.range 8).map b.toBitVec.getLsbD).foldl feedBit c.reg = (c.feed b).reg := by
  have hbyte : ∀ n : Fin 256,
      ((List.range 8).map (UInt8.ofNat n).toBitVec.getLsbD).foldl feedBit 0 =
        shifts 8 (UInt8.ofNat n).toUInt32 := by
    decide +kernel
  have hb := hbyte ⟨b.toNat, b.toNat_lt⟩
  rw [UInt8.ofNat_toNat] at hb
  have hsplit := feedBits_xor ((List.range 8).map b.toBitVec.getLsbD) c.reg 0
  rw [UInt32.xor_zero, hb, List.length_map, List.length_range] at hsplit
  rw [hsplit, feed_reg, shifts_xor]

theorem update_bits (c : Crc32c) (data : Bytes) :
    (messageBits data).foldl feedBit c.reg = (c.update data).reg := by
  induction data generalizing c with
  | nil => rfl
  | cons b data ih =>
    rw [messageBits, List.flatMap_cons, List.foldl_append, feed_bits, ← messageBits, ih]
    rfl

/-- However a message is cut into chunks, the table gives the checksum of its bits. -/
theorem streamed_bitwise (chunks : List Bytes) :
    (chunks.foldl Crc32c.update Crc32c.new).finish = bitwiseCrc chunks.flatten := by
  have hjoin : ∀ c : Crc32c, chunks.foldl Crc32c.update c = c.update chunks.flatten := by
    induction chunks with
    | nil => exact fun c => rfl
    | cons a chunks ih =>
      intro c
      rw [List.foldl_cons, ih, List.flatten_cons, update_append]
  rw [hjoin, Crc32c.finish, ← update_bits, bitwiseCrc]
  rfl

/-! ## Damaged pages -/

def crc32cBlock (block : Block 4096) : UInt32 := crc32c (block.get 4 4092)

def verifyBlock (block : Block 4096) : Bool := block.getLe 0 4 = (crc32cBlock block).toNat

theorem update_burst (c : Crc32c) {w w' : Bytes} (hlen : w.length = w'.length)
    (h4 : w.length ≤ 4) (h : c.update w = c.update w') : w = w' := by
  have hword : ∀ x : Bytes, x.length ≤ 4 →
      c.update x = (⟨c.reg ^^^ .ofNat (fromLe x)⟩ : Crc32c).update (zeros x.length) ∧
        (UInt32.ofNat (fromLe x)).toNat = fromLe x := by
    intro x hx
    have hlt := fromLe_lt x
    have hmax : 256^x.length ≤ 256^4 := Nat.pow_le_pow_right (by decide) hx
    have hval : (UInt32.ofNat (fromLe x)).toNat = fromLe x :=
      UInt32.toNat_ofNat_of_lt' (lt_of_lt_of_le hlt hmax)
    have hfed := update_word x.length c (.ofNat (fromLe x)) (by rwa [hval])
    rw [hval, toLe_fromLe] at hfed
    exact ⟨hfed, hval⟩
  obtain ⟨hw, hv⟩ := hword w h4
  obtain ⟨hw', hv'⟩ := hword w' (hlen ▸ h4)
  rw [hw, hw', ← hlen] at h
  have hreg := congrArg Crc32c.reg (update_injective _ h)
  have hx := congrArg (c.reg ^^^ ·) hreg
  simp only [← UInt32.xor_assoc, UInt32.xor_self, UInt32.zero_xor] at hx
  have hfrom : fromLe w = fromLe w' := by rw [← hv, ← hv', hx]
  rw [← toLe_fromLe w, ← toLe_fromLe w', hfrom, hlen]

def writeChecksum (block : Block 4096) : Block 4096 :=
  block.putLe 0 4 (crc32cBlock block).toNat

theorem verifyBlock_iff {p : Block 4096} :
    verifyBlock p = true ↔ p.getLe 0 4 = (crc32c (p.get 4 4092)).toNat := decide_eq_true_iff

theorem verify_writeChecksum (p : Block 4096) : verifyBlock (writeChecksum p) = true := by
  rw [verifyBlock_iff, writeChecksum, getLe_putLe_of_lt (by decide) (UInt32.toNat_lt _),
    crc32cBlock, get_putLe_ne (.inr le_rfl)]

theorem crc32c_burst {x w w' y : Bytes} (hlen : w.length = w'.length) (h4 : w.length ≤ 4)
    (h : crc32c (x ++ w ++ y) = crc32c (x ++ w' ++ y)) : w = w' := by
  have hreg : (Crc32c.new.update (x ++ w ++ y)).reg = (Crc32c.new.update (x ++ w' ++ y)).reg := by
    simpa [crc32c, Crc32c.finish] using h
  have hall := congrArg Crc32c.mk hreg
  simp only [update_append] at hall
  exact update_burst _ hlen h4 (update_injective y hall)

/-- A page that verifies does not verify any more after a change of at most four adjacent
bytes, unless they lie across the end of the checksum. -/
theorem burst_noticed (p : Block 4096) (hp : verifyBlock p = true) (o : ℕ) (d : Bytes)
    (h4 : d.length ≤ 4) (hfit : o+d.length ≤ 4096) (hside : 4 ≤ o ∨ o+d.length ≤ 4) :
    verifyBlock (p.put o d) = true ↔ p.put o d = p := by
  refine ⟨fun h => ?_, fun h => by rw [h, hp]⟩
  suffices hd : p.get o d.length = d by
    have hput := put_get p o d.length hfit
    rwa [hd] at hput
  have hnew := get_put_same p o d hfit
  rw [verifyBlock_iff] at h hp
  rcases hside with ho | ho
  · have hparts (q : Block 4096) : q.get 4 4092 =
        q.get 4 (o-4) ++ q.get o d.length ++ q.get (o+d.length) (4096-o-d.length) := by
      have hx := slice_append_slice q.bytes 4 (o-4) d.length
      have hy := slice_append_slice q.bytes 4 (o-4+d.length) (4096-o-d.length)
      rw [show 4+(o-4) = o by omega] at hx
      rw [show 4+(o-4+d.length) = o+d.length by omega,
        show o-4+d.length+(4096-o-d.length) = 4092 by omega, ← hx] at hy
      exact hy.symm
    rw [getLe_put_ne (.inl ho), hp, hparts, hparts (p.put o d), hnew,
      get_put_ne (.inl (by omega)), get_put_ne (.inr le_rfl)] at h
    have hlen := get_length p o d.length hfit
    exact crc32c_burst hlen (by omega) (UInt32.toNat_inj.mp h)
  · rw [get_put_ne (.inr ho), ← hp] at h
    have hfield : (p.put o d).get 0 4 = p.get 0 4 := by
      have hx := toLe_fromLe ((p.put o d).get 0 4)
      have hy := toLe_fromLe (p.get 0 4)
      simp only [Block.getLe] at h
      rw [get_length _ _ _ (by decide)] at hx hy
      rw [← hx, ← hy, h]
    have hcut (q : Block 4096) : q.get o d.length = slice (q.get 0 4) o d.length := by
      have hs := slice_slice q.bytes 0 4 o d.length ho
      rw [Nat.zero_add] at hs
      exact hs.symm
    rw [hcut, ← hfield, ← hcut, hnew]

theorem blank_burst_noticed : verifyBlock (writeChecksum (.zero 4096)) = true ∧
    verifyBlock ((writeChecksum (.zero 4096)).put 8 [1]) = false := by
  have hp := verify_writeChecksum (.zero 4096)
  refine ⟨hp, Bool.eq_false_iff.mpr fun h => ?_⟩
  have heq := (burst_noticed _ hp 8 [1] (by decide) (by decide) (.inl (by decide))).mp h
  have hold : (writeChecksum (.zero 4096)).get 8 1 = [0] := by
    rw [writeChecksum, get_putLe_ne (.inr (by decide)), get_zero (by decide)]
    rfl
  have hnew := get_put_same (writeChecksum (.zero 4096)) 8 [1] (by decide)
  rw [heq] at hnew
  exact absurd (hold.symm.trans hnew) (by decide)

end NeuralOs.NeuralFs.Checksum
