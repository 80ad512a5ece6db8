import NeuralOs.Lib.Checked
import NeuralOs.Storage.TickvStore

/-!
# The NMD1 codec

What `encode` writes `decode` reads back, no byte string makes a parser panic,
and a document that `decode` accepts is seen through the view with the same
layer, key, payload and clock.
-/

set_option autoImplicit false

namespace NeuralOs.Sgdb.MemoryFormat
open ByteString Checked TickvRecord

inductive MemoryLayer
  | l0Sensory
  | l1Working
  | l2EpisodicShort
  | l3EpisodicLong
  | l4Semantic
  | l5Procedural
  | l6Reserved
  | l7Identity
  deriving DecidableEq

def MemoryLayer.toU8 : MemoryLayer → UInt8
  | .l0Sensory => 0
  | .l1Working => 1
  | .l2EpisodicShort => 2
  | .l3EpisodicLong => 3
  | .l4Semantic => 4
  | .l5Procedural => 5
  | .l6Reserved => 6
  | .l7Identity => 7

def MemoryLayer.fromU8 (v : UInt8) : Option MemoryLayer :=
  if v = 0 then some .l0Sensory
  else if v = 1 then some .l1Working
  else if v = 2 then some .l2EpisodicShort
  else if v = 3 then some .l3EpisodicLong
  else if v = 4 then some .l4Semantic
  else if v = 5 then some .l5Procedural
  else if v = 6 then some .l6Reserved
  else if v = 7 then some .l7Identity
  else none

inductive DecodeError
  | badMagic
  | badLayer
  | truncU32
  | truncU64
  | truncKeylen
  | truncKey
  | utf8
  | truncClock
  | truncPlen
  | truncPayload
  | truncBitflag
  | truncBvlen
  | truncBv
  deriving DecidableEq

abbrev Parse (α : Type) := Except (Stop DecodeError) α

/-! ### The vector clock -/

structure VectorClock where
  nodes : Fin 8 → UInt8
  counts : Fin 8 → UInt64

def VectorClock.new : VectorClock := ⟨fun _ => 0xFF, fun _ => 0⟩

def encodeWords (ws : List UInt64) : Bytes := ws.flatMap fun w => toLe 8 w.toNat

def VectorClock.encode (c : VectorClock) : Bytes :=
  List.ofFn c.nodes ++ encodeWords (List.ofFn c.counts)

def VectorClock.decode (data : Bytes) : Parse (Option (VectorClock × ℕ)) :=
  if data.length < 8+8*8 then .ok none
  else do
    let nodes ← sub data 0 8
    let counts ← (List.range 8).mapM fun i => sub data (8+i*8) (8+i*8+8)
    .ok (some (⟨fun i => nodes.getD i 0, fun i => UInt64.ofNat (fromLe (counts.getD i []))⟩, 8+64))

/-! ### Documents -/

/-- A `String`: well-formed UTF-8. -/
@[ext] structure Text where
  bytes : Bytes
  utf8 : utf8Valid bytes = true

def Text.fromUtf8 (b : Bytes) : Option Text :=
  if h : utf8Valid b = true then some ⟨b, h⟩ else none

structure MemoryDoc where
  layer : MemoryLayer
  key : Text
  clock : VectorClock
  payload : Bytes
  bitvec : Option (List UInt64)

def magic : Bytes := [0x4E, 0x4D, 0x44, 0x31]

def encodeBitvec : Option (List UInt64) → Bytes
  | some bv => [1] ++ toLe 4 bv.length ++ encodeWords bv
  | none => [0]

def MemoryDoc.encode (doc : MemoryDoc) : Bytes :=
  magic ++ [doc.layer.toU8] ++ toLe 4 doc.key.bytes.length ++ doc.key.bytes ++
    doc.clock.encode ++ toLe 4 doc.payload.length ++ doc.payload ++ encodeBitvec doc.bitvec

def readU32Le (data : Bytes) (off : ℕ) : Parse ℕ :=
  if off+4 ≤ data.length then .ok (fromLe (slice data off 4)) else refuse .truncU32

def readU64Le (data : Bytes) (off : ℕ) : Parse UInt64 :=
  if off+8 ≤ data.length then .ok (UInt64.ofNat (fromLe (slice data off 8)))
  else refuse .truncU64

/-- The start of both parsers, word for word the same: magic, layer and key, and the
offset behind the key. -/
def readHead (data : Bytes) : Parse (MemoryLayer × Text × ℕ) :=
  if data.length < 5 then refuse .badMagic
  else do
    let m ← sub data 0 4
    if m ≠ magic then refuse .badMagic
    else do
      let b ← byteAt data 4
      let layer ← okOr (MemoryLayer.fromU8 b) .badLayer
      if data.length < 5+4 then refuse .truncKeylen
      else do
        let klen ← readU32Le data 5
        if data.length < 9+klen then refuse .truncKey
        else do
          let kb ← sub data 9 (9+klen)
          let key ← okOr (Text.fromUtf8 kb) .utf8
          .ok (layer, key, 9+klen)

def readPayload (data : Bytes) (off : ℕ) : Parse (Bytes × ℕ) :=
  if data.length < off+4 then refuse .truncPlen
  else do
    let plen ← readU32Le data off
    if data.length < off+4+plen then refuse .truncPayload
    else do
      let payload ← sub data (off+4) (off+4+plen)
      .ok (payload, off+4+plen)

def readWords (data : Bytes) : ℕ → ℕ → Parse (List UInt64)
  | 0, _ => .ok []
  | n+1, off => do
    let w ← readU64Le data off
    let ws ← readWords data n (off+8)
    .ok (w :: ws)

def readBitvec (data : Bytes) (off : ℕ) : Parse (Option (List UInt64)) :=
  if data.length ≤ off then refuse .truncBitflag
  else do
    let hasBv ← byteAt data off
    if hasBv = 1 then
      if data.length < off+1+4 then refuse .truncBvlen
      else do
        let n ← readU32Le data (off+1)
        if data.length < off+5+n*8 then refuse .truncBv
        else do
          let bv ← readWords data n (off+5)
          .ok (some bv)
    else .ok none

def decode (data : Bytes) : Parse MemoryDoc := do
  let (layer, key, off) ← readHead data
  let tail ← sub data off data.length
  let c ← VectorClock.decode tail
  let (clock, n) ← okOr c .truncClock
  let (payload, off) ← readPayload data (off+n)
  let bitvec ← readBitvec data off
  .ok ⟨layer, key, clock, payload, bitvec⟩

/-! ### The view -/

structure MemoryDocView where
  data : Bytes
  layer : MemoryLayer
  key : Text
  payload : Bytes
  clockOff : ℕ

def MemoryDocView.parse (data : Bytes) : Parse MemoryDocView := do
  let (layer, key, off) ← readHead data
  if data.length < off+72 then refuse .truncClock
  else do
    let (payload, _) ← readPayload data (off+72)
    .ok ⟨data, layer, key, payload, off⟩

def MemoryDocView.clockBytes (v : MemoryDocView) : Parse Bytes :=
  sub v.data v.clockOff (v.clockOff+72)

end NeuralOs.Sgdb.MemoryFormat

/-! ## The NMD1 codec -/

namespace NeuralOs.Sgdb.MemoryCodec
open ByteString Checked MemoryFormat

structure Fits (doc : MemoryDoc) : Prop where
  key : doc.key.bytes.length < 2^32
  payload : doc.payload.length < 2^32
  bitvec : ∀ bv, doc.bitvec = some bv → bv.length < 2^32

/-! ### Safety -/

variable {data d : Bytes} {off n : ℕ}

theorem readU32Le_safe {data : Bytes} {off : ℕ} : Safe (readU32Le data off) :=
  safe_ite (fun _ => safe_ok _) fun _ => safe_refuse _

theorem readHead_safe (data : Bytes) : Safe (readHead data) := by
  refine safe_ite (fun _ => safe_refuse _) fun h5 => safe_bind (safe_sub (by omega) (by omega)) ?_
  intro m _
  refine safe_ite (fun _ => safe_refuse _) fun _ => safe_bind (safe_byteAt (by omega)) ?_
  intro b _
  refine safe_bind (safe_okOr) fun layer _ => safe_ite (fun _ => safe_refuse _) fun _ => ?_
  refine safe_bind (readU32Le_safe) fun klen _ => safe_ite (fun _ => safe_refuse _) fun h => ?_
  refine safe_bind (safe_sub (by omega) (by omega)) fun kb _ => ?_
  exact safe_bind (safe_okOr) fun key _ => safe_ok _

theorem readPayload_safe (data : Bytes) (off : ℕ) : Safe (readPayload data off) := by
  refine safe_ite (fun _ => safe_refuse _) fun _ => safe_bind (readU32Le_safe) fun plen _ => ?_
  refine safe_ite (fun _ => safe_refuse _) fun h => ?_
  exact safe_bind (safe_sub (by omega) (by omega)) fun payload _ => safe_ok _

theorem readWords_safe (data : Bytes) (n off : ℕ) : Safe (readWords data n off) := by
  induction n generalizing off with
  | zero => exact safe_ok _
  | succ n ih =>
    refine safe_bind (safe_ite (fun _ => safe_ok _) fun _ => safe_refuse _) fun w _ => ?_
    exact safe_bind (ih (off+8)) fun ws _ => safe_ok _

theorem readBitvec_safe (data : Bytes) (off : ℕ) : Safe (readBitvec data off) := by
  refine safe_ite (fun _ => safe_refuse _) fun _ => safe_bind (safe_byteAt (by omega)) ?_
  intro b _
  refine safe_ite (fun _ => safe_ite (fun _ => safe_refuse _) fun _ => ?_) fun _ => safe_ok _
  refine safe_bind (readU32Le_safe) fun n _ => safe_ite (fun _ => safe_refuse _) fun _ => ?_
  exact safe_bind (readWords_safe _ _ _) fun bv _ => safe_ok _

/-! ### What the sections say -/

theorem readHead_ok {layer : MemoryLayer} {key : Text} {klen : ℕ} (h9 : 9 ≤ data.length)
    (hm : slice data 0 4 = magic) (hl : MemoryLayer.fromU8 data[4] = some layer)
    (hk : fromLe (slice data 5 4) = klen) (hlen : 9+klen ≤ data.length)
    (hkey : Text.fromUtf8 (slice data 9 klen) = some key) :
    readHead data = .ok (layer, key, 9+klen) := by
  have hread : readU32Le data 5 = .ok klen := by rw [readU32Le, if_pos (by omega), hk]
  rw [readHead, if_neg (by omega), sub_eq (by omega) (by omega), ok_bind, if_neg (by simp [hm]),
    byteAt_eq (by omega), ok_bind, hl, okOr, ok_bind, if_neg (by omega), hread, ok_bind,
    if_neg (by omega), sub_eq (by omega) (by omega), ok_bind, Nat.add_sub_cancel_left, hkey, okOr,
    ok_bind]

theorem readHead_off {layer : MemoryLayer} {key : Text}
    (h : readHead data = .ok (layer, key, off)) : off ≤ data.length := by
  rw [readHead] at h
  split at h
  · cases h
  obtain ⟨m, -, h⟩ := bind_ok.mp h
  split at h
  · cases h
  obtain ⟨b, -, h⟩ := bind_ok.mp h
  obtain ⟨layer', -, h⟩ := bind_ok.mp h
  split at h
  · cases h
  obtain ⟨klen, -, h⟩ := bind_ok.mp h
  split at h
  · cases h
  obtain ⟨kb, hkb, h⟩ := bind_ok.mp h
  obtain ⟨key', -, h⟩ := bind_ok.mp h
  cases h
  exact (sub_ok hkb).2.1

theorem readPayload_ok {plen : ℕ} (hp : fromLe (slice data off 4) = plen)
    (hlen : off+4+plen ≤ data.length) :
    readPayload data off = .ok (slice data (off+4) plen, off+4+plen) := by
  have hread : readU32Le data off = .ok plen := by rw [readU32Le, if_pos (by omega), hp]
  rw [readPayload, if_neg (by omega), hread, ok_bind, if_neg (by omega),
    sub_eq (by omega) (by omega), ok_bind, Nat.add_sub_cancel_left]

/-! ### The clock -/

theorem mapM_ok {α β ε : Type} (f : α → Except ε β) (g : α → β) (l : List α)
    (h : ∀ a ∈ l, f a = .ok (g a)) : l.mapM f = .ok (l.map g) := by
  induction l with
  | nil => rfl
  | cons a l ih =>
    rw [List.mapM_cons, h a (by simp), ih fun b hb => h b (by simp [hb])]
    rfl

def clockAt (data : Bytes) : VectorClock where
  nodes := fun i => (slice data 0 8).getD i 0
  counts := fun i => UInt64.ofNat (fromLe (slice data (8+i*8) 8))

theorem clockDecode_eq (data : Bytes) : VectorClock.decode data =
    .ok (if data.length < 72 then none else some (clockAt data, 72)) := by
  rw [VectorClock.decode]
  split
  next h => rfl
  next h =>
    rw [sub_eq (by omega) (by omega), ok_bind, mapM_ok _ (fun i => slice data (8+i*8) 8), ok_bind]
    · congr
      funext i
      simp [i.isLt]
    · intro i hi
      have := List.mem_range.mp hi
      rw [sub_eq (by omega) (by omega), Nat.add_sub_cancel_left]

@[simp] theorem encodeWords_length (ws : List UInt64) : (encodeWords ws).length = 8*ws.length := by
  induction ws with
  | nil => rfl
  | cons w ws ih =>
    simp only [encodeWords, List.flatMap_cons, List.length_append, toLe_length, List.length_cons] at *
    omega

@[simp] theorem clockEncode_length (c : VectorClock) : c.encode.length = 72 := by
  simp [VectorClock.encode]

theorem word_toLe (w : UInt64) : UInt64.ofNat (fromLe (toLe 8 w.toNat)) = w := by
  rw [fromLe_toLe, Nat.mod_eq_of_lt (by simpa using w.toNat_lt), UInt64.ofNat_toNat]

theorem slice_encodeWords (ws : List UInt64) (r : Bytes) (i : ℕ) (h : i < ws.length) :
    slice (encodeWords ws ++ r) (i*8) 8 = toLe 8 ws[i].toNat := by
  induction ws generalizing i with
  | nil => simp at h
  | cons w ws ih =>
    have hw : encodeWords (w :: ws) ++ r = toLe 8 w.toNat ++ (encodeWords ws ++ r) := by
      simp [encodeWords]
    rw [hw]
    cases i with
    | zero => simpa using slice_whole (toLe 8 w.toNat) (encodeWords ws ++ r)
    | succ i =>
      have := slice_right (toLe 8 w.toNat) (encodeWords ws ++ r) (i*8) 8
      rw [toLe_length, show 8+i*8 = (i+1)*8 by ring] at this
      rw [this]
      exact ih i (by simpa using h)

theorem clockAt_encode (c : VectorClock) (r : Bytes) : clockAt (c.encode ++ r) = c := by
  have hdata : c.encode ++ r =
      List.ofFn c.nodes ++ (encodeWords (List.ofFn c.counts) ++ r) := by
    simp [VectorClock.encode]
  have hnodes := slice_whole (List.ofFn c.nodes) (encodeWords (List.ofFn c.counts) ++ r)
  rw [List.length_ofFn] at hnodes
  have hcounts : ∀ i : Fin 8, slice (c.encode ++ r) (8+i*8) 8 = toLe 8 (c.counts i).toNat := by
    intro i
    have hs := slice_right (List.ofFn c.nodes) (encodeWords (List.ofFn c.counts) ++ r) (i*8) 8
    rw [List.length_ofFn] at hs
    rw [hdata, hs, slice_encodeWords _ _ _ (by simp), List.getElem_ofFn]
  have hnode : ∀ i : Fin 8, (slice (c.encode ++ r) 0 8).getD i 0 = c.nodes i := by
    intro i
    rw [hdata, hnodes, List.getD_eq_getElem _ _ (by simp), List.getElem_ofFn]
  simp only [clockAt, hcounts, word_toLe, hnode]

theorem toLe_word (b : Bytes) (h : b.length = 8) : toLe 8 (UInt64.ofNat (fromLe b)).toNat = b := by
  have hlt := fromLe_lt b
  have hle := toLe_fromLe b
  rw [h] at hlt hle
  rw [UInt64.toNat_ofNat', Nat.mod_eq_of_lt (by omega), hle]

theorem encodeWords_slices (n : ℕ) (h : off+8*n ≤ data.length) :
    encodeWords (List.ofFn fun i : Fin n => UInt64.ofNat (fromLe (slice data (off+i*8) 8))) =
      slice data off (8*n) := by
  induction n with
  | zero => simp [encodeWords, slice]
  | succ n ih =>
    have hword := toLe_word _ (slice_length data (off+n*8) 8 (by omega))
    have hih := ih (by omega)
    have hsplit := slice_append_slice data off (8*n) 8
    rw [show off+8*n = off+n*8 by ring] at hsplit
    rw [List.ofFn_succ', List.concat_eq_append, show 8*(n+1) = 8*n+8 by ring, ← hsplit]
    simp only [encodeWords, List.flatMap_append, List.flatMap_singleton, Fin.val_last, hword,
      Fin.val_castSucc] at hih ⊢
    rw [hih]

theorem clockAt_bytes (h : 72 ≤ data.length) : (clockAt data).encode = slice data 0 72 := by
  have hnodes : List.ofFn (clockAt data).nodes = slice data 0 8 := by
    apply List.ext_getElem
    · simp [slice_length _ _ _ (show 0+8 ≤ data.length by omega)]
    · intro i h₁ h₂
      rw [List.getElem_ofFn]
      exact List.getD_eq_getElem _ _ h₂
  have hcounts : encodeWords (List.ofFn (clockAt data).counts) = slice data 8 (8*8) :=
    encodeWords_slices 8 (by omega)
  rw [VectorClock.encode, hnodes, hcounts]
  exact slice_append_slice data 0 8 64

/-! ### The round trip -/

theorem readWords_encode (a r : Bytes) (ws : List UInt64) :
    readWords (a ++ (encodeWords ws ++ r)) ws.length a.length = .ok ws := by
  induction ws generalizing a with
  | nil => rfl
  | cons w ws ih =>
    have hw : a ++ (encodeWords (w :: ws) ++ r) =
        a ++ (toLe 8 w.toNat ++ (encodeWords ws ++ r)) := by
      simp [encodeWords]
    have hnext := ih (a ++ toLe 8 w.toNat)
    rw [List.length_append, toLe_length, List.append_assoc] at hnext
    rw [hw, List.length_cons, readWords, readU64Le, if_pos (by simp),
      slice_at a _ _ rfl (by simp), word_toLe, ok_bind, hnext, ok_bind]

theorem fromU8_toU8 (l : MemoryLayer) : MemoryLayer.fromU8 l.toU8 = some l := by
  cases l <;> rfl

theorem fromUtf8_bytes (t : Text) : Text.fromUtf8 t.bytes = some t := dif_pos t.utf8

theorem u32_toLe {n : ℕ} (h : n < 2^32) : fromLe (toLe 4 n) = n := by
  rw [fromLe_toLe, Nat.mod_eq_of_lt (by omega)]

theorem readHead_encode (layer : MemoryLayer) (key : Text) (r : Bytes)
    (h : key.bytes.length < 2^32) :
    readHead (magic ++ ([layer.toU8] ++ (toLe 4 key.bytes.length ++ (key.bytes ++ r)))) =
      .ok (layer, key, 9+key.bytes.length) := by
  refine readHead_ok (by simp [magic]) (slice_whole magic _) (fromU8_toU8 layer) ?_
    (by simp [magic]; omega) ?_
  · rw [← List.append_assoc, slice_at _ _ _ (by simp [magic]) (by simp), u32_toLe h]
  · rw [← List.append_assoc, ← List.append_assoc, slice_at _ _ _ (by simp [magic]) rfl,
      fromUtf8_bytes]

theorem readPayload_encode (a p r : Bytes) (h : p.length < 2^32) :
    readPayload (a ++ (toLe 4 p.length ++ (p ++ r))) a.length = .ok (p, a.length+4+p.length) := by
  have hp : fromLe (slice (a ++ (toLe 4 p.length ++ (p ++ r))) a.length 4) = p.length := by
    rw [slice_at _ _ _ rfl (by simp), u32_toLe h]
  rw [readPayload_ok hp (by simp; omega), ← List.append_assoc a,
    slice_at _ _ _ (by simp) rfl]

theorem readBitvec_encode (a : Bytes) (bitvec : Option (List UInt64))
    (h : ∀ bv, bitvec = some bv → bv.length < 2^32) :
    readBitvec (a ++ encodeBitvec bitvec) a.length = .ok bitvec := by
  cases bitvec with
  | none =>
    rw [readBitvec, if_neg (by simp [encodeBitvec]), byteAt_eq (by simp [encodeBitvec]), ok_bind,
      if_neg (by simp [encodeBitvec])]
  | some bv =>
    have hn : readU32Le (a ++ encodeBitvec (some bv)) (a.length+1) = .ok bv.length := by
      rw [readU32Le, if_pos (by simp [encodeBitvec]; omega), encodeBitvec, List.append_assoc,
        ← List.append_assoc a, slice_at _ _ _ (by simp) (by simp), u32_toLe (h bv rfl)]
    have hwords : readWords (a ++ encodeBitvec (some bv)) bv.length (a.length+5) = .ok bv := by
      have hw := readWords_encode (a ++ ([1] ++ toLe 4 bv.length)) [] bv
      simp only [List.length_append, toLe_length, List.append_nil, List.append_assoc] at hw
      simpa [encodeBitvec] using hw
    rw [readBitvec, if_neg (by simp [encodeBitvec]), byteAt_eq (by simp [encodeBitvec]), ok_bind,
      if_pos (by simp [encodeBitvec]), if_neg (by simp [encodeBitvec]; omega), hn, ok_bind,
      if_neg (by simp [encodeBitvec]; omega), hwords, ok_bind]

theorem decode_encode (doc : MemoryDoc) (h : Fits doc) : decode doc.encode = .ok doc := by
  obtain ⟨layer, key, clock, payload, bitvec⟩ := doc
  -- `a` ends before the clock, `b` behind it, `c` behind the payload
  set a := magic ++ [layer.toU8] ++ toLe 4 key.bytes.length ++ key.bytes with ha
  set b := a ++ clock.encode with hb
  set c := b ++ toLe 4 payload.length ++ payload with hc
  have hlen : a.length = 9+key.bytes.length := by simp [ha, magic]; omega
  have hdata : (MemoryDoc.mk layer key clock payload bitvec).encode = c ++ encodeBitvec bitvec := by
    simp [MemoryDoc.encode, ha, hb, hc]
  have hhead : readHead (c ++ encodeBitvec bitvec) = .ok (layer, key, a.length) := by
    have := readHead_encode layer key
      (clock.encode ++ (toLe 4 payload.length ++ (payload ++ encodeBitvec bitvec))) h.key
    rw [hlen, ← this]
    simp [ha, hb, hc]
  have hclock : ∃ tail, sub (c ++ encodeBitvec bitvec) a.length (c ++ encodeBitvec bitvec).length =
      (.ok tail : Parse Bytes) ∧ VectorClock.decode tail = .ok (some (clock, 72)) := by
    refine ⟨clock.encode ++ (toLe 4 payload.length ++ (payload ++ encodeBitvec bitvec)), ?_, ?_⟩
    · rw [sub_eq (by simp [hb, hc]) le_rfl]
      simp [slice, hb, hc]
    · rw [clockDecode_eq, clockAt_encode, if_neg (by simp)]
  have hpayload : readPayload (c ++ encodeBitvec bitvec) (a.length+72) = .ok (payload, c.length) := by
    have := readPayload_encode b payload (encodeBitvec bitvec) h.payload
    have hbl : b.length = a.length+72 := by simp [hb]
    rw [← hbl]
    simpa [hc, add_assoc] using this
  obtain ⟨tail, htail, hdec⟩ := hclock
  rw [hdata, decode, hhead, ok_bind]
  dsimp only
  rw [htail, ok_bind, hdec, ok_bind, okOr, ok_bind]
  dsimp only
  rw [hpayload, ok_bind]
  dsimp only
  rw [readBitvec_encode c bitvec h.bitvec, ok_bind]

theorem decode_safe (data : Bytes) : Safe (decode data) := by
  refine safe_bind (readHead_safe data) ?_
  rintro ⟨layer, key, off⟩ hhead
  refine safe_bind (safe_sub (readHead_off hhead) le_rfl) fun tail _ => ?_
  refine safe_bind (by rw [clockDecode_eq]; exact safe_ok _) fun c _ => ?_
  refine safe_bind (safe_okOr) ?_
  rintro ⟨clock, n⟩ -
  refine safe_bind (readPayload_safe _ _) ?_
  rintro ⟨payload, off'⟩ -
  exact safe_bind (readBitvec_safe _ _) fun bitvec _ => safe_ok _

theorem parse_of_decode {doc : MemoryDoc} (h : decode data = .ok doc) :
    ∃ v, MemoryDocView.parse data = .ok v ∧ v.layer = doc.layer ∧ v.key = doc.key ∧
      v.payload = doc.payload ∧ v.clockBytes = .ok doc.clock.encode := by
  obtain ⟨⟨layer, key, off⟩, hhead, h⟩ := bind_ok.mp h
  obtain ⟨tail, htail, h⟩ := bind_ok.mp h
  obtain ⟨c, hc, h⟩ := bind_ok.mp h
  obtain ⟨⟨clock, n⟩, hclock, h⟩ := bind_ok.mp h
  obtain ⟨⟨payload, off'⟩, hpayload, h⟩ := bind_ok.mp h
  obtain ⟨bitvec, -, h⟩ := bind_ok.mp h
  cases h
  obtain ⟨-, -, rfl⟩ := sub_ok htail
  have hoff := readHead_off hhead
  have hlen := slice_length data off (data.length-off) (by omega)
  have hsome := okOr_ok hclock
  rw [clockDecode_eq, hsome] at hc
  split at hc
  · cases hc
  next h72 =>
    cases hc
    refine ⟨⟨data, layer, key, payload, off⟩, ?_, rfl, rfl, rfl, ?_⟩
    · rw [MemoryDocView.parse, hhead, ok_bind]
      dsimp only
      rw [if_neg (by omega), hpayload, ok_bind]
    · rw [MemoryDocView.clockBytes, sub_eq (by simp) (by dsimp only; omega),
        clockAt_bytes (by omega), slice_slice _ _ _ _ _ (by omega)]
      simp

theorem memoryDoc_codec :
    (∀ doc : MemoryDoc, Fits doc → decode doc.encode = .ok doc) ∧
    ∀ data : Bytes, Safe (decode data) ∧ ∀ doc, decode data = .ok doc →
      ∃ v, MemoryDocView.parse data = .ok v ∧ v.layer = doc.layer ∧ v.key = doc.key ∧
        v.payload = doc.payload ∧ v.clockBytes = .ok doc.clock.encode :=
  ⟨decode_encode, fun data => ⟨decode_safe data, fun _ h => parse_of_decode h⟩⟩

theorem sampleKey_utf8 : TickvRecord.utf8Valid [0x61] = true := by decide

def sampleDoc : MemoryDoc :=
  ⟨.l4Semantic, ⟨[0x61], sampleKey_utf8⟩, VectorClock.new, [1, 2, 3], some [7]⟩

theorem memoryDoc_codec_sample : Fits sampleDoc ∧ decode sampleDoc.encode = .ok sampleDoc := by
  have hfits : Fits sampleDoc := by
    refine ⟨by decide, by decide, ?_⟩
    rintro bv ⟨⟩
    decide
  exact ⟨hfits, memoryDoc_codec.1 sampleDoc hfits⟩

end NeuralOs.Sgdb.MemoryCodec
