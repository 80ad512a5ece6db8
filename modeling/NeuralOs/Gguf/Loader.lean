import NeuralOs.Lib.Reader

/-!
# The GGUF loader

The header, the metadata pairs and the tensor table are read one after the
other; then the sizes of all tensors are added up and compared with what is
left of the file. The arithmetic that is not checked in the source panics
here.
-/

set_option autoImplicit false

namespace NeuralOs.Gguf
open Checked ByteString Reading

def magicNumber : ℕ := 0x46554747
def versionNumber : ℕ := 3
def maxString : ℕ := 2^20
def maxArray : ℕ := 4096
def maxKv : ℕ := 65536
def maxTensors : ℕ := 65536
def qkK : ℕ := 256

inductive GgufError where
  | truncated | stringTooLong | stringTruncated | arrayTooLong | arrayTooDeep
  | tooShort | badMagic | badVersion | absurdCount | metadataTruncated
  | tensorInfoTruncated | badDims | tensorDimsTruncated | offsetOverflow
  | noTensorData | tensorDataOverflow | tensorDataTruncated
  deriving DecidableEq

inductive GgufType where
  | f32 | f16 | q4_0 | q4_1 | q5_0 | q5_1 | q8_0 | q8_1
  | q2_K | q3_K | q4_K | q5_K | q6_K | q8_K | bf16 | tq1_0 | tq2_0
  | unknown (v : ℕ)
  deriving DecidableEq

def GgufType.fromU32 : ℕ → GgufType
  | 0 => .f32
  | 1 => .f16
  | 2 => .q4_0
  | 3 => .q4_1
  | 6 => .q5_0
  | 7 => .q5_1
  | 8 => .q8_0
  | 9 => .q8_1
  | 10 => .q2_K
  | 11 => .q3_K
  | 12 => .q4_K
  | 13 => .q5_K
  | 14 => .q6_K
  | 15 => .q8_K
  | 30 => .bf16
  | 34 => .tq1_0
  | 35 => .tq2_0
  | v => .unknown v

def GgufType.Known : GgufType → Prop
  | .unknown _ => False
  | _ => True

def saturatingMul (a b : ℕ) : ℕ := min (a*b) (2^64-1)

def plus (a b : ℕ) : Except (Stop GgufError) ℕ :=
  if a+b < 2^64 then .ok (a+b) else .error .panic

/-- Blocks of 32 elements: `(ne + 31) / 32`. -/
def blocks32 (bytes ne : ℕ) : Except (Stop GgufError) ℕ := do
  let up ← plus ne 31
  return saturatingMul (up/32) bytes

/-- Super-blocks: `(ne + QK_K - 1) / QK_K`, added before subtracted. -/
def blocksK (bytes ne : ℕ) : Except (Stop GgufError) ℕ := do
  let up ← plus ne qkK
  return saturatingMul ((up-1)/qkK) bytes

def GgufType.nbytesForElements (ne : ℕ) : GgufType → Except (Stop GgufError) ℕ
  | .f32 => .ok (saturatingMul ne 4)
  | .f16 => .ok (saturatingMul ne 2)
  | .q4_0 => blocks32 18 ne
  | .q5_0 => blocks32 22 ne
  | .q8_0 => blocks32 34 ne
  | .q4_K => blocksK 144 ne
  | .q6_K => blocksK 210 ne
  | .q2_K => blocksK 96 ne
  | .q3_K => blocksK 128 ne
  | .q5_K => blocksK 192 ne
  | .bf16 => .ok (saturatingMul ne 2)
  | .tq1_0 => blocksK 54 ne
  | .tq2_0 => blocksK 66 ne
  | .q8_K => blocksK (4 + qkK + qkK/8) ne
  | .q4_1 => blocks32 20 ne
  | .q5_1 => blocks32 24 ne
  | .q8_1 => blocks32 36 ne
  | .unknown _ => .ok 0

structure GgufTensorInfo where
  name : String
  nDims : ℕ
  dims : List ℕ
  tensorType : GgufType
  offset : ℕ

structure GgufHeader where
  magic : ℕ
  version : ℕ
  tensorCount : ℕ
  metadataKvCount : ℕ

structure GgufMetadata where
  key : String
  value : String

structure GgufFile where
  header : GgufHeader
  metadata : List GgufMetadata
  tensors : List GgufTensorInfo
  dataStart : ℕ
  data : Bytes

structure FloatFormat where
  f32 : ℕ → String
  f64 : ℕ → String

section Readers

variable (fmt : FloatFormat) (data : Bytes)

def readWord (n : ℕ) : Reader GgufError ℕ := do
  let b ← take data n .truncated
  return fromLe b

def readU32 : Reader GgufError ℕ := readWord data 4

def readU64 : Reader GgufError ℕ := readWord data 8

def utf8Text (b : Bytes) : String :=
  (String.fromUTF8? ⟨b.toArray⟩).getD "(invalid utf8)"

def readString : Reader GgufError String := do
  let len ← readU64 data
  require (len ≤ maxString) .stringTooLong
  let b ← take data len .stringTruncated
  return utf8Text b

def signed (w n : ℕ) : ℤ := if n < 2^(w-1) then n else (n : ℤ) - 2^w

def scalar : ℕ → Option (ℕ × (ℕ → String))
  | 0 => some (1, fun v => toString v)
  | 1 => some (1, fun v => toString (signed 8 v))
  | 2 => some (2, fun v => toString v)
  | 3 => some (2, fun v => toString (signed 16 v))
  | 4 => some (4, fun v => toString v)
  | 5 => some (4, fun v => toString (signed 32 v))
  | 6 => some (4, fmt.f32)
  | 7 => some (1, fun v => if v ≠ 0 then "true" else "false")
  | 10 => some (8, fmt.f64)
  | _ => none

def bracketed (items : List String) : String := "[" ++ String.intercalate ", " items ++ "]"

def readArray (inner : ℕ → Reader GgufError String) : Reader GgufError String := do
  let arrType ← readU32 data
  let arrLen ← readU64 data
  require (arrLen ≤ maxArray) .arrayTooLong
  let items ← many (inner arrType) arrLen
  return bracketed items

/-- The two value readers differ in how deep an array goes and in the text
for an unknown type, of which 8 bytes are skipped. -/
def readTyped (inner : ℕ → Reader GgufError String) (unknown : String) (valType : ℕ) :
    Reader GgufError String :=
  match scalar fmt valType with
  | some (width, render) => do
    let b ← take data width .truncated
    return render (fromLe b)
  | none =>
    if valType = 8 then readString data
    else if valType = 9 then readArray data inner
    else do
      let _ ← take data 8 .truncated
      return unknown

/-- The first argument is 9 minus the depth; depth 9 is refused. -/
def readMetadataValueInner : ℕ → ℕ → Reader GgufError String
  | 0, _ => refuse .arrayTooDeep
  | left+1, valType => readTyped fmt data (readMetadataValueInner left) "?" valType

def readMetadataValue : Reader GgufError String := do
  let valType ← readU32 data
  readTyped fmt data (readMetadataValueInner fmt data 9)
    ("(unknown_type_" ++ toString valType ++ ")") valType

def readPair : Reader GgufError GgufMetadata := do
  peek data 8 .metadataTruncated
  let key ← readString data
  let value ← readMetadataValue fmt data
  return ⟨key, value⟩

def readTensor : Reader GgufError GgufTensorInfo := do
  peek data 8 .tensorInfoTruncated
  let name ← readString data
  let nDims ← readU32 data
  require (nDims ≠ 0 ∧ nDims ≤ 4) .badDims
  peek data (nDims*8+12) .tensorDimsTruncated
  let dims ← many (readU64 data) nDims
  let tensorType ← readU32 data
  let offset ← readU64 data
  return ⟨name, nDims, dims, .fromU32 tensorType, offset⟩

def readTable : Reader GgufError (GgufHeader × List GgufMetadata × List GgufTensorInfo) := do
  let magic ← readU32 data
  require (magic = magicNumber) .badMagic
  let version ← readU32 data
  require (version = versionNumber) .badVersion
  let tensorCount ← readU64 data
  let metadataKvCount ← readU64 data
  require (tensorCount ≤ maxTensors ∧ metadataKvCount ≤ maxKv) .absurdCount
  let metadata ← many (readPair fmt data) metadataKvCount
  let tensors ← many (readTensor data) tensorCount
  return (⟨magic, version, tensorCount, metadataKvCount⟩, metadata, tensors)

/-- The number of elements; every partial product is checked. -/
def elements (dims : List ℕ) : Option ℕ :=
  dims.foldlM (fun ne d => if ne*d < 2^64 then some (ne*d) else none) 1

def tensorBytes (t : GgufTensorInfo) : Except (Stop GgufError) ℕ := do
  let ne ← okOr (elements t.dims) .tensorDataOverflow
  t.tensorType.nbytesForElements ne

def expectedBytes : ℕ → List GgufTensorInfo → Except (Stop GgufError) ℕ
  | expected, [] => .ok expected
  | expected, t::rest => do
    let n ← tensorBytes t
    if expected+n < 2^64 then expectedBytes (expected+n) rest
    else .error (.refused .tensorDataOverflow)

def readPayload (tensors : List GgufTensorInfo) (offset : ℕ) :
    Except (Stop GgufError) (ℕ × Bytes) :=
  if offset+31 < 2^64 then
    if alignUp 32 offset > data.length then .error (.refused .noTensorData)
    else do
      let expected ← expectedBytes 0 tensors
      let room ← minus data.length (alignUp 32 offset)
      if room < expected then .error (.refused .tensorDataTruncated)
      else do
        let raw ← sub data (alignUp 32 offset) data.length
        return (alignUp 32 offset, raw)
  else .error (.refused .offsetOverflow)

def loadGguf : Except (Stop GgufError) GgufFile :=
  if data.length < 24 then .error (.refused .tooShort)
  else do
    let ((header, metadata, tensors), offset) ← (readTable fmt data).run 0
    let (dataStart, raw) ← readPayload data tensors offset
    return ⟨header, metadata, tensors, dataStart, raw⟩

end Readers
/-! ## The layout of a GGUF file -/

section Layout

variable (fmt : FloatFormat) (data : Bytes)

def Word (n : ℕ) : Grammar ℕ := fun o v o' => ∃ b, Field data n o b o' ∧ v = fromLe b

def StringAt : Grammar String := fun o s o' =>
  ∃ len m b, Word data 8 o len m ∧ len ≤ maxString ∧ Field data len m b o' ∧ s = utf8Text b

def ArrayAt (Inner : ℕ → Grammar String) : Grammar String := fun o s o' =>
  ∃ ty m len m' items, Word data 4 o ty m ∧ Word data 8 m len m' ∧ len ≤ maxArray ∧
    Many (Inner ty) len m' items o' ∧ s = bracketed items

def Shown (n : ℕ) (render : Bytes → String) : Grammar String := fun o s o' =>
  ∃ b, Field data n o b o' ∧ s = render b

def TypedAt (Inner : ℕ → Grammar String) (unknown : String) (valType : ℕ) : Grammar String :=
  match scalar fmt valType with
  | some (width, render) => Shown data width fun b => render (fromLe b)
  | none =>
    if valType = 8 then StringAt data
    else if valType = 9 then ArrayAt data Inner
    else Shown data 8 fun _ => unknown

def InnerAt : ℕ → ℕ → Grammar String
  | 0, _ => fun _ _ _ => False
  | left+1, valType => TypedAt fmt data (InnerAt left) "?" valType

def ValueAt : Grammar String := fun o s o' =>
  ∃ ty m, Word data 4 o ty m ∧
    TypedAt fmt data (InnerAt fmt data 9) ("(unknown_type_" ++ toString ty ++ ")") ty m s o'

def PairAt : Grammar GgufMetadata := fun o p o' =>
  ∃ m, StringAt data o p.key m ∧ ValueAt fmt data m p.value o'

def TensorAt : Grammar GgufTensorInfo := fun o t o' =>
  ∃ m₁ m₂ m₃ m₄ ty, StringAt data o t.name m₁ ∧ Word data 4 m₁ t.nDims m₂ ∧
    (t.nDims ≠ 0 ∧ t.nDims ≤ 4) ∧ Many (Word data 8) t.nDims m₂ t.dims m₃ ∧
    Word data 4 m₃ ty m₄ ∧ t.tensorType = .fromU32 ty ∧ Word data 8 m₄ t.offset o'

def TableAt : Grammar (GgufHeader × List GgufMetadata × List GgufTensorInfo) := fun o x o' =>
  ∃ m, (Word data 4 o x.1.magic (o+4) ∧ x.1.magic = magicNumber) ∧
    (Word data 4 (o+4) x.1.version (o+8) ∧ x.1.version = versionNumber) ∧
    Word data 8 (o+8) x.1.tensorCount (o+16) ∧ Word data 8 (o+16) x.1.metadataKvCount (o+24) ∧
    (x.1.tensorCount ≤ maxTensors ∧ x.1.metadataKvCount ≤ maxKv) ∧
    Many (PairAt fmt data) x.1.metadataKvCount (o+24) x.2.1 m ∧
    Many (TensorAt data) x.1.tensorCount m x.2.2 o'

def Declares (tensors : List GgufTensorInfo) (offset : ℕ) : Prop :=
  24 ≤ data.length ∧ ∃ header metadata, TableAt fmt data 0 (header, metadata, tensors) offset

end Layout

variable {fmt : FloatFormat} {data : Bytes}

theorem Word.stop {n o v o' : ℕ} (h : Word data n o v o') :
    o' = o+n ∧ o+n ≤ data.length ∧ o+n < 2^64 := by
  obtain ⟨b, ⟨rfl, hl, hw, -⟩, -⟩ := h
  exact ⟨rfl, hl, hw⟩

theorem many_word_stop {w n o o' : ℕ} {l : List ℕ} (h : Many (Word data w) n o l o') :
    o' = o+n*w := by
  induction n generalizing o l with
  | zero => simpa using h.2
  | succ n ih =>
    obtain ⟨a, m, rest, h1, h2, -⟩ := h
    rw [ih h2, h1.stop.1, Nat.succ_mul]
    omega

theorem StringAt.head {o o' : ℕ} {s : String} (h : StringAt data o s o') :
    o+8 < 2^64 ∧ o+8 ≤ data.length := by
  obtain ⟨len, m, b, hw, -, -, -⟩ := h
  exact ⟨hw.stop.2.2, hw.stop.2.1⟩

theorem exact_readWord (n : ℕ) : Exact (readWord data n) (Word data n) := by
  refine Exact.congr (exact_bind (exact_take data n _) fun b => exact_pure (fromLe b)) ?_
  intro o v o'
  constructor
  · rintro ⟨b, m, h, rfl, rfl⟩
    exact ⟨b, h, rfl⟩
  · rintro ⟨b, h, rfl⟩
    exact ⟨b, o', h, rfl, rfl⟩

theorem exact_readString : Exact (readString data) (StringAt data) := by
  refine Exact.congr (exact_bind (exact_readWord 8) fun len => exact_bind (exact_require _ _) fun _ =>
    exact_bind (exact_take data len _) fun b => exact_pure (utf8Text b)) ?_
  intro o s o'
  constructor
  · rintro ⟨len, m, h1, _, _, ⟨h2, rfl⟩, b, _, h3, rfl, rfl⟩
    exact ⟨len, _, b, h1, h2, h3, rfl⟩
  · rintro ⟨len, m, b, h1, h2, h3, rfl⟩
    exact ⟨len, m, h1, (), m, ⟨h2, rfl⟩, b, o', h3, rfl, rfl⟩

theorem exact_readArray {inner : ℕ → Reader GgufError String} {Inner : ℕ → Grammar String}
    (h : ∀ ty, Exact (inner ty) (Inner ty)) : Exact (readArray data inner) (ArrayAt data Inner) := by
  refine Exact.congr (exact_bind (exact_readWord 4) fun ty => exact_bind (exact_readWord 8) fun len =>
    exact_bind (exact_require _ _) fun _ => exact_bind (exact_many (h ty) len) fun items =>
      exact_pure (bracketed items)) ?_
  intro o s o'
  constructor
  · rintro ⟨ty, m, h1, len, m', h2, _, _, ⟨h3, rfl⟩, items, _, h4, rfl, rfl⟩
    exact ⟨ty, m, len, _, items, h1, h2, h3, h4, rfl⟩
  · rintro ⟨ty, m, len, m', items, h1, h2, h3, h4, rfl⟩
    exact ⟨ty, m, h1, len, m', h2, (), m', ⟨h3, rfl⟩, items, o', h4, rfl, rfl⟩

theorem exact_readTyped {inner : ℕ → Reader GgufError String} {Inner : ℕ → Grammar String}
    (h : ∀ ty, Exact (inner ty) (Inner ty)) (unknown : String) (valType : ℕ) :
    Exact (readTyped fmt data inner unknown valType) (TypedAt fmt data Inner unknown valType) := by
  have hfield : ∀ (n : ℕ) (f : Bytes → String),
      Exact (do let b ← take data n GgufError.truncated; return f b)
        (Shown data n f) := by
    intro n f
    refine Exact.congr (exact_bind (exact_take data n _) fun b => exact_pure (f b)) ?_
    intro o s o'
    constructor
    · rintro ⟨b, m, hb, rfl, rfl⟩
      exact ⟨b, hb, rfl⟩
    · rintro ⟨b, hb, rfl⟩
      exact ⟨b, o', hb, rfl, rfl⟩
  cases hsc : scalar fmt valType with
  | some p =>
    simp only [readTyped, TypedAt, hsc]
    exact hfield p.1 fun b => p.2 (fromLe b)
  | none =>
    by_cases h8 : valType = 8
    · simp only [readTyped, TypedAt, hsc, if_pos h8]
      exact exact_readString
    by_cases h9 : valType = 9
    · simp only [readTyped, TypedAt, hsc, if_neg h8, if_pos h9]
      exact exact_readArray h
    · simp only [readTyped, TypedAt, hsc, if_neg h8, if_neg h9]
      exact hfield 8 fun _ => unknown

theorem exact_readMetadataValueInner (left valType : ℕ) :
    Exact (readMetadataValueInner fmt data left valType) (InnerAt fmt data left valType) := by
  induction left generalizing valType with
  | zero => exact exact_refuse _
  | succ left ih => exact exact_readTyped ih "?" valType

theorem exact_readMetadataValue : Exact (readMetadataValue fmt data) (ValueAt fmt data) :=
  exact_bind (exact_readWord 4) fun ty =>
    exact_readTyped (exact_readMetadataValueInner 9) ("(unknown_type_" ++ toString ty ++ ")") ty

theorem exact_readPair : Exact (readPair fmt data) (PairAt fmt data) := by
  unfold readPair
  refine Exact.congr (exact_bind (exact_peek data 8 _) fun _ => exact_bind exact_readString fun key =>
    exact_bind exact_readMetadataValue fun value => exact_pure (GgufMetadata.mk key value)) ?_
  intro o p o'
  constructor
  · rintro ⟨_, _, ⟨-, rfl⟩, key, m, h1, value, m', h2, rfl, rfl⟩
    exact ⟨m, h1, h2⟩
  · rintro ⟨m, h1, h2⟩
    exact ⟨(), o, ⟨h1.head, rfl⟩, p.key, m, h1, p.value, o', h2, rfl, rfl⟩

theorem exact_readTensor : Exact (readTensor data) (TensorAt data) := by
  unfold readTensor
  refine Exact.congr (exact_bind (exact_peek data 8 _) fun _ => exact_bind exact_readString fun name =>
    exact_bind (exact_readWord 4) fun nDims => exact_bind (exact_require _ _) fun _ =>
      exact_bind (exact_peek data (nDims*8+12) _) fun _ =>
        exact_bind (exact_many (exact_readWord 8) nDims) fun dims =>
          exact_bind (exact_readWord 4) fun ty => exact_bind (exact_readWord 8) fun offset =>
            exact_pure (GgufTensorInfo.mk name nDims dims (.fromU32 ty) offset)) ?_
  intro o t o'
  constructor
  · rintro ⟨_, _, ⟨-, rfl⟩, name, m₁, h1, nDims, m₂, h2, _, _, ⟨h3, rfl⟩, _, _, ⟨-, rfl⟩, dims, m₃,
      h4, ty, m₄, h5, offset, m₅, h6, rfl, rfl⟩
    exact ⟨m₁, _, m₃, m₄, ty, h1, h2, h3, h4, h5, rfl, h6⟩
  rintro ⟨m₁, m₂, m₃, m₄, ty, h1, h2, h3, h4, h5, h6, h7⟩
  have hroom : m₂+(t.nDims*8+12) < 2^64 ∧ m₂+(t.nDims*8+12) ≤ data.length := by
    have e3 := many_word_stop h4
    have e4 := h5.stop
    have e5 := h7.stop
    omega
  refine ⟨(), o, ⟨h1.head, rfl⟩, t.name, m₁, h1, t.nDims, m₂, h2, (), m₂, ⟨h3, rfl⟩, (), m₂,
    ⟨hroom, rfl⟩, t.dims, m₃, h4, ty, m₄, h5, t.offset, o', h7, ?_, rfl⟩
  rw [← h6]

theorem exact_readTable : Exact (readTable fmt data) (TableAt fmt data) := by
  unfold readTable
  refine Exact.congr (exact_bind (exact_readWord 4) fun magic =>
    exact_bind (exact_require _ _) fun _ => exact_bind (exact_readWord 4) fun version =>
      exact_bind (exact_require _ _) fun _ => exact_bind (exact_readWord 8) fun count =>
        exact_bind (exact_readWord 8) fun kv => exact_bind (exact_require _ _) fun _ =>
          exact_bind (exact_many exact_readPair kv) fun metadata =>
            exact_bind (exact_many exact_readTensor count) fun tensors =>
              exact_pure (GgufHeader.mk magic version count kv, metadata, tensors)) ?_
  intro o x o'
  constructor
  · rintro ⟨magic, m₁, h1, _, _, ⟨h2, rfl⟩, version, m₂, h3, _, _, ⟨h4, rfl⟩, count, m₃, h5, kv, m₄,
      h6, _, _, ⟨h7, rfl⟩, metadata, m₅, h8, tensors, m₆, h9, rfl, rfl⟩
    obtain ⟨rfl, -⟩ := h1.stop
    obtain ⟨rfl, -⟩ := h3.stop
    obtain ⟨rfl, -⟩ := h5.stop
    obtain ⟨rfl, -⟩ := h6.stop
    exact ⟨m₅, ⟨h1, h2⟩, ⟨h3, h4⟩, h5, h6, h7, h8, h9⟩
  · rintro ⟨m, ⟨h1, h2⟩, ⟨h3, h4⟩, h5, h6, h7, h8, h9⟩
    exact ⟨_, _, h1, (), _, ⟨h2, rfl⟩, _, _, h3, (), _, ⟨h4, rfl⟩, _, _, h5, _, _, h6, (), _,
      ⟨h7, rfl⟩, _, m, h8, _, o', h9, rfl, rfl⟩

/-! ## What loading checks -/

def GgufType.slack : GgufType → ℕ
  | .f32 | .f16 | .bf16 | .unknown _ => 0
  | .q4_0 | .q4_1 | .q5_0 | .q5_1 | .q8_0 | .q8_1 => 31
  | .q2_K | .q3_K | .q4_K | .q5_K | .q6_K | .q8_K | .tq1_0 | .tq2_0 => qkK

def GgufType.block : GgufType → ℕ × ℕ
  | .f32 => (1, 4)
  | .f16 => (1, 2)
  | .bf16 => (1, 2)
  | .q4_0 => (32, 18)
  | .q4_1 => (32, 20)
  | .q5_0 => (32, 22)
  | .q5_1 => (32, 24)
  | .q8_0 => (32, 34)
  | .q8_1 => (32, 36)
  | .q2_K => (qkK, 96)
  | .q3_K => (qkK, 128)
  | .q4_K => (qkK, 144)
  | .q5_K => (qkK, 192)
  | .q6_K => (qkK, 210)
  | .q8_K => (qkK, 292)
  | .tq1_0 => (qkK, 54)
  | .tq2_0 => (qkK, 66)
  | .unknown _ => (1, 0)

def GgufType.size (ty : GgufType) (ne : ℕ) : ℕ :=
  saturatingMul ((ne+(ty.block.1-1))/ty.block.1) ty.block.2

theorem blocks32_eq (bytes ne : ℕ) : blocks32 bytes ne =
    if ne+31 < 2^64 then .ok (saturatingMul ((ne+31)/32) bytes) else .error .panic := by
  unfold blocks32 plus
  split <;> rfl

theorem blocksK_eq (bytes ne : ℕ) : blocksK bytes ne =
    if ne+qkK < 2^64 then .ok (saturatingMul ((ne+(qkK-1))/qkK) bytes) else .error .panic := by
  unfold blocksK plus
  split <;> rfl

variable {ne : ℕ} {t : GgufTensorInfo}

theorem nbytesForElements_eq (ty : GgufType) (hne : ne < 2^64) :
    ty.nbytesForElements ne =
      if ne+ty.slack < 2^64 then .ok (ty.size ne) else .error .panic := by
  cases ty <;>
    simp only [GgufType.nbytesForElements, GgufType.size, GgufType.block, GgufType.slack,
      blocks32_eq, blocksK_eq, Nat.add_zero, Nat.div_one, Nat.sub_self, if_pos hne] <;> rfl

theorem elements_lt {dims : List ℕ} (h : elements dims = some ne) : ne < 2^64 := by
  suffices hall : ∀ (l : List ℕ) (s : ℕ), s < 2^64 →
      l.foldlM (fun n d => if n*d < 2^64 then some (n*d) else none) s = some ne → ne < 2^64 from
    hall dims 1 (by norm_num) h
  intro l
  induction l with
  | nil =>
    intro s hs h
    cases h
    exact hs
  | cons d l ih =>
    intro s hs h
    rw [List.foldlM_cons] at h
    split at h
    · exact ih _ (by assumption) h
    · cases h

/-- The size a tensor declares, when its element count is a machine word. -/
def declaredBytes (t : GgufTensorInfo) : ℕ := t.tensorType.size ((elements t.dims).getD 0)

theorem tensorBytes_some (h : elements t.dims = some ne) :
    tensorBytes t =
      if ne+t.tensorType.slack < 2^64 then .ok (declaredBytes t) else .error .panic := by
  simp only [tensorBytes, h, okOr, ok_bind, nbytesForElements_eq _ (elements_lt h), declaredBytes,
    Option.getD_some]

theorem tensorBytes_none (h : elements t.dims = none) :
    tensorBytes t = .error (.refused .tensorDataOverflow) := by
  simp only [tensorBytes, h, okOr]
  rfl

/-- Rounding up to whole blocks stays a machine word for every tensor up to
the first one at which the loader refuses the sizes. -/
def Countable : ℕ → List GgufTensorInfo → Prop
  | _, [] => True
  | sum, t::rest => ∀ ne, elements t.dims = some ne →
    ne+t.tensorType.slack < 2^64 ∧
      (sum+declaredBytes t < 2^64 → Countable (sum+declaredBytes t) rest)

theorem expectedBytes_safe_iff (sum : ℕ) (l : List GgufTensorInfo) :
    Safe (expectedBytes sum l) ↔ Countable sum l := by
  induction l generalizing sum with
  | nil => exact ⟨fun _ => trivial, fun _ => safe_ok _⟩
  | cons t rest ih =>
    cases he : elements t.dims with
    | none =>
      simp only [expectedBytes, tensorBytes_none he, Countable, he]
      exact ⟨fun _ _ h => absurd h (by simp), fun _ => safe_refuse _⟩
    | some ne =>
      simp only [Countable, he, Option.some.injEq, forall_eq']
      by_cases hs : ne+t.tensorType.slack < 2^64
      · have ht : tensorBytes t = .ok (declaredBytes t) := by rw [tensorBytes_some he, if_pos hs]
        simp only [expectedBytes, ht, ok_bind, hs, true_and]
        by_cases hsum : sum+declaredBytes t < 2^64
        · simp only [hsum, true_implies]
          exact ih _
        · simp only [hsum, false_implies, iff_true]
          exact safe_refuse _
      · have ht : tensorBytes t = .error .panic := by rw [tensorBytes_some he, if_neg hs]
        simp only [expectedBytes, ht, hs, false_and, iff_false]
        exact fun h => h rfl

/-- The element count is a machine word and stays one when it is rounded up. -/
def Rounds (t : GgufTensorInfo) : Prop :=
  ∃ ne, elements t.dims = some ne ∧ ne+t.tensorType.slack < 2^64

theorem tensorBytes_ok_iff {n : ℕ} : tensorBytes t = .ok n ↔ Rounds t ∧ n = declaredBytes t := by
  cases he : elements t.dims with
  | none =>
    rw [tensorBytes_none he]
    constructor
    · intro h
      cases h
    · rintro ⟨⟨ne, h, -⟩, -⟩
      rw [he] at h
      cases h
  | some ne =>
    rw [tensorBytes_some he]
    constructor
    · intro h
      split at h
      · exact ⟨⟨ne, he, by assumption⟩, (Except.ok.inj h).symm⟩
      · cases h
    · rintro ⟨⟨ne', h, hs⟩, rfl⟩
      obtain rfl : ne = ne' := Option.some.inj (he.symm.trans h)
      rw [if_pos hs]

theorem expectedBytes_ok_iff {sum : ℕ} (hsum : sum < 2^64) (l : List GgufTensorInfo) (total : ℕ) :
    expectedBytes sum l = .ok total ↔
      (∀ t ∈ l, Rounds t) ∧ total = sum+(l.map declaredBytes).sum ∧ total < 2^64 := by
  induction l generalizing sum with
  | nil =>
    simp only [expectedBytes, Except.ok.injEq, List.map_nil, List.sum_nil, Nat.add_zero]
    constructor
    · rintro rfl
      exact ⟨fun t ht => absurd ht List.not_mem_nil, rfl, hsum⟩
    · rintro ⟨-, rfl, -⟩
      rfl
  | cons t rest ih =>
    rw [expectedBytes, bind_ok, List.forall_mem_cons, List.map_cons, List.sum_cons]
    constructor
    · rintro ⟨n, hn, h⟩
      obtain ⟨hr, rfl⟩ := tensorBytes_ok_iff.mp hn
      split at h
      next hnext =>
        obtain ⟨h1, h2, h3⟩ := (ih hnext).mp h
        exact ⟨⟨hr, h1⟩, by omega, h3⟩
      · cases h
    · rintro ⟨⟨hr, h1⟩, h2, h3⟩
      have hnext : sum+declaredBytes t < 2^64 := by omega
      refine ⟨declaredBytes t, tensorBytes_ok_iff.mpr ⟨hr, rfl⟩, ?_⟩
      rw [if_pos hnext]
      exact (ih hnext).mpr ⟨h1, by omega, h3⟩

section Payload

variable {fmt : FloatFormat} {data : Bytes}

def Opens (data : Bytes) (offset : ℕ) : Prop :=
  offset+31 < 2^64 ∧ alignUp 32 offset ≤ data.length

def room (data : Bytes) (offset : ℕ) : ℕ := data.length-alignUp 32 offset

theorem readPayload_opens {offset : ℕ} (h : Opens data offset) (tensors : List GgufTensorInfo) :
    readPayload data tensors offset = (do
      let expected ← expectedBytes 0 tensors
      if room data offset < expected then .error (.refused .tensorDataTruncated)
      else .ok (alignUp 32 offset, slice data (alignUp 32 offset) (room data offset))) := by
  have hminus : (minus data.length (alignUp 32 offset) : Except (Stop GgufError) ℕ) =
      .ok (room data offset) := if_pos h.2
  rw [readPayload, if_pos h.1, if_neg (by have := h.2; omega)]
  simp only [hminus, ok_bind, sub_eq h.2 (Nat.le_refl _)]
  rfl

theorem readPayload_closed {offset : ℕ} (h : ¬Opens data offset) (tensors : List GgufTensorInfo) :
    ∃ e, readPayload data tensors offset = .error (.refused e) := by
  by_cases h1 : offset+31 < 2^64
  · have h2 : alignUp 32 offset > data.length := by
      by_contra h2
      exact h ⟨h1, by omega⟩
    exact ⟨.noTensorData, by rw [readPayload, if_pos h1, if_pos h2]⟩
  · exact ⟨.offsetOverflow, by rw [readPayload, if_neg h1]⟩

theorem readPayload_safe_iff (tensors : List GgufTensorInfo) (offset : ℕ) :
    Safe (readPayload data tensors offset) ↔ (Opens data offset → Countable 0 tensors) := by
  by_cases h : Opens data offset
  · rw [readPayload_opens h, ← expectedBytes_safe_iff]
    constructor
    · intro hs _ he
      exact hs (by rw [he]; rfl)
    · intro hs
      refine safe_bind (hs h) fun expected _ => ?_
      exact safe_ite (fun _ => safe_refuse _) fun _ => safe_ok _
  · obtain ⟨e, he⟩ := readPayload_closed h tensors
    rw [he]
    exact ⟨fun _ h' => absurd h' h, fun _ => safe_refuse e⟩

def Fit (data : Bytes) (tensors : List GgufTensorInfo) (offset : ℕ) : Prop :=
  (∀ t ∈ tensors, Rounds t) ∧ (tensors.map declaredBytes).sum < 2^64 ∧
    (tensors.map declaredBytes).sum ≤ room data offset

theorem readPayload_ok_iff {tensors : List GgufTensorInfo} {offset : ℕ} {p : ℕ × Bytes} :
    readPayload data tensors offset = .ok p ↔
      Opens data offset ∧ Fit data tensors offset ∧
        p = (alignUp 32 offset, slice data (alignUp 32 offset) (room data offset)) := by
  by_cases h : Opens data offset
  · rw [readPayload_opens h, bind_ok]
    constructor
    · rintro ⟨expected, he, hp⟩
      obtain ⟨h1, rfl, h3⟩ := (expectedBytes_ok_iff (by norm_num) tensors expected).mp he
      rw [Nat.zero_add] at h3 hp
      split at hp
      · cases hp
      · exact ⟨h, ⟨h1, h3, by omega⟩, (Except.ok.inj hp).symm⟩
    · rintro ⟨-, ⟨h1, h2, h3⟩, rfl⟩
      refine ⟨_, (expectedBytes_ok_iff (by norm_num) tensors _).mpr ⟨h1, rfl, by omega⟩, ?_⟩
      rw [if_neg (by omega)]
  · obtain ⟨e, he⟩ := readPayload_closed h tensors
    rw [he]
    constructor
    · intro h'
      cases h'
    · exact fun h' => absurd h'.1 h

theorem loadGguf_eq (h : 24 ≤ data.length) : loadGguf fmt data = (do
    let p ← (readTable fmt data).run 0
    let q ← readPayload data p.1.2.2 p.2
    .ok ⟨p.1.1, p.1.2.1, p.1.2.2, q.1, q.2⟩) := by
  rw [loadGguf, if_neg (by omega)]
  rfl

theorem loadGguf_safe_iff : Safe (loadGguf fmt data) ↔
    ∀ tensors offset, Declares fmt data tensors offset → Opens data offset →
      Countable 0 tensors := by
  by_cases h24 : 24 ≤ data.length
  · rw [loadGguf_eq h24]
    constructor
    · rintro hs tensors offset ⟨-, header, metadata, htable⟩
      rw [exact_readTable.ok_iff.mpr htable] at hs
      rw [← readPayload_safe_iff]
      intro hp
      simp only [ok_bind, hp] at hs
      exact hs rfl
    · intro h
      refine safe_bind (exact_readTable.safe 0) fun p hp => ?_
      refine safe_bind ((readPayload_safe_iff _ _).mpr ?_) fun q _ => safe_ok _
      exact h _ _ ⟨h24, p.1.1, p.1.2.1, exact_readTable.ok_iff.mp hp⟩
  · rw [loadGguf, if_pos (by omega)]
    exact ⟨fun _ _ _ h => absurd h.1 h24, fun _ => safe_refuse _⟩

theorem loadGguf_ok_iff (file : GgufFile) : loadGguf fmt data = .ok file ↔
    ∃ offset, 24 ≤ data.length ∧
      TableAt fmt data 0 (file.header, file.metadata, file.tensors) offset ∧
      Opens data offset ∧ Fit data file.tensors offset ∧ file.dataStart = alignUp 32 offset ∧
      file.data = slice data (alignUp 32 offset) (room data offset) := by
  by_cases h24 : 24 ≤ data.length
  · rw [loadGguf_eq h24, bind_ok]
    constructor
    · rintro ⟨p, hp, hload⟩
      obtain ⟨q, hq, hfile⟩ := bind_ok.mp hload
      obtain ⟨ho, hfit, rfl⟩ := (readPayload_ok_iff).mp hq
      cases hfile
      exact ⟨p.2, h24, exact_readTable.ok_iff.mp hp, ho, hfit, rfl, rfl⟩
    · rintro ⟨offset, -, htable, ho, hfit, hstart, hdata⟩
      refine ⟨_, exact_readTable.ok_iff.mpr htable, bind_ok.mpr ?_⟩
      refine ⟨_, (readPayload_ok_iff).mpr ⟨ho, hfit, rfl⟩, ?_⟩
      rw [← hdata, ← hstart]
  · rw [loadGguf, if_pos (by omega)]
    constructor
    · intro h
      cases h
    · rintro ⟨_, h, -⟩
      exact absurd h h24

end Payload

def InData (file : GgufFile) (t : GgufTensorInfo) : Prop :=
  ∃ n, tensorBytes t = .ok n ∧ t.offset+n ≤ file.data.length

/-- Loading is fail-closed for a file exactly when rounding up the element
counts in its table does not overflow and, if the sizes fit, every tensor of
a known type is placed inside the data section. -/
theorem loadGguf_failClosed_iff (fmt : FloatFormat) (data : Bytes) :
    (Safe (loadGguf fmt data) ∧ ∀ file, loadGguf fmt data = .ok file →
      ∀ t ∈ file.tensors, t.tensorType.Known → InData file t) ↔
    ∀ tensors offset, Declares fmt data tensors offset → Opens data offset →
      Countable 0 tensors ∧ (Fit data tensors offset →
        ∀ t ∈ tensors, t.tensorType.Known → t.offset+declaredBytes t ≤ room data offset) := by
  have hroom : ∀ offset, Opens data offset →
      (slice data (alignUp 32 offset) (room data offset)).length = room data offset := by
    intro offset ho
    have := ho.2
    exact slice_length _ _ _ (by unfold room; omega)
  rw [loadGguf_safe_iff]
  constructor
  · rintro ⟨hsafe, hfile⟩ tensors offset hd ho
    refine ⟨hsafe tensors offset hd ho, fun hfit t ht hk => ?_⟩
    obtain ⟨h24, header, metadata, htable⟩ := hd
    obtain ⟨n, hn, hle⟩ := hfile ⟨header, metadata, tensors, alignUp 32 offset,
      slice data (alignUp 32 offset) (room data offset)⟩
      ((loadGguf_ok_iff _).mpr ⟨offset, h24, htable, ho, hfit, rfl, rfl⟩) t ht hk
    obtain ⟨-, rfl⟩ := tensorBytes_ok_iff.mp hn
    exact hle.trans_eq (hroom offset ho)
  · intro h
    refine ⟨fun tensors offset hd ho => (h tensors offset hd ho).1, ?_⟩
    intro file hload t ht hk
    obtain ⟨offset, h24, htable, ho, hfit, hstart, hdata⟩ := (loadGguf_ok_iff file).mp hload
    have hin := (h file.tensors offset ⟨h24, _, _, htable⟩ ho).2 hfit t ht hk
    refine ⟨declaredBytes t, tensorBytes_ok_iff.mpr ⟨hfit.1 t ht, rfl⟩, ?_⟩
    rw [hdata, hroom offset ho]
    exact hin

def oneTensor (dim ty offset : ℕ) (payload : Bytes) : Bytes :=
  toLe 4 magicNumber ++ toLe 4 versionNumber ++ toLe 8 1 ++ toLe 8 0 ++ toLe 8 0 ++ toLe 4 1 ++
    toLe 8 dim ++ toLe 4 ty ++ toLe 8 offset ++ zeros 8 ++ payload

def plainFormat : FloatFormat := ⟨fun _ => "", fun _ => ""⟩

/-- A tensor of 4 bytes at offset 1000 of a 4-byte data section is accepted,
and an element count near the largest word makes the rounding overflow. -/
theorem misplaced_tensor :
    (∃ file, loadGguf plainFormat (oneTensor 1 0 1000 (zeros 4)) = .ok file ∧
      ∃ t ∈ file.tensors, t.tensorType.Known ∧ ¬InData file t) ∧
    loadGguf plainFormat (oneTensor (2^64-1) 2 0 []) = .error .panic := by
  refine ⟨⟨_, rfl, _, List.mem_cons_self, trivial, ?_⟩, rfl⟩
  rintro ⟨n, hn, hle⟩
  have h4 : n = 4 := (Except.ok.inj hn).symm
  rw [h4] at hle
  exact absurd hle (by decide)

end NeuralOs.Gguf
