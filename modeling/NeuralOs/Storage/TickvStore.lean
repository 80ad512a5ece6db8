import NeuralOs.Lib.ByteString
import NeuralOs.Lib.MeasuredLoop

/-!
# The store and its operations

Records, flash and the mounted store. Every operation returns its result with the
world it leaves, since an error in the middle keeps what was done before it.
`compact` writes through `put_batch`, whose flush may ask for a compaction again;
the operations below it take that nested compaction as a parameter, and
`compact_fixpoint` shows that which one is passed makes no difference.
-/

set_option autoImplicit false

namespace NeuralOs.TickvRecord
open ByteString

/-- The error messages of `tickv.rs` and `flash.rs` that these modules return. -/
inductive TickvError where
  | notMounted | oob | missing | corrupt
  | ckptScanTimeout | noCkpt | ckptShort | badCkptMagic | ckptTrunc | ckptKey | ckptFnv | ckptStale
  deriving DecidableEq, Repr

abbrev Result := Except TickvError

instance decEqExcept {ε α : Type} [DecidableEq ε] [DecidableEq α] : DecidableEq (Except ε α)
  | .ok a, .ok b => decidable_of_iff (a = b) ⟨congrArg _, Except.ok.inj⟩
  | .error a, .error b => decidable_of_iff (a = b) ⟨congrArg _, Except.error.inj⟩
  | .ok _, .error _ => .isFalse fun h => by cases h
  | .error _, .ok _ => .isFalse fun h => by cases h

/-- Pending continuation bytes and the range the next one must lie in. -/
def utf8Step : Option (ℕ × UInt8 × UInt8) → UInt8 → Option (ℕ × UInt8 × UInt8)
  | none, _ => none
  | some (0, _, _), b =>
    if b < 0x80 then some (0, 0x80, 0xBF)
    else if 0xC2 ≤ b ∧ b ≤ 0xDF then some (1, 0x80, 0xBF)
    else if b = 0xE0 then some (2, 0xA0, 0xBF)
    else if b = 0xED then some (2, 0x80, 0x9F)
    else if 0xE1 ≤ b ∧ b ≤ 0xEF then some (2, 0x80, 0xBF)
    else if b = 0xF0 then some (3, 0x90, 0xBF)
    else if 0xF1 ≤ b ∧ b ≤ 0xF3 then some (3, 0x80, 0xBF)
    else if b = 0xF4 then some (3, 0x80, 0x8F)
    else none
  | some (n+1, lo, hi), b => if lo ≤ b ∧ b ≤ hi then some (n, 0x80, 0xBF) else none

/-- Well-formed UTF-8, the condition under which `core::str::from_utf8` succeeds. -/
def utf8Valid (b : Bytes) : Bool :=
  match b.foldl utf8Step (some (0, 0x80, 0xBF)) with
  | some (0, _, _) => true
  | _ => false

structure Str where
  bytes : Bytes
  utf8 : utf8Valid bytes = true
  short : bytes.length < 2^32
  deriving DecidableEq

def Str.fromUtf8 (b : Bytes) : Option Str :=
  if h : utf8Valid b = true ∧ b.length < 2^32 then some ⟨b, h.1, h.2⟩ else none

theorem fromUtf8_bytes (k : Str) : Str.fromUtf8 k.bytes = some k := by
  rw [Str.fromUtf8, dif_pos ⟨k.utf8, k.short⟩]

theorem fromUtf8_some {b : Bytes} {k : Str} (h : Str.fromUtf8 b = some k) : k.bytes = b := by
  rw [Str.fromUtf8] at h
  split at h
  · cases h; rfl
  · cases h

theorem str_ext {k l : Str} (h : k.bytes = l.bytes) : k = l := by
  cases k; cases l; cases h; rfl

instance : Ord Str := ⟨fun k l => compare k.bytes l.bytes⟩

instance : Std.TransOrd Str where
  eq_swap := fun {a b} =>
    @Std.OrientedCmp.eq_swap _ (compare : Bytes → Bytes → Ordering) _ a.bytes b.bytes
  isLE_trans := fun {a b c} =>
    @Std.TransCmp.isLE_trans _ (compare : Bytes → Bytes → Ordering) _ a.bytes b.bytes c.bytes

instance : Std.LawfulEqOrd Str where
  compare_self := fun {a} =>
    @Std.ReflCmp.compare_self _ (compare : Bytes → Bytes → Ordering) _ a.bytes
  eq_of_compare := fun {a b} h =>
    str_ext (@Std.LawfulEqCmp.eq_of_compare _ (compare : Bytes → Bytes → Ordering) _
      a.bytes b.bytes h)

abbrev StrMap (V : Type) := Std.ExtTreeMap Str V compare

theorem compare_str_iff (k l : Str) : compare k l = .eq ↔ l = k := by
  constructor
  · intro h
    exact (Std.LawfulEqCmp.eq_of_compare h).symm
  · rintro rfl
    exact Std.ReflCmp.compare_self

section Maps
variable {V : Type} (m : StrMap V)

theorem get_insert (k l : Str) (v : V) : (m.insert k v)[l]? = if l = k then some v else m[l]? := by
  simp only [Std.ExtTreeMap.getElem?_insert, compare_str_iff]

theorem get_erase (k l : Str) : (m.erase k)[l]? = if l = k then none else m[l]? := by
  simp only [Std.ExtTreeMap.getElem?_erase, compare_str_iff]

theorem erase_absent (k : Str) (h : m[k]? = none) : m.erase k = m := by
  apply Std.ExtTreeMap.ext_getElem?
  intro l
  rw [get_erase]
  split
  · next hl => rw [hl, h]
  · rfl

end Maps

def magic : Bytes := [0x54, 0x4B, 0x4C, 0x56]

def magicHead : Bytes := [0x54, 0x4B, 0x4C]

def header : ℕ := 16
def maxKlen : ℕ := 4096
def maxVlen : ℕ := 2*1024*1024

def ckptKey : Str where
  bytes := [115, 121, 115, 47, 116, 105, 99, 107, 118, 95, 99, 107, 112, 116]
  utf8 := by decide
  short := by decide

def gcLockKey : Str where
  bytes := [95, 95, 103, 99, 95, 108, 111, 99, 107]
  utf8 := by decide
  short := by decide

def keyA : Str := ⟨[97], by decide, by decide⟩

def keyB : Str := ⟨[98], by decide, by decide⟩

def hdrValid (hdr : Bytes) : Bool :=
  decide (4 ≤ hdr.length) && hdr.take 3 == magicHead &&
    (hdr.getD 3 0 == 0x56 || hdr.getD 3 0 == 1)

def hdrInvalidated (hdr : Bytes) : Bool :=
  decide (4 ≤ hdr.length) && hdr.take 3 == magicHead && hdr.getD 3 0 == 0

def hdrTickvShaped (hdr : Bytes) : Bool := hdrValid hdr || hdrInvalidated hdr

/-- `hdr.iter().all(|&b| b == 0 || b == 0xFF)`: the end of the log. -/
def hdrBlank (hdr : Bytes) : Bool := hdr.all (fun b => b == 0 || b == 0xFF)

def hdrKlen (hdr : Bytes) : ℕ := fromLe (slice hdr 4 4)
def hdrVlen (hdr : Bytes) : ℕ := fromLe (slice hdr 8 4)
def hdrCrc (hdr : Bytes) : ℕ := fromLe (slice hdr 12 4)

def crcBit (crc : UInt32) : UInt32 :=
  (crc >>> 1) ^^^ (if crc &&& 1 != 0 then 0xEDB88320 else 0)

def crcByte (crc : UInt32) (b : UInt8) : UInt32 :=
  crcBit (crcBit (crcBit (crcBit (crcBit (crcBit (crcBit (crcBit (crc ^^^ b.toUInt32))))))))

/-- CRC32 IEEE over key and value only. -/
def crc32 (data : Bytes) : UInt32 := ~~~ (data.foldl crcByte 0xFFFFFFFF)

def recordSize (klen vlen : ℕ) : ℕ := alignUp 512 (header+alignUp 16 (klen+vlen))

def nextSector (off : ℕ) : ℕ := (off+512)/512*512

def oversized (klen vlen : ℕ) : Bool := decide (maxKlen < klen) || decide (maxVlen < vlen)

def advanceOversized (off klen vlen size : ℕ) : ℕ :=
  let big := recordSize klen vlen
  if 512 ≤ big ∧ off+big ≤ size then off+big else nextSector off

def encodeRecord (key val : Bytes) : Bytes :=
  magic ++ toLe 4 key.length ++ toLe 4 val.length ++ toLe 4 (crc32 (key ++ val)).toNat ++
    (key ++ val) ++ zeros (recordSize key.length val.length-header-(key.length+val.length))

theorem recordSize_ge (klen vlen : ℕ) : header+(klen+vlen) ≤ recordSize klen vlen := by
  have h16 := alignUp_ge 16 (klen+vlen) (by decide)
  have h512 := alignUp_ge 512 (header+alignUp 16 (klen+vlen)) (by decide)
  unfold recordSize
  omega

theorem recordSize_dvd (klen vlen : ℕ) : 512 ∣ recordSize klen vlen := alignUp_dvd _ _

theorem recordSize_sector (klen vlen : ℕ) : 512 ≤ recordSize klen vlen := by
  have hp : 0 < recordSize klen vlen := by
    have := recordSize_ge klen vlen
    unfold header at this
    omega
  exact Nat.le_of_dvd hp (recordSize_dvd klen vlen)

theorem oversized_false_iff {klen vlen : ℕ} :
    oversized klen vlen = false ↔ klen ≤ maxKlen ∧ vlen ≤ maxVlen := by
  rw [oversized, Bool.or_eq_false_iff, decide_eq_false_iff_not, decide_eq_false_iff_not,
    not_lt, not_lt]

theorem nextSector_gt (off : ℕ) : off < nextSector off := by
  unfold nextSector
  omega

theorem advanceOversized_gt (off klen vlen size : ℕ) :
    off < advanceOversized off klen vlen size := by
  have hn := nextSector_gt off
  simp only [advanceOversized]
  split_ifs <;> omega

theorem encodeRecord_length (key val : Bytes) :
    (encodeRecord key val).length = recordSize key.length val.length := by
  have h := recordSize_ge key.length val.length
  simp [encodeRecord, magic, header] at *
  omega

/-- The golden record of the interoperability tests. -/
example : (encodeRecord [107] [118]).length = 512 ∧ recordSize 1000 0 = 1024 ∧
    recordSize 1000 1000 = 2048 := by decide +kernel

end NeuralOs.TickvRecord

/-! ## Flash, store and world -/

namespace NeuralOs.TickvState
open ByteString TickvRecord

structure RamFlash where
  data : Bytes
  bounded : data.length < 2^63

namespace RamFlash

def size (f : RamFlash) : ℕ := f.data.length

def new (n : ℕ) (h : n < 2^63) : RamFlash := ⟨zeros n, by simpa using h⟩

def read (f : RamFlash) (off n : ℕ) : Result Bytes :=
  if off+n > f.data.length then .error .oob else .ok (slice f.data off n)

def write (f : RamFlash) (off : ℕ) (d : Bytes) : Result RamFlash :=
  if h : off+d.length ≤ f.data.length then
    .ok ⟨patch f.data off d, by rw [patch_length h]; exact f.bounded⟩
  else .error .oob

def erase (f : RamFlash) (off n : ℕ) : Result RamFlash :=
  f.write off (List.replicate n 0xFF)

theorem write_ok (f : RamFlash) (off : ℕ) (d : Bytes) (h : off+d.length ≤ f.size) :
    ∃ g, f.write off d = .ok g ∧ g.data = patch f.data off d ∧ g.size = f.size :=
  ⟨_, dif_pos h, rfl, patch_length h⟩

theorem write_oob (f : RamFlash) (off : ℕ) (d : Bytes) (h : f.size < off+d.length) :
    f.write off d = .error .oob := dif_neg (by unfold size at h; omega)

end RamFlash

inductive Backend where
  | none | ram | nvme | file
  deriving DecidableEq, Repr

/-- Back ends on which a rewrite of the log is too slow to run unasked. -/
def Backend.slow (b : Backend) : Bool := b == .file || b == .nvme

def satAdd (a b : ℕ) : ℕ := min (a+b) (2^64-1)

structure TickvStats where
  liveBytes : ℕ
  deadBytes : ℕ
  corruptRecords : ℕ
  compactions : ℕ
  puts : ℕ
  gets : ℕ
  deriving DecidableEq, Repr

abbrev Index := StrMap ℕ

structure TickvLite where
  index : Index
  appendOff : ℕ
  ready : Bool
  degraded : Bool
  backend : Backend
  hwLatched : Bool
  ckptDirty : Bool
  stats : TickvStats

def TickvLite.new : TickvLite where
  index := ∅
  appendOff := 0
  ready := false
  degraded := false
  backend := .none
  hwLatched := false
  ckptDirty := false
  stats := ⟨0, 0, 0, 0, 0, 0⟩

def highWater : ℕ := 256*1024

namespace TickvLite

def addLive (kv : TickvLite) (n : ℕ) : TickvLite :=
  { kv with stats := { kv.stats with liveBytes := satAdd kv.stats.liveBytes n } }

def addDead (kv : TickvLite) (n : ℕ) : TickvLite :=
  { kv with stats := { kv.stats with deadBytes := satAdd kv.stats.deadBytes n } }

def countCorrupt (kv : TickvLite) : TickvLite :=
  { kv with stats := { kv.stats with corruptRecords := satAdd kv.stats.corruptRecords 1 } }

/-- `index.insert(key, off)`, charging the record to dead or live bytes. -/
def enter (kv : TickvLite) (key : Str) (off total : ℕ) : TickvLite :=
  let kv' := if kv.index[key]?.isSome then kv.addDead total else kv.addLive total
  { kv' with index := kv.index.insert key off }

def recomputeLiveEstimate (kv : TickvLite) : TickvLite :=
  { kv with stats := { kv.stats with
      liveBytes := kv.index.toList.foldl (fun live _ => satAdd live 512) 0 } }

/-- `gc_due`; both constants of the dead-to-live ratio are 1. -/
def gcDue (kv : TickvLite) : Bool :=
  decide (highWater < kv.appendOff) ||
    (decide (0 < kv.stats.liveBytes) && decide (kv.stats.liveBytes < kv.stats.deadBytes))

end TickvLite

inductive Event where
  | wrote (off : ℕ) (data : Bytes)
  | erased (off n : ℕ)
  | refused
  | compactStart (flash : RamFlash) (kv : TickvLite)

def Event.isRefused : Event → Bool
  | .refused => true
  | _ => false

def Event.isCompactStart : Event → Bool
  | .compactStart _ _ => true
  | _ => false

theorem refused_notMem_iff (es : List Event) :
    Event.refused ∉ es ↔ es.any Event.isRefused = false := by
  induction es with
  | nil => simp
  | cons e es ih => cases e <;> simp_all [Event.isRefused]

structure World where
  flash : RamFlash
  kv : TickvLite
  compacting : Bool
  gcSuspended : Bool
  compactSkipped : ℕ
  compactSkippedTotal : ℕ
  trace : List Event

namespace World

def boot (f : RamFlash) : World where
  flash := f
  kv := .new
  compacting := false
  gcSuspended := false
  compactSkipped := 0
  compactSkippedTotal := 0
  trace := []

def log (w : World) (e : Event) : World := { w with trace := w.trace ++ [e] }

def setKv (w : World) (kv : TickvLite) : World := { w with kv := kv }

def write (w : World) (off : ℕ) (d : Bytes) : Result Unit × World :=
  match w.flash.write off d with
  | .ok f => (.ok (), { w with flash := f }.log (.wrote off d))
  | .error e => (.error e, w.log .refused)

/-- The result of an erase is ignored by its only caller. -/
def erase (w : World) (off n : ℕ) : World :=
  match w.flash.erase off n with
  | .ok f => { w with flash := f }.log (.erased off n)
  | .error _ => w

def gcAllowed (w : World) : Bool := !w.kv.backend.slow && !w.gcSuspended

end World

end NeuralOs.TickvState

/-! ## Operations of the mounted store -/

namespace NeuralOs.TickvStore
open ByteString MeasuredLoop TickvRecord TickvState

def putRaw (w : World) (key : Str) (val : Bytes) : Result Unit × World :=
  let record := encodeRecord key.bytes val
  let total := record.length
  let off := w.kv.appendOff
  match w.write off record with
  | (.error e, w) => (.error e, w)
  | (.ok _, w) =>
    let kv := w.kv.enter key off total
    (.ok (), w.setKv { kv with
      appendOff := off+total
      stats := { kv.stats with puts := satAdd kv.stats.puts 1 }
      ckptDirty := kv.ckptDirty || decide (key ≠ ckptKey) })

/-- Mark the record invalid on flash (`magic[3] = 0`) and drop it from the index. -/
def invalidateKey (w : World) (key : Str) : Result Unit × World :=
  if !w.kv.ready then (.error .notMounted, w)
  else match w.kv.index[key]? with
    | none => (.error .missing, w)
    | some off =>
      match w.write (off+3) [0] with
      | (.error e, w) => (.error e, w)
      | (.ok _, w) =>
        (.ok (), w.setKv { w.kv.addDead 512 with index := w.kv.index.erase key })

/-- The reads of `get`, after the index lookup: the key at the offset is not compared. -/
def readRecord (f : RamFlash) (off : ℕ) : Result Bytes :=
  match f.read off header with
  | .error e => .error e
  | .ok hdr =>
    if !hdrValid hdr then .error .missing
    else match f.read (off+header) (hdrKlen hdr+hdrVlen hdr) with
      | .error e => .error e
      | .ok body =>
        if (crc32 body).toNat ≠ hdrCrc hdr then .error .corrupt
        else .ok (body.drop (hdrKlen hdr))

def view (w : World) (key : Str) : Result Bytes :=
  if !w.kv.ready then .error .notMounted
  else match w.kv.index[key]? with
    | none => .error .missing
    | some off => readRecord w.flash off

def countGet (w : World) : World :=
  if !w.kv.ready then w
  else w.setKv { w.kv with stats := { w.kv.stats with gets := satAdd w.kv.stats.gets 1 } }

def get (w : World) (key : Str) : Result Bytes × World := (view w key, countGet w)

def fnvByte (h : UInt64) (b : UInt8) : UInt64 := (h ^^^ b.toUInt64) * 0x100000001b3

def fnvEntries (es : List (Str × ℕ)) : UInt64 :=
  es.foldl (fun h e => (e.1.bytes ++ toLe 8 e.2).foldl fnvByte h) 0xcbf29ce484222325

def ckptMagic : Bytes := [0x54, 0x4B, 0x43, 0x4B]

def ckptEntry (e : Str × ℕ) : Bytes :=
  if e.1.bytes.length > 65535 then []
  else toLe 2 e.1.bytes.length ++ e.1.bytes ++ toLe 8 e.2

def ckptBody (index : Index) (appendOff : ℕ) : Bytes :=
  let entries := index.toList.filter (fun e => e.1 ≠ ckptKey)
  ckptMagic ++ toLe 8 appendOff ++ toLe 8 (fnvEntries entries).toNat ++ toLe 4 entries.length ++
    entries.flatMap ckptEntry

def writeCkpt (w : World) : Result Unit × World :=
  if !w.kv.ready then (.error .notMounted, w)
  else match putRaw w ckptKey (ckptBody w.kv.index w.kv.appendOff) with
    | (.ok _, w) => (.ok (), w.setKv { w.kv with ckptDirty := false })
    | (.error e, w) => (.error e, w)

section Flush
variable (nested : World → Result Unit × World)

def maybeGcWith (w : World) : Result Unit × World :=
  if w.compacting then
    (.ok (), { w with compactSkipped := w.compactSkipped+1
                      compactSkippedTotal := w.compactSkippedTotal+1 })
  else if w.gcSuspended then (.ok (), w)
  else if w.kv.backend.slow then (.ok (), w)
  else if w.kv.gcDue then nested w
  else (.ok (), w)

def flushOpportunisticWith (w : World) : Bool × World :=
  if !w.kv.ready || w.compacting then (false, w)
  else if w.kv.backend.slow then
    if !w.kv.ckptDirty then (false, w)
    else match writeCkpt w with
      | (.ok _, w) => (true, w)
      | (.error _, w) => (false, w)
  else if !w.kv.gcDue || !w.gcAllowed then (false, w)
  else
    let w' := (maybeGcWith nested w).2
    if w'.kv.stats.compactions = w.kv.stats.compactions then (false, w')
    else (true, w'.setKv { w'.kv with hwLatched := decide (highWater ≤ w'.kv.appendOff) })

def maybeHighWaterFlushWith (w : World) : World :=
  if w.kv.appendOff ≤ highWater ∨ w.kv.hwLatched then w
  else if w.compacting then (maybeGcWith nested w).2
  else if !w.gcAllowed then w.setKv { w.kv with hwLatched := true }
  else (flushOpportunisticWith nested w).2

/-- First loop of `put_batch`: every old record is invalidated before a write. -/
def invalidateAll : List (Str × Bytes) → World → World
  | [], w => w
  | (key, _)::items, w =>
    invalidateAll items
      (if key ≠ ckptKey ∧ w.kv.index.contains key then (invalidateKey w key).2 else w)

/-- Second loop of `put_batch`: contiguous appends, stopping at the first error. -/
def appendAll : List (Str × Bytes) → World → Result Unit × World
  | [], w => (.ok (), w)
  | (key, val)::items, w =>
    match putRaw w key val with
    | (.error e, w) => (.error e, w)
    | (.ok _, w) => appendAll items w

def putBatchWith (items : List (Str × Bytes)) (w : World) : Result Unit × World :=
  if !w.kv.ready then (.error .notMounted, w)
  else match appendAll items (invalidateAll items w) with
    | (.error e, w) => (.error e, w)
    | (.ok _, w) =>
      (.ok (), if items.any (fun i => i.1 ≠ gcLockKey) then maybeHighWaterFlushWith nested w else w)

def collectLive : List Str → World → List (Str × Bytes) × World
  | [], w => ([], w)
  | key::keys, w =>
    let (v, w) := get w key
    let (live, w) := collectLive keys w
    match v with
    | .ok v => (if v.isEmpty then live else (key, v)::live, w)
    | .error _ => (live, w)

end Flush

/-- The zeroing loop of `compact`: at most 4096 bytes a turn, erase then write. -/
def wipeLoop (wipe : ℕ) : Loop (ℕ × World) (Result Unit × World) where
  step s :=
    if s.1 < wipe then
      let n512 := alignUp 512 (min 4096 (wipe-s.1))
      match (s.2.erase s.1 n512).write s.1 (zeros n512) with
      | (.error e, w) => .inr (.error e, w)
      | (.ok _, w) => .inl (s.1+n512, w)
    else .inr (.ok (), s.2)
  measure s := wipe-s.1
  decreases := by
    intro s t h
    have hp : s.1 < wipe → 0 < alignUp 512 (min 4096 (wipe-s.1)) :=
      fun hs => alignUp_pos 512 _ (by decide) (by omega)
    simp only at h
    split at h
    · next hs =>
      split at h
      · cases h
      · cases h
        have := hp hs
        simp only
        omega
    · cases h

def wipeLen (appendOff : ℕ) : ℕ := max (alignUp 512 appendOff) 512

def cleared (w : World) : World where
  flash := w.flash
  kv := { w.kv with
    index := ∅
    appendOff := 0
    stats := { w.kv.stats with deadBytes := 0, liveBytes := 0 } }
  compacting := true
  gcSuspended := w.gcSuspended
  compactSkipped := w.compactSkipped
  compactSkippedTotal := w.compactSkippedTotal
  trace := w.trace

/-- The second half of `compact`: the live set as one batch and then a
checkpoint, both under the `compacting` flag. -/
def rewriteLive (nested : World → Result Unit × World) (live : List (Str × Bytes)) (w : World) :
    Result Unit × World :=
  match putBatchWith nested live (cleared w) with
  | (.error e, w) => (.error e, { w with compacting := false })
  | (.ok _, w) =>
    match writeCkpt w with
    | (.error e, w) => (.error e, { w with compacting := false })
    | (.ok _, w) =>
      (.ok (), { w with compacting := false, compactSkipped := 0 }.setKv
        { w.kv with stats := { w.kv.stats with compactions := satAdd w.kv.stats.compactions 1 } })

def compactWith (nested : World → Result Unit × World) (w : World) : Result Unit × World :=
  if !w.kv.ready then (.error .notMounted, w)
  else
    let w := w.log (.compactStart w.flash w.kv)
    let (live, w) := collectLive w.kv.index.keys w
    match (wipeLoop (wipeLen w.kv.appendOff)).exec (0, w) with
    | (.error e, w) => (.error e, w)
    | (.ok _, w) => rewriteLive nested live w

theorem maybeHighWaterFlush_guarded (f g : World → Result Unit × World) (w : World)
    (h : w.compacting = true) :
    maybeHighWaterFlushWith f w = maybeHighWaterFlushWith g w := by
  simp [maybeHighWaterFlushWith, maybeGcWith, h]

def compact (w : World) : Result Unit × World := compactWith (fun w => (.ok (), w)) w

def maybeGc (w : World) : Result Unit × World := maybeGcWith compact w

def flushOpportunistic (w : World) : Bool × World := flushOpportunisticWith compact w

def maybeHighWaterFlush (w : World) : World := maybeHighWaterFlushWith compact w

def putBatch (w : World) (items : List (Str × Bytes)) : Result Unit × World :=
  putBatchWith compact items w

def put (w : World) (key : Str) (val : Bytes) : Result Unit × World :=
  if !w.kv.ready then (.error .notMounted, w)
  else
    let w := if key ≠ ckptKey ∧ w.kv.index.contains key then (invalidateKey w key).2 else w
    match putRaw w key val with
    | (.error e, w) => (.error e, w)
    | (.ok _, w) => (.ok (), if key ≠ gcLockKey then maybeHighWaterFlush w else w)

def delete (w : World) (key : Str) : Result Unit × World :=
  match invalidateKey w key with
  | (.ok _, w) => (.ok (), w)
  | (.error _, w) =>
    match put w key [] with
    | (.error e, w) => (.error e, w)
    | (.ok _, w) => (.ok (), w.setKv { w.kv with index := w.kv.index.erase key })

end NeuralOs.TickvStore
