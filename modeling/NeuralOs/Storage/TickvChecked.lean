import NeuralOs.Lib.Checked
import NeuralOs.Storage.TickvMount

/-!
# Mount with every check of the machine

The functions of a mount again, under the same names, with the additions on `u64`
and `usize`, the slices and the conversions that can panic made explicit. Each
function is shown to compute what the unchecked one computes wherever its offsets
fit a machine word, and to panic where they do not.
-/

set_option autoImplicit false

namespace NeuralOs.TickvChecked
open ByteString MeasuredLoop Checked CheckedLoop TickvRecord TickvState TickvStore
open TickvMount (RangeScan CkptScan applyRecord expired ticked)

def read (f : RamFlash) (off n : ℕ) : Run (Result Bytes) := do
  let e ← plus off n
  if e > f.data.length then return .error .oob
  let b ← sub f.data off e
  return .ok b

def field (hdr : Bytes) (i : ℕ) : Run ℕ := do
  let b ← sub hdr i (i+4)
  return fromLe b

def recTotal (klen vlen : ℕ) : Run ℕ := do
  let body ← plus klen vlen
  let b ← plus body 15
  let r ← plus header (b/16*16)
  let t ← plus r 511
  return t/512*512

def nextSector (off : ℕ) : Run ℕ := do
  let e ← plus off 512
  return e/512*512

def advanceOversized (off klen vlen size : ℕ) : Run ℕ := do
  let big ← recTotal klen vlen
  if 512 ≤ big ∧ satAdd off big ≤ size then plus off big else nextSector off

/-- The turn of `scan_range` once the header is read. -/
def scanRecord (f : RamFlash) (s : RangeScan) (hdr : Bytes) :
    Run (RangeScan ⊕ (Result Unit × RangeScan)) := do
  if !hdrTickvShaped hdr then
    if hdrBlank hdr then return .inr (.ok (), s)
    let n ← nextSector s.off
    return .inl { s with off := n, kv := s.kv.countCorrupt }
  let klen ← field hdr 4
  let vlen ← field hdr 8
  let want ← field hdr 12
  if oversized klen vlen then
    let n ← advanceOversized s.off klen vlen f.size
    return .inl { s with off := n, kv := s.kv.countCorrupt }
  let bodyLen ← plus klen vlen
  let total ← recTotal klen vlen
  let e ← plus s.off total
  if e > f.size then return .inr (.ok (), s)
  if hdrInvalidated hdr then return .inl { s with off := e, kv := s.kv.addDead total }
  let o ← plus s.off header
  match ← read f o bodyLen with
  | .error e => return .inr (.error e, s)
  | .ok body =>
    if (crc32 body).toNat ≠ want then
      let n ← nextSector s.off
      return .inl { s with off := n, kv := s.kv.countCorrupt }
    let kb ← sub body 0 klen
    match Str.fromUtf8 kb with
    | none => return .inl { s with off := e, kv := s.kv.countCorrupt }
    | some key => return .inl { s with off := e, kv := applyRecord s.kv key vlen s.off total }

def scanRangeStep (f : RamFlash) (s : RangeScan) :
    Run (RangeScan ⊕ (Result Unit × RangeScan)) := do
  let e ← plus s.off header
  if e > f.size then return .inr (.ok (), s)
  if expired s.polls then return .inr (.ok (), { s with kv := { s.kv with degraded := true } })
  match ← read f s.off header with
  | .error e => return .inr (.error e, s)
  | .ok hdr => scanRecord f { s with polls := ticked s.polls } hdr

def ckptRecord (f : RamFlash) (s : CkptScan) (hdr : Bytes) :
    Run (CkptScan ⊕ (Result Unit × CkptScan)) := do
  if !hdrTickvShaped hdr then
    if hdrBlank hdr then return .inr (.ok (), s)
    let n ← nextSector s.off
    return .inl { s with off := n }
  let klen ← field hdr 4
  let vlen ← field hdr 8
  let want ← field hdr 12
  if oversized klen vlen then
    let n ← advanceOversized s.off klen vlen f.size
    return .inl { s with off := n }
  let total ← recTotal klen vlen
  let e ← plus s.off total
  if e > f.size then return .inr (.ok (), s)
  let o ← plus s.off header
  match ← read f o klen with
  | .error e => return .inr (.error e, s)
  | .ok keybuf =>
    if Str.fromUtf8 keybuf = some ckptKey ∧ 24 ≤ vlen then
      let ov ← plus o klen
      match ← read f ov vlen with
      | .error e => return .inr (.error e, s)
      | .ok val =>
        if (crc32 (keybuf ++ val)).toNat = want then
          return .inl { s with off := e, found := some val }
        return .inl { s with off := e }
    return .inl { s with off := e }

def ckptScanStep (f : RamFlash) (s : CkptScan) : Run (CkptScan ⊕ (Result Unit × CkptScan)) := do
  let e ← plus s.off header
  if e > f.size then return .inr (.ok (), s)
  if expired s.polls then return .inr (.error .ckptScanTimeout, s)
  match ← read f s.off header with
  | .error e => return .inr (.error e, s)
  | .ok hdr => ckptRecord f { s with polls := ticked s.polls } hdr

/-! ## The pieces without panics -/

section
variable {f : RamFlash}

theorem read_eq {off n : ℕ} (h : off+n < 2^64) : read f off n = .ok (f.read off n) := by
  rw [read, plus_eq h, ok_bind, RamFlash.read]
  split
  · rfl
  · next hle => rw [sub_eq (Nat.le_add_right _ _) (not_lt.mp hle), Nat.add_sub_cancel_left]; rfl

theorem read_panics {off n : ℕ} (h : 2^64 ≤ off+n) : read f off n = .error .panic := by
  rw [read, plus_panics h]
  rfl

theorem field_eq {hdr : Bytes} {i : ℕ} (h : i+4 ≤ hdr.length) :
    field hdr i = .ok (fromLe (slice hdr i 4)) := by
  rw [field, sub_eq (Nat.le_add_right _ _) h, Nat.add_sub_cancel_left]
  rfl

theorem recTotal_eq {klen vlen : ℕ} (h : klen+vlen < 2^63+2^62) :
    recTotal klen vlen = .ok (recordSize klen vlen) := by
  unfold recTotal header
  rw [plus_eq (by omega), ok_bind, plus_eq (by omega), ok_bind, plus_eq (by omega), ok_bind,
    plus_eq (by omega)]
  rfl

theorem nextSector_eq {off : ℕ} (h : off+512 < 2^64) :
    nextSector off = .ok (TickvRecord.nextSector off) := by
  rw [nextSector, plus_eq h]
  rfl

theorem advanceOversized_eq {off klen vlen size : ℕ} (hk : klen+vlen < 2^62) (ho : off < 2^63)
    (hs : size < 2^63) :
    advanceOversized off klen vlen size =
      .ok (TickvRecord.advanceOversized off klen vlen size) := by
  have hsat : satAdd off (recordSize klen vlen) ≤ size ↔ off+recordSize klen vlen ≤ size := by
    unfold satAdd
    omega
  rw [advanceOversized, recTotal_eq (by omega), ok_bind, TickvRecord.advanceOversized]
  simp only [hsat]
  split
  · next h => exact plus_eq (by omega)
  · exact nextSector_eq (by omega)

theorem read_length {off n : ℕ} {b : Bytes} (h : f.read off n = .ok b) : b.length = n := by
  unfold RamFlash.read at h
  split at h
  · cases h
  · next hle =>
    rw [← Except.ok.inj h]
    exact slice_length _ _ _ (not_lt.mp hle)

theorem field_lt {hdr : Bytes} {i : ℕ} (h : i+4 ≤ hdr.length) : fromLe (slice hdr i 4) < 2^32 := by
  have hlt := fromLe_lt (slice hdr i 4)
  rwa [slice_length _ _ _ h] at hlt

/-! ## The two scans -/

theorem recordSize_lt {klen vlen : ℕ} (hk : klen < 2^32) (hv : vlen < 2^32) :
    recordSize klen vlen < 2^34 := by
  unfold recordSize alignUp header
  omega

theorem scanRecord_eq (s : RangeScan) {hdr : Bytes} (hin : s.off+header ≤ f.size)
    (hr : f.read s.off header = .ok hdr) (hp : expired s.polls = false) :
    scanRecord f { s with polls := ticked s.polls } hdr = .ok (TickvMount.scanRangeStep f s) := by
  have hb : f.size < 2^63 := f.bounded
  have hlen : hdr.length = 16 := read_length hr
  have hk : hdrKlen hdr < 2^32 := field_lt (by omega)
  have hv : hdrVlen hdr < 2^32 := field_lt (by omega)
  have hsz := recordSize_lt hk hv
  have htot : recTotal (hdrKlen hdr) (hdrVlen hdr) = _ := recTotal_eq (by omega)
  have hskip : nextSector s.off = _ := nextSector_eq (by unfold header at hin; omega)
  rw [TickvMount.scanRangeStep, if_neg (not_lt.mpr hin), if_neg (by simp [hp]), hr]
  simp only [scanRecord]
  split
  · split
    · rfl
    · rw [hskip]
      rfl
  rw [field_eq (by omega), ok_bind, field_eq (by omega), ok_bind, field_eq (by omega), ok_bind,
    ← hdrKlen, ← hdrVlen, ← hdrCrc]
  split
  · rw [advanceOversized_eq (by omega) (by omega) hb]
    rfl
  rw [plus_eq (by omega), ok_bind, htot, ok_bind, plus_eq (by omega), ok_bind]
  split
  · rfl
  split
  · rfl
  rw [plus_eq (by omega), ok_bind, read_eq (by omega), ok_bind]
  cases hbody : f.read (s.off+header) (hdrKlen hdr+hdrVlen hdr) with
  | error e => rfl
  | ok body =>
    have hbl : body.length = hdrKlen hdr+hdrVlen hdr := read_length hbody
    simp only
    split
    · rw [hskip]
      rfl
    · rw [sub_eq (Nat.zero_le _) (by omega), ok_bind, Nat.sub_zero]
      have htake : slice body 0 (hdrKlen hdr) = body.take (hdrKlen hdr) := rfl
      rw [htake]
      cases Str.fromUtf8 (body.take (hdrKlen hdr)) <;> rfl

theorem scanRangeStep_eq (s : RangeScan) (h : s.off+header < 2^64) :
    scanRangeStep f s = .ok (TickvMount.scanRangeStep f s) := by
  rw [scanRangeStep, plus_eq h, ok_bind]
  by_cases hin : s.off+header ≤ f.size
  · rw [if_neg (not_lt.mpr hin)]
    cases hp : expired s.polls with
    | true =>
      rw [TickvMount.scanRangeStep, if_neg (not_lt.mpr hin), hp]
      rfl
    | false =>
      rw [if_neg Bool.false_ne_true, read_eq h, ok_bind]
      cases hr : f.read s.off header with
      | error e =>
        rw [TickvMount.scanRangeStep, if_neg (not_lt.mpr hin), hp, hr]
        rfl
      | ok hdr => exact scanRecord_eq s hin hr hp
  · rw [TickvMount.scanRangeStep, if_pos (not_le.mp hin), if_pos (not_le.mp hin)]
    rfl

theorem ckptRecord_eq (s : CkptScan) {hdr : Bytes} (hin : s.off+header ≤ f.size)
    (hr : f.read s.off header = .ok hdr) (hp : expired s.polls = false) :
    ckptRecord f { s with polls := ticked s.polls } hdr = .ok (TickvMount.ckptScanStep f s) := by
  have hb : f.size < 2^63 := f.bounded
  have hlen : hdr.length = 16 := read_length hr
  have hk : hdrKlen hdr < 2^32 := field_lt (by omega)
  have hv : hdrVlen hdr < 2^32 := field_lt (by omega)
  have hsz := recordSize_lt hk hv
  have htot : recTotal (hdrKlen hdr) (hdrVlen hdr) = _ := recTotal_eq (by omega)
  rw [TickvMount.ckptScanStep, if_neg (not_lt.mpr hin), if_neg (by simp [hp]), hr]
  simp only [ckptRecord]
  split
  · split
    · rfl
    · rw [nextSector_eq (by unfold header at hin; omega)]
      rfl
  rw [field_eq (by omega), ok_bind, field_eq (by omega), ok_bind, field_eq (by omega), ok_bind,
    ← hdrKlen, ← hdrVlen, ← hdrCrc]
  split
  · rw [advanceOversized_eq (by omega) (by omega) hb]
    rfl
  rw [htot, ok_bind, plus_eq (by omega), ok_bind]
  split
  · rfl
  rw [plus_eq (by omega), ok_bind, read_eq (by omega), ok_bind]
  cases hkey : f.read (s.off+header) (hdrKlen hdr) with
  | error e => rfl
  | ok keybuf =>
    simp only
    split
    · rw [plus_eq (by omega), ok_bind, read_eq (by omega), ok_bind]
      cases hval : f.read (s.off+header+hdrKlen hdr) (hdrVlen hdr) with
      | error e => rfl
      | ok val =>
        simp only
        split <;> rfl
    · rfl

theorem ckptScanStep_eq (s : CkptScan) (h : s.off+header < 2^64) :
    ckptScanStep f s = .ok (TickvMount.ckptScanStep f s) := by
  rw [ckptScanStep, plus_eq h, ok_bind]
  by_cases hin : s.off+header ≤ f.size
  · rw [if_neg (not_lt.mpr hin)]
    cases hp : expired s.polls with
    | true =>
      rw [TickvMount.ckptScanStep, if_neg (not_lt.mpr hin), hp]
      rfl
    | false =>
      rw [if_neg Bool.false_ne_true, read_eq h, ok_bind]
      cases hr : f.read s.off header with
      | error e =>
        rw [TickvMount.ckptScanStep, if_neg (not_lt.mpr hin), hp, hr]
        rfl
      | ok hdr => exact ckptRecord_eq s hin hr hp
  · rw [TickvMount.ckptScanStep, if_pos (not_le.mp hin), if_pos (not_le.mp hin)]
    rfl

/-! ## The loops -/

theorem scanRangeStep_decreases (s t : RangeScan) (h : scanRangeStep f s = .ok (.inl t)) :
    f.size-t.off < f.size-s.off := by
  by_cases hs : s.off+header < 2^64
  · rw [scanRangeStep_eq s hs] at h
    exact (TickvMount.scanRangeLoop f).decreases s t (Except.ok.inj h)
  · rw [scanRangeStep, plus_panics (not_lt.mp hs)] at h
    cases h

theorem ckptScanStep_decreases (s t : CkptScan) (h : ckptScanStep f s = .ok (.inl t)) :
    f.size-t.off < f.size-s.off := by
  by_cases hs : s.off+header < 2^64
  · rw [ckptScanStep_eq s hs] at h
    exact (TickvMount.ckptScanLoop f).decreases s t (Except.ok.inj h)
  · rw [ckptScanStep, plus_panics (not_lt.mp hs)] at h
    cases h

end

def scanRangeLoop (f : RamFlash) : Loop RangeScan (Run (Result Unit × RangeScan)) :=
  checkedLoop (scanRangeStep f) (fun s => f.size-s.off) scanRangeStep_decreases

def ckptScanLoop (f : RamFlash) : Loop CkptScan (Run (Result Unit × CkptScan)) :=
  checkedLoop (ckptScanStep f) (fun s => f.size-s.off) ckptScanStep_decreases

section
variable {f : RamFlash}

theorem scanRangeStep_next {s t : RangeScan} (h : TickvMount.scanRangeStep f s = .inl t) :
    s.off+header ≤ f.size ∧ (t.off ≤ f.size ∨ t.off = TickvRecord.nextSector s.off) := by
  refine ⟨(TickvMount.scanRangeStep_off f s t h).1, ?_⟩
  unfold TickvMount.scanRangeStep TickvRecord.advanceOversized at h
  simp only at h
  repeat' split at h
  all_goals cases h
  all_goals first | exact Or.inr rfl | exact Or.inl (by simp only; omega)

theorem ckptScanStep_next {s t : CkptScan} (h : TickvMount.ckptScanStep f s = .inl t) :
    s.off+header ≤ f.size ∧ (t.off ≤ f.size ∨ t.off = TickvRecord.nextSector s.off) := by
  refine ⟨(TickvMount.ckptScanStep_off f s t h).1, ?_⟩
  unfold TickvMount.ckptScanStep TickvRecord.advanceOversized at h
  simp only at h
  repeat' split at h
  all_goals cases h
  all_goals first | exact Or.inr rfl | exact Or.inl (by simp only; omega)

theorem next_fits {off next : ℕ} (hin : off+header ≤ f.size)
    (h : next ≤ f.size ∨ next = TickvRecord.nextSector off) : next+header < 2^64 := by
  have hb : f.size < 2^63 := f.bounded
  unfold TickvRecord.nextSector at h
  unfold header at *
  omega

theorem scanRangeLoop_eq (s : RangeScan) (h : s.off+header < 2^64) :
    (scanRangeLoop f).exec s = .ok ((TickvMount.scanRangeLoop f).exec s) := by
  apply exec_checked (fun s : RangeScan => s.off+header < 2^64)
  · exact fun s hs => scanRangeStep_eq s hs
  · intro s t _ ht
    obtain ⟨hin, hn⟩ := scanRangeStep_next ht
    exact next_fits hin hn
  · exact h

theorem ckptScanLoop_eq (s : CkptScan) (h : s.off+header < 2^64) :
    (ckptScanLoop f).exec s = .ok ((TickvMount.ckptScanLoop f).exec s) := by
  apply exec_checked (fun s : CkptScan => s.off+header < 2^64)
  · exact fun s hs => ckptScanStep_eq s hs
  · intro s t _ ht
    obtain ⟨hin, hn⟩ := ckptScanStep_next ht
    exact next_fits hin hn
  · exact h

end

/-! ## The checkpoint path of a checked mount -/
open TickvMount (mountReady)

def scanRange (f : RamFlash) (kv : TickvLite) (start : ℕ) (keep : Bool) (polls : Option ℕ) :
    Run (Result Unit × TickvLite × Option ℕ) := do
  let kv := if keep then kv else { kv with
    index := ∅
    appendOff := 0
    stats := { kv.stats with liveBytes := 0, deadBytes := 0 } }
  match ← (scanRangeLoop f).exec ⟨start, kv, polls⟩ with
  | (.error e, s) => return (.error e, s.kv, s.polls)
  | (.ok _, s) =>
    let kv := { s.kv with appendOff := if s.kv.degraded then f.size else s.off }
    return (.ok (), kv.recomputeLiveEstimate, s.polls)

def recover (f : RamFlash) (kv : TickvLite) (polls : Option ℕ) :
    Run (Result Unit × TickvLite × Option ℕ) := scanRange f kv 0 false polls

def readEntries (val : Bytes) : ℕ → ℕ → Index → Run (Result Index)
  | 0, _, index => return .ok index
  | n+1, pos, index => do
    let a ← plus pos 2
    if a > val.length then return .error .ckptTrunc
    let kl ← sub val pos a
    let b ← plus a (fromLe kl)
    let c ← plus b 8
    if c > val.length then return .error .ckptTrunc
    let kb ← sub val a b
    match Str.fromUtf8 kb with
    | none => return .error .ckptKey
    | some key =>
      let o ← sub val b c
      readEntries val n c (index.insert key (fromLe o))

def parseCkpt (val : Bytes) : Run (Result (ℕ × Index)) := do
  if val.length < 24 then return .error .ckptShort
  let m ← sub val 0 4
  if m ≠ ckptMagic then return .error .badCkptMagic
  let append ← sub val 4 12
  let want ← sub val 12 20
  let n ← sub val 20 24
  match ← readEntries val (fromLe n) 24 ∅ with
  | .error e => return .error e
  | .ok index =>
    if (fnvEntries index.toList).toNat ≠ fromLe want then return .error .ckptFnv
    return .ok (fromLe append, index)

def staleCheck (f : RamFlash) (index : Index) : Run (Result Unit) :=
  match index.toList.head? with
  | none => return .ok ()
  | some e => do
    match ← read f e.2 header with
    | .error e => return .error e
    | .ok hdr => if hdrValid hdr then return .ok () else return .error .ckptStale

/-- A read past the end leaves the header buffer zero, and the entry is passed over. -/
def entryEnd (f : RamFlash) (acc off : ℕ) : Run ℕ := do
  match ← read f off header with
  | .error _ => return acc
  | .ok hdr =>
    if !hdrValid hdr then return acc
    let klen ← field hdr 4
    let vlen ← field hdr 8
    if oversized klen vlen then return acc
    let total ← recTotal klen vlen
    return max acc (satAdd off total)

def entriesEnd (f : RamFlash) : List (Str × ℕ) → ℕ → Run ℕ
  | [], acc => return acc
  | e::es, acc => do
    let acc ← entryEnd f acc e.2
    entriesEnd f es acc

/-- The part of `try_mount_from_ckpt` after the checkpoint is parsed. -/
def mountParsed (f : RamFlash) (kv : TickvLite) (polls : Option ℕ) (val : Bytes)
    (p : ℕ × Index) : Run (Result Unit × TickvLite × Option ℕ) := do
  match ← staleCheck f p.2 with
  | .error e => return (.error e, kv, polls)
  | .ok _ =>
    let fin ← entriesEnd f p.2.toList p.1
    let total ← recTotal ckptKey.bytes.length val.length
    let start ← plus fin total
    scanRange f { kv with index := p.2, appendOff := fin }.recomputeLiveEstimate start true polls

def tryMountFromCkpt (f : RamFlash) (kv : TickvLite) (polls : Option ℕ) :
    Run (Result Unit × TickvLite × Option ℕ) := do
  let kv := { kv with index := ∅, appendOff := 0 }
  match ← (ckptScanLoop f).exec ⟨0, none, polls⟩ with
  | (.error e, s) => return (.error e, kv, s.polls)
  | (.ok _, s) =>
    match s.found with
    | none => return (.error .noCkpt, kv, s.polls)
    | some val =>
      match ← parseCkpt val with
      | .error e => return (.error e, kv, s.polls)
      | .ok p => mountParsed f kv s.polls val p

def mountFrom (w : World) (kv : TickvLite) (polls : Option ℕ) : Run (Result Unit × World) := do
  match ← tryMountFromCkpt w.flash kv polls with
  | (.ok _, kv, _) => return (.ok (), mountReady w kv)
  | (.error _, kv, polls) =>
    match ← recover w.flash kv polls with
    | (.error e, kv, _) => return (.error e, { w with kv := kv })
    | (.ok _, kv, _) => return (.ok (), mountReady w kv)

def mount (w : World) (polls : Option ℕ) : Run (Result Unit × World) :=
  mountFrom w { w.kv with backend := .ram, degraded := false } polls

def foundCkpt (f : RamFlash) (polls : Option ℕ) : Option Bytes :=
  match (TickvMount.ckptScanLoop f).exec ⟨0, none, polls⟩ with
  | (.error _, _) => none
  | (.ok _, s) => s.found

/-- The offsets of a checkpoint can be added to, and what is said to be in use before the
checkpoint record ends inside the volume. -/
structure OffsetsInside (f : RamFlash) (val : Bytes) (append : ℕ) (index : Index) : Prop where
  first : ∀ e, index.toList.head? = some e → e.2+header < 2^64
  entries : TickvMount.staleCheck f index = .ok () → ∀ e ∈ index.toList, e.2+header < 2^64
  tail : TickvMount.staleCheck f index = .ok () →
    TickvMount.ckptEnd f append index+recordSize ckptKey.bytes.length val.length ≤ f.size

/-- The checkpoint that the search settles on, if it parses, has its offsets inside. -/
def CkptInside (f : RamFlash) (polls : Option ℕ) : Prop :=
  ∀ val append index, foundCkpt f polls = some val →
    TickvMount.parseCkpt val = .ok (append, index) → OffsetsInside f val append index

/-! ## Parsing a checkpoint never panics -/

theorem readEntries_eq {val : Bytes} (hv : val.length < 2^63) (n pos : ℕ) (index : Index)
    (hp : pos ≤ val.length) :
    readEntries val n pos index = .ok (TickvMount.readEntries val n pos index) := by
  induction n generalizing pos index with
  | zero => rfl
  | succ n ih =>
    rw [readEntries, plus_eq (by omega), ok_bind, TickvMount.readEntries]
    split
    · rfl
    next h2 =>
    have hkl := fromLe_lt (slice val pos 2)
    rw [slice_length _ _ _ (not_lt.mp h2)] at hkl
    rw [sub_eq (Nat.le_add_right _ _) (not_lt.mp h2), ok_bind, Nat.add_sub_cancel_left,
      plus_eq (by omega), ok_bind, plus_eq (by omega), ok_bind]
    simp only
    split
    · rfl
    next h8 =>
    rw [sub_eq (Nat.le_add_right _ _) (by omega), ok_bind, Nat.add_sub_cancel_left]
    cases Str.fromUtf8 (slice val (pos+2) (fromLe (slice val pos 2))) with
    | none => rfl
    | some key =>
      simp only
      rw [sub_eq (Nat.le_add_right _ _) (not_lt.mp h8), ok_bind, Nat.add_sub_cancel_left]
      exact ih _ _ (not_lt.mp h8)

theorem parseCkpt_eq {val : Bytes} (hv : val.length < 2^63) :
    parseCkpt val = .ok (TickvMount.parseCkpt val) := by
  rw [parseCkpt, TickvMount.parseCkpt]
  split
  · rfl
  next h24 =>
  rw [sub_eq (by omega) (by omega), ok_bind]
  have htake : slice val 0 (4-0) = val.take 4 := rfl
  rw [htake]
  split
  · rfl
  rw [sub_eq (by omega) (by omega), ok_bind, sub_eq (by omega) (by omega), ok_bind,
    sub_eq (by omega) (by omega), ok_bind, readEntries_eq hv _ _ _ (by omega), ok_bind]
  cases TickvMount.readEntries val (fromLe (slice val 20 (24-20))) 24 ∅ with
  | error e => rfl
  | ok index =>
    simp only
    split <;> rfl

/-! ## Offsets taken from the checkpoint -/

section
variable {f : RamFlash}

theorem staleCheck_eq {index : Index} (h : ∀ e, index.toList.head? = some e → e.2+header < 2^64) :
    staleCheck f index = .ok (TickvMount.staleCheck f index) := by
  unfold staleCheck TickvMount.staleCheck
  cases he : index.toList.head? with
  | none => rfl
  | some e =>
    simp only
    rw [read_eq (h e he), ok_bind]
    cases f.read e.2 header with
    | error x => rfl
    | ok hdr =>
      simp only
      split <;> rfl

theorem staleCheck_panics {index : Index} {e : Str × ℕ} (he : index.toList.head? = some e)
    (h : 2^64 ≤ e.2+header) : staleCheck f index = .error .panic := by
  unfold staleCheck
  rw [he]
  simp only
  rw [read_panics h]
  rfl

theorem entryEnd_eq {acc off : ℕ} (h : off+header < 2^64) :
    entryEnd f acc off = .ok (TickvMount.entryEnd f acc off) := by
  unfold entryEnd TickvMount.entryEnd
  rw [read_eq h, ok_bind]
  cases hr : f.read off header with
  | error x => rfl
  | ok hdr =>
    have hlen : hdr.length = 16 := read_length hr
    have hk : hdrKlen hdr < 2^32 := field_lt (by omega)
    have hv : hdrVlen hdr < 2^32 := field_lt (by omega)
    simp only
    cases hdrValid hdr with
    | false => rfl
    | true =>
      simp only [Bool.not_true, Bool.false_eq_true, if_false, Bool.false_or]
      rw [field_eq (by omega), ok_bind, field_eq (by omega), ok_bind, ← hdrKlen, ← hdrVlen]
      split
      · rfl
      · rw [recTotal_eq (by omega)]
        rfl

theorem entryEnd_panics {acc off : ℕ} (h : 2^64 ≤ off+header) :
    entryEnd f acc off = .error .panic := by
  rw [entryEnd, read_panics h]
  rfl

theorem entriesEnd_eq {es : List (Str × ℕ)} {acc : ℕ} (h : ∀ e ∈ es, e.2+header < 2^64) :
    entriesEnd f es acc = .ok (es.foldl (fun acc e => TickvMount.entryEnd f acc e.2) acc) := by
  induction es generalizing acc with
  | nil => rfl
  | cons e es ih =>
    rw [entriesEnd, entryEnd_eq (h e List.mem_cons_self), ok_bind]
    exact ih fun e' he' => h e' (List.mem_cons_of_mem _ he')

theorem entriesEnd_panics (es : List (Str × ℕ)) (acc : ℕ) (h : ¬∀ e ∈ es, e.2+header < 2^64) :
    entriesEnd f es acc = .error .panic := by
  induction es generalizing acc with
  | nil => exact absurd (fun e he => absurd he List.not_mem_nil) h
  | cons e es ih =>
    rw [entriesEnd]
    by_cases he : e.2+header < 2^64
    · rw [entryEnd_eq he, ok_bind]
      exact ih _ fun hall => h (List.forall_mem_cons.mpr ⟨he, hall⟩)
    · rw [entryEnd_panics (not_lt.mp he)]
      rfl

/-! ## The whole mount -/

theorem scanRange_eq {kv : TickvLite} {start : ℕ} {keep : Bool} {polls : Option ℕ}
    (h : start+header < 2^64) :
    scanRange f kv start keep polls = .ok (TickvMount.scanRange f kv start keep polls) := by
  unfold scanRange TickvMount.scanRange
  simp only
  rw [scanRangeLoop_eq _ h, ok_bind]
  generalize (TickvMount.scanRangeLoop f).exec _ = out
  obtain ⟨_ | _, s⟩ := out <;> rfl

theorem scanRange_panics (kv : TickvLite) {start : ℕ} (keep : Bool) (polls : Option ℕ)
    (h : 2^64 ≤ start+header) : scanRange f kv start keep polls = .error .panic := by
  have hstop (kv : TickvLite) : (scanRangeLoop f).exec ⟨start, kv, polls⟩ = .error .panic := by
    apply exec_stop
    have hstep : scanRangeStep f ⟨start, kv, polls⟩ = .error .panic := by
      rw [scanRangeStep, plus_panics h]
      rfl
    simp only [scanRangeLoop, checkedLoop, checkedStep, hstep]
  unfold scanRange
  simp only
  rw [hstop]
  rfl

theorem read_short {b : Bytes} (h : ∃ off n, f.read off n = .ok b) : b.length < 2^63 := by
  obtain ⟨off, n, hr⟩ := h
  rw [read_length hr]
  unfold RamFlash.read at hr
  split at hr
  · cases hr
  · have := f.bounded
    omega

theorem foundCkpt_length {polls : Option ℕ} {val : Bytes} (h : foundCkpt f polls = some val) :
    val.length < 2^63 := by
  have hloop := exec_rule (TickvMount.ckptScanLoop f)
    (fun s r => (∀ v, s.found = some v → v.length < 2^63) →
      ∀ v, r.2.found = some v → v.length < 2^63)
    (by
      intro s r hr hs
      have hstep : TickvMount.ckptScanStep f s = .inr r := hr
      unfold TickvMount.ckptScanStep at hstep
      simp only at hstep
      repeat' split at hstep
      all_goals cases hstep
      all_goals exact hs)
    (by
      intro s t r ht ih hs
      apply ih
      have hstep : TickvMount.ckptScanStep f s = .inl t := ht
      unfold TickvMount.ckptScanStep at hstep
      simp only at hstep
      repeat' split at hstep
      all_goals cases hstep
      all_goals first
        | exact hs
        | intro v hv
          cases hv
          exact read_short ⟨_, _, by assumption⟩)
    ⟨0, none, polls⟩ (by simp)
  unfold foundCkpt at h
  generalize (TickvMount.ckptScanLoop f).exec _ = out at hloop h
  obtain ⟨_ | _, s⟩ := out
  · cases h
  · exact hloop val h

theorem tryMountFromCkpt_eq (kv : TickvLite) {polls : Option ℕ} (h : CkptInside f polls) :
    tryMountFromCkpt f kv polls = .ok (TickvMount.tryMountFromCkpt f kv polls) := by
  have hb : f.size < 2^63 := f.bounded
  have hkey : ckptKey.bytes.length = 14 := rfl
  have hlen := @foundCkpt_length f polls
  unfold CkptInside at h
  unfold tryMountFromCkpt TickvMount.tryMountFromCkpt foundCkpt at *
  simp only
  rw [ckptScanLoop_eq _ (by simp only; decide), ok_bind]
  generalize (TickvMount.ckptScanLoop f).exec _ = out at h hlen
  obtain ⟨e | _, s⟩ := out
  · rfl
  simp only at h hlen ⊢
  cases hf : s.found with
  | none => rfl
  | some val =>
    simp only
    have hval := hlen hf
    rw [parseCkpt_eq hval, ok_bind]
    cases hp : TickvMount.parseCkpt val with
    | error e => rfl
    | ok p =>
      obtain ⟨append, index⟩ := p
      have hin := h val append index hf hp
      simp only [mountParsed]
      rw [staleCheck_eq hin.first, ok_bind]
      cases hst : TickvMount.staleCheck f index with
      | error e => rfl
      | ok _ =>
        have htail := hin.tail hst
        simp only
        rw [entriesEnd_eq (hin.entries hst), ok_bind, ← TickvMount.ckptEnd,
          recTotal_eq (by omega), ok_bind, plus_eq (by omega), ok_bind,
          scanRange_eq (by unfold header; omega)]

end

/-- The checked mount refines the model without checks. -/
theorem mount_eq (w : World) (polls : Option ℕ) (h : CkptInside w.flash polls) :
    mount w polls = .ok (TickvMount.mount w polls) := by
  unfold mount mountFrom TickvMount.mount TickvMount.mountFrom
  rw [tryMountFromCkpt_eq _ h, ok_bind]
  generalize TickvMount.tryMountFromCkpt w.flash _ polls = out
  obtain ⟨e | _, kv, p⟩ := out
  · simp only [recover, TickvMount.recover]
    rw [scanRange_eq (by decide), ok_bind]
    generalize TickvMount.scanRange w.flash kv 0 false p = out
    obtain ⟨e | _, kv', p'⟩ := out <;> rfl
  · rfl

end NeuralOs.TickvChecked
