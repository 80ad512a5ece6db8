import NeuralOs.Storage.TickvStore

/-!
# Mount, recovery and the volume scanner

`mount` first looks for the last readable checkpoint and replays the log
after it; any failure falls back to `recover`, the scan of the whole log.
`scan_volume` is the separate scanner over a byte image. The clock is a
budget of polls: `none` never expires, `some n` expires at poll `n`, and
once expired it stays expired, as a deadline does.
-/

set_option autoImplicit false

namespace NeuralOs.TickvMount
open ByteString MeasuredLoop TickvRecord TickvState TickvStore

def expired : Option ℕ → Bool
  | some 0 => true
  | _ => false

def ticked : Option ℕ → Option ℕ
  | some (n+1) => some n
  | p => p

structure RangeScan where
  off : ℕ
  kv : TickvLite
  polls : Option ℕ

/-- Index a record whose CRC and key were accepted; an empty value removes the key. -/
def applyRecord (kv : TickvLite) (key : Str) (vlen off total : ℕ) : TickvLite :=
  if vlen = 0 then
    if kv.index[key]?.isSome then { kv.addDead total with index := kv.index.erase key } else kv
  else kv.enter key off total

def scanRangeStep (f : RamFlash) (s : RangeScan) : RangeScan ⊕ (Result Unit × RangeScan) :=
  if s.off+header > f.size then .inr (.ok (), s)
  else if expired s.polls then .inr (.ok (), { s with kv := { s.kv with degraded := true } })
  else match f.read s.off header with
    | .error e => .inr (.error e, s)
    | .ok hdr =>
      let s := { s with polls := ticked s.polls }
      let klen := hdrKlen hdr
      let vlen := hdrVlen hdr
      let total := recordSize klen vlen
      if !hdrTickvShaped hdr then
        if hdrBlank hdr then .inr (.ok (), s)
        else .inl { s with off := nextSector s.off, kv := s.kv.countCorrupt }
      else if oversized klen vlen then
        .inl { s with off := advanceOversized s.off klen vlen f.size, kv := s.kv.countCorrupt }
      else if s.off+total > f.size then .inr (.ok (), s)
      else if hdrInvalidated hdr then
        .inl { s with off := s.off+total, kv := s.kv.addDead total }
      else match f.read (s.off+header) (klen+vlen) with
        | .error e => .inr (.error e, s)
        | .ok body =>
          if (crc32 body).toNat ≠ hdrCrc hdr then
            .inl { s with off := nextSector s.off, kv := s.kv.countCorrupt }
          else match Str.fromUtf8 (body.take klen) with
            | none => .inl { s with off := s.off+total, kv := s.kv.countCorrupt }
            | some key =>
              .inl { s with off := s.off+total, kv := applyRecord s.kv key vlen s.off total }

theorem scanRangeStep_off (f : RamFlash) (s t : RangeScan) (h : scanRangeStep f s = .inl t) :
    s.off+header ≤ f.size ∧ s.off < t.off := by
  have hn := nextSector_gt s.off
  unfold scanRangeStep at h
  split at h
  · cases h
  next hlt =>
  refine ⟨by omega, ?_⟩
  split at h
  · cases h
  split at h
  · cases h
  next hdr _ =>
  have hr := recordSize_sector (hdrKlen hdr) (hdrVlen hdr)
  have ha := advanceOversized_gt s.off (hdrKlen hdr) (hdrVlen hdr) f.size
  simp only at h
  repeat' split at h
  all_goals cases h
  all_goals simp only
  all_goals omega

theorem scanRangeStep_degraded {f : RamFlash} {s t : RangeScan} (h : scanRangeStep f s = .inl t) :
    t.kv.degraded = s.kv.degraded := by
  unfold scanRangeStep applyRecord TickvLite.enter at h
  simp only at h
  repeat' split at h
  all_goals cases h
  all_goals simp only [TickvLite.countCorrupt, TickvLite.addDead, TickvLite.addLive]

def scanRangeLoop (f : RamFlash) : Loop RangeScan (Result Unit × RangeScan) where
  step := scanRangeStep f
  measure s := f.size-s.off
  decreases s t h := by
    have := scanRangeStep_off f s t h
    unfold header at this
    omega

def scanRange (f : RamFlash) (kv : TickvLite) (start : ℕ) (keep : Bool) (polls : Option ℕ) :
    Result Unit × TickvLite × Option ℕ :=
  let kv := if keep then kv else { kv with
    index := ∅
    appendOff := 0
    stats := { kv.stats with liveBytes := 0, deadBytes := 0 } }
  match (scanRangeLoop f).exec ⟨start, kv, polls⟩ with
  | (.error e, s) => (.error e, s.kv, s.polls)
  | (.ok _, s) =>
    -- a scan cut short leaves no room to append, so that the unread tail survives
    let kv := { s.kv with appendOff := if s.kv.degraded then f.size else s.off }
    (.ok (), kv.recomputeLiveEstimate, s.polls)

def recover (f : RamFlash) (kv : TickvLite) (polls : Option ℕ) :
    Result Unit × TickvLite × Option ℕ := scanRange f kv 0 false polls

structure CkptScan where
  off : ℕ
  found : Option Bytes
  polls : Option ℕ

/-- One turn of the checkpoint search: the last readable checkpoint value wins. -/
def ckptScanStep (f : RamFlash) (s : CkptScan) : CkptScan ⊕ (Result Unit × CkptScan) :=
  if s.off+header > f.size then .inr (.ok (), s)
  else if expired s.polls then .inr (.error .ckptScanTimeout, s)
  else match f.read s.off header with
    | .error e => .inr (.error e, s)
    | .ok hdr =>
      let s := { s with polls := ticked s.polls }
      let klen := hdrKlen hdr
      let vlen := hdrVlen hdr
      let total := recordSize klen vlen
      if !hdrTickvShaped hdr then
        if hdrBlank hdr then .inr (.ok (), s)
        else .inl { s with off := nextSector s.off }
      else if oversized klen vlen then
        .inl { s with off := advanceOversized s.off klen vlen f.size }
      else if s.off+total > f.size then .inr (.ok (), s)
      else match f.read (s.off+header) klen with
        | .error e => .inr (.error e, s)
        | .ok keybuf =>
          if Str.fromUtf8 keybuf = some ckptKey ∧ 24 ≤ vlen then
            match f.read (s.off+header+klen) vlen with
            | .error e => .inr (.error e, s)
            | .ok val =>
              if (crc32 (keybuf ++ val)).toNat = hdrCrc hdr then
                .inl { s with off := s.off+total, found := some val }
              else .inl { s with off := s.off+total }
          else .inl { s with off := s.off+total }

theorem ckptScanStep_off (f : RamFlash) (s t : CkptScan) (h : ckptScanStep f s = .inl t) :
    s.off+header ≤ f.size ∧ s.off < t.off := by
  have hn := nextSector_gt s.off
  unfold ckptScanStep at h
  split at h
  · cases h
  next hlt =>
  refine ⟨by omega, ?_⟩
  split at h
  · cases h
  split at h
  · cases h
  next hdr _ =>
  have hr := recordSize_sector (hdrKlen hdr) (hdrVlen hdr)
  have ha := advanceOversized_gt s.off (hdrKlen hdr) (hdrVlen hdr) f.size
  simp only at h
  repeat' split at h
  all_goals cases h
  all_goals simp only
  all_goals omega

def ckptScanLoop (f : RamFlash) : Loop CkptScan (Result Unit × CkptScan) where
  step := ckptScanStep f
  measure s := f.size-s.off
  decreases s t h := by
    have := ckptScanStep_off f s t h
    unfold header at this
    omega

/-- The entry loop over a checkpoint value. An error drops the entries read so
far: the only caller falls back to `recover`, which clears the index. -/
def readEntries (val : Bytes) : ℕ → ℕ → Index → Result Index
  | 0, _, index => .ok index
  | n+1, pos, index =>
    if pos+2 > val.length then .error .ckptTrunc
    else
      let kl := fromLe (slice val pos 2)
      if pos+2+kl+8 > val.length then .error .ckptTrunc
      else match Str.fromUtf8 (slice val (pos+2) kl) with
        | none => .error .ckptKey
        | some key =>
          readEntries val n (pos+2+kl+8) (index.insert key (fromLe (slice val (pos+2+kl) 8)))

def parseCkpt (val : Bytes) : Result (ℕ × Index) :=
  if val.length < 24 then .error .ckptShort
  else if val.take 4 ≠ ckptMagic then .error .badCkptMagic
  else match readEntries val (fromLe (slice val 20 4)) 24 ∅ with
    | .error e => .error e
    | .ok index =>
      if (fnvEntries index.toList).toNat ≠ fromLe (slice val 12 8) then .error .ckptFnv
      else .ok (fromLe (slice val 4 8), index)

/-- Only the first entry of the index is checked against the flash. -/
def staleCheck (f : RamFlash) (index : Index) : Result Unit :=
  match index.toList.head? with
  | none => .ok ()
  | some e =>
    match f.read e.2 header with
    | .error e => .error e
    | .ok hdr => if hdrValid hdr then .ok () else .error .ckptStale

def entryEnd (f : RamFlash) (acc off : ℕ) : ℕ :=
  match f.read off header with
  | .error _ => acc
  | .ok hdr =>
    if !hdrValid hdr || oversized (hdrKlen hdr) (hdrVlen hdr) then acc
    else max acc (satAdd off (recordSize (hdrKlen hdr) (hdrVlen hdr)))

def ckptEnd (f : RamFlash) (append : ℕ) (index : Index) : ℕ :=
  index.toList.foldl (fun acc e => entryEnd f acc e.2) append

def tryMountFromCkpt (f : RamFlash) (kv : TickvLite) (polls : Option ℕ) :
    Result Unit × TickvLite × Option ℕ :=
  let kv := { kv with index := ∅, appendOff := 0 }
  match (ckptScanLoop f).exec ⟨0, none, polls⟩ with
  | (.error e, s) => (.error e, kv, s.polls)
  | (.ok _, s) =>
    match s.found with
    | none => (.error .noCkpt, kv, s.polls)
    | some val =>
      match parseCkpt val with
      | .error e => (.error e, kv, s.polls)
      | .ok (append, index) =>
        match staleCheck f index with
        | .error e => (.error e, kv, s.polls)
        | .ok _ =>
          let fin := ckptEnd f append index
          let kv := { kv with index := index, appendOff := fin }.recomputeLiveEstimate
          -- the checkpoint record itself occupies [fin, fin+total)
          scanRange f kv (fin+recordSize ckptKey.bytes.length val.length) true s.polls

/-- The last lines of `mount`; only the slow back ends suspend the GC. -/
def mountReady (w : World) (kv : TickvLite) : World :=
  { w with kv := { kv with ready := true }, gcSuspended := w.gcSuspended || kv.backend.slow }

/-- `mount` once the back end is known: checkpoint first, then the full scan. -/
def mountFrom (w : World) (kv : TickvLite) (polls : Option ℕ) : Result Unit × World :=
  match tryMountFromCkpt w.flash kv polls with
  | (.ok _, kv, _) => (.ok (), mountReady w kv)
  | (.error _, kv, polls) =>
    match recover w.flash kv polls with
    | (.error e, kv, _) => (.error e, { w with kv := kv })
    | (.ok _, kv, _) => (.ok (), mountReady w kv)

def mount (w : World) (polls : Option ℕ) : Result Unit × World :=
  mountFrom w { w.kv with backend := .ram, degraded := false } polls

def remount (w : World) (polls : Option ℕ) : World :=
  (mount { w with kv := .new, compacting := false } polls).2

def recoverMount (w : World) (polls : Option ℕ) : World :=
  { w with kv := { (recover w.flash { TickvLite.new with backend := .ram } polls).2.1 with
                   ready := true }
           compacting := false }

structure ScanResult where
  map : StrMap Bytes
  offsets : Index
  appendOff : ℕ
  corrupt : ℕ
  truncated : Bool

def ScanResult.start : ScanResult := ⟨∅, ∅, 0, 0, false⟩

structure VolumeScan where
  off : ℕ
  out : ScanResult

/-- One turn of `scan_volume`; the flag of a stop says that a blank header ended it. -/
def scanVolumeStep (data : Bytes) (s : VolumeScan) : VolumeScan ⊕ (Bool × VolumeScan) :=
  let size := data.length
  let out := s.out
  let skip : VolumeScan := ⟨nextSector s.off, { out with corrupt := out.corrupt+1 }⟩
  if s.off+header > size then .inr (false, s)
  else
    let hdr := slice data s.off header
    let klen := hdrKlen hdr
    let vlen := hdrVlen hdr
    let total := recordSize klen vlen
    if !hdrTickvShaped hdr then
      if hdrBlank hdr then .inr (true, s) else .inl skip
    else if oversized klen vlen then .inl skip
    else if s.off+total > size then .inr (false, { s with out := { out with truncated := true } })
    else
      let out := { out with appendOff := max out.appendOff (s.off+total) }
      if hdr.getD 3 0 = 0 then .inl ⟨s.off+total, out⟩
      else
        let body := slice data (s.off+header) (klen+vlen)
        if (crc32 body).toNat ≠ hdrCrc hdr then .inl skip
        else match Str.fromUtf8 (body.take klen) with
          | none => .inl ⟨s.off+total, { out with corrupt := out.corrupt+1 }⟩
          | some key =>
            if key = ckptKey then .inl ⟨s.off+total, out⟩
            else if vlen = 0 then
              .inl ⟨s.off+total, { out with map := out.map.erase key
                                            offsets := out.offsets.erase key }⟩
            else .inl ⟨s.off+total, { out with map := out.map.insert key (body.drop klen)
                                               offsets := out.offsets.insert key s.off }⟩

theorem scanVolumeStep_off (data : Bytes) (s t : VolumeScan)
    (h : scanVolumeStep data s = .inl t) : s.off+header ≤ data.length ∧ s.off < t.off := by
  have hn := nextSector_gt s.off
  have hr := recordSize_sector (hdrKlen (slice data s.off header))
    (hdrVlen (slice data s.off header))
  simp only [scanVolumeStep] at h
  split at h
  · cases h
  next hlt =>
  refine ⟨by omega, ?_⟩
  repeat' split at h
  all_goals cases h
  all_goals simp only
  all_goals omega

def scanVolumeLoop (data : Bytes) : Loop VolumeScan (Bool × VolumeScan) where
  step := scanVolumeStep data
  measure s := data.length-s.off
  decreases s t h := by
    have := scanVolumeStep_off data s t h
    unfold header at this
    omega

def scanVolume (data : Bytes) : ScanResult :=
  let (eof, s) := (scanVolumeLoop data).exec ⟨0, .start⟩
  if !eof && decide (s.off < data.length) then { s.out with truncated := true } else s.out

end NeuralOs.TickvMount
