import NeuralOs.Storage.TickvScanLog

/-!
# The volume scanner against the recovery of the kernel

`scan_volume` and the recovery scan were written for the same format. On any
byte image they stay at the same offset, with agreeing results, until the
recovery scan meets an oversized record that lies inside the volume: only
the recovery scan skips such a record as a whole.
-/

set_option autoImplicit false

namespace NeuralOs.TickvVolumeRecovery
open ByteString MeasuredLoop TickvRecord TickvState TickvStore TickvMount TickvScanLog

def recovered (f : RamFlash) : World := recoverMount (World.boot f) none

def recoveredMap (f : RamFlash) : StrMap Bytes :=
  (recovered f).kv.index.keys.foldl (fun m k =>
    if k = ckptKey then m
    else match view (recovered f) k with
      | .ok v => m.insert k v
      | .error _ => m) ∅

/-- The recovery scan is at a header that it takes for an oversized record
lying inside the volume, and skips as a whole. -/
def JumpsOversized (f : RamFlash) (off : ℕ) : Prop :=
  off+header ≤ f.size ∧ hdrTickvShaped (slice f.data off header) = true ∧
    oversized (hdrKlen (slice f.data off header)) (hdrVlen (slice f.data off header)) = true ∧
    off+recordSize (hdrKlen (slice f.data off header)) (hdrVlen (slice f.data off header)) ≤ f.size

section Agreement
variable (f : RamFlash)

theorem read_slice (off n : ℕ) (h : off+n ≤ f.size) : f.read off n = .ok (slice f.data off n) :=
  if_neg (not_lt.mpr h)

theorem scanRangeStep_image (s : RangeScan) (hp : s.polls = none) (hb : s.off+header ≤ f.size) :
    scanRangeStep f s =
      let hdr := slice f.data s.off header
      let klen := hdrKlen hdr
      let vlen := hdrVlen hdr
      let total := recordSize klen vlen
      let body := slice f.data (s.off+header) (klen+vlen)
      if !hdrTickvShaped hdr then
        if hdrBlank hdr then .inr (.ok (), s)
        else .inl { s with off := nextSector s.off, kv := s.kv.countCorrupt }
      else if oversized klen vlen then
        .inl { s with off := advanceOversized s.off klen vlen f.size, kv := s.kv.countCorrupt }
      else if s.off+total > f.size then .inr (.ok (), s)
      else if hdrInvalidated hdr then
        .inl { s with off := s.off+total, kv := s.kv.addDead total }
      else if (crc32 body).toNat ≠ hdrCrc hdr then
        .inl { s with off := nextSector s.off, kv := s.kv.countCorrupt }
      else match Str.fromUtf8 (body.take klen) with
        | none => .inl { s with off := s.off+total, kv := s.kv.countCorrupt }
        | some key =>
          .inl { s with off := s.off+total, kv := applyRecord s.kv key vlen s.off total } := by
  obtain ⟨off, kv, polls⟩ := s
  subst hp
  have hr := recordSize_ge (hdrKlen (slice f.data off header)) (hdrVlen (slice f.data off header))
  unfold scanRangeStep
  simp only [if_neg (not_lt.mpr hb), expired, Bool.false_eq_true, if_false, read_slice f off _ hb,
    ticked]
  split
  · rfl
  split
  · rfl
  · split
    · rfl
    · next ht =>
      rewrite [read_slice f (off+header) _ (by omega)]
      rfl

theorem readRecord_image (off : ℕ)
    (hb : off+recordSize (hdrKlen (slice f.data off header)) (hdrVlen (slice f.data off header)) ≤
      f.size) (hv : hdrValid (slice f.data off header) = true)
    (hc : (crc32 (slice f.data (off+header) (hdrKlen (slice f.data off header)+
      hdrVlen (slice f.data off header)))).toNat = hdrCrc (slice f.data off header)) :
    readRecord f off = .ok ((slice f.data (off+header) (hdrKlen (slice f.data off header)+
      hdrVlen (slice f.data off header))).drop (hdrKlen (slice f.data off header))) := by
  have hr := recordSize_ge (hdrKlen (slice f.data off header)) (hdrVlen (slice f.data off header))
  unfold readRecord
  simp only [read_slice f off header (by omega), hv, Bool.not_true, Bool.false_eq_true, if_false,
    read_slice f (off+header) (hdrKlen (slice f.data off header)+hdrVlen (slice f.data off header))
      (by omega), hc, ne_eq, not_true_eq_false]

/-- The scanned map holds, for each key, what reading its indexed offset gives. -/
def Agrees (m : StrMap Bytes) (index : Index) : Prop :=
  m[ckptKey]? = none ∧
    ∀ k, k ≠ ckptKey → m[k]? = index[k]?.bind (fun off => (readRecord f off).toOption)

variable {m : StrMap Bytes}

theorem agrees_erase {index : Index} (h : Agrees f m index) (key : Str) :
    Agrees f (m.erase key) (index.erase key) := by
  refine ⟨?_, fun k hk => ?_⟩
  · rw [get_erase]
    split
    · rfl
    · exact h.1
  · rw [get_erase, get_erase]
    split
    · rfl
    · exact h.2 k hk

theorem agrees_insert {index : Index} (h : Agrees f m index) {key : Str}
    (hkey : key ≠ ckptKey) {off : ℕ} {v : Bytes} (hv : readRecord f off = .ok v) :
    Agrees f (m.insert key v) (index.insert key off) := by
  refine ⟨?_, fun k hk => ?_⟩
  · rw [get_insert, if_neg (Ne.symm hkey)]
    exact h.1
  · rw [get_insert, get_insert]
    split
    · simp [hv, Except.toOption]
    · exact h.2 k hk

/-- The two scanners at the same offset, with agreeing results so far. -/
structure Together (s : VolumeScan) (t : RangeScan) : Prop where
  off : s.off = t.off
  untimed : t.polls = none
  whole : t.kv.degraded = false
  agrees : Agrees f s.out.map t.kv.index

theorem applyRecord_agrees {kv : TickvLite} (h : Agrees f m kv.index)
    (key : Str) (vlen total : ℕ) {off : ℕ} {v : Bytes} (hv : readRecord f off = .ok v) :
    (applyRecord kv key vlen off total).degraded = kv.degraded ∧
      Agrees f (if key = ckptKey then m else if vlen = 0 then m.erase key else m.insert key v)
        (applyRecord kv key vlen off total).index := by
  obtain ⟨st, hst⟩ := applyRecord_index kv key vlen off total
  rw [hst]
  refine ⟨rfl, ?_⟩
  by_cases hk : key = ckptKey
  · rw [if_pos hk]
    refine ⟨h.1, fun k hne => ?_⟩
    have hc : k ≠ key := fun hc => hne (hc.trans hk)
    rw [h.2 k hne]
    simp only
    split
    · rw [get_erase, if_neg hc]
    · rw [get_insert, if_neg hc]
  · rw [if_neg hk]
    by_cases hz : vlen = 0
    · simpa only [if_pos hz] using agrees_erase f h key
    · simpa only [if_neg hz] using agrees_insert f h hk hv

theorem together_step {s : VolumeScan} {t : RangeScan} (h : Together f s t)
    (hj : ¬ JumpsOversized f t.off) :
    (∃ eof s', scanVolumeStep f.data s = .inr (eof, s') ∧ s'.out.map = s.out.map ∧
        scanRangeStep f t = .inr (.ok (), t)) ∨
      (∃ s' t', scanVolumeStep f.data s = .inl s' ∧ scanRangeStep f t = .inl t' ∧
        Together f s' t') := by
  obtain ⟨off, out⟩ := s
  obtain ⟨off', kv, polls⟩ := t
  obtain ⟨rfl, hp, hw, ha⟩ := h
  simp only at hp hw ha hj
  by_cases hb : off+header > f.size
  · exact .inl ⟨false, _, by simp only [scanVolumeStep]; exact if_pos hb, rfl,
      by simp only [scanRangeStep]; exact if_pos hb⟩
  rw [scanRangeStep_image f _ hp (not_lt.mp hb)]
  simp only [scanVolumeStep, if_neg (show ¬ off+header > f.data.length from hb)]
  unfold JumpsOversized at hj
  generalize hh : slice f.data off header = hdr at hj ⊢
  by_cases hs : hdrTickvShaped hdr = true
  · rw [hs, Bool.not_true, if_neg Bool.false_ne_true, if_neg Bool.false_ne_true]
    by_cases ho : oversized (hdrKlen hdr) (hdrVlen hdr) = true
    · -- an oversized header that overruns the volume: both step one sector
      have hadv : advanceOversized off (hdrKlen hdr) (hdrVlen hdr) f.size = nextSector off := by
        simp only [advanceOversized]
        exact if_neg fun hc => hj ⟨not_lt.mp hb, hs, ho, hc.2⟩
      rw [if_pos ho, if_pos ho, hadv]
      exact .inr ⟨_, _, rfl, rfl, rfl, hp, hw, ha⟩
    rw [if_neg ho, if_neg ho]
    by_cases ht : off+recordSize (hdrKlen hdr) (hdrVlen hdr) > f.size
    · rw [if_pos ht, if_pos (show _ > f.data.length from ht)]
      exact .inl ⟨_, _, rfl, rfl, rfl⟩
    rw [if_neg ht, if_neg (show ¬ _ > f.data.length from ht)]
    by_cases hi : hdrInvalidated hdr = true
    · have h0 : hdr.getD 3 0 = 0 := by
        simpa [hdrInvalidated] using (Bool.and_eq_true_iff.mp hi).2
      rw [if_pos hi, if_pos h0]
      exact .inr ⟨_, _, rfl, rfl, rfl, hp, hw, ha⟩
    have hv : hdrValid hdr = true := by
      rcases Bool.or_eq_true_iff.mp hs with hv | hv
      · exact hv
      · exact absurd hv hi
    have h0 : ¬ hdr.getD 3 0 = 0 := by
      intro h0
      unfold hdrValid at hv
      rw [h0] at hv
      simp at hv
    rw [if_neg hi, if_neg h0]
    by_cases hc : (crc32 (slice f.data (off+header) (hdrKlen hdr+hdrVlen hdr))).toNat ≠
        hdrCrc hdr
    · rw [if_pos hc, if_pos hc]
      exact .inr ⟨_, _, rfl, rfl, rfl, hp, hw, ha⟩
    rw [if_neg hc, if_neg hc]
    subst hh
    have hr := readRecord_image f off (not_lt.mp ht) hv (not_not.mp hc)
    cases hu : Str.fromUtf8 ((slice f.data (off+header)
        (hdrKlen (slice f.data off header)+hdrVlen (slice f.data off header))).take
        (hdrKlen (slice f.data off header))) with
    | none => exact .inr ⟨_, _, rfl, rfl, rfl, hp, hw, ha⟩
    | some key =>
      obtain ⟨hd, hag⟩ := applyRecord_agrees f ha key (hdrVlen (slice f.data off header))
        (recordSize (hdrKlen (slice f.data off header))
          (hdrVlen (slice f.data off header))) hr
      simp only
      by_cases hk : key = ckptKey
      · rw [if_pos hk] at hag ⊢
        exact .inr ⟨_, _, rfl, rfl, rfl, hp, hd.trans hw, hag⟩
      rw [if_neg hk] at hag ⊢
      by_cases hz : hdrVlen (slice f.data off header) = 0
      · rw [if_pos hz] at hag ⊢
        exact .inr ⟨_, _, rfl, rfl, rfl, hp, hd.trans hw, hag⟩
      · rw [if_neg hz] at hag ⊢
        exact .inr ⟨_, _, rfl, rfl, rfl, hp, hd.trans hw, hag⟩
  · have hs' : (!hdrTickvShaped hdr) = true := by simpa using hs
    rw [if_pos hs', if_pos hs']
    by_cases hz : hdrBlank hdr = true
    · rw [if_pos hz, if_pos hz]
      exact .inl ⟨_, _, rfl, rfl, rfl⟩
    · rw [if_neg hz, if_neg hz]
      exact .inr ⟨_, _, rfl, rfl, rfl, hp, hw, ha⟩

def recoverStart : RangeScan := ⟨0, { TickvLite.new with backend := .ram }, none⟩

theorem scans_agree (hj : ∀ t, Visits (scanRangeLoop f) recoverStart t → ¬ JumpsOversized f t.off) :
    ((scanRangeLoop f).exec recoverStart).1 = .ok () ∧
      ((scanRangeLoop f).exec recoverStart).2.kv.degraded = false ∧
      Agrees f ((scanVolumeLoop f.data).exec ⟨0, .start⟩).2.out.map
        ((scanRangeLoop f).exec recoverStart).2.kv.index := by
  refine exec_simulation (scanVolumeLoop f.data) (scanRangeLoop f)
    (fun s t => Together f s t ∧ Visits (scanRangeLoop f) recoverStart t)
    (fun r r' => r'.1 = .ok () ∧ r'.2.kv.degraded = false ∧ Agrees f r.2.out.map r'.2.kv.index)
    ?_ ?_ ⟨0, .start⟩ recoverStart ⟨⟨rfl, rfl, rfl, rfl, fun k _ => rfl⟩, .start⟩
  · rintro s t r ⟨h, hv⟩ hs
    rcases together_step f h (hj t hv) with ⟨eof, s', hs', hm, ht⟩ | ⟨s', t', hs', _⟩
    · obtain rfl := Sum.inr.inj (hs.symm.trans hs')
      exact ⟨_, ht, rfl, h.whole, by rw [hm]; exact h.agrees⟩
    · exact absurd (hs.symm.trans hs') (by simp)
  · rintro s t s₁ ⟨h, hv⟩ hs
    rcases together_step f h (hj t hv) with ⟨eof, s', hs', _⟩ | ⟨s', t', hs', ht, h'⟩
    · exact absurd (hs.symm.trans hs') (by simp)
    · obtain rfl := Sum.inl.inj (hs.symm.trans hs')
      exact ⟨t', ht, h', hv.turn ht⟩

theorem recovered_index : (recovered f).kv.ready = true ∧ (recovered f).flash = f ∧
    (((scanRangeLoop f).exec recoverStart).1 = .ok () →
      (recovered f).kv.index = ((scanRangeLoop f).exec recoverStart).2.kv.index) := by
  refine ⟨rfl, rfl, fun hok => ?_⟩
  obtain ⟨res, s, hout⟩ : ∃ res s, (scanRangeLoop f).exec recoverStart = (res, s) := ⟨_, _, rfl⟩
  rw [hout] at hok ⊢
  obtain rfl : res = .ok () := hok
  exact (recoverMount_exec (w := World.boot f) hout).2.1

def readBack (k : Str) : Option Bytes :=
  if k = ckptKey then none else (view (recovered f) k).toOption

theorem readBack_fold (ks : List Str) (m : StrMap Bytes) (k : Str) :
    (ks.foldl (fun m k => if k = ckptKey then m
      else match view (recovered f) k with
        | .ok v => m.insert k v
        | .error _ => m) m)[k]? = if k ∈ ks then (readBack f k).or m[k]? else m[k]? := by
  induction ks generalizing m with
  | nil => simp
  | cons x ks ih =>
    rw [List.foldl_cons, ih]
    by_cases hx : x = k
    · subst hx
      simp only [List.mem_cons, true_or, if_true, readBack]
      by_cases hc : x = ckptKey
      · simp [hc]
      · simp only [if_neg hc]
        cases view (recovered f) x <;> simp [Except.toOption]
    · have hk : (k ∈ x::ks) ↔ k ∈ ks := by simp [Ne.symm hx]
      have hm : (if x = ckptKey then m else match view (recovered f) x with
          | .ok v => m.insert x v
          | .error _ => m)[k]? = m[k]? := by
        split
        · rfl
        · split
          · rw [get_insert, if_neg (Ne.symm hx)]
          · rfl
      simp only [hk, hm]

theorem recoveredMap_getElem? (k : Str) : (recoveredMap f)[k]? = readBack f k := by
  unfold recoveredMap
  rw [readBack_fold]
  split
  · simp
  next hk =>
  have hi : (recovered f).kv.index[k]? = none := by
    rw [Std.ExtTreeMap.mem_keys] at hk
    exact Std.ExtTreeMap.getElem?_eq_none hk
  have hr : view (recovered f) k = .error .missing := by
    simp [view, (recovered_index f).1, hi]
  simp [readBack, hr, Except.toOption]

/-- The volume scanner and the recovery of the kernel give the same map on
every image on which the recovery scan skips no oversized record as a whole. -/
theorem scanVolume_eq_recovered
    (hj : ∀ t, Visits (scanRangeLoop f) recoverStart t → ¬ JumpsOversized f t.off) :
    (scanVolume f.data).map = recoveredMap f := by
  obtain ⟨hok, _, hck, hag⟩ := scans_agree f hj
  obtain ⟨hr, hf, hi⟩ := recovered_index f
  have hmap : (scanVolume f.data).map =
      ((scanVolumeLoop f.data).exec ⟨0, .start⟩).2.out.map := by
    unfold scanVolume
    simp only
    split <;> rfl
  apply Std.ExtTreeMap.ext_getElem?
  intro k
  rw [hmap, recoveredMap_getElem?, readBack]
  split
  · next hk => rw [hk]; exact hck
  · next hk =>
    rw [hag k hk, view, hr, hf, hi hok]
    cases ((scanRangeLoop f).exec recoverStart).2.kv.index[k]? <;> rfl

end Agreement

/-- A header with a key length one past the limit and an empty body, then a record. -/
def oversizedImage : RamFlash where
  data := magic ++ toLe 4 4097 ++ zeros (4608-8) ++ encodeRecord keyA.bytes [1]
  bounded := by simp [encodeRecord_length, magic]; decide

/-- The recovery scan skips the oversized record and finds the next one; the
volume scanner steps into its zero body and stops there. -/
theorem scanVolume_stops_early :
    (scanVolume oversizedImage.data).map.toList = [] ∧
      (recoveredMap oversizedImage).toList = [(keyA, [1])] := by
  decide +kernel

def plainImage : RamFlash where
  data := encodeRecord keyA.bytes [1]
  bounded := by simp [encodeRecord_length]; decide

instance (f : RamFlash) (off : ℕ) : Decidable (JumpsOversized f off) := instDecidableAnd

theorem plainImage_visits (t : RangeScan) (h : Visits (scanRangeLoop plainImage) recoverStart t) :
    t = recoverStart ∨ plainImage.size < t.off+header := by
  have h1 : ((scanRangeLoop plainImage).step recoverStart).elim (fun u => u.off) (fun _ => 512) =
      512 := by decide +kernel
  have hz : plainImage.size = 512 := by decide +kernel
  generalize plainImage = f at *
  induction h with
  | start => exact .inl rfl
  | turn _ hs ih =>
    right
    rcases ih with rfl | hb
    · rw [hs] at h1
      simp only [Sum.elim_inl] at h1
      simp [h1, hz, header]
    · have := (scanRangeStep_off f _ _ hs).1
      omega

theorem scanVolume_eq_recovered_plain :
    (∀ t, Visits (scanRangeLoop plainImage) recoverStart t → ¬ JumpsOversized plainImage t.off) ∧
      (scanVolume plainImage.data).map = recoveredMap plainImage ∧
      (scanVolume plainImage.data).map.toList = [(keyA, [1])] := by
  have hj : ∀ t, Visits (scanRangeLoop plainImage) recoverStart t →
      ¬ JumpsOversized plainImage t.off := by
    intro t ht
    rcases plainImage_visits t ht with rfl | hb
    · decide +kernel
    · exact fun hj => absurd hj.1 (not_le.mpr hb)
  exact ⟨hj, scanVolume_eq_recovered plainImage hj, by decide +kernel⟩

end NeuralOs.TickvVolumeRecovery

/-! ## The volume scanner -/

namespace NeuralOs.TickvVolume
open ByteString MeasuredLoop TickvRecord TickvState TickvMount TickvLog TickvLogUpdate TickvImage
open TickvScanLog

def volume (items : List (Str × Bytes)) : Bytes :=
  items.flatMap (fun p => encodeRecord p.1.bytes p.2)

/-- Last write wins; an empty value removes the key. -/
def lastWins (items : List (Str × Bytes)) (m : StrMap Bytes) : StrMap Bytes :=
  items.foldl (fun m p => if p.2 = [] then m.erase p.1 else m.insert p.1 p.2) m

def lastOffsets : List (Str × Bytes) → ℕ → Index → Index
  | [], _, m => m
  | p::items, off, m => lastOffsets items (off+(encodeRecord p.1.bytes p.2).length)
      (if p.2 = [] then m.erase p.1 else m.insert p.1 off)

section Codec
variable {data : Bytes} {A B : List Rec} {r : Rec}

theorem scanVolume_turn (hi : Image data (A ++ r::B)) (hl : r.live = true)
    (hb : r.big = false) (hc : r.key ≠ ckptKey) (out : ScanResult) :
    scanVolumeStep data ⟨logSize A, out⟩ = .inl ⟨logSize A+r.size, { out with
      map := if r.val = [] then out.map.erase r.key else out.map.insert r.key r.val
      offsets := if r.val = [] then out.offsets.erase r.key
        else out.offsets.insert r.key (logSize A)
      appendOff := max out.appendOff (logSize A+r.size) }⟩ := by
  have hat := at_middle A B r
  have hsm := hi.small r (by simp)
  have hr := r.size_ge
  have hfit := hi.fits
  simp only [logSize_append, logSize_cons] at hfit
  have hflag : r.hdr.getD 3 0 = 0x56 := by simp [Rec.hdr, hl, magicHead]
  have hov : oversized r.key.bytes.length r.val.length = false := hb
  have hcrc : (crc32 r.body).toNat = hdrCrc r.hdr := r.hdrCrc_hdr.symm
  have hkey : r.body.take r.key.bytes.length = r.key.bytes := by simp [Rec.body]
  have hval : r.body.drop r.key.bytes.length = r.val := by simp [Rec.body]
  have h1 : ¬ logSize A+header > data.length := by omega
  have h2 : ¬ logSize A+recordSize r.key.bytes.length r.val.length > data.length := by
    change ¬ logSize A+r.size > data.length
    omega
  simp only [scanVolumeStep, if_neg h1, hi.slice_hdr hat, r.hdrTickvShaped_hdr, Bool.not_true,
    Bool.false_eq_true, if_false, r.hdrKlen_hdr, r.hdrVlen_hdr hsm, hov, if_neg h2, hflag,
    hi.slice_all hat, hcrc, ne_eq, not_true_eq_false, hkey, fromUtf8_bytes, if_neg hc, hval,
    List.length_eq_zero_iff]
  by_cases hv : r.val = [] <;> simp [hv, Rec.size]

theorem scanVolume_end {L : List Rec} (hi : Image data L) (out : ScanResult) :
    ∃ eof, scanVolumeStep data ⟨logSize L, out⟩ = .inr (eof, ⟨logSize L, out⟩) ∧
      (eof = true ∨ data.length < logSize L+header) := by
  by_cases hb : logSize L+header > data.length
  · exact ⟨false, by simp only [scanVolumeStep, if_pos hb], .inr hb⟩
  · refine ⟨true, ?_, .inl rfl⟩
    simp only [scanVolumeStep, if_neg hb, hi.slice_blank (not_lt.mp hb), hdrTickvShaped_zeros,
      hdrBlank_zeros]
    rfl

theorem volume_eq_logBytes (items : List (Str × Bytes)) :
    volume items = logBytes (items.map written) := by
  simp [volume, logBytes, List.flatMap_map, written, Rec.bytes_live]

theorem scanVolume_run (A : List Rec) (items : List (Str × Bytes))
    (hi : Image data (A ++ items.map written))
    (hk : ∀ p ∈ items, p.1.bytes.length ≤ maxKlen ∧ p.2.length ≤ maxVlen ∧ p.1 ≠ ckptKey)
    (out : ScanResult) (ha : out.appendOff ≤ logSize A) :
    ∃ eof, (scanVolumeLoop data).exec ⟨logSize A, out⟩ =
        (eof, ⟨logSize (A ++ items.map written), { out with
          map := lastWins items out.map
          offsets := lastOffsets items (logSize A) out.offsets
          appendOff := if items = [] then out.appendOff else logSize (A ++ items.map written) }⟩) ∧
      (eof = true ∨ data.length < logSize (A ++ items.map written)+header) := by
  induction items generalizing A out with
  | nil =>
    obtain ⟨eof, hs, he⟩ := scanVolume_end (L := A) (by simpa using hi) out
    exact ⟨eof, by rw [exec_stop (scanVolumeLoop data) hs]; simp [lastWins, lastOffsets],
      by simpa using he⟩
  | cons p items ih =>
    obtain ⟨hkl, hvl, hc⟩ := hk p (by simp)
    have hb : (written p).big = false := (oversized_false_iff).mpr ⟨hkl, hvl⟩
    have hs := scanVolume_turn (B := items.map written) (by simpa using hi) rfl hb hc out
    have hsz : logSize A+(written p).size = logSize (A ++ [written p]) := by simp
    have hm : max out.appendOff (logSize A+(written p).size) = logSize (A ++ [written p]) := by
      simp
      omega
    rw [exec_turn (scanVolumeLoop data) hs, hm, hsz]
    obtain ⟨eof, he, hend⟩ := ih (A ++ [written p]) (by simpa using hi)
      (fun q hq => hk q (by simp [hq])) { out with
        map := if (written p).val = [] then out.map.erase p.1 else out.map.insert p.1 p.2
        offsets := if (written p).val = [] then out.offsets.erase p.1
          else out.offsets.insert p.1 (logSize A)
        appendOff := logSize (A ++ [written p]) } (le_refl _)
    refine ⟨eof, he.trans ?_, by simpa using hend⟩
    have hl : (encodeRecord p.1.bytes p.2).length = (written p).size := encodeRecord_length _ _
    have hlog : A ++ (p::items).map written = A ++ [written p] ++ items.map written := by simp
    have hoff : lastOffsets (p::items) (logSize A) out.offsets =
        lastOffsets items (logSize (A ++ [written p])) (if (written p).val = []
          then out.offsets.erase p.1 else out.offsets.insert p.1 (logSize A)) := by
      rw [lastOffsets, hl, hsz]
      rfl
    rw [hlog, hoff]
    by_cases hn : items = []
    · subst hn
      simp only [if_true, List.map_nil, List.append_nil, reduceCtorEq, if_false]
      rfl
    · simp only [if_neg hn, reduceCtorEq, if_false]
      rfl

/-- Every log of encoded records, followed by any number of zero sectors, is
read back as the fold of its writes. -/
theorem scanVolume_encode (items : List (Str × Bytes)) (m : ℕ)
    (hk : ∀ p ∈ items, p.1.bytes.length ≤ maxKlen ∧ p.2.length ≤ maxVlen ∧ p.1 ≠ ckptKey) :
    scanVolume (volume items ++ zeros (512*m)) =
      { map := lastWins items ∅
        offsets := lastOffsets items 0 ∅
        appendOff := (volume items).length
        corrupt := 0
        truncated := false } := by
  have hlen : (volume items).length = logSize (items.map written) := by
    rw [volume_eq_logBytes, logBytes_length]
  have hi : Image (volume items ++ zeros (512*m)) ([] ++ items.map written) := by
    refine image_of_shape ?_ ?_
    · simp [volume_eq_logBytes, logBytes_length]
    intro r hr
    rw [List.nil_append] at hr
    obtain ⟨p, hp, rfl⟩ := List.mem_map.mp hr
    have := (hk p hp).2.1
    simp only [Rec.Small, written]
    unfold maxVlen at this
    omega
  obtain ⟨eof, he, hend⟩ := scanVolume_run [] items hi hk ScanResult.start (le_refl _)
  have hstop : (!eof && decide (logSize (items.map written) <
      (volume items ++ zeros (512*m)).length)) = false := by
    rcases hend with rfl | hlt
    · rfl
    · have hm : m = 0 := by
        simp [hlen, header] at hlt
        omega
      simp [hm, hlen]
  rw [logSize_nil, List.nil_append] at he
  rw [scanVolume, he]
  simp only [hstop, Bool.false_eq_true, if_false, ScanResult.start, hlen]
  by_cases hn : items = []
  · simp [hn]
  · rw [if_neg hn]

def sampleWrites : List (Str × Bytes) := [(keyA, [1]), (keyB, [2]), (keyA, [])]

theorem scanVolume_encode_sample :
    (∀ p ∈ sampleWrites, p.1.bytes.length ≤ maxKlen ∧ p.2.length ≤ maxVlen ∧ p.1 ≠ ckptKey) ∧
    scanVolume (volume sampleWrites ++ zeros (512*1)) =
      { map := lastWins sampleWrites ∅
        offsets := lastOffsets sampleWrites 0 ∅
        appendOff := (volume sampleWrites).length
        corrupt := 0
        truncated := false } ∧
    (lastWins sampleWrites ∅).toList = [(keyB, [2])] := by
  have hk : ∀ p ∈ sampleWrites, p.1.bytes.length ≤ maxKlen ∧ p.2.length ≤ maxVlen ∧
      p.1 ≠ ckptKey := by decide
  exact ⟨hk, scanVolume_encode sampleWrites 1 hk, by decide⟩

end Codec

end NeuralOs.TickvVolume
