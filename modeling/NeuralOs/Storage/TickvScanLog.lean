import NeuralOs.Storage.TickvLog
import NeuralOs.Storage.TickvMount

/-!
# The scanners on a well-formed log

Each scanner moves from record to record: one turn per record, then a stop
at the blank header or at the end of the volume. The run of the loop is the
fold of the records, by induction on the part of the log still ahead. A scan
that runs out of polls stops earlier and has replayed an initial segment.
-/

set_option autoImplicit false

namespace NeuralOs.TickvImage
open ByteString TickvRecord TickvState TickvLog TickvLogUpdate

structure Begins (data : Bytes) (L : List Rec) : Prop where
  start : logBytes L <+: data
  small : ∀ r ∈ L, r.Small

structure Image (data : Bytes) (L : List Rec) : Prop extends Begins data L where
  rest : data.drop (logSize L) = zeros (data.length-logSize L)

section Reading
variable {data : Bytes} {L : List Rec} {o : ℕ} {r : Rec}

theorem Begins.fits (hi : Begins data L) : logSize L ≤ data.length := by
  rw [← logBytes_length]
  exact hi.start.length_le

theorem Begins.split (hi : Begins data L) : data = logBytes L ++ data.drop (logSize L) := by
  obtain ⟨post, rfl⟩ := hi.start
  simp [← logBytes_length]

theorem Image.shape (hi : Image data L) : data = logBytes L ++ zeros (data.length-logSize L) := by
  rw [← hi.rest]
  exact hi.split

theorem Begins.around (hi : Begins data L) (h : At L o r) :
    ∃ pre post, data = pre ++ (r.bytes ++ post) ∧ pre.length = o ∧ o+r.size ≤ data.length := by
  obtain ⟨A, B, rfl, rfl⟩ := h
  obtain ⟨post, rfl⟩ := hi.start
  refine ⟨logBytes A, logBytes B ++ post, ?_, logBytes_length A, ?_⟩
  · simp [logBytes_append, logBytes_cons]
  · simp [logBytes_append, logBytes_cons, logBytes_length, r.bytes_length]

theorem Begins.slice_hdr (hi : Begins data L) (h : At L o r) : slice data o header = r.hdr := by
  obtain ⟨pre, post, hd, rfl, _⟩ := hi.around h
  rw [hd, Rec.bytes, List.append_assoc, ← r.hdr_length]
  exact slice_mid pre r.hdr _

theorem Begins.slice_body (hi : Begins data L) (h : At L o r) (i n : ℕ)
    (hn : i+n ≤ r.body.length) : slice data (o+header+i) n = slice r.body i n := by
  obtain ⟨pre, post, hd, rfl, _⟩ := hi.around h
  have hp : pre.length+header = (pre ++ r.hdr).length := by simp [r.hdr_length]
  rw [hd, Rec.bytes, List.append_assoc, ← List.append_assoc, hp, slice_right, List.append_assoc,
    slice_left hn]

theorem Begins.slice_all (hi : Begins data L) (h : At L o r) :
    slice data (o+header) (r.key.bytes.length+r.val.length) = r.body := by
  have hb := hi.slice_body h 0 r.body.length (by omega)
  rw [← r.body_length]
  simpa [slice] using hb

theorem Image.slice_blank (hi : Image data L) (h : logSize L+header ≤ data.length) :
    slice data (logSize L) header = zeros header := by
  rw [hi.shape, ← logBytes_length L]
  exact (slice_right (logBytes L) _ 0 header).trans
    (slice_zeros _ _ _ (by rw [logBytes_length]; omega))

theorem image_of_shape (hs : data = logBytes L ++ zeros (data.length-logSize L))
    (hsm : ∀ r ∈ L, r.Small) : Image data L := by
  refine ⟨⟨⟨_, hs.symm⟩, hsm⟩, ?_⟩
  conv_lhs => rw [hs]
  rw [← logBytes_length, List.drop_left]

end Reading

section Flash
variable {f : RamFlash} {L : List Rec} {o : ℕ} {r : Rec}

theorem Begins.read_hdr (hf : Begins f.data L) (h : At L o r) : f.read o header = .ok r.hdr := by
  obtain ⟨_, _, _, _, hs⟩ := hf.around h
  have hr := r.size_ge
  rw [RamFlash.read, if_neg (by omega), hf.slice_hdr h]

theorem Begins.read_body (hf : Begins f.data L) (h : At L o r) (i n : ℕ)
    (hn : i+n ≤ r.body.length) : f.read (o+header+i) n = .ok (slice r.body i n) := by
  obtain ⟨_, _, _, _, hs⟩ := hf.around h
  have hr := r.size_ge
  rw [RamFlash.read, if_neg (by omega), hf.slice_body h i n hn]

theorem Begins.read_all (hf : Begins f.data L) (h : At L o r) :
    f.read (o+header) (r.key.bytes.length+r.val.length) = .ok r.body := by
  have hb := hf.read_body h 0 r.body.length (by omega)
  rw [← r.body_length]
  simpa [slice] using hb

abbrev Holds (f : RamFlash) (L : List Rec) : Prop := Image f.data L

theorem holds_new (n : ℕ) (h : n < 2^63) : Holds (RamFlash.new n h) [] :=
  image_of_shape (by simp [RamFlash.new, logBytes]) (by simp)

theorem Image.read_blank (hf : Holds f L) (h : logSize L+header ≤ f.size) :
    f.read (logSize L) header = .ok (zeros header) := by
  rw [RamFlash.read, if_neg (by unfold RamFlash.size at h; omega), hf.slice_blank h]

end Flash

theorem hdrBlank_zeros (n : ℕ) : hdrBlank (zeros n) = true := by
  simp [hdrBlank, zeros]

theorem hdrTickvShaped_zeros (n : ℕ) : hdrTickvShaped (zeros n) = false := by
  have ht : (zeros n).take 3 ≠ magicHead := by
    intro h
    have hm : (0x54 : UInt8) ∈ (zeros n).take 3 := by rw [h]; decide
    simpa [zeros] using List.mem_of_mem_take hm
  simp [hdrTickvShaped, hdrValid, hdrInvalidated, ht]

theorem holds_kill {f : RamFlash} {L : List Rec} {o : ℕ} {r : Rec} (hf : Holds f L) (h : At L o r) :
    ∃ g, f.write (o+3) [0] = .ok g ∧ Holds g (killAt o L) ∧ g.size = f.size := by
  obtain ⟨A, B, rfl, rfl⟩ := h
  have hs := r.size_sector
  have hfit := hf.fits
  simp only [logSize_append, logSize_cons] at hfit
  obtain ⟨g, hg, hd, hsz⟩ := f.write_ok (logSize A+3) [0] (by
    unfold RamFlash.size
    simp
    omega)
  refine ⟨g, hg, image_of_shape ?_ ?_, hsz⟩
  · have hlen : g.data.length = f.data.length := hsz
    rw [hd, killAt_middle, ← hd, hlen, hd]
    conv_lhs => rw [hf.shape]
    rw [logBytes_append, logBytes_cons, List.append_assoc, ← logBytes_length A,
      patch_right, List.append_assoc,
      patch_left (by rw [r.bytes_length]; simp; omega), r.patch_kill]
    simp [logBytes_append, logBytes_cons]
  · intro x hx
    obtain ⟨y, hy, rfl | rfl⟩ := mem_killAt hx
    · exact hf.small _ hy
    · exact hf.small y hy

theorem start_append {f : RamFlash} {L : List Rec} {r : Rec} (hf : logBytes L <+: f.data)
    (h : logSize L+r.size ≤ f.size) :
    ∃ g, f.write (logSize L) r.bytes = .ok g ∧ logBytes (L ++ [r]) <+: g.data ∧
      g.size = f.size ∧ g.data.drop (logSize L+r.size) = f.data.drop (logSize L+r.size) := by
  obtain ⟨g, hg, hd, hsz⟩ := f.write_ok (logSize L) r.bytes (by rw [r.bytes_length]; exact h)
  have hp : g.data = logBytes (L ++ [r]) ++ f.data.drop (logSize L+r.size) := by
    obtain ⟨post, hpost⟩ := hf
    have ht : f.data.take (logSize L) = logBytes L := by
      rw [← hpost, ← logBytes_length, List.take_left]
    rw [hd, patch, r.bytes_length, ht]
    simp [logBytes]
  refine ⟨g, hg, ⟨_, hp.symm⟩, hsz, ?_⟩
  have hl : logSize L+r.size = (logBytes (L ++ [r])).length := by
    rw [logBytes_length]
    simp
  conv_lhs => rw [hp]
  conv_lhs => arg 1; rw [hl]
  rw [List.drop_left]

theorem small_append {L : List Rec} {r : Rec} (hL : ∀ x ∈ L, x.Small) (hr : r.Small) :
    ∀ x ∈ L ++ [r], x.Small := by
  intro x hx
  rcases List.mem_append.mp hx with hx | hx
  · exact hL x hx
  · rw [List.mem_singleton.mp hx]
    exact hr

theorem holds_append {f : RamFlash} {L : List Rec} {r : Rec} (hf : Holds f L) (hr : r.Small)
    (h : logSize L+r.size ≤ f.size) :
    ∃ g, f.write (logSize L) r.bytes = .ok g ∧ Holds g (L ++ [r]) ∧ g.size = f.size := by
  obtain ⟨g, hg, hb, hsz, hd⟩ := start_append hf.start h
  refine ⟨g, hg, ⟨⟨hb, small_append hf.small hr⟩, ?_⟩, hsz⟩
  have hlen : g.data.length = f.data.length := hsz
  rw [logSize_append, logSize_cons, logSize_nil, Nat.add_zero, hd, hlen, ← List.drop_drop, hf.rest]
  simp [zeros]
  omega

end NeuralOs.TickvImage

/-! ## The scanners on a well-formed log -/

namespace NeuralOs.TickvScanLog
open ByteString MeasuredLoop TickvRecord TickvState TickvStore TickvMount TickvLog TickvLogUpdate
open TickvImage

variable {f : RamFlash} {A B : List Rec} {r : Rec}

theorem at_middle (A B : List Rec) (r : Rec) : At (A ++ r::B) (logSize A) r := ⟨A, B, rfl, rfl⟩

theorem begins_bound (hf : Begins f.data (A ++ r::B)) :
    ¬ logSize A+header > f.size ∧ ¬ logSize A+r.size > f.size := by
  have hfit : logSize (A ++ r::B) ≤ f.size := hf.fits
  have hs := r.size_ge
  simp only [logSize_append, logSize_cons] at hfit
  omega

theorem applyRecord_index (kv : TickvLite) (key : Str) (vlen off total : ℕ) :
    ∃ st, applyRecord kv key vlen off total = { kv with
      index := if vlen = 0 then kv.index.erase key else kv.index.insert key off
      stats := st } := by
  unfold applyRecord
  split
  · split
    · exact ⟨_, rfl⟩
    · next h =>
      -- erasing an absent key changes nothing
      exact ⟨kv.stats, by rw [erase_absent kv.index key (by simpa using h)]⟩
  · unfold TickvLite.enter
    simp only
    split <;> exact ⟨_, rfl⟩

theorem scanRange_turn (hf : Begins f.data (A ++ r::B)) (kv : TickvLite) (polls : Option ℕ)
    (hp : expired polls = false) :
    ∃ st, scanRangeStep f ⟨logSize A, kv, polls⟩ = .inl ⟨logSize A+r.size,
      { kv with index := r.apply kv.index (logSize A), stats := st }, ticked polls⟩ := by
  have hat := at_middle A B r
  have hsm := hf.small r (by simp)
  obtain ⟨hb, ht⟩ := begins_bound hf
  have hc : (crc32 r.body).toNat = hdrCrc r.hdr := r.hdrCrc_hdr.symm
  unfold scanRangeStep
  simp only [if_neg hb, hp, Bool.false_eq_true, if_false, hf.read_hdr hat,
    r.hdrTickvShaped_hdr, Bool.not_true, r.hdrKlen_hdr, r.hdrVlen_hdr hsm]
  by_cases ho : oversized r.key.bytes.length r.val.length = true
  · have hadv : advanceOversized (logSize A) r.key.bytes.length r.val.length f.size =
        logSize A+r.size := by
      have hs := r.size_sector
      simp only [advanceOversized]
      exact if_pos ⟨hs, not_lt.mp ht⟩
    rw [if_pos ho, hadv]
    exact ⟨_, by simp [Rec.apply, Rec.big, ho, TickvLite.countCorrupt]; rfl⟩
  have hbig : r.big = false := by simpa [Rec.big] using ho
  rw [if_neg ho, if_neg (show ¬ logSize A+recordSize _ _ > f.size from ht), r.hdrInvalidated_hdr]
  cases hl : r.live with
  | false =>
    exact ⟨_, by simp [Rec.apply, hl, TickvLite.addDead]; exact ⟨rfl, rfl⟩⟩
  | true =>
    simp only [Bool.not_true, Bool.false_eq_true, if_false, hf.read_all hat, hc, ne_eq,
      not_true_eq_false, if_false]
    have hk : r.body.take r.key.bytes.length = r.key.bytes := by simp [Rec.body]
    rw [hk, fromUtf8_bytes]
    obtain ⟨st, hst⟩ := applyRecord_index kv r.key r.val.length (logSize A)
      (recordSize r.key.bytes.length r.val.length)
    refine ⟨st, ?_⟩
    simp only [hst, Rec.apply, hl, hbig, List.length_eq_zero_iff, Bool.not_true, Bool.or_self,
      Bool.false_eq_true, if_false]
    rfl

theorem scanRange_end {L : List Rec} (hf : Holds f L) (kv : TickvLite) (polls : Option ℕ) :
    ∃ d polls', scanRangeStep f ⟨logSize L, kv, polls⟩ =
      .inr (.ok (), ⟨logSize L, { kv with degraded := d }, polls'⟩) ∧
      (d = true ∨ d = kv.degraded) ∧ (polls = none → d = kv.degraded) := by
  unfold scanRangeStep
  by_cases hb : logSize L+header > f.size
  · exact ⟨kv.degraded, polls, by simp only [if_pos hb], .inr rfl, fun _ => rfl⟩
  simp only [if_neg hb]
  cases hp : expired polls with
  | true =>
    refine ⟨true, polls, rfl, .inl rfl, ?_⟩
    rintro rfl
    cases hp
  | false =>
    refine ⟨kv.degraded, ticked polls, ?_, .inr rfl, fun _ => rfl⟩
    simp only [hf.read_blank (not_lt.mp hb), hdrTickvShaped_zeros, hdrBlank_zeros]
    rfl

/-- What a recovery scan from a record boundary returns: the records of some
initial segment replayed, all of them unless the scan timed out. -/
structure Scanned (A B : List Rec) (kv : TickvLite) (polls : Option ℕ)
    (out : Result Unit × RangeScan) : Prop where
  ok : out.1 = .ok ()
  run : ∃ m st d, out.2.kv = { kv with
      index := replay (B.take m) (logSize A) kv.index, degraded := d, stats := st } ∧
    (d = true ∨ d = kv.degraded ∧ m = B.length ∧ out.2.off = logSize (A ++ B)) ∧
    (polls = none → d = kv.degraded ∧ m = B.length ∧ out.2.off = logSize (A ++ B))

theorem scanRange_log (A B : List Rec) (hf : Holds f (A ++ B)) (kv : TickvLite) (polls : Option ℕ) :
    Scanned A B kv polls ((scanRangeLoop f).exec ⟨logSize A, kv, polls⟩) := by
  induction B generalizing A kv polls with
  | nil =>
    obtain ⟨d, polls', hs, hd, hn⟩ := scanRange_end (L := A) (by simpa using hf) kv polls
    rw [exec_stop (scanRangeLoop f) hs]
    refine ⟨rfl, 0, kv.stats, d, ?_, ?_, ?_⟩
    · simp [replay]
    · rcases hd with hd | hd
      · exact .inl hd
      · exact .inr ⟨hd, rfl, by simp⟩
    · intro hp
      exact ⟨hn hp, rfl, by simp⟩
  | cons r B ih =>
    cases hp : expired polls with
    | true =>
      have hb := (begins_bound hf.toBegins).1
      have hs : scanRangeStep f ⟨logSize A, kv, polls⟩ =
          .inr (.ok (), ⟨logSize A, { kv with degraded := true }, polls⟩) := by
        unfold scanRangeStep
        simp only [if_neg hb, hp, if_true]
      rw [exec_stop (scanRangeLoop f) hs]
      refine ⟨rfl, 0, kv.stats, true, by simp [replay], .inl rfl, ?_⟩
      rintro rfl
      cases hp
    | false =>
      obtain ⟨st, hs⟩ := scanRange_turn hf.toBegins kv polls hp
      rw [exec_turn (scanRangeLoop f) hs]
      have hsz : logSize A+r.size = logSize (A ++ [r]) := by simp
      rw [hsz]
      have hi := ih (A ++ [r]) (by simpa using hf)
        { kv with index := r.apply kv.index (logSize A), stats := st } (ticked polls)
      obtain ⟨hok, m, st', d, hkv, hd, hn⟩ := hi
      refine ⟨hok, m+1, st', d, ?_, ?_, ?_⟩
      · rw [hkv, ← hsz]
        simp [replay]
      · rcases hd with hd | ⟨hd, hm, ho⟩
        · exact .inl hd
        · exact .inr ⟨hd, by simp [hm], by simpa using ho⟩
      · rintro rfl
        obtain ⟨hd, hm, ho⟩ := hn rfl
        exact ⟨hd, by simp [hm], by simpa using ho⟩

theorem scanRange_result (A B : List Rec) (hf : Holds f (A ++ B)) (kv : TickvLite)
    (hk : kv.degraded = false) (polls : Option ℕ) :
    ∃ m st d p, scanRange f kv (logSize A) true polls = (.ok (), { kv with
        index := replay (B.take m) (logSize A) kv.index
        appendOff := if d then f.size else logSize (A ++ B)
        degraded := d
        stats := st }, p) ∧ (d = false → m = B.length) ∧ (polls = none → d = false) := by
  obtain ⟨hok, m, st, d, hkv, hd, hn⟩ := scanRange_log A B hf kv polls
  generalize hout : (scanRangeLoop f).exec ⟨logSize A, kv, polls⟩ = out at hok hkv hd hn
  obtain ⟨res, s⟩ := out
  obtain rfl : res = .ok () := hok
  simp only at hkv hd hn
  unfold scanRange
  simp only [if_true, hout, hkv, TickvLite.recomputeLiveEstimate]
  have ho : (if d then f.size else s.off) = if d then f.size else logSize (A ++ B) := by
    cases d with
    | true => rfl
    | false =>
      rcases hd with hd | ⟨_, _, ho⟩
      · cases hd
      · exact ho
  rw [ho]
  refine ⟨m, _, d, s.polls, rfl, ?_, fun hp => (hn hp).1.trans hk⟩
  rintro rfl
  rcases hd with hd | ⟨_, hm, _⟩
  · cases hd
  · exact hm

theorem recover_result {L : List Rec} (hf : Holds f L) (kv : TickvLite)
    (hk : kv.degraded = false) (polls : Option ℕ) :
    ∃ m st d p, recover f kv polls = (.ok (), { kv with
        index := replay (L.take m) 0 ∅
        appendOff := if d then f.size else logSize L
        degraded := d
        stats := st }, p) ∧ (d = false → m = L.length) ∧ (polls = none → d = false) :=
  scanRange_result [] L hf { kv with
    index := ∅
    appendOff := 0
    stats := { kv.stats with liveBytes := 0, deadBytes := 0 } } hk polls

def fresh : TickvLite := { TickvLite.new with backend := .ram }

theorem recoverMount_exec {w : World} {s : RangeScan}
    (he : (scanRangeLoop w.flash).exec ⟨0, fresh, none⟩ = (.ok (), s)) :
    (recoverMount w none).kv.ready = true ∧ (recoverMount w none).kv.index = s.kv.index ∧
      (recoverMount w none).kv.appendOff = if s.kv.degraded then w.flash.size else s.off := by
  have hreset : ({ fresh with
      index := ∅
      appendOff := 0
      stats := { fresh.stats with liveBytes := 0, deadBytes := 0 } } : TickvLite) = fresh := rfl
  have hr : (recover w.flash fresh none).2.1 = { s.kv with
      appendOff := if s.kv.degraded then w.flash.size else s.off }.recomputeLiveEstimate := by
    simp only [recover, scanRange, Bool.false_eq_true, if_false, hreset, he]
  have hk : (recoverMount w none).kv =
      { (recover w.flash fresh none).2.1 with ready := true } := rfl
  rw [hk, hr]
  exact ⟨rfl, rfl, rfl⟩

def lastCkpt (L : List Rec) (found : Option Bytes) : Option Bytes :=
  L.foldl (fun found r => if r.isCkpt then some r.val else found) found

theorem ckptScan_turn (hf : Holds f (A ++ r::B)) (found : Option Bytes) (polls : Option ℕ)
    (hp : expired polls = false) :
    ckptScanStep f ⟨logSize A, found, polls⟩ =
      .inl ⟨logSize A+r.size, if r.isCkpt then some r.val else found, ticked polls⟩ := by
  have hat := at_middle A B r
  have hsm := hf.small r (by simp)
  obtain ⟨hb, ht⟩ := begins_bound hf.toBegins
  unfold ckptScanStep
  simp only [if_neg hb, hp, Bool.false_eq_true, if_false, hf.read_hdr hat,
    r.hdrTickvShaped_hdr, Bool.not_true, r.hdrKlen_hdr, r.hdrVlen_hdr hsm]
  by_cases ho : oversized r.key.bytes.length r.val.length = true
  · have hadv : advanceOversized (logSize A) r.key.bytes.length r.val.length f.size =
        logSize A+r.size := by
      simp only [advanceOversized]
      exact if_pos ⟨r.size_sector, not_lt.mp ht⟩
    rw [if_pos ho, hadv]
    simp [Rec.isCkpt, Rec.big, ho]
  have hbig : r.big = false := by simpa [Rec.big] using ho
  have hkey : f.read (logSize A+header) r.key.bytes.length = .ok r.key.bytes := by
    have h := hf.read_body hat 0 r.key.bytes.length (by rw [r.body_length]; omega)
    simpa [slice, Rec.body] using h
  have hval : f.read (logSize A+header+r.key.bytes.length) r.val.length = .ok r.val := by
    have h := hf.read_body hat r.key.bytes.length r.val.length (by rw [r.body_length])
    simpa [slice, Rec.body] using h
  have hc : (crc32 (r.key.bytes ++ r.val)).toNat = hdrCrc r.hdr := r.hdrCrc_hdr.symm
  rw [if_neg ho, if_neg (show ¬ logSize A+recordSize _ _ > f.size from ht)]
  simp only [hkey, fromUtf8_bytes, Option.some.injEq, hval, hc, if_true]
  by_cases hi : r.key = ckptKey ∧ 24 ≤ r.val.length
  · have hy : r.isCkpt = true := by
      simp only [Rec.isCkpt, hbig, decide_eq_true hi.1, decide_eq_true hi.2, Bool.not_false,
        Bool.and_true]
    rw [if_pos hi, hy]
    simp only [if_true]
    rfl
  · rw [if_neg hi]
    have hn : r.isCkpt = false := by
      simp only [Rec.isCkpt, hbig, Bool.not_false, Bool.and_true, Bool.and_eq_false_iff,
        decide_eq_false_iff_not]
      exact not_and_or.mp hi
    simp only [hn, Bool.false_eq_true, if_false]
    rfl

theorem ckptScan_log (A B : List Rec) (hf : Holds f (A ++ B)) (found : Option Bytes)
    (polls : Option ℕ) :
    (∃ s, (ckptScanLoop f).exec ⟨logSize A, found, polls⟩ = (.ok (), s) ∧
        s.found = lastCkpt B found ∧ (polls = none → s.polls = none)) ∨
      (∃ s, (ckptScanLoop f).exec ⟨logSize A, found, polls⟩ = (.error .ckptScanTimeout, s)) ∧
        polls ≠ none := by
  induction B generalizing A found polls with
  | nil =>
    rw [List.append_nil] at hf
    by_cases hb : logSize A+header > f.size
    · have hs : ckptScanStep f ⟨logSize A, found, polls⟩ =
          .inr (.ok (), ⟨logSize A, found, polls⟩) := by
        unfold ckptScanStep
        simp only [if_pos hb]
      exact .inl ⟨_, exec_stop (ckptScanLoop f) hs, rfl, fun h => h⟩
    cases hp : expired polls with
    | true =>
      have hs : ckptScanStep f ⟨logSize A, found, polls⟩ =
          .inr (.error .ckptScanTimeout, ⟨logSize A, found, polls⟩) := by
        unfold ckptScanStep
        simp only [if_neg hb, hp, if_true]
      exact .inr ⟨⟨_, exec_stop (ckptScanLoop f) hs⟩, by rintro rfl; cases hp⟩
    | false =>
      have hs : ckptScanStep f ⟨logSize A, found, polls⟩ =
          .inr (.ok (), ⟨logSize A, found, ticked polls⟩) := by
        unfold ckptScanStep
        simp only [if_neg hb, hp, hf.read_blank (not_lt.mp hb), hdrTickvShaped_zeros,
          hdrBlank_zeros]
        rfl
      exact .inl ⟨_, exec_stop (ckptScanLoop f) hs, rfl, by rintro rfl; rfl⟩
  | cons r B ih =>
    cases hp : expired polls with
    | true =>
      have hb := (begins_bound hf.toBegins).1
      have hs : ckptScanStep f ⟨logSize A, found, polls⟩ =
          .inr (.error .ckptScanTimeout, ⟨logSize A, found, polls⟩) := by
        unfold ckptScanStep
        simp only [if_neg hb, hp, if_true]
      exact .inr ⟨⟨_, exec_stop (ckptScanLoop f) hs⟩, by rintro rfl; cases hp⟩
    | false =>
      rw [exec_turn (ckptScanLoop f) (ckptScan_turn hf found polls hp)]
      have hsz : logSize A+r.size = logSize (A ++ [r]) := by simp
      rw [hsz]
      rcases ih (A ++ [r]) (by simpa using hf) (if r.isCkpt then some r.val else found)
        (ticked polls) with ⟨s, he, hs, hn⟩ | ⟨he, hn⟩
      · exact .inl ⟨s, he, hs, by rintro rfl; exact hn rfl⟩
      · exact .inr ⟨he, by rintro rfl; exact hn rfl⟩

end NeuralOs.TickvScanLog
