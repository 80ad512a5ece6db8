import NeuralOs.Storage.TickvFailure

/-!
# What the writer accepts and the scanner finds

`put` takes keys and values of any length. The full scan skips records past
its limits and takes an empty value for a deletion. So whatever stands on the
flash, a recovery returns only values within the limits; and what was put
within them comes back, also when the put ends in a compaction.
-/

set_option autoImplicit false

namespace NeuralOs.TickvLimits
open ByteString MeasuredLoop TickvRecord TickvState TickvStore TickvMount TickvLog TickvLogUpdate
open TickvImage TickvScanLog LogStore TickvRefine TickvCompaction TickvOperation TickvSnapshot
open TickvSafety TickvTrace TickvRegular TickvFailure

def InLimits (key : Str) (val : Bytes) : Prop :=
  key.bytes.length ≤ maxKlen ∧ val ≠ [] ∧ val.length ≤ maxVlen

instance (key : Str) (val : Bytes) : Decidable (InLimits key val) := by
  unfold InLimits
  infer_instance

section Scan
variable {f : RamFlash}

/-- The header at an indexed offset is within the limits and has the length of the key. -/
def Within (f : RamFlash) (kv : TickvLite) : Prop :=
  ∀ (k : Str) (o : ℕ), kv.index[k]? = some o → ∃ hdr, f.read o header = .ok hdr ∧
    oversized (hdrKlen hdr) (hdrVlen hdr) = false ∧ hdrVlen hdr ≠ 0 ∧
      k.bytes.length = hdrKlen hdr

theorem within_same {kv kv' : TickvLite} (h : Within f kv) (hi : kv'.index = kv.index) :
    Within f kv' := by
  unfold Within
  rw [hi]
  exact h

theorem within_applyRecord {kv : TickvLite} (h : Within f kv) {key : Str} {off total : ℕ}
    {hdr : Bytes} (hr : f.read off header = .ok hdr)
    (hb : oversized (hdrKlen hdr) (hdrVlen hdr) = false)
    (hk : key.bytes.length = hdrKlen hdr) :
    Within f (applyRecord kv key (hdrVlen hdr) off total) := by
  obtain ⟨st, he⟩ := applyRecord_index kv key (hdrVlen hdr) off total
  intro l o ho
  rw [he] at ho
  simp only at ho
  split at ho
  · rw [get_erase] at ho
    split at ho
    · cases ho
    · exact h l o ho
  · next hv =>
    rw [get_insert] at ho
    split at ho
    · next hl =>
      cases ho
      exact ⟨hdr, hr, hb, hv, by rw [hl, hk]⟩
    · exact h l o ho

theorem read_length {off n : ℕ} {b : Bytes} (h : f.read off n = .ok b) : b.length = n := by
  unfold RamFlash.read at h
  split at h
  · cases h
  · next hle =>
    cases h
    exact slice_length _ _ _ (not_lt.mp hle)

theorem within_turn {s t : RangeScan} (h : Within f s.kv) (hs : scanRangeStep f s = .inl t) :
    Within f t.kv := by
  unfold scanRangeStep at hs
  split at hs
  · cases hs
  split at hs
  · cases hs
  split at hs
  · cases hs
  next hdr hhdr =>
  simp only at hs
  split at hs
  · split at hs
    · cases hs
    · cases hs
      exact within_same h rfl
  split at hs
  · cases hs
    exact within_same h rfl
  next hbig =>
  split at hs
  · cases hs
  split at hs
  · cases hs
    exact within_same h rfl
  split at hs
  · cases hs
  next body hbody =>
  split at hs
  · cases hs
    exact within_same h rfl
  split at hs
  · cases hs
    exact within_same h rfl
  next key hkey =>
  cases hs
  refine within_applyRecord h hhdr (by simpa using hbig) ?_
  have hl := read_length hbody
  rw [fromUtf8_some hkey, List.length_take, hl]
  omega

theorem within_stop {s : RangeScan} {r : Result Unit × RangeScan} (h : Within f s.kv)
    (hs : scanRangeStep f s = .inr r) : Within f r.2.kv := by
  unfold scanRangeStep at hs
  simp only at hs
  repeat' split at hs
  all_goals cases hs
  all_goals exact within_same h rfl

theorem within_scan (s : RangeScan) (h : Within f s.kv) :
    Within f ((scanRangeLoop f).exec s).2.kv :=
  exec_rule (scanRangeLoop f) (fun s r => Within f s.kv → Within f r.2.kv)
    (fun _ _ hs h => within_stop h hs) (fun _ _ _ hs ih h => ih (within_turn h hs)) s h

theorem within_recover (kv : TickvLite) (polls : Option ℕ) : Within f (recover f kv polls).2.1 := by
  have h0 : Within f { kv with
      index := ∅
      appendOff := 0
      stats := { kv.stats with liveBytes := 0, deadBytes := 0 } } := by
    intro k o ho
    simp at ho
  have h := within_scan ⟨0, _, polls⟩ h0
  unfold recover scanRange
  simp only [Bool.false_eq_true, if_false]
  split
  · next he =>
    rw [he] at h
    exact h
  · next he =>
    rw [he] at h
    exact within_same h rfl

theorem recovered_inLimits {w : World} {polls : Option ℕ} {k : Str} {v : Bytes}
    (h : view (recoverMount w polls) k = .ok v) : InLimits k v := by
  have hw : Within w.flash (recoverMount w polls).kv :=
    within_same (within_recover { TickvLite.new with backend := .ram } polls) rfl
  unfold view at h
  simp only [show (recoverMount w polls).kv.ready = true from rfl, Bool.not_true,
    Bool.false_eq_true, if_false] at h
  cases ho : (recoverMount w polls).kv.index[k]? with
  | none => simp [ho] at h
  | some o =>
    obtain ⟨hdr, hr, hb, hv, hk⟩ := hw k o ho
    have hlim := (oversized_false_iff).mp hb
    simp only [ho, readRecord, show (recoverMount w polls).flash = w.flash from rfl, hr] at h
    split at h
    · cases h
    split at h
    · cases h
    next body hbody =>
    split at h
    · cases h
    cases h
    have hlen : (body.drop (hdrKlen hdr)).length = hdrVlen hdr := by
      rw [List.length_drop, read_length hbody]
      omega
    refine ⟨hk ▸ hlim.1, ?_, hlen ▸ hlim.2⟩
    intro he
    rw [he] at hlen
    exact hv hlen.symm

end Scan

section Recovery
variable {w : World} {s : Store} {k : Str} {v : Bytes}

theorem recovered_last {A B : List Rec} (hf : Holds w.flash (A ++ written (k, v)::B))
    (hl : InLimits k v) (hB : ∀ r ∈ B, r.key ≠ k) :
    view (recoverMount w none) k = .ok v := by
  obtain ⟨m, st, d, p, he, hm, hd⟩ := recover_result hf
    { TickvLite.new with backend := .ram } rfl none
  rw [hm (hd rfl), List.take_length] at he
  have hbig : (written (k, v)).big = false := (oversized_false_iff).mpr ⟨hl.1, hl.2.2⟩
  have happly : (written (k, v)).apply (replay A 0 ∅) (0+logSize A) =
      (replay A 0 ∅).insert k (0+logSize A) := by
    rw [Rec.apply, hbig]
    simp [written, hl.2.1]
  have hi : (recoverMount w none).kv.index[k]? = some (logSize A) := by
    simp only [recoverMount, he]
    rw [replay_append, replay, replay_other fun r hr _ => hB r hr, happly, get_insert, if_pos rfl,
      Nat.zero_add]
  have hr := readRecord_at hf.toBegins (at_middle A B (written (k, v)))
  unfold view
  simp only [show (recoverMount w none).kv.ready = true from rfl, Bool.not_true,
    Bool.false_eq_true, if_false, hi]
  exact hr

theorem recovered_compact (h : Sees w s.compact.2) (h512 : 512 ≤ s.size)
    (hv : s.value k = some v) (hk : k ≠ ckptKey) (hl : InLimits k v) :
    view (recoverMount w none) k = .ok v := by
  obtain ⟨X, Y, hXY⟩ := List.append_of_mem (Store.mem_live.mpr ⟨hv, hl.2.1⟩ : (k, v) ∈ s.live)
  have hn := Store.live_nodup (s := s)
  rw [hXY, List.map_append, List.map_cons] at hn
  have hY : ∀ r ∈ Y.map written, r.key ≠ k := by
    intro r hr he
    obtain ⟨p, hp, rfl⟩ := List.mem_map.mp hr
    have hnot := (List.nodup_cons.mp (List.nodup_append.mp hn).2.1).1
    exact hnot (List.mem_map.mpr ⟨p, hp, he⟩)
  have hrecs : s.rewrite.2.recs = X.map written ++ written (k, v)::Y.map written := by
    rw [s.rewrite_eq.2.1, hXY, List.map_append, List.map_cons]
  rw [Store.compact_eq h512] at h
  rcases s.rewrite.2.writeCkpt_cases with ⟨-, he, -⟩ | ⟨hf, he⟩
  · have hh := h.holds
    rw [he, hrecs] at hh
    exact recovered_last hh hl hY
  have hh := h.holds
  simp only [he, Store.append, hrecs, List.append_assoc, List.cons_append] at hh
  refine recovered_last hh hl fun r hr => ?_
  rcases List.mem_append.mp hr with hr | hr
  · exact hY r hr
  · rw [List.mem_singleton.mp hr]
    exact fun hc => hk hc.symm

theorem recovered_append (h : Sees w s) {p : Str × Bytes} {t : Store}
    (hf : t.tail+(written p).size ≤ t.size) (hs : s = t.append p hf) (hl : InLimits p.1 p.2) :
    view (recoverMount w none) p.1 = .ok p.2 := by
  have hh := h.holds
  rw [hs] at hh
  exact recovered_last (A := t.recs) (B := []) hh hl (by simp)

theorem recovered_flush {b : Bool} {t s' : Store} (h : Sees w s') {p : Str × Bytes}
    (hf : t.tail+(written p).size ≤ t.size) (hfl : Flush w (t.append p hf) b s')
    (hk : p.1 ≠ ckptKey) (hl : InLimits p.1 p.2) : view (recoverMount w none) p.1 = .ok p.2 := by
  cases hfl with
  | quiet => exact recovered_append h hf rfl hl
  | compact _ =>
    by_cases h512 : (t.append p hf).size < 512
    · rw [Store.compact, if_pos h512] at h
      exact recovered_append h hf rfl hl
    · have hat : At (t.append p hf).recs t.tail (written p) := ⟨t.recs, [], rfl, t.room _ hf⟩
      have hv : (t.append p hf).value p.1 = some p.2 :=
        Store.value_eq_some.mpr ⟨t.tail, written p, by
          simp only [Store.append, get_insert, if_pos], hat, rfl, rfl⟩
      exact recovered_compact h (not_lt.mp h512) hv hk hl

/-- No compaction can follow a put in this state. -/
def Calm (w : World) (key : Str) (val : Bytes) : Prop :=
  w.kv.appendOff+recordSize key.bytes.length val.length ≤ highWater ∨ w.kv.hwLatched = true ∨
    w.gcSuspended = true

theorem highWater_calm (hc : w.compacting = false)
    (h : w.kv.appendOff ≤ highWater ∨ w.kv.hwLatched = true ∨ w.gcSuspended = true)
    (hs : Sees w s) : Sees (maybeHighWaterFlush w) s := by
  unfold maybeHighWaterFlush maybeHighWaterFlushWith
  rw [hc]
  split
  · exact hs
  · next hn =>
    have hg : w.gcSuspended = true := by tauto
    simp only [World.gcAllowed, hg, Bool.not_true, Bool.and_false, Bool.not_false, if_true,
      Bool.false_eq_true, if_false]
    exact hs.same rfl rfl rfl rfl

theorem put_ckpt (h : Running w s) (hc : Calm w ckptKey v) (hv : v.length < 2^32)
    (hok : (put w ckptKey v).1 = .ok ()) :
    ∃ hf, Sees (put w ckptKey v).2 (s.append (ckptKey, v) hf) := by
  by_cases hf : s.tail+(written (ckptKey, v)).size ≤ s.size
  · refine ⟨hf, ?_⟩
    obtain ⟨g, st, d, -, he⟩ := putRaw_room w ckptKey v (by rw [h.tail, h.size]; exact hf)
    obtain ⟨w', he', h'⟩ := putRaw_sees h.toSees (ckptKey, v) hf hv
    have hw' := he'.symm.trans he
    have hlock : ckptKey ≠ gcLockKey := by decide
    simp only [put, h.ready, Bool.not_true, Bool.false_eq_true, if_false, ne_eq, not_true_eq_false,
      false_and, he', hlock, not_false_eq_true, if_true]
    obtain rfl := congrArg Prod.snd hw'
    exact highWater_calm h.idle hc h'
  · have hfull := putRaw_full w ckptKey v (by rw [h.tail, h.size]; exact not_le.mp hf)
    simp [put, h.ready, hfull] at hok

theorem put_recovered (h : Running w s) (ha : Aligned s) (hl : InLimits k v)
    (hs : ShortWrites (put w k v).2) (hc : k = ckptKey → Calm w k v)
    (hok : (put w k v).1 = .ok ()) : view (recoverMount (put w k v).2 none) k = .ok v := by
  have hlen : v.length < 2^32 := hl.2.2.trans_lt (by decide)
  by_cases hk : k = ckptKey
  · subst hk
    obtain ⟨hf, h'⟩ := put_ckpt h (hc rfl) hlen hok
    exact recovered_append h' hf rfl hl
  rw [put_eq_putBatch] at hs hok ⊢
  cases hb : (batch s [(k, v)]).1 with
  | false =>
    obtain ⟨e, w', he, -⟩ := putBatch_full h.toSees _ hs hb
    rw [he] at hok
    cases hok
  | true =>
    obtain ⟨w', b, s', he, h', hfl, -⟩ := putBatch_room h.toSees h.idle h.fast ha _ hs hb
    rw [he]
    obtain ⟨t, hf, ht⟩ : ∃ (t : Store) (hf : t.tail+(written (k, v)).size ≤ t.size),
        (batch s [(k, v)]).2 = t.append (k, v) hf := by
      rw [batch, Store.appendAll] at hb ⊢
      split at hb
      · next hf => exact ⟨_, hf, by rw [dif_pos hf]; rfl⟩
      · cases hb
    rw [ht] at hfl
    exact recovered_flush h' hf hfl hk hl

end Recovery

/-- In the states that runs reach, a put that succeeded is read back after a full
recovery exactly if its key and value are within the limits of the scan. -/
theorem put_recovered_iff (n : ℕ) (h : n < 2^63) (ops : List Op)
    (hd : 512 ∣ n ∨ ∀ op ∈ ops, PlainOp op) (hf : NoForgery ops)
    (hn : Renews (run (start n h) ops)) (k : Str) (v : Bytes)
    (hs : InLimits k v → ShortWrites (put (run (start n h) ops) k v).2)
    (hc : k = ckptKey → Calm (run (start n h) ops) k v)
    (hok : (put (run (start n h) ops) k v).1 = .ok ()) :
    view (recoverMount (put (run (start n h) ops) k v).2 none) k = .ok v ↔ InLimits k v := by
  refine ⟨recovered_inLimits, fun hl => ?_⟩
  have hw := (hs hl).before (frame_put _ k v)
  obtain ⟨s, hrun, ha⟩ := run_aligned n h ops hd hf hw hn
  exact put_recovered hrun ha hl (hs hl) hc hok

/-- An empty value is accepted, and the scan takes it for a deletion. -/
theorem empty_value_lost :
    (put (start 1024 (by decide)) keyA []).1 = .ok () ∧
      view (put (start 1024 (by decide)) keyA []).2 keyA = .ok [] ∧
      view (recoverMount (put (start 1024 (by decide)) keyA []).2 none) keyA =
        .error .missing := by
  decide +kernel

theorem overwritten_value_recovered :
    (put (run (start 2048 (by decide)) [.put keyA [1]]) keyA [2]).1 = .ok () ∧
      view (recoverMount (put (run (start 2048 (by decide)) [.put keyA [1]]) keyA [2]).2 none)
        keyA = .ok [2] := by
  have hrun : ShortWrites (put (run (start 2048 (by decide)) [.put keyA [1]]) keyA [2]).2 ∧
      (run (start 2048 (by decide)) [.put keyA [1]]).trace.all roomyEvent = true ∧
      (put (run (start 2048 (by decide)) [.put keyA [1]]) keyA [2]).1 = .ok () := by
    decide +kernel
  obtain ⟨hs, hn, hok⟩ := hrun
  have ha : keyA ≠ ckptKey := by decide
  have hf : NoForgery [.put keyA [1]] := by simp [NoForgery, Op.items, Rejected, ha]
  exact ⟨hok, (put_recovered_iff 2048 (by decide) [.put keyA [1]] (.inl (by decide)) hf
    (fun f kv hm _ => roomy_of_mem hn hm) keyA [2] (fun _ => hs) (fun he => absurd he ha)
    hok).mpr (by decide)⟩

end NeuralOs.TickvLimits
