import NeuralOs.Lib.Machine
import NeuralOs.Storage.TickvOperation

/-!
# The high-water latch

`hw_latched` is meant to be set only while the log is longer than `HIGH_WATER`. An
explicit compaction shortens the log and leaves the latch alone, and so does an idle
flush whose compaction stops in the middle; every other operation keeps it sound.
-/

set_option autoImplicit false

namespace NeuralOs.TickvCompactEnd
open ByteString MeasuredLoop TickvRecord TickvState TickvStore TickvTrace TickvCompaction

/-- The index and the end of the log when items are written one after the other, up to the
first that does not fit; the flag says that all of them did. -/
def packed (size : ℕ) : List (Str × Bytes) → Index → ℕ → Bool × Index × ℕ
  | [], index, off => (true, index, off)
  | (key, val)::items, index, off =>
    if off+recordSize key.bytes.length val.length ≤ size then
      packed size items (index.insert key off) (off+recordSize key.bytes.length val.length)
    else (false, index, off)

def ckptRecord (p : Bool × Index × ℕ) : ℕ :=
  recordSize ckptKey.bytes.length (ckptBody p.2.1 p.2.2).length

/-- The used region can be zeroed, and the live set and a checkpoint fit after it. -/
def Compactable (w : World) : Prop :=
  wipeLen w.kv.appendOff ≤ w.flash.size ∧
    (packed w.flash.size (liveOf w) ∅ 0).1 = true ∧
    (packed w.flash.size (liveOf w) ∅ 0).2.2+ckptRecord (packed w.flash.size (liveOf w) ∅ 0) ≤
      w.flash.size

instance decidableCompactable (w : World) : Decidable (Compactable w) := by
  unfold Compactable
  infer_instance

/-- Where the live set, written from offset 0 on, and the checkpoint after it end. A region
that cannot be zeroed keeps the log as long as it was. -/
def compactedEnd (w : World) : ℕ :=
  if w.flash.size < wipeLen w.kv.appendOff then w.kv.appendOff
  else if Compactable w then (packed w.flash.size (liveOf w) ∅ 0).2.2+
    ckptRecord (packed w.flash.size (liveOf w) ∅ 0)
  else (packed w.flash.size (liveOf w) ∅ 0).2.2

theorem write_kv (w : World) (off : ℕ) (d : Bytes) : (w.write off d).2.kv = w.kv := by
  unfold World.write
  split <;> rfl

theorem enter_kept (kv : TickvLite) (key : Str) (off total : ℕ) :
    (kv.enter key off total).hwLatched = kv.hwLatched ∧
      (kv.enter key off total).stats.compactions = kv.stats.compactions := by
  unfold TickvLite.enter
  split <;> exact ⟨rfl, rfl⟩

/-! ## What the phases of a compaction do -/

section
variable (w : World)

theorem wipe_kv (wipe : ℕ) (s : ℕ × World) : ((wipeLoop wipe).exec s).2.kv = s.2.kv :=
  wipe_rule wipe (fun _ w r => r.2.kv = w.kv) (fun _ _ _ => rfl) (fun _ _ _ _ => rfl)
    (fun _ _ _ _ _ _ _ ih => ih) s

/-- What writing one item leaves of the fields that matter here. -/
structure Wrote (w : World) (p : Bool × Index × ℕ) (out : Result Unit × World) : Prop where
  result : out.1 = .ok () ↔ p.1 = true
  index : out.2.kv.index = p.2.1
  tail : out.2.kv.appendOff = p.2.2
  latch : out.2.kv.hwLatched = w.kv.hwLatched
  compactions : out.2.kv.stats.compactions = w.kv.stats.compactions
  ready : out.2.kv.ready = w.kv.ready
  size : out.2.flash.size = w.flash.size
  flags : out.2.compacting = w.compacting ∧ out.2.gcSuspended = w.gcSuspended

theorem putRaw_wrote (key : Str) (val : Bytes) :
    Wrote w (packed w.flash.size [(key, val)] w.kv.index w.kv.appendOff) (putRaw w key val) := by
  have hlen := encodeRecord_length key.bytes val
  by_cases hfit : w.kv.appendOff+recordSize key.bytes.length val.length ≤ w.flash.size
  · obtain ⟨g, hg, -, hsz⟩ := w.flash.write_ok w.kv.appendOff (encodeRecord key.bytes val)
      (by rw [hlen]; exact hfit)
    have he := enter_kept w.kv key w.kv.appendOff (recordSize key.bytes.length val.length)
    have hr := (enter_fields w.kv key w.kv.appendOff (recordSize key.bytes.length val.length)).1
    simp only [packed, if_pos hfit, putRaw, World.write, hg, hlen]
    exact ⟨by simp, rfl, rfl, he.1, he.2, hr, hsz, rfl, rfl⟩
  · have hg := w.flash.write_oob w.kv.appendOff (encodeRecord key.bytes val)
      (by rw [hlen]; exact not_le.mp hfit)
    simp only [packed, if_neg hfit, putRaw, World.write, hg]
    exact ⟨by simp, rfl, rfl, rfl, rfl, rfl, rfl, rfl, rfl⟩

theorem appendAll_wrote (items : List (Str × Bytes)) :
    Wrote w (packed w.flash.size items w.kv.index w.kv.appendOff) (appendAll items w) := by
  induction items generalizing w with
  | nil => exact ⟨by simp [appendAll, packed], rfl, rfl, rfl, rfl, rfl, rfl, rfl, rfl⟩
  | cons p items ih =>
    have hp := putRaw_wrote w p.1 p.2
    rw [appendAll]
    simp only [packed] at hp ⊢
    generalize putRaw w p.1 p.2 = out at hp
    obtain ⟨e | a, w'⟩ := out
    · have hfit : ¬w.kv.appendOff+recordSize p.1.bytes.length p.2.length ≤ w.flash.size := by
        intro hfit
        have := hp.result
        rw [if_pos hfit] at this
        simp at this
      rw [if_neg hfit] at hp ⊢
      exact hp
    · have hfit : w.kv.appendOff+recordSize p.1.bytes.length p.2.length ≤ w.flash.size := by
        by_contra hfit
        have := hp.result
        rw [if_neg hfit] at this
        simp at this
      rw [if_pos hfit] at hp ⊢
      have hn := ih w'
      rw [hp.index, hp.tail, hp.size] at hn
      exact ⟨hn.result, hn.index, hn.tail, hn.latch.trans hp.latch,
        hn.compactions.trans hp.compactions, hn.ready.trans hp.ready, hn.size.trans hp.size,
        hn.flags.1.trans hp.flags.1, hn.flags.2.trans hp.flags.2⟩

theorem writeCkpt_wrote (hr : w.kv.ready = true) :
    Wrote w (packed w.flash.size [(ckptKey, ckptBody w.kv.index w.kv.appendOff)] w.kv.index
      w.kv.appendOff) (writeCkpt w) := by
  have hp := putRaw_wrote w ckptKey (ckptBody w.kv.index w.kv.appendOff)
  simp only [writeCkpt, hr, Bool.not_true, Bool.false_eq_true, if_false]
  generalize putRaw w ckptKey (ckptBody w.kv.index w.kv.appendOff) = out at hp
  obtain ⟨e | a, w'⟩ := out
  · exact hp
  · exact ⟨by simpa using hp.result, hp.index, hp.tail, hp.latch, hp.compactions, hp.ready,
      hp.size, hp.flags⟩

theorem invalidateAll_empty (items : List (Str × Bytes)) (h : w.kv.index = ∅) :
    invalidateAll items w = w := by
  induction items with
  | nil => rfl
  | cons p items ih => simpa [invalidateAll, h] using ih

def PackedWhole (size : ℕ) (p : Bool × Index × ℕ) : Prop :=
  p.1 = true ∧ p.2.2+ckptRecord p ≤ size

instance decidablePackedWhole (size : ℕ) (p : Bool × Index × ℕ) :
    Decidable (PackedWhole size p) := by
  unfold PackedWhole
  infer_instance

theorem rewriteLive_effect (live : List (Str × Bytes)) (hr : w.kv.ready = true)
    {p : Bool × Index × ℕ} (hp : packed w.flash.size live ∅ 0 = p) {out : World}
    (ho : (rewriteLive (fun w => (.ok (), w)) live w).2 = out) :
    out.kv.hwLatched = w.kv.hwLatched ∧
    out.kv.appendOff =
      (if PackedWhole w.flash.size p then p.2.2+ckptRecord p else p.2.2) ∧
    out.kv.stats.compactions =
      if PackedWhole w.flash.size p then satAdd w.kv.stats.compactions 1
      else w.kv.stats.compactions := by
  obtain ⟨a, b, hu⟩ := rewriteLive_unfold w (fun w => (.ok (), w)) live hr
  have ha := appendAll_wrote (cleared w) live
  rw [hu, invalidateAll_empty (cleared w) live rfl] at ho
  rw [show packed (cleared w).flash.size live (cleared w).kv.index (cleared w).kv.appendOff = p
    from hp] at ha
  generalize appendAll live (cleared w) = res at ha ho
  obtain ⟨e | u, w₁⟩ := res
  · have hno : ¬PackedWhole w.flash.size p := fun h => by simpa using ha.result.mpr h.1
    rw [if_neg hno, if_neg hno, ← ho]
    exact ⟨ha.latch, ha.tail, ha.compactions⟩
  have hall : p.1 = true := ha.result.mp rfl
  have hc := writeCkpt_wrote (skips w₁ a b) (ha.ready.trans hr)
  simp only [packed] at hc ho
  rw [show (skips w₁ a b).kv.index = p.2.1 from ha.index,
    show (skips w₁ a b).kv.appendOff = p.2.2 from ha.tail,
    show (skips w₁ a b).flash.size = w.flash.size from ha.size, ← ckptRecord] at hc
  generalize writeCkpt (skips w₁ a b) = res at hc ho
  by_cases hfit : p.2.2+ckptRecord p ≤ w.flash.size
  · rw [if_pos hfit] at hc
    rw [if_pos ⟨hall, hfit⟩, if_pos ⟨hall, hfit⟩]
    obtain ⟨e | u, w₂⟩ := res
    · simpa using hc.result
    · rw [← ho]
      exact ⟨hc.latch.trans ha.latch, hc.tail,
        congrArg (satAdd · 1) (hc.compactions.trans ha.compactions)⟩
  · rw [if_neg hfit] at hc
    rw [if_neg fun h => hfit h.2, if_neg fun h => hfit h.2]
    obtain ⟨e | u, w₂⟩ := res
    · rw [← ho]
      exact ⟨hc.latch.trans ha.latch, hc.tail, hc.compactions.trans ha.compactions⟩
    · simpa using hc.result

theorem compact_effect (hr : w.kv.ready = true) :
    (compact w).2.kv.hwLatched = w.kv.hwLatched ∧
    (compact w).2.kv.appendOff = compactedEnd w ∧
    (compact w).2.kv.stats.compactions =
      if Compactable w then satAdd w.kv.stats.compactions 1 else w.kv.stats.compactions := by
  obtain ⟨n, hu⟩ := compact_phases w hr
  have hkv := wipe_kv (wipeLen w.kv.appendOff) (0, compacting w n)
  rw [hu, compactedEnd]
  by_cases hfit : wipeLen w.kv.appendOff ≤ w.flash.size
  · obtain ⟨g, es, he, -, hg, -⟩ := wipe_region _ (wipeLen_dvd _) (0, compacting w n) (by simp)
      (by simp) hfit
    rw [he, if_neg (not_lt.mpr hfit)]
    have hwhole : Compactable w ↔ PackedWhole w.flash.size (packed w.flash.size (liveOf w) ∅ 0) :=
      ⟨fun h => h.2, fun h => ⟨hfit, h⟩⟩
    have h := rewriteLive_effect { compacting w n with flash := g
                                                       trace := (compacting w n).trace ++ es }
      (liveOf w) hr rfl rfl
    simp only [hwhole]
    rw [show g.size = w.flash.size from hg] at h
    exact h
  · have hno : ¬Compactable w := fun h => hfit h.1
    obtain ⟨e, -, he, -⟩ := wipe_overrun _ (0, compacting w n) (by simp) (not_le.mp hfit)
    generalize (wipeLoop (wipeLen w.kv.appendOff)).exec (0, compacting w n) = out at hkv he
    obtain ⟨_ | _, w₂⟩ := out
    · rw [if_pos (not_le.mp hfit), if_neg hno]
      simp only at hkv ⊢
      rw [hkv]
      exact ⟨rfl, rfl, rfl⟩
    · cases he

end

end NeuralOs.TickvCompactEnd

/-! ## The high-water latch -/

namespace NeuralOs.TickvLatch
open ByteString MeasuredLoop TickvRecord TickvState TickvStore TickvTrace TickvMount TickvCompaction
open TickvCompactEnd TickvOperation

/-- The latch is set only while the log ends at or above the mark. -/
def LatchSound (w : World) : Prop := w.kv.hwLatched = true → highWater ≤ w.kv.appendOff

def FlushCompacts (w : World) : Prop :=
  w.kv.ready = true ∧ w.compacting = false ∧ w.kv.backend.slow = false ∧ w.kv.gcDue = true ∧
    w.gcAllowed = true

/-- The operation does not shorten the log under a set latch. -/
def KeepsMark (w : World) : Op → Prop
  | .compact => w.kv.ready = true → w.kv.hwLatched = true → highWater ≤ compactedEnd w
  | .flushIdle => FlushCompacts w → w.kv.hwLatched = true →
      Compactable w ∧ w.kv.stats.compactions ≠ 2^64-1 ∨ highWater ≤ compactedEnd w
  | _ => True

/-! ## Steps that only lengthen the log -/

structure Raises (w w' : World) : Prop where
  latch : w'.kv.hwLatched = w.kv.hwLatched
  longer : w.kv.appendOff ≤ w'.kv.appendOff

section
variable {w w' : World}

theorem Raises.refl (w : World) : Raises w w := ⟨rfl, le_rfl⟩

theorem Raises.trans {u : World} (h : Raises w w') (h' : Raises w' u) : Raises w u :=
  ⟨h'.latch.trans h.latch, h.longer.trans h'.longer⟩

theorem sound_of_raises (h : Raises w w') (hs : LatchSound w) : LatchSound w' := by
  intro hl
  rw [h.latch] at hl
  exact (hs hl).trans h.longer

theorem raises_putRaw (w : World) (key : Str) (val : Bytes) : Raises w (putRaw w key val).2 := by
  have hk := write_kv w w.kv.appendOff (encodeRecord key.bytes val)
  simp only [putRaw]
  generalize w.write w.kv.appendOff (encodeRecord key.bytes val) = out at hk
  obtain ⟨_ | _, w'⟩ := out
  · exact ⟨by rw [hk], by rw [hk]⟩
  · refine ⟨?_, Nat.le_add_right _ _⟩
    have he := (enter_kept w'.kv key w.kv.appendOff (encodeRecord key.bytes val).length).1
    rw [← hk]
    exact he

theorem raises_invalidateKey (w : World) (key : Str) : Raises w (invalidateKey w key).2 := by
  unfold invalidateKey
  split
  · exact .refl w
  split
  · exact .refl w
  next off _ =>
  have hk := write_kv w (off+3) [0]
  generalize w.write (off+3) [0] = out at hk
  obtain ⟨_ | _, w'⟩ := out
  · exact ⟨by rw [hk], by rw [hk]⟩
  · have hl : w'.kv.hwLatched = w.kv.hwLatched := congrArg TickvLite.hwLatched hk
    have ha : w'.kv.appendOff = w.kv.appendOff := congrArg TickvLite.appendOff hk
    constructor
    · simp only [World.setKv, TickvLite.addDead, hl]
    · simp only [World.setKv, TickvLite.addDead, ha, le_refl]

theorem raises_invalidateAll (items : List (Str × Bytes)) (w : World) :
    Raises w (invalidateAll items w) := by
  induction items generalizing w with
  | nil => exact .refl w
  | cons p items ih =>
    rw [invalidateAll]
    refine Raises.trans ?_ (ih _)
    split
    · exact raises_invalidateKey w p.1
    · exact .refl w

theorem raises_appendAll (items : List (Str × Bytes)) (w : World) :
    Raises w (appendAll items w).2 := by
  induction items generalizing w with
  | nil => exact .refl w
  | cons p items ih =>
    have hp := raises_putRaw w p.1 p.2
    rw [appendAll]
    generalize putRaw w p.1 p.2 = out at hp
    obtain ⟨_ | _, w'⟩ := out
    · exact hp
    · exact hp.trans (ih w')

theorem raises_writeCkpt (w : World) : Raises w (writeCkpt w).2 := by
  unfold writeCkpt
  split
  · exact .refl w
  · have hp := raises_putRaw w ckptKey (ckptBody w.kv.index w.kv.appendOff)
    generalize putRaw w ckptKey (ckptBody w.kv.index w.kv.appendOff) = out at hp
    obtain ⟨_ | _, w'⟩ := out <;> exact ⟨hp.latch, hp.longer⟩

end

/-! ## Compactions and flushes -/

section
variable (w : World)

theorem compact_sound_iff (hs : LatchSound w) :
    LatchSound (compact w).2 ↔ KeepsMark w .compact := by
  by_cases hr : w.kv.ready = true
  · obtain ⟨hl, ha, -⟩ := compact_effect w hr
    simp only [LatchSound, KeepsMark, hl, ha, hr, true_implies]
  · have he : compact w = (.error .notMounted, w) := by
      simp [compact, compactWith, hr]
    rw [he]
    exact ⟨fun _ h => absurd h hr, fun _ => hs⟩

theorem flush_quiet (h : ¬FlushCompacts w) : Raises w (flushOpportunistic w).2 := by
  unfold flushOpportunistic flushOpportunisticWith
  split
  · exact .refl w
  next hrc =>
  simp only [Bool.or_eq_true, Bool.not_eq_true', not_or, Bool.not_eq_false] at hrc
  split
  · split
    · exact .refl w
    · have hc := raises_writeCkpt w
      generalize writeCkpt w = out at hc
      obtain ⟨_ | _, w'⟩ := out <;> exact hc
  · next hb =>
    split
    · exact .refl w
    · next hg =>
      simp only [Bool.or_eq_true, Bool.not_eq_true', not_or, Bool.not_eq_false] at hg
      exact absurd ⟨hrc.1, by simpa using hrc.2, by simpa using hb, hg.1, hg.2⟩ h

theorem flush_compacts (h : FlushCompacts w) : (flushOpportunistic w).2 =
    if (compact w).2.kv.stats.compactions = w.kv.stats.compactions then (compact w).2
    else (compact w).2.setKv { (compact w).2.kv with
      hwLatched := decide (highWater ≤ (compact w).2.kv.appendOff) } := by
  obtain ⟨hr, hc, hb, hd, hg⟩ := h
  have hsus : w.gcSuspended = false := by simpa [World.gcAllowed, hb] using hg
  have hgc : maybeGcWith compact w = compact w := by
    simp [maybeGcWith, hc, hsus, hb, hd]
  unfold flushOpportunistic flushOpportunisticWith
  simp only [hr, hc, hb, hd, hg, hgc, Bool.not_true, Bool.or_self, Bool.false_eq_true, if_false]
  split <;> rfl

theorem compactions_same_iff (hr : w.kv.ready = true) :
    (compact w).2.kv.stats.compactions = w.kv.stats.compactions ↔
      ¬(Compactable w ∧ w.kv.stats.compactions ≠ 2^64-1) := by
  rw [(compact_effect w hr).2.2]
  by_cases hc : Compactable w
  · -- the counter saturates
    have hsat : satAdd w.kv.stats.compactions 1 = w.kv.stats.compactions ↔
        w.kv.stats.compactions = 2^64-1 := by
      unfold satAdd
      omega
    simp [hc, hsat]
  · simp [hc]

theorem flush_sound_iff (hs : LatchSound w) :
    LatchSound (flushOpportunistic w).2 ↔ KeepsMark w .flushIdle := by
  by_cases h : FlushCompacts w
  · obtain ⟨hl, ha, -⟩ := compact_effect w h.1
    have hsame := compactions_same_iff w h.1
    rw [flush_compacts w h]
    by_cases hc : Compactable w ∧ w.kv.stats.compactions ≠ 2^64-1
    · rw [if_neg (by rw [hsame]; exact not_not.mpr hc)]
      exact iff_of_true (fun hl => of_decide_eq_true hl) fun _ _ => Or.inl hc
    · rw [if_pos (hsame.mpr hc)]
      simp only [LatchSound, KeepsMark, hl, ha, h, hc, true_implies, false_or]
  · exact ⟨fun _ hf => absurd hf h, fun _ => sound_of_raises (flush_quiet w h) hs⟩

end

/-! ## Runs -/

section
variable {w : World}

theorem highWaterFlush_sound (hs : LatchSound w) : LatchSound (maybeHighWaterFlush w) := by
  unfold maybeHighWaterFlush maybeHighWaterFlushWith
  split
  · exact hs
  next hw =>
  obtain ⟨hlong, hlatch⟩ := not_or.mp hw
  split
  · next hc => simpa [maybeGcWith, hc, LatchSound] using hs
  · split
    · exact fun _ => (not_le.mp hlong).le
    · -- the latch is not set here, so the flush cannot leave it behind
      exact (flush_sound_iff w hs).mpr fun _ hl => absurd hl hlatch

theorem putBatch_sound (hs : LatchSound w) (items : List (Str × Bytes)) :
    LatchSound (putBatch w items).2 := by
  by_cases hr : w.kv.ready = true
  · have hg := (raises_invalidateAll items w).trans (raises_appendAll items (invalidateAll items w))
    rw [putBatch_unfold hr]
    generalize appendAll items (invalidateAll items w) = out at hg
    obtain ⟨_ | _, w'⟩ := out
    · exact sound_of_raises hg hs
    · have hs' := sound_of_raises hg hs
      simp only
      split
      · exact highWaterFlush_sound hs'
      · exact hs'
  · simpa [putBatch, putBatchWith, hr] using hs

theorem delete_sound (hs : LatchSound w) (key : Str) : LatchSound (delete w key).2 := by
  have hi := raises_invalidateKey w key
  unfold delete
  generalize invalidateKey w key = out at hi
  obtain ⟨_ | _, w'⟩ := out
  · have hp := putBatch_sound (sound_of_raises hi hs) [(key, [])]
    rw [← put_eq_putBatch] at hp
    simp only
    generalize put w' key [] = out at hp
    obtain ⟨_ | _, u⟩ := out <;> exact hp
  · exact sound_of_raises hi hs

theorem applyRecord_latch {kv : TickvLite} {key : Str} {vlen off total : ℕ} :
    (applyRecord kv key vlen off total).hwLatched = kv.hwLatched := by
  unfold applyRecord
  split
  · split <;> rfl
  · exact (enter_kept kv key off total).1

theorem scanRange_latch {f : RamFlash} {kv : TickvLite} {start : ℕ} {keep : Bool}
    {polls : Option ℕ} : (scanRange f kv start keep polls).2.1.hwLatched = kv.hwLatched := by
  have hloop := exec_rule (scanRangeLoop f) (fun s r => r.2.kv.hwLatched = s.kv.hwLatched)
    (by
      intro s r hs
      simp only [scanRangeLoop, scanRangeStep] at hs
      repeat' split at hs
      all_goals cases hs
      all_goals rfl)
    (by
      intro s t r hs ih
      rw [ih]
      simp only [scanRangeLoop, scanRangeStep] at hs
      repeat' split at hs
      all_goals cases hs
      all_goals first | rfl | exact applyRecord_latch)
  unfold scanRange
  cases keep
  all_goals
    simp only [Bool.false_eq_true, if_false, if_true]
    generalize hout : (scanRangeLoop f).exec _ = out
    have h := hout ▸ hloop _
    obtain ⟨_ | _, s⟩ := out <;> exact h

theorem tryMount_latch (f : RamFlash) (kv : TickvLite) (polls : Option ℕ) :
    (tryMountFromCkpt f kv polls).2.1.hwLatched = kv.hwLatched := by
  unfold tryMountFromCkpt
  simp only
  repeat' split
  all_goals first | rfl | exact scanRange_latch

theorem mount_latch (w : World) (polls : Option ℕ) :
    (mount w polls).2.kv.hwLatched = w.kv.hwLatched := by
  have ht := tryMount_latch w.flash { w.kv with backend := .ram, degraded := false } polls
  unfold mount mountFrom
  generalize tryMountFromCkpt w.flash _ polls = out at ht
  obtain ⟨_ | _, kv, p⟩ := out
  · have hr : (recover w.flash kv p).2.1.hwLatched = kv.hwLatched := scanRange_latch
    simp only at ht ⊢
    generalize recover w.flash kv p = out at hr
    obtain ⟨_ | _, kv', p'⟩ := out <;> exact hr.trans ht
  · exact ht

theorem step_sound_iff (hs : LatchSound w) (op : Op) : LatchSound (step w op) ↔ KeepsMark w op := by
  cases op with
  | put key val =>
    rw [step, put_eq_putBatch]
    exact iff_of_true (putBatch_sound hs _) trivial
  | putBatch items => exact iff_of_true (putBatch_sound hs items) trivial
  | delete key => exact iff_of_true (delete_sound hs key) trivial
  | writeCkpt => exact iff_of_true (sound_of_raises (raises_writeCkpt w) hs) trivial
  | compact => exact compact_sound_iff w hs
  | flushIdle => exact flush_sound_iff w hs
  | setGcSuspended on => exact iff_of_true hs trivial
  | remount polls =>
    refine iff_of_true (fun hl => ?_) trivial
    rw [step, remount, mount_latch] at hl
    cases hl

theorem run_sound_iff (hs : LatchSound w) (ops : List Op) :
    (∀ k, LatchSound (run w (ops.take k))) ↔ Machine.Along step KeepsMark w ops := by
  induction ops generalizing w with
  | nil => simpa [run, Machine.Along] using hs
  | cons op ops ih =>
    rw [Machine.Along]
    constructor
    · intro h
      have h1 : LatchSound (step w op) := h 1
      exact ⟨(step_sound_iff hs op).mp h1, (ih h1).mp fun k => h (k+1)⟩
    · rintro ⟨hop, hops⟩ k
      cases k with
      | zero => exact hs
      | succ k => exact (ih ((step_sound_iff hs op).mpr hop)).mpr hops k

end

def mounted (f : RamFlash) (polls : Option ℕ) : World := (mount (World.boot f) polls).2

theorem latch_sound_iff (f : RamFlash) (polls : Option ℕ) (ops : List Op) :
    (∀ k, LatchSound (run (mounted f polls) (ops.take k))) ↔
      Machine.Along step KeepsMark (mounted f polls) ops := by
  apply run_sound_iff
  intro hl
  rw [mounted, mount_latch] at hl
  cases hl

/-! ## A run that leaves the latch behind -/

section
variable {w : World}

theorem put_latches {key : Str} {val : Bytes} (hr : w.kv.ready = true)
    (hk : w.kv.index.contains key = false) (hne : key ≠ gcLockKey)
    (hfit : w.kv.appendOff+recordSize key.bytes.length val.length ≤ w.flash.size)
    (hlong : highWater < w.kv.appendOff+recordSize key.bytes.length val.length)
    (hl : w.kv.hwLatched = false) (hc : w.compacting = false) (hg : w.gcSuspended = true) :
    (put w key val).2.kv.index = w.kv.index.insert key w.kv.appendOff ∧
    (put w key val).2.kv.appendOff = w.kv.appendOff+recordSize key.bytes.length val.length ∧
    (put w key val).2.kv.hwLatched = true ∧ (put w key val).2.kv.ready = true ∧
    (put w key val).2.flash.size = w.flash.size := by
  have hp := putRaw_wrote w key val
  rw [packed, if_pos hfit, packed] at hp
  unfold put
  simp only [hr, hk, Bool.not_true, Bool.false_eq_true, if_false, and_false]
  generalize putRaw w key val = out at hp
  obtain ⟨e | u, w₁⟩ := out
  · simpa using hp.result
  have hflush : maybeHighWaterFlush w₁ = w₁.setKv { w₁.kv with hwLatched := true } := by
    have ht : w₁.kv.appendOff = w.kv.appendOff+recordSize key.bytes.length val.length := hp.tail
    have hl₁ : w₁.kv.hwLatched = false := hp.latch.trans hl
    have hc₁ : w₁.compacting = false := hp.flags.1.trans hc
    have hg₁ : w₁.gcSuspended = true := hp.flags.2.trans hg
    simp [maybeHighWaterFlush, maybeHighWaterFlushWith, World.gcAllowed, ht, hl₁, hc₁, hg₁, hlong]
  simp only [if_pos hne, hflush]
  exact ⟨hp.index, hp.tail, rfl, hp.ready.trans hr, hp.size⟩

theorem delete_indexed {key : Str} {off : ℕ} (hr : w.kv.ready = true)
    (hk : w.kv.index[key]? = some off) (hin : off+4 ≤ w.flash.size) :
    (delete w key).2.kv.index = w.kv.index.erase key ∧
    (delete w key).2.kv.appendOff = w.kv.appendOff ∧
    (delete w key).2.kv.hwLatched = w.kv.hwLatched ∧ (delete w key).2.kv.ready = true ∧
    (delete w key).2.flash.size = w.flash.size := by
  obtain ⟨g, hg, -, hsz⟩ := w.flash.write_ok (off+3) [0] hin
  simp [delete, invalidateKey, hr, hk, World.write, hg, World.setKv, TickvLite.addDead, World.log,
    hsz]

theorem compactedEnd_empty (hi : w.kv.index = ∅) (hw : wipeLen w.kv.appendOff ≤ w.flash.size) :
    compactedEnd w = 512 := by
  have hlive : liveOf w = [] := by simp [liveOf, hi]
  have hrec : ckptRecord (true, ∅, 0) = 512 := by decide +kernel
  have h512 : 512 ≤ w.flash.size := (wipeLen_ge w.kv.appendOff).2.trans hw
  have hc : Compactable w := by
    refine ⟨hw, ?_, ?_⟩
    · simp [hlive, packed]
    · simpa [hlive, packed, hrec] using h512
  rw [compactedEnd, if_neg (not_lt.mpr hw), if_pos hc, hlive]
  simp [packed, hrec]

end

def compactedRun (val : Bytes) : List Op :=
  [.setGcSuspended true, .put keyA val, .delete keyA, .setGcSuspended false, .compact]

theorem compactedRun_latch (n : ℕ) (h : n < 2^63) (hn : 262656 ≤ n) (val : Bytes)
    (hv : val.length = 262144) :
    ¬LatchSound (run (mounted (RamFlash.new n h) none) (compactedRun val)) := by
  obtain ⟨hrun, -, hl, -⟩ := start_running n h
  have hm : mounted (RamFlash.new n h) none = start n h := rfl
  rw [hm]
  generalize start n h = w₀ at hrun hl
  have hi : w₀.kv.index = ∅ := hrun.index
  have ht : w₀.kv.appendOff = 0 := hrun.tail
  have hsz : w₀.flash.size = n := hrun.size
  have hrec : recordSize keyA.bytes.length val.length = 262656 := by
    rw [hv]
    decide
  have hmark : highWater < 262656 := by decide
  have hlock : keyA ≠ gcLockKey := by decide
  obtain ⟨w₁, hw₁⟩ : ∃ w₁, w₁ = (put { w₀ with gcSuspended := true } keyA val).2 := ⟨_, rfl⟩
  obtain ⟨pi, pt, pl, pr, ps⟩ := @put_latches { w₀ with gcSuspended := true } keyA val
    hrun.ready (by simp [hi]) hlock (by rw [hrec, hsz, ht]; omega) (by rw [hrec, ht]; omega) hl
    hrun.idle rfl
  rw [← hw₁] at pi pt pl pr ps
  rw [hrec, ht, Nat.zero_add] at pt
  rw [hi, ht] at pi
  obtain ⟨w₂, hw₂⟩ : ∃ w₂, w₂ = (delete w₁ keyA).2 := ⟨_, rfl⟩
  obtain ⟨di, dt, dl, dr, ds⟩ := @delete_indexed w₁ keyA 0 pr (by simp [pi])
    (by rw [ps, hsz]; omega)
  rw [← hw₂] at di dt dl dr ds
  have hempty : w₂.kv.index = ∅ := by
    rw [di, pi]
    apply Std.ExtTreeMap.ext_getElem?
    intro k
    rw [get_erase, get_insert]
    by_cases hk : k = keyA <;> simp [hk]
  have hwipe : wipeLen 262656 = 262656 := by decide
  have hend := @compactedEnd_empty { w₂ with gcSuspended := false } hempty
    (by rw [show w₂.kv.appendOff = 262656 from dt.trans pt, hwipe, ds, ps, hsz]; exact hn)
  obtain ⟨cl, ce, -⟩ := compact_effect { w₂ with gcSuspended := false } dr
  have hr : run w₀ (compactedRun val) = (compact { w₂ with gcSuspended := false }).2 := by
    simp only [run, compactedRun, List.foldl, step, hw₁, hw₂]
  rw [hr]
  intro hsound
  have hge := hsound (by rw [cl]; exact dl.trans pl)
  rw [ce, hend] at hge
  exact absurd hge (by decide)

theorem half_mebibyte_bounded : 524288 < 2^63 := by decide

theorem compact_leaves_latch :
    ¬LatchSound (run (mounted (RamFlash.new 524288 half_mebibyte_bounded) none)
      (compactedRun (zeros 262144))) :=
  compactedRun_latch 524288 half_mebibyte_bounded (by norm_num) (zeros 262144) (zeros_length _)

end NeuralOs.TickvLatch
