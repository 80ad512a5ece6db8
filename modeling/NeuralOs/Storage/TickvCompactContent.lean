import NeuralOs.Storage.TickvOperation

/-!
# What a compaction keeps

In any mounted state, whatever the flash held before, a compaction that is
never refused ends with a log that starts at offset 0, has no dead record and
holds the live set and a checkpoint; every key but the checkpoint reads as
before.
-/

set_option autoImplicit false

namespace NeuralOs.TickvCompactContent
open ByteString TickvRecord TickvState TickvStore TickvTrace TickvLog TickvLogUpdate TickvImage
open TickvRefine LogStore TickvCompaction TickvMount TickvOperation

def added (w w' : World) : List Event := w'.trace.drop w.trace.length

variable {w : World}

theorem added_eq {w' : World} {es : List Event} (h : w'.trace = w.trace ++ es) :
    added w w' = es := by
  rw [added, h, List.drop_left]

theorem view_short {k : Str} {v : Bytes} (h : view w k = .ok v) : v.length < 2^32 := by
  unfold view at h
  split at h
  · cases h
  split at h
  · cases h
  next off _ =>
  unfold readRecord at h
  split at h
  · cases h
  next hdr hh =>
  split at h
  · cases h
  split at h
  · cases h
  next body hb =>
  split at h
  · cases h
  cases h
  have hl : body.length ≤ hdrKlen hdr+hdrVlen hdr := by
    unfold RamFlash.read at hb
    split at hb
    · cases hb
    · cases hb
      simp [slice]
  have hv : hdrVlen hdr < 2^32 := by
    have h4 : (slice hdr 8 4).length ≤ 4 := by simp [slice]
    have hlt := fromLe_lt (slice hdr 8 4)
    have hp : 256^(slice hdr 8 4).length ≤ 256^4 := Nat.pow_le_pow_right (by decide) h4
    unfold hdrVlen
    omega
  simp
  omega

theorem appendAll_begins (items : List (Str × Bytes)) (w : World) (L : List Rec) (es : List Event)
    (hb : Begins w.flash.data L) (ha : w.kv.appendOff = logSize L)
    (hsm : ∀ p ∈ items, p.2.length < 2^32) (hd : (items.map Prod.fst).Nodup)
    (ht : (appendAll items w).2.trace = w.trace ++ es) (hes : Event.refused ∉ es) :
    ∃ w', appendAll items w = (.ok (), w') ∧ Begins w'.flash.data (L ++ items.map written) ∧
      w'.kv.appendOff = logSize (L ++ items.map written) ∧ w'.kv.ready = w.kv.ready ∧
      (∀ k, k ∉ items.map Prod.fst → w'.kv.index[k]? = w.kv.index[k]?) ∧
      (∀ p ∈ items, ∃ o, w'.kv.index[p.1]? = some o ∧
        At (L ++ items.map written) o (written p)) := by
  induction items generalizing w L es with
  | nil => exact ⟨w, rfl, by simpa using hb, by simpa using ha, rfl, by simp, by simp⟩
  | cons p items ih =>
    rw [List.map_cons, List.nodup_cons] at hd
    rw [appendAll] at ht ⊢
    by_cases hf : w.kv.appendOff+(written p).size ≤ w.flash.size
    · obtain ⟨g, st, d, hg, he⟩ := putRaw_room w p.1 p.2 hf
      obtain ⟨g', hg', hpre, -, -⟩ := start_append (r := written p) hb.start
        (by rw [← ha]; exact hf)
      rw [ha] at hg
      obtain rfl : g = g' := Except.ok.inj (hg.symm.trans hg')
      rw [he] at ht ⊢
      obtain ⟨es', ht', -⟩ := (frame_appendAll items (putRaw w p.1 p.2).2).history
      rw [he] at ht'
      simp only at ht ht'
      have hes' : es = .wrote w.kv.appendOff (written p).bytes::es' := by
        rw [ht', List.append_assoc] at ht
        simpa using (List.append_cancel_left ht).symm
      obtain ⟨w', hw', hb', ha', hr', hother, hmem⟩ := ih _ (L ++ [written p]) es'
        ⟨hpre, small_append hb.small (hsm p (by simp))⟩ (by simp [ha])
        (fun q hq => hsm q (by simp [hq])) hd.2 ht' (fun h => hes (by rw [hes']; simp [h]))
      have hL : L ++ [written p] ++ items.map written = L ++ (p::items).map written := by simp
      rw [hL] at hb' ha' hmem
      refine ⟨w', hw', hb', ha', hr', fun k hk => ?_, fun q hq => ?_⟩
      · simp only [List.map_cons, List.mem_cons, not_or] at hk
        rw [hother k hk.2]
        simp only [get_insert, if_neg hk.1]
      · rcases List.mem_cons.mp hq with rfl | hq
        · refine ⟨logSize L, ?_, L, items.map written, by simp, rfl⟩
          rw [hother q.1 hd.1]
          simp only [get_insert, if_true, ha]
        · exact hmem q hq
    · rw [putRaw_full w p.1 p.2 (not_le.mp hf)] at ht
      have he : es = [.refused] := List.append_cancel_left (ht.symm.trans rfl)
      exact absurd (by simp [he]) hes

theorem invalidateAll_nothing (items : List (Str × Bytes)) (w : World)
    (h : ∀ p ∈ items, w.kv.index[p.1]? = none) : invalidateAll items w = w := by
  induction items with
  | nil => rfl
  | cons p items ih =>
    rw [invalidateAll, if_neg]
    · exact ih fun q hq => h q (by simp [hq])
    · rw [Std.ExtTreeMap.contains_eq_isSome_getElem?, h p (by simp)]
      simp

theorem liveOf_nodup (w : World) : ((liveOf w).map Prod.fst).Nodup := by
  refine filterMap_nodup Std.ExtTreeMap.nodup_keys fun k p h => ?_
  unfold liveEntry at h
  split at h
  · split at h
    · cases h
    · cases h
      rfl
  · cases h

theorem mem_liveOf {p : Str × Bytes} : p ∈ liveOf w ↔ view w p.1 = .ok p.2 ∧ p.2 ≠ [] := by
  obtain ⟨k, v⟩ := p
  simp only [liveOf, List.mem_filterMap, liveEntry]
  constructor
  · rintro ⟨l, -, h⟩
    split at h
    · next u hu =>
      split at h
      · cases h
      · next hne =>
        cases h
        exact ⟨hu, by simpa using hne⟩
    · cases h
  · rintro ⟨hv, hne⟩
    have hk : k ∈ w.kv.index.keys := by
      rw [Std.ExtTreeMap.mem_keys, Std.ExtTreeMap.mem_iff_isSome_getElem?]
      by_contra hn
      have hi : w.kv.index[k]? = none := by simpa using hn
      simp only [view, hi] at hv
      split at hv <;> cases hv
    exact ⟨k, hk, by simp [hv, hne]⟩

theorem rewriteLive_keeps (f : World → Result Unit × World) (live : List (Str × Bytes)) (w : World)
    (hr : w.kv.ready = true) (hd : (live.map Prod.fst).Nodup)
    (hsm : ∀ p ∈ live, p.2.length < 2^32) (hes : Event.refused ∉ added w (rewriteLive f live w).2) :
    ∃ w' v, rewriteLive f live w = (.ok (), w') ∧
      logBytes ((live ++ [(ckptKey, v)]).map written) <+: w'.flash.data ∧
      w'.kv.appendOff = logSize ((live ++ [(ckptKey, v)]).map written) ∧
      (∀ p ∈ live, p.1 ≠ ckptKey → view w' p.1 = .ok p.2) ∧
      (∀ k, k ≠ ckptKey → k ∉ live.map Prod.fst → view w' k = .error .missing) := by
  obtain ⟨a, b, hu⟩ := rewriteLive_unfold w f live hr
  rw [invalidateAll_nothing live (cleared w) fun p _ => by simp [cleared]] at hu
  obtain ⟨es, ht, -⟩ := (frame_appendAll live (cleared w)).history
  replace ht : (appendAll live (cleared w)).2.trace = w.trace ++ es := ht
  have hes₁ : Event.refused ∉ es := by
    suffices h : ∃ es', (rewriteLive f live w).2.trace = w.trace ++ (es ++ es') by
      obtain ⟨es', h⟩ := h
      rw [added_eq h] at hes
      exact fun hm => hes (List.mem_append_left _ hm)
    rw [hu]
    generalize appendAll live (cleared w) = out at ht
    obtain ⟨_ | _, w₁⟩ := out
    · exact ⟨[], by simpa using ht⟩
    obtain ⟨es', ht', -⟩ := (frame_writeCkpt (skips w₁ a b)).history
    refine ⟨es', ?_⟩
    have hw : (skips w₁ a b).trace ++ es' = w.trace ++ (es ++ es') := by
      rw [← List.append_assoc]
      exact congrArg (· ++ es') ht
    rw [← hw, ← ht']
    simp only
    generalize writeCkpt (skips w₁ a b) = out
    obtain ⟨_ | _, w₂⟩ := out <;> rfl
  obtain ⟨w₁, he, hb, ha, hr₁, hother, hmem⟩ := appendAll_begins live (cleared w) [] es
    ⟨by simp [logBytes], by simp⟩ rfl hsm hd ht hes₁
  rw [he] at hu ht
  rw [List.nil_append] at hb ha hmem
  have hready : w₁.kv.ready = true := hr₁.trans hr
  obtain ⟨w₂, hw₂⟩ : ∃ w₂, w₂ = skips w₁ a b := ⟨_, rfl⟩
  simp only [← hw₂] at hu
  have hoff : w₂.kv.appendOff = logSize (live.map written) := by rw [hw₂]; exact ha
  have hrd : w₂.kv.ready = true := by rw [hw₂]; exact hready
  have hck := writeCkpt_unfold w₂ hrd
  generalize ckptBody w₂.kv.index w₂.kv.appendOff = v at hck
  by_cases hfit : w₂.kv.appendOff+(written (ckptKey, v)).size ≤ w₂.flash.size
  · obtain ⟨g, st, d, hg, hp⟩ := putRaw_room w₂ ckptKey v hfit
    obtain ⟨g', hg', hpre, -, -⟩ := start_append (r := written (ckptKey, v))
      (show logBytes (live.map written) <+: w₂.flash.data by rw [hw₂]; exact hb.start)
      (by rw [← hoff]; exact hfit)
    rw [hoff] at hg
    obtain rfl : g = g' := Except.ok.inj (hg.symm.trans hg')
    rw [hck, hp] at hu
    have hL : (live ++ [(ckptKey, v)]).map written =
        live.map written ++ [written (ckptKey, v)] := by simp
    have hbeg : Begins g.data (live.map written) := by
      refine ⟨List.IsPrefix.trans ?_ hpre, hb.small⟩
      rw [logBytes_append]
      exact List.prefix_append _ _
    have hindex : ∀ k, k ≠ ckptKey →
        (w₂.kv.index.insert ckptKey w₂.kv.appendOff)[k]? = w₁.kv.index[k]? := by
      intro k hk
      rw [get_insert, if_neg hk, hw₂]
      rfl
    refine ⟨_, v, hu, by rw [hL]; exact hpre, by rw [hL]; simp [World.setKv, hoff],
      fun p hpl hk => ?_, fun k hk hnl => ?_⟩
    · obtain ⟨o, ho, hat⟩ := hmem p hpl
      simp only [view, World.setKv, hindex p.1 hk, ho, readRecord_at hbeg hat]
      simp [hrd, written]
    · have hno : w₁.kv.index[k]? = none := by
        rw [hother k hnl]
        simp [cleared]
      simp only [view, World.setKv, hindex k hk, hno, hrd]
      rfl
  · rw [hck, putRaw_full w₂ ckptKey v (not_le.mp hfit)] at hu
    exfalso
    have htr : (rewriteLive f live w).2.trace = w.trace ++ (es ++ [.refused]) := by
      have ht₂ : w₂.trace = w.trace ++ es := by rw [hw₂]; exact ht
      rw [hu]
      simp only [World.log, ht₂, List.append_assoc]
    rw [added_eq htr] at hes
    exact hes (by simp)

/-- A compaction that is never refused succeeds, leaves every other key as it
was, and ends with one contiguous log of live records. -/
theorem compact_keeps (w : World) (hr : w.kv.ready = true) (hc : w.compacting = false)
    (hv : ∀ (k : Str) (o : ℕ), w.kv.index[k]? = some o →
      (∃ v, v ≠ [] ∧ view w k = .ok v) ∨ view w k = .error .missing)
    (hok : Event.refused ∉ added w (compact w).2) :
    (compact w).1 = .ok () ∧ (∀ k, k ≠ ckptKey → view (compact w).2 k = view w k) ∧
      ∃ L v, L = (liveOf w ++ [(ckptKey, v)]).map written ∧ (∀ r ∈ L, r.live = true) ∧
        logBytes L <+: (compact w).2.flash.data ∧ (compact w).2.kv.appendOff = logSize L := by
  obtain ⟨w₁, hu, hf, hr₁, -, -, hcp, ht⟩ := compact_unfold w hr
  have hd := wipeLen_dvd w.kv.appendOff
  by_cases hle : wipeLen w.kv.appendOff ≤ w₁.flash.size
  · obtain ⟨g, es, he, -, -, -⟩ := wipe_region _ hd (0, w₁) (by simp) (by simp) hle
    rw [he] at hu
    simp only at hu
    have hw₂ : ∃ w₂, w₂ = { w₁ with flash := g, trace := w₁.trace ++ es } := ⟨_, rfl⟩
    obtain ⟨w₂, hw₂⟩ := hw₂
    rw [← hw₂] at hu
    have hes : Event.refused ∉ added w₂ (rewriteLive (fun w => (.ok (), w)) (liveOf w) w₂).2 := by
      obtain ⟨es', ht', -⟩ := (frame_rewriteLive (fun w => (.ok (), w)) (liveOf w) w₂
        (by rw [hw₂]; exact hcp.trans hc)).history
      rw [added_eq ht']
      have htr : (compact w).2.trace = w.trace ++ ([.compactStart w.flash w.kv] ++ es ++ es') := by
        rw [hu, ht', hw₂]
        simp only [ht, List.append_assoc]
      rw [added_eq htr] at hok
      exact fun hm => hok (List.mem_append_right _ hm)
    obtain ⟨w', v, hw', hpre, hoff, hin, hout⟩ :=
      rewriteLive_keeps (fun w => (.ok (), w)) (liveOf w) w₂
      (by rw [hw₂]; exact hr₁) (liveOf_nodup w)
      (fun p hp => view_short (mem_liveOf.mp hp).1) hes
    rw [hw'] at hu
    rw [hu]
    refine ⟨rfl, fun k hk => ?_, _, v, rfl, ?_, hpre, hoff⟩
    · by_cases hm : k ∈ (liveOf w).map Prod.fst
      · obtain ⟨p, hp, rfl⟩ := List.mem_map.mp hm
        rw [hin p hp hk, (mem_liveOf.mp hp).1]
      rw [hout k hk hm]
      cases hi : w.kv.index[k]? with
      | none => simp only [view, hr, hi]; rfl
      | some o =>
        rcases hv k o hi with ⟨v, hne, hview⟩ | hview
        · exact absurd (List.mem_map.mpr ⟨(k, v), mem_liveOf.mpr ⟨hview, hne⟩, rfl⟩) hm
        · exact hview.symm
    · intro r hr
      obtain ⟨p, -, rfl⟩ := List.mem_map.mp hr
      rfl
  · exfalso
    obtain ⟨e, es, he, htr, hm⟩ := wipe_overrun _ (0, w₁) (by simp) (not_le.mp hle)
    generalize (wipeLoop (wipeLen w.kv.appendOff)).exec (0, w₁) = out at hu he htr
    obtain ⟨res, w₂⟩ := out
    simp only at he htr
    rw [he] at hu
    have htr' : (compact w).2.trace = w.trace ++ ([.compactStart w.flash w.kv] ++ es) := by
      rw [hu]
      simp only [htr, ht, List.append_assoc]
    rw [added_eq htr'] at hok
    exact hok (by simp [hm])

def sampleStore : World :=
  run (start 4096 (by decide)) [.put keyA [1], .put keyB [2], .put keyA [3]]

theorem sampleStore_ready : sampleStore.kv.ready = true ∧ sampleStore.compacting = false ∧
    sampleStore.kv.index.toList = [(keyA, 1024), (keyB, 512)] ∧
    view sampleStore keyA = .ok [3] ∧ view sampleStore keyB = .ok [2] := by
  decide +kernel

theorem compact_keeps_sample :
    (compact sampleStore).1 = .ok () ∧
      (∀ k, k ≠ ckptKey → view (compact sampleStore).2 k = view sampleStore k) ∧
      ∃ L v, L = (liveOf sampleStore ++ [(ckptKey, v)]).map written ∧ (∀ r ∈ L, r.live = true) ∧
        logBytes L <+: (compact sampleStore).2.flash.data ∧
        (compact sampleStore).2.kv.appendOff = logSize L := by
  obtain ⟨hr, hc, hi, ha, hb⟩ := sampleStore_ready
  refine compact_keeps sampleStore hr hc (fun k o ho => ?_) ?_
  · have hm := Std.ExtTreeMap.mem_toList_iff_getElem?_eq_some.mpr ho
    rw [hi] at hm
    simp only [List.mem_cons, Prod.mk.injEq, List.not_mem_nil, or_false] at hm
    rcases hm with ⟨rfl, -⟩ | ⟨rfl, -⟩
    · exact .inl ⟨[3], by simp, ha⟩
    · exact .inl ⟨[2], by simp, hb⟩
  · rw [refused_notMem_iff]
    decide +kernel

end NeuralOs.TickvCompactContent

/-! ## Power loss during a compaction -/

namespace NeuralOs.TickvCompactCrash
open ByteString MeasuredLoop TickvRecord TickvState TickvStore TickvTrace TickvCompaction TickvMount
open TickvCompactContent TickvOperation

/-- The world left by a crash after the first `n` events that led from `w` to `w'`. -/
def crashed (w w' : World) (n : ℕ) : World :=
  { w with flash := applyEvents w.flash ((added w w').take n) }

theorem remount_blank (w : World) (hs : header ≤ w.flash.size)
    (hb : hdrBlank (slice w.flash.data 0 header) = true)
    (ht : hdrTickvShaped (slice w.flash.data 0 header) = false) (k : Str) :
    view (remount w none) k = .error .missing := by
  have hin : ¬ 0+header > w.flash.size := by omega
  have hread : w.flash.read 0 header = .ok (slice w.flash.data 0 header) :=
    if_neg (by unfold RamFlash.size at hs; omega)
  have hc : ckptScanStep w.flash ⟨0, none, none⟩ = .inr (.ok (), ⟨0, none, none⟩) := by
    simp only [ckptScanStep, if_neg hin, expired, hread, ht, hb, ticked]
    rfl
  have hr : ∀ kv, scanRangeStep w.flash ⟨0, kv, none⟩ = .inr (.ok (), ⟨0, kv, none⟩) := by
    intro kv
    simp only [scanRangeStep, if_neg hin, expired, hread, ht, hb, ticked]
    rfl
  have hm : ∃ kv, remount w none = { w with kv := kv, compacting := false } ∧
      kv.ready = true ∧ kv.index = ∅ := by
    unfold remount mount mountFrom tryMountFromCkpt
    simp only [exec_stop (ckptScanLoop w.flash) hc, recover, scanRange,
      exec_stop (scanRangeLoop w.flash) (hr _), mountReady, TickvLite.recomputeLiveEstimate]
    exact ⟨_, by simp [TickvLite.new, Backend.slow]; rfl, rfl, rfl⟩
  obtain ⟨kv, he, hrd, hi⟩ := hm
  rw [he]
  simp [view, hrd, hi]

theorem remount_erased {w : World} {f : RamFlash} {c : ℕ} (hc : header ≤ c) (hs : c ≤ f.size)
    (hw : w.flash = applyEvent f (.erased 0 c)) (k : Str) :
    view (remount w none) k = .error .missing := by
  obtain ⟨g, hg, hd, hsz⟩ := f.write_ok 0 (List.replicate c 0xFF) (by simpa using hs)
  have hfl : w.flash = g := by
    rw [hw]
    simp [applyEvent, RamFlash.erase, hg, Except.toOption]
  have hsl : slice g.data 0 header = List.replicate header 0xFF := by
    rw [hd, patch, List.take_zero, List.nil_append, slice_left (by simpa using hc)]
    rw [slice, List.drop_zero, List.take_replicate, min_eq_left hc]
  exact remount_blank w (by rw [hfl, hsz]; omega) (by rw [hfl, hsl]; decide)
    (by rw [hfl, hsl]; decide) k

def firstChunk (w : World) : ℕ := alignUp 512 (min 4096 (wipeLen w.kv.appendOff))

theorem firstChunk_ge (w : World) : 512 ≤ firstChunk w := by
  have := (wipeLen_ge w.kv.appendOff).2
  exact le_trans (by omega) (alignUp_ge 512 (min 4096 (wipeLen w.kv.appendOff)) (by decide))

theorem compact_history (w : World) (hr : w.kv.ready = true) (hc : w.compacting = false)
    (hs : firstChunk w ≤ w.flash.size) :
    ∃ es, added w (compact w).2 = .compactStart w.flash w.kv::.erased 0 (firstChunk w)::es := by
  obtain ⟨w₁, hu, hf, hr₁, -, -, hcp, ht⟩ := compact_unfold w hr
  obtain ⟨-, g, -, he⟩ := wipe_chunk w₁ 0 (firstChunk w) (by rw [hf]; simpa using hs)
  have h0 : 0 < wipeLen w.kv.appendOff := by
    have := (wipeLen_ge w.kv.appendOff).2
    omega
  have hstep : (wipeLoop (wipeLen w.kv.appendOff)).step (0, w₁) =
      .inl (firstChunk w, chunked w₁ 0 (firstChunk w) g) := by
    unfold firstChunk at he ⊢
    simp only [wipeLoop, if_pos h0, Nat.sub_zero, he, Nat.zero_add]
  rw [exec_turn _ hstep] at hu
  have hfr := frame_wipe (wipeLen w.kv.appendOff) (firstChunk w, chunked w₁ 0 (firstChunk w) g)
  have hall : Frame (chunked w₁ 0 (firstChunk w) g) (compact w).2 := by
    rw [hu]
    generalize (wipeLoop (wipeLen w.kv.appendOff)).exec _ = out at hfr
    obtain ⟨_ | _, w₂⟩ := out
    · exact hfr
    · exact hfr.trans (frame_rewriteLive _ _ w₂ (hfr.compacting.trans (hcp.trans hc)))
  obtain ⟨es, hes, -⟩ := hall.history
  refine ⟨.wrote 0 (zeros (firstChunk w))::es, added_eq ?_⟩
  rw [hes, chunked, ht]
  simp

theorem compact_history_small (w : World) (hr : w.kv.ready = true)
    (hs : w.flash.size < firstChunk w) :
    added w (compact w).2 = [.compactStart w.flash w.kv, .refused] := by
  obtain ⟨w₁, hu, hf, -, -, -, -, ht⟩ := compact_unfold w hr
  have h0 : 0 < wipeLen w.kv.appendOff := by
    have := (wipeLen_ge w.kv.appendOff).2
    omega
  rw [wipe_small w₁ _ h0 (by rw [hf]; exact hs)] at hu
  apply added_eq
  rw [hu]
  simp only [World.log, ht, List.append_assoc]
  rfl

theorem compact_starts (w : World) (hr : w.kv.ready = true) (hc : w.compacting = false) :
    ∃ es, added w (compact w).2 = .compactStart w.flash w.kv::es := by
  by_cases hs : w.flash.size < firstChunk w
  · exact ⟨_, compact_history_small w hr hs⟩
  · obtain ⟨es, he⟩ := compact_history w hr hc (not_lt.mp hs)
    exact ⟨_, he⟩

/-- Every crash inside the compaction leaves a flash that mounts with the old
value of every key that has one. -/
def CrashSafe (w : World) : Prop :=
  ∀ n k v, view w k = .ok v → v ≠ [] → view (remount (crashed w (compact w).2 n) none) k = .ok v

/-- A compaction survives every crash only if there is nothing to lose, or if
it cannot start because the volume is smaller than its first chunk. -/
theorem compact_crashSafe_iff (w : World) (hr : w.kv.ready = true) (hc : w.compacting = false) :
    CrashSafe w ↔ (∀ k v, view w k = .ok v → v = []) ∨
      (w.flash.size < firstChunk w ∧
        ∀ k v, view w k = .ok v → v ≠ [] → view (remount w none) k = .ok v) := by
  constructor
  · intro h
    by_cases hs : w.flash.size < firstChunk w
    · exact .inr ⟨hs, h 0⟩
    left
    intro k v hv
    by_contra hne
    have hs' := not_lt.mp hs
    have h512 := firstChunk_ge w
    obtain ⟨es, hes⟩ := compact_history w hr hc hs'
    have hm := remount_erased (w := crashed w (compact w).2 2) (f := w.flash)
      (by unfold header; omega) hs' (by simp [crashed, hes, applyEvents, applyEvent]) k
    have := h 2 k v hv hne
    rw [hm] at this
    cases this
  · rintro (h | ⟨hs, h⟩) n k v hv hne
    · exact absurd (h k v hv) hne
    have hfl : applyEvents w.flash ([.compactStart w.flash w.kv, .refused].take n) = w.flash := by
      rcases n with _ | _ | n <;> simp [applyEvents, applyEvent]
    have hcr : crashed w (compact w).2 n = w := by
      unfold crashed
      rw [compact_history_small w hr hs, hfl]
    rw [hcr]
    exact h k v hv hne

theorem sampleStore_crash :
    view sampleStore keyA = .ok [3] ∧
      view (remount (crashed sampleStore (compact sampleStore).2 2) none) keyA =
        .error .missing := by
  decide +kernel

def deletedStore : World :=
  run (start 4096 (by decide)) [.put keyA [1], .put keyB [2], .delete keyA, .delete keyB]

theorem compact_crashSafe_deleted : ¬CrashSafe sampleStore ∧ CrashSafe deletedStore := by
  have hr : deletedStore.kv.ready = true := by decide +kernel
  have hc : deletedStore.compacting = false := by decide +kernel
  have hi : deletedStore.kv.index.toList = [] := by decide +kernel
  obtain ⟨hrs, hcs, -, ha, -⟩ := sampleStore_ready
  refine ⟨fun h => ?_, (compact_crashSafe_iff _ hr hc).mpr (.inl fun k v hv => ?_)⟩
  · rcases (compact_crashSafe_iff _ hrs hcs).mp h with h | ⟨hs, -⟩
    · cases h keyA [3] ha
    · revert hs
      decide +kernel
  · rw [Std.ExtTreeMap.toList_eq_nil_iff] at hi
    simp [view, hr, hi] at hv

end NeuralOs.TickvCompactCrash
