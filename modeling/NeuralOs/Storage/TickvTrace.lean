import NeuralOs.Storage.TickvStore

/-!
# What every operation leaves alone

The flash updates of an operation are the ones it adds to the history, in that
order, and its writes lie inside the flash; it neither unmounts the store nor
changes the back end, and it leaves the `compacting` flag as it was. A crash in
the middle of an operation is then a cut of the added events.
-/

set_option autoImplicit false

namespace NeuralOs.TickvTrace
open ByteString MeasuredLoop TickvRecord TickvState TickvStore

def applyEvent (f : RamFlash) : Event → RamFlash
  | .wrote off d => (f.write off d).toOption.getD f
  | .erased off n => (f.erase off n).toOption.getD f
  | _ => f

def applyEvents (f : RamFlash) (es : List Event) : RamFlash := es.foldl applyEvent f

theorem write_size {f g : RamFlash} {off : ℕ} {d : Bytes} (h : f.write off d = .ok g) :
    g.size = f.size := by
  unfold RamFlash.write at h
  split at h
  · next hb =>
    cases h
    exact patch_length hb
  · cases h

theorem applyEvent_size (f : RamFlash) (e : Event) : (applyEvent f e).size = f.size := by
  cases e with
  | wrote off d =>
    cases h : f.write off d with
    | ok g => simpa [applyEvent, h, Except.toOption] using write_size h
    | error _ => simp [applyEvent, h, Except.toOption]
  | erased off n =>
    cases h : f.erase off n with
    | ok g => simpa [applyEvent, h, Except.toOption] using write_size h
    | error _ => simp [applyEvent, h, Except.toOption]
  | refused => rfl
  | compactStart _ _ => rfl

theorem applyEvents_append (f : RamFlash) (es fs : List Event) :
    applyEvents f (es ++ fs) = applyEvents (applyEvents f es) fs := by
  simp [applyEvents]

theorem applyEvents_size (f : RamFlash) (es : List Event) : (applyEvents f es).size = f.size := by
  induction es generalizing f with
  | nil => rfl
  | cons e es ih => exact (ih _).trans (applyEvent_size f e)

structure Frame (w w' : World) : Prop where
  history : ∃ es, w'.trace = w.trace ++ es ∧ w'.flash = applyEvents w.flash es
  ready : w'.kv.ready = w.kv.ready
  compacting : w'.compacting = w.compacting
  backend : w'.kv.backend = w.kv.backend
  inside : ∀ off d, .wrote off d ∈ w'.trace →
    .wrote off d ∈ w.trace ∨ off+d.length ≤ w.flash.size

theorem Frame.refl (w : World) : Frame w w :=
  ⟨⟨[], by simp, rfl⟩, rfl, rfl, rfl, fun _ _ h => .inl h⟩

theorem Frame.size {w w' : World} (h : Frame w w') : w'.flash.size = w.flash.size := by
  obtain ⟨es, _, hf⟩ := h.history
  rw [hf, applyEvents_size]

theorem Frame.trans {w₁ w₂ w₃ : World} (h : Frame w₁ w₂) (h' : Frame w₂ w₃) : Frame w₁ w₃ := by
  obtain ⟨es, ht, hf⟩ := h.history
  obtain ⟨es', ht', hf'⟩ := h'.history
  refine ⟨⟨es ++ es', ?_, ?_⟩, h'.ready.trans h.ready, h'.compacting.trans h.compacting,
    h'.backend.trans h.backend, fun off d hm => ?_⟩
  · rw [ht', ht, List.append_assoc]
  · rw [hf', hf, applyEvents_append]
  · rcases h'.inside off d hm with hm | hle
    · exact h.inside off d hm
    · rw [h.size] at hle
      exact .inr hle

theorem Frame.mem {w w' : World} (h : Frame w w') {e : Event} (he : e ∈ w.trace) :
    e ∈ w'.trace := by
  obtain ⟨es, ht, _⟩ := h.history
  rw [ht]
  exact List.mem_append_left _ he

theorem frame_setKv (w : World) {kv : TickvLite} (h : kv.ready = w.kv.ready)
    (hb : kv.backend = w.kv.backend) : Frame w (w.setKv kv) :=
  ⟨⟨[], by simp [World.setKv], rfl⟩, h, rfl, hb, fun _ _ h => .inl h⟩

theorem frame_log (w : World) (e : Event) (h : applyEvent w.flash e = w.flash)
    (he : ∀ off d, e ≠ .wrote off d) : Frame w (w.log e) :=
  ⟨⟨[e], rfl, h.symm⟩, rfl, rfl, rfl, fun off d hm => .inl (by
    simpa [World.log, Ne.symm (he off d)] using hm)⟩

theorem frame_write (w : World) (off : ℕ) (d : Bytes) : Frame w (w.write off d).2 := by
  unfold World.write
  cases h : w.flash.write off d with
  | ok f =>
    have hin : off+d.length ≤ w.flash.size := by
      by_contra hlt
      rw [w.flash.write_oob off d (not_le.mp hlt)] at h
      cases h
    refine ⟨⟨[.wrote off d], rfl, ?_⟩, rfl, rfl, rfl, fun off' d' hm => ?_⟩
    · simp [World.log, applyEvents, applyEvent, h, Except.toOption]
    · rcases List.mem_append.mp hm with hm | hm
      · exact .inl hm
      · obtain ⟨rfl, rfl⟩ : off' = off ∧ d' = d := by simpa using hm
        exact .inr hin
  | error e => exact frame_log w .refused rfl (by simp)

theorem frame_erase (w : World) (off n : ℕ) : Frame w (w.erase off n) := by
  unfold World.erase
  cases h : w.flash.erase off n with
  | ok f =>
    exact ⟨⟨[.erased off n], rfl, by simp [World.log, applyEvents, applyEvent, h, Except.toOption]⟩,
      rfl, rfl, rfl, fun off d hm => .inl (by simpa [World.log] using hm)⟩
  | error e => exact .refl w

theorem enter_fields (kv : TickvLite) (key : Str) (off total : ℕ) :
    (kv.enter key off total).ready = kv.ready ∧ (kv.enter key off total).backend = kv.backend := by
  unfold TickvLite.enter
  simp only
  split <;> exact ⟨rfl, rfl⟩

theorem frame_putRaw (w : World) (key : Str) (val : Bytes) : Frame w (putRaw w key val).2 := by
  have hw := frame_write w w.kv.appendOff (encodeRecord key.bytes val)
  simp only [putRaw]
  generalize w.write w.kv.appendOff (encodeRecord key.bytes val) = out at hw
  obtain ⟨_ | _, w'⟩ := out
  · exact hw
  · exact hw.trans (frame_setKv w' (enter_fields w'.kv key w.kv.appendOff _).1
      (enter_fields w'.kv key w.kv.appendOff _).2)

theorem frame_invalidateKey (w : World) (key : Str) : Frame w (invalidateKey w key).2 := by
  unfold invalidateKey
  split
  · exact .refl w
  split
  · exact .refl w
  next off _ =>
  have hw := frame_write w (off+3) [0]
  generalize w.write (off+3) [0] = out at hw
  obtain ⟨_ | _, w'⟩ := out
  · exact hw
  · exact hw.trans (frame_setKv w' (by simp only [TickvLite.addDead])
      (by simp only [TickvLite.addDead]))

theorem frame_writeCkpt (w : World) : Frame w (writeCkpt w).2 := by
  unfold writeCkpt
  split
  · exact .refl w
  · have hp := frame_putRaw w ckptKey (ckptBody w.kv.index w.kv.appendOff)
    generalize putRaw w ckptKey (ckptBody w.kv.index w.kv.appendOff) = out at hp
    obtain ⟨_ | _, w'⟩ := out
    · exact hp
    · exact hp.trans (frame_setKv _ rfl rfl)

theorem frame_invalidateAll (items : List (Str × Bytes)) (w : World) :
    Frame w (invalidateAll items w) := by
  induction items generalizing w with
  | nil => exact .refl w
  | cons p items ih =>
    rw [invalidateAll]
    refine Frame.trans ?_ (ih _)
    split
    · exact frame_invalidateKey w p.1
    · exact .refl w

theorem frame_appendAll (items : List (Str × Bytes)) (w : World) :
    Frame w (appendAll items w).2 := by
  induction items generalizing w with
  | nil => exact .refl w
  | cons p items ih =>
    have hp := frame_putRaw w p.1 p.2
    rw [appendAll]
    generalize putRaw w p.1 p.2 = out at hp
    obtain ⟨_ | _, w'⟩ := out
    · exact hp
    · exact hp.trans (ih w')

theorem frame_countGet (w : World) : Frame w (countGet w) := by
  unfold countGet
  split
  · exact .refl w
  · exact frame_setKv _ rfl rfl

theorem frame_collectLive (keys : List Str) (w : World) : Frame w (collectLive keys w).2 := by
  induction keys generalizing w with
  | nil => exact .refl w
  | cons k keys ih =>
    have h := (frame_countGet w).trans (ih (countGet w))
    rw [collectLive]
    simp only [TickvStore.get]
    split <;> exact h

theorem frame_wipe (wipe : ℕ) (s : ℕ × World) : Frame s.2 ((wipeLoop wipe).exec s).2 := by
  apply exec_rule (wipeLoop wipe) (fun s r => Frame s.2 r.2)
  all_goals
    intro s r
    have hw := (frame_erase s.2 s.1 (alignUp 512 (min 4096 (wipe-s.1)))).trans
      (frame_write _ s.1 (zeros (alignUp 512 (min 4096 (wipe-s.1)))))
    simp only [wipeLoop]
    generalize (s.2.erase s.1 (alignUp 512 (min 4096 (wipe-s.1)))).write s.1
      (zeros (alignUp 512 (min 4096 (wipe-s.1)))) = out at hw
    obtain ⟨_ | _, w'⟩ := out
  · intro h
    split at h <;> cases h
    · exact hw
    · exact .refl _
  · intro h
    split at h <;> cases h
    exact .refl _
  · intro r' h
    split at h <;> cases h
  · intro r' h hr
    split at h <;> cases h
    exact hw.trans hr

section Flush
variable {nested : World → Result Unit × World}

theorem frame_maybeGc (hn : ∀ w : World, w.compacting = false → Frame w (nested w).2) (w : World) :
    Frame w (maybeGcWith nested w).2 := by
  unfold maybeGcWith
  split
  · exact ⟨⟨[], by simp, rfl⟩, rfl, rfl, rfl, fun _ _ h => .inl h⟩
  next hc =>
  repeat' split
  · exact .refl w
  · exact .refl w
  · exact hn w (by simpa using hc)
  · exact .refl w

theorem frame_flush (hn : ∀ w : World, w.compacting = false → Frame w (nested w).2) (w : World) :
    Frame w (flushOpportunisticWith nested w).2 := by
  unfold flushOpportunisticWith
  split
  · exact .refl w
  split
  · split
    · exact .refl w
    · have hc := frame_writeCkpt w
      generalize writeCkpt w = out at hc
      obtain ⟨_ | _, w'⟩ := out <;> exact hc
  · split
    · exact .refl w
    · have hg := frame_maybeGc hn w
      simp only
      split
      · exact hg
      · exact hg.trans (frame_setKv _ rfl rfl)

theorem frame_highWater (hn : ∀ w : World, w.compacting = false → Frame w (nested w).2)
    (w : World) :
    Frame w (maybeHighWaterFlushWith nested w) := by
  unfold maybeHighWaterFlushWith
  repeat' split
  · exact .refl w
  · exact frame_maybeGc hn w
  · exact frame_setKv _ rfl rfl
  · exact frame_flush hn w

theorem frame_putBatch (hn : ∀ w : World, w.compacting = false → Frame w (nested w).2)
    (items : List (Str × Bytes)) (w : World) : Frame w (putBatchWith nested items w).2 := by
  unfold putBatchWith
  split
  · exact .refl w
  have ha := (frame_invalidateAll items w).trans (frame_appendAll items (invalidateAll items w))
  generalize appendAll items (invalidateAll items w) = out at ha
  obtain ⟨_ | _, w'⟩ := out
  · exact ha
  · simp only
    split
    · exact ha.trans (frame_highWater hn w')
    · exact ha

end Flush

section Compact
variable (f g : World → Result Unit × World)

theorem putBatch_guarded (items : List (Str × Bytes)) (w : World) (h : w.compacting = true) :
    putBatchWith f items w = putBatchWith g items w := by
  have hc : (appendAll items (invalidateAll items w)).2.compacting = true := by
    rw [(frame_appendAll _ _).compacting, (frame_invalidateAll _ _).compacting, h]
  unfold putBatchWith
  split
  · rfl
  · generalize appendAll items (invalidateAll items w) = out at hc
    obtain ⟨_ | _, w'⟩ := out
    · rfl
    · simp only [maybeHighWaterFlush_guarded f g w' hc]

theorem rewriteLive_guarded (live : List (Str × Bytes)) (w : World) :
    rewriteLive f live w = rewriteLive g live w := by
  unfold rewriteLive
  rw [putBatch_guarded f g live (cleared w) rfl]

theorem compact_fixpoint (w : World) : compactWith f w = compactWith g w := by
  unfold compactWith
  simp only [rewriteLive_guarded f g]

theorem frame_rewriteLive (live : List (Str × Bytes)) (w : World) (h : w.compacting = false) :
    Frame w (rewriteLive f live w).2 := by
  rw [rewriteLive_guarded f (fun w => (.ok (), w))]
  have hb := @frame_putBatch (fun w => (.ok (), w)) (fun w _ => .refl w) live (cleared w)
  unfold rewriteLive
  generalize putBatchWith _ live (cleared w) = out at hb
  obtain ⟨_ | _, w'⟩ := out
  · exact ⟨hb.history, hb.ready, h.symm, hb.backend, hb.inside⟩
  · have hc := hb.trans (frame_writeCkpt w')
    simp only
    generalize writeCkpt w' = out at hc
    obtain ⟨_ | _, w''⟩ := out <;>
      exact ⟨hc.history, hc.ready, h.symm, hc.backend, hc.inside⟩

theorem frame_compactWith (w : World) (h : w.compacting = false) : Frame w (compactWith f w).2 := by
  unfold compactWith
  split
  · exact .refl w
  have hl : Frame w (w.log (.compactStart w.flash w.kv)) :=
    frame_log w _ rfl (by simp)
  generalize w.log (.compactStart w.flash w.kv) = w₁ at hl
  have hc := hl.trans (frame_collectLive w₁.kv.index.keys w₁)
  simp only
  generalize collectLive w₁.kv.index.keys w₁ = out at hc
  obtain ⟨live, w₂⟩ := out
  have hw := hc.trans (frame_wipe (wipeLen w₂.kv.appendOff) (0, w₂))
  simp only
  generalize (wipeLoop (wipeLen w₂.kv.appendOff)).exec (0, w₂) = out at hw
  obtain ⟨_ | _, w₃⟩ := out
  · exact hw
  · exact hw.trans (frame_rewriteLive f live w₃ (hw.compacting.trans h))

end Compact

theorem frame_compact (w : World) (h : w.compacting = false) : Frame w (compact w).2 :=
  frame_compactWith _ w h

theorem put_eq_putBatch (w : World) (key : Str) (val : Bytes) :
    put w key val = putBatch w [(key, val)] := by
  unfold put putBatch putBatchWith
  split
  · rfl
  simp only [invalidateAll, appendAll]
  generalize (if key ≠ ckptKey ∧ w.kv.index.contains key = true
    then (invalidateKey w key).2 else w) = w'
  generalize putRaw w' key val = out
  obtain ⟨_ | _, w''⟩ := out
  · rfl
  · simp [maybeHighWaterFlush]

theorem frame_put (w : World) (key : Str) (val : Bytes) : Frame w (put w key val).2 := by
  rw [put_eq_putBatch]
  exact frame_putBatch frame_compact _ w

theorem frame_delete (w : World) (key : Str) : Frame w (delete w key).2 := by
  unfold delete
  have hi := frame_invalidateKey w key
  generalize invalidateKey w key = out at hi
  obtain ⟨_ | _, w'⟩ := out
  · have hp := hi.trans (frame_put w' key [])
    simp only
    generalize put w' key [] = out at hp
    obtain ⟨_ | _, w''⟩ := out
    · exact hp
    · exact hp.trans (frame_setKv _ rfl rfl)
  · exact hi

end NeuralOs.TickvTrace
