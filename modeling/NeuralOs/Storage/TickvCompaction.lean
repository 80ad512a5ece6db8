import NeuralOs.Storage.LogStore

/-!
# Compaction

`compact` reads the live set, zeroes the used region chunk by chunk, and
writes the live set and a checkpoint from offset 0 on. The zeroing is
followed turn by turn, in any world; on a log the whole call is the
compaction of the log.
-/

set_option autoImplicit false

namespace NeuralOs.TickvCompaction
open ByteString MeasuredLoop TickvRecord TickvState TickvStore TickvTrace TickvLog TickvLogUpdate
open TickvImage LogStore TickvRefine

section Wipe
variable (w : World)

theorem patch_self_twice {b : Bytes} {o : ℕ} {x y : Bytes} (h : o+x.length ≤ b.length)
    (hl : y.length = x.length) : patch (patch b o x) o y = patch b o y := by
  have ht : (b.take o).length = o := by simp; omega
  have h1 : (patch b o x).take o = b.take o := by
    rw [patch, List.append_assoc, List.take_append_of_le_length (by omega), List.take_of_length_le
      (by omega)]
  have h2 : (patch b o x).drop (o+y.length) = b.drop (o+y.length) := by
    have hx : o+y.length = (b.take o ++ x).length := by simp; omega
    rw [patch]
    conv_lhs => arg 1; rw [hx]
    rw [List.drop_left, hl]
  conv_lhs => rw [patch]
  rw [h1, h2, patch]

/-- The `n` bytes at `o` are erased and then written. -/
structure Zeroed (f : RamFlash) (o n : ℕ) (g₁ g : RamFlash) : Prop where
  fits : o+n ≤ f.size
  erased : f.write o (List.replicate n 0xFF) = .ok g₁
  wrote : g₁.write o (zeros n) = .ok g
  data : g.data = f.data.take o ++ zeros n ++ f.data.drop (o+n)
  size : g.size = f.size

def chunked (o n : ℕ) (g : RamFlash) : World :=
  { w with flash := g, trace := w.trace ++ [.erased o n, .wrote o (zeros n)] }

theorem wipe_chunk (o n : ℕ) (h : o+n ≤ w.flash.size) : ∃ g₁ g, Zeroed w.flash o n g₁ g ∧
    (w.erase o n).write o (zeros n) = (.ok (), chunked w o n g) := by
  obtain ⟨g₁, hg₁, hd₁, hs₁⟩ := w.flash.write_ok o (List.replicate n 0xFF) (by simpa using h)
  obtain ⟨g, hg, hd, hs⟩ := g₁.write_ok o (zeros n) (by rw [zeros_length, hs₁]; exact h)
  refine ⟨g₁, g, ⟨h, hg₁, hg, ?_, hs.trans hs₁⟩, ?_⟩
  · rw [hd, hd₁, patch_self_twice (by simpa [RamFlash.size] using h) (by simp), patch, zeros_length]
  · simp only [World.erase, RamFlash.erase, hg₁, World.write, World.log, hg, List.append_assoc]
    rfl

theorem wipe_refused (o n : ℕ) (h : w.flash.size < o+n) :
    (w.erase o n).write o (zeros n) = (.error .oob, w.log .refused) := by
  have he := w.flash.write_oob o (List.replicate n 0xFF) (by simpa using h)
  have hw := w.flash.write_oob o (zeros n) (by simpa using h)
  simp only [World.erase, RamFlash.erase, he, World.write, hw]

/-- How much a turn of the zeroing loop takes. -/
def chunkLen (wipe o : ℕ) : ℕ := alignUp 512 (min 4096 (wipe-o))

theorem wipe_step (wipe o : ℕ) :
    (wipe ≤ o ∧ (wipeLoop wipe).step (o, w) = .inr (.ok (), w)) ∨
    (o < wipe ∧ w.flash.size < o+chunkLen wipe o ∧
      (wipeLoop wipe).step (o, w) = .inr (.error .oob, w.log .refused)) ∨
    ∃ g₁ g, o < wipe ∧ Zeroed w.flash o (chunkLen wipe o) g₁ g ∧
      (wipeLoop wipe).step (o, w) = .inl (o+chunkLen wipe o, chunked w o (chunkLen wipe o) g) := by
  by_cases hlt : o < wipe
  · simp only [wipeLoop, if_pos hlt, chunkLen]
    by_cases hn : o+alignUp 512 (min 4096 (wipe-o)) ≤ w.flash.size
    · obtain ⟨g₁, g, hz, he⟩ := wipe_chunk w o _ hn
      exact .inr (.inr ⟨g₁, g, hlt, hz, by rw [he]⟩)
    · exact .inr (.inl ⟨hlt, not_le.mp hn, by rw [wipe_refused w o _ (not_le.mp hn)]⟩)
  · exact .inl ⟨not_lt.mp hlt, if_neg hlt⟩

/-- Induction over the turns of the zeroing loop: it is done, is refused, or zeroes a chunk. -/
theorem wipe_rule (wipe : ℕ) (P : ℕ → World → Result Unit × World → Prop)
    (done : ∀ o w, wipe ≤ o → P o w (.ok (), w))
    (refused : ∀ o w, o < wipe → w.flash.size < o+chunkLen wipe o →
      P o w (.error .oob, w.log .refused))
    (turn : ∀ o w g₁ g r, o < wipe → Zeroed w.flash o (chunkLen wipe o) g₁ g →
      P (o+chunkLen wipe o) (chunked w o (chunkLen wipe o) g) r → P o w r) (s : ℕ × World) :
    P s.1 s.2 ((wipeLoop wipe).exec s) := by
  refine exec_rule (wipeLoop wipe) (fun s r => P s.1 s.2 r) ?_ ?_ s
  · rintro ⟨o, w⟩ r hs
    obtain ⟨h, he⟩ | ⟨hlt, h, he⟩ | ⟨g₁, g, -, -, he⟩ := wipe_step w wipe o
    all_goals
      rw [he] at hs
      cases hs
    · exact done o w h
    · exact refused o w hlt h
  · rintro ⟨o, w⟩ t r hs ih
    obtain ⟨-, he⟩ | ⟨-, -, he⟩ | ⟨g₁, g, hlt, hz, he⟩ := wipe_step w wipe o
    all_goals
      rw [he] at hs
      cases hs
    exact turn o w g₁ g r hlt hz ih

theorem chunkLen_of_dvd {wipe o : ℕ} (hw : 512 ∣ wipe) (ho : 512 ∣ o) :
    chunkLen wipe o = min 4096 (wipe-o) := alignUp_of_dvd 512 _ (by decide) (by omega)

theorem wipe_region (wipe : ℕ) (hw : 512 ∣ wipe) (s : ℕ × World) :
    512 ∣ s.1 → s.1 ≤ wipe → wipe ≤ s.2.flash.size →
    ∃ g es, (wipeLoop wipe).exec s = (.ok (), { s.2 with flash := g, trace := s.2.trace ++ es }) ∧
      g.data = s.2.flash.data.take s.1 ++ zeros (wipe-s.1) ++ s.2.flash.data.drop wipe ∧
      g.size = s.2.flash.size ∧ Event.refused ∉ es := by
  refine wipe_rule wipe (fun o w r => 512 ∣ o → o ≤ wipe → wipe ≤ w.flash.size →
    ∃ g es, r = (.ok (), { w with flash := g, trace := w.trace ++ es }) ∧
      g.data = w.flash.data.take o ++ zeros (wipe-o) ++ w.flash.data.drop wipe ∧
      g.size = w.flash.size ∧ Event.refused ∉ es) ?_ ?_ ?_ s
  · intro o w hge hd hle hfit
    obtain rfl : wipe = o := le_antisymm hge hle
    exact ⟨w.flash, [], by simp, by simp [zeros], rfl, by simp⟩
  · intro o w hlt hfull hd hle hfit
    rw [chunkLen_of_dvd hw hd] at hfull
    omega
  intro o w g₁ g r hlt hz ih hd hle hfit
  have hn := chunkLen_of_dvd hw hd
  generalize chunkLen wipe o = n at *
  obtain ⟨g', es, hr, hg', hsz', hes⟩ := ih (by omega) (by omega) (hz.size.symm ▸ hfit)
  refine ⟨g', [.erased o n, .wrote o (zeros n)] ++ es, ?_, ?_, hsz'.trans hz.size, ?_⟩
  · rw [hr]
    simp [chunked]
  · have ht : (w.flash.data.take o).length = o := by
      unfold RamFlash.size at hfit
      simp
      omega
    have h1 : g.data.take (o+n) = w.flash.data.take o ++ zeros n := by
      rw [hz.data, List.take_append_of_le_length (by simp [ht]),
        List.take_of_length_le (by simp [ht])]
    have h2 : g.data.drop wipe = w.flash.data.drop wipe := by
      have hx : wipe = (w.flash.data.take o ++ zeros n).length+(wipe-(o+n)) := by
        simp [ht]
        omega
      rw [hz.data, hx, List.drop_length_add_append, List.drop_drop]
      congr 1
      simp [ht]
    have hrest : zeros (wipe-o) = zeros n ++ zeros (wipe-(o+n)) := by
      rw [zeros_append]
      congr 1
      omega
    simp only [hg', chunked, h1, h2, hrest, List.append_assoc]
  · simpa using hes

theorem wipe_overrun (wipe : ℕ) (s : ℕ × World) : s.1 ≤ s.2.flash.size → s.2.flash.size < wipe →
    ∃ e es, ((wipeLoop wipe).exec s).1 = .error e ∧
      ((wipeLoop wipe).exec s).2.trace = s.2.trace ++ es ∧ Event.refused ∈ es := by
  refine wipe_rule wipe (fun o w r => o ≤ w.flash.size → w.flash.size < wipe →
    ∃ e es, r.1 = .error e ∧ r.2.trace = w.trace ++ es ∧ Event.refused ∈ es) ?_ ?_ ?_ s
  · intro o w hge hle hlt
    omega
  · intro o w _ _ _ _
    exact ⟨_, [.refused], rfl, rfl, by simp⟩
  · intro o w g₁ g r _ hz ih hle hlt
    obtain ⟨e, es, h1, h2, h3⟩ := ih (hz.size.symm ▸ hz.fits) (hz.size.symm ▸ hlt)
    exact ⟨e, [_, _] ++ es, h1, h2.trans (List.append_assoc _ _ _), by simp [h3]⟩

theorem wipe_small (wipe : ℕ) (h0 : 0 < wipe) (h : w.flash.size < alignUp 512 (min 4096 wipe)) :
    (wipeLoop wipe).exec (0, w) = (.error .oob, w.log .refused) := by
  apply exec_stop
  simp only [wipeLoop, if_pos h0, Nat.sub_zero, wipe_refused w 0 _ (by simpa using h)]

theorem wipeLen_dvd (a : ℕ) : 512 ∣ wipeLen a := by
  unfold wipeLen
  rcases max_choice (alignUp 512 a) 512 with h | h <;> rw [h]
  exact alignUp_dvd _ _

theorem wipeLen_ge (a : ℕ) : a ≤ wipeLen a ∧ 512 ≤ wipeLen a :=
  ⟨(alignUp_ge 512 a (by decide)).trans (le_max_left _ _), le_max_right _ _⟩

end Wipe

def liveEntry (w : World) (k : Str) : Option (Str × Bytes) :=
  match view w k with
  | .ok v => if v.isEmpty then none else some (k, v)
  | .error _ => none

def liveOf (w : World) : List (Str × Bytes) := w.kv.index.keys.filterMap (liveEntry w)

section Decomposition
variable (w : World)

theorem liveEntry_same {w w' : World} (hf : w'.flash = w.flash) (hr : w'.kv.ready = w.kv.ready)
    (hi : w'.kv.index = w.kv.index) : liveEntry w' = liveEntry w := by
  funext k
  simp only [liveEntry, view, hf, hr, hi]

theorem collectLive_eq (keys : List Str) (hr : w.kv.ready = true) :
    ∃ n, collectLive keys w = (keys.filterMap (liveEntry w),
      { w with kv := { w.kv with stats := { w.kv.stats with gets := n } } }) := by
  induction keys generalizing w with
  | nil => exact ⟨w.kv.stats.gets, rfl⟩
  | cons k keys ih =>
    have hg : countGet w = { w with kv := { w.kv with
        stats := { w.kv.stats with gets := satAdd w.kv.stats.gets 1 } } } := by
      simp only [countGet, hr, Bool.not_true, Bool.false_eq_true, if_false, World.setKv]
    obtain ⟨n, hn⟩ := ih (countGet w) (by rw [hg]; exact hr)
    have hl : liveEntry (countGet w) = liveEntry w :=
      liveEntry_same (by rw [hg]) (by rw [hg]) (by rw [hg])
    refine ⟨n, ?_⟩
    rw [collectLive]
    simp only [TickvStore.get, hn, hl, List.filterMap_cons]
    rw [hg]
    cases hv : view w k with
    | error e =>
      have hk : liveEntry w k = none := by simp only [liveEntry, hv]
      simp only [hk]
    | ok v =>
      by_cases he : v.isEmpty = true
      · have hk : liveEntry w k = none := by simp only [liveEntry, hv, if_pos he]
        simp only [hk, if_pos he]
      · have hk : liveEntry w k = some (k, v) := by simp only [liveEntry, hv, if_neg he]
        simp only [hk, if_neg he]

/-- The world in which a compaction zeroes and rewrites: one history entry and some reads more. -/
def compacting (w : World) (n : ℕ) : World :=
  { w.log (.compactStart w.flash w.kv) with
    kv := { w.kv with stats := { w.kv.stats with gets := n } } }

theorem compact_phases (hr : w.kv.ready = true) :
    ∃ n, compact w = (match (wipeLoop (wipeLen w.kv.appendOff)).exec (0, compacting w n) with
        | (.error e, w₂) => (.error e, w₂)
        | (.ok _, w₂) => rewriteLive (fun w => (.ok (), w)) (liveOf w) w₂) := by
  obtain ⟨n, hn⟩ := collectLive_eq (w.log (.compactStart w.flash w.kv)) w.kv.index.keys hr
  have hl : liveEntry (w.log (.compactStart w.flash w.kv)) = liveEntry w :=
    liveEntry_same rfl rfl rfl
  refine ⟨n, ?_⟩
  unfold compact compactWith
  rw [hr]
  simp only [Bool.not_true, Bool.false_eq_true, if_false]
  have hk : (w.log (.compactStart w.flash w.kv)).kv.index.keys = w.kv.index.keys := rfl
  rw [hk, hn, hl]
  rfl

theorem compact_unfold (hr : w.kv.ready = true) :
    ∃ w₁, compact w = (match (wipeLoop (wipeLen w.kv.appendOff)).exec (0, w₁) with
        | (.error e, w₂) => (.error e, w₂)
        | (.ok _, w₂) => rewriteLive (fun w => (.ok (), w)) (liveOf w) w₂) ∧
      w₁.flash = w.flash ∧ w₁.kv.ready = true ∧ w₁.kv.index = w.kv.index ∧
      w₁.kv.appendOff = w.kv.appendOff ∧ w₁.compacting = w.compacting ∧
      w₁.trace = w.trace ++ [.compactStart w.flash w.kv] := by
  obtain ⟨n, hn⟩ := compact_phases w hr
  exact ⟨compacting w n, hn, rfl, hr, rfl, rfl, rfl, rfl⟩

/-- The skipped compactions are counted. -/
def skips (w : World) (a b : ℕ) : World :=
  { w with compactSkipped := a, compactSkippedTotal := b }

theorem rewriteLive_unfold (f : World → Result Unit × World) (live : List (Str × Bytes))
    (hr : w.kv.ready = true) :
    ∃ a b, rewriteLive f live w =
      match appendAll live (invalidateAll live (cleared w)) with
      | (.error e, w) => (.error e, { w with compacting := false })
      | (.ok _, w) =>
        match writeCkpt (skips w a b) with
        | (.error e, w) => (.error e, { w with compacting := false })
        | (.ok _, w) =>
          (.ok (), { w with compacting := false, compactSkipped := 0 }.setKv { w.kv with
            stats := { w.kv.stats with compactions := satAdd w.kv.stats.compactions 1 } }) := by
  have hc : (appendAll live (invalidateAll live (cleared w))).2.compacting = true := by
    rw [(frame_appendAll _ _).compacting, (frame_invalidateAll _ _).compacting]
    rfl
  have hrd : (cleared w).kv.ready = true := hr
  unfold rewriteLive putBatchWith
  rw [hrd]
  simp only [Bool.not_true, Bool.false_eq_true, if_false]
  generalize appendAll live (invalidateAll live (cleared w)) = out at hc
  obtain ⟨_ | _, w'⟩ := out
  · exact ⟨0, 0, rfl⟩
  simp only at hc ⊢
  have hf : ∃ a b, (if live.any (fun i => i.1 ≠ gcLockKey) then maybeHighWaterFlushWith f w'
      else w') = skips w' a b := by
    split
    · simp only [maybeHighWaterFlushWith, maybeGcWith, if_pos hc]
      split <;> exact ⟨_, _, rfl⟩
    · exact ⟨_, _, rfl⟩
  obtain ⟨a, b, hf⟩ := hf
  exact ⟨a, b, by rewrite [hf]; rfl⟩

end Decomposition

/-- The append offset is a sector boundary or the volume is made of whole sectors. -/
def Aligned (s : Store) : Prop := 512 ∣ s.size ∨ s.tail = logSize s.recs

section Refinement
variable {w : World} {s : Store}

theorem liveOf_sees (h : Sees w s) : liveOf w = s.live := by
  unfold liveOf Store.live
  rw [h.index]
  congr 1
  funext k
  rw [liveEntry, view_sees h k]
  cases s.value k with
  | none => rfl
  | some v => simp [List.isEmpty_iff]

theorem rewriteLive_sees (f : World → Result Unit × World) (live : List (Str × Bytes)) {n : ℕ}
    {hn : n < 2^63} (h : Sees (cleared w) (Store.empty n hn))
    (hs : ShortWrites (rewriteLive f live w).2) :
    ∃ res w', rewriteLive f live w = (res, w') ∧
      Sees w' (if (Store.appendAll live (Store.empty n hn)).1
        then (Store.appendAll live (Store.empty n hn)).2.writeCkpt
        else Store.appendAll live (Store.empty n hn)).2 ∧
      (res = .ok () ↔ (if (Store.appendAll live (Store.empty n hn)).1
        then (Store.appendAll live (Store.empty n hn)).2.writeCkpt
        else Store.appendAll live (Store.empty n hn)).1 = true) ∧
      (res = .ok () ∨ .refused ∈ w'.trace) := by
  have hi := invalidateAll_sees h live
  rw [Store.invalidateAll_absent live fun p _ => by simp [Store.empty]] at hi
  obtain ⟨a, b, hu⟩ := rewriteLive_unfold w f live h.ready
  rw [hu] at hs ⊢
  have hs₁ : ShortWrites (appendAll live (invalidateAll live (cleared w))).2 := by
    generalize appendAll live (invalidateAll live (cleared w)) = out at hs
    obtain ⟨_ | _, w₁⟩ := out
    · exact hs
    have hc := frame_writeCkpt (skips w₁ a b)
    have hs' : ShortWrites (writeCkpt (skips w₁ a b)).2 := by
      simp only at hs
      generalize writeCkpt (skips w₁ a b) = out at hs
      obtain ⟨_ | _, w₂⟩ := out <;> exact hs
    exact fun off d hm => hs' off d (hc.mem hm)
  obtain ⟨res, w₁, he, h₁, hb, hr⟩ := appendAll_sees hi live hs₁
  rw [he] at hs ⊢
  cases res with
  | error e =>
    have hf : (Store.appendAll live (Store.empty n hn)).1 = false := by simpa using hb
    rw [hf]
    refine ⟨_, _, rfl, h₁.same rfl rfl rfl rfl, by simpa using hf, ?_⟩
    rcases hr with hr | hr
    · cases hr
    · exact .inr hr
  | ok _ =>
    have ht : (Store.appendAll live (Store.empty n hn)).1 = true := by simpa using hb
    rw [ht]
    simp only [if_true] at hs ⊢
    have hs₂ : ShortWrites (writeCkpt (skips w₁ a b)).2 := by
      generalize writeCkpt (skips w₁ a b) = out at hs
      obtain ⟨_ | _, w₂⟩ := out <;> exact hs
    have h₁' : Sees (skips w₁ a b) (Store.appendAll live (Store.empty n hn)).2 :=
      h₁.same rfl rfl rfl rfl
    obtain ⟨res, w₂, he₂, h₂, hb₂, hr₂⟩ := writeCkpt_sees h₁' hs₂
    rw [he₂]
    cases res with
    | error e =>
      refine ⟨_, _, rfl, h₂.same rfl rfl rfl rfl, by simpa using hb₂, ?_⟩
      rcases hr₂ with hr | hr
      · cases hr
      · exact .inr hr
    | ok _ => exact ⟨_, _, rfl, h₂.same rfl rfl rfl rfl, by simpa using hb₂, .inl rfl⟩

theorem holds_wiped {f g : RamFlash} {L : List Rec} (h : Holds f L) {wipe : ℕ}
    (hle : logSize L ≤ wipe) (hw : wipe ≤ f.size)
    (hd : g.data = f.data.take 0 ++ zeros (wipe-0) ++ f.data.drop wipe) : Holds g [] := by
  refine image_of_shape ?_ (by simp)
  have hr : f.data.drop wipe = zeros (f.size-wipe) := by
    obtain ⟨i, rfl⟩ := Nat.exists_eq_add_of_le hle
    rw [← List.drop_drop, h.rest]
    simp [zeros, RamFlash.size]
    omega
  rw [hd, hr]
  simp [logBytes, zeros_append]

theorem wipeLen_fits (s : Store) (ha : Aligned s) (h : 512 ≤ s.size) : wipeLen s.tail ≤ s.size := by
  have hfit := s.fits
  unfold wipeLen
  refine max_le ?_ h
  rcases ha with hd | ht
  · have ht : s.tail ≤ s.size := by rcases s.tail_ok with ht | ht <;> omega
    unfold alignUp
    omega
  · rw [ht, alignUp_of_dvd 512 _ (by decide) (logSize_dvd _)]
    exact hfit

theorem compact_sees (h : Sees w s) (hc : w.compacting = false) (ha : Aligned s)
    (hs : ShortWrites (compact w).2) :
    ∃ res w', compact w = (res, w') ∧ Sees w' s.compact.2 ∧
      (res = .ok () ↔ s.compact.1 = true) ∧ (res = .ok () ∨ .refused ∈ w'.trace) ∧
      .compactStart w.flash w.kv ∈ w'.trace := by
  obtain ⟨w₁, hu, hf, hr, hi, hoff, hcp, ht⟩ := compact_unfold w h.ready
  have hstart : .compactStart w.flash w.kv ∈ w₁.trace := by simp [ht]
  have h₁ : Sees w₁ s := h.same hf (hr.trans h.ready.symm) hi hoff
  unfold Store.compact
  rw [hu, h.tail] at hs ⊢
  by_cases hsz : s.size < 512
  · have ht : s.tail ≤ s.size := by
      have := s.fits
      rcases s.tail_ok with ht | ht <;> omega
    have hl : wipeLen s.tail = 512 := by
      unfold wipeLen alignUp
      omega
    rw [hl, wipe_small w₁ 512 (by decide) (by rw [h₁.size]; exact hsz), if_pos hsz]
    exact ⟨_, _, rfl, h₁.same rfl rfl rfl rfl, by simp, .inr (by simp [World.log]),
      by simp [World.log, hstart]⟩
  rw [if_neg hsz]
  have hfit := wipeLen_fits s ha (not_lt.mp hsz)
  obtain ⟨g, es, he, hg, hgs, -⟩ := wipe_region (wipeLen s.tail) (wipeLen_dvd _) (0, w₁)
    (by simp) (by simp) (by simp only [h₁.size]; exact hfit)
  have hle : logSize s.recs ≤ wipeLen s.tail := by
    have := (wipeLen_ge s.tail).1
    have := s.fits
    rcases s.tail_ok with ht | ht <;> omega
  have hcl : Sees (cleared { w₁ with flash := g, trace := w₁.trace ++ es })
      (Store.empty s.size s.bound) :=
    ⟨h₁.ready, holds_wiped h₁.holds hle (by rw [h₁.size]; exact hfit) hg, rfl, rfl,
      hgs.trans h₁.size⟩
  rw [he, liveOf_sees h] at hs ⊢
  obtain ⟨res, w', hr', h', hb, hrf⟩ := rewriteLive_sees _ s.live hcl hs
  refine ⟨res, w', hr', h', hb, hrf, ?_⟩
  have hfr := frame_rewriteLive (fun w => (.ok (), w)) s.live
    { w₁ with flash := g, trace := w₁.trace ++ es } (hcp.trans hc)
  have hw : w' = (res, w').2 := rfl
  rw [hw, ← hr']
  exact hfr.mem (by simp [hstart])

end Refinement

end NeuralOs.TickvCompaction
