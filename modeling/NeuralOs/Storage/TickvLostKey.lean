import NeuralOs.Storage.TickvDurability
import NeuralOs.Storage.TickvCompactContent

/-!
# A key that a compaction loses

A run in which nothing is refused and a key is lost all the same. An early
checkpoint of an empty store is carried over by a compaction, and the checkpoint
written behind it is past the value limit of the scanners. The next mount finds
the old one and starts its scan after the first record of the log.
-/

set_option autoImplicit false

namespace NeuralOs.TickvLostKey
open ByteString MeasuredLoop TickvRecord TickvState TickvStore TickvTrace TickvMount TickvLog
open TickvLogUpdate TickvImage TickvScanLog LogStore TickvMountLog TickvCkpt TickvSnapshot
open TickvContent TickvRegular TickvRefine TickvCompaction TickvCompactContent TickvOperation
open TickvDurability

section Refusals
variable {w : World}

structure Quietly (w w' : World) : Prop where
  latched : w'.kv.hwLatched = w.kv.hwLatched
  suspended : w'.gcSuspended = w.gcSuspended
  refused : .refused ∈ w'.trace → .refused ∈ w.trace

theorem Quietly.trans {w₁ w₂ w₃ : World} (h : Quietly w₁ w₂) (h' : Quietly w₂ w₃) : Quietly w₁ w₃ :=
  ⟨h'.latched.trans h.latched, h'.suspended.trans h.suspended, fun hr => h.refused (h'.refused hr)⟩

theorem quietly_putRaw (k : Str) (v : Bytes) (h : (putRaw w k v).1 = .ok ()) :
    Quietly w (putRaw w k v).2 := by
  by_cases hf : w.kv.appendOff+(written (k, v)).size ≤ w.flash.size
  · obtain ⟨g, st, d, -, he⟩ := putRaw_room w k v hf
    rw [he]
    exact ⟨rfl, rfl, by simp⟩
  · rw [putRaw_full w k v (not_le.mp hf)] at h
    cases h

theorem quietly_appendAll (items : List (Str × Bytes)) (h : (appendAll items w).1 = .ok ()) :
    Quietly w (appendAll items w).2 := by
  induction items generalizing w with
  | nil => exact ⟨rfl, rfl, fun hr => hr⟩
  | cons p items ih =>
    have hq := quietly_putRaw (w := w) p.1 p.2
    rw [appendAll] at h ⊢
    generalize putRaw w p.1 p.2 = out at h hq
    obtain ⟨_ | _, w'⟩ := out
    · cases h
    · exact (hq rfl).trans (ih h)

theorem quietly_writeCkpt (hr : w.kv.ready = true) (h : (writeCkpt w).1 = .ok ()) :
    Quietly w (writeCkpt w).2 := by
  have hq := quietly_putRaw (w := w) ckptKey (ckptBody w.kv.index w.kv.appendOff)
  rw [writeCkpt_unfold w hr] at h ⊢
  generalize putRaw w ckptKey (ckptBody w.kv.index w.kv.appendOff) = out at h hq
  obtain ⟨_ | _, w'⟩ := out
  · cases h
  · exact ⟨(hq rfl).latched, (hq rfl).suspended, (hq rfl).refused⟩

theorem compact_unrefused (hr : w.kv.ready = true) (h : (compact w).1 = .ok ())
    (he : .refused ∈ (compact w).2.trace) : .refused ∈ w.trace := by
  obtain ⟨w₁, hu, hf, hr₁, -, -, -, ht⟩ := compact_unfold w hr
  have hd := wipeLen_dvd w.kv.appendOff
  by_cases hle : wipeLen w.kv.appendOff ≤ w₁.flash.size
  · obtain ⟨g, es, hx, -, -, hes⟩ := wipe_region _ hd (0, w₁) (by simp) (by simp) hle
    rw [hx] at hu
    obtain ⟨a, b, hrl⟩ := rewriteLive_unfold { w₁ with flash := g, trace := w₁.trace ++ es }
      (fun w => (.ok (), w)) (liveOf w) hr₁
    rw [invalidateAll_nothing _ _ fun p _ => by simp [cleared]] at hrl
    simp only at hu
    rw [hu, hrl] at h he
    have hq := quietly_appendAll (w := cleared { w₁ with flash := g, trace := w₁.trace ++ es })
      (liveOf w)
    have hready := (frame_appendAll (liveOf w)
      (cleared { w₁ with flash := g, trace := w₁.trace ++ es })).ready
    generalize appendAll (liveOf w) (cleared { w₁ with flash := g, trace := w₁.trace ++ es }) =
      out at h he hq hready
    obtain ⟨_ | _, w₂⟩ := out
    · cases h
    have hq₂ := quietly_writeCkpt (w := skips w₂ a b) (hready.trans hr₁)
    simp only at h he
    generalize writeCkpt (skips w₂ a b) = out at h he hq₂
    obtain ⟨_ | _, w₃⟩ := out
    · cases h
    · have hin : .refused ∈ w₁.trace ++ es := (hq rfl).refused ((hq₂ rfl).refused he)
      rw [ht] at hin
      simpa [hes] using hin
  · obtain ⟨e, es, hx, -⟩ := wipe_overrun _ (0, w₁) (by simp) (not_le.mp hle)
    generalize (wipeLoop (wipeLen w.kv.appendOff)).exec (0, w₁) = out at hu hx
    obtain ⟨res, w₂⟩ := out
    simp only at hx
    rw [hx] at hu
    rw [hu] at h
    cases h

theorem highWater_compacts (hr : w.kv.ready = true) (hc : w.compacting = false)
    (hb : w.kv.backend.slow = false) (hl : w.kv.hwLatched = false) (hg : w.gcSuspended = false)
    (ha : highWater < w.kv.appendOff) :
    (maybeHighWaterFlush w).flash = (compact w).2.flash ∧
      (maybeHighWaterFlush w).trace = (compact w).2.trace := by
  have hallow : w.gcAllowed = true := by simp [World.gcAllowed, hb, hg]
  have hdue : w.kv.gcDue = true := by simp [TickvLite.gcDue, ha]
  have hgc : maybeGcWith compact w = compact w := by
    simp [maybeGcWith, hc, hg, hb, hdue]
  simp only [maybeHighWaterFlush, maybeHighWaterFlushWith, hl, hc, hallow, not_le.mpr ha,
    flushOpportunisticWith, hr, hb, hdue, hgc, Bool.not_true, Bool.or_self, Bool.false_eq_true,
    if_false, or_self]
  split <;> exact ⟨rfl, rfl⟩

end Refusals

theorem remount_skips {w : World} {a : Rec} {M : List Rec} {v : Bytes}
    (hf : Holds w.flash (a::M)) (hl : lastCkpt (a::M) none = some v)
    (hp : parseCkpt v = .ok (0, ∅)) (hs : recordSize ckptKey.bytes.length v.length = a.size) :
    (remount w none).kv.ready = true ∧ (remount w none).kv.index = replay M a.size ∅ := by
  obtain ⟨t, hscan, hfound, hn⟩ : ∃ t, (ckptScanLoop w.flash).exec ⟨0, none, none⟩ =
      (.ok (), t) ∧ t.found = lastCkpt (a::M) none ∧ (none = none → t.polls = none) := by
    rcases ckptScan_log [] (a::M) (by simpa using hf) none none with h | ⟨-, h⟩
    · exact h
    · exact absurd rfl h
  have hnil : (∅ : Index).toList = [] := Std.ExtTreeMap.toList_eq_nil_iff.mpr rfl
  have hstale : staleCheck w.flash ∅ = .ok () := by simp [staleCheck, hnil]
  have hend : ckptEnd w.flash 0 ∅ = 0 := by simp [ckptEnd, hnil]
  have hnext : 0+recordSize ckptKey.bytes.length v.length = logSize [a] := by simp [hs]
  have hk : ∃ kv : TickvLite, kv = { { TickvLite.new with backend := .ram, degraded := false } with
      index := ∅, appendOff := 0 }.recomputeLiveEstimate := ⟨_, rfl⟩
  obtain ⟨kv, hkv⟩ := hk
  obtain ⟨m, st, d, p, hr, hm, hd⟩ := scanRange_result [a] M (by simpa using hf) kv
    (by rw [hkv]; rfl) none
  obtain rfl : d = false := hd rfl
  have htry : tryMountFromCkpt w.flash { TickvLite.new with backend := .ram, degraded := false }
      none = scanRange w.flash kv (logSize [a]) true none := by
    unfold tryMountFromCkpt
    simp only [hscan, hfound, hl, hp, hstale, hend, hnext, hn rfl, hkv]
  unfold remount mount mountFrom
  simp only [htry, hr, mountReady]
  refine ⟨trivial, ?_⟩
  rw [hm rfl, List.take_length, hkv]
  simp [TickvLite.recomputeLiveEstimate, TickvLite.new]

section Keys

theorem utf8_ascii (b : Bytes) (h : ∀ x ∈ b, x < 0x80) : utf8Valid b = true := by
  have hf : b.foldl utf8Step (some (0, 0x80, 0xBF)) = some (0, 0x80, 0xBF) := by
    induction b with
    | nil => rfl
    | cons x b ih =>
      have hx : utf8Step (some (0, 0x80, 0xBF)) x = some (0, 0x80, 0xBF) := by
        simp only [utf8Step, if_pos (h x (by simp))]
      rw [List.foldl_cons, hx]
      exact ih fun y hy => h y (by simp [hy])
  rw [utf8Valid, hf]
  rfl

/-- The key of 4096 letters that starts with `i+1` times `"b"` and goes on with `"c"`. -/
def longKey (i : Fin 511) : Str where
  bytes := 98::(List.replicate i 98 ++ List.replicate (4095-i) 99)
  utf8 := by
    apply utf8_ascii
    intro x hx
    rw [List.mem_cons, List.mem_append] at hx
    rcases hx with rfl | hx | hx
    · decide
    · rw [List.eq_of_mem_replicate hx]
      decide
    · rw [List.eq_of_mem_replicate hx]
      decide
  short := by
    simp
    omega

theorem longKey_length (i : Fin 511) : (longKey i).bytes.length = 4096 := by
  simp [longKey]
  omega

theorem longKey_inj : Function.Injective longKey := by
  intro i j h
  have hc := congrArg (fun k : Str => k.bytes.count 98) h
  simp [longKey, List.count_replicate] at hc
  exact Fin.ext hc

theorem longKey_ne {k : Str} (h : k.bytes.length ≠ 4096) (i : Fin 511) : longKey i ≠ k :=
  fun he => h (he ▸ longKey_length i)

theorem keyA_lt_longKey (i : Fin 511) : compare keyA (longKey i) = .lt := rfl

end Keys

/-- The key `"a"`, then as many long keys as make their index entries exceed 2 MiB. -/
def crowdItems : List (Str × Bytes) :=
  (keyA, [1])::(List.finRange 511).map fun i => (longKey i, [1])

def crowd : List Op := [.writeCkpt, .putBatch crowdItems]

theorem crowd_mem : (keyA, [1]) ∈ crowdItems := List.mem_cons_self

theorem crowd_keys : crowdItems.map Prod.fst = keyA::(List.finRange 511).map longKey := by
  simp [crowdItems, Function.comp_def]

theorem crowd_nodup : (crowdItems.map Prod.fst).Nodup := by
  rw [crowd_keys, List.nodup_cons]
  refine ⟨fun hm => ?_, (List.nodup_finRange 511).map longKey_inj⟩
  obtain ⟨i, -, hi⟩ := List.mem_map.mp hm
  exact longKey_ne (by decide) i hi

theorem crowd_plain : ∀ p ∈ crowdItems, PlainItem p := by
  intro p hp
  rcases List.mem_cons.mp hp with rfl | hp
  · decide
  · obtain ⟨i, -, rfl⟩ := List.mem_map.mp hp
    refine ⟨longKey_ne (by decide) i, ?_, by simp, by simp [maxVlen]⟩
    rw [longKey_length]
    exact le_refl _

theorem crowd_logSize : logSize (crowdItems.map written) = 512+511*4608 := by
  have hl : ∀ i, (written (longKey i, [1])).size = 4608 := by
    intro i
    simp only [Rec.size, written, longKey_length]
    decide
  have ha : (written (keyA, [1])).size = 512 := by decide
  have hmap : (((List.finRange 511).map fun i => (longKey i, ([1] : Bytes))).map written).map
      Rec.size = List.replicate 511 4608 := by
    rw [List.map_map, List.map_map, List.eq_replicate_iff]
    refine ⟨by simp, fun x hx => ?_⟩
    obtain ⟨i, -, rfl⟩ := List.mem_map.mp hx
    exact hl i
  rw [crowdItems, List.map_cons, logSize_cons, ha, logSize, hmap, List.sum_replicate, smul_eq_mul]

variable {s : Store}

theorem batch_fresh {items : List (Str × Bytes)}
    (ha : ∀ p ∈ items, s.index[p.1]? = none) (hf : fitting items s.tail s.size = items) :
    (batch s items).1 = true ∧ (batch s items).2.recs = s.recs ++ items.map written ∧
      (batch s items).2.index = place items s.tail s.index ∧
      (batch s items).2.tail = s.tail+logSize (items.map written) ∧
      (batch s items).2.size = s.size := by
  obtain ⟨hr, hi, ht, hs, hb⟩ := Store.appendAll_recs items s
  rw [batch, Store.invalidateAll_absent items ha]
  rw [hf] at hr hi ht
  exact ⟨hb.mpr hf, hr, hi, ht, hs⟩

def emptyCkpt : Bytes := ckptBody ∅ 0

theorem emptyCkpt_length : emptyCkpt.length = 24 := by decide +kernel

theorem emptyCkpt_parse : parseCkpt emptyCkpt = .ok (0, ∅) := by
  have hp : ∃ e, parseCkpt emptyCkpt = .ok (0, e) ∧ e.toList = [] := by
    have hd : (match parseCkpt emptyCkpt with
      | .ok (a, e) => a == 0 && e.toList == []
      | .error _ => false) = true := by decide +kernel
    split at hd
    · next a e he =>
      simp only [Bool.and_eq_true, beq_iff_eq] at hd
      exact ⟨e, by rw [he, hd.1], hd.2⟩
    · cases hd
  obtain ⟨e, he, hn⟩ := hp
  rw [he, Std.ExtTreeMap.toList_eq_nil_iff.mp hn]

def crowdVolume : ℕ := 8*1024*1024

theorem crowdVolume_lt : crowdVolume < 2^63 := by decide

def early : Store := (Store.empty crowdVolume crowdVolume_lt).writeCkpt.2

theorem early_eq : (Store.empty crowdVolume crowdVolume_lt).writeCkpt.1 = true ∧
    early.recs = [written (ckptKey, emptyCkpt)] ∧ early.index = (∅ : Index).insert ckptKey 0 ∧
    early.tail = 512 ∧ early.size = crowdVolume := by
  have hs : (written (Store.empty crowdVolume crowdVolume_lt).ckpt).size = 512 := by
    change (written (ckptKey, emptyCkpt)).size = 512
    simp only [Rec.size, written, emptyCkpt_length]
    decide
  unfold early
  rcases (Store.empty crowdVolume crowdVolume_lt).writeCkpt_cases with ⟨-, -, hlt⟩ | ⟨hf, he⟩
  · rw [hs] at hlt
    exact absurd hlt (by decide)
  · rw [he]
    refine ⟨rfl, rfl, rfl, ?_, rfl⟩
    simp only [Store.append, hs]
    rfl

theorem early_regular : Regular early := (regular_writeCkpt (regular_empty _ _)).1

theorem early_fitting : fitting crowdItems early.tail early.size = crowdItems := by
  apply Store.fitting_all
  rw [early_eq.2.2.2.1, early_eq.2.2.2.2, crowd_logSize]
  decide

theorem early_absent : ∀ p ∈ crowdItems, early.index[p.1]? = none := by
  intro p hp
  rw [early_eq.2.2.1, get_insert, if_neg (crowd_plain p hp).user]
  simp

theorem early_clear (k : Str) (v : Bytes) : ¬ Has early.recs k v := by
  rintro ⟨r, hm, hc, -⟩
  rw [early_eq.2.1, List.mem_singleton] at hm
  exact hc.user (by rw [hm]; rfl)

structure Packed (s : Store) : Prop where
  regular : Regular s
  content : ∀ k v, Has s.recs k v ↔ (k, v) ∈ crowdItems
  recs : s.recs = written (ckptKey, emptyCkpt)::crowdItems.map written
  index : s.index = place crowdItems 512 ((∅ : Index).insert ckptKey 0)
  tail : s.tail = 1024+511*4608
  size : s.size = crowdVolume

theorem early_packed : (batch early crowdItems).1 = true ∧ Packed (batch early crowdItems).2 := by
  obtain ⟨-, hr, hi, ht, hs⟩ := early_eq
  obtain ⟨hb, hr', hi', ht', hs'⟩ := batch_fresh early_absent early_fitting
  obtain ⟨hreg, hh⟩ := regular_batch early_regular crowdItems crowd_nodup crowd_plain
  rw [early_fitting] at hh
  refine ⟨hb, hreg, fun k v => ?_, ?_, ?_, ?_, by rw [hs', hs]⟩
  · exact (hh k v).trans (or_iff_left fun hv => early_clear k v hv.2)
  · rw [hr', hr, List.singleton_append]
  · rw [hi', ht, hi]
  · rw [ht', ht, crowd_logSize]

theorem Packed.live (h : Packed s) (p : Str × Bytes) :
    p ∈ s.live ↔ p = (ckptKey, emptyCkpt) ∨ p ∈ crowdItems := by
  have hck : s.value ckptKey = some emptyCkpt := by
    refine Store.value_eq_some.mpr ⟨0, written (ckptKey, emptyCkpt), ?_, ?_, rfl, rfl⟩
    · rw [h.index, place_other]
      · simp
      · intro hm
        obtain ⟨q, hq, he⟩ := List.mem_map.mp hm
        exact (crowd_plain q hq).user he
    · rw [h.recs]
      exact ⟨[], _, rfl, rfl⟩
  have hne : emptyCkpt ≠ [] := by
    intro he
    have := emptyCkpt_length
    simp [he] at this
  obtain ⟨k, v⟩ := p
  rw [Store.mem_live]
  by_cases hk : k = ckptKey
  · subst hk
    simp only [hck, Option.some.injEq, Prod.mk.injEq, true_and]
    constructor
    · rintro ⟨rfl, -⟩
      exact .inl rfl
    · rintro (rfl | hm)
      · exact ⟨rfl, hne⟩
      · exact absurd rfl (crowd_plain _ hm).user
  · simp only [value_iff_has h.regular.index hk, h.content, Prod.mk.injEq, hk, false_and, false_or]
    exact ⟨fun h => h.1, fun h => ⟨h, (crowd_plain _ h).some⟩⟩

theorem ckptEntries_rewrite (s : Store) (k : Str) :
    k ∈ (ckptEntries s.rewrite.2.index).map Prod.fst ↔ k ∈ s.live.map Prod.fst ∧ k ≠ ckptKey := by
  rw [s.rewrite_eq.2.2.1]
  constructor
  · intro hm
    obtain ⟨⟨l, o⟩, he, rfl⟩ := List.mem_map.mp hm
    obtain ⟨ho, hk⟩ := mem_ckptEntries.mp he
    refine ⟨?_, hk⟩
    by_contra hn
    rw [place_other hn] at ho
    simp at ho
  · rintro ⟨hm, hk⟩
    obtain ⟨o, ho⟩ := place_mem _ 0 ∅ k hm
    exact List.mem_map.mpr ⟨(k, o), mem_ckptEntries.mpr ⟨ho, hk⟩, rfl⟩

theorem Packed.entries (h : Packed s) :
    ((ckptEntries s.rewrite.2.index).map Prod.fst).Perm (crowdItems.map Prod.fst) := by
  rw [List.perm_ext_iff_of_nodup (ckptEntries_nodup _) crowd_nodup]
  intro k
  rw [ckptEntries_rewrite]
  constructor
  · rintro ⟨hm, hk⟩
    obtain ⟨p, hp, rfl⟩ := List.mem_map.mp hm
    rcases (h.live p).mp hp with rfl | hp
    · exact absurd rfl hk
    · exact List.mem_map_of_mem hp
  · intro hm
    obtain ⟨p, hp, rfl⟩ := List.mem_map.mp hm
    exact ⟨List.mem_map_of_mem ((h.live p).mpr (.inr hp)), (crowd_plain p hp).user⟩

theorem ckpt_length {ks : List Str}
    (h : ((ckptEntries s.index).map Prod.fst).Perm ks)
    (hk : ∀ k ∈ ks, k.bytes.length ≤ maxKlen) :
    s.ckpt.2.length = 24+(ks.map fun k => 10+k.bytes.length).sum := by
  have henc : ∀ e ∈ ckptEntries s.index, encodable e = true := by
    intro e he
    have hlen := hk e.1 (h.subset (List.mem_map_of_mem he))
    unfold maxKlen at hlen
    simp only [encodable, decide_eq_true_eq]
    omega
  rw [Store.ckpt, ckptBody_length_eq _ _ henc, (h.map fun k => 10+k.bytes.length).sum_eq]

theorem crowd_entries :
    ((crowdItems.map Prod.fst).map fun k => 10+k.bytes.length).sum = 11+511*4106 := by
  have hlong : ((List.finRange 511).map longKey).map (fun k => 10+k.bytes.length) =
      List.replicate 511 4106 := by
    rw [List.map_map, List.eq_replicate_iff]
    refine ⟨by simp, fun x hx => ?_⟩
    obtain ⟨i, -, rfl⟩ := List.mem_map.mp hx
    simp [longKey_length]
  have ha : keyA.bytes.length = 1 := rfl
  rw [crowd_keys, List.map_cons, List.sum_cons, hlong, List.sum_replicate, smul_eq_mul, ha]

theorem Packed.ckpt (h : Packed s) : s.rewrite.2.ckpt.2.length = 35+511*4106 := by
  have hk : ∀ k ∈ crowdItems.map Prod.fst, k.bytes.length ≤ maxKlen := by
    intro k hm
    obtain ⟨p, hp, rfl⟩ := List.mem_map.mp hm
    exact (crowd_plain p hp).key
  rw [ckpt_length h.entries hk, crowd_entries]

theorem Packed.compact (h : Packed s) : s.compact.1 = true ∧
    s.compact.2.recs = s.live.map written ++ [written s.rewrite.2.ckpt] := by
  obtain ⟨-, hrec, -, htail, hsize⟩ := s.rewrite_eq
  have hlive := s.live_fits
  rw [← h.regular.tail, h.tail] at hlive
  have hck : (written s.rewrite.2.ckpt).size = recordSize 14 (35+511*4106) := by
    rw [Rec.size]
    exact congrArg (recordSize 14) h.ckpt
  have hval : recordSize 14 (35+511*4106) = 2098688 := by decide
  rw [Store.compact_eq (by rw [h.size]; decide)]
  rcases s.rewrite.2.writeCkpt_cases with ⟨-, -, hlt⟩ | ⟨hf, he⟩
  · rw [hck, hval, htail, hsize, h.size] at hlt
    unfold crowdVolume at hlt
    omega
  · rw [he]
    exact ⟨rfl, congrArg (· ++ [written s.rewrite.2.ckpt]) hrec⟩

theorem live_head {k : Str} {v : Bytes} (hv : s.value k = some v) (hne : v ≠ [])
    (hmin : ∀ l ∈ s.index.keys, l ≠ k → compare k l = .lt) : ∃ rest, s.live = (k, v)::rest := by
  have hk : k ∈ s.index.keys := by
    obtain ⟨o, -, ho, -⟩ := Store.value_eq_some.mp hv
    rw [Std.ExtTreeMap.mem_keys, Std.ExtTreeMap.mem_iff_isSome_getElem?, ho]
    rfl
  have hord : s.index.keys.Pairwise fun a b => compare a b = .lt := Std.ExtTreeMap.ordered_keys
  unfold Store.live
  generalize s.index.keys = ks at hk hmin hord
  cases ks with
  | nil => simp at hk
  | cons x ks =>
    obtain rfl : x = k := by
      by_contra hx
      have hm : k ∈ ks := (List.mem_cons.mp hk).resolve_left (Ne.symm hx)
      have h1 := List.rel_of_pairwise_cons hord hm
      have h2 := hmin x (by simp) hx
      have h3 : compare x k = (compare k x).swap := Std.OrientedCmp.eq_swap
      rw [h3, h2] at h1
      cases h1
    exact ⟨_, by rw [List.filterMap_cons_some]; simp [hv, hne]⟩

theorem Packed.head (h : Packed s) : ∃ rest, s.live = (keyA, [1])::rest := by
  refine live_head ((value_iff_has h.regular.index (by decide)).mpr ((h.content keyA [1]).mpr ?_))
    (by simp) ?_
  · exact crowd_mem
  intro l hl hne
  rw [Std.ExtTreeMap.mem_keys, Std.ExtTreeMap.mem_iff_isSome_getElem?, h.index] at hl
  by_cases hm : l ∈ crowdItems.map Prod.fst
  · rw [crowd_keys, List.mem_cons] at hm
    obtain ⟨i, -, rfl⟩ := List.mem_map.mp (hm.resolve_left hne)
    exact keyA_lt_longKey i
  rw [place_other hm, get_insert] at hl
  split at hl
  · next he =>
    rw [he]
    decide
  · simp at hl

theorem lastCkpt_unique {L : List Rec} {v : Bytes} (hc : ∃ r ∈ L, r.isCkpt = true)
    (hv : ∀ r ∈ L, r.isCkpt = true → r.val = v) : lastCkpt L none = some v := by
  induction L using List.reverseRecOn with
  | nil => simp at hc
  | append_singleton L r ih =>
    simp only [lastCkpt, List.foldl_append, List.foldl_cons, List.foldl_nil]
    by_cases hr : r.isCkpt = true
    · rw [if_pos hr, hv r (by simp) hr]
    rw [if_neg hr]
    obtain ⟨x, hx, hxc⟩ := hc
    refine ih ⟨x, ?_, hxc⟩ fun y hy => hv y (by simp [hy])
    rcases List.mem_append.mp hx with hx | hx
    · exact hx
    · rw [List.mem_singleton.mp hx] at hxc
      exact absurd hxc hr

theorem remount_loses {w : World} (hp : Packed s) (h : Holds w.flash s.compact.2.recs) :
    view (remount w none) keyA = .error .missing := by
  obtain ⟨rest, hhead⟩ := hp.head
  obtain ⟨-, hrecs⟩ := hp.compact
  have hlong : ¬ s.rewrite.2.ckpt.2.length ≤ maxVlen := by
    rw [hp.ckpt]
    decide
  have hlast : lastCkpt s.compact.2.recs none = some emptyCkpt := by
    rw [hrecs]
    apply lastCkpt_unique
    · refine ⟨written (ckptKey, emptyCkpt), ?_, (isCkpt_iff _).mpr ⟨rfl, ?_, ?_⟩⟩
      · exact List.mem_append_left _ (List.mem_map_of_mem ((hp.live _).mpr (.inl rfl)))
      · exact emptyCkpt_length.ge
      · exact emptyCkpt_length.trans_le (by decide)
    intro r hr hc
    obtain ⟨hk, -, hl⟩ := (isCkpt_iff r).mp hc
    rcases List.mem_append.mp hr with hr | hr
    · obtain ⟨p, hm, rfl⟩ := List.mem_map.mp hr
      rcases (hp.live p).mp hm with rfl | hm
      · rfl
      · exact absurd hk (crowd_plain p hm).user
    · rw [List.mem_singleton.mp hr] at hl
      exact absurd hl hlong
  -- the first record is as long as the checkpoint record that the mount skips
  have hsize : recordSize ckptKey.bytes.length emptyCkpt.length = (written (keyA, [1])).size := by
    rw [emptyCkpt_length]
    decide
  rw [hhead, List.map_cons, List.cons_append] at hrecs
  rw [hrecs] at h hlast
  obtain ⟨hr, hi⟩ := remount_skips h hlast emptyCkpt_parse hsize
  have hnone : (remount w none).kv.index[keyA]? = none := by
    rw [hi]
    have hk := keyed_replay (fun r => r.key ≠ keyA) [written (keyA, [1])]
      (rest.map written ++ [written s.rewrite.2.ckpt]) ∅ (by intro k o ho; simp at ho)
      fun r hr _ _ hk => ?_
    · by_contra hn
      obtain ⟨o, ho⟩ := Option.ne_none_iff_exists'.mp hn
      rw [logSize_cons, logSize_nil, Nat.add_zero] at hk
      obtain ⟨r, -, hrk, hne⟩ := hk keyA o ho
      exact hne hrk
    · have hnd := Store.live_nodup (s := s)
      rw [hhead, List.map_cons, List.nodup_cons] at hnd
      rcases List.mem_append.mp hr with hr | hr
      · obtain ⟨p, hp, rfl⟩ := List.mem_map.mp hr
        exact hnd.1 (List.mem_map.mpr ⟨p, hp, hk⟩)
      · rw [List.mem_singleton.mp hr] at hk
        exact absurd hk (by decide : ckptKey ≠ keyA)
  simp only [view, hr, hnone]
  rfl

theorem writeCkpt_succeeds {w : World} (h : Sees w s)
    (hs : ShortWrites (writeCkpt w).2) (hb : s.writeCkpt.1 = true) :
    ∃ w', writeCkpt w = (.ok (), w') ∧ Sees w' s.writeCkpt.2 ∧ Quietly w w' ∧ Frame w w' := by
  obtain ⟨res, w', he, h', hres, -⟩ := writeCkpt_sees h hs
  obtain rfl : res = .ok () := hres.mpr hb
  have hq := quietly_writeCkpt h.ready (by rw [he])
  have hf := frame_writeCkpt w
  rw [he] at hq hf
  exact ⟨w', he, h', hq, hf⟩

theorem putBatch_flushes {w w' : World} {items : List (Str × Bytes)} (hr : w.kv.ready = true)
    (he : appendAll items (invalidateAll items w) = (.ok (), w'))
    (ha : items.any (fun i => i.1 ≠ gcLockKey) = true) :
    (putBatch w items).2 = maybeHighWaterFlush w' := by
  rw [putBatch_unfold hr, he]
  simp only [ha, if_true]

theorem crowd_run : ∃ w s, Sees w s ∧ Packed s ∧ .refused ∉ w.trace ∧
    (run (start crowdVolume crowdVolume_lt) crowd).flash = (compact w).2.flash ∧
    (run (start crowdVolume crowdVolume_lt) crowd).trace = (compact w).2.trace ∧
    w.compacting = false ∧ ShortWrites (compact w).2 := by
  obtain ⟨h₀, ht₀, hl₀, hg₀⟩ := start_running crowdVolume crowdVolume_lt
  have hshort : ∀ ops, ShortWrites (run (start crowdVolume crowdVolume_lt) ops) := by
    refine run_short h₀.idle (by rw [h₀.size]; decide) fun off d hm => ?_
    simp [ht₀] at hm
  generalize start crowdVolume crowdVolume_lt = w₀ at *
  have hs₁ : ShortWrites (writeCkpt w₀).2 := by
    have := hshort [.writeCkpt]
    rwa [run, List.foldl_cons, List.foldl_nil, step] at this
  obtain ⟨w₁, he₁, h₁, hq₁, hf₁⟩ := writeCkpt_succeeds h₀.toSees hs₁ early_eq.1
  rw [← early] at h₁
  have hs₂ : ShortWrites (putBatch w₁ crowdItems).2 := by
    have := hshort crowd
    rw [run, crowd, List.foldl_cons, List.foldl_cons, List.foldl_nil, step, step, he₁] at this
    exact this
  obtain ⟨res, w₂, he₂, hf₂, h₂, hb₂, -⟩ := loops_sees h₁ crowdItems hs₂
  obtain ⟨hfit, hpacked⟩ := early_packed
  obtain rfl : res = .ok () := hb₂.mpr hfit
  generalize (batch early crowdItems).2 = s at h₂ hpacked
  have hq₂ : Quietly w₁ w₂ := by
    have hn : invalidateAll crowdItems w₁ = w₁ := by
      apply invalidateAll_nothing
      intro p hp
      rw [h₁.index]
      exact early_absent p hp
    rw [hn] at he₂
    have := quietly_appendAll (w := w₁) crowdItems (by rw [he₂])
    rwa [he₂] at this
  have hq := hq₁.trans hq₂
  have hrun : run w₀ crowd = maybeHighWaterFlush w₂ := by
    have hany : crowdItems.any (fun i => i.1 ≠ gcLockKey) = true :=
      List.any_eq_true.mpr ⟨_, crowd_mem, by decide⟩
    rw [run, crowd, List.foldl_cons, List.foldl_cons, List.foldl_nil, step, step, he₁,
      putBatch_flushes h₁.ready he₂ hany]
  have hoff : highWater < w₂.kv.appendOff := by
    rw [h₂.tail, hpacked.tail]
    decide
  have hidle : w₂.compacting = false := (hf₂.compacting.trans hf₁.compacting).trans h₀.idle
  obtain ⟨hfl, htr⟩ := highWater_compacts h₂.ready hidle
    (by rw [hf₂.backend, hf₁.backend]; exact h₀.fast) (hq.latched.trans hl₀)
    (hq.suspended.trans hg₀) hoff
  refine ⟨w₂, s, h₂, hpacked, ?_, by rw [hrun, hfl], by rw [hrun, htr], hidle, ?_⟩
  · intro hr
    have := hq.refused hr
    simp [ht₀] at this
  · have := hshort crowd
    rw [hrun] at this
    intro off d hm
    exact this off d (by rw [htr]; exact hm)

theorem crowd_loses :
    (∀ op ∈ crowd, PlainOp op) ∧
      .refused ∉ (run (start crowdVolume crowdVolume_lt) crowd).trace ∧
      answer (latest crowd) keyA = .ok [1] ∧
      view (remount (run (start crowdVolume crowdVolume_lt) crowd) none) keyA =
        .error .missing := by
  obtain ⟨w, s, h, hp, href, hfl, htr, hidle, hs⟩ := crowd_run
  obtain ⟨res, w', he, h', hb, -⟩ := compact_sees h hidle (.inr hp.regular.tail) hs
  obtain rfl : res = .ok () := hb.mpr hp.compact.1
  refine ⟨?_, ?_, ?_, remount_loses hp ?_⟩
  · intro op hop
    simp only [crowd, List.mem_cons, List.not_mem_nil, or_false] at hop
    rcases hop with rfl | rfl
    · trivial
    · exact ⟨crowd_nodup, crowd_plain⟩
  · rw [htr]
    exact fun hr => href (compact_unrefused h.ready (by rw [he]) hr)
  · have hl : latest crowd = crowdItems.foldl (fun m p => m.insert p.1 p.2) ∅ := by
      simp only [latest, crowd, List.foldl_cons, List.foldl_nil, update]
    rw [answer, hl, (get_inserts crowdItems crowd_nodup ∅ keyA [1]).mpr (.inl crowd_mem)]
  · rw [hfl, he]
    exact h'.holds

end NeuralOs.TickvLostKey
