import NeuralOs.Storage.TickvScanLog
import NeuralOs.Storage.TickvTrace

/-!
# The store as a log and an index

What the store is for, without bytes: a list of records, an index into it,
the offset of the next append and the size of the volume. The next append goes
right after the log, or nowhere when a mount was cut short and the offset is the
end of the volume. The operations are those of `tickv.rs` on this state.
-/

set_option autoImplicit false

namespace NeuralOs.LogStore
open ByteString TickvRecord TickvState TickvLog TickvLogUpdate TickvStore

theorem filterMap_nodup {f : Str → Option (Str × Bytes)} {ks : List Str} (hks : ks.Nodup)
    (hf : ∀ k p, f k = some p → p.1 = k) : ((ks.filterMap f).map Prod.fst).Nodup := by
  rw [List.Nodup, List.pairwise_map]
  refine List.Pairwise.filterMap _ ?_ hks
  intro a b hab p hp q hq
  rw [hf a p hp, hf b q hq]
  exact hab

def place : List (Str × Bytes) → ℕ → Index → Index
  | [], _, index => index
  | p::items, off, index => place items (off+(written p).size) (index.insert p.1 off)

/-- The items that a sequence of appends gets through before one is refused. -/
def fitting : List (Str × Bytes) → ℕ → ℕ → List (Str × Bytes)
  | [], _, _ => []
  | p::items, off, size =>
    if off+(written p).size ≤ size then p::fitting items (off+(written p).size) size else []

theorem place_other {items : List (Str × Bytes)} {off : ℕ} {index : Index} {k : Str}
    (h : k ∉ items.map Prod.fst) : (place items off index)[k]? = index[k]? := by
  induction items generalizing off index with
  | nil => rfl
  | cons p items ih =>
    simp only [List.map_cons, List.mem_cons, not_or] at h
    rw [place, ih h.2, get_insert, if_neg h.1]

theorem place_mem (items : List (Str × Bytes)) (off : ℕ) (index : Index) (k : Str)
    (h : k ∈ items.map Prod.fst) : ∃ o, (place items off index)[k]? = some o := by
  induction items generalizing off index with
  | nil => simp at h
  | cons p items ih =>
    rw [place]
    by_cases hm : k ∈ items.map Prod.fst
    · exact ih _ _ hm
    · obtain rfl : k = p.1 := by simpa [hm] using h
      exact ⟨off, by rw [place_other hm, get_insert, if_pos rfl]⟩

structure Store where
  recs : List Rec
  index : Index
  tail : ℕ
  size : ℕ
  bound : size < 2^63
  fits : logSize recs ≤ size
  tail_ok : tail = logSize recs ∨ tail = size
  entries : Keyed (fun _ => True) recs index

namespace Store

def value (s : Store) (k : Str) : Option Bytes :=
  s.index[k]?.bind fun o => (recAt s.recs o).bind fun r => if r.live then some r.val else none

def forget (s : Store) (k : Str) : Store where
  recs := s.recs
  index := s.index.erase k
  tail := s.tail
  size := s.size
  bound := s.bound
  fits := s.fits
  tail_ok := s.tail_ok
  entries := s.entries.erase k

def invalidate (s : Store) (k : Str) : Store where
  recs := (s.index[k]?).elim s.recs (fun o => killAt o s.recs)
  index := s.index.erase k
  tail := s.tail
  size := s.size
  bound := s.bound
  fits := by
    cases s.index[k]? with
    | none => exact s.fits
    | some o => simpa [logSize_killAt] using s.fits
  tail_ok := by
    cases s.index[k]? with
    | none => exact s.tail_ok
    | some o => simpa [logSize_killAt] using s.tail_ok
  entries := by
    cases s.index[k]? with
    | none => exact s.entries.erase k
    | some o => exact ((killed_killAt o s.recs).keyed s.entries fun _ h => h).erase k

def invalidateAll : List (Str × Bytes) → Store → Store
  | [], s => s
  | p::items, s => invalidateAll items (if p.1 = ckptKey then s else s.invalidate p.1)

theorem room (s : Store) (r : Rec) (h : s.tail+r.size ≤ s.size) : s.tail = logSize s.recs := by
  have hr := r.size_sector
  rcases s.tail_ok with ht | ht <;> omega

def append (s : Store) (p : Str × Bytes) (h : s.tail+(written p).size ≤ s.size) : Store where
  recs := s.recs ++ [written p]
  index := s.index.insert p.1 s.tail
  tail := s.tail+(written p).size
  size := s.size
  bound := s.bound
  fits := by
    have := s.room _ h
    simp
    omega
  tail_ok := .inl (by simp [s.room _ h])
  entries := (s.entries.append _).insert (r := written p) ⟨s.recs, [], rfl, s.room _ h⟩ trivial

/-- Appends up to the first that does not fit; the flag says that all did. -/
def appendAll : List (Str × Bytes) → Store → Bool × Store
  | [], s => (true, s)
  | p::items, s =>
    if h : s.tail+(written p).size ≤ s.size then appendAll items (s.append p h) else (false, s)

def ckpt (s : Store) : Str × Bytes := (ckptKey, ckptBody s.index s.tail)

def writeCkpt (s : Store) : Bool × Store := appendAll [s.ckpt] s

def live (s : Store) : List (Str × Bytes) :=
  s.index.keys.filterMap fun k =>
    (s.value k).bind fun v => if v = [] then none else some (k, v)

def empty (size : ℕ) (h : size < 2^63) : Store where
  recs := []
  index := ∅
  tail := 0
  size := size
  bound := h
  fits := by simp
  tail_ok := .inl rfl
  entries := by intro k o h; simp at h

def rewrite (s : Store) : Bool × Store := appendAll s.live (empty s.size s.bound)

/-- On a volume without room for one sector the zeroing fails and nothing happens. -/
def compact (s : Store) : Bool × Store :=
  if s.size < 512 then (false, s)
  else if s.rewrite.1 then s.rewrite.2.writeCkpt else s.rewrite

section Facts
variable {s : Store} {k : Str}

theorem value_eq_some {v : Bytes} :
    s.value k = some v ↔
      ∃ o r, s.index[k]? = some o ∧ At s.recs o r ∧ r.live = true ∧ r.val = v := by
  simp only [value, Option.bind_eq_some_iff, recAt_iff]
  constructor
  · rintro ⟨o, ho, r, hr, h⟩
    split at h
    · next hl => exact ⟨o, r, ho, hr, hl, Option.some.inj h⟩
    · cases h
  · rintro ⟨o, r, ho, hr, hl, rfl⟩
    exact ⟨o, ho, r, hr, by rw [if_pos hl]⟩

theorem invalidate_absent (h : s.index[k]? = none) : s.invalidate k = s := by
  cases s
  simp only [invalidate, Store.mk.injEq, and_true] at *
  rw [h]
  exact ⟨rfl, erase_absent _ _ h⟩

theorem invalidateAll_absent (items : List (Str × Bytes))
    (h : ∀ p ∈ items, s.index[p.1]? = none) : invalidateAll items s = s := by
  induction items with
  | nil => rfl
  | cons p items ih =>
    rw [invalidateAll, invalidate_absent (h p (by simp)), ite_self]
    exact ih fun q hq => h q (by simp [hq])

theorem mem_live {p : Str × Bytes} : p ∈ s.live ↔ s.value p.1 = some p.2 ∧ p.2 ≠ [] := by
  obtain ⟨k, v⟩ := p
  simp only [live, List.mem_filterMap, Option.bind_eq_some_iff]
  constructor
  · rintro ⟨l, -, u, hu, h⟩
    split at h
    · cases h
    · next hne =>
      cases h
      exact ⟨hu, hne⟩
  · rintro ⟨hv, hne⟩
    refine ⟨k, ?_, v, hv, by rw [if_neg hne]⟩
    obtain ⟨o, _, ho, _⟩ := value_eq_some.mp hv
    rw [Std.ExtTreeMap.mem_keys, Std.ExtTreeMap.mem_iff_isSome_getElem?, ho]
    rfl

theorem live_nodup : (s.live.map Prod.fst).Nodup := by
  refine filterMap_nodup Std.ExtTreeMap.nodup_keys fun k p h => ?_
  obtain ⟨v, -, h⟩ := Option.bind_eq_some_iff.mp h
  split at h
  · cases h
  · cases h
    rfl

theorem invalidateAll_same (items : List (Str × Bytes)) (s : Store) :
    (invalidateAll items s).tail = s.tail ∧ (invalidateAll items s).size = s.size := by
  induction items generalizing s with
  | nil => exact ⟨rfl, rfl⟩
  | cons p items ih =>
    rw [invalidateAll]
    split
    · exact ih s
    · exact ih (s.invalidate p.1)

theorem appendAll_recs (items : List (Str × Bytes)) (s : Store) :
    (appendAll items s).2.recs = s.recs ++ (fitting items s.tail s.size).map written ∧
      (appendAll items s).2.index = place (fitting items s.tail s.size) s.tail s.index ∧
      (appendAll items s).2.tail = s.tail+logSize ((fitting items s.tail s.size).map written) ∧
      (appendAll items s).2.size = s.size ∧
      ((appendAll items s).1 = true ↔ fitting items s.tail s.size = items) := by
  induction items generalizing s with
  | nil => simp [appendAll, fitting, place]
  | cons p items ih =>
    rw [appendAll, fitting]
    split
    · next hf =>
      obtain ⟨h1, h2, h3, h4, h5⟩ := ih (s.append p hf)
      refine ⟨?_, h2, ?_, h4, ?_⟩
      · rw [h1]
        simp [append]
      · rw [h3]
        simp [append, Nat.add_assoc]
      · rw [h5]
        simp [append]
    · simp [place]

theorem appendAll_rule {J : Store → Prop} {Q : Str × Bytes → Prop}
    (hJ : ∀ s p h, J s → Q p → J (append s p h)) (items : List (Str × Bytes)) (s : Store)
    (hs : J s) (hQ : ∀ p ∈ fitting items s.tail s.size, Q p) : J (appendAll items s).2 := by
  induction items generalizing s with
  | nil => exact hs
  | cons p items ih =>
    rw [fitting] at hQ
    rw [appendAll]
    split
    · next hf =>
      rw [if_pos hf] at hQ
      exact ih (s.append p hf) (hJ s p hf hs (hQ p (by simp)))
        fun q hq => hQ q (List.mem_cons_of_mem p hq)
    · exact hs

theorem fitting_initial (items : List (Str × Bytes)) (off size : ℕ) :
    fitting items off size <+: items := by
  induction items generalizing off with
  | nil => simp [fitting]
  | cons p items ih =>
    rw [fitting]
    split
    · exact List.cons_prefix_cons.mpr ⟨rfl, ih _⟩
    · exact List.nil_prefix

theorem fitting_all (items : List (Str × Bytes)) (off size : ℕ)
    (h : off+logSize (items.map written) ≤ size) : fitting items off size = items := by
  induction items generalizing off with
  | nil => rfl
  | cons p items ih =>
    simp only [List.map_cons, logSize_cons] at h
    rw [fitting, if_pos (by omega), ih _ (by omega)]

theorem tail_lt (s : Store) : s.tail < 2^64 := by
  have := s.fits
  have := s.bound
  rcases s.tail_ok with h | h <;> omega

theorem entry_lt (s : Store) {k : Str} {o : ℕ} (h : s.index[k]? = some o) : o < 2^64 := by
  obtain ⟨r, hr, -⟩ := s.entries k o h
  have := hr.lt
  have := s.fits
  have := s.bound
  omega

theorem live_subset (s : Store) : s.live.map written ⊆ s.recs := by
  intro r hr
  obtain ⟨p, hp, rfl⟩ := List.mem_map.mp hr
  obtain ⟨o, x, ho, hx, hl, hv⟩ := value_eq_some.mp (mem_live.mp hp).1
  obtain ⟨y, hy, hk, -⟩ := s.entries p.1 o ho
  obtain rfl := hx.unique hy
  have hw : x = written p := by
    cases x
    simp_all [written]
  exact hw ▸ hx.mem

theorem live_fits (s : Store) : logSize (s.live.map written) ≤ logSize s.recs := by
  have hn : (s.live.map written).Nodup := by
    refine (List.Nodup.of_map Prod.fst live_nodup).map fun p q h => ?_
    exact Prod.ext (congrArg Rec.key h) (congrArg Rec.val h)
  obtain ⟨L, hp, hs⟩ := List.subperm_of_subset hn s.live_subset
  calc logSize (s.live.map written) = logSize L := ((hp.map Rec.size).sum_eq).symm
    _ ≤ logSize s.recs := (hs.map Rec.size).sum_le_sum (by simp)

theorem rewrite_eq (s : Store) :
    s.rewrite.1 = true ∧ s.rewrite.2.recs = s.live.map written ∧
      s.rewrite.2.index = place s.live 0 ∅ ∧ s.rewrite.2.tail = logSize (s.live.map written) ∧
      s.rewrite.2.size = s.size := by
  obtain ⟨hr, hi, ht, hs, hb⟩ := appendAll_recs s.live (empty s.size s.bound)
  have hf : fitting s.live (empty s.size s.bound).tail (empty s.size s.bound).size = s.live :=
    fitting_all _ _ _ ((Nat.zero_add _).trans_le (s.live_fits.trans s.fits))
  rw [hf] at hr hi ht
  exact ⟨hb.mpr hf, hr, hi, ht.trans (Nat.zero_add _), hs⟩

theorem compact_eq (h512 : 512 ≤ s.size) : s.compact = s.rewrite.2.writeCkpt := by
  rw [compact, if_neg (not_lt.mpr h512), if_pos s.rewrite_eq.1]

theorem writeCkpt_cases (s : Store) :
    (s.writeCkpt.1 = false ∧ s.writeCkpt.2 = s ∧ s.size < s.tail+(written s.ckpt).size) ∨
      ∃ h : s.tail+(written s.ckpt).size ≤ s.size, s.writeCkpt = (true, s.append s.ckpt h) := by
  unfold writeCkpt
  rw [appendAll]
  split
  · next h => exact .inr ⟨h, rfl⟩
  · next h => exact .inl ⟨rfl, rfl, not_le.mp h⟩

theorem compact_fits_iff (h512 : 512 ≤ s.size) :
    s.compact.1 = true ↔ logSize ((s.live ++ [(ckptKey, ckptBody (place s.live 0 ∅)
      (logSize (s.live.map written)))]).map written) ≤ s.size := by
  obtain ⟨-, -, hi, ht, hs⟩ := s.rewrite_eq
  have hc : s.rewrite.2.ckpt =
      (ckptKey, ckptBody (place s.live 0 ∅) (logSize (s.live.map written))) := by
    rw [ckpt, hi, ht]
  rw [compact_eq h512]
  simp only [List.map_append, List.map_cons, List.map_nil, logSize_append, logSize_cons,
    logSize_nil, Nat.add_zero]
  rcases s.rewrite.2.writeCkpt_cases with ⟨hb, -, hlt⟩ | ⟨hf, he⟩
  · rw [hc, ht, hs] at hlt
    simp only [hb, Bool.false_eq_true, false_iff]
    omega
  · rw [hc, ht, hs] at hf
    simp only [he, true_iff]
    exact hf

end Facts

end Store

end NeuralOs.LogStore

/-! ## The store refines the log -/

namespace NeuralOs.TickvRefine
open ByteString MeasuredLoop TickvRecord TickvState TickvStore TickvTrace TickvLog TickvLogUpdate
open TickvImage LogStore

structure Sees (w : World) (s : Store) : Prop where
  ready : w.kv.ready = true
  holds : Holds w.flash s.recs
  index : w.kv.index = s.index
  tail : w.kv.appendOff = s.tail
  size : w.flash.size = s.size

theorem Sees.same {w w' : World} {s : Store} (h : Sees w s) (hf : w'.flash = w.flash)
    (hr : w'.kv.ready = w.kv.ready) (hi : w'.kv.index = w.kv.index)
    (ha : w'.kv.appendOff = w.kv.appendOff) : Sees w' s :=
  ⟨hr.trans h.ready, hf ▸ h.holds, hi.trans h.index, ha.trans h.tail, hf ▸ h.size⟩

def ShortWrites (w : World) : Prop := ∀ off d, .wrote off d ∈ w.trace → d.length < 2^32

def shortEvent : Event → Bool
  | .wrote _ d => decide (d.length < 2^32)
  | _ => true

theorem shortWrites_iff (w : World) : w.trace.all shortEvent = true ↔ ShortWrites w := by
  rw [List.all_eq_true]
  constructor
  · intro h off d hm
    exact of_decide_eq_true (h _ hm)
  · intro h e he
    cases e with
    | wrote off d => exact decide_eq_true (h off d he)
    | _ => rfl

instance (w : World) : Decidable (ShortWrites w) := decidable_of_iff _ (shortWrites_iff w)

theorem ShortWrites.before {w w' : World} (h : ShortWrites w') (hf : Frame w w') :
    ShortWrites w := fun off d hm => h off d (hf.mem hm)

section Primitives
variable (w : World) (key : Str) (val : Bytes)

theorem putRaw_room (h : w.kv.appendOff+(written (key, val)).size ≤ w.flash.size) :
    ∃ g st d, w.flash.write w.kv.appendOff (written (key, val)).bytes = .ok g ∧
      putRaw w key val = (.ok (), { w with
        flash := g
        kv := { w.kv with
          index := w.kv.index.insert key w.kv.appendOff
          appendOff := w.kv.appendOff+(written (key, val)).size
          stats := st
          ckptDirty := d }
        trace := w.trace ++ [.wrote w.kv.appendOff (written (key, val)).bytes] }) := by
  obtain ⟨g, hg, -⟩ := w.flash.write_ok w.kv.appendOff (written (key, val)).bytes
    (by rw [Rec.bytes_length]; exact h)
  have hb : encodeRecord key.bytes val = (written (key, val)).bytes := (Rec.bytes_live key val).symm
  simp only [putRaw, World.write, hb, hg, Rec.bytes_length, TickvLite.enter]
  refine ⟨g, ?_⟩
  split <;> exact ⟨_, _, rfl, rfl⟩

theorem putRaw_full (h : w.flash.size < w.kv.appendOff+(written (key, val)).size) :
    putRaw w key val = (.error .oob, w.log .refused) := by
  have hb : encodeRecord key.bytes val = (written (key, val)).bytes := (Rec.bytes_live key val).symm
  have hw := w.flash.write_oob w.kv.appendOff (written (key, val)).bytes
    (by rw [Rec.bytes_length]; exact h)
  simp only [putRaw, World.write, hb, hw]

theorem invalidateKey_hit {off : ℕ} {g : RamFlash} (hr : w.kv.ready = true)
    (ho : w.kv.index[key]? = some off) (hg : w.flash.write (off+3) [0] = .ok g) :
    ∃ st, invalidateKey w key = (.ok (), { w with
      flash := g
      kv := { w.kv with index := w.kv.index.erase key, stats := st }
      trace := w.trace ++ [.wrote (off+3) [0]] }) := by
  simp only [invalidateKey, hr, Bool.not_true, Bool.false_eq_true, if_false, ho, World.write, hg,
    World.log, World.setKv, TickvLite.addDead]
  exact ⟨_, rfl⟩

theorem writeCkpt_unfold (hr : w.kv.ready = true) :
    writeCkpt w = match putRaw w ckptKey (ckptBody w.kv.index w.kv.appendOff) with
      | (.ok _, w) => (.ok (), w.setKv { w.kv with ckptDirty := false })
      | (.error e, w) => (.error e, w) := by
  unfold writeCkpt
  rw [hr]
  rfl

end Primitives

section Simulation
variable {w : World} {s : Store}

theorem readRecord_at {f : RamFlash} {L : List Rec} {o : ℕ} {r : Rec} (h : Begins f.data L)
    (hr : At L o r) : readRecord f o = if r.live then .ok r.val else .error .missing := by
  have hsm := h.small r hr.mem
  have hc : (crc32 r.body).toNat = hdrCrc r.hdr := r.hdrCrc_hdr.symm
  have hv : r.body.drop r.key.bytes.length = r.val := by simp [Rec.body]
  simp only [readRecord, h.read_hdr hr, r.hdrValid_hdr, r.hdrKlen_hdr, r.hdrVlen_hdr hsm,
    h.read_all hr, hc, hv, ne_eq, not_true_eq_false, if_false]
  cases r.live <;> rfl

theorem view_sees (h : Sees w s) (k : Str) :
    view w k = match s.value k with
      | some v => .ok v
      | none => .error .missing := by
  unfold view
  rw [h.ready, h.index]
  simp only [Bool.not_true, Bool.false_eq_true, if_false, Store.value]
  cases ho : s.index[k]? with
  | none => rfl
  | some o =>
    obtain ⟨r, hr, -⟩ := s.entries k o ho
    simp only [Option.bind_some, recAt_iff.mpr hr, readRecord_at h.holds.toBegins hr]
    cases r.live <;> rfl

theorem invalidateKey_sees (h : Sees w s) {k : Str} {o : ℕ} (ho : s.index[k]? = some o) :
    ∃ w', invalidateKey w k = (.ok (), w') ∧ Sees w' (s.invalidate k) := by
  obtain ⟨r, hr, -⟩ := s.entries k o ho
  obtain ⟨g, hg, hh, hsz⟩ := holds_kill h.holds hr
  obtain ⟨st, he⟩ := invalidateKey_hit w k h.ready (by rw [h.index, ho]) hg
  refine ⟨_, he, h.ready, ?_, ?_, h.tail, hsz.trans h.size⟩
  · simpa only [Store.invalidate, ho, Option.elim_some] using hh
  · simp only [Store.invalidate, h.index]

theorem invalidateAll_sees (h : Sees w s) (items : List (Str × Bytes)) :
    Sees (invalidateAll items w) (Store.invalidateAll items s) := by
  induction items generalizing w s with
  | nil => exact h
  | cons p items ih =>
    rw [invalidateAll, Store.invalidateAll]
    apply ih
    by_cases hk : p.1 = ckptKey
    · rw [if_pos hk, if_neg (fun hc => hc.1 hk)]
      exact h
    rw [if_neg hk]
    cases ho : s.index[p.1]? with
    | none =>
      rw [Store.invalidate_absent ho, if_neg]
      · exact h
      · rintro ⟨-, hc⟩
        rw [h.index, Std.ExtTreeMap.contains_eq_isSome_getElem?, ho] at hc
        cases hc
    | some o =>
      obtain ⟨w', he, h'⟩ := invalidateKey_sees h ho
      rw [if_pos ⟨hk, by rw [h.index, Std.ExtTreeMap.contains_eq_isSome_getElem?, ho]; rfl⟩, he]
      exact h'

theorem putRaw_sees (h : Sees w s) (p : Str × Bytes) (hf : s.tail+(written p).size ≤ s.size)
    (hsm : p.2.length < 2^32) :
    ∃ w', putRaw w p.1 p.2 = (.ok (), w') ∧ Sees w' (s.append p hf) := by
  obtain ⟨g, st, d, hg, he⟩ := putRaw_room w p.1 p.2 (by rw [h.tail, h.size]; exact hf)
  have ht : w.kv.appendOff = logSize s.recs := h.tail.trans (s.room _ hf)
  obtain ⟨g', hg', hh, hsz⟩ := holds_append (r := written p) h.holds hsm
    (by rw [← s.room _ hf, h.size]; exact hf)
  rw [ht] at hg
  obtain rfl : g = g' := Except.ok.inj (hg.symm.trans hg')
  refine ⟨_, he, h.ready, hh, ?_, ?_, hsz.trans h.size⟩
  · simp only [Store.append, h.index, h.tail]
  · simp only [Store.append, h.tail]

theorem appendAll_sees (h : Sees w s) (items : List (Str × Bytes))
    (hs : ShortWrites (appendAll items w).2) :
    ∃ res w', appendAll items w = (res, w') ∧ Sees w' (Store.appendAll items s).2 ∧
      (res = .ok () ↔ (Store.appendAll items s).1 = true) ∧
      (res = .ok () ∨ .refused ∈ w'.trace) := by
  induction items generalizing w s with
  | nil => exact ⟨.ok (), w, rfl, h, by simp [Store.appendAll], .inl rfl⟩
  | cons p items ih =>
    rw [appendAll] at hs ⊢
    rw [Store.appendAll]
    by_cases hf : s.tail+(written p).size ≤ s.size
    · obtain ⟨g, st, d, -, he⟩ := putRaw_room w p.1 p.2 (by rw [h.tail, h.size]; exact hf)
      have hsm : p.2.length < 2^32 := by
        rw [he] at hs
        have hw := hs w.kv.appendOff (written p).bytes ((frame_appendAll _ _).mem (by simp))
        have hr := (written p).size_ge
        rw [Rec.bytes_length] at hw
        rw [Rec.body_length] at hr
        have hv : (written p).val.length = p.2.length := rfl
        omega
      obtain ⟨w', he', h'⟩ := putRaw_sees h p hf hsm
      rw [he'] at hs ⊢
      rw [dif_pos hf]
      exact ih h' hs
    · rw [putRaw_full w p.1 p.2 (by rw [h.tail, h.size]; exact not_le.mp hf), dif_neg hf]
      exact ⟨_, _, rfl, h.same rfl rfl rfl rfl, by simp, .inr (by simp [World.log])⟩

theorem writeCkpt_sees (h : Sees w s) (hs : ShortWrites (writeCkpt w).2) :
    ∃ res w', writeCkpt w = (res, w') ∧ Sees w' s.writeCkpt.2 ∧
      (res = .ok () ↔ s.writeCkpt.1 = true) ∧ (res = .ok () ∨ .refused ∈ w'.trace) := by
  have ha : writeCkpt w = match appendAll [s.ckpt] w with
      | (.ok _, w) => (.ok (), w.setKv { w.kv with ckptDirty := false })
      | (.error e, w) => (.error e, w) := by
    rw [writeCkpt_unfold w h.ready, h.index, h.tail]
    simp only [appendAll, Store.ckpt]
    generalize putRaw w ckptKey (ckptBody s.index s.tail) = out
    obtain ⟨_ | _, w'⟩ := out <;> rfl
  have hs' : ShortWrites (appendAll [s.ckpt] w).2 := by
    rw [ha] at hs
    generalize appendAll [s.ckpt] w = out at hs
    obtain ⟨_ | _, w'⟩ := out <;> exact hs
  obtain ⟨res, w', he, h', hb, hr⟩ := appendAll_sees h [s.ckpt] hs'
  rw [ha, he]
  cases res with
  | error e => exact ⟨_, _, rfl, h', hb, hr⟩
  | ok _ => exact ⟨_, _, rfl, h'.same rfl rfl rfl rfl, hb, .inl rfl⟩

end Simulation

end NeuralOs.TickvRefine
