import NeuralOs.Cortex.KvCache
import NeuralOs.Lib.Machine

/-!
# Rows held by the cache

A session is a cache with the rows each layer has received since the last
`advance`. While appends find whole blocks, or less than one, and evictions find
no pending rows and get their buffers, every layer holds one row per position and
one scale per started block. An append behind a partial block drops blocks.
-/

set_option autoImplicit false

namespace NeuralOs.Cortex
open Checked Machine

variable {F : Type}

/-- `n` values with one scale per started block. -/
def Lane.Holds (lane : Lane F) (n : ℕ) : Prop :=
  lane.store.len = n ∧ lane.scales.length = (n+kvBlock-1)/kvBlock

def Lane.BlocksKept (a b : Lane F) : Prop :=
  b.store.values.take (kvBlock*(a.store.len/kvBlock)) =
      a.store.values.take (kvBlock*(a.store.len/kvBlock)) ∧
    b.scales.take (a.store.len/kvBlock) = a.scales.take (a.store.len/kvBlock)

def Lane.Even (lane : Lane F) : Prop := lane.store.len%kvBlock = 0 ∨ lane.store.len < kvBlock

theorem Lane.new_holds : (Lane.new : Lane F).Holds 0 := ⟨rfl, rfl⟩

section append
variable {A : Arith F} {lane : Lane F} {src : List F} {n avail : ℕ}

theorem appendQuant_holds (h : lane.Holds n) (heven : lane.Even)
    (hdone : (lane.appendQuant A src avail).1 = true) :
    (lane.appendQuant A src avail).2.Holds (n+src.length) := by
  obtain ⟨rfl, hscales⟩ := h
  by_cases hrem : lane.store.len%kvBlock = 0
  · refine ⟨appendQuant_store_len hrem hdone, ?_⟩
    rw [(appendQuant_aligned hrem hdone).2, List.length_append, hscales, A.quantize_scales]
    simp only [kvBlock] at hrem ⊢
    omega
  · have hlt : lane.store.len < kvBlock := heven.resolve_left hrem
    obtain ⟨hlen, hnew⟩ := appendQuant_partial hrem hdone
    rw [Nat.mod_eq_of_lt hlt] at hlen hnew hrem
    refine ⟨hlen, ?_⟩
    rw [hnew, hscales]
    simp only [kvBlock] at hlt hrem ⊢
    omega

theorem appendQuant_blocks (h : lane.Holds n) (heven : lane.Even)
    (hdone : (lane.appendQuant A src avail).1 = true) :
    lane.BlocksKept (lane.appendQuant A src avail).2 := by
  obtain ⟨rfl, hscales⟩ := h
  by_cases hrem : lane.store.len%kvBlock = 0
  · obtain ⟨hvalues, hnew⟩ := appendQuant_aligned hrem hdone
    rw [Lane.BlocksKept, hvalues, hnew]
    constructor
    · apply List.take_append_of_le_length
      rw [KvPageList.values_length]
      exact Nat.mul_div_le _ _
    · apply List.take_append_of_le_length
      rw [hscales]
      simp only [kvBlock]
      omega
  · have hlt : lane.store.len < kvBlock := heven.resolve_left hrem
    rw [Lane.BlocksKept, Nat.div_eq_of_lt hlt]
    exact ⟨rfl, rfl⟩

end append

section evict
variable {A : Arith F}

def Served (A : Arith F) (granted : Bool) (n : ℕ) : Prop := (f32Zeros A granted n).length = n

theorem dequant_length {granted : Bool} {l : KvPageList} {scales : List F}
    (h : Served A granted l.len) : (l.dequant A granted scales l.len).length = l.len := by
  rw [Served] at h
  rw [KvPageList.dequant, if_pos h, List.length_append, List.length_drop, h, List.length_mapIdx,
    List.length_take, KvPageList.values_length]
  omega

theorem gather_length {kDim rows : ℕ} {keep : List ℕ} {d : List F}
    (hkeep : ∀ pos ∈ keep, pos < rows) (hd : d.length = rows*kDim) :
    (gather kDim keep d).length = keep.length*kDim := by
  induction keep with
  | nil => simp [gather]
  | cons pos keep ih =>
    have hrow : pos*kDim+kDim ≤ d.length := by
      rw [hd, ← Nat.succ_mul]
      exact Nat.mul_le_mul_right kDim (hkeep pos List.mem_cons_self)
    have hrest := ih fun p hp => hkeep p (List.mem_cons_of_mem pos hp)
    rw [gather] at hrest
    rw [gather, List.flatMap_cons, List.length_append, hrest, if_pos hrow, List.length_take,
      List.length_drop, List.length_cons, Nat.succ_mul]
    omega

theorem mem_scores {kDim older : ℕ} {layer0 : List F} {x : ℕ × F}
    (h : x ∈ scores A kDim older layer0) : x.1 < older := by
  obtain ⟨pos, hpos, rfl⟩ := List.mem_map.mp h
  exact List.mem_range.mp ((List.takeWhile_sublist _).subset hpos)

theorem mem_keepIdx {kDim len recent heavy : ℕ} {layer0 : List F} {pos : ℕ}
    (h : pos ∈ keepIdx A kDim len recent heavy layer0) : pos < len := by
  have hsub := (List.destutter_sublist (· ≠ ·) _).subset h
  rw [List.mem_insertionSort, List.mem_append, List.mem_insertionSort, List.mem_range'_1] at hsub
  rcases hsub with hheavy | hrecent
  · obtain ⟨x, hx, rfl⟩ := List.mem_map.mp hheavy
    have hscored := (A.rank_perm _).mem_iff.mp (List.mem_of_mem_take hx)
    have := mem_scores hscored
    omega
  · omega

theorem mem_evictKeep {c : KvCache F} {recent heavy pos : ℕ} {scoreBuffer : Bool}
    (h : pos ∈ evictKeep A c recent heavy scoreBuffer) : pos < c.len := by
  rw [evictKeep] at h
  split at h
  · cases h
  · exact mem_keepIdx h

theorem lane_repack_holds {kDim rows avail : ℕ} {keep : List ℕ} {lane : Lane F} {buffer : Bool}
    (hkeep : ∀ pos ∈ keep, pos < rows) (hlen : lane.store.len = rows*kDim)
    (hbuffer : Served A buffer lane.store.len)
    (hdone : (lane.repack A kDim keep buffer avail).1 = true) :
    (lane.repack A kDim keep buffer avail).2.Holds (keep.length*kDim) := by
  have hd : (lane.store.dequant A buffer lane.scales lane.store.len).length = rows*kDim :=
    (dequant_length hbuffer).trans hlen
  have hrows := gather_length hkeep hd
  rw [Lane.repack] at hdone ⊢
  refine ⟨(KvPageList.pushI8_true hdone).2.trans ?_, ?_⟩
  · rw [KvPageList.new_len, A.quantize_values, hrows, Nat.zero_add]
  · rw [A.quantize_scales, hrows]

theorem h2oEvict_cases (A : Arith F) (c : KvCache F) (recent heavy : ℕ) (g : EvictGrant) :
    h2oEvict A c recent heavy g = (0, c) ∨
      (evictKeep A c recent heavy g.scoreBuffer).length < c.len ∧
        h2oEvict A c recent heavy g =
          (c.len-(evictKeep A c recent heavy g.scoreBuffer).length,
            { c with
              layers := c.layers.mapIdx fun l layer =>
                layer.repack A c.kDim (evictKeep A c recent heavy g.scoreBuffer) (g.layer l)
              len := (evictKeep A c recent heavy g.scoreBuffer).length }) := by
  rw [h2oEvict]
  split
  · exact .inl rfl
  · by_cases h : c.len ≤ (evictKeep A c recent heavy g.scoreBuffer).length
    · exact .inl (if_pos h)
    · exact .inr ⟨Nat.lt_of_not_le h, if_neg h⟩

end evict

/-- A cache with the rows each layer received since the last `advance`. -/
structure Session (F : Type) where
  cache : KvCache F
  pending : ℕ → ℕ

def Session.new (numLayers kDim kvDim : ℕ) : Session F := ⟨KvCache.new numLayers kDim kvDim, 0⟩

variable (A : Arith F)

def Session.step (s : Session F) (call : Call F) : Session F where
  cache := (exec A s.cache call).toOption.getD s.cache
  pending := match call with
    | .append layer k _ _ _ =>
      Function.update s.pending layer (s.pending layer+k.length/s.cache.kDim)
    | .advance n => fun l => s.pending l-n
    | .evict _ _ _ => s.pending

/-- Calls as the decoder makes them, with the pages they need: whole rows for a layer that
exists, and the same number of rows in all layers before an `advance` by it. -/
def Proper (s : Session F) : Call F → Prop
  | .append layer k v keyPages valuePages =>
    s.cache.kDim ∣ k.length ∧ v.length = k.length ∧
      ∃ l ∈ s.cache.layers[layer]?, (l.append A k v keyPages valuePages).1 = true
  | .advance n => ∀ layer < s.cache.layers.length, s.pending layer = n
  | .evict recent heavy g =>
    (h2oEvict A s.cache recent heavy g).1 ≠ 0 →
      ∀ layer < s.cache.layers.length, ∀ l ∈ s.cache.layers[layer]?,
      (l.k.repack A s.cache.kDim (evictKeep A s.cache recent heavy g.scoreBuffer)
        (g.layer layer).keyBuffer (g.layer layer).keyPages).1 = true ∧
      (l.v.repack A s.cache.kDim (evictKeep A s.cache recent heavy g.scoreBuffer)
        (g.layer layer).valueBuffer (g.layer layer).valuePages).1 = true

/-- Appends find whole blocks or less than one; evictions that drop rows find none pending, and
their buffers are served. -/
def Orderly (s : Session F) : Call F → Prop
  | .append layer _ _ _ _ => ∀ l ∈ s.cache.layers[layer]?, l.k.Even ∧ l.v.Even
  | .advance _ => True
  | .evict recent heavy g =>
    (h2oEvict A s.cache recent heavy g).1 ≠ 0 → s.cache.len*s.cache.kDim < 2^64 ∧
      ∀ layer < s.cache.layers.length, ∀ l ∈ s.cache.layers[layer]?,
      s.pending layer = 0 ∧ (g.layer layer).rows = true ∧
        Served A (g.layer layer).keyBuffer l.k.store.len ∧
        Served A (g.layer layer).valueBuffer l.v.store.len

def Rows (s : Session F) : Prop :=
  ∀ layer < s.cache.layers.length, ∀ l ∈ s.cache.layers[layer]?,
    l.k.Holds ((s.cache.len+s.pending layer)*s.cache.kDim) ∧
      l.v.Holds ((s.cache.len+s.pending layer)*s.cache.kDim)

instance decidableHolds (lane : Lane F) (n : ℕ) : Decidable (lane.Holds n) :=
  inferInstanceAs (Decidable (_ ∧ _))

instance decidableEven (lane : Lane F) : Decidable lane.Even :=
  inferInstanceAs (Decidable (_ ∨ _))

instance decidableServed (granted : Bool) (n : ℕ) : Decidable (Served A granted n) :=
  inferInstanceAs (Decidable (_ = _))

instance decidableProper (s : Session F) (call : Call F) : Decidable (Proper A s call) := by
  cases call <;> dsimp only [Proper] <;> infer_instance

instance decidableOrderly (s : Session F) (call : Call F) : Decidable (Orderly A s call) := by
  cases call <;> dsimp only [Orderly] <;> infer_instance

instance decidableRows (s : Session F) : Decidable (Rows s) := by
  dsimp only [Rows]
  infer_instance

variable {A}

theorem new_rows (numLayers kDim kvDim : ℕ) :
    Rows (Session.new numLayers kDim kvDim : Session F) := by
  intro layer _ l hl
  have hnew : l = Layer.new := List.eq_of_mem_replicate (List.mem_of_getElem? hl)
  have hzero : (0+(0 : ℕ → ℕ) layer)*kDim = 0 := by simp
  subst hnew
  exact ⟨hzero ▸ Lane.new_holds, hzero ▸ Lane.new_holds⟩

section step
variable {s : Session F}

variable {k v : List F} {l : Layer F}

theorem layer_append {keyPages valuePages : ℕ} (h : (l.append A k v keyPages valuePages).1 = true) :
    (l.k.appendQuant A k keyPages).1 = true ∧ (l.v.appendQuant A v valuePages).1 = true ∧
      (l.append A k v keyPages valuePages).2 =
        ⟨(l.k.appendQuant A k keyPages).2, (l.v.appendQuant A v valuePages).2⟩ := by
  rw [Layer.append] at h ⊢
  dsimp only at h ⊢
  by_cases hk : (l.k.appendQuant A k keyPages).1 = true
  · rw [if_pos hk] at h ⊢
    exact ⟨hk, h, rfl⟩
  · rw [if_neg hk] at h
    cases h

theorem step_append {layer keyPages valuePages : ℕ} (hl : s.cache.layers[layer]? = some l) :
    (s.step A (.append layer k v keyPages valuePages)).cache =
      { s.cache with
        layers := s.cache.layers.set layer (l.append A k v keyPages valuePages).2 } := by
  simp [Session.step, exec, KvCache.append, hl, Except.toOption, pure, Except.pure]

theorem append_rows {layer keyPages valuePages : ℕ} (hs : Rows s)
    (hp : Proper A s (.append layer k v keyPages valuePages))
    (ho : Orderly A s (.append layer k v keyPages valuePages)) :
    Rows (s.step A (.append layer k v keyPages valuePages)) := by
  obtain ⟨hdvd, hv, l, hl, hdone⟩ := hp
  obtain ⟨hdoneK, hdoneV, hpair⟩ := layer_append hdone
  obtain ⟨hevenK, hevenV⟩ := ho l hl
  obtain ⟨hbound, -⟩ := List.getElem?_eq_some_iff.mp hl
  intro layer' hbound' l' hl'
  rw [step_append hl] at hl' ⊢
  rw [Option.mem_def, List.getElem?_set] at hl'
  by_cases hsame : layer = layer'
  · subst hsame
    rw [if_pos rfl, if_pos hbound, Option.some.injEq, hpair] at hl'
    subst hl'
    have hcount : (s.cache.len+(s.pending layer+k.length/s.cache.kDim))*s.cache.kDim =
        (s.cache.len+s.pending layer)*s.cache.kDim+k.length := by
      rw [← Nat.add_assoc, Nat.add_mul, Nat.div_mul_cancel hdvd]
    have hpend : (s.step A (.append layer k v keyPages valuePages)).pending layer =
        s.pending layer+k.length/s.cache.kDim := Function.update_self ..
    rw [hpend, hcount]
    refine ⟨appendQuant_holds (hs layer hbound l hl).1 hevenK hdoneK, ?_⟩
    rw [← hv]
    exact appendQuant_holds (hs layer hbound l hl).2 hevenV hdoneV
  · have hpend : (s.step A (.append layer k v keyPages valuePages)).pending layer' =
        s.pending layer' := Function.update_of_ne (Ne.symm hsame) ..
    rw [if_neg hsame] at hl'
    rw [hpend]
    rw [step_append hl, List.length_set] at hbound'
    exact hs layer' hbound' l' hl'

theorem advance_rows {n : ℕ} (hs : Rows s) (hp : Proper A s (.advance n)) :
    Rows (s.step A (.advance n)) := by
  intro layer hbound l hl
  have hsum : s.cache.len+n+(s.pending layer-n) = s.cache.len+s.pending layer := by
    rw [hp layer hbound]
    omega
  have hrows := hs layer hbound l hl
  rw [← hsum] at hrows
  exact hrows

theorem evict_rows {recent heavy : ℕ} {g : EvictGrant} (hs : Rows s)
    (hp : Proper A s (.evict recent heavy g)) (ho : Orderly A s (.evict recent heavy g)) :
    Rows (s.step A (.evict recent heavy g)) := by
  have hstep : (s.step A (.evict recent heavy g)).cache = (h2oEvict A s.cache recent heavy g).2 :=
    rfl
  have hpend : (s.step A (.evict recent heavy g)).pending = s.pending := rfl
  rw [Rows, hstep, hpend]
  rcases h2oEvict_cases A s.cache recent heavy g with hnone | ⟨hlt, hdrop⟩
  · rw [hnone]
    exact hs
  have hdrops : (h2oEvict A s.cache recent heavy g).1 ≠ 0 := by
    rw [hdrop]
    exact Nat.sub_ne_zero_of_lt hlt
  have hpages := hp hdrops
  obtain ⟨hmul, hlayers⟩ := ho hdrops
  rw [hdrop]
  intro layer hbound l' hl'
  rw [List.length_mapIdx] at hbound
  rw [Option.mem_def, List.getElem?_mapIdx] at hl'
  obtain ⟨l, hl, rfl⟩ := Option.map_eq_some_iff.mp hl'
  obtain ⟨hzero, hrowsOk, hkeyBuf, hvalueBuf⟩ := hlayers layer hbound l hl
  obtain ⟨hdoneK, hdoneV⟩ := hpages layer hbound l hl
  have hcount := hs layer hbound l hl
  rw [hzero, Nat.add_zero] at hcount
  have hcap : (evictKeep A s.cache recent heavy g.scoreBuffer).length*s.cache.kDim < 2^64 :=
    lt_of_le_of_lt (Nat.mul_le_mul_right _ hlt.le) hmul
  have hrepack : l.repack A s.cache.kDim (evictKeep A s.cache recent heavy g.scoreBuffer)
      (g.layer layer) =
      ⟨(l.k.repack A s.cache.kDim (evictKeep A s.cache recent heavy g.scoreBuffer)
          (g.layer layer).keyBuffer (g.layer layer).keyPages).2,
        (l.v.repack A s.cache.kDim (evictKeep A s.cache recent heavy g.scoreBuffer)
          (g.layer layer).valueBuffer (g.layer layer).valuePages).2⟩ :=
    if_pos ⟨hcap, hrowsOk, hdoneK, hdoneV⟩
  rw [hrepack, hzero, Nat.add_zero]
  exact ⟨lane_repack_holds (fun _ => mem_evictKeep) hcount.1.1 hkeyBuf hdoneK,
    lane_repack_holds (fun _ => mem_evictKeep) hcount.2.1 hvalueBuf hdoneV⟩

theorem step_rows (call : Call F) (hs : Rows s) (hp : Proper A s call) (ho : Orderly A s call) :
    Rows (s.step A call) := by
  cases call with
  | append layer k v keyPages valuePages => exact append_rows hs hp ho
  | advance n => exact advance_rows hs hp
  | evict recent heavy g => exact evict_rows hs hp ho

theorem append_blocks {layer keyPages valuePages : ℕ} (hs : Rows s)
    (hl : s.cache.layers[layer]? = some l)
    (hp : Proper A s (.append layer k v keyPages valuePages))
    (ho : Orderly A s (.append layer k v keyPages valuePages)) :
    ∃ l', (s.step A (.append layer k v keyPages valuePages)).cache.layers[layer]? = some l' ∧
      l.k.BlocksKept l'.k ∧ l.v.BlocksKept l'.v := by
  obtain ⟨-, -, l₁, hl₁, hdone⟩ := hp
  cases hl.symm.trans hl₁
  obtain ⟨hdoneK, hdoneV, hpair⟩ := layer_append hdone
  obtain ⟨hevenK, hevenV⟩ := ho l hl
  obtain ⟨hbound, -⟩ := List.getElem?_eq_some_iff.mp hl
  refine ⟨(l.append A k v keyPages valuePages).2, ?_, ?_, ?_⟩
  · rw [step_append hl, List.getElem?_set_self hbound]
  · rw [hpair]
    exact appendQuant_blocks (hs layer hbound l hl).1 hevenK hdoneK
  · rw [hpair]
    exact appendQuant_blocks (hs layer hbound l hl).2 hevenV hdoneV

end step

theorem rows_held (A : Arith F) (numLayers kDim kvDim : ℕ) (calls : List (Call F))
    (h : Along (Session.step A) (fun s call => Proper A s call ∧ Orderly A s call)
      (Session.new numLayers kDim kvDim) calls) :
    Rows (run (Session.step A) (Session.new numLayers kDim kvDim) calls) ∧
      ∀ (layer : ℕ) (l : Layer F) (k v : List F) (keyPages valuePages : ℕ),
        (run (Session.step A) (Session.new numLayers kDim kvDim) calls).cache.layers[layer]? =
          some l →
        Proper A (run (Session.step A) (Session.new numLayers kDim kvDim) calls)
          (.append layer k v keyPages valuePages) →
        Orderly A (run (Session.step A) (Session.new numLayers kDim kvDim) calls)
          (.append layer k v keyPages valuePages) →
        ∃ l', ((run (Session.step A) (Session.new numLayers kDim kvDim) calls).step A
            (.append layer k v keyPages valuePages)).cache.layers[layer]? = some l' ∧
          l.k.BlocksKept l'.k ∧ l.v.BlocksKept l'.v := by
  have hrows := run_invariant (fun s call hs hc => step_rows call hs hc.1 hc.2)
    (new_rows numLayers kDim kvDim) h
  exact ⟨hrows, fun layer l k v keyPages valuePages hl hp ho => append_blocks hrows hl hp ho⟩

def oneRow (kDim : ℕ) : List (Call ℤ) :=
  [.append 0 (List.replicate kDim 5) (List.replicate kDim 7) 1 1, .advance 1]

def twoRowsEvicted : List (Call ℤ) := oneRow 64 ++ oneRow 64 ++ [.evict 1 0 fullGrant]

theorem twoRowsEvicted_orderly :
    Along (Session.step headArith)
      (fun s call => Proper headArith s call ∧ Orderly headArith s call)
      (Session.new 1 64 64) twoRowsEvicted := by
  decide +kernel

theorem rows_held_evicted :
    Rows (run (Session.step headArith) (Session.new 1 64 64) twoRowsEvicted) :=
  (rows_held headArith 1 64 64 twoRowsEvicted twoRowsEvicted_orderly).1

/-- With rows of 48 values the third row finds 96, and the first 64 of them are lost. -/
theorem third_row_lost :
    Along (Session.step headArith) (Proper headArith) (Session.new 1 48 48)
        (oneRow 48 ++ oneRow 48 ++ oneRow 48) ∧
      ¬Rows (run (Session.step headArith) (Session.new 1 48 48)
        (oneRow 48 ++ oneRow 48 ++ oneRow 48)) := by
  decide +kernel

end NeuralOs.Cortex
