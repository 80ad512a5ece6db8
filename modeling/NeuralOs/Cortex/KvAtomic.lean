import NeuralOs.Cortex.KvRows

/-!
# Updates of the cache that fail

The keys of a layer are appended before its values, and an eviction goes from layer to
layer. An append that fails leaves the layer as it was exactly when the keys are already
refused; an eviction leaves all layers with the same positions exactly when no layer is
refused anything.
-/

set_option autoImplicit false

namespace NeuralOs.Cortex
open Checked Machine

variable {F : Type} {A : Arith F}

/-- Values and scales as before; pages that were granted may stay. -/
def Lane.Same (a b : Lane F) : Prop := b.store.values = a.store.values ∧ b.scales = a.scales

def Lane.pagesNeeded (lane : Lane F) (n : ℕ) : ℕ :=
  if lane.store.len%kvBlock = 0 then lane.store.missing n
  else (lane.store.len%kvBlock+n+kvPage-1)/kvPage

/-! ### Appends -/

section append
variable {lane : Lane F} {src : List F} {n avail : ℕ}

theorem appendQuant_done :
    (lane.appendQuant A src avail).1 = decide (lane.pagesNeeded src.length ≤ avail) := by
  rw [Lane.appendQuant, Lane.pagesNeeded]
  dsimp only
  split
  · have hdone : (lane.store.pushI8 (A.quantize src).1 avail).1 =
        decide (lane.store.missing src.length ≤ avail) := by
      rw [KvPageList.pushI8_done, A.quantize_values]
    rw [← hdone]
    split
    · next h => exact h.symm
    · next h => exact (Bool.not_eq_true _ ▸ h).symm
  · have hlen : ∀ f : ℕ → F, (A.quantize ((List.range' (lane.store.len-lane.store.len%kvBlock)
        (lane.store.len%kvBlock)).map f++src)).1.length = lane.store.len%kvBlock+src.length := by
      intro f
      simp [A.quantize_values]
    rw [← hlen fun i => A.mul (A.ofI8 (lane.store.getValue i)) (lane.scales.getLast?.getD A.zero),
      ← KvPageList.new_missing, ← KvPageList.pushI8_done]
    split
    · next h => exact h.symm
    · next h => exact (Bool.not_eq_true _ ▸ h).symm

theorem appendQuant_refused (hlane : lane.Holds n) (h : (lane.appendQuant A src avail).1 = false) :
    lane.Same (lane.appendQuant A src avail).2 := by
  rw [Lane.appendQuant] at h ⊢
  dsimp only at h ⊢
  split
  · next hrem =>
    rw [if_pos hrem] at h
    split at h
    · cases h
    · next hpush =>
      rw [if_neg hpush]
      exact ⟨KvPageList.pushI8_false (Bool.not_eq_true _ ▸ hpush), rfl⟩
  next hrem =>
  rw [if_neg hrem] at h
  split at h
  · cases h
  next hpush =>
  rw [if_neg hpush]
  -- the scale that was taken off goes back
  have hne : lane.scales ≠ [] := by
    intro hnil
    obtain ⟨hlen, hscales⟩ := hlane
    rw [hnil, List.length_nil] at hscales
    simp only [kvBlock] at hrem hscales
    omega
  refine ⟨rfl, ?_⟩
  rw [List.getLast?_eq_some_getLast hne, Option.getD_some]
  exact List.dropLast_append_getLast hne

theorem same_len {a b : Lane F} (h : a.Same b) : b.store.len = a.store.len := by
  rw [← KvPageList.values_length, ← KvPageList.values_length, h.1]

theorem appendQuant_changes (hsrc : src ≠ []) (h : (lane.appendQuant A src avail).1 = true) :
    ¬lane.Same (lane.appendQuant A src avail).2 := by
  intro hsame
  have hpos := List.length_pos_iff.mpr hsrc
  have hlen := same_len hsame
  by_cases hrem : lane.store.len%kvBlock = 0
  · rw [appendQuant_store_len hrem h] at hlen
    omega
  · obtain ⟨hnew, hscales⟩ := appendQuant_partial hrem h
    rw [hsame.2] at hscales
    rw [hnew] at hlen
    simp only [kvBlock] at hrem hlen hscales
    omega

theorem layer_append_false {l : Layer F} {k v : List F} {keyPages valuePages : ℕ}
    (h : (l.append A k v keyPages valuePages).1 = false) :
    (l.k.appendQuant A k keyPages).1 = false ∧
        (l.append A k v keyPages valuePages).2 = ⟨(l.k.appendQuant A k keyPages).2, l.v⟩ ∨
      (l.k.appendQuant A k keyPages).1 = true ∧ (l.v.appendQuant A v valuePages).1 = false ∧
        (l.append A k v keyPages valuePages).2 =
          ⟨(l.k.appendQuant A k keyPages).2, (l.v.appendQuant A v valuePages).2⟩ := by
  rw [Layer.append] at h ⊢
  dsimp only at h ⊢
  by_cases hk : (l.k.appendQuant A k keyPages).1 = true
  · rw [if_pos hk] at h ⊢
    exact .inr ⟨hk, h, rfl⟩
  · rw [if_neg hk]
    exact .inl ⟨Bool.not_eq_true _ ▸ hk, rfl⟩

theorem layer_atomic_iff {l : Layer F} {k : List F} (v : List F) (keyPages valuePages : ℕ)
    (hk : l.k.Holds n) (hne : k ≠ []) :
    ((l.append A k v keyPages valuePages).1 = false →
      l.k.Same (l.append A k v keyPages valuePages).2.k ∧
        l.v.Same (l.append A k v keyPages valuePages).2.v) ↔
      (l.v.pagesNeeded v.length ≤ valuePages ∨ keyPages < l.k.pagesNeeded k.length) := by
  have hdoneK : (l.k.appendQuant A k keyPages).1 = decide (l.k.pagesNeeded k.length ≤ keyPages) :=
    appendQuant_done
  have hdoneV : (l.v.appendQuant A v valuePages).1 =
      decide (l.v.pagesNeeded v.length ≤ valuePages) := appendQuant_done
  constructor
  · intro h
    by_contra hno
    rw [not_or, Nat.not_le, Nat.not_lt] at hno
    rw [decide_eq_true hno.2] at hdoneK
    rw [decide_eq_false (Nat.not_le.mpr hno.1)] at hdoneV
    have hfalse : (l.append A k v keyPages valuePages).1 = false := by
      rw [Layer.append]
      dsimp only
      rw [if_pos hdoneK]
      exact hdoneV
    rcases layer_append_false hfalse with ⟨hrefused, -⟩ | ⟨-, -, hpair⟩
    · rw [hdoneK] at hrefused
      cases hrefused
    · have hsame := (h hfalse).1
      rw [hpair] at hsame
      exact appendQuant_changes hne hdoneK hsame
  · intro h hfalse
    rcases layer_append_false hfalse with ⟨hrefused, hpair⟩ | ⟨hgranted, hrefused, -⟩
    · rw [hpair]
      exact ⟨appendQuant_refused hk hrefused, rfl, rfl⟩
    · rw [hdoneK, decide_eq_true_iff] at hgranted
      rw [hdoneV, decide_eq_false_iff_not] at hrefused
      omega

end append

/-! ### The positions that are kept -/

section keep
variable {kDim len recent heavy : ℕ} {layer0 : List F}

/-- The rows that an eviction leaves: the recent ones and, if the keys could be scored, the
heavy ones. -/
def keepCount (len recent heavy : ℕ) (scored : Bool) : ℕ :=
  min recent len+if scored then min heavy (len-min recent len) else 0

theorem scores_fst (A : Arith F) (kDim older : ℕ) (layer0 : List F) :
    (scores A kDim older layer0).map Prod.fst =
      (List.range older).takeWhile fun pos => pos*kDim+kDim ≤ layer0.length := by
  rw [scores, List.map_map]
  exact List.map_id _

theorem keepIdx_length (A : Arith F) (kDim len recent heavy : ℕ) (layer0 : List F) :
    (keepIdx A kDim len recent heavy layer0).length = min recent len+
      min heavy (scores A kDim (len-min recent len) layer0).length := by
  let older := len-min recent len
  let heavyIdx := ((A.rank (scores A kDim older layer0)).take heavy).map Prod.fst
  have hperm := (A.rank_perm (scores A kDim older layer0)).map Prod.fst
  have hnodup : ((A.rank (scores A kDim older layer0)).map Prod.fst).Nodup := by
    rw [hperm.nodup_iff, scores_fst]
    exact (List.takeWhile_sublist _).nodup List.nodup_range
  have hheavy : heavyIdx.Nodup := by
    change (List.map Prod.fst ((A.rank (scores A kDim older layer0)).take heavy)).Nodup
    rw [List.map_take]
    exact (List.take_sublist _ _).nodup hnodup
  have hbelow : ∀ pos ∈ heavyIdx, pos < older := by
    intro pos hpos
    obtain ⟨x, hx, rfl⟩ := List.mem_map.mp hpos
    exact mem_scores ((A.rank_perm _).mem_iff.mp (List.mem_of_mem_take hx))
  let all := heavyIdx.insertionSort (· ≤ ·)++List.range' older (len-older)
  have hall : all.Nodup := by
    refine List.Nodup.append ((List.perm_insertionSort _ _).nodup_iff.mpr hheavy)
      List.nodup_range' fun pos hpos hpos' => ?_
    have := hbelow pos ((List.mem_insertionSort _).mp hpos)
    have := (List.mem_range'_1.mp hpos').1
    omega
  -- sorted and without repetitions, so nothing is left out
  have hchain : (all.insertionSort (· ≤ ·)).IsChain (· ≠ ·) := by
    have hdistinct : (all.insertionSort (· ≤ ·)).Nodup :=
      (List.perm_insertionSort _ _).nodup_iff.mpr hall
    exact hdistinct.isChain
  have hkeep : keepIdx A kDim len recent heavy layer0 = all.insertionSort (· ≤ ·) :=
    List.destutter_of_isChain _ _ hchain
  rw [hkeep, List.length_insertionSort, List.length_append, List.length_insertionSort,
    List.length_range', List.length_map, List.length_take, (A.rank_perm _).length_eq, Nat.add_comm]
  have hrecent : len-older = min recent len := by omega
  rw [hrecent]

theorem scores_full (h : len*kDim ≤ layer0.length) {older : ℕ} (hold : older ≤ len) :
    (scores A kDim older layer0).length = older := by
  have hfst := congrArg List.length (scores_fst A kDim older layer0)
  rw [List.length_map] at hfst
  rw [hfst, List.takeWhile_eq_self_iff.mpr, List.length_range]
  intro pos hpos
  have hle : (pos+1)*kDim ≤ len*kDim :=
    Nat.mul_le_mul_right kDim (by have := List.mem_range.mp hpos; omega)
  rw [Nat.add_mul, Nat.one_mul] at hle
  exact decide_eq_true (hle.trans h)

theorem scores_none (hpos : 0 < kDim) (older : ℕ) :
    (scores A kDim older ([] : List F)).length = 0 := by
  have hfst := congrArg List.length (scores_fst A kDim older [])
  rw [List.length_map] at hfst
  rw [hfst]
  cases older with
  | zero => rfl
  | succ older =>
    rw [List.range_succ_eq_map, List.takeWhile_cons, if_neg (by simp; omega)]
    rfl

end keep

/-! ### Evictions -/

section evict
variable {kDim rows avail : ℕ} {keep : List ℕ} {lane : Lane F} {buffer : Bool}

def Lane.floats (A : Arith F) (lane : Lane F) : List F :=
  lane.store.values.mapIdx fun i q => A.mul (A.ofI8 q) (lane.scales.getD (i/kvBlock) A.zero)

theorem dequant_served (h : Served A buffer lane.store.len) :
    lane.store.dequant A buffer lane.scales lane.store.len = lane.floats A := by
  rw [Served] at h
  rw [KvPageList.dequant, if_pos h, List.drop_of_length_le (by omega), List.append_nil,
    List.take_of_length_le (KvPageList.values_length _).le, Lane.floats]

theorem dequant_refused (h : ¬Served A buffer lane.store.len) :
    lane.store.dequant A buffer lane.scales lane.store.len = [] := by
  have hnil : f32Zeros A buffer lane.store.len = [] := by
    rw [Served, f32Zeros] at h
    rw [f32Zeros]
    split
    · rfl
    · split
      · next hlen hgrant =>
        rw [if_neg hlen, if_pos hgrant, List.length_replicate] at h
        exact absurd rfl h
      · rfl
  rw [Served] at h
  rw [KvPageList.dequant, if_neg h, hnil]

/-- `b` holds the rows of `a` at the positions `keep`, of `len` rows. -/
def Lane.Keeps (A : Arith F) (kDim len : ℕ) (keep : List ℕ) (a b : Lane F) : Prop :=
  b.store.len = keep.length*kDim ∧
    (keep = List.range len ∧ a.Same b ∨
      b.store.values = (A.quantize (gather kDim keep (a.floats A))).1 ∧
        b.scales = (A.quantize (gather kDim keep (a.floats A))).2)

theorem gather_none (hpos : 0 < kDim) (keep : List ℕ) : gather kDim keep ([] : List F) = [] := by
  rw [gather, List.flatMap_eq_nil_iff]
  intro pos _
  rw [if_neg (by simp; omega)]

theorem repack_done (A : Arith F) (kDim : ℕ) (keep : List ℕ) (lane : Lane F) (buffer : Bool)
    (avail : ℕ) :
    (lane.repack A kDim keep buffer avail).1 =
      decide (((gather kDim keep (lane.store.dequant A buffer lane.scales
        lane.store.len)).length+kvPage-1)/kvPage ≤ avail) := by
  rw [Lane.repack]
  dsimp only
  rw [KvPageList.pushI8_done, A.quantize_values, KvPageList.new_missing]

theorem repack_lane (h : (lane.repack A kDim keep buffer avail).1 = true) :
    (lane.repack A kDim keep buffer avail).2.store.values =
        (A.quantize (gather kDim keep
          (lane.store.dequant A buffer lane.scales lane.store.len))).1 ∧
      (lane.repack A kDim keep buffer avail).2.scales =
        (A.quantize (gather kDim keep
          (lane.store.dequant A buffer lane.scales lane.store.len))).2 := by
  rw [Lane.repack] at h ⊢
  exact ⟨(KvPageList.pushI8_true h).1, rfl⟩

theorem floats_length (lane : Lane F) : (lane.floats A).length = lane.store.len := by
  rw [Lane.floats, List.length_mapIdx, KvPageList.values_length]

def LaneGranted (A : Arith F) (size kept kDim : ℕ) (buffer : Bool) (avail : ℕ) : Prop :=
  (kept*kDim+kvPage-1)/kvPage ≤ avail ∧ (kept = 0 ∨ Served A buffer size)

theorem repack_keeps_iff (hpos : 0 < kDim) (hkeep : ∀ pos ∈ keep, pos < rows)
    (hlen : lane.store.len = rows*kDim) :
    ((lane.repack A kDim keep buffer avail).1 = true ∧
        (lane.repack A kDim keep buffer avail).2.store.len = keep.length*kDim) ↔
      LaneGranted A (rows*kDim) keep.length kDim buffer avail := by
  have hstore : (lane.repack A kDim keep buffer avail).1 = true →
      (lane.repack A kDim keep buffer avail).2.store.len = (gather kDim keep
        (lane.store.dequant A buffer lane.scales lane.store.len)).length := by
    intro hdone
    rw [← KvPageList.values_length, (repack_lane hdone).1, A.quantize_values]
  have hdone := repack_done A kDim keep lane buffer avail
  by_cases hserved : Served A buffer lane.store.len
  · have hgather : (gather kDim keep (lane.store.dequant A buffer lane.scales
        lane.store.len)).length = keep.length*kDim := by
      rw [dequant_served hserved]
      exact gather_length hkeep ((floats_length lane).trans hlen)
    rw [hgather] at hdone hstore
    rw [hlen] at hserved
    constructor
    · rintro ⟨htrue, -⟩
      rw [hdone, decide_eq_true_iff] at htrue
      exact ⟨htrue, .inr hserved⟩
    · rintro ⟨hpages, -⟩
      have htrue := hdone.trans (decide_eq_true hpages)
      exact ⟨htrue, hstore htrue⟩
  · have hgather : (gather kDim keep (lane.store.dequant A buffer lane.scales
        lane.store.len)).length = 0 := by
      rw [dequant_refused hserved, gather_none hpos, List.length_nil]
    rw [hgather] at hdone hstore
    rw [hlen] at hserved
    constructor
    · rintro ⟨htrue, hsize⟩
      rw [hstore htrue] at hsize
      have hzero : keep.length = 0 := by
        rcases Nat.mul_eq_zero.mp hsize.symm with h | h
        · exact h
        · omega
      rw [hdone, decide_eq_true_iff] at htrue
      exact ⟨by rw [hzero, Nat.zero_mul]; exact htrue, .inl hzero⟩
    · rintro ⟨hpages, hzero | hserved'⟩
      · have htrue : (lane.repack A kDim keep buffer avail).1 = true := by
          rw [hdone, decide_eq_true_iff]
          rwa [hzero, Nat.zero_mul] at hpages
        exact ⟨htrue, by rw [hstore htrue, hzero, Nat.zero_mul]⟩
      · exact absurd hserved' hserved

theorem repack_keeps (hpos : 0 < kDim) (hkeep : ∀ pos ∈ keep, pos < rows)
    (hlen : lane.store.len = rows*kDim)
    (h : LaneGranted A (rows*kDim) keep.length kDim buffer avail) :
    lane.Keeps A kDim rows keep (lane.repack A kDim keep buffer avail).2 := by
  obtain ⟨hdone, hsize⟩ := (repack_keeps_iff hpos hkeep hlen).mpr h
  obtain ⟨hvalues, hscales⟩ := repack_lane hdone
  have hsame : gather kDim keep (lane.store.dequant A buffer lane.scales lane.store.len) =
      gather kDim keep (lane.floats A) := by
    rcases h.2 with hzero | hserved
    · rw [List.length_eq_zero_iff.mp hzero]
      rfl
    · rw [← hlen] at hserved
      rw [dequant_served hserved]
  rw [hsame] at hvalues hscales
  exact ⟨hsize, .inr ⟨hvalues, hscales⟩⟩

def LayerGranted (A : Arith F) (len kept kDim : ℕ) (g : LayerGrant) : Prop :=
  kept*kDim < 2^64 ∧ g.rows = true ∧
    LaneGranted A (len*kDim) kept kDim g.keyBuffer g.keyPages ∧
    LaneGranted A (len*kDim) kept kDim g.valueBuffer g.valuePages

theorem layer_keeps {l : Layer F} {g : LayerGrant} (hpos : 0 < kDim)
    (hkeep : ∀ pos ∈ keep, pos < rows) (hk : l.k.store.len = rows*kDim)
    (hv : l.v.store.len = rows*kDim) (h : LayerGranted A rows keep.length kDim g) :
    l.k.Keeps A kDim rows keep (l.repack A kDim keep g).k ∧
      l.v.Keeps A kDim rows keep (l.repack A kDim keep g).v := by
  obtain ⟨hcap, hrows, hgrantK, hgrantV⟩ := h
  have hdoneK := ((repack_keeps_iff hpos hkeep hk).mpr hgrantK).1
  have hdoneV := ((repack_keeps_iff hpos hkeep hv).mpr hgrantV).1
  rw [Layer.repack]
  dsimp only
  rw [if_pos ⟨hcap, hrows, hdoneK, hdoneV⟩]
  exact ⟨repack_keeps hpos hkeep hk hgrantK, repack_keeps hpos hkeep hv hgrantV⟩

theorem layer_granted {l : Layer F} {g : LayerGrant} {keep' : List ℕ} (hpos : 0 < kDim)
    (hkeep : ∀ pos ∈ keep, pos < rows) (hlt : keep.length < rows)
    (hk : l.k.store.len = rows*kDim) (hv : l.v.store.len = rows*kDim)
    (hcount : keep'.length = keep.length)
    (hkeysK : l.k.Keeps A kDim rows keep' (l.repack A kDim keep g).k)
    (hkeysV : l.v.Keeps A kDim rows keep' (l.repack A kDim keep g).v) :
    LayerGranted A rows keep.length kDim g := by
  rw [Layer.repack] at hkeysK hkeysV
  dsimp only at hkeysK hkeysV
  split at hkeysK
  · next hc =>
    rw [if_pos hc] at hkeysV
    obtain ⟨hcap, hrows, hdoneK, hdoneV⟩ := hc
    rw [Lane.Keeps, hcount] at hkeysK hkeysV
    exact ⟨hcap, hrows, (repack_keeps_iff hpos hkeep hk).mp ⟨hdoneK, hkeysK.1⟩,
      (repack_keeps_iff hpos hkeep hv).mp ⟨hdoneV, hkeysV.1⟩⟩
  · -- a layer that was put back has all its rows
    have hsize := hkeysK.1
    rw [hk, hcount] at hsize
    have := Nat.eq_of_mul_eq_mul_right hpos hsize
    omega

theorem keeps_holds {a b : Lane F} {len : ℕ} (ha : a.Holds (len*kDim))
    (h : a.Keeps A kDim len keep b) : b.Holds (keep.length*kDim) := by
  obtain ⟨hsize, ⟨rfl, hsame⟩ | ⟨hvalues, hscales⟩⟩ := h
  · rw [List.length_range] at hsize ⊢
    exact ⟨hsize, by rw [hsame.2]; exact ha.2⟩
  · refine ⟨hsize, ?_⟩
    rw [← KvPageList.values_length, hvalues, A.quantize_values] at hsize
    rw [hscales, A.quantize_scales, hsize]

end evict

end NeuralOs.Cortex
