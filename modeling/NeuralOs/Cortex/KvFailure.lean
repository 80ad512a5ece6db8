import NeuralOs.Cortex.KvAtomic

/-!
# Runs in which allocations fail

A cache is used as the decoder does: rows for every layer, then the step to the next
position, and evictions between positions. As long as each failure spares the cache, rows
stay in order, and the next call is atomic exactly when its failures spare the cache too.
-/

set_option autoImplicit false

namespace NeuralOs.Cortex
open Checked Machine

variable {F : Type} (A : Arith F)

/-- Rows are pending only after an append that succeeded. -/
def Session.call (s : Session F) (call : Call F) : Session F where
  cache := (s.step A call).cache
  pending := match call with
    | .append layer k v keyPages valuePages =>
      if (s.cache.layers[layer]?.map fun l => (l.append A k v keyPages valuePages).1) = some true
      then (s.step A call).pending else s.pending
    | _ => (s.step A call).pending

/-- The decoder's use of the cache: at least one row for a layer that exists and has whole
blocks or less than one; the same number of rows in all layers before an `advance` by it;
evictions with no rows pending. -/
def Ordered (s : Session F) : Call F → Prop
  | .append layer k v _ _ =>
    k ≠ [] ∧ s.cache.kDim ∣ k.length ∧ v.length = k.length ∧
      ∃ l ∈ s.cache.layers[layer]?, l.k.Even ∧ l.v.Even
  | .advance n => ∀ layer < s.cache.layers.length, s.pending layer = n
  | .evict _ _ _ => ∀ layer < s.cache.layers.length, s.pending layer = 0

/-- Values are refused their pages only if the keys before them are; an eviction that drops
rows gets all it asks for, in every layer. -/
def Spared (s : Session F) : Call F → Prop
  | .append layer k v keyPages valuePages => ∀ l ∈ s.cache.layers[layer]?,
    l.v.pagesNeeded v.length ≤ valuePages ∨ keyPages < l.k.pagesNeeded k.length
  | .advance _ => True
  | .evict recent heavy g =>
    let kept := keepCount s.cache.len recent heavy
      (decide (Served A g.scoreBuffer (s.cache.len*s.cache.kDim)))
    0 < s.cache.kDim → kept < s.cache.len → ∀ layer < s.cache.layers.length,
      LayerGranted A s.cache.len kept s.cache.kDim (g.layer layer)

/-- A failed append leaves the layer; after an eviction every layer holds the rows of the same
positions, as many as the cache counts. -/
def Atomic (s : Session F) : Call F → Prop
  | .append layer k v keyPages valuePages => ∀ c',
    s.cache.append A layer k v keyPages valuePages = .ok (false, c') →
      ∀ l l' : Layer F, s.cache.layers[layer]? = some l → c'.layers[layer]? = some l' →
        l.k.Same l'.k ∧ l.v.Same l'.v
  | .advance _ => True
  | .evict recent heavy g => ∃ keep : List ℕ,
    keep.length = (h2oEvict A s.cache recent heavy g).2.len ∧
      ∀ (layer : ℕ) (l l' : Layer F), s.cache.layers[layer]? = some l →
        (h2oEvict A s.cache recent heavy g).2.layers[layer]? = some l' →
        l.k.Keeps A s.cache.kDim s.cache.len keep l'.k ∧
          l.v.Keeps A s.cache.kDim s.cache.len keep l'.v

variable {A} {s : Session F}

/-! ### Appends -/

theorem append_atomic_iff {layer keyPages valuePages : ℕ} {k v : List F} (hs : Rows s)
    (ho : Ordered s (.append layer k v keyPages valuePages)) :
    Atomic A s (.append layer k v keyPages valuePages) ↔
      Spared A s (.append layer k v keyPages valuePages) := by
  obtain ⟨hne, -, -, l, hl, -⟩ := ho
  obtain ⟨hbound, -⟩ := List.getElem?_eq_some_iff.mp hl
  have hiff := layer_atomic_iff (A := A) v keyPages valuePages (hs layer hbound l hl).1 hne
  have hrun : s.cache.append A layer k v keyPages valuePages =
      .ok ((l.append A k v keyPages valuePages).1,
        { s.cache with
          layers := s.cache.layers.set layer (l.append A k v keyPages valuePages).2 }) := by
    rw [KvCache.append, hl]
  have hset : (s.cache.layers.set layer (l.append A k v keyPages valuePages).2)[layer]? =
      some (l.append A k v keyPages valuePages).2 := List.getElem?_set_self hbound
  constructor
  · intro hat l₁ hl₁
    cases hl.symm.trans hl₁
    refine hiff.mp fun hfalse => ?_
    rw [hfalse] at hrun
    exact hat _ hrun l _ hl hset
  · intro hsp c' hc' l₁ l' hl₁ hl'
    cases hl.symm.trans hl₁
    rw [hrun, Except.ok.injEq, Prod.mk.injEq] at hc'
    obtain ⟨hfalse, rfl⟩ := hc'
    cases hset.symm.trans hl'
    exact hiff.mpr (hsp l hl) hfalse

theorem same_holds {a b : Lane F} {n : ℕ} (h : a.Same b) (ha : a.Holds n) : b.Holds n :=
  ⟨(same_len h).trans ha.1, by rw [h.2]; exact ha.2⟩

theorem append_call_rows {layer keyPages valuePages : ℕ} {k v : List F} (hs : Rows s)
    (ho : Ordered s (.append layer k v keyPages valuePages))
    (hsp : Spared A s (.append layer k v keyPages valuePages)) :
    Rows (s.call A (.append layer k v keyPages valuePages)) := by
  have hat := (append_atomic_iff hs ho).mpr hsp
  obtain ⟨-, hdvd, hv, l, hl, heven⟩ := ho
  have hl' : s.cache.layers[layer]? = some l := hl
  obtain ⟨hbound, -⟩ := List.getElem?_eq_some_iff.mp hl'
  cases hdone : (l.append A k v keyPages valuePages).1 with
  | true =>
    have hcall : s.call A (.append layer k v keyPages valuePages) =
        s.step A (.append layer k v keyPages valuePages) := by
      rw [Session.call]
      simp only [hl', Option.map_some, hdone, if_true]
    rw [hcall]
    refine append_rows hs ⟨hdvd, hv, l, hl, hdone⟩ fun l₁ hl₁ => ?_
    cases hl'.symm.trans hl₁
    exact heven
  | false =>
    have hpend : (s.call A (.append layer k v keyPages valuePages)).pending = s.pending := by
      rw [Session.call]
      simp [hl', hdone]
    have hcache : (s.call A (.append layer k v keyPages valuePages)).cache =
        { s.cache with
          layers := s.cache.layers.set layer (l.append A k v keyPages valuePages).2 } :=
      step_append hl'
    have hrun : s.cache.append A layer k v keyPages valuePages =
        .ok (false, { s.cache with
          layers := s.cache.layers.set layer (l.append A k v keyPages valuePages).2 }) := by
      rw [KvCache.append, hl']
      simp [hdone]
    have hsame := hat _ hrun l (l.append A k v keyPages valuePages).2 hl
      (List.getElem?_set_self hbound)
    rw [Rows, hpend, hcache]
    intro i hi l₁ hl₁
    rw [List.length_set] at hi
    rw [Option.mem_def, List.getElem?_set] at hl₁
    by_cases hsi : layer = i
    · subst hsi
      rw [if_pos rfl, if_pos hbound, Option.some.injEq] at hl₁
      subst hl₁
      obtain ⟨hk, hv⟩ := hs layer hbound l hl
      exact ⟨same_holds hsame.1 hk, same_holds hsame.2 hv⟩
    · rw [if_neg hsi] at hl₁
      exact hs i hi l₁ hl₁

/-! ### Evictions -/

def Settled (s : Session F) : Prop :=
  ∀ (layer : ℕ) (l : Layer F), s.cache.layers[layer]? = some l →
    l.k.Holds (s.cache.len*s.cache.kDim) ∧ l.v.Holds (s.cache.len*s.cache.kDim)

variable {g : EvictGrant}

theorem settled_of_ordered {recent heavy : ℕ} (hs : Rows s)
    (ho : Ordered s (.evict recent heavy g)) : Settled s := by
  intro layer l hl
  obtain ⟨hbound, -⟩ := List.getElem?_eq_some_iff.mp hl
  have hrows := hs layer hbound l hl
  rw [ho layer hbound, Nat.add_zero] at hrows
  exact hrows

theorem evictKeep_length (A : Arith F) (recent heavy : ℕ) (scoreBuffer : Bool) (hs : Settled s)
    (hpos : 0 < s.cache.kDim) (hne : s.cache.layers ≠ []) :
    (evictKeep A s.cache recent heavy scoreBuffer).length =
      keepCount s.cache.len recent heavy
        (decide (Served A scoreBuffer (s.cache.len*s.cache.kDim))) := by
  rw [evictKeep]
  split
  · next hnil => exact absurd hnil hne
  next first rest hlayers =>
  have hfirst : first.k.store.len = s.cache.len*s.cache.kDim :=
    (hs 0 first (by rw [hlayers]; rfl)).1.1
  rw [keepIdx_length, keepCount]
  by_cases hserved : Served A scoreBuffer first.k.store.len
  · have hlen : s.cache.len*s.cache.kDim ≤ (first.k.store.dequant A scoreBuffer first.k.scales
        first.k.store.len).length := by rw [dequant_length hserved, hfirst]
    rw [hfirst] at hserved
    rw [scores_full hlen (Nat.sub_le _ _), if_pos (decide_eq_true hserved)]
  · rw [dequant_refused hserved, scores_none hpos, Nat.min_zero]
    rw [hfirst] at hserved
    rw [if_neg (by simpa using hserved)]

theorem h2oEvict_drops {recent heavy : ℕ} (hs : Settled s)
    (hpos : 0 < s.cache.kDim) (hne : s.cache.layers ≠ [])
    (hlt : keepCount s.cache.len recent heavy
      (decide (Served A g.scoreBuffer (s.cache.len*s.cache.kDim))) < s.cache.len) :
    (h2oEvict A s.cache recent heavy g).2 =
      { s.cache with
        layers := s.cache.layers.mapIdx fun l layer => layer.repack A s.cache.kDim
          (evictKeep A s.cache recent heavy g.scoreBuffer) (g.layer l)
        len := (evictKeep A s.cache recent heavy g.scoreBuffer).length } := by
  have holder : min recent s.cache.len < s.cache.len := by
    rw [keepCount] at hlt
    omega
  rw [h2oEvict, if_neg, if_neg]
  · rw [evictKeep_length A recent heavy g.scoreBuffer hs hpos hne]
    omega
  · rw [List.isEmpty_iff]
    simp only [not_or]
    exact ⟨by omega, hne, by omega, by omega⟩

theorem h2oEvict_stays {recent heavy : ℕ} (hs : Settled s)
    (h : ¬(0 < s.cache.kDim ∧ s.cache.layers ≠ [] ∧ keepCount s.cache.len recent heavy
      (decide (Served A g.scoreBuffer (s.cache.len*s.cache.kDim))) < s.cache.len)) :
    (h2oEvict A s.cache recent heavy g).2 = s.cache := by
  rcases h2oEvict_cases A s.cache recent heavy g with hsame | ⟨hlt, hdrop⟩
  · rw [hsame]
  exfalso
  rw [h2oEvict] at hdrop
  split at hdrop
  · rw [Prod.mk.injEq] at hdrop
    omega
  next hno =>
  rw [List.isEmpty_iff] at hno
  simp only [not_or] at hno
  obtain ⟨-, hne, hdim, -⟩ := hno
  have hpos : 0 < s.cache.kDim := Nat.pos_of_ne_zero hdim
  rw [evictKeep_length A recent heavy g.scoreBuffer hs hpos hne] at hlt
  exact h ⟨hpos, hne, hlt⟩

theorem evict_atomic_iff {recent heavy : ℕ} (hs : Settled s) :
    Atomic A s (.evict recent heavy g) ↔ Spared A s (.evict recent heavy g) := by
  by_cases hdrops : 0 < s.cache.kDim ∧ s.cache.layers ≠ [] ∧ keepCount s.cache.len recent heavy
      (decide (Served A g.scoreBuffer (s.cache.len*s.cache.kDim))) < s.cache.len
  · obtain ⟨hpos, hne, hlt⟩ := hdrops
    have hkeep : ∀ pos ∈ evictKeep A s.cache recent heavy g.scoreBuffer, pos < s.cache.len :=
      fun _ => mem_evictKeep
    have hlen := evictKeep_length A recent heavy g.scoreBuffer hs hpos hne
    have hlt' := hlt
    rw [← hlen] at hlt'
    rw [Atomic, Spared, h2oEvict_drops hs hpos hne hlt]
    constructor
    · rintro ⟨keep', hcount, hall⟩ - - layer hbound
      have hl : s.cache.layers[layer]? = some s.cache.layers[layer] :=
        List.getElem?_eq_getElem hbound
      obtain ⟨hk, hv⟩ := hall layer _ _ hl (by rw [List.getElem?_mapIdx, hl]; rfl)
      obtain ⟨hk₀, hv₀⟩ := hs layer _ hl
      have := layer_granted hpos hkeep hlt' hk₀.1 hv₀.1 hcount hk hv
      rwa [hlen] at this
    · intro hall
      refine ⟨evictKeep A s.cache recent heavy g.scoreBuffer, rfl, ?_⟩
      intro layer l l' hl hl'
      obtain ⟨hbound, -⟩ := List.getElem?_eq_some_iff.mp hl
      rw [List.getElem?_mapIdx, hl, Option.map_some, Option.some.injEq] at hl'
      subst hl'
      obtain ⟨hk₀, hv₀⟩ := hs layer l hl
      refine layer_keeps hpos hkeep hk₀.1 hv₀.1 ?_
      rw [hlen]
      exact hall hpos hlt layer hbound
  · have hstays := h2oEvict_stays (A := A) hs hdrops
    rw [Atomic, Spared, hstays]
    constructor
    · intro _ hpos hlt layer hbound
      refine absurd ⟨hpos, ?_, hlt⟩ hdrops
      rintro hnil
      rw [hnil] at hbound
      exact absurd hbound (Nat.not_lt_zero _)
    · intro _
      refine ⟨List.range s.cache.len, List.length_range, ?_⟩
      intro layer l l' hl hl'
      cases hl.symm.trans hl'
      obtain ⟨hk₀, hv₀⟩ := hs layer l hl
      exact ⟨⟨by rw [List.length_range]; exact hk₀.1, .inl ⟨rfl, rfl, rfl⟩⟩,
        ⟨by rw [List.length_range]; exact hv₀.1, .inl ⟨rfl, rfl, rfl⟩⟩⟩

theorem evict_call_rows {recent heavy : ℕ} (hs : Rows s)
    (ho : Ordered s (.evict recent heavy g)) (hsp : Spared A s (.evict recent heavy g)) :
    Rows (s.call A (.evict recent heavy g)) := by
  have hset := settled_of_ordered hs ho
  obtain ⟨keep, hcount, hall⟩ := (evict_atomic_iff hset).mpr hsp
  intro layer hbound l' hl'
  change layer < (h2oEvict A s.cache recent heavy g).2.layers.length at hbound
  change (h2oEvict A s.cache recent heavy g).2.layers[layer]? = some l' at hl'
  have hlayers : (h2oEvict A s.cache recent heavy g).2.layers.length = s.cache.layers.length ∧
      (h2oEvict A s.cache recent heavy g).2.kDim = s.cache.kDim := by
    rcases h2oEvict_cases A s.cache recent heavy g with hsame | ⟨-, hdrop⟩
    · rw [hsame]
      exact ⟨rfl, rfl⟩
    · rw [hdrop]
      exact ⟨List.length_mapIdx, rfl⟩
  rw [hlayers.1] at hbound
  have hl : s.cache.layers[layer]? = some s.cache.layers[layer] := List.getElem?_eq_getElem hbound
  obtain ⟨hk, hv⟩ := hall layer _ l' hl hl'
  obtain ⟨hk₀, hv₀⟩ := hset layer _ hl
  have hsize : ((s.call A (.evict recent heavy g)).cache.len+
      (s.call A (.evict recent heavy g)).pending layer)*
        (s.call A (.evict recent heavy g)).cache.kDim = keep.length*s.cache.kDim := by
    change ((h2oEvict A s.cache recent heavy g).2.len+s.pending layer)*
      (h2oEvict A s.cache recent heavy g).2.kDim = _
    rw [ho layer hbound, Nat.add_zero, ← hcount, hlayers.2]
  rw [hsize]
  exact ⟨keeps_holds hk₀ hk, keeps_holds hv₀ hv⟩

/-! ### Runs -/

theorem call_rows (call : Call F) (hs : Rows s) (ho : Ordered s call) (hsp : Spared A s call) :
    Rows (s.call A call) := by
  cases call with
  | append layer k v keyPages valuePages => exact append_call_rows hs ho hsp
  | advance n => exact advance_rows (A := A) hs ho
  | evict recent heavy g => exact evict_call_rows hs ho hsp

/-- After calls in order whose failures spared the cache, the next call is atomic exactly when
its failures spare the cache. -/
theorem updates_atomic_iff (A : Arith F) (numLayers kDim kvDim : ℕ) (calls : List (Call F))
    (h : Along (Session.call A) (fun s call => Ordered s call ∧ Spared A s call)
      (Session.new numLayers kDim kvDim) calls) (call : Call F)
    (ho : Ordered (run (Session.call A) (Session.new numLayers kDim kvDim) calls) call) :
    Atomic A (run (Session.call A) (Session.new numLayers kDim kvDim) calls) call ↔
      Spared A (run (Session.call A) (Session.new numLayers kDim kvDim) calls) call := by
  have hrows := run_invariant (fun s call hs hc => call_rows call hs hc.1 hc.2)
    (new_rows numLayers kDim kvDim) h
  cases call with
  | append layer k v keyPages valuePages => exact append_atomic_iff hrows ho
  | advance n => exact Iff.rfl
  | evict recent heavy g => exact evict_atomic_iff (settled_of_ordered hrows ho)

instance decidableSpared (A : Arith F) (s : Session F) : (call : Call F) →
    Decidable (Spared A s call)
  | .append .. => by dsimp only [Spared]; infer_instance
  | .advance _ => by dsimp only [Spared]; infer_instance
  | .evict .. => by dsimp only [Spared, LayerGranted, LaneGranted]; infer_instance

instance decidableOrdered (s : Session F) : (call : Call F) → Decidable (Ordered s call)
  | .append .. => by dsimp only [Ordered]; infer_instance
  | .advance _ => by dsimp only [Ordered]; infer_instance
  | .evict .. => by dsimp only [Ordered]; infer_instance

def twoLayerRow : List (Call ℤ) :=
  [.append 0 (List.replicate 64 5) (List.replicate 64 7) 1 1,
    .append 1 (List.replicate 64 5) (List.replicate 64 7) 1 1, .advance 1]

theorem twoLayerRow_ordered :
    Along (Session.call headArith)
      (fun s call => Ordered s call ∧ Spared headArith s call) (Session.new 2 64 64)
      (twoLayerRow++twoLayerRow) := by
  decide +kernel

theorem full_eviction_atomic :
    Atomic headArith (run (Session.call headArith) (Session.new 2 64 64)
      (twoLayerRow++twoLayerRow)) (.evict 1 0 fullGrant) :=
  (updates_atomic_iff headArith 2 64 64 (twoLayerRow++twoLayerRow) twoLayerRow_ordered
    (.evict 1 0 fullGrant) (by decide +kernel)).mpr (by decide +kernel)

def keysOnly : Call ℤ := .append 0 (List.replicate 64 5) (List.replicate 64 7) 1 0

def secondRefused : EvictGrant :=
  ⟨true, fun l => ⟨true, true, true, if l = 1 then 0 else 1, 1⟩⟩

/-- The append fails and leaves a row of keys; the eviction leaves two rows in the second layer
and one in the first, where the cache counts one. -/
theorem failures_leave_traces :
    ((KvCache.new 1 64 64).append headArith 0 (List.replicate 64 5) (List.replicate 64 7) 1 0).map
        Prod.fst = .ok false ∧
    ((run (Session.call headArith) (Session.new 1 64 64) [keysOnly]).cache.layers.map
        fun l => (l.k.store.len, l.v.store.len)) = [(64, 0)] ∧
      (((h2oEvict headArith (run (Session.call headArith) (Session.new 2 64 64)
        (twoLayerRow++twoLayerRow)).cache 1 0 secondRefused).2.layers.map
          fun l => l.k.store.len) = [64, 128]) ∧
      (h2oEvict headArith (run (Session.call headArith) (Session.new 2 64 64)
        (twoLayerRow++twoLayerRow)).cache 1 0 secondRefused).2.len = 1 := by
  decide +kernel

end NeuralOs.Cortex
