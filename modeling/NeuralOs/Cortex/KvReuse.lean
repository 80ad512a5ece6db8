import NeuralOs.Cortex.KvCache

/-!
# A cache handed from job to job

The next job takes the stored cache and resets it when the dimensions fit. Both
entry points empty the pages and leave the scales, so the scales of an earlier job
stand before those the new job appends and are the ones its values are read with.
Reads are those of a new cache exactly when no scale was left behind.
-/

set_option autoImplicit false

namespace NeuralOs.Cortex
open Checked

variable {F : Type}

/-- The reset before a job: length and pages, not the scales. -/
def KvCache.recycle (c : KvCache F) : KvCache F :=
  { c with
    layers := c.layers.map fun l =>
      ⟨⟨KvPageList.new, l.k.scales⟩, ⟨KvPageList.new, l.v.scales⟩⟩
    len := 0 }

def KvCache.reset (c : KvCache F) : KvCache F :=
  { c with
    layers := c.layers.map fun _ => Layer.new
    len := 0 }

/-- The cache `generate_speculative_with_ctx` starts with. -/
def generateCache (stored : Option (KvCache F)) (numLayers kDim kvDim : ℕ) : KvCache F :=
  match stored with
  | some existing =>
    if existing.layers.length = numLayers ∧ existing.kDim = kDim then existing.recycle
    else KvCache.new numLayers kDim kvDim
  | none => KvCache.new numLayers kDim kvDim

def prefillCache (stored : Option (KvCache F)) (numLayers kDim kvDim : ℕ) : KvCache F :=
  let cache := stored.getD (KvCache.new numLayers kDim kvDim)
  if cache.layers.length ≠ numLayers ∨ cache.kDim ≠ kDim then KvCache.new numLayers kDim kvDim
  else cache.recycle

inductive Site
  | prefill
  | generate

def jobCache : Site → Option (KvCache F) → ℕ → ℕ → ℕ → KvCache F
  | .prefill => prefillCache
  | .generate => generateCache

variable (A : Arith F)

def runCalls : KvCache F → List (Call F) → Run (KvCache F)
  | c, [] => .ok c
  | c, call::calls => do runCalls (← exec A c call) calls

/-- What happens to the stored cache: a job takes it and stores it back, or it is reset. -/
inductive Event (F : Type)
  | job (site : Site) (numLayers kDim kvDim : ℕ) (calls : List (Call F))
  | reset

def history : Option (KvCache F) → List (Event F) → Run (Option (KvCache F))
  | stored, [] => .ok stored
  | stored, .job site numLayers kDim kvDim calls::events => do
    let cache ← runCalls A (jobCache site stored numLayers kDim kvDim) calls
    history (some cache) events
  | stored, .reset::events => history (stored.map KvCache.reset) events

/-- What a job reads of one layer: the results of `k_all` and `v_all`. -/
def reads (layer seqLen : ℕ) (buffer padding : Bool) (c : KvCache F) : Tensor F × Tensor F :=
  (c.kAll A layer seqLen buffer padding, c.vAll A layer seqLen buffer padding)

def Call.isAppend : Call F → Bool
  | .append _ _ _ _ _ => true
  | _ => false

/-- After any appends the job reads what it would read from a new cache. -/
def Untainted (site : Site) (stored : Option (KvCache F)) (numLayers kDim kvDim : ℕ) : Prop :=
  ∀ calls : List (Call F), (∀ call ∈ calls, call.isAppend = true) →
    ∀ layer seqLen buffer padding,
      (runCalls A (jobCache site stored numLayers kDim kvDim) calls).map
          (reads A layer seqLen buffer padding) =
        (runCalls A (KvCache.new numLayers kDim kvDim) calls).map
          (reads A layer seqLen buffer padding)

/-- A stored cache of these dimensions has no scale left. -/
def Clean (stored : Option (KvCache F)) (numLayers kDim : ℕ) : Prop :=
  ∀ c, stored = some c → c.layers.length = numLayers → c.kDim = kDim →
    ∀ l ∈ c.layers, l.k.scales = [] ∧ l.v.scales = []

/-- Whatever the old scale, some row reads differently with its own. -/
def Telling (kDim : ℕ) : Prop :=
  kDim ≤ maxElems ∧ ∀ old, ∃ row, row.length = kDim ∧ ∃ i < kvBlock, ∃ q,
    (A.quantize row).1[i]? = some q ∧
      A.mul (A.ofI8 q) ((A.quantize row).2.getD 0 A.zero) ≠ A.mul (A.ofI8 q) old

variable {A}

theorem new_recycle (numLayers kDim kvDim : ℕ) :
    (KvCache.new numLayers kDim kvDim : KvCache F).recycle = KvCache.new numLayers kDim kvDim := by
  simp [KvCache.recycle, KvCache.new, Layer.new, Lane.new]

theorem prefillCache_eq (stored : Option (KvCache F)) (numLayers kDim kvDim : ℕ) :
    prefillCache stored numLayers kDim kvDim = generateCache stored numLayers kDim kvDim := by
  cases stored with
  | none =>
    rw [prefillCache, generateCache, Option.getD_none, new_recycle, ite_self]
  | some c =>
    rw [prefillCache, generateCache, Option.getD_some]
    by_cases h : c.layers.length = numLayers ∧ c.kDim = kDim
    · rw [if_pos h, if_neg (by simp [h.1, h.2])]
    · rw [if_neg h, if_pos (by omega)]

theorem jobCache_eq (site : Site) (stored : Option (KvCache F)) (numLayers kDim kvDim : ℕ) :
    jobCache site stored numLayers kDim kvDim = generateCache stored numLayers kDim kvDim := by
  cases site with
  | prefill => exact prefillCache_eq stored numLayers kDim kvDim
  | generate => rfl

section clean

theorem exec_kvDim (c : KvCache F) (x : ℕ) (call : Call F) :
    exec A { c with kvDim := x } call =
      (exec A c call).map fun d => { d with kvDim := x } := by
  cases call with
  | append layer k v keyPages valuePages =>
    rw [exec, exec, KvCache.append, KvCache.append]
    cases c.layers[layer]? <;> rfl
  | advance n => rfl
  | evict recent heavy grant =>
    have hkeep : evictKeep A { c with kvDim := x } recent heavy grant.scoreBuffer =
        evictKeep A c recent heavy grant.scoreBuffer := rfl
    rw [exec, exec, h2oEvict, h2oEvict, hkeep]
    dsimp only
    split
    · rfl
    · split <;> rfl

theorem runCalls_kvDim (c : KvCache F) (x : ℕ) (calls : List (Call F)) :
    runCalls A { c with kvDim := x } calls =
      (runCalls A c calls).map fun d => { d with kvDim := x } := by
  induction calls generalizing c with
  | nil => rfl
  | cons call calls ih =>
    rw [runCalls, runCalls, exec_kvDim]
    cases exec A c call with
    | error e => rfl
    | ok d => exact ih d

theorem recycle_clean {c : KvCache F} (h : ∀ l ∈ c.layers, l.k.scales = [] ∧ l.v.scales = [])
    (kvDim : ℕ) :
    c.recycle = { KvCache.new c.layers.length c.kDim kvDim with kvDim := c.kvDim } := by
  have hlayers : c.layers.map (fun l => (⟨⟨KvPageList.new, l.k.scales⟩,
      ⟨KvPageList.new, l.v.scales⟩⟩ : Layer F)) = List.replicate c.layers.length Layer.new := by
    rw [List.eq_replicate_iff, List.length_map]
    refine ⟨rfl, ?_⟩
    intro l' hl'
    obtain ⟨l, hl, rfl⟩ := List.mem_map.mp hl'
    rw [(h l hl).1, (h l hl).2]
    rfl
  rw [KvCache.recycle, hlayers]
  rfl

theorem untainted_of_clean {site : Site} {stored : Option (KvCache F)} {numLayers kDim kvDim : ℕ}
    (h : Clean stored numLayers kDim) : Untainted A site stored numLayers kDim kvDim := by
  intro calls _ layer seqLen buffer padding
  rw [jobCache_eq]
  cases stored with
  | none => rfl
  | some c =>
    rw [generateCache]
    split
    · next hdim =>
      obtain ⟨rfl, rfl⟩ := hdim
      rw [recycle_clean (h c rfl rfl rfl) kvDim, runCalls_kvDim]
      cases runCalls A (KvCache.new c.layers.length c.kDim kvDim) calls <;> rfl
    · rfl

end clean

section tainted
variable {c : KvCache F} {layer : ℕ} {l : Layer F} {row : List F}

def readBack (A : Arith F) (old : List F) (row : List F) : List F :=
  (A.quantize row).1.mapIdx fun i q =>
    A.mul (A.ofI8 q) ((old ++ (A.quantize row).2).getD (i/kvBlock) A.zero)

def firstRow (A : Arith F) (old : List F) (row : List F) : Lane F :=
  ⟨(KvPageList.new.pushI8 (A.quantize row).1 row.length).2, old ++ (A.quantize row).2⟩

theorem append_first (old row : List F) :
    Lane.appendQuant A ⟨KvPageList.new, old⟩ row row.length = (true, firstRow A old row) := by
  have hdone := KvPageList.pushI8_new (A.quantize_values row).le
  rw [Lane.appendQuant, if_pos (by rfl)]
  simp only [hdone, if_true, firstRow]

theorem read_first (hdim : row.length = c.kDim) (hmax : row.length ≤ maxElems) (old : List F)
    (padding : Bool) :
    c.dequantAll A (some (firstRow A old row)) 1 true padding =
      ⟨(1, c.kDim), readBack A old row⟩ := by
  have hdone := KvPageList.pushI8_new (A.quantize_values row).le
  obtain ⟨hvalues, hlen⟩ := KvPageList.pushI8_true hdone
  rw [KvPageList.new_values, List.nil_append] at hvalues
  rw [KvPageList.new_len, Nat.zero_add, A.quantize_values] at hlen
  have hzeros : f32Zeros A true row.length = List.replicate row.length A.zero := by
    simp [f32Zeros, Nat.not_lt.mpr hmax]
  have hdata : (firstRow A old row).store.dequant A true (firstRow A old row).scales
      (firstRow A old row).store.len = readBack A old row := by
    rw [firstRow, hlen, KvPageList.dequant, hzeros, List.length_replicate, if_pos rfl, hvalues,
      hlen, List.drop_eq_nil_of_le (by rw [List.length_replicate]), List.append_nil,
      List.take_of_length_le (A.quantize_values row).le, readBack]
  have hsize : (readBack A old row).length = c.kDim := by
    rw [readBack, List.length_mapIdx, A.quantize_values, hdim]
  have hsmall : c.kDim < 2^64-1 := by
    rw [← hdim]
    exact lt_of_le_of_lt hmax (by decide)
  rw [KvCache.dequantAll]
  dsimp only
  rw [hdata, hsize, Nat.one_mul, min_eq_left hsmall.le, if_pos rfl, KvCache.fromRowMajor,
    if_pos ⟨by omega, by omega⟩, Option.getD_some]

theorem reads_first (hl : c.layers[layer]? = some l) (hk : l.k.store = KvPageList.new)
    (hv : l.v.store = KvPageList.new) (hdim : row.length = c.kDim) (hmax : row.length ≤ maxElems) :
    (runCalls A c [.append layer row row row.length row.length]).map
        (reads A layer 1 true true) =
      .ok (⟨(1, c.kDim), readBack A l.k.scales row⟩, ⟨(1, c.kDim), readBack A l.v.scales row⟩) := by
  obtain ⟨⟨ks, kscales⟩, ⟨vs, vscales⟩⟩ := l
  obtain rfl : ks = KvPageList.new := hk
  obtain rfl : vs = KvPageList.new := hv
  have hlayer : Layer.append A (⟨⟨KvPageList.new, kscales⟩, ⟨KvPageList.new, vscales⟩⟩ : Layer F)
      row row row.length row.length = (true, ⟨firstRow A kscales row, firstRow A vscales row⟩) := by
    rw [Layer.append, append_first, append_first]
    rfl
  have happend : exec A c (.append layer row row row.length row.length) =
      .ok { c with
        layers := c.layers.set layer ⟨firstRow A kscales row, firstRow A vscales row⟩ } := by
    rw [exec, KvCache.append, hl]
    simp only [hlayer]
    rfl
  have hget : (c.layers.set layer ⟨firstRow A kscales row, firstRow A vscales row⟩)[layer]? =
      some ⟨firstRow A kscales row, firstRow A vscales row⟩ :=
    List.getElem?_set_self (List.getElem?_eq_some_iff.mp hl).1
  have hrun : runCalls A c [.append layer row row row.length row.length] =
      .ok { c with
        layers := c.layers.set layer ⟨firstRow A kscales row, firstRow A vscales row⟩ } := by
    rw [runCalls, happend]
    rfl
  rw [hrun, Except.map, reads, KvCache.kAll, KvCache.vAll, hget, Option.map_some, Option.map_some]
  exact congrArg Except.ok
    (Prod.ext (read_first hdim hmax kscales true) (read_first hdim hmax vscales true))

theorem readBack_ne {kDim : ℕ} (htell : Telling A kDim) {old : List F} (hold : old ≠ []) :
    ∃ row, row.length = kDim ∧ readBack A old row ≠ readBack A [] row := by
  obtain ⟨s, rest, rfl⟩ := List.exists_cons_of_ne_nil hold
  obtain ⟨row, hrow, i, hi, q, hq, hne⟩ := htell.2 s
  refine ⟨row, hrow, ?_⟩
  intro h
  have hat := congrArg (·[i]?) h
  simp only [readBack, List.getElem?_mapIdx, hq, Option.map_some, Nat.div_eq_of_lt hi,
    List.cons_append, List.nil_append, List.getD_cons_zero, Option.some.injEq] at hat
  exact hne hat.symm

theorem clean_of_untainted {site : Site} {stored : Option (KvCache F)} {numLayers kDim kvDim : ℕ}
    (htell : Telling A kDim) (h : Untainted A site stored numLayers kDim kvDim) :
    Clean stored numLayers kDim := by
  rintro c rfl rfl rfl l hl
  obtain ⟨layer, hlayer⟩ := List.mem_iff_getElem?.mp hl
  have hsame : ∀ row : List F, row.length = c.kDim →
      readBack A l.k.scales row = readBack A [] row ∧
        readBack A l.v.scales row = readBack A [] row := by
    intro row hrow
    have hmax : row.length ≤ maxElems := hrow ▸ htell.1
    have heq := h [.append layer row row row.length row.length] (by simp [Call.isAppend]) layer 1
      true true
    have hold : c.recycle.layers[layer]? =
        some ⟨⟨KvPageList.new, l.k.scales⟩, ⟨KvPageList.new, l.v.scales⟩⟩ := by
      rw [KvCache.recycle, List.getElem?_map, hlayer, Option.map_some]
    have hnew : (KvCache.new c.layers.length c.kDim kvDim : KvCache F).layers[layer]? =
        some Layer.new := by
      rw [KvCache.new, List.getElem?_replicate, if_pos (List.getElem?_eq_some_iff.mp hlayer).1]
    rw [jobCache_eq, generateCache, if_pos ⟨rfl, rfl⟩, reads_first hold rfl rfl hrow hmax,
      reads_first hnew rfl rfl hrow hmax] at heq
    simp only [Except.ok.injEq, Prod.mk.injEq, Tensor.mk.injEq] at heq
    exact ⟨heq.1.2, heq.2.2⟩
  constructor
  · by_contra hne
    obtain ⟨row, hrow, hdiff⟩ := readBack_ne htell hne
    exact hdiff (hsame row hrow).1
  · by_contra hne
    obtain ⟨row, hrow, hdiff⟩ := readBack_ne htell hne
    exact hdiff (hsame row hrow).2

end tainted

theorem untainted_iff_clean (A : Arith F) (site : Site) (stored : Option (KvCache F))
    (numLayers kDim kvDim : ℕ) :
    (Clean stored numLayers kDim → Untainted A site stored numLayers kDim kvDim) ∧
      (Telling A kDim → Untainted A site stored numLayers kDim kvDim →
        Clean stored numLayers kDim) :=
  ⟨untainted_of_clean, clean_of_untainted⟩

def afterFive : Run (Option (KvCache ℤ)) :=
  history headArith none [.job .generate 1 1 1 [.append 0 [5] [5] 1 1, .advance 1]]

def keysOfSeven (cache : KvCache ℤ) : Run (Tensor ℤ) :=
  (runCalls headArith cache [.append 0 [7] [7] 1 1]).map (·.kAll headArith 0 1 true true)

theorem old_scale_read :
    (afterFive.bind fun stored => keysOfSeven (jobCache .prefill stored 1 1 1)) =
        .ok ⟨(1, 1), [5]⟩ ∧
      (afterFive.bind fun stored => keysOfSeven (jobCache .generate stored 1 1 1)) =
        .ok ⟨(1, 1), [5]⟩ ∧
      keysOfSeven (KvCache.new 1 1 1) = .ok ⟨(1, 1), [7]⟩ := by
  decide +kernel

end NeuralOs.Cortex
