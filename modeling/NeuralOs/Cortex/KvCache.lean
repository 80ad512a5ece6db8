import NeuralOs.Lib.Checked
import NeuralOs.Lib.PagedList

/-!
# The key/value cache

The cache of one decoder: for each layer the keys and the values of all positions
as 8-bit numbers in pages, with one scale for each block of 64. Floating point is
a parameter, the quantiser any function that gives one number per value and one
scale per started block. What the allocator grants is an argument of each call.
-/

set_option autoImplicit false

namespace NeuralOs.Cortex
open Checked PagedList

def kvBlock : ℕ := 64

def kvPage : ℕ := 4096

def maxElems : ℕ := 64*1024*1024

/-- Floating point, the quantiser, and the order in which the unstable sort by score leaves
its entries. -/
structure Arith (F : Type) where
  zero : F
  mul : F → F → F
  add : F → F → F
  ofI8 : Int8 → F
  quantize : List F → List Int8 × List F
  rank : List (ℕ × F) → List (ℕ × F)
  quantize_values : ∀ xs, (quantize xs).1.length = xs.length
  quantize_scales : ∀ xs, (quantize xs).2.length = (xs.length+kvBlock-1)/kvBlock
  rank_perm : ∀ xs, (rank xs).Perm xs

structure Tensor (F : Type) where
  shape : ℕ × ℕ
  data : List F
  deriving DecidableEq

def KvPageList : Type := Paged Int8 kvPage

theorem kvPage_pos : 0 < kvPage := by decide

namespace KvPageList

def new : KvPageList := Paged.new Int8 kvPage

def len (l : KvPageList) : ℕ := Paged.used l

def values (l : KvPageList) : List Int8 := Paged.values l

def getValue (l : KvPageList) (i : ℕ) : Int8 :=
  if l.len ≤ i then 0 else ((Paged.pages l)[i/kvPage]?.bind (·[i%kvPage]?)).getD 0

def pushI8 (l : KvPageList) (src : List Int8) (avail : ℕ) : Bool × KvPageList :=
  Paged.push kvPage_pos l src avail

@[simp] theorem new_len : new.len = 0 := rfl

@[simp] theorem new_values : new.values = [] := rfl

theorem values_length (l : KvPageList) : l.values.length = l.len := Paged.values_length l

variable {l : KvPageList}

theorem pushI8_true {src : List Int8} {avail : ℕ}
    (h : (l.pushI8 src avail).1 = true) :
    (l.pushI8 src avail).2.values = l.values ++ src ∧
      (l.pushI8 src avail).2.len = l.len+src.length := Paged.push_true h

def missing (l : KvPageList) (n : ℕ) : ℕ := Paged.missing l n

theorem new_missing (n : ℕ) : new.missing n = (n+kvPage-1)/kvPage := by
  change (0+n+kvPage-1)/kvPage-0 = _
  rw [Nat.zero_add, Nat.sub_zero]

theorem pushI8_done {src : List Int8} {avail : ℕ} :
    (l.pushI8 src avail).1 = decide (l.missing src.length ≤ avail) := Paged.push_done

theorem pushI8_false {src : List Int8} {avail : ℕ} (h : (l.pushI8 src avail).1 = false) :
    (l.pushI8 src avail).2.values = l.values := Paged.push_false h

theorem pushI8_new {src : List Int8} {avail : ℕ} (h : src.length ≤ avail) :
    (new.pushI8 src avail).1 = true := by
  have hpages : (0+src.length+kvPage-1)/kvPage-0 ≤ avail := by
    simp only [kvPage]
    omega
  exact Paged.push_served hpages

end KvPageList

structure Lane (F : Type) where
  store : KvPageList
  scales : List F

structure Layer (F : Type) where
  k : Lane F
  v : Lane F

/-- The four lists of the source always have one entry per layer. -/
structure KvCache (F : Type) where
  layers : List (Layer F)
  len : ℕ
  kDim : ℕ
  kvDim : ℕ

variable {F : Type}

def Lane.new : Lane F := ⟨KvPageList.new, []⟩

def Layer.new : Layer F := ⟨Lane.new, Lane.new⟩

def KvCache.new (numLayers kDim kvDim : ℕ) : KvCache F :=
  ⟨List.replicate numLayers Layer.new, 0, kDim, kvDim⟩

variable (A : Arith F)

def f32Zeros (granted : Bool) (len : ℕ) : List F :=
  if maxElems < len then [] else if granted then List.replicate len A.zero else []

def KvPageList.dequant (granted : Bool) (l : KvPageList) (scales : List F) (outLen : ℕ) : List F :=
  let out := f32Zeros A granted outLen
  if out.length = outLen then
    ((l.values.take outLen).mapIdx fun i q => A.mul (A.ofI8 q) (scales.getD (i/kvBlock) A.zero))
      ++ out.drop l.len
  else out

def Lane.appendQuant (lane : Lane F) (src : List F) (avail : ℕ) : Bool × Lane F :=
  let base := lane.store.len
  let rem := base%kvBlock
  if rem = 0 then
    let (q, s) := A.quantize src
    let (done, store) := lane.store.pushI8 q avail
    if done then (true, ⟨store, lane.scales++s⟩) else (false, ⟨store, lane.scales⟩)
  else
    let tailStart := base-rem
    let lastScale := lane.scales.getLast?.getD A.zero
    let scales := lane.scales.dropLast
    let tail := (List.range' tailStart rem).map fun i =>
      A.mul (A.ofI8 (lane.store.getValue i)) lastScale
    let (q, s) := A.quantize (tail++src)
    -- a new list that starts with the partial block takes the place of the old one
    let (done, fresh) := KvPageList.new.pushI8 q avail
    if done then (true, ⟨fresh, scales++s⟩) else (false, ⟨lane.store, scales++[lastScale]⟩)

def Layer.append (l : Layer F) (k v : List F) (keyPages valuePages : ℕ) : Bool × Layer F :=
  let (doneK, keys) := l.k.appendQuant A k keyPages
  if doneK then
    let (doneV, values) := l.v.appendQuant A v valuePages
    (doneV, ⟨keys, values⟩)
  else (false, ⟨keys, l.v⟩)

namespace KvCache

def append (c : KvCache F) (layer : ℕ) (k v : List F) (keyPages valuePages : ℕ) :
    Run (Bool × KvCache F) :=
  match c.layers[layer]? with
  | none => .error .panic
  | some l =>
    let (done, l') := l.append A k v keyPages valuePages
    .ok (done, { c with layers := c.layers.set layer l' })

def advance (c : KvCache F) (n : ℕ) : KvCache F := { c with len := c.len+n }

def fromRowMajor (shape : ℕ × ℕ) (data : List F) : Option (Tensor F) :=
  if shape.1*shape.2 < 2^64 ∧ data.length = shape.1*shape.2 then some ⟨shape, data⟩ else none

def dequantAll (c : KvCache F) (lane : Option (Lane F)) (seqLen : ℕ) (buffer padding : Bool) :
    Tensor F :=
  let data := match lane with
    | some l => l.store.dequant A buffer l.scales l.store.len
    | none => []
  let expected := min (seqLen*c.kDim) (2^64-1)
  if data.length = expected then (fromRowMajor (seqLen, c.kDim) data).getD ⟨(0, 0), []⟩
  else
    let padded := f32Zeros A padding expected
    if padded.length = expected then
      (fromRowMajor (seqLen, c.kDim)
        (data.take expected ++ padded.drop data.length)).getD ⟨(0, 0), []⟩
    else ⟨(0, 0), []⟩

def kAll (c : KvCache F) (layer seqLen : ℕ) (buffer padding : Bool) : Tensor F :=
  c.dequantAll A (c.layers[layer]?.map Layer.k) seqLen buffer padding

def vAll (c : KvCache F) (layer seqLen : ℕ) (buffer padding : Bool) : Tensor F :=
  c.dequantAll A (c.layers[layer]?.map Layer.v) seqLen buffer padding

end KvCache

structure LayerGrant where
  keyBuffer : Bool
  valueBuffer : Bool
  rows : Bool
  keyPages : ℕ
  valuePages : ℕ

structure EvictGrant where
  scoreBuffer : Bool
  layer : ℕ → LayerGrant

def gather (kDim : ℕ) (keep : List ℕ) (d : List F) : List F :=
  keep.flatMap fun pos => if pos*kDim+kDim ≤ d.length then (d.drop (pos*kDim)).take kDim else []

def Lane.repack (kDim : ℕ) (keep : List ℕ) (lane : Lane F) (buffer : Bool) (avail : ℕ) :
    Bool × Lane F :=
  let d := lane.store.dequant A buffer lane.scales lane.store.len
  let (q, s) := A.quantize (gather kDim keep d)
  let (done, list) := KvPageList.new.pushI8 q avail
  (done, ⟨list, s⟩)

def Layer.repack (kDim : ℕ) (keep : List ℕ) (l : Layer F) (g : LayerGrant) : Layer F :=
  let (doneK, keys) := l.k.repack A kDim keep g.keyBuffer g.keyPages
  let (doneV, values) := l.v.repack A kDim keep g.valueBuffer g.valuePages
  if keep.length*kDim < 2^64 ∧ g.rows ∧ doneK ∧ doneV then ⟨keys, values⟩ else l

def scores (kDim older : ℕ) (layer0 : List F) : List (ℕ × F) :=
  ((List.range older).takeWhile fun pos => pos*kDim+kDim ≤ layer0.length).map fun pos =>
    (pos, ((layer0.drop (pos*kDim)).take kDim).foldl (fun acc v => A.add acc (A.mul v v)) A.zero)

def keepIdx (kDim len recent heavy : ℕ) (layer0 : List F) : List ℕ :=
  let older := len-min recent len
  let heavyIdx := ((A.rank (scores A kDim older layer0)).take heavy).map Prod.fst
  (((heavyIdx.insertionSort (· ≤ ·)) ++ List.range' older (len-older)).insertionSort
    (· ≤ ·)).destutter (· ≠ ·)

def evictKeep (c : KvCache F) (recent heavy : ℕ) (scoreBuffer : Bool) : List ℕ :=
  match c.layers with
  | [] => []
  | first::_ =>
    keepIdx A c.kDim c.len recent heavy
      (first.k.store.dequant A scoreBuffer first.k.scales first.k.store.len)

def h2oEvict (c : KvCache F) (recent heavy : ℕ) (g : EvictGrant) : ℕ × KvCache F :=
  if c.len = 0 ∨ c.layers.isEmpty ∨ c.kDim = 0 ∨ c.len-min recent c.len = 0 then (0, c)
  else
    let keep := evictKeep A c recent heavy g.scoreBuffer
    if c.len ≤ keep.length then (0, c)
    else (c.len-keep.length,
      { c with
        layers := c.layers.mapIdx fun l layer => layer.repack A c.kDim keep (g.layer l)
        len := keep.length })

inductive Call (F : Type)
  | append (layer : ℕ) (k v : List F) (keyPages valuePages : ℕ)
  | advance (n : ℕ)
  | evict (recent heavy : ℕ) (grant : EvictGrant)

def exec (c : KvCache F) : Call F → Run (KvCache F)
  | .append layer k v keyPages valuePages => do
    let (_, c') ← c.append A layer k v keyPages valuePages
    pure c'
  | .advance n => .ok (c.advance n)
  | .evict recent heavy grant => .ok (h2oEvict A c recent heavy grant).2

section lane
variable {A} {lane : Lane F} {src : List F} {avail : ℕ}

theorem appendQuant_aligned (h : lane.store.len%kvBlock = 0)
    (hdone : (lane.appendQuant A src avail).1 = true) :
    (lane.appendQuant A src avail).2.store.values = lane.store.values ++ (A.quantize src).1 ∧
      (lane.appendQuant A src avail).2.scales = lane.scales ++ (A.quantize src).2 := by
  rw [Lane.appendQuant, if_pos h] at hdone ⊢
  cases hpush : (lane.store.pushI8 (A.quantize src).1 avail).1 with
  | false => simp [hpush] at hdone
  | true =>
    simp only [hpush]
    exact ⟨(KvPageList.pushI8_true hpush).1, rfl⟩

theorem appendQuant_partial (h : lane.store.len%kvBlock ≠ 0)
    (hdone : (lane.appendQuant A src avail).1 = true) :
    (lane.appendQuant A src avail).2.store.len = lane.store.len%kvBlock+src.length ∧
      (lane.appendQuant A src avail).2.scales.length =
        lane.scales.length-1+(lane.store.len%kvBlock+src.length+kvBlock-1)/kvBlock := by
  rw [Lane.appendQuant, if_neg h] at hdone ⊢
  dsimp only at hdone ⊢
  split at hdone
  · next hpush =>
    rw [if_pos hpush]
    refine ⟨?_, ?_⟩
    · simp [(KvPageList.pushI8_true hpush).2, A.quantize_values]
    · simp [A.quantize_scales]
  · cases hdone

theorem appendQuant_store_len (h : lane.store.len%kvBlock = 0)
    (hdone : (lane.appendQuant A src avail).1 = true) :
    (lane.appendQuant A src avail).2.store.len = lane.store.len+src.length := by
  rw [← KvPageList.values_length, (appendQuant_aligned h hdone).1, List.length_append,
    KvPageList.values_length, A.quantize_values]

end lane

/-- Integers, with a quantiser that keeps the first value of each block as its scale. -/
def headArith : Arith ℤ where
  zero := 0
  mul := (· * ·)
  add := (· + ·)
  ofI8 := Int8.toInt
  quantize xs := (List.replicate xs.length 1,
    (List.range ((xs.length+kvBlock-1)/kvBlock)).map fun b => xs.getD (kvBlock*b) 0)
  rank := id
  quantize_values _ := List.length_replicate
  quantize_scales _ := by rw [List.length_map, List.length_range]
  rank_perm := List.Perm.refl

def fullGrant : EvictGrant := ⟨true, fun _ => ⟨true, true, true, 1, 1⟩⟩

end NeuralOs.Cortex
