import NeuralOs.Lib.Bitmap
import NeuralOs.Lib.Machine

/-!
# The physical frame allocator

`BitmapFrameAllocator` tracks the 4 KiB frames of physical memory with two
bitmaps: a frame is busy when its bit in `bitmap` is set, and delivered when an
allocation returned it and no free took it back. A second, small bitmap serves
page tables from frames carved out of the first. A frame is named by its index.
-/

set_option autoImplicit false

namespace NeuralOs.Memory.FrameAllocator
open Bitmap

/-- `BITMAP_SIZE * BITS_PER_BYTE`: 64 GiB of frames. -/
@[irreducible] def capacity : ℕ := 2*1024*1024*8

def frameSize : ℕ := 4096

def lowmemReserveFrames : ℕ := 256

def maxReservedSpans : ℕ := 16

def ptPoolFramesMax : ℕ := 256

def ptPoolBitmapBytes : ℕ := 32

def bootRamlogPhys : ℕ := 0x10000000

def bootRamlogCap : ℕ := 1024*1024

structure Allocator where
  bitmap : Bits
  delivered : Bits
  nextFreeBit : ℕ
  totalFrames : ℕ
  usableFrames : ℕ
  allocatedCount : ℕ
  ptPool : Bits
  ptPoolBase : ℕ
  ptPoolFrames : ℕ
  reservedSpans : List (ℕ × ℕ)
  doubleUseWarned : Bool

def empty : Allocator where
  bitmap := fun _ => true
  delivered := fun _ => false
  nextFreeBit := 0
  totalFrames := 0
  usableFrames := 0
  allocatedCount := 0
  ptPool := fun _ => false
  ptPoolBase := 0
  ptPoolFrames := 0
  reservedSpans := []
  doubleUseWarned := false

/-! ### Reserved spans -/

/-- Indices of the first and last frame that `[base, base+len)` touches, cut at
the end of the bitmap; none for an empty range, an overflow or a range beyond it. -/
def frameSpan (base len maxFrames : ℕ) : Option (ℕ × ℕ) :=
  if len = 0 ∨ maxFrames = 0 then none
  else if 2^64 ≤ base+len then none
  else if maxFrames ≤ base/frameSize then none
  else some (base/frameSize, min ((base+len-1)/frameSize) (maxFrames-1))

/-- Merge the spans that overlap or touch `(start, stop)` into it. A merged slot is
refilled with the last span, so the same slot is looked at again. -/
def absorb : ℕ → ℕ → List (ℕ × ℕ) → ℕ → ℕ → List (ℕ × ℕ) × ℕ × ℕ
  | 0, _, spans, start, stop => (spans, start, stop)
  | n+1, i, spans, start, stop =>
    match spans[i]? with
    | none => (spans, start, stop)
    | some (s, e) =>
      if start ≤ e+1 ∧ s ≤ stop+1 then
        absorb n i ((spans.set i (spans.getLastD (0, 0))).dropLast) (min s start) (max e stop)
      else absorb n (i+1) spans start stop

def spanInsert (spans : List (ℕ × ℕ)) (start stop : ℕ) : List (ℕ × ℕ) :=
  match absorb spans.length 0 spans start stop with
  | (rest, s, e) => if rest.length < maxReservedSpans then rest ++ [(s, e)] else rest

def reserveRange (base len : ℕ) (a : Allocator) : Allocator :=
  match frameSpan base len capacity with
  | none => a
  | some (s, e) => { a with
      bitmap := mark a.bitmap s (e+1-s)
      reservedSpans := spanInsert a.reservedSpans s e }

def checkDoubleUse (idx : ℕ) (a : Allocator) : Allocator :=
  if a.reservedSpans.any fun x => decide (x.1 ≤ idx) && decide (idx ≤ x.2) then
    { a with doubleUseWarned := true }
  else a

/-! ### Initialisation -/

/-- `PhysAddr::new` panics on an address with one of the bits 52 to 63 set. -/
def physAddr (addr : ℕ) : Option ℕ := if addr < 2^52 then some addr else none

structure Usable where
  bitmap : Bits
  lastEnd : ℕ
  count : ℕ

def addUsable (u : Usable) (range : ℕ × ℕ) : Option Usable :=
  if range.2 = 0 then some u
  else do
    let stop := min (range.1+range.2) (2^64-1)
    let first ← physAddr range.1
    let last ← physAddr (stop-1)
    let startIdx := first/frameSize
    let endIdx := last/frameSize
    let frames := min (endIdx+1) capacity - startIdx
    some ⟨clear u.bitmap startIdx frames, max u.lastEnd stop, u.count+frames⟩

/-- Where the loader put the kernel; all zero until it is registered. -/
structure KernelImage where
  phys : ℕ
  virt : ℕ
  virtEnd : ℕ

/-- The span that the initialisation itself reserves for the kernel image. -/
def KernelImage.span (k : KernelImage) : Option (ℕ × ℕ) :=
  if k.phys = 0 ∨ k.virt = 0 then none
  else if k.virtEnd-k.virt = 0 then none
  else some (k.phys, k.virtEnd-k.virt)

def reserveKernelImageInit (k : KernelImage) (a : Allocator) : Allocator :=
  match k.span with
  | none => a
  | some (base, len) => reserveRange base len a

/-- `none` is a panic: a range that does not lie below 2^52. The registered spans
survive an initialisation. -/
def initFromUsableRanges (k : KernelImage) (ranges : List (ℕ × ℕ)) (a : Allocator) :
    Option Allocator := do
  let u ← ranges.foldlM addUsable ⟨fun _ => true, 0, 0⟩
  let total := min (u.lastEnd/frameSize) capacity
  let fresh : Allocator := { a with
    bitmap := u.bitmap
    delivered := fun _ => false
    nextFreeBit := lowmemReserveFrames
    totalFrames := if total = 0 then capacity else total
    usableFrames := u.count
    allocatedCount := 0
    ptPool := fun _ => false
    ptPoolBase := 0
    ptPoolFrames := 0
    doubleUseWarned := false }
  some (reserveRange bootRamlogPhys bootRamlogCap (reserveKernelImageInit k fresh))

/-! ### Allocation -/

def markDelivered (start count : ℕ) (a : Allocator) : Allocator :=
  { a with delivered := mark a.delivered start (min (start+count) capacity-start) }

def take (start count : ℕ) (a : Allocator) : Allocator :=
  markDelivered start count { a with
    bitmap := mark a.bitmap start count
    allocatedCount := a.allocatedCount+count }

def findFreeFrame (startIndex : ℕ) (a : Allocator) : Option ℕ :=
  nextClear a.bitmap startIndex (a.totalFrames-startIndex)

def allocateFrame (a : Allocator) : Option ℕ × Allocator :=
  match findFreeFrame a.nextFreeBit a with
  | none => (none, a)
  | some idx => (some idx, checkDoubleUse idx { take idx 1 a with nextFreeBit := idx+1 })

def allocateContiguous (count : ℕ) (a : Allocator) : Option ℕ × Allocator :=
  if count = 0 then (none, a)
  else
    match search (fun i => decide (i ≤ a.totalFrames-count))
        (fun i => (obstacle a.bitmap i count).map fun j => i+j+1)
        (a.totalFrames+1) a.nextFreeBit with
    | none => (none, a)
    | some i => (some i, { take i count a with nextFreeBit := i+count })

def allocateBelow1mb (a : Allocator) : Option ℕ × Allocator :=
  if 64 < a.totalFrames ∧ a.bitmap 64 = false then (some 64, take 64 1 a)
  else
    match (List.range' 2 (min 255 a.totalFrames-2)).reverse.find? fun i => !a.bitmap i with
    | none => (none, a)
    | some i => (some i, take i 1 a)

def allocateHuge2mb (count : ℕ) (a : Allocator) : Option ℕ × Allocator :=
  if count = 0 ∨ count % 512 ≠ 0 then allocateContiguous count a
  else
    match search (fun i => decide (i+count ≤ a.totalFrames))
        (fun i => (obstacle a.bitmap i count).map fun _ => i+512)
        (a.totalFrames+1) ((a.nextFreeBit+511)/512*512) with
    | none => (none, a)
    | some i => (some i, { take i count a with nextFreeBit := i+count })

def deallocateFrame (idx : ℕ) (a : Allocator) : Allocator :=
  if a.totalFrames ≤ idx then a
  else if a.delivered idx = false then a
  else { a with
    bitmap := clear a.bitmap idx 1
    delivered := clear a.delivered idx 1
    nextFreeBit := min idx a.nextFreeBit
    allocatedCount := a.allocatedCount-1 }

/-! ### The page-table pool -/

/-- The loop of `init_pt_pool`, over the `n` frames from `i` on. -/
def carve (frames : ℕ) : ℕ → ℕ → ℕ → Allocator → ℕ × Allocator
  | 0, _, carved, a => (carved, a)
  | n+1, i, carved, a =>
    if carved < frames then
      if a.bitmap i then carve frames n (i+1) carved a
      else carve frames n (i+1) (carved+1) { a with
        bitmap := mark a.bitmap i 1
        ptPoolBase := if carved = 0 then i else a.ptPoolBase
        ptPool := if carved/8 < ptPoolBitmapBytes then mark a.ptPool carved 1 else a.ptPool }
    else (carved, a)

def initPtPool (frames : ℕ) (a : Allocator) : ℕ × Allocator :=
  match carve frames (a.totalFrames-a.nextFreeBit) a.nextFreeBit 0 a with
  | (carved, a) => (carved, { a with
      ptPoolFrames := carved
      reservedSpans := if 0 < carved then
        spanInsert a.reservedSpans a.ptPoolBase (a.ptPoolBase+carved-1) else a.reservedSpans })

def ptPoolOff (idx : ℕ) (a : Allocator) : Option ℕ :=
  if a.ptPoolFrames = 0 then none
  else if idx < a.ptPoolBase then none
  else if idx-a.ptPoolBase < a.ptPoolFrames then some (idx-a.ptPoolBase) else none

def allocPtFrame (a : Allocator) : Option ℕ × Allocator :=
  match (List.range a.ptPoolFrames).find? fun off => a.ptPool off with
  | some off => (some (a.ptPoolBase+off), { a with
      ptPool := clear a.ptPool off 1
      allocatedCount := a.allocatedCount+1 })
  | none => allocateFrame a

def deallocPtFrame (idx : ℕ) (a : Allocator) : Allocator :=
  match ptPoolOff idx a with
  | some off => { a with ptPool := mark a.ptPool off 1, allocatedCount := a.allocatedCount-1 }
  | none => deallocateFrame idx a

end NeuralOs.Memory.FrameAllocator

/-! ## Runs of the frame allocator -/

namespace NeuralOs.Memory.FrameLedger
open Bitmap FrameAllocator

inductive Op
  | reserveRange (base len : ℕ)
  | initPtPool (frames : ℕ)
  | allocateFrame
  | allocateContiguous (count : ℕ)
  | allocateHuge2mb (count : ℕ)
  | allocateBelow1mb
  | allocPtFrame
  | deallocateFrame (idx : ℕ)
  | deallocPtFrame (idx : ℕ)

def block (count : ℕ) (r : Option ℕ × Allocator) : Option (ℕ × ℕ) × Allocator :=
  (r.1.map fun i => (i, count), r.2)

def Op.exec : Op → Allocator → Option (ℕ × ℕ) × Allocator
  | .reserveRange base len, a => (none, FrameAllocator.reserveRange base len a)
  | .initPtPool frames, a => (none, (FrameAllocator.initPtPool frames a).2)
  | .allocateFrame, a => block 1 (FrameAllocator.allocateFrame a)
  | .allocateContiguous count, a => block count (FrameAllocator.allocateContiguous count a)
  | .allocateHuge2mb count, a => block count (FrameAllocator.allocateHuge2mb count a)
  | .allocateBelow1mb, a => block 1 (FrameAllocator.allocateBelow1mb a)
  | .allocPtFrame, a => block 1 (FrameAllocator.allocPtFrame a)
  | .deallocateFrame idx, a => (none, FrameAllocator.deallocateFrame idx a)
  | .deallocPtFrame idx, a => (none, FrameAllocator.deallocPtFrame idx a)

def Covers (base len i : ℕ) : Prop := base < (i+1)*frameSize ∧ i*frameSize < base+len ∧ 0 < len

instance (base len i : ℕ) : Decidable (Covers base len i) :=
  inferInstanceAs (Decidable (_ ∧ _ ∧ _))

structure World where
  alloc : Allocator
  held : Bits
  kept : Bits

def keep (base len : ℕ) (b : Bits) : Bits := fun i => b i || decide (Covers base len i)

def Op.returned : Op → Option ℕ
  | .deallocateFrame idx => some idx
  | .deallocPtFrame idx => some idx
  | _ => none

def Op.settle (op : Op) (r : Option (ℕ × ℕ)) (held : Bits) : Bits :=
  match op.returned, r with
  | some idx, _ => clear held idx 1
  | none, some (s, n) => mark held s n
  | none, none => held

def Op.request : Op → Bits → Bits
  | .reserveRange base len, kept => keep base len kept
  | _, kept => kept

def World.step (op : Op) (w : World) : World where
  alloc := (op.exec w.alloc).2
  held := op.settle (op.exec w.alloc).1 w.held
  kept := op.request w.kept

def World.run (ops : List Op) (w : World) : World := ops.foldl (fun w op => w.step op) w

/-- The state after `init_from_usable_ranges`, which itself reserves the kernel
image and the boot log. -/
def start (k : KernelImage) (ranges : List (ℕ × ℕ)) (a : Allocator) : Option World :=
  (initFromUsableRanges k ranges a).map fun a => {
    alloc := a
    held := fun _ => false
    kept := keep bootRamlogPhys bootRamlogCap
      (k.span.elim (fun _ => false) fun s => keep s.1 s.2 fun _ => false) }

/-! ### What a call does -/

/-- A clear bit belongs to a managed frame. -/
structure Bounded (a : Allocator) : Prop where
  clear_lt : ∀ i, a.bitmap i = false → i < a.totalFrames
  total_le : a.totalFrames ≤ capacity

/-- The allocator handed out the frames `s`, …, `s+n-1`. -/
structure Took (a b : Allocator) (s n : ℕ) : Prop where
  clear : ∀ i, s ≤ i → i < s+n → a.bitmap i = false
  bitmap : b.bitmap = mark a.bitmap s n
  delivered : b.delivered = mark a.delivered s n
  totalFrames : b.totalFrames = a.totalFrames
  ptPool : b.ptPool = a.ptPool
  ptPoolBase : b.ptPoolBase = a.ptPoolBase
  ptPoolFrames : b.ptPoolFrames = a.ptPoolFrames

variable {a b : Allocator} {s n i idx : ℕ}

theorem Bounded.room (h : Bounded a) (hn : 0 < n)
    (hc : ∀ i, s ≤ i → i < s+n → a.bitmap i = false) : s+n ≤ capacity := by
  have := h.clear_lt (s+n-1) (hc _ (by omega) (by omega))
  have := h.total_le
  omega

theorem take_took (h : Bounded a) (hn : 0 < n)
    (hc : ∀ i, s ≤ i → i < s+n → a.bitmap i = false) (next : ℕ) :
    Took a { take s n a with nextFreeBit := next } s n := by
  have hroom := h.room hn hc
  refine ⟨hc, rfl, ?_, rfl, rfl, rfl, rfl⟩
  simp [take, markDelivered, Nat.min_eq_left hroom]

theorem took_checked (idx : ℕ) (h : Took a b s n) : Took a (checkDoubleUse idx b) s n := by
  rw [checkDoubleUse]
  split
  · exact ⟨h.1, h.2, h.3, h.4, h.5, h.6, h.7⟩
  · exact h

def Allocates (n : ℕ) (r : Option ℕ × Allocator) (a : Allocator) : Prop :=
  (r.1 = none ∧ r.2 = a) ∨ ∃ s, r.1 = some s ∧ Took a r.2 s n

theorem allocateFrame_allocates (h : Bounded a) : Allocates 1 (allocateFrame a) a := by
  rw [allocateFrame]
  split
  · exact .inl ⟨rfl, rfl⟩
  next idx hf =>
    have hc := (nextClear_some hf).1
    refine .inr ⟨idx, rfl, took_checked _ (take_took h Nat.one_pos ?_ _)⟩
    intro i h₁ h₂
    obtain rfl : i = idx := by omega
    exact hc

theorem obstacle_clear {m : ℕ} {g : ℕ → ℕ} (h : (obstacle a.bitmap s m).map g = none) :
    ∀ i, s ≤ i → i < s+m → a.bitmap i = false := by
  intro i h₁ h₂
  have := obstacle_none (Option.map_eq_none_iff.mp h) (show i-s < m by omega)
  rwa [show s+(i-s) = i by omega] at this

theorem allocateContiguous_allocates (h : Bounded a) : Allocates n (allocateContiguous n a) a := by
  rw [allocateContiguous]
  split
  · exact .inl ⟨rfl, rfl⟩
  next hn =>
    split
    · exact .inl ⟨rfl, rfl⟩
    next s hs =>
      exact .inr ⟨s, rfl, take_took h (by omega)
        (obstacle_clear (search_some hs).2) _⟩

theorem allocateHuge2mb_allocates (h : Bounded a) : Allocates n (allocateHuge2mb n a) a := by
  rw [allocateHuge2mb]
  split
  · exact allocateContiguous_allocates h
  next hn =>
    split
    · exact .inl ⟨rfl, rfl⟩
    next s hs =>
      exact .inr ⟨s, rfl, take_took h (by omega)
        (obstacle_clear (search_some hs).2) _⟩

theorem allocateBelow1mb_allocates (h : Bounded a) : Allocates 1 (allocateBelow1mb a) a := by
  have single : ∀ s, a.bitmap s = false → Allocates 1 (some s, take s 1 a) a := by
    intro s hs
    refine .inr ⟨s, rfl, take_took h Nat.one_pos ?_ a.nextFreeBit⟩
    intro i h₁ h₂
    obtain rfl : i = s := by omega
    exact hs
  rw [allocateBelow1mb]
  split
  next h64 => exact single 64 h64.2
  · split
    · exact .inl ⟨rfl, rfl⟩
    next s hs => exact single s (by simpa using List.find?_some hs)

def Op.draws : Op → Option ℕ
  | .allocateFrame | .allocateBelow1mb => some 1
  | .allocateContiguous count | .allocateHuge2mb count => some count
  | _ => none

theorem block_cases {p : Option ℕ × Allocator} (h : Allocates n p a) :
    ((block n p).1 = none ∧ (block n p).2 = a) ∨
      ∃ s, (block n p).1 = some (s, n) ∧ Took a (block n p).2 s n := by
  obtain ⟨h₁, h₂⟩ | ⟨s, h₁, t⟩ := h
  · exact .inl ⟨by simp [block, h₁], h₂⟩
  · exact .inr ⟨s, by simp [block, h₁], t⟩

theorem exec_cases {op : Op} (h : Bounded a) (hd : op.draws = some n) :
    ((op.exec a).1 = none ∧ (op.exec a).2 = a) ∨
      ∃ s, (op.exec a).1 = some (s, n) ∧ Took a (op.exec a).2 s n := by
  cases op with
  | allocateFrame =>
    obtain rfl := Option.some.inj hd
    exact block_cases (allocateFrame_allocates h)
  | allocateContiguous count =>
    obtain rfl := Option.some.inj hd
    exact block_cases (allocateContiguous_allocates h)
  | allocateHuge2mb count =>
    obtain rfl := Option.some.inj hd
    exact block_cases (allocateHuge2mb_allocates h)
  | allocateBelow1mb =>
    obtain rfl := Option.some.inj hd
    exact block_cases (allocateBelow1mb_allocates h)
  | _ => cases hd

theorem deallocateFrame_cases (idx : ℕ) (a : Allocator) :
    (deallocateFrame idx a = a ∧ (a.totalFrames ≤ idx ∨ a.delivered idx = false)) ∨
      idx < a.totalFrames ∧ a.delivered idx = true ∧
      (deallocateFrame idx a).bitmap = clear a.bitmap idx 1 ∧
      (deallocateFrame idx a).delivered = clear a.delivered idx 1 ∧
      (deallocateFrame idx a).totalFrames = a.totalFrames ∧
      (deallocateFrame idx a).ptPool = a.ptPool ∧
      (deallocateFrame idx a).ptPoolBase = a.ptPoolBase ∧
      (deallocateFrame idx a).ptPoolFrames = a.ptPoolFrames := by
  rw [deallocateFrame]
  split
  next ht => exact .inl ⟨rfl, .inl ht⟩
  next ht =>
    split
    next hd => exact .inl ⟨rfl, .inr hd⟩
    next hd => exact .inr ⟨by omega, by simpa using hd, rfl, rfl, rfl, rfl, rfl, rfl⟩

theorem deallocateFrame_undelivered (h : a.delivered idx = false) : deallocateFrame idx a = a := by
  simp [deallocateFrame, h]

theorem Took.bounded (t : Took a b s n) (h : Bounded a) : Bounded b := by
  refine ⟨fun i hi => ?_, t.totalFrames ▸ h.total_le⟩
  rw [t.totalFrames]
  apply h.clear_lt
  rw [t.bitmap] at hi
  by_contra hb
  simp_all [mark]

end NeuralOs.Memory.FrameLedger

/-! ## The registry of reserved spans -/

namespace NeuralOs.Memory.SpanRegistry
open FrameAllocator

structure Span where
  start : ℕ
  stop : ℕ
  le : start ≤ stop

/-- `span_insert` on an array of `cap` entries, with its result. -/
def insertSpan (cap : ℕ) (spans : List (ℕ × ℕ)) (start stop : ℕ) : List (ℕ × ℕ) × Bool :=
  match absorb spans.length 0 spans start stop with
  | (rest, s, e) => if rest.length < cap then (rest ++ [(s, e)], true) else (rest, false)

theorem spanInsert_eq (spans : List (ℕ × ℕ)) (start stop : ℕ) :
    spanInsert spans start stop = (insertSpan maxReservedSpans spans start stop).1 := by
  rw [spanInsert, insertSpan]
  generalize absorb spans.length 0 spans start stop = r
  obtain ⟨rest, s, e⟩ := r
  simp only
  split <;> rfl

def store (cap : ℕ) (spans : List (ℕ × ℕ)) (c : Span) : List (ℕ × ℕ) :=
  (insertSpan cap spans c.start c.stop).1

def stored (cap : ℕ) (calls : List Span) : List (ℕ × ℕ) := Machine.run (store cap) [] calls

def Apart (p q : ℕ × ℕ) : Prop := p.2+1 < q.1 ∨ q.2+1 < p.1

def union (spans : List (ℕ × ℕ)) : Set ℕ := {x | ∃ p ∈ spans, p.1 ≤ x ∧ x ≤ p.2}

theorem apart_symm {p q : ℕ × ℕ} (h : Apart p q) : Apart q p := Or.symm h

theorem union_perm {l m : List (ℕ × ℕ)} (h : l.Perm m) : union l = union m := by
  ext x
  simp [union, h.mem_iff]

theorem union_cons (p : ℕ × ℕ) (l : List (ℕ × ℕ)) : union (p::l) = union l ∪ Set.Icc p.1 p.2 := by
  ext x
  simp [union, or_comm]

theorem refill {l : List (ℕ × ℕ)} {i : ℕ} {p : ℕ × ℕ} (h : l[i]? = some p) :
    ∃ a b c, l = a ++ p::b ∧ a.length = i ∧
      (l.set i (l.getLastD (0, 0))).dropLast = a ++ c ∧ c.Perm b := by
  obtain ⟨hi, rfl⟩ := List.getElem?_eq_some_iff.mp h
  refine ⟨l.take i, l.drop (i+1), ?_⟩
  have hl : l = l.take i ++ l[i] :: l.drop (i+1) := by
    rw [List.cons_getElem_drop_succ, List.take_append_drop]
  have hlen : (l.take i).length = i := by
    rw [List.length_take]
    omega
  generalize l.take i = a at hl hlen ⊢
  generalize l.drop (i+1) = b at hl ⊢
  generalize l[i] = p at hl ⊢
  subst hl
  rcases List.eq_nil_or_concat b with rfl | ⟨b', z, rfl⟩
  · refine ⟨[], rfl, hlen, ?_, List.Perm.nil⟩
    subst hlen
    simp
  · refine ⟨z::b', rfl, hlen, ?_, ?_⟩
    · subst hlen
      have hlast : (p::(b'++[z])).getLast? = some z := by
        rw [← List.cons_append, List.getLast?_concat]
      have hdrop : (z::(b'++[z])).dropLast = z::b' := by
        rw [← List.cons_append, List.dropLast_concat]
      simp [hlast, hdrop]
    · rw [List.concat_eq_append]
      exact (List.perm_append_singleton z b').symm

structure Separate (spans : List (ℕ × ℕ)) : Prop where
  proper : ∀ p ∈ spans, p.1 ≤ p.2
  apart : spans.Pairwise Apart

theorem Separate.perm {l m : List (ℕ × ℕ)} (h : Separate l) (hp : l.Perm m) : Separate m :=
  ⟨fun p hm => h.proper p (hp.mem_iff.mpr hm), (hp.pairwise_iff apart_symm).mp h.apart⟩

theorem separate_cons {p : ℕ × ℕ} {l : List (ℕ × ℕ)} :
    Separate (p::l) ↔ p.1 ≤ p.2 ∧ (∀ q ∈ l, Apart p q) ∧ Separate l := by
  constructor
  · intro h
    obtain ⟨hp, hl⟩ := List.pairwise_cons.mp h.apart
    exact ⟨h.proper p (by simp), hp, fun q hq => h.proper q (by simp [hq]), hl⟩
  · rintro ⟨hle, hp, h⟩
    refine ⟨fun q hq => ?_, List.pairwise_cons.mpr ⟨hp, h.apart⟩⟩
    rcases List.mem_cons.mp hq with rfl | hq
    · exact hle
    · exact h.proper q hq

theorem apart_merge {p q : ℕ × ℕ} {start stop : ℕ} (hq : q.1 ≤ q.2)
    (htouch : start ≤ p.2+1 ∧ p.1 ≤ stop+1) (hp : Apart q p) (hnew : Apart q (start, stop)) :
    Apart q (min p.1 start, max p.2 stop) := by
  unfold Apart at hp hnew ⊢
  simp only at hp hnew ⊢
  omega

theorem icc_merge {p : ℕ × ℕ} {start stop : ℕ} (htouch : start ≤ p.2+1 ∧ p.1 ≤ stop+1) :
    Set.Icc p.1 p.2 ∪ Set.Icc start stop = Set.Icc (min p.1 start) (max p.2 stop) := by
  ext x
  simp only [Set.mem_union, Set.mem_Icc]
  omega

theorem absorb_spec (n i : ℕ) (spans : List (ℕ × ℕ)) (start stop : ℕ)
    (hn : spans.length = i+n) (hle : start ≤ stop) (hsep : Separate spans)
    (hi : ∀ p ∈ spans.take i, Apart p (start, stop)) :
    ∃ rest s e, absorb n i spans start stop = (rest, s, e) ∧ Separate ((s, e)::rest) ∧
      union ((s, e)::rest) = union spans ∪ Set.Icc start stop ∧
      (rest.length < spans.length ∨ rest = spans ∧ s = start ∧ e = stop) := by
  induction n generalizing i spans start stop with
  | zero =>
    rw [Nat.add_zero] at hn
    rw [← hn, List.take_length] at hi
    refine ⟨spans, start, stop, rfl, separate_cons.mpr ⟨hle, fun q hq => ?_, hsep⟩,
      union_cons _ _, Or.inr ⟨rfl, rfl, rfl⟩⟩
    exact apart_symm (hi q hq)
  | succ n ih =>
    have hlt : i < spans.length := by omega
    rw [absorb, List.getElem?_eq_getElem hlt]
    simp only
    split
    next htouch =>
      obtain ⟨a, b, c, hspans, ha, hrefill, hcb⟩ := refill (List.getElem?_eq_getElem hlt)
      generalize spans[i] = p at htouch hspans
      rw [hrefill]
      have hperm : (p::(a++c)).Perm spans := by
        rw [hspans]
        exact (List.perm_middle.symm).trans ((hcb.cons p).append_left a)
      obtain ⟨-, hapart, hsep'⟩ := separate_cons.mp (hsep.perm hperm.symm)
      have hlen : (a++c).length+1 = spans.length := hperm.length_eq
      have htake : ∀ q ∈ (a++c).take i, Apart q (min p.1 start, max p.2 stop) := by
        intro q hq
        rw [← ha, List.take_left] at hq
        refine apart_merge (hsep'.proper q (by simp [hq])) htouch
          (apart_symm (hapart q (by simp [hq]))) (hi q ?_)
        rw [hspans, ← ha, List.take_left]
        exact hq
      obtain ⟨rest, s, e, he, hs, hu, hrest⟩ := ih i (a++c) (min p.1 start) (max p.2 stop)
        (by omega) (by omega) hsep' htake
      refine ⟨rest, s, e, he, hs, ?_, Or.inl ?_⟩
      · rw [hu, ← union_perm hperm, union_cons, Set.union_assoc, icc_merge htouch]
      · rcases hrest with hrest | ⟨rfl, -, -⟩ <;> omega
    next htouch =>
      refine ih (i+1) spans start stop (by omega) hle hsep fun q hq => ?_
      rw [List.take_add_one, List.getElem?_eq_getElem hlt, List.mem_append] at hq
      rcases hq with hq | hq
      · exact hi q hq
      · obtain rfl : q = spans[i] := by simpa using hq
        unfold Apart
        simp only
        omega

theorem insertSpan_cases {cap : ℕ} {spans : List (ℕ × ℕ)} {start stop : ℕ} (hle : start ≤ stop)
    (hsep : Separate spans) (hcap : spans.length ≤ cap) :
    (∃ l, insertSpan cap spans start stop = (l, true) ∧ Separate l ∧ l.length ≤ cap ∧
        union l = union spans ∪ Set.Icc start stop) ∨
      insertSpan cap spans start stop = (spans, false) ∧ spans.length = cap ∧
        ∀ p ∈ spans, Apart p (start, stop) := by
  obtain ⟨rest, s, e, he, hs, hu, hrest⟩ := absorb_spec spans.length 0 spans start stop
    (Nat.zero_add _).symm hle hsep (by simp)
  rw [insertSpan, he]
  simp only
  split
  next hlt =>
    have hperm : ((s, e)::rest).Perm (rest++[(s, e)]) := (List.perm_append_singleton _ _).symm
    refine Or.inl ⟨_, rfl, hs.perm hperm, ?_, ?_⟩
    · rw [List.length_append]
      exact hlt
    · rw [← union_perm hperm, hu]
  next hlt =>
    obtain hshort | ⟨rfl, rfl, rfl⟩ := hrest
    · omega
    · refine Or.inr ⟨rfl, by omega, fun p hp => ?_⟩
      exact apart_symm ((separate_cons.mp hs).2.1 p hp)

theorem stored_separate (cap : ℕ) (calls : List Span) :
    Separate (stored cap calls) ∧ (stored cap calls).length ≤ cap := by
  refine @Machine.run_within _ _ (store cap) (fun l => Separate l ∧ l.length ≤ cap)
    (fun _ => True) (fun _ _ _ => trivial) (fun spans c h _ => ?_) _ calls
    ⟨⟨by simp, List.Pairwise.nil⟩, Nat.zero_le cap⟩ trivial
  rw [store]
  obtain ⟨l, he, hl, hlen, -⟩ | ⟨he, -⟩ := insertSpan_cases c.le h.1 h.2
  · rw [he]
    exact ⟨hl, hlen⟩
  · rw [he]
    exact h

/-- After any calls the stored spans are apart, a successful call adds its span to their union,
and a call fails only on a full array that the span does not touch. -/
theorem registry_sound (cap : ℕ) (calls : List Span) (c : Span) :
    let spans := stored cap calls
    let r := insertSpan cap spans c.start c.stop
    spans.Pairwise Apart ∧
      (r.2 = true → union r.1 = union spans ∪ Set.Icc c.start c.stop) ∧
      (r.2 = false → spans.length = cap ∧ (∀ p ∈ spans, Apart p (c.start, c.stop)) ∧
        union r.1 = union spans) := by
  intro spans r
  obtain ⟨hsep, hlen⟩ := stored_separate cap calls
  obtain ⟨l, he, -, -, hu⟩ | ⟨he, hfull, hapart⟩ := insertSpan_cases c.le hsep hlen
  · refine ⟨hsep.apart, fun _ => ?_, fun hr => ?_⟩
    · rw [show r = (l, true) from he]
      exact hu
    · rw [show r = (l, true) from he] at hr
      cases hr
  · refine ⟨hsep.apart, fun hr => ?_, fun _ => ⟨hfull, hapart, ?_⟩⟩
    · rw [show r = (spans, false) from he] at hr
      cases hr
    · rw [show r = (spans, false) from he]

end NeuralOs.Memory.SpanRegistry
