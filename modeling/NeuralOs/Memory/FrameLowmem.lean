import NeuralOs.Memory.FrameHint

/-!
# The frames below one megabyte

Frames 0 to 255 are kept out of the general pool by the first value of the search
hint alone. `allocate_below_1mb` hands them out without moving the hint; giving one
of them back lowers it, and from then on the general pool hands them out too.
-/

set_option autoImplicit false

namespace NeuralOs.Memory.FrameLowmem
open Bitmap FrameAllocator FrameLedger FrameHint
open FrameOwnership (Along)

def given (op : Op) (a : Allocator) : Set ℕ :=
  match op with
  | .initPtPool frames => {i | a.bitmap i = false ∧ (initPtPool frames a).2.bitmap i = true}
  | op => {i | ∃ s n, (op.exec a).1 = some (s, n) ∧ s ≤ i ∧ i < s+n}

/-- No call but `allocate_below_1mb` hands out a frame below one megabyte. -/
def LowKept (a : Allocator) : Prop :=
  ∀ op, op ≠ .allocateBelow1mb → ∀ i ∈ given op a, lowmemReserveFrames ≤ i

def FreesLow (w : World) (op : Op) : Prop :=
  ∃ idx < lowmemReserveFrames, op.returned = some idx ∧ w.held idx = true

/-- The hint and the pool are above one megabyte; below it the callers hold what was delivered. -/
structure High (w : World) : Prop where
  next : lowmemReserveFrames ≤ w.alloc.nextFreeBit
  pool : 0 < w.alloc.ptPoolFrames → lowmemReserveFrames ≤ w.alloc.ptPoolBase
  held : ∀ i < lowmemReserveFrames, w.held i = w.alloc.delivered i
  inside : ∀ i < lowmemReserveFrames, w.alloc.delivered i = true → i < w.alloc.totalFrames

variable {a : Allocator} {w : World}

/-! ### What is handed out -/

theorem carve_low {frames m i c j : ℕ} (hi : lowmemReserveFrames ≤ i)
    (hj : j < lowmemReserveFrames) : (carve frames m i c a).2.bitmap j = a.bitmap j := by
  induction m generalizing i c a with
  | zero => rfl
  | succ m ih =>
    rw [carve]
    split
    · split
      · exact ih (by omega)
      · rw [ih (by omega)]
        exact mark_outside (by omega)
    · rfl

theorem carve_base {frames m i c : ℕ} (hi : lowmemReserveFrames ≤ i)
    (hc : c = 0 ∨ lowmemReserveFrames ≤ a.ptPoolBase) :
    (carve frames m i c a).1 = 0 ∨ lowmemReserveFrames ≤ (carve frames m i c a).2.ptPoolBase := by
  induction m generalizing i c a with
  | zero => exact hc
  | succ m ih =>
    rw [carve]
    split
    · split
      · exact ih (by omega) hc
      · refine ih (by omega) (.inr ?_)
        show lowmemReserveFrames ≤ if c = 0 then i else a.ptPoolBase
        split
        · exact hi
        next h0 => exact hc.resolve_left h0
    · exact hc

theorem carve_delivered {frames m i c : ℕ} {a : Allocator} :
    (carve frames m i c a).2.delivered = a.delivered := by
  induction m generalizing i c a with
  | zero => rfl
  | succ m ih =>
    rw [carve]
    split
    · split
      · exact ih
      · exact ih
    · rfl

theorem takes_ge {P : ℕ → Prop} {n s : ℕ} {p : Option ℕ × Allocator} (h : TakesFirst P n a p)
    (hs : p.1 = some s) : a.nextFreeBit ≤ s := by
  obtain ⟨rfl, -⟩ | ⟨s', hf, -, rfl⟩ := h
  · cases hs
  · cases hs
    exact hf.ge

theorem allocateFrame_ge {s : ℕ} (hs : (allocateFrame a).1 = some s) : a.nextFreeBit ≤ s := by
  obtain ⟨he, -⟩ | ⟨idx, he, h⟩ := allocateFrame_cases a
  · rw [he] at hs
    cases hs
  · rw [he] at hs
    cases hs
    exact h.ge

theorem block_some {n s m : ℕ} {p : Option ℕ × Allocator} (h : (block n p).1 = some (s, m)) :
    p.1 = some s ∧ m = n := by
  obtain ⟨i, hi, he⟩ := Option.map_eq_some_iff.mp h
  cases he
  exact ⟨hi, rfl⟩

theorem exec_high {op : Op} {s n : ℕ} (h : High w) (hop : op ≠ .allocateBelow1mb)
    (he : (op.exec w.alloc).1 = some (s, n)) : lowmemReserveFrames ≤ s := by
  cases op with
  | allocateFrame => exact h.next.trans (allocateFrame_ge (block_some he).1)
  | allocateContiguous count =>
    exact h.next.trans (takes_ge (allocateContiguous_takes count w.alloc) (block_some he).1)
  | allocateHuge2mb count =>
    exact h.next.trans (takes_ge (allocateHuge2mb_takes count w.alloc) (block_some he).1)
  | allocPtFrame =>
    obtain ⟨hs, -⟩ := block_some he
    rw [allocPtFrame] at hs
    split at hs
    next off hoff =>
      have hlt := List.mem_range.mp (List.mem_of_find?_eq_some hoff)
      have hpool := h.pool (by omega)
      cases hs
      omega
    · exact h.next.trans (allocateFrame_ge hs)
  | allocateBelow1mb => exact absurd rfl hop
  | reserveRange base len => cases he
  | initPtPool frames => cases he
  | deallocateFrame idx => cases he
  | deallocPtFrame idx => cases he

theorem lowKept_of_high (h : High w) : LowKept w.alloc := by
  intro op hop i hi
  by_contra hlt
  cases op with
  | initPtPool frames =>
    obtain ⟨hfree, hbusy⟩ := hi
    rw [initPtPool] at hbusy
    rw [show _ = w.alloc.bitmap i from carve_low h.next (by omega), hfree] at hbusy
    cases hbusy
  | allocateBelow1mb => exact hop rfl
  | _ =>
    obtain ⟨s, n, he, hs, -⟩ := hi
    have := exec_high h hop he
    omega

/-! ### Steps -/

theorem High.same (h : High w) {v : World} (hnext : lowmemReserveFrames ≤ v.alloc.nextFreeBit)
    (hpool : 0 < v.alloc.ptPoolFrames → lowmemReserveFrames ≤ v.alloc.ptPoolBase)
    (htotal : v.alloc.totalFrames = w.alloc.totalFrames)
    (hheld : ∀ i < lowmemReserveFrames, v.held i = w.held i)
    (hdel : ∀ i < lowmemReserveFrames, v.alloc.delivered i = w.alloc.delivered i) : High v := by
  refine ⟨hnext, hpool, fun i hi => ?_, fun i hi hd => ?_⟩
  · rw [hheld i hi, hdel i hi, h.held i hi]
  · rw [htotal]
    exact h.inside i hi (by rw [← hdel i hi]; exact hd)

theorem settle_low {op : Op} {r : Option (ℕ × ℕ)} {held : Bits} (hret : op.returned = none)
    (hr : ∀ s n, r = some (s, n) → lowmemReserveFrames ≤ s) :
    ∀ i < lowmemReserveFrames, op.settle r held i = held i := by
  intro i hi
  cases r with
  | none => simp only [Op.settle, hret]
  | some p =>
    have := hr p.1 p.2 rfl
    simp only [Op.settle, hret]
    exact mark_outside (by omega)

theorem high_allocateFrame (h : High w) {v : World} (hv : v.alloc = (allocateFrame w.alloc).2)
    (hheld : ∀ i < lowmemReserveFrames, v.held i = w.held i) : High v := by
  obtain ⟨he, -⟩ | ⟨idx, -, t⟩ := allocateFrame_cases w.alloc
  · rw [he] at hv
    exact h.same (by rw [hv]; exact h.next) (by rw [hv]; exact h.pool) (by rw [hv]) hheld
      fun i _ => by rw [hv]
  · rw [← hv] at t
    have hge := h.next.trans t.ge
    refine h.same (by rw [t.next]; omega) ?_ t.total hheld fun i hi => t.delivered i (by omega)
    rw [t.ptPoolFrames, t.ptPoolBase]
    exact h.pool

theorem high_run {P : ℕ → Prop} {n : ℕ} {p : Option ℕ × Allocator} (h : High w)
    (ht : TakesFirst P n w.alloc p) {v : World} (hv : v.alloc = p.2)
    (hheld : ∀ i < lowmemReserveFrames, v.held i = w.held i) : High v := by
  obtain ⟨rfl, -⟩ | ⟨s, hf, -, rfl⟩ := ht
  · exact h.same (by rw [hv]; exact h.next) (by rw [hv]; exact h.pool) (by rw [hv]) hheld
      fun i _ => by rw [hv]
  have hge := h.next.trans hf.ge
  refine h.same ?_ ?_ ?_ hheld fun i hi => ?_
  · rw [hv]
    exact hge.trans (Nat.le_add_right s n)
  · rw [hv]
    exact h.pool
  · rw [hv]
    rfl
  · rw [hv]
    exact mark_outside (by omega)

theorem high_below (h : High w) : High (w.step .allocateBelow1mb) := by
  have htake {i : ℕ} (hi : i < lowmemReserveFrames) (hlt : i < w.alloc.totalFrames)
      (he : allocateBelow1mb w.alloc = (some i, take i 1 w.alloc)) :
      High (w.step .allocateBelow1mb) := by
    have halloc : (w.step .allocateBelow1mb).alloc = take i 1 w.alloc := congrArg Prod.snd he
    have hheld : (w.step .allocateBelow1mb).held = mark w.held i 1 := by
      simp [World.step, Op.exec, Op.settle, Op.returned, block, he]
    have hcap : min (i+1) capacity-i = 1 := by
      have : capacity = 16777216 := by unfold capacity; rfl
      have : lowmemReserveFrames = 256 := rfl
      omega
    have hdel : (w.step .allocateBelow1mb).alloc.delivered = mark w.alloc.delivered i 1 := by
      rw [halloc]
      show mark w.alloc.delivered i (min (i+1) capacity-i) = _
      rw [hcap]
    refine ⟨by rw [halloc]; exact h.next, by rw [halloc]; exact h.pool, fun j hj => ?_,
      fun j hj hd => ?_⟩
    · rw [hheld, hdel, mark, mark, h.held j hj]
    rw [halloc]
    rw [hdel, mark_iff] at hd
    rcases hd with hd | hd
    · exact h.inside j hj hd
    · show j < w.alloc.totalFrames
      omega
  cases he : allocateBelow1mb w.alloc with
  | mk r b =>
    have he' := he
    rw [allocateBelow1mb] at he'
    split at he'
    next h64 =>
      refine htake (i := 64) (by decide) h64.1 ?_
      rw [he, ← he']
    · split at he'
      · have hstep : w.step .allocateBelow1mb = w := by
          simp [World.step, Op.exec, Op.settle, Op.returned, Op.request, block, he, ← he']
        rw [hstep]
        exact h
      next i hi =>
        have hm := List.mem_of_find?_eq_some hi
        rw [List.mem_reverse, List.mem_range'_1] at hm
        refine htake (i := i) ?_ (by omega) ?_
        · have : lowmemReserveFrames = 256 := rfl
          omega
        · rw [he, ← he']

theorem high_deallocate {idx : ℕ} (h : High w)
    (hno : idx < lowmemReserveFrames → w.held idx = false) {v : World}
    (hv : v.alloc = deallocateFrame idx w.alloc) (hheld : v.held = clear w.held idx 1) :
    High v := by
  have hlow : ∀ i < lowmemReserveFrames, v.held i = w.held i := by
    intro i hi
    rw [hheld]
    by_cases hii : i = idx
    · subst hii
      simp [clear, hno hi]
    · exact clear_outside (by omega)
  by_cases hidx : idx < lowmemReserveFrames
  · rw [deallocateFrame_undelivered (by rw [← h.held idx hidx]; exact hno hidx)] at hv
    exact h.same (by rw [hv]; exact h.next) (by rw [hv]; exact h.pool) (by rw [hv]) hlow
      fun i _ => by rw [hv]
  have hnext := h.next
  rw [deallocateFrame] at hv
  split at hv
  · exact h.same (by rw [hv]; exact h.next) (by rw [hv]; exact h.pool) (by rw [hv]) hlow
      fun i _ => by rw [hv]
  split at hv
  · exact h.same (by rw [hv]; exact h.next) (by rw [hv]; exact h.pool) (by rw [hv]) hlow
      fun i _ => by rw [hv]
  · refine h.same ?_ (by rw [hv]; exact h.pool) (by rw [hv]) hlow fun i hi => ?_
    · rw [hv]
      exact le_min (by omega) hnext
    · rw [hv]
      exact clear_outside (by omega)

theorem ptPoolOff_low {idx : ℕ} (h : High w) (hidx : idx < lowmemReserveFrames) :
    ptPoolOff idx w.alloc = none := by
  cases ho : ptPoolOff idx w.alloc with
  | none => rfl
  | some off =>
    obtain ⟨hoff, rfl⟩ := FrameOwnership.ptPoolOff_some.mp ho
    have := h.pool (by omega)
    omega

theorem high_step (op : Op) (h : High w) (hno : ¬FreesLow w op) : High (w.step op) := by
  have hnofree {idx : ℕ} (hr : op.returned = some idx) (hidx : idx < lowmemReserveFrames) :
      w.held idx = false := by
    by_contra hheld
    exact hno ⟨idx, hidx, hr, by simpa using hheld⟩
  have hsettle (hret : op.returned = none) (hop : op ≠ .allocateBelow1mb) :
      ∀ i < lowmemReserveFrames, (w.step op).held i = w.held i :=
    settle_low hret fun s n he => exec_high h hop he
  cases op with
  | reserveRange base len =>
    have hm := reserveRange_marks base len w.alloc
    obtain ⟨hd, -, -, hb, hf⟩ := FrameReserve.reserveRange_fields base len w.alloc
    refine h.same (hm.next.symm ▸ h.next) ?_ hm.total (hsettle rfl (by simp)) fun i _ => ?_
    · show 0 < (reserveRange base len w.alloc).ptPoolFrames → _ ≤ _
      rw [hf]
      exact fun hpos => (h.pool hpos).trans_eq hb.symm
    · exact congrFun hd i
  | initPtPool frames =>
    have hm := initPtPool_marks frames w.alloc
    refine h.same (hm.next.symm ▸ h.next) (fun hpos => ?_) hm.total (hsettle rfl (by simp))
      fun i _ => congrFun (carve_delivered) i
    refine (carve_base h.next (.inl rfl)).resolve_left (Nat.ne_of_gt ?_)
    exact hpos
  | allocateFrame => exact high_allocateFrame h rfl (hsettle rfl (by simp))
  | allocateContiguous count =>
    exact high_run h (allocateContiguous_takes count w.alloc) rfl (hsettle rfl (by simp))
  | allocateHuge2mb count =>
    exact high_run h (allocateHuge2mb_takes count w.alloc) rfl (hsettle rfl (by simp))
  | allocateBelow1mb => exact high_below h
  | allocPtFrame =>
    have hheld := hsettle rfl (by simp)
    have halloc : (w.step .allocPtFrame).alloc = (allocPtFrame w.alloc).2 := rfl
    rw [allocPtFrame] at halloc
    split at halloc
    · exact h.same (by rw [halloc]; exact h.next) (by rw [halloc]; exact h.pool) (by rw [halloc])
        hheld fun i _ => by rw [halloc]
    · exact high_allocateFrame h halloc hheld
  | deallocateFrame idx => exact high_deallocate h (hnofree rfl) rfl rfl
  | deallocPtFrame idx =>
    have halloc : (w.step (.deallocPtFrame idx)).alloc = deallocPtFrame idx w.alloc := rfl
    rw [deallocPtFrame] at halloc
    split at halloc
    next off ho =>
      have hidx : lowmemReserveFrames ≤ idx := by
        by_contra hlt
        rw [ptPoolOff_low h (by omega)] at ho
        cases ho
      exact h.same (by rw [halloc]; exact h.next) (by rw [halloc]; exact h.pool) (by rw [halloc])
        (fun i hi => clear_outside (by omega)) fun i _ => by rw [halloc]
    · exact high_deallocate h (hnofree rfl) halloc rfl

theorem freesLow_step {op : Op} (h : High w) (hf : FreesLow w op) : ¬LowKept (w.step op).alloc := by
  obtain ⟨idx, hidx, hret, hheld⟩ := hf
  have hdel : w.alloc.delivered idx = true := by rw [← h.held idx hidx, hheld]
  have hlt := h.inside idx hidx hdel
  have halloc : (w.step op).alloc = deallocateFrame idx w.alloc := by
    cases op with
    | deallocateFrame i =>
      cases hret
      rfl
    | deallocPtFrame i =>
      cases hret
      show deallocPtFrame idx w.alloc = _
      rw [deallocPtFrame, ptPoolOff_low h hidx]
    | _ => cases hret
  rw [halloc, deallocateFrame, if_neg (by omega), if_neg (by simp [hdel])]
  intro hkept
  obtain ⟨-, hbusy⟩ | ⟨i, he, t⟩ := allocateFrame_cases { w.alloc with
    bitmap := clear w.alloc.bitmap idx 1
    delivered := clear w.alloc.delivered idx 1
    nextFreeBit := min idx w.alloc.nextFreeBit
    allocatedCount := w.alloc.allocatedCount-1 }
  · have := hbusy idx (min_le_left _ _) hlt
    simp [clear] at this
  have hi : i ≤ idx := by
    by_contra hgt
    have := t.first idx (min_le_left _ _) (by omega)
    simp [clear] at this
  have := hkept .allocateFrame (by simp) i ⟨i, 1, by simp [Op.exec, block, he], le_rfl, by omega⟩
  omega

/-! ### Runs -/

theorem high_reserve (base len : ℕ) {held kept kept' : Bits} (h : High ⟨a, held, kept⟩) :
    High ⟨reserveRange base len a, held, kept'⟩ := by
  have hstep := high_step (.reserveRange base len) h (by rintro ⟨idx, -, hr, -⟩; cases hr)
  exact ⟨hstep.next, hstep.pool, hstep.held, hstep.inside⟩

theorem start_high {k : KernelImage} {ranges : List (ℕ × ℕ)} (h : start k ranges a = some w) :
    High w := by
  rw [start, initFromUsableRanges, Option.map_eq_some_iff] at h
  obtain ⟨b, hb, rfl⟩ := h
  rw [Option.bind_eq_bind, Option.bind_eq_some_iff] at hb
  obtain ⟨u, -, hb⟩ := hb
  obtain rfl := Option.some.inj hb
  have hfresh (c : Allocator) (hn : c.nextFreeBit = lowmemReserveFrames) (hp : c.ptPoolFrames = 0)
      (hd : c.delivered = fun _ => false) : High ⟨c, fun _ => false, fun _ => false⟩ := by
    refine ⟨hn.ge, fun hpos => ?_, fun i _ => ?_, fun i _ hi => ?_⟩
    · rw [hp] at hpos
      cases hpos
    · rw [hd]
    · rw [hd] at hi
      cases hi
  refine @high_reserve _ _ _ _ (fun _ => false) _ ?_
  rw [reserveKernelImageInit]
  split
  · exact hfresh _ rfl rfl rfl
  · exact high_reserve _ _ (hfresh _ rfl rfl rfl)

def LowKeptAlong : World → List Op → Prop
  | w, [] => LowKept w.alloc
  | w, op::ops => LowKept w.alloc ∧ LowKeptAlong (w.step op) ops

theorem lowKeptAlong_iff (ops : List Op) (h : High w) :
    LowKeptAlong w ops ↔ Along (fun v op => ¬FreesLow v op) w ops := by
  induction ops generalizing w with
  | nil => exact iff_of_true (lowKept_of_high h) trivial
  | cons op ops ih =>
    rw [LowKeptAlong, Along]
    by_cases hf : FreesLow w op
    · refine iff_of_false (fun hk => freesLow_step h hf ?_) fun hk => hk.1 hf
      cases ops with
      | nil => exact hk.2
      | cons op' ops => exact hk.2.1
    · rw [ih (high_step op h hf)]
      exact ⟨fun hk => ⟨hf, hk.2⟩, fun hk => ⟨lowKept_of_high h, hk.2⟩⟩

/-- Low memory stays out of the general pool exactly while no frame of it that is held is given
back. -/
theorem low_memory_kept_iff (k : KernelImage) (ranges : List (ℕ × ℕ)) (a : Allocator) (w : World)
    (h : start k ranges a = some w) (ops : List Op) :
    LowKeptAlong w ops ↔ Along (fun v op => ¬FreesLow v op) w ops :=
  lowKeptAlong_iff ops (start_high h)

def twoMegabytes : List (ℕ × ℕ) := [(0, 0x200000)]

theorem twoMegabytes_kept :
    ∃ w, start FrameReserve.noImage twoMegabytes empty = some w ∧
      LowKeptAlong w [.allocateBelow1mb, .allocateFrame, .deallocateFrame 256] := by
  refine ⟨_, rfl, (low_memory_kept_iff FrameReserve.noImage twoMegabytes empty _ rfl _).mpr
    ⟨?_, ?_, ?_, trivial⟩⟩
  · rintro ⟨idx, -, hr, -⟩
    cases hr
  · rintro ⟨idx, -, hr, -⟩
    cases hr
  · rintro ⟨idx, hlt, hr, -⟩
    cases hr
    exact absurd hlt (by decide)

/-- The trampoline frame is taken and given back, and `allocate_frame` hands it out. -/
theorem returned_low_frame_reused :
    ∃ w, start FrameReserve.noImage twoMegabytes empty = some w ∧
      (w.step .allocateBelow1mb).held 64 = true ∧
      (Op.allocateFrame.exec (w.run [.allocateBelow1mb, .deallocateFrame 64]).alloc).1 =
        some (64, 1) ∧
      ¬LowKeptAlong w [.allocateBelow1mb, .deallocateFrame 64] := by
  have hrun : ∃ w, start FrameReserve.noImage twoMegabytes empty = some w ∧
      (w.step .allocateBelow1mb).held 64 = true ∧
      (Op.allocateFrame.exec (w.run [.allocateBelow1mb, .deallocateFrame 64]).alloc).1 =
        some (64, 1) := ⟨_, rfl, by decide +kernel, by decide +kernel⟩
  obtain ⟨w, hw, hheld, hgiven⟩ := hrun
  refine ⟨w, hw, hheld, hgiven, fun h => ?_⟩
  have hkept : LowKept (w.run [.allocateBelow1mb, .deallocateFrame 64]).alloc := h.2.2
  have := hkept .allocateFrame (by simp) 64 ⟨64, 1, hgiven, le_rfl, by omega⟩
  exact absurd this (by decide)

end NeuralOs.Memory.FrameLowmem
