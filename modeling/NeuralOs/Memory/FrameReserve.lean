import NeuralOs.Memory.FrameAllocator

/-!
# Reserved memory under hostile frees

Without a page-table pool a frame is clear or delivered only if it lies in the
usable memory and outside every reserved range, whatever frames the callers give
back. A range whose end does not fit in 64 bits is the exception: reserving it
has no effect.
-/

set_option autoImplicit false

namespace NeuralOs.Memory.FrameReserve
open Bitmap FrameAllocator FrameLedger

def Aligned (r : ℕ × ℕ) : Prop := frameSize ∣ r.1 ∧ frameSize ∣ r.2

instance (r : ℕ × ℕ) : Decidable (Aligned r) := inferInstanceAs (Decidable (_ ∧ _))

def InUsable (ranges : List (ℕ × ℕ)) (i : ℕ) : Prop :=
  ∃ r ∈ ranges, r.1 ≤ i*frameSize ∧ (i+1)*frameSize ≤ r.1+r.2

def Ends (r : ℕ × ℕ) : Prop := r.1+r.2 < 2^64

/-- Calls other than reservations and those of the page-table pool. -/
def Plain : Op → Prop
  | .reserveRange _ _ | .initPtPool _ | .allocPtFrame | .deallocPtFrame _ => False
  | _ => True

/-! ### Initialisation -/

variable {ranges : List (ℕ × ℕ)} {r : ℕ × ℕ} {u v : Usable} {i : ℕ}

theorem frame_inside {base len cap f : ℕ} (hb : f ∣ base) (hl : f ∣ len) (h0 : 0 < len)
    (hi : base/f ≤ i ∧ i < base/f+(min ((base+len-1)/f+1) cap-base/f)) :
    i < cap ∧ base ≤ i*f ∧ (i+1)*f ≤ base+len := by
  obtain ⟨x, rfl⟩ := hb
  obtain ⟨y, rfl⟩ := hl
  have hf : 0 < f := Nat.pos_of_mul_pos_right h0
  have hy : 0 < y := Nat.pos_of_mul_pos_left h0
  have hlast : (f*x+f*y-1)/f = x+y-1 := by
    simpa [Nat.mul_add] using Nat.mul_sub_div 0 f (x+y) (Nat.mul_pos hf (by omega))
  rw [Nat.mul_div_cancel_left x hf, hlast] at hi
  refine ⟨by omega, ?_, ?_⟩
  · rw [Nat.mul_comm]
    exact Nat.mul_le_mul_right f hi.1
  · rw [← Nat.mul_add, Nat.mul_comm]
    exact Nat.mul_le_mul_left f (by omega)

theorem addUsable_cases (hr : Aligned r) (h : addUsable u r = some v) :
    (v = u ∧ r.2 = 0) ∨ v.lastEnd = max u.lastEnd (r.1+r.2) ∧
      ∀ i, v.bitmap i = false → u.bitmap i = false ∨
        i < capacity ∧ r.1 ≤ i*frameSize ∧ (i+1)*frameSize ≤ r.1+r.2 := by
  rw [addUsable] at h
  split at h
  next h0 => exact .inl ⟨by simpa using h.symm, h0⟩
  next h0 =>
    refine .inr ?_
    simp only [physAddr, Option.bind_eq_bind] at h
    split at h <;> simp only [Option.bind_some, Option.bind_none, reduceCtorEq] at h
    split at h <;> simp only [Option.bind_some, Option.bind_none, reduceCtorEq] at h
    next hfirst hlast =>
      have hstop : min (r.1+r.2) (2^64-1) = r.1+r.2 := by omega
      rw [hstop] at h hlast
      obtain rfl := Option.some.inj h
      refine ⟨rfl, fun i hi => ?_⟩
      by_cases hu : u.bitmap i = false
      · exact .inl hu
      · refine .inr (frame_inside hr.1 hr.2 (Nat.pos_of_ne_zero h0) ?_)
        by_contra hout
        exact hu (by simpa [clear, hout] using hi)

def Marked (ranges : List (ℕ × ℕ)) (u : Usable) : Prop :=
  ∀ i, u.bitmap i = false →
    InUsable ranges i ∧ i < capacity ∧ (i+1)*frameSize ≤ u.lastEnd

theorem marked_step {done : List (ℕ × ℕ)} (hr : Aligned r) (hu : Marked done u)
    (h : addUsable u r = some v) : Marked (done ++ [r]) v := by
  have old : ∀ i, InUsable done i → InUsable (done ++ [r]) i := by
    rintro i ⟨q, hq, hi⟩
    exact ⟨q, List.mem_append_left _ hq, hi⟩
  intro i hi
  obtain ⟨rfl, -⟩ | ⟨hend, hbits⟩ := addUsable_cases hr h
  · obtain ⟨h₁, h₂, h₃⟩ := hu i hi
    exact ⟨old i h₁, h₂, h₃⟩
  · obtain hi | ⟨h₁, h₂, h₃⟩ := hbits i hi
    · obtain ⟨h₁, h₂, h₃⟩ := hu i hi
      exact ⟨old i h₁, h₂, by omega⟩
    · exact ⟨⟨r, by simp, h₂, h₃⟩, h₁, by omega⟩

theorem marked_foldlM (rs done : List (ℕ × ℕ)) (hr : ∀ r ∈ rs, Aligned r) (hu : Marked done u)
    (h : rs.foldlM addUsable u = some v) : Marked (done ++ rs) v := by
  induction rs generalizing done u with
  | nil =>
    obtain rfl : u = v := by simpa using h
    simpa using hu
  | cons r rs ih =>
    rw [List.foldlM_cons, Option.bind_eq_bind, Option.bind_eq_some_iff] at h
    obtain ⟨m, hm, h⟩ := h
    have := ih (done ++ [r]) (fun q hq => hr q (by simp [hq]))
      (marked_step (hr r (by simp)) hu hm) h
    simpa using this

/-! ### Reserving a range -/

theorem frameSpan_covers {base len : ℕ} (he : base+len < 2^64) (hi : i < capacity)
    (hc : Covers base len i) :
    ∃ s e, frameSpan base len capacity = some (s, e) ∧ s ≤ i ∧ i ≤ e := by
  obtain ⟨h₁, h₂, h₃⟩ := hc
  have hcap : capacity = 16777216 := by unfold capacity; rfl
  have hsize : frameSize = 4096 := rfl
  rw [hsize] at h₁ h₂
  rw [hcap] at hi
  have hs : base/4096 ≤ i := by omega
  have hlast : i ≤ (base+len-1)/4096 := by omega
  refine ⟨base/4096, min ((base+len-1)/4096) (16777216-1), ?_, hs, le_min hlast (by omega)⟩
  rw [frameSpan, hcap, hsize, if_neg (by omega), if_neg (by omega), if_neg (by omega)]

theorem reserveRange_fields (base len : ℕ) (a : Allocator) :
    (reserveRange base len a).delivered = a.delivered ∧
      (reserveRange base len a).totalFrames = a.totalFrames ∧
      (reserveRange base len a).ptPool = a.ptPool ∧
      (reserveRange base len a).ptPoolBase = a.ptPoolBase ∧
      (reserveRange base len a).ptPoolFrames = a.ptPoolFrames := by
  rw [reserveRange]
  split <;> exact ⟨rfl, rfl, rfl, rfl, rfl⟩

variable {a : Allocator} {w : World}

theorem reserveRange_busy (base len : ℕ) (hi : a.bitmap i = true) :
    (reserveRange base len a).bitmap i = true := by
  rw [reserveRange]
  split
  · exact hi
  · simp [hi]

theorem reserveRange_clear {base len : ℕ} (he : base+len < 2^64)
    (hb : Bounded a) (hi : (reserveRange base len a).bitmap i = false) :
    a.bitmap i = false ∧ ¬Covers base len i := by
  have hold : a.bitmap i = false := by
    by_contra h
    simp [reserveRange_busy base len (by simpa using h)] at hi
  refine ⟨hold, fun hc => ?_⟩
  have hlt := hb.clear_lt i hold
  have hle := hb.total_le
  obtain ⟨s, e, hspan, hs, hle'⟩ := frameSpan_covers he (by omega) hc
  simp only [reserveRange, hspan, mark, hold, Bool.false_or, decide_eq_false_iff_not] at hi
  omega

theorem reserveRange_bounded {base len : ℕ} (hb : Bounded a) :
    Bounded (reserveRange base len a) := by
  obtain ⟨-, ht, -⟩ := reserveRange_fields base len a
  refine ⟨fun i hi => ?_, ht ▸ hb.total_le⟩
  rw [ht]
  apply hb.clear_lt
  by_contra h
  simp [reserveRange_busy base len (by simpa using h)] at hi

/-! ### The invariant -/

/-- Clear and delivered frames are usable and not reserved, and the callers hold
exactly the delivered ones. -/
structure Guarded (ranges : List (ℕ × ℕ)) (w : World) : Prop where
  bounded : Bounded w.alloc
  clear_ok : ∀ i, w.alloc.bitmap i = false → InUsable ranges i ∧ w.kept i = false
  delivered_ok : ∀ i, w.alloc.delivered i = true → InUsable ranges i ∧ w.kept i = false
  delivered_lt : ∀ i, w.alloc.delivered i = true → i < w.alloc.totalFrames
  held_eq : w.held = w.alloc.delivered

/-- Before the first allocation nothing is delivered, and there is no pool. -/
structure Quiet (ranges : List (ℕ × ℕ)) (w : World) : Prop where
  guarded : Guarded ranges w
  delivered : w.alloc.delivered = fun _ => false
  pool : w.alloc.ptPoolFrames = 0

theorem quiet_reserve (h : Quiet ranges w) (hr : Ends r) :
    Quiet ranges (w.step (.reserveRange r.1 r.2)) := by
  obtain ⟨hd, -, -, -, hpool⟩ := reserveRange_fields r.1 r.2 w.alloc
  have hquiet : (w.step (.reserveRange r.1 r.2)).alloc.delivered = fun _ => false :=
    hd.trans h.delivered
  refine ⟨⟨reserveRange_bounded h.guarded.bounded, fun i hi => ?_, fun i hi => ?_,
    fun i hi => ?_, ?_⟩, hquiet, hpool.trans h.pool⟩
  · obtain ⟨hold, hout⟩ := reserveRange_clear hr h.guarded.bounded hi
    obtain ⟨hin, hkept⟩ := h.guarded.clear_ok i hold
    exact ⟨hin, by simp [World.step, Op.request, keep, hkept, hout]⟩
  · simp [hquiet] at hi
  · simp [hquiet] at hi
  · exact h.guarded.held_eq.trans (h.delivered.trans hquiet.symm)

theorem quiet_reserves (h : Quiet ranges w) (rs : List (ℕ × ℕ))
    (hr : ∀ r ∈ rs, Ends r) :
    Quiet ranges (w.run (rs.map fun r => .reserveRange r.1 r.2)) := by
  induction rs generalizing w with
  | nil => exact h
  | cons r rs ih =>
    exact ih (quiet_reserve h (hr r (by simp))) fun q hq => hr q (by simp [hq])

theorem guarded_took {b : Allocator} {s n : ℕ} (h : Guarded ranges w)
    (t : Took w.alloc b s n) : Guarded ranges ⟨b, mark w.held s n, w.kept⟩ := by
  refine ⟨t.bounded h.bounded, fun i hi => h.clear_ok i ?_, fun i hi => ?_,
    fun i hi => ?_, ?_⟩
  · by_contra hb
    simp [t.bitmap, mark, Bool.not_eq_false _ ▸ hb] at hi
  · rw [t.delivered, mark_iff] at hi
    obtain hi | hi := hi
    · exact h.delivered_ok i hi
    · exact h.clear_ok i (t.clear i hi.1 hi.2)
  · rw [t.delivered, mark_iff] at hi
    rw [t.totalFrames]
    obtain hi | hi := hi
    · exact h.delivered_lt i hi
    · exact h.bounded.clear_lt i (t.clear i hi.1 hi.2)
  · rw [t.delivered, h.held_eq]

theorem guarded_draws {n : ℕ} {op : Op} (h : Guarded ranges w)
    (hd : op.draws = some n) : Guarded ranges (w.step op) := by
  have hr : op.returned = none := by
    cases op <;> first | rfl | cases hd
  have hq : op.request w.kept = w.kept := by
    cases op <;> first | rfl | cases hd
  obtain ⟨h₁, h₂⟩ | ⟨s, h₁, t⟩ := exec_cases h.bounded hd
  · simpa [World.step, h₁, h₂, Op.settle, hr, hq] using h
  · simpa [World.step, h₁, Op.settle, hr, hq] using guarded_took h t

theorem guarded_deallocate (h : Guarded ranges w) (idx : ℕ) :
    Guarded ranges (w.step (.deallocateFrame idx)) := by
  obtain ⟨hsame, hno⟩ | ⟨hlt, hdel, hbit, hdeliv, htot, -⟩ := deallocateFrame_cases idx w.alloc
  · -- a refused free: the frame was not delivered, so nobody held it either
    have hd : w.alloc.delivered idx = false := by
      by_contra hd
      have := h.delivered_lt idx (by simpa using hd)
      exact hno.elim (by omega) hd
    have hheld : clear w.held idx 1 = w.held := by
      funext i
      by_cases hi : i = idx
      · simp [clear, hi, h.held_eq, hd]
      · exact clear_outside (by omega)
    simpa [World.step, Op.exec, Op.settle, Op.returned, Op.request, hsame, hheld] using h
  · refine ⟨⟨fun i hi => ?_, htot ▸ h.bounded.total_le⟩, fun i hi => ?_, fun i hi => ?_,
      fun i hi => ?_, ?_⟩
    · simp only [World.step, Op.exec, hbit, htot] at hi ⊢
      by_cases hii : i = idx
      · rwa [hii]
      · exact h.bounded.clear_lt i (by rwa [clear_outside (by omega)] at hi)
    · simp only [World.step, Op.exec, hbit] at hi
      by_cases hii : i = idx
      · rw [hii]
        exact h.delivered_ok idx hdel
      · exact h.clear_ok i (by rwa [clear_outside (by omega)] at hi)
    · simp only [World.step, Op.exec, hdeliv, clear_iff] at hi
      exact h.delivered_ok i hi.1
    · simp only [World.step, Op.exec, hdeliv, clear_iff, htot] at hi ⊢
      exact h.delivered_lt i hi.1
    · simp [World.step, Op.exec, Op.settle, Op.returned, hdeliv, h.held_eq]

theorem guarded_step {op : Op} (h : Guarded ranges w) (hop : Plain op) :
    Guarded ranges (w.step op) := by
  cases hd : op.draws with
  | some n => exact guarded_draws h hd
  | none =>
    cases op with
    | deallocateFrame idx => exact guarded_deallocate h idx
    | _ => first | exact hop.elim | cases hd

theorem guarded_run (h : Guarded ranges w) (ops : List Op)
    (hops : ∀ op ∈ ops, Plain op) : Guarded ranges (w.run ops) := by
  induction ops generalizing w with
  | nil => exact h
  | cons op ops ih =>
    exact ih (guarded_step h (hops op (by simp))) fun o ho => hops o (by simp [ho])

/-! ### The state after the initialisation -/

theorem quiet_fresh (hu : Marked ranges u) (hp : a.ptPoolFrames = 0) :
    Quiet ranges ⟨{ a with
      bitmap := u.bitmap
      delivered := fun _ => false
      totalFrames := if min (u.lastEnd/frameSize) capacity = 0 then capacity
        else min (u.lastEnd/frameSize) capacity }, fun _ => false, fun _ => false⟩ := by
  refine ⟨⟨⟨fun i hi => ?_, ?_⟩, fun i hi => ?_, by simp, by simp, rfl⟩, rfl, hp⟩
  · obtain ⟨-, hcap, hend⟩ := hu i hi
    have hdiv : i < u.lastEnd/frameSize := (Nat.le_div_iff_mul_le (by decide)).mpr hend
    simp only
    split
    · exact hcap
    · exact lt_min hdiv hcap
  · simp only
    split
    · exact le_rfl
    · exact min_le_right _ _
  · exact ⟨(hu i hi).1, rfl⟩

theorem quiet_start {k : KernelImage}
    (ha : ∀ r ∈ ranges, Aligned r) (hk : ∀ r ∈ k.span, Ends r)
    (h : start k ranges a = some w) : Quiet ranges w := by
  rw [start, initFromUsableRanges, Option.map_eq_some_iff] at h
  obtain ⟨b, hb, rfl⟩ := h
  rw [Option.bind_eq_bind, Option.bind_eq_some_iff] at hb
  obtain ⟨u, hu, hb⟩ := hb
  have hm : Marked ranges u := by
    simpa using marked_foldlM ranges [] ha (fun i hi => by simp at hi) hu
  have hquiet := quiet_fresh (a := { a with
    nextFreeBit := lowmemReserveFrames, usableFrames := u.count, allocatedCount := 0,
    ptPool := fun _ => false, ptPoolBase := 0, ptPoolFrames := 0, doubleUseWarned := false }) hm rfl
  have hramlog : Ends (bootRamlogPhys, bootRamlogCap) := by
    norm_num [Ends, bootRamlogPhys, bootRamlogCap]
  obtain rfl := Option.some.inj hb
  rw [reserveKernelImageInit]
  cases hspan : k.span with
  | none => exact quiet_reserve hquiet hramlog
  | some r => exact quiet_reserve (quiet_reserve hquiet (hk r hspan)) hramlog

theorem reserved_survives (k : KernelImage) (ranges : List (ℕ × ℕ)) (a : Allocator) (w : World)
    (ha : ∀ r ∈ ranges, Aligned r) (h : start k ranges a = some w) (rs : List (ℕ × ℕ))
    (hk : ∀ r ∈ k.span, Ends r) (hr : ∀ r ∈ rs, Ends r) (ops : List Op)
    (hops : ∀ op ∈ ops, Plain op) :
    let v := (w.run (rs.map fun r => .reserveRange r.1 r.2)).run ops
    (∀ op, Plain op → ∀ s n, (op.exec v.alloc).1 = some (s, n) → ∀ i, s ≤ i → i < s+n →
      InUsable ranges i ∧ v.kept i = false) ∧
    ∀ idx, v.held idx = false → deallocateFrame idx v.alloc = v.alloc := by
  intro v
  have hv : Guarded ranges v :=
    guarded_run (quiet_reserves (quiet_start ha hk h) rs hr).guarded ops hops
  refine ⟨fun op hop s n he i h₁ h₂ => ?_, fun idx hidx => ?_⟩
  · cases hd : op.draws with
    | some m =>
      obtain ⟨h₀, -⟩ | ⟨t, h₀, ht⟩ := exec_cases hv.bounded hd
      · rw [h₀] at he
        cases he
      · rw [h₀] at he
        cases he
        exact hv.clear_ok i (ht.clear i h₁ h₂)
    | none =>
      cases op with
      | deallocateFrame idx => cases he
      | _ => first | exact hop.elim | cases hd
  · exact deallocateFrame_undelivered (by rw [← hv.held_eq, hidx])

def oneMegabyte : List (ℕ × ℕ) := [(0x100000, 0x100000)]

def noImage : KernelImage := ⟨0, 0, 0⟩

theorem reserved_survives_oneMegabyte : ∃ w, start noImage oneMegabyte empty = some w ∧
    let v := (w.run ([(0x100000, 0x1000)].map fun r => .reserveRange r.1 r.2)).run
      [.deallocateFrame 256]
    (Op.allocateFrame.exec v.alloc).1 = some (257, 1) ∧
    (∀ op, Plain op → ∀ s n, (op.exec v.alloc).1 = some (s, n) → ∀ i, s ≤ i → i < s+n →
      InUsable oneMegabyte i ∧ v.kept i = false) ∧
    ∀ idx, v.held idx = false → deallocateFrame idx v.alloc = v.alloc := by
  refine ⟨_, rfl, by decide +kernel, ?_⟩
  exact reserved_survives noImage oneMegabyte empty _ (by decide) rfl [(0x100000, 0x1000)]
    (by simp [noImage, KernelImage.span]) (by simp [Ends]) [.deallocateFrame 256] (by simp [Plain])

/-- A range that runs to the end of the 64-bit address space is not reserved. -/
theorem endless_range_handed_out : ∃ w, start noImage oneMegabyte empty = some w ∧
    let v := w.run [.reserveRange 0x100000 (2^64-0x100000)]
    (Op.allocateFrame.exec v.alloc).1 = some (256, 1) ∧ v.kept 256 = true :=
  ⟨_, rfl, by decide +kernel, by decide +kernel⟩

end NeuralOs.Memory.FrameReserve
