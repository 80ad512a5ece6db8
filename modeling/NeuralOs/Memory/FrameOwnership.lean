import NeuralOs.Memory.FrameReserve

/-!
# Every frame has one owner

The page-table pool remembers only its first frame and its length. When it is
carved from consecutive frames, and no reservation falls on a frame in use, a
frame is handed out only while nobody holds it and no reservation covers it.
A reserved hole inside the frames that the pool is carved from breaks this.
-/

set_option autoImplicit false

namespace NeuralOs.Memory.FrameOwnership
open Bitmap FrameAllocator FrameLedger FrameReserve

/-- Callers give back only what they hold, and the pool fits its bitmap. -/
def Legal (w : World) : Op → Prop
  | .initPtPool frames => frames ≤ ptPoolFramesMax
  | .deallocateFrame idx | .deallocPtFrame idx => w.held idx = true
  | _ => True

/-- Nobody holds a frame that the call returns, and no earlier reservation covers it. -/
def Sole (w : World) (op : Op) : Prop :=
  ∀ s n, (op.exec w.alloc).1 = some (s, n) → ∀ i, s ≤ i → i < s+n →
    w.held i = false ∧ w.kept i = false

/-- The clear frames that the pool is to be carved from follow one another: the first
`frames` clear ones from the search hint on, or all of them if there are fewer. -/
def Consecutive (frames : ℕ) (a : Allocator) : Prop :=
  ∃ f k, k ≤ frames ∧ a.nextFreeBit ≤ f ∧
    (∀ i, a.nextFreeBit ≤ i → i < f → a.bitmap i = true) ∧
    (∀ i, f ≤ i → i < f+k → a.bitmap i = false) ∧
    (k = frames ∨ ∀ i, f+k ≤ i → i < a.totalFrames → a.bitmap i = true)

/-- Reservations are for memory that is not in use, and the pool has no holes. -/
def Careful (w : World) : Op → Prop
  | .reserveRange base len => base+len < 2^64 ∧ ∀ i, Covers base len i →
      w.held i = false ∧ ∀ off, ptPoolOff i w.alloc = some off → w.alloc.ptPool off = false
  | .initPtPool frames => Consecutive frames w.alloc
  | _ => True

def Along (P : World → Op → Prop) : World → List Op → Prop
  | _, [] => True
  | w, op::ops => P w op ∧ Along P (w.step op) ops

/-! ### Carving the pool -/

variable {a : Allocator} {frames n i c m k : ℕ}

theorem carve_skip (h : ∀ j, i ≤ j → j < i+m → a.bitmap j = true) :
    carve frames (m+n) i c a = carve frames n (i+m) c a := by
  induction m generalizing i with
  | zero => simp
  | succ m ih =>
    have hi : a.bitmap i = true := h i le_rfl (by omega)
    have hrest := ih (i := i+1) fun j h₁ h₂ => h j (by omega) (by omega)
    rw [show m+1+n = m+n+1 by omega, carve, hrest, show i+1+m = i+(m+1) by omega]
    by_cases hc : c < frames
    · simp [hc, hi]
    · cases n <;> simp [carve, hc]

theorem carve_full (h : frames ≤ c) : carve frames n i c a = (c, a) := by
  cases n <;> simp [carve, Nat.not_lt.mpr h]

theorem carve_run (h : ∀ j, i ≤ j → j < i+k → a.bitmap j = false) (hc : c+k ≤ frames)
    (hf : frames ≤ ptPoolFramesMax) :
    carve frames (k+n) i c a = carve frames n (i+k) (c+k) { a with
      bitmap := mark a.bitmap i k
      ptPoolBase := if c = 0 ∧ 0 < k then i else a.ptPoolBase
      ptPool := mark a.ptPool c k } := by
  induction k generalizing i c a with
  | zero => simp [mark_zero]
  | succ k ih =>
    have hi : a.bitmap i = false := h i le_rfl (by omega)
    have hbyte : c/8 < ptPoolBitmapBytes := by
      simp only [ptPoolFramesMax, ptPoolBitmapBytes] at *
      omega
    rw [show k+1+n = k+n+1 by omega, carve, if_pos (by omega), hi, if_neg (by simp), if_pos hbyte,
      ih (fun j h₁ h₂ => ?_) (by omega)]
    · simp only [mark_mark, Nat.add_comm 1 k, show i+1+k = i+(k+1) by omega,
        show c+1+k = c+(k+1) by omega]
      simp
    · exact (mark_outside (by omega)).trans (h j (by omega) (by omega))

theorem carve_consecutive {f : ℕ} (hb : Bounded a) (hf : frames ≤ ptPoolFramesMax)
    (hk : k ≤ frames) (hnext : a.nextFreeBit ≤ f)
    (hbusy : ∀ i, a.nextFreeBit ≤ i → i < f → a.bitmap i = true)
    (hclear : ∀ i, f ≤ i → i < f+k → a.bitmap i = false)
    (hend : k = frames ∨ ∀ i, f+k ≤ i → i < a.totalFrames → a.bitmap i = true) :
    carve frames (a.totalFrames-a.nextFreeBit) a.nextFreeBit 0 a = (k, { a with
      bitmap := mark a.bitmap f k
      ptPoolBase := if 0 < k then f else a.ptPoolBase
      ptPool := mark a.ptPool 0 k }) := by
  rcases Nat.eq_zero_or_pos k with rfl | hpos
  · obtain rfl | hend := hend
    · simp [carve_full, mark_zero]
    have hall : ∀ j, a.nextFreeBit ≤ j → j < a.nextFreeBit+(a.totalFrames-a.nextFreeBit) →
        a.bitmap j = true := by
      intro j h₁ h₂
      by_cases hj : j < f
      · exact hbusy j h₁ hj
      · exact hend j (by omega) (by omega)
    rw [← Nat.add_zero (a.totalFrames-a.nextFreeBit), carve_skip hall]
    simp [carve, mark_zero]
  · have hroom := hb.clear_lt (f+k-1) (hclear _ (by omega) (by omega))
    rw [show a.totalFrames-a.nextFreeBit = f-a.nextFreeBit+(k+(a.totalFrames-(f+k))) by omega,
      carve_skip fun j h₁ h₂ => hbusy j h₁ (by omega), show a.nextFreeBit+(f-a.nextFreeBit) = f
        by omega, carve_run hclear (by omega) hf]
    simp only [true_and, Nat.zero_add]
    obtain rfl | hend := hend
    · rw [carve_full le_rfl]
    · rw [← Nat.add_zero (a.totalFrames-(f+k)), carve_skip fun j h₁ h₂ =>
        (mark_outside (by omega)).trans (hend j h₁ (by omega)), carve]

/-! ### The invariant -/

/-- Who may have a frame: callers hold busy frames, the delivered ones among them;
reserved frames are busy and nobody holds them; the frames of the pool are busy, and
those it can still give are neither held nor reserved. -/
structure Owned (w : World) : Prop where
  bounded : Bounded w.alloc
  held_busy : ∀ i, w.held i = true → w.alloc.bitmap i = true
  delivered_held : ∀ i, w.alloc.delivered i = true → w.held i = true
  delivered_lt : ∀ i, w.alloc.delivered i = true → i < w.alloc.totalFrames
  kept_busy : ∀ i, w.kept i = true → w.alloc.bitmap i = true
  kept_free : ∀ i, w.kept i = true → w.held i = false
  pool_busy : ∀ off < w.alloc.ptPoolFrames, w.alloc.bitmap (w.alloc.ptPoolBase+off) = true
  pool_kept : ∀ off < w.alloc.ptPoolFrames, w.alloc.delivered (w.alloc.ptPoolBase+off) = false
  pool_free : ∀ off < w.alloc.ptPoolFrames, w.alloc.ptPool off = true →
    w.held (w.alloc.ptPoolBase+off) = false ∧ w.kept (w.alloc.ptPoolBase+off) = false

variable {w : World}

theorem Owned.clear_sole (h : Owned w) {i : ℕ} (hi : w.alloc.bitmap i = false) :
    w.held i = false ∧ w.kept i = false := by
  constructor
  · by_contra hh
    simp [h.held_busy i (by simpa using hh)] at hi
  · by_contra hh
    simp [h.kept_busy i (by simpa using hh)] at hi

theorem owned_took (h : Owned w) {b : Allocator} {s : ℕ} (t : Took w.alloc b s n) :
    Owned ⟨b, mark w.held s n, w.kept⟩ := by
  -- a busy frame is not among those taken
  have hout : ∀ i, w.alloc.bitmap i = true → i < s ∨ s+n ≤ i := by
    intro i hi
    by_contra hin
    simp [t.clear i (by omega) (by omega)] at hi
  refine ⟨t.bounded h.bounded, fun i hi => ?_, fun i hi => ?_, fun i hi => ?_, fun i hi => ?_,
    fun i hi => ?_, fun off hoff => ?_, fun off hoff => ?_, fun off hoff hfree => ?_⟩
  · rw [t.bitmap, mark_iff]
    exact (mark_iff.mp hi).imp_left (h.held_busy i)
  · rw [t.delivered, mark_iff] at hi
    exact mark_iff.mpr (hi.imp_left (h.delivered_held i))
  · rw [t.delivered, mark_iff] at hi
    rw [t.totalFrames]
    exact hi.elim (h.delivered_lt i) fun hi => h.bounded.clear_lt i (t.clear i hi.1 hi.2)
  · rw [t.bitmap, mark_iff]
    exact .inl (h.kept_busy i hi)
  · exact (mark_outside (hout i (h.kept_busy i hi))).trans (h.kept_free i hi)
  all_goals
    rw [t.ptPoolFrames] at hoff
    have hpool := hout _ (h.pool_busy off hoff)
  · rw [t.bitmap, t.ptPoolBase, mark_iff]
    exact .inl (h.pool_busy off hoff)
  · rw [t.delivered, t.ptPoolBase, mark_outside hpool]
    exact h.pool_kept off hoff
  · rw [t.ptPool] at hfree
    rw [t.ptPoolBase]
    obtain ⟨hheld, hkept⟩ := h.pool_free off hoff hfree
    exact ⟨(mark_outside hpool).trans hheld, hkept⟩

theorem draws_step (h : Owned w) {op : Op} (hd : op.draws = some n) :
    Sole w op ∧ Owned (w.step op) := by
  have hr : op.returned = none := by
    cases op <;> first | rfl | cases hd
  have hq : op.request w.kept = w.kept := by
    cases op <;> first | rfl | cases hd
  obtain ⟨h₁, h₂⟩ | ⟨s, h₁, t⟩ := exec_cases h.bounded hd
  · refine ⟨fun s m he => ?_, ?_⟩
    · rw [h₁] at he
      cases he
    · simpa [World.step, h₁, h₂, Op.settle, hr, hq] using h
  · refine ⟨fun s' m he i hi hi' => ?_, ?_⟩
    · rw [h₁] at he
      cases he
      exact h.clear_sole (t.clear i hi hi')
    · simpa [World.step, h₁, Op.settle, hr, hq] using owned_took h t

theorem ptPoolOff_some {idx off : ℕ} :
    ptPoolOff idx a = some off ↔ off < a.ptPoolFrames ∧ idx = a.ptPoolBase+off := by
  rw [ptPoolOff]
  split
  · simp only [reduceCtorEq, false_iff]
    omega
  split
  · simp only [reduceCtorEq, false_iff]
    omega
  · split
    · simp only [Option.some.injEq]
      omega
    · simp only [reduceCtorEq, false_iff]
      omega

theorem allocPtFrame_step (h : Owned w) : Sole w .allocPtFrame ∧ Owned (w.step .allocPtFrame) := by
  cases hfind : (List.range w.alloc.ptPoolFrames).find? fun off => w.alloc.ptPool off with
  | none =>
    have he : Op.allocPtFrame.exec w.alloc = Op.allocateFrame.exec w.alloc := by
      simp [Op.exec, allocPtFrame, hfind]
    have : Sole w .allocateFrame ∧ Owned (w.step .allocateFrame) := draws_step h rfl
    simpa only [Sole, World.step, he, Op.settle, Op.returned, Op.request] using this
  | some off =>
    have hoff : off < w.alloc.ptPoolFrames := by simpa using List.mem_of_find?_eq_some hfind
    have hfree : w.alloc.ptPool off = true := by simpa using List.find?_some hfind
    obtain ⟨hheld, hkept⟩ := h.pool_free off hoff hfree
    have he : Op.allocPtFrame.exec w.alloc = (some (w.alloc.ptPoolBase+off, 1), { w.alloc with
        ptPool := clear w.alloc.ptPool off 1
        allocatedCount := w.alloc.allocatedCount+1 }) := by
      simp [Op.exec, allocPtFrame, hfind, block]
    refine ⟨fun s m hs i h₁ h₂ => ?_, ?_⟩
    · rw [he] at hs
      cases hs
      obtain rfl : i = w.alloc.ptPoolBase+off := by omega
      exact ⟨hheld, hkept⟩
    simp only [World.step, he, Op.settle, Op.returned, Op.request]
    refine ⟨⟨h.bounded.clear_lt, h.bounded.total_le⟩, fun i hi => ?_, fun i hi => ?_,
      h.delivered_lt, h.kept_busy, fun i hi => ?_, h.pool_busy, h.pool_kept,
      fun o ho hf => ?_⟩
    · obtain hi | hi := mark_iff.mp hi
      · exact h.held_busy i hi
      · obtain rfl : i = w.alloc.ptPoolBase+off := by omega
        exact h.pool_busy off hoff
    · exact mark_iff.mpr (.inl (h.delivered_held i hi))
    · have hne : i ≠ w.alloc.ptPoolBase+off := by
        rintro rfl
        rw [show w.kept _ = true from hi] at hkept
        cases hkept
      exact (mark_outside (by omega)).trans (h.kept_free i hi)
    · obtain ⟨hf, hne⟩ := clear_iff.mp hf
      obtain ⟨hheld, hkept⟩ := h.pool_free o ho hf
      have hout : w.alloc.ptPoolBase+o < w.alloc.ptPoolBase+off ∨
          w.alloc.ptPoolBase+off+1 ≤ w.alloc.ptPoolBase+o := by omega
      exact ⟨(mark_outside hout).trans hheld, hkept⟩

theorem deallocate_owned (h : Owned w) {idx : ℕ} (hheld : w.held idx = true) :
    Owned ⟨deallocateFrame idx w.alloc, clear w.held idx 1, w.kept⟩ := by
  obtain ⟨hsame, hno⟩ | ⟨hlt, hdel, hbit, hdeliv, htot, hpool, hbase, hframes⟩ :=
    deallocateFrame_cases idx w.alloc
  · have hd : w.alloc.delivered idx = false := by
      by_contra hd
      have := h.delivered_lt idx (by simpa using hd)
      exact hno.elim (by omega) hd
    rw [hsame]
    refine ⟨h.bounded, fun i hi => h.held_busy i (clear_iff.mp hi).1, fun i hi => ?_,
      h.delivered_lt, h.kept_busy, fun i hi => ?_, h.pool_busy, h.pool_kept,
      fun off hoff hf => ?_⟩
    · have hne : i ≠ idx := by
        rintro rfl
        rw [show w.alloc.delivered i = true from hi] at hd
        cases hd
      exact clear_iff.mpr ⟨h.delivered_held i hi, by omega⟩
    · simp [clear, h.kept_free i hi]
    · obtain ⟨hheld, hkept⟩ := h.pool_free off hoff hf
      exact ⟨by simp [clear, hheld], hkept⟩
  -- a delivered frame is held, so it is neither reserved nor part of the pool
  have hpoolne : ∀ off < w.alloc.ptPoolFrames, w.alloc.ptPoolBase+off ≠ idx := by
    intro off hoff he
    have := h.pool_kept off hoff
    rw [he, hdel] at this
    cases this
  refine ⟨⟨fun i hi => ?_, htot ▸ h.bounded.total_le⟩, fun i hi => ?_, fun i hi => ?_,
    fun i hi => ?_, fun i hi => ?_, fun i hi => ?_, fun off hoff => ?_, fun off hoff => ?_,
    fun off hoff hf => ?_⟩
  · rw [htot]
    by_cases hne : i = idx
    · rwa [hne]
    · rw [hbit, clear_outside (by omega)] at hi
      exact h.bounded.clear_lt i hi
  · obtain ⟨hi, hne⟩ := clear_iff.mp hi
    rw [hbit, clear_outside (by omega)]
    exact h.held_busy i hi
  · rw [hdeliv, clear_iff] at hi
    exact clear_iff.mpr ⟨h.delivered_held i hi.1, hi.2⟩
  · rw [hdeliv, clear_iff] at hi
    rw [htot]
    exact h.delivered_lt i hi.1
  · have hne : i ≠ idx := by
      rintro rfl
      simp [h.kept_free i hi] at hheld
    rw [hbit, clear_outside (by omega)]
    exact h.kept_busy i hi
  · simp [clear, h.kept_free i hi]
  all_goals rw [hframes] at hoff
  · rw [hbit, hbase, clear_outside (by have := hpoolne off hoff; omega)]
    exact h.pool_busy off hoff
  · rw [hdeliv, hbase]
    simp [clear, h.pool_kept off hoff]
  · rw [hpool] at hf
    rw [hbase]
    obtain ⟨hheld, hkept⟩ := h.pool_free off hoff hf
    exact ⟨by simp [clear, hheld], hkept⟩

theorem giveBack_owned (h : Owned w) {idx off : ℕ} (hheld : w.held idx = true)
    (hoff : ptPoolOff idx w.alloc = some off) :
    Owned ⟨deallocPtFrame idx w.alloc, clear w.held idx 1, w.kept⟩ := by
  obtain ⟨hlt, rfl⟩ := ptPoolOff_some.mp hoff
  have he : deallocPtFrame (w.alloc.ptPoolBase+off) w.alloc = { w.alloc with
      ptPool := mark w.alloc.ptPool off 1, allocatedCount := w.alloc.allocatedCount-1 } := by
    simp [deallocPtFrame, hoff]
  rw [he]
  refine ⟨⟨h.bounded.clear_lt, h.bounded.total_le⟩,
    fun i hi => h.held_busy i (clear_iff.mp hi).1, fun i hi => ?_, h.delivered_lt, h.kept_busy,
    fun i hi => ?_, h.pool_busy, h.pool_kept, fun o ho hf => ?_⟩
  · have hne : i ≠ w.alloc.ptPoolBase+off := by
      rintro rfl
      rw [show w.alloc.delivered _ = false from h.pool_kept off hlt] at hi
      cases hi
    exact clear_iff.mpr ⟨h.delivered_held i hi, by omega⟩
  · simp [clear, h.kept_free i hi]
  · by_cases hne : o = off
    · subst hne
      refine ⟨by simp [clear], ?_⟩
      by_contra hk
      simp [h.kept_free _ (Bool.eq_true_of_not_eq_false hk)] at hheld
    · obtain hf | hf := mark_iff.mp hf
      · obtain ⟨hheld, hkept⟩ := h.pool_free o ho hf
        exact ⟨by simp [clear, hheld], hkept⟩
      · omega

theorem reserve_owned (h : Owned w) {base len : ℕ} (hc : Careful w (.reserveRange base len)) :
    Owned (w.step (.reserveRange base len)) := by
  obtain ⟨hend, hfree⟩ := hc
  obtain ⟨hd, ht, hp, hb, hf⟩ := reserveRange_fields base len w.alloc
  have hkept : ∀ i, (w.step (.reserveRange base len)).kept i = true →
      w.kept i = true ∨ Covers base len i := by
    intro i hi
    simpa [World.step, Op.request, keep] using hi
  refine ⟨reserveRange_bounded h.bounded, fun i hi => reserveRange_busy _ _ (h.held_busy i hi),
    fun i hi => h.delivered_held i (hd ▸ hi), fun i hi => ?_, fun i hi => ?_, fun i hi => ?_,
    fun off hoff => ?_, fun off hoff => ?_, fun off hoff hpf => ?_⟩
  · exact (h.delivered_lt i (hd ▸ hi)).trans_eq ht.symm
  · obtain hi | hi := hkept i hi
    · exact reserveRange_busy _ _ (h.kept_busy i hi)
    · by_contra hbit
      exact (reserveRange_clear hend h.bounded (by simpa [World.step, Op.exec] using hbit)).2 hi
  · obtain hi | hi := hkept i hi
    · exact h.kept_free i hi
    · exact (hfree i hi).1
  all_goals simp only [World.step, Op.exec, hb, hf, hd] at hoff ⊢
  · exact reserveRange_busy _ _ (h.pool_busy off hoff)
  · exact h.pool_kept off hoff
  simp only [World.step, Op.exec, hp] at hpf
  obtain ⟨hheld, hk⟩ := h.pool_free off hoff hpf
  refine ⟨hheld, ?_⟩
  have hno : ¬Covers base len (w.alloc.ptPoolBase+off) := by
    intro hcov
    simp [(hfree _ hcov).2 off (ptPoolOff_some.mpr ⟨hoff, rfl⟩)] at hpf
  simp [Op.request, keep, hk, hno]

theorem initPtPool_owned (h : Owned w) (hl : frames ≤ ptPoolFramesMax)
    (hc : Consecutive frames w.alloc) : Owned (w.step (.initPtPool frames)) := by
  obtain ⟨f, k, hk, hnext, hbusy, hclear, hend⟩ := hc
  have hcarve := carve_consecutive h.bounded hl hk hnext hbusy hclear hend
  have hsole := fun i h₁ h₂ => h.clear_sole (hclear i h₁ h₂)
  simp only [World.step, Op.exec, initPtPool, hcarve, Op.settle, Op.returned, Op.request]
  have hbase : ∀ off, off < k → (if 0 < k then f else w.alloc.ptPoolBase)+off = f+off := by
    intro off hoff
    rw [if_pos (by omega)]
  refine ⟨⟨fun i hi => h.bounded.clear_lt i ?_, h.bounded.total_le⟩, fun i hi => ?_,
    h.delivered_held, h.delivered_lt, fun i hi => ?_, h.kept_free, fun off hoff => ?_,
    fun off hoff => ?_, fun off hoff _ => ?_⟩
  · simp only [mark, Bool.or_eq_false_iff] at hi
    exact hi.1
  · exact mark_iff.mpr (.inl (h.held_busy i hi))
  · exact mark_iff.mpr (.inl (h.kept_busy i hi))
  all_goals
    have hoff : off < k := hoff
    simp only [hbase off hoff]
  · exact mark_iff.mpr (.inr (by omega))
  · by_contra hd
    have := (hsole (f+off) (by omega) (by simpa using hoff)).1
    rw [h.delivered_held _ (by simpa using hd)] at this
    cases this
  · exact hsole (f+off) (by omega) (by simpa using hoff)

theorem owned_step (h : Owned w) {op : Op} (hl : Legal w op) (hc : Careful w op) :
    Sole w op ∧ Owned (w.step op) := by
  have quiet : ∀ op : Op, (op.exec w.alloc).1 = none → Sole w op := by
    intro op he s n hs
    rw [he] at hs
    cases hs
  cases op with
  | allocateFrame => exact draws_step h rfl
  | allocateContiguous count => exact draws_step h rfl
  | allocateHuge2mb count => exact draws_step h rfl
  | allocateBelow1mb => exact draws_step h rfl
  | allocPtFrame => exact allocPtFrame_step h
  | reserveRange base len => exact ⟨quiet _ rfl, reserve_owned h hc⟩
  | initPtPool frames => exact ⟨quiet _ rfl, initPtPool_owned h hl hc⟩
  | deallocateFrame idx => exact ⟨quiet _ rfl, deallocate_owned h hl⟩
  | deallocPtFrame idx =>
    refine ⟨quiet _ rfl, ?_⟩
    cases hoff : ptPoolOff idx w.alloc with
    | some off => exact giveBack_owned h hl hoff
    | none =>
      have := deallocate_owned h hl
      simpa [World.step, Op.exec, deallocPtFrame, hoff, Op.settle, Op.returned, Op.request]
        using this

theorem owned_run (h : Owned w) (ops : List Op)
    (hops : Along (fun w op => Legal w op ∧ Careful w op) w ops) : Along Sole w ops := by
  induction ops generalizing w with
  | nil => trivial
  | cons op ops ih =>
    obtain ⟨⟨hl, hc⟩, hrest⟩ := hops
    obtain ⟨hsole, hnext⟩ := owned_step h hl hc
    exact ⟨hsole, ih hnext hrest⟩

theorem owned_start {k : KernelImage} {ranges : List (ℕ × ℕ)} (ha : ∀ r ∈ ranges, Aligned r)
    (hk : ∀ r ∈ k.span, Ends r) (h : start k ranges a = some w) : Owned w := by
  have hq := quiet_start ha hk h
  have hheld : w.held = fun _ => false := hq.guarded.held_eq.trans hq.delivered
  refine ⟨hq.guarded.bounded, by simp [hheld], by simp [hq.delivered], by simp [hq.delivered],
    fun i hi => ?_, by simp [hheld], by simp [hq.pool], by simp [hq.pool], by simp [hq.pool]⟩
  by_contra hb
  have := (hq.guarded.clear_ok i (by simpa using hb)).2
  rw [hi] at this
  cases this

/-- One owner for every frame, in every run of legal calls whose reservations are for
memory not in use and whose pools are carved without holes. -/
theorem one_owner (k : KernelImage) (ranges : List (ℕ × ℕ)) (a : Allocator) (w : World)
    (ha : ∀ r ∈ ranges, Aligned r) (h : start k ranges a = some w) (hk : ∀ r ∈ k.span, Ends r)
    (ops : List Op) (hops : Along (fun w op => Legal w op ∧ Careful w op) w ops) :
    Along Sole w ops :=
  owned_run (owned_start ha hk h) ops hops

def threeFrames : List (ℕ × ℕ) := [(0x100000, 0x3000)]

def threeStart : World := (start noImage threeFrames empty).get (by decide +kernel)

theorem threeStart_eq : start noImage threeFrames empty = some threeStart :=
  (Option.some_get _).symm

def poolOps : List Op :=
  [.reserveRange 0x100000 0x1000, .initPtPool 2, .allocPtFrame, .deallocPtFrame 257]

theorem one_owner_pool : Along Sole threeStart poolOps ∧
    (Op.allocPtFrame.exec (threeStart.run poolOps).alloc).1 = some (257, 1) := by
  refine ⟨one_owner noImage threeFrames empty threeStart (by decide) threeStart_eq
    (by simp [noImage, KernelImage.span]) poolOps ?_, by decide +kernel⟩
  refine ⟨⟨trivial, by norm_num, fun i _ => ⟨rfl, fun off hoff => ?_⟩⟩,
    ⟨show 2 ≤ ptPoolFramesMax by decide, 257, 2, le_rfl, by decide +kernel, fun i h₁ h₂ => ?_,
      fun i h₁ h₂ => ?_, .inl rfl⟩,
    ⟨trivial, trivial⟩, ⟨show _ = _ by decide +kernel, trivial⟩, trivial⟩
  · have hnone : threeStart.alloc.ptPoolFrames = 0 := by decide +kernel
    have := (ptPoolOff_some.mp hoff).1
    omega
  · have hnext : (threeStart.step (.reserveRange 0x100000 0x1000)).alloc.nextFreeBit = 256 := by
      decide +kernel
    rw [hnext] at h₁
    obtain rfl : i = 256 := by omega
    decide +kernel
  · obtain rfl | rfl : i = 257 ∨ i = 258 := by omega
    · decide +kernel
    · decide +kernel

def holedOps : List Op :=
  [.reserveRange 0x101000 0x1000, .initPtPool 2, .allocPtFrame, .allocPtFrame]

def lateOps : List Op := [.initPtPool 2, .reserveRange 0x100000 0x1000, .allocPtFrame]

def heldOps : List Op :=
  [.allocateFrame, .reserveRange 0x100000 0x1000, .deallocateFrame 256, .allocateFrame]

/-- A reserved frame is handed out: frame 257 by the pool with a hole, frame 256 in
the two other runs. -/
theorem reserved_frame_given :
    (Along Legal threeStart holedOps ∧ ¬Along Sole threeStart holedOps) ∧
    (Along Legal threeStart lateOps ∧ ¬Along Sole threeStart lateOps) ∧
    Along Legal threeStart heldOps ∧ ¬Along Sole threeStart heldOps := by
  have pool : 2 ≤ ptPoolFramesMax := by decide
  refine ⟨⟨⟨trivial, pool, trivial, trivial, trivial⟩, ?_⟩,
    ⟨⟨pool, trivial, trivial, trivial⟩, ?_⟩,
    ⟨trivial, trivial, show _ = _ by decide +kernel, trivial, trivial⟩, ?_⟩
  · rintro ⟨-, -, -, hsole, -⟩
    have hgot := hsole 257 1 (by decide +kernel) 257 le_rfl (by decide)
    revert hgot
    decide +kernel
  · rintro ⟨-, -, hsole, -⟩
    have hgot := hsole 256 1 (by decide +kernel) 256 le_rfl (by decide)
    revert hgot
    decide +kernel
  · rintro ⟨-, -, -, hsole, -⟩
    have hgot := hsole 256 1 (by decide +kernel) 256 le_rfl (by decide)
    revert hgot
    decide +kernel

end NeuralOs.Memory.FrameOwnership
