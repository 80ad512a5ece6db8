import NeuralOs.Memory.FrameOwnership

/-!
# Frames below the search hint

Every search of the frame allocator starts at `next_free_bit`. A single frame is
taken at the first free one, but a run of frames can begin after free frames that
were too few, and the hint moves past them. No frame is lost exactly while every
run is taken at the first free frame of the general pool.
-/

set_option autoImplicit false

namespace NeuralOs.Memory.FrameHint
open Bitmap FrameAllocator FrameLedger
open FrameOwnership (Along)

def RunAt (a : Allocator) (r n : ℕ) : Prop :=
  r+n ≤ a.totalFrames ∧ ∀ j, r ≤ j → j < r+n → a.bitmap j = false

/-- An allocation fails only when there is nothing left to allocate in the general pool. -/
def Thorough (a : Allocator) : Prop :=
  ((allocateFrame a).1 = none →
    ∀ i, lowmemReserveFrames ≤ i → i < a.totalFrames → a.bitmap i = true) ∧
  ∀ n, 0 < n → (allocateContiguous n a).1 = none → ∀ r, lowmemReserveFrames ≤ r → ¬RunAt a r n

/-- The hint has not moved past a free frame of the general pool. -/
def Tight (a : Allocator) : Prop :=
  ∀ i, lowmemReserveFrames ≤ i → i < a.nextFreeBit → i < a.totalFrames → a.bitmap i = true

/-- If `n` free frames can be found at a position of the search, they can be found at one that is
not after the first free frame of the general pool. -/
def FirstFits (P : ℕ → Prop) (n : ℕ) (a : Allocator) : Prop :=
  ∀ r, a.nextFreeBit ≤ r → P r → RunAt a r n →
    ∀ f, lowmemReserveFrames ≤ f → f < a.totalFrames → a.bitmap f = false →
      ∃ r' ≤ f, a.nextFreeBit ≤ r' ∧ P r' ∧ RunAt a r' n

def Snug (w : World) : Op → Prop
  | .allocateContiguous n => FirstFits (fun _ => True) n w.alloc
  | .allocateHuge2mb n =>
    FirstFits (fun r => n ≠ 0 ∧ n % 512 = 0 → 512 ∣ r) n w.alloc
  | _ => True

/-! ### The searches -/

variable {a b : Allocator} {n r s : ℕ}

theorem runAt_clear (h : RunAt a r n) : obstacle a.bitmap r n = none := by
  rw [obstacle, List.find?_eq_none]
  intro j hj
  have := h.2 (r+j) (by omega) (by have := List.mem_range.mp hj; omega)
  simp [this]

structure TookFirst (a b : Allocator) (idx : ℕ) : Prop where
  ge : a.nextFreeBit ≤ idx
  lt : idx < a.totalFrames
  free : a.bitmap idx = false
  first : ∀ j, a.nextFreeBit ≤ j → j < idx → a.bitmap j = true
  next : b.nextFreeBit = idx+1
  total : b.totalFrames = a.totalFrames
  bitmap : b.bitmap = mark a.bitmap idx 1
  delivered : ∀ i < idx, b.delivered i = a.delivered i
  ptPoolFrames : b.ptPoolFrames = a.ptPoolFrames
  ptPoolBase : b.ptPoolBase = a.ptPoolBase

theorem allocateFrame_cases (a : Allocator) :
    (allocateFrame a = (none, a) ∧
        ∀ i, a.nextFreeBit ≤ i → i < a.totalFrames → a.bitmap i = true) ∨
      ∃ idx, (allocateFrame a).1 = some idx ∧ TookFirst a (allocateFrame a).2 idx := by
  rw [allocateFrame]
  split
  next hf => exact .inl ⟨rfl, fun i hi ht => nextClear_none hf hi (by omega)⟩
  next idx hf =>
    obtain ⟨hfree, hge, hlt⟩ := nextClear_some hf
    refine .inr ⟨idx, rfl, ?_⟩
    rw [checkDoubleUse]
    split <;> exact ⟨hge, by omega, hfree, fun j => nextClear_first hf, rfl, rfl, rfl,
      fun i hi => mark_outside (.inl hi), rfl, rfl⟩

/-- Where a run is found, what is there, and that no other run is before it. -/
structure Finds (P : ℕ → Prop) (a : Allocator) (n s : ℕ) : Prop where
  ge : a.nextFreeBit ≤ s
  clear : ∀ i, s ≤ i → i < s+n → a.bitmap i = false
  inside : n ≤ a.totalFrames → s+n ≤ a.totalFrames
  short : a.totalFrames < n → s = 0
  place : P s
  first : ∀ r, a.nextFreeBit ≤ r → P r → RunAt a r n → s ≤ r

def TakesFirst (P : ℕ → Prop) (n : ℕ) (a : Allocator) (r : Option ℕ × Allocator) : Prop :=
  (r = (none, a) ∧ (0 < n → ∀ s, a.nextFreeBit ≤ s → P s → ¬RunAt a s n)) ∨
    ∃ s, Finds P a n s ∧ 0 < n ∧ r = (some s, { take s n a with nextFreeBit := s+n })

theorem allocateContiguous_takes (n : ℕ) (a : Allocator) :
    TakesFirst (fun _ => True) n a (allocateContiguous n a) := by
  rw [allocateContiguous]
  split
  next hn => exact .inl ⟨rfl, fun h => by omega⟩
  next hn =>
    have hreach {t : ℕ} (ht : a.nextFreeBit ≤ t) (hrun : RunAt a t n) :
        ∃ k ≤ t, search (fun i => decide (i ≤ a.totalFrames-n))
          (fun i => (obstacle a.bitmap i n).map fun j => i+j+1)
          (a.totalFrames+1) a.nextFreeBit = some k := by
      refine @search_reaches _ _ _ _ (fun _ => True) t (fun p hp => ?_) ?_ ?_ trivial ht ?_
      · have := hrun.1
        exact decide_eq_true (by omega)
      · rw [runAt_clear hrun]
        rfl
      · intro p q _ hpt hq
        obtain ⟨j, hj, rfl⟩ := Option.map_eq_some_iff.mp hq
        obtain ⟨hjn, hbusy⟩ := obstacle_some hj
        refine ⟨trivial, by omega, ?_⟩
        -- the obstacle is not part of the run, which ends after it
        by_contra hlt
        have hclear := hrun.2 (p+j) (by omega) (by omega)
        rw [hbusy] at hclear
        cases hclear
      · have := hrun.1
        omega
    split
    next hs =>
      refine .inl ⟨rfl, fun _ t ht _ hrun => ?_⟩
      obtain ⟨k, -, hk⟩ := hreach ht hrun
      rw [hs] at hk
      cases hk
    next s hs =>
      obtain ⟨hmore, hnext⟩ := search_some hs
      have hle : s ≤ a.totalFrames-n := of_decide_eq_true hmore
      refine .inr ⟨s, ⟨?_, obstacle_clear hnext, by omega, by omega, trivial, ?_⟩, by omega, rfl⟩
      · refine search_keeps (fun p q hp hq => ?_) le_rfl hs
        obtain ⟨j, -, rfl⟩ := Option.map_eq_some_iff.mp hq
        omega
      · intro t ht _ hrun
        obtain ⟨k, hkt, hk⟩ := hreach ht hrun
        rw [hs] at hk
        cases hk
        exact hkt

theorem allocateHuge2mb_takes (n : ℕ) (a : Allocator) :
    TakesFirst (fun r => n ≠ 0 ∧ n % 512 = 0 → 512 ∣ r) n a (allocateHuge2mb n a) := by
  rw [allocateHuge2mb]
  split
  next hn =>
    have hP (r : ℕ) : (n ≠ 0 ∧ n % 512 = 0 → 512 ∣ r) ↔ True :=
      iff_of_true (fun h => by omega) trivial
    simpa only [hP] using allocateContiguous_takes n a
  next hn =>
    have hP (r : ℕ) : (n ≠ 0 ∧ n % 512 = 0 → 512 ∣ r) ↔ 512 ∣ r :=
      ⟨fun h => h (by omega), fun h _ => h⟩
    simp only [hP]
    have hreach {t : ℕ} (ht : a.nextFreeBit ≤ t) (hdvd : 512 ∣ t) (hrun : RunAt a t n) :
        ∃ k ≤ t, search (fun i => decide (i+n ≤ a.totalFrames))
          (fun i => (obstacle a.bitmap i n).map fun _ => i+512)
          (a.totalFrames+1) ((a.nextFreeBit+511)/512*512) = some k := by
      have hstart : (a.nextFreeBit+511)/512*512 ≤ t := by omega
      refine @search_reaches _ _ _ _ (512 ∣ ·) t (fun p hp => ?_) ?_ ?_
        (Nat.dvd_mul_left 512 _) hstart ?_
      · have := hrun.1
        exact decide_eq_true (by omega)
      · rw [runAt_clear hrun]
        rfl
      · intro p q hp hpt hq
        obtain ⟨j, -, rfl⟩ := Option.map_eq_some_iff.mp hq
        exact ⟨Dvd.dvd.add hp (dvd_refl 512), by omega, by omega⟩
      · have := hrun.1
        omega
    split
    next hs =>
      refine .inl ⟨rfl, fun _ t ht hdvd hrun => ?_⟩
      obtain ⟨k, -, hk⟩ := hreach ht hdvd hrun
      rw [hs] at hk
      cases hk
    next s hs =>
      obtain ⟨hmore, hnext⟩ := search_some hs
      have hle : s+n ≤ a.totalFrames := of_decide_eq_true hmore
      have hmul : 512 ∣ s ∧ (a.nextFreeBit+511)/512*512 ≤ s := by
        refine @search_keeps _ _ _ _ (fun p => 512 ∣ p ∧ (a.nextFreeBit+511)/512*512 ≤ p) _
          (fun p q hp hq => ?_) ⟨Nat.dvd_mul_left 512 _, le_rfl⟩ hs
        obtain ⟨j, -, rfl⟩ := Option.map_eq_some_iff.mp hq
        exact ⟨Dvd.dvd.add hp.1 (dvd_refl 512), by omega⟩
      refine .inr ⟨s, ⟨by omega, obstacle_clear hnext, fun _ => hle, by omega, hmul.1, ?_⟩,
        by omega, rfl⟩
      intro t ht hdvd hrun
      obtain ⟨k, hkt, hk⟩ := hreach ht hdvd hrun
      rw [hs] at hk
      cases hk
      exact hkt

/-! ### Steps -/

structure Marks (a b : Allocator) : Prop where
  next : b.nextFreeBit = a.nextFreeBit
  total : b.totalFrames = a.totalFrames
  busy : ∀ i, a.bitmap i = true → b.bitmap i = true

theorem Marks.tight (h : Marks a b) (ha : Tight a) : Tight b := by
  intro i hi hlt ht
  rw [h.next] at hlt
  rw [h.total] at ht
  exact h.busy i (ha i hi hlt ht)

theorem marks_refl (a : Allocator) : Marks a a := ⟨rfl, rfl, fun _ h => h⟩

theorem reserveRange_marks (base len : ℕ) (a : Allocator) : Marks a (reserveRange base len a) := by
  refine ⟨?_, ?_, fun i hi => FrameReserve.reserveRange_busy base len hi⟩
  all_goals
    rw [reserveRange]
    split <;> rfl

theorem carve_marks (frames m i c : ℕ) (a : Allocator) : Marks a (carve frames m i c a).2 := by
  induction m generalizing i c a with
  | zero => exact marks_refl a
  | succ m ih =>
    rw [carve]
    split
    · split
      · exact ih (i+1) c a
      · obtain ⟨hn, ht, hb⟩ := ih (i+1) (c+1) { a with
          bitmap := mark a.bitmap i 1
          ptPoolBase := if c = 0 then i else a.ptPoolBase
          ptPool := if c/8 < ptPoolBitmapBytes then mark a.ptPool c 1 else a.ptPool }
        exact ⟨hn, ht, fun j hj => hb j (mark_iff.mpr (.inl hj))⟩
    · exact marks_refl a

theorem initPtPool_marks (frames : ℕ) (a : Allocator) : Marks a (initPtPool frames a).2 := by
  rw [initPtPool]
  have h := carve_marks frames (a.totalFrames-a.nextFreeBit) a.nextFreeBit 0 a
  exact ⟨h.next, h.total, h.busy⟩

theorem allocateBelow1mb_marks (a : Allocator) : Marks a (allocateBelow1mb a).2 := by
  have hmark (i : ℕ) : Marks a (take i 1 a) := ⟨rfl, rfl, fun j hj => mark_iff.mpr (.inl hj)⟩
  rw [allocateBelow1mb]
  split
  · exact hmark 64
  · split
    · exact marks_refl a
    next i _ => exact hmark i

theorem allocateFrame_tight (ha : Tight a) : Tight (allocateFrame a).2 := by
  obtain ⟨he, -⟩ | ⟨idx, -, h⟩ := allocateFrame_cases a
  · rw [he]
    exact ha
  · intro i hi hlt ht
    rw [h.next] at hlt
    rw [h.total] at ht
    rw [h.bitmap]
    refine mark_iff.mpr ?_
    by_cases hlow : i < a.nextFreeBit
    · exact .inl (ha i hi hlow ht)
    · by_cases hidx : i < idx
      · exact .inl (h.first i (by omega) hidx)
      · exact .inr ⟨by omega, hlt⟩

theorem deallocateFrame_tight (idx : ℕ) (ha : Tight a) : Tight (deallocateFrame idx a) := by
  rw [deallocateFrame]
  split
  · exact ha
  · split
    · exact ha
    · intro i hi hlt ht
      have hmin : i < min idx a.nextFreeBit := hlt
      have hout : clear a.bitmap idx 1 i = a.bitmap i := clear_outside (by omega)
      exact hout.trans (ha i hi (by omega) ht)

theorem takesFirst_tight {P : ℕ → Prop} {p : Option ℕ × Allocator} (ha : Tight a)
    (h : TakesFirst P n a p) (hn : n = 0 → ∀ f, P f) : Tight p.2 ↔ FirstFits P n a := by
  obtain ⟨rfl, hno⟩ | ⟨s, hs, hpos, rfl⟩ := h
  · refine iff_of_true ha fun r hr hP hrun f hf ht hfree => ?_
    rcases Nat.eq_zero_or_pos n with rfl | hpos
    · have hge : a.nextFreeBit ≤ f := by
        by_contra hlt
        rw [ha f hf (by omega) ht] at hfree
        cases hfree
      exact ⟨f, le_rfl, hge, hn rfl f, by omega, fun j h₁ h₂ => by omega⟩
    · exact absurd hrun (hno hpos r hr hP)
  · constructor
    · intro htight r hr hP hrun f hf ht hfree
      have hin : RunAt a s n := ⟨hs.inside (by have := hrun.1; omega), hs.clear⟩
      by_cases hsf : s ≤ f
      · exact ⟨s, hsf, hs.ge, hs.place, hin⟩
      · have hbusy := htight f hf (show f < s+n by omega) ht
        have hold : mark a.bitmap s n f = a.bitmap f := mark_outside (by omega)
        rw [show mark a.bitmap s n f = true from hbusy, hfree] at hold
        cases hold
    · intro hfits i hi hlt ht
      refine mark_iff.mpr ?_
      by_cases his : s ≤ i
      · exact .inr ⟨his, hlt⟩
      · left
        by_contra hfree
        have hshort := hs.short
        have hle : n ≤ a.totalFrames := by omega
        obtain ⟨r, hri, hr, hP, hrun⟩ := hfits s hs.ge hs.place ⟨hs.inside hle, hs.clear⟩ i hi ht
          (by simpa using hfree)
        have := hs.first r hr hP hrun
        omega

variable {w : World}

theorem step_tight_iff (op : Op) (ha : Tight w.alloc) : Tight (w.step op).alloc ↔ Snug w op := by
  have htrue (h : Tight (w.step op).alloc) : Tight (w.step op).alloc ↔ True := iff_of_true h trivial
  cases op with
  | reserveRange base len => exact htrue ((reserveRange_marks base len w.alloc).tight ha)
  | initPtPool frames => exact htrue ((initPtPool_marks frames w.alloc).tight ha)
  | allocateFrame => exact htrue (allocateFrame_tight ha)
  | allocateContiguous n =>
    exact takesFirst_tight ha (allocateContiguous_takes n w.alloc) fun _ _ => trivial
  | allocateHuge2mb n =>
    exact takesFirst_tight ha (allocateHuge2mb_takes n w.alloc) fun h _ hn => absurd h hn.1
  | allocateBelow1mb => exact htrue ((allocateBelow1mb_marks w.alloc).tight ha)
  | allocPtFrame =>
    refine htrue ?_
    show Tight (allocPtFrame w.alloc).2
    rw [allocPtFrame]
    split
    · exact ha
    · exact allocateFrame_tight ha
  | deallocateFrame idx => exact htrue (deallocateFrame_tight idx ha)
  | deallocPtFrame idx =>
    refine htrue ?_
    show Tight (deallocPtFrame idx w.alloc)
    rw [deallocPtFrame]
    split
    · exact ha
    · exact deallocateFrame_tight idx ha

/-! ### Runs -/

theorem thorough_of_tight (ha : Tight a) : Thorough a := by
  refine ⟨fun hnone i hi ht => ?_, fun n hn hnone r hr hrun => ?_⟩
  · obtain ⟨-, hbusy⟩ | ⟨idx, he, -⟩ := allocateFrame_cases a
    · by_cases hlt : i < a.nextFreeBit
      · exact ha i hi hlt ht
      · exact hbusy i (by omega) ht
    · rw [he] at hnone
      cases hnone
  · have hfree := hrun.2 r le_rfl (by omega)
    have hlt := hrun.1
    have hge : a.nextFreeBit ≤ r := by
      by_contra h
      rw [ha r hr (by omega) (by omega)] at hfree
      cases hfree
    obtain ⟨-, hno⟩ | ⟨s, -, -, he⟩ := allocateContiguous_takes n a
    · exact hno hn r hge trivial hrun
    · rw [he] at hnone
      cases hnone

def drain : ℕ → World → World
  | 0, w => w
  | m+1, w => drain m (w.step .allocateFrame)

theorem drain_tight (m : ℕ) (ha : Tight w.alloc) : Tight (drain m w).alloc := by
  induction m generalizing w with
  | zero => exact ha
  | succ m ih => exact ih (allocateFrame_tight ha)

theorem drain_none (w : World) {f : ℕ} (hf : f < w.alloc.nextFreeBit)
    (hfree : w.alloc.bitmap f = false) :
    ∃ m, (allocateFrame (drain m w).alloc).1 = none ∧ (drain m w).alloc.bitmap f = false ∧
      (drain m w).alloc.totalFrames = w.alloc.totalFrames := by
  -- each frame that is taken brings the hint nearer to the end
  induction hk : w.alloc.totalFrames-w.alloc.nextFreeBit using Nat.strong_induction_on
    generalizing w with
  | _ k ih =>
    obtain ⟨he, -⟩ | ⟨idx, -, h⟩ := allocateFrame_cases w.alloc
    · exact ⟨0, congrArg Prod.fst he, hfree, rfl⟩
    · have hge := h.ge
      have hlt := h.lt
      have hnext : (w.step .allocateFrame).alloc.nextFreeBit = idx+1 := h.next
      have htotal : (w.step .allocateFrame).alloc.totalFrames = w.alloc.totalFrames := h.total
      have hstill : (w.step .allocateFrame).alloc.bitmap f = false := by
        show (allocateFrame w.alloc).2.bitmap f = false
        rw [h.bitmap, mark_outside (by omega)]
        exact hfree
      obtain ⟨m, h₁, h₂, h₃⟩ := ih _ (by rw [hnext, htotal]; omega) (w.step .allocateFrame)
        (by omega) hstill rfl
      exact ⟨m+1, h₁, h₂, h₃.trans htotal⟩

theorem tight_iff_drain (w : World) : Tight w.alloc ↔ ∀ m, Thorough (drain m w).alloc := by
  constructor
  · intro ha m
    exact thorough_of_tight (drain_tight m ha)
  · intro h i hi hlt ht
    by_contra hfree
    obtain ⟨m, hnone, hstill, htotal⟩ := drain_none w hlt (by simpa using hfree)
    have hbusy := (h m).1 hnone i hi (by omega)
    rw [hstill] at hbusy
    cases hbusy

theorem start_tight {k : KernelImage} {ranges : List (ℕ × ℕ)} (h : start k ranges a = some w) :
    Tight w.alloc := by
  rw [start, initFromUsableRanges, Option.map_eq_some_iff] at h
  obtain ⟨b, hb, rfl⟩ := h
  rw [Option.bind_eq_bind, Option.bind_eq_some_iff] at hb
  obtain ⟨u, -, hb⟩ := hb
  obtain rfl := Option.some.inj hb
  refine (reserveRange_marks _ _ _).tight ?_
  have hfresh (c : Allocator) (hc : c.nextFreeBit = lowmemReserveFrames) : Tight c := by
    intro i hi hlt
    omega
  rw [reserveKernelImageInit]
  split
  · exact hfresh _ rfl
  · exact (reserveRange_marks _ _ _).tight (hfresh _ rfl)

/-- In every state of the run, and after further single frames from it, an allocation fails only
when there is nothing left. -/
def ThoroughAlong : World → List Op → Prop
  | w, [] => ∀ m, Thorough (drain m w).alloc
  | w, op::ops => (∀ m, Thorough (drain m w).alloc) ∧ ThoroughAlong (w.step op) ops

theorem thoroughAlong_head {ops : List Op} (h : ThoroughAlong w ops) : Tight w.alloc := by
  rw [tight_iff_drain]
  cases ops with
  | nil => exact h
  | cons op ops => exact h.1

theorem thoroughAlong_iff (ops : List Op) (ha : Tight w.alloc) :
    ThoroughAlong w ops ↔ Along Snug w ops := by
  induction ops generalizing w with
  | nil => exact iff_of_true ((tight_iff_drain w).mp ha) trivial
  | cons op ops ih =>
    rw [ThoroughAlong, Along]
    constructor
    · rintro ⟨-, h⟩
      have htight := thoroughAlong_head h
      exact ⟨(step_tight_iff op ha).mp htight, (ih htight).mp h⟩
    · rintro ⟨hsnug, h⟩
      exact ⟨(tight_iff_drain w).mp ha, (ih ((step_tight_iff op ha).mpr hsnug)).mpr h⟩

/-- The allocator loses no memory exactly while every run of frames is taken at the first free
frame. -/
theorem no_frame_lost_iff (k : KernelImage) (ranges : List (ℕ × ℕ)) (a : Allocator) (w : World)
    (h : start k ranges a = some w) (ops : List Op) :
    ThoroughAlong w ops ↔ Along Snug w ops :=
  thoroughAlong_iff ops (start_tight h)

theorem oneMegabyte_none_lost :
    ∃ w, start FrameReserve.noImage FrameReserve.oneMegabyte empty = some w ∧
    ThoroughAlong w [.allocateFrame, .deallocateFrame 256] := by
  refine ⟨_, rfl, ?_⟩
  exact (no_frame_lost_iff FrameReserve.noImage FrameReserve.oneMegabyte empty _ rfl _).mpr
    ⟨trivial, trivial, trivial⟩

/-- Frame 256 is given back, and then two frames are taken together: the search goes on after
frame 258, and nothing finds frame 256 again. -/
theorem skipped_frame_lost :
    ∃ w, start FrameReserve.noImage FrameReserve.oneMegabyte empty = some w ∧
    ¬ThoroughAlong w [.allocateFrame, .allocateFrame, .allocateFrame, .deallocateFrame 256,
      .allocateContiguous 2] := by
  refine ⟨_, rfl, fun h => ?_⟩
  obtain ⟨-, -, -, -, -, h⟩ := h
  have hbusy := (tight_iff_drain _).mpr h 256 le_rfl (by decide +kernel) (by decide +kernel)
  revert hbusy
  decide +kernel

end NeuralOs.Memory.FrameHint
