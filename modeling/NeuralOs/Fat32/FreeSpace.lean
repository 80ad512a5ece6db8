import NeuralOs.Lib.Checked

/-!
# Free space between partitions

`find_free_space` sorts the partitions by their first sector and looks for the
largest gap. Ends are 32-bit sums of untrusted table entries, and a gap that
ends at a partition is taken whether or not that partition is on the disk.
-/

set_option autoImplicit false

namespace NeuralOs.Fat32.FreeSpace
open ByteString Checked

structure Partition where
  bootable : Bool
  typeCode : UInt8
  lbaStart : UInt32
  sectorCount : UInt32
  deriving DecidableEq

def tableEntry (mbr : Vector UInt8 512) (i : Fin 4) : Option Partition :=
  let byte (k : Fin 16) : UInt8 := mbr.get ⟨0x1BE+i.val*16+k.val, by omega⟩
  let word (k : Fin 13) : UInt32 :=
    .ofNat (fromLe [byte ⟨k, by omega⟩, byte ⟨k+1, by omega⟩, byte ⟨k+2, by omega⟩,
      byte ⟨k+3, by omega⟩])
  if byte 4 = 0 then none else some ⟨byte 0 == 0x80, byte 4, word 8, word 12⟩

def parseMbrSector (mbr : Vector UInt8 512) : List Partition :=
  if mbr.get 0x1FE ≠ 0x55 ∨ mbr.get 0x1FF ≠ 0xAA then []
  else (List.finRange 4).filterMap (tableEntry mbr)

def Partition.span (p : Partition) : Run (ℕ × ℕ) :=
  let last := p.lbaStart.toNat+p.sectorCount.toNat
  if last < 2^32 then .ok (p.lbaStart.toNat, last) else .error .panic

structure Gaps where
  current : ℕ
  bestStart : ℕ
  bestSize : ℕ
  deriving DecidableEq

def Gaps.offer (g : Gaps) (gap : ℕ) : Gaps :=
  if gap > g.bestSize then { g with bestSize := gap, bestStart := g.current } else g

def Gaps.pass (g : Gaps) (d : ℕ × ℕ) : Gaps :=
  let g := if d.1 > g.current then g.offer (d.1-g.current) else g
  { g with current := max g.current d.2 }

def findFreeSpace (parts : List Partition) (totalSectors : UInt64) : Run (ℕ × ℕ) := do
  let occupied ← parts.mapM Partition.span
  let g := (occupied.insertionSort (·.1 ≤ ·.1)).foldl Gaps.pass ⟨64, 0, 0⟩
  let g := g.offer (totalSectors.toNat%2^32-g.current)
  .ok (if g.bestSize < 2048 then (0, 0) else (g.bestStart, g.bestSize))

/-! ### Gaps -/

def reach (l : List (ℕ × ℕ)) (x : ℕ) : ℕ :=
  (l.filter (·.1 < x)).foldr (fun d m => max d.2 m) 64

theorem reach_le {l : List (ℕ × ℕ)} {x y : ℕ} :
    reach l x ≤ y ↔ 64 ≤ y ∧ ∀ d ∈ l, d.1 < x → d.2 ≤ y := by
  induction l with
  | nil => simp [reach]
  | cons d l ih =>
    by_cases h : d.1 < x
    · rw [reach, List.filter_cons_of_pos (by simpa using h), List.foldr_cons, max_le_iff]
      change d.2 ≤ y ∧ reach l x ≤ y ↔ _
      rw [ih]
      simp only [List.forall_mem_cons, h, true_implies]
      tauto
    · rw [reach, List.filter_cons_of_neg (by simpa using h)]
      change reach l x ≤ y ↔ _
      rw [ih]
      simp [h]

theorem reach_congr {l m : List (ℕ × ℕ)} (h : ∀ d, d ∈ l ↔ d ∈ m) (x : ℕ) :
    reach l x = reach m x := by
  apply le_antisymm <;> rw [reach_le]
  · have := reach_le.mp (le_refl (reach m x))
    exact ⟨this.1, fun d hd => this.2 d ((h d).mp hd)⟩
  · have := reach_le.mp (le_refl (reach l x))
    exact ⟨this.1, fun d hd => this.2 d ((h d).mpr hd)⟩

def gapBefore (l : List (ℕ × ℕ)) (d : ℕ × ℕ) : ℕ := d.1-reach l d.1

/-- What the scan knows after the spans `done` of the sorted list `l`: the best gap is the
first of the largest ones. -/
structure Scanned (l done : List (ℕ × ℕ)) (g : Gaps) : Prop where
  current : ∀ y, g.current ≤ y ↔ 64 ≤ y ∧ ∀ d ∈ done, d.2 ≤ y
  largest : ∀ d ∈ done, gapBefore l d ≤ g.bestSize
  best : g.bestSize = 0 ∨ ∃ d ∈ done, g.bestSize = gapBefore l d ∧ g.bestStart = reach l d.1 ∧
    ∀ d' ∈ done, d'.1 < d.1 → gapBefore l d' < g.bestSize

variable {l done rest : List (ℕ × ℕ)} {d : ℕ × ℕ} {g : Gaps}

theorem current_pass : (g.pass d).current = max g.current d.2 := by
  simp only [Gaps.pass, Gaps.offer]
  split <;> [split; skip] <;> rfl

theorem reach_current (hl : l = done ++ d::rest) (hsort : l.Pairwise (·.1 ≤ ·.1))
    (h : Scanned l done g) (hlow : ∀ c ∈ done, c.1 < d.1) : reach l d.1 = g.current := by
  subst hl
  have hrest := (List.pairwise_cons.mp (List.pairwise_append.mp hsort).2.1).1
  have hiff : ∀ y, reach (done ++ d::rest) d.1 ≤ y ↔ g.current ≤ y := by
    intro y
    rw [reach_le, h.current]
    constructor
    · exact fun hy => ⟨hy.1, fun c hc => hy.2 c (by simp [hc]) (hlow c hc)⟩
    refine fun hy => ⟨hy.1, fun c hc hlt => ?_⟩
    rcases List.mem_append.mp hc with hc | hc
    · exact hy.2 c hc
    · rcases List.mem_cons.mp hc with rfl | hc
      · omega
      · have := hrest c hc
        omega
  exact le_antisymm ((hiff _).mpr le_rfl) ((hiff _).mp le_rfl)

theorem pass_scanned (hl : l = done ++ d::rest) (hsort : l.Pairwise (·.1 ≤ ·.1))
    (hspan : ∀ c ∈ l, c.1 ≤ c.2) (h : Scanned l done g) :
    Scanned l (done ++ [d]) (g.pass d) := by
  have hbefore : ∀ c ∈ done, c.1 ≤ d.1 := fun c hc =>
    (List.pairwise_append.mp (hl ▸ hsort)).2.2 c hc d (by simp)
  have hends : ∀ c ∈ done, c.2 ≤ g.current := ((h.current _).mp le_rfl).2
  have hcurrent : ∀ y, (g.pass d).current ≤ y ↔ 64 ≤ y ∧ ∀ c ∈ done ++ [d], c.2 ≤ y := by
    intro y
    rw [current_pass, max_le_iff, h.current]
    simp only [List.forall_mem_append, List.forall_mem_singleton]
    tauto
  -- the best gap so far starts no later than `d`, so `d` does not come before it
  have hkeep : gapBefore l d ≤ g.bestSize → (g.pass d).bestSize = g.bestSize →
      (g.pass d).bestStart = g.bestStart → Scanned l (done ++ [d]) (g.pass d) := by
    intro hgap hsize hstart
    refine ⟨hcurrent, ?_, ?_⟩
    · rw [hsize]
      exact List.forall_mem_append.mpr ⟨h.largest, List.forall_mem_singleton.mpr hgap⟩
    rw [hsize, hstart]
    refine h.best.imp_right ?_
    rintro ⟨c, hc, hbest, hreach, hfirst⟩
    refine ⟨c, by simp [hc], hbest, hreach, fun c' hc' hlt => ?_⟩
    rcases List.mem_append.mp hc' with hc' | hc'
    · exact hfirst c' hc' hlt
    · rw [List.mem_singleton.mp hc'] at hlt
      have := hbefore c hc
      omega
  by_cases hgap : d.1 > g.current
  · have hlow : ∀ c ∈ done, c.1 < d.1 := by
      intro c hc
      have h₁ := hspan c (by simp [hl, hc])
      have h₂ := hends c hc
      omega
    have hsize : gapBefore l d = d.1-g.current := by
      rw [gapBefore, reach_current hl hsort h hlow]
    by_cases hbig : d.1-g.current > g.bestSize
    · have hpass : g.pass d = ⟨max g.current d.2, g.current, d.1-g.current⟩ := by
        simp [Gaps.pass, Gaps.offer, hgap, hbig]
      refine ⟨hcurrent, ?_, .inr ⟨d, by simp, ?_, ?_, ?_⟩⟩
      · rw [hpass]
        refine List.forall_mem_append.mpr ⟨fun c hc => ?_, List.forall_mem_singleton.mpr hsize.le⟩
        exact (h.largest c hc).trans hbig.le
      · rw [hpass, hsize]
      · rw [hpass, reach_current hl hsort h hlow]
      rw [hpass]
      intro c hc hlt
      rcases List.mem_append.mp hc with hc | hc
      · have := h.largest c hc
        simp only
        omega
      · rw [List.mem_singleton.mp hc] at hlt
        omega
    · refine hkeep (by omega) ?_ ?_ <;> simp [Gaps.pass, Gaps.offer, hgap, hbig]
  · refine hkeep ?_ (by simp [Gaps.pass, hgap]) (by simp [Gaps.pass, hgap])
    by_cases htie : ∃ c ∈ done, c.1 = d.1
    · obtain ⟨c, hc, he⟩ := htie
      have := h.largest c hc
      rwa [gapBefore, he, ← gapBefore] at this
    have hlow : ∀ c ∈ done, c.1 < d.1 := by
      intro c hc
      have h₁ := hbefore c hc
      have h₂ : c.1 ≠ d.1 := fun he => htie ⟨c, hc, he⟩
      omega
    rw [gapBefore, reach_current hl hsort h hlow]
    omega

theorem scan_scanned (hl : l = done ++ rest) (hsort : l.Pairwise (·.1 ≤ ·.1))
    (hspan : ∀ c ∈ l, c.1 ≤ c.2) (h : Scanned l done g) :
    Scanned l l (rest.foldl Gaps.pass g) := by
  induction rest generalizing done g with
  | nil =>
    rw [List.append_nil] at hl
    exact hl ▸ h
  | cons d rest ih =>
    exact ih (by simp [hl]) (pass_scanned hl hsort hspan h)

/-! ### The result -/

def Partition.first (p : Partition) : ℕ := p.lbaStart.toNat

def Partition.last (p : Partition) : ℕ := p.lbaStart.toNat+p.sectorCount.toNat

/-- The spans of the partitions, added without a bound. -/
def spans (parts : List Partition) : List (ℕ × ℕ) := parts.map fun p => (p.first, p.last)

/-- Nothing is proposed, or at least 2048 sectors that are on the disk, past the boot
sectors and in no partition. -/
def Unoccupied (parts : List Partition) (totalSectors : UInt64) (r : ℕ × ℕ) : Prop :=
  r = (0, 0) ∨ (2048 ≤ r.2 ∧ 64 ≤ r.1 ∧ r.1+r.2 ≤ totalSectors.toNat ∧
    ∀ p ∈ parts, ∀ x, p.first ≤ x → x < p.last → ¬(r.1 ≤ x ∧ x < r.1+r.2))

variable {parts : List Partition}

theorem span_of_lt {p : Partition} (h : p.last < 2^32) : p.span = .ok (p.first, p.last) :=
  if_pos h

theorem mapM_span (h : ∀ p ∈ parts, p.last < 2^32) :
    parts.mapM Partition.span = .ok (spans parts) := by
  induction parts with
  | nil => rfl
  | cons p parts ih =>
    rw [List.mapM_cons, span_of_lt (h p (by simp)), ok_bind, ih fun q hq => h q (by simp [hq])]
    rfl

theorem mapM_span_panic (h : ∃ p ∈ parts, 2^32 ≤ p.last) :
    parts.mapM Partition.span = .error .panic := by
  induction parts with
  | nil => simp at h
  | cons p parts ih =>
    rw [List.mapM_cons]
    by_cases hp : p.last < 2^32
    · have hrest : ∃ q ∈ parts, 2^32 ≤ q.last := by
        obtain ⟨q, hq, hlast⟩ := h
        rcases List.mem_cons.mp hq with rfl | hq
        · omega
        · exact ⟨q, hq, hlast⟩
      rw [span_of_lt hp, ok_bind, ih hrest]
      rfl
    · have : p.span = .error .panic := if_neg hp
      rw [this]
      rfl

def scan (parts : List Partition) : Gaps :=
  ((spans parts).insertionSort (·.1 ≤ ·.1)).foldl Gaps.pass ⟨64, 0, 0⟩

theorem findFreeSpace_eq (h : ∀ p ∈ parts, p.last < 2^32) (totalSectors : UInt64) :
    findFreeSpace parts totalSectors =
      .ok (let g := (scan parts).offer (totalSectors.toNat%2^32-(scan parts).current)
        if g.bestSize < 2048 then (0, 0) else (g.bestStart, g.bestSize)) := by
  rw [findFreeSpace, mapM_span h, ok_bind]
  rfl

theorem scanned_start (l : List (ℕ × ℕ)) : Scanned l [] ⟨64, 0, 0⟩ := by
  constructor <;> simp

theorem scan_spec (parts : List Partition) : Scanned (spans parts) (spans parts) (scan parts) := by
  have hmem : ∀ d, d ∈ (spans parts).insertionSort (·.1 ≤ ·.1) ↔ d ∈ spans parts := fun d =>
    List.mem_insertionSort _
  have hspan : ∀ c ∈ (spans parts).insertionSort (·.1 ≤ ·.1), c.1 ≤ c.2 := by
    intro c hc
    obtain ⟨p, -, rfl⟩ := List.mem_map.mp ((hmem c).mp hc)
    exact Nat.le_add_right _ _
  have hsort : ((spans parts).insertionSort (·.1 ≤ ·.1)).Pairwise (·.1 ≤ ·.1) :=
    List.pairwise_insertionSort _ _
  have h := scan_scanned (List.nil_append _).symm hsort hspan (scanned_start _)
  have hgap : gapBefore ((spans parts).insertionSort (·.1 ≤ ·.1)) = gapBefore (spans parts) := by
    funext d
    rw [gapBefore, gapBefore, reach_congr hmem]
  refine ⟨fun y => ?_, fun d hd => ?_, ?_⟩
  · rw [scan, h.current]
    simp only [hmem]
  · rw [← hgap]
    exact h.largest d ((hmem d).mpr hd)
  · have := h.best
    simp only [hmem, hgap, reach_congr hmem] at this
    exact this

theorem gap_free {d : ℕ × ℕ} {p : Partition} (hp : p ∈ parts) {x : ℕ} (h₁ : p.first ≤ x)
    (h₂ : x < p.last) : ¬(reach (spans parts) d.1 ≤ x ∧ x < d.1) := by
  rintro ⟨hreach, hlt⟩
  have hmem : (p.first, p.last) ∈ spans parts := List.mem_map.mpr ⟨p, hp, rfl⟩
  have := (reach_le.mp (le_refl (reach (spans parts) d.1))).2 _ hmem (by simp only; omega)
  simp only at this
  omega

theorem final_unoccupied {totalSectors : UInt64} {gap : ℕ}
    (hgap : gap = totalSectors.toNat%2^32-(scan parts).current) (hbig : 2048 ≤ gap) :
    Unoccupied parts totalSectors ((scan parts).current, gap) := by
  have hcurrent := ((scan_spec parts).current _).mp le_rfl
  have hmod := Nat.mod_le totalSectors.toNat (2^32)
  refine .inr ⟨hbig, hcurrent.1, ?_, fun p hp x _ h₂ hx => ?_⟩
  · simp only
    omega
  · have := hcurrent.2 (p.first, p.last) (List.mem_map.mpr ⟨p, hp, rfl⟩)
    simp only at this hx
    omega

theorem gap_unoccupied {totalSectors : UInt64} {d : ℕ × ℕ}
    (hbig : 2048 ≤ gapBefore (spans parts) d) :
    Unoccupied parts totalSectors (reach (spans parts) d.1, gapBefore (spans parts) d) ↔
      d.1 ≤ totalSectors.toNat := by
  have hsum : reach (spans parts) d.1+gapBefore (spans parts) d = d.1 := by
    rw [gapBefore] at hbig ⊢
    omega
  constructor
  · rintro (h | h)
    · rw [Prod.mk.injEq] at h
      omega
    · have := h.2.2.1
      simp only [hsum] at this
      exact this
  · intro hd
    refine .inr ⟨hbig, (reach_le.mp le_rfl).1, by simpa only [hsum] using hd, ?_⟩
    intro p hp x h₁ h₂
    simp only [hsum]
    exact gap_free hp h₁ h₂

theorem first_le_current {d : ℕ × ℕ} (hd : d ∈ spans parts) : d.1 ≤ (scan parts).current := by
  have hend := (((scan_spec parts).current _).mp le_rfl).2 d hd
  obtain ⟨p, -, rfl⟩ := List.mem_map.mp hd
  exact (Nat.le_add_right _ _).trans hend

theorem findFreeSpace_iff (parts : List Partition) (totalSectors : UInt64) :
    (∃ r, findFreeSpace parts totalSectors = .ok r ∧ Unoccupied parts totalSectors r) ↔
      (∀ p ∈ parts, p.last < 2^32) ∧
        ∀ d ∈ spans parts, totalSectors.toNat < d.1 → 2048 ≤ gapBefore (spans parts) d →
          ∃ c ∈ spans parts, c.1 ≤ totalSectors.toNat ∧
            gapBefore (spans parts) d ≤ gapBefore (spans parts) c := by
  have hscan := scan_spec parts
  by_cases hlast : ∀ p ∈ parts, p.last < 2^32
  swap
  · have hpanic : findFreeSpace parts totalSectors = .error .panic := by
      rw [findFreeSpace, mapM_span_panic (by simpa using hlast)]
      rfl
    simp only [hpanic, hlast, false_and, iff_false]
    rintro ⟨r, hr, -⟩
    cases hr
  rw [findFreeSpace_eq hlast, and_iff_right hlast]
  simp only [Except.ok.injEq, exists_eq_left']
  have hmod := Nat.mod_le totalSectors.toNat (2^32)
  by_cases hfinal : totalSectors.toNat%2^32-(scan parts).current > (scan parts).bestSize
  · -- the disk goes on after the last partition, so no partition starts past its end
    simp only [Gaps.offer, hfinal, if_true]
    constructor
    · intro _ d hd hpast _
      have := first_le_current hd
      omega
    · intro _
      split
      · exact .inl rfl
      · exact final_unoccupied rfl (by omega)
  simp only [Gaps.offer, hfinal, if_false]
  by_cases hsmall : (scan parts).bestSize < 2048
  · simp only [hsmall, if_true]
    constructor
    · intro _ d hd _ hbig
      have := hscan.largest d hd
      omega
    · exact fun _ => .inl rfl
  simp only [hsmall, if_false]
  obtain hzero | ⟨d, hd, hsize, hstart, hfirst⟩ := hscan.best
  · omega
  rw [hsize, hstart, gap_unoccupied (by omega)]
  constructor
  · intro hon c hc _ _
    exact ⟨d, hd, hon, hsize ▸ hscan.largest c hc⟩
  · intro hcond
    by_contra hpast
    obtain ⟨c, hc, hon, hle⟩ := hcond d hd (by omega) (by omega)
    have := hfirst c hc (by omega)
    omega

def mbrBytes (lba count : UInt32) : Bytes :=
  zeros 446 ++ [0, 0, 0, 0, 0xEE, 0, 0, 0] ++ toLe 4 lba.toNat ++ toLe 4 count.toNat ++
    zeros 48 ++ [0x55, 0xAA]

theorem mbrBytes_size (lba count : UInt32) : (mbrBytes lba count).toArray.size = 512 := by
  simp [mbrBytes, toLe_length]

def mbrWith (lba count : UInt32) : Vector UInt8 512 := ⟨_, mbrBytes_size lba count⟩

theorem protective_overflows :
    findFreeSpace (parseMbrSector (mbrWith 1 0xFFFFFFFF)) 0x100000000 = .error .panic ∧
      findFreeSpace (parseMbrSector (mbrWith 10000 100)) 5000 = .ok (64, 9936) := by
  decide +kernel

end NeuralOs.Fat32.FreeSpace
