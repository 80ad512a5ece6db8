import NeuralOs.Lib.Fallible
import NeuralOs.Lib.ByteBlock

/-!
# The block device under a volume

Every request of the file system moves one 512-byte sector. A write request
fails if the address is past the end of the device or if the device is not
`working` for it. The accepted writes are kept in order, since a crash keeps a
prefix of them. A block is eight consecutive sectors.
-/

set_option autoImplicit false

namespace NeuralOs.NeuralFs.BlockDev

open ByteString ByteBlock Fallible

abbrev Sector := Block 512
abbrev Page := Block 4096

structure Disk where
  sectors : ℕ
  addressed : sectors < 2^64
  data : ℕ → Sector
  /-- Whether the device carries out its `n`-th write request. -/
  working : ℕ → Bool
  tries : ℕ
  log : List (ℕ × Sector)

def blankDisk (sectors : ℕ) (h : sectors < 2^64 := by decide) : Disk :=
  ⟨sectors, h, fun _ => Block.zero 512, fun _ => true, 0, []⟩

def readSector (d : Disk) (lba : ℕ) : Option Sector :=
  if lba < d.sectors then some (d.data lba) else none

def Disk.put (d : Disk) (lba : ℕ) (s : Sector) : Disk :=
  { d with
    data := Function.update d.data lba s
    tries := d.tries+1
    log := d.log ++ [(lba, s)] }

def writeSector (lba : ℕ) (s : Sector) : Act Disk Unit Unit where
  run d :=
    if lba < d.sectors ∧ d.working d.tries then (.ok (), d.put lba s)
    else (.error (), { d with tries := d.tries+1 })

def sectorOf (p : Page) (i : ℕ) : Sector := (Block.zero 512).put 0 (p.get (512*i) 512)

def Disk.pageAt (d : Disk) (lba : ℕ) : Page :=
  ⟨Block.joinBytes (fun i => d.data (lba+i)) 8, joinBytes_length _ 8⟩

def readPage (d : Disk) (lba : ℕ) : Option Page :=
  if (List.range 8).all fun i => lba+i < d.sectors then some (d.pageAt lba) else none

def writePage (lba : ℕ) (p : Page) : Act Disk Unit Unit :=
  Act.each (fun i => writeSector (lba+i) (sectorOf p i)) (List.range 8)

/-- An unchecked `u64` sum. -/
def u64 (n : ℕ) : ℕ := n % 2^64

def readWrapping (d : Disk) (lba : ℕ) : Option Page :=
  if (List.range 8).all fun i => u64 (lba+i) < d.sectors then
    some ⟨Block.joinBytes (fun i => d.data (u64 (lba+i))) 8, joinBytes_length _ 8⟩
  else none

def writeWrapping (lba : ℕ) (p : Page) : Act Disk Unit Unit :=
  Act.each (fun i => writeSector (u64 (lba+i)) (sectorOf p i)) (List.range 8)

def Disk.putSectors (d : Disk) (lba : ℕ) (p : Page) : ℕ → Disk
  | 0 => d
  | k+1 => (d.putSectors lba p k).put (lba+k) (sectorOf p k)

def Disk.putPage (d : Disk) (lba : ℕ) (p : Page) : Disk := d.putSectors lba p 8

/-! ## Sectors of a page -/

theorem sectorOf_bytes (p : Page) (i : ℕ) (h : i < 8) :
    (sectorOf p i).bytes = p.get (512*i) 512 := by
  have hl : (p.get (512*i) 512).length = 512 := get_length p _ _ (by omega)
  have hs := get_put_same (Block.zero 512) 0 (p.get (512*i) 512) (by omega)
  rwa [hl, get_whole] at hs

theorem pageAt_of_sectors (d : Disk) (lba : ℕ) (p : Page)
    (h : ∀ i < 8, d.data (lba+i) = sectorOf p i) : d.pageAt lba = p := by
  apply Block.ext
  have hj := joinBytes_part p (fun i => d.data (lba+i)) fun i (hi : i < 8) => by
    rw [h i hi, sectorOf_bytes p i hi]
  exact hj.trans (get_whole p)

theorem sectorOf_pageAt (d : Disk) (lba i : ℕ) (h : i < 8) :
    sectorOf (d.pageAt lba) i = d.data (lba+i) := by
  apply Block.ext
  rw [sectorOf_bytes _ _ h]
  exact get_joinBytes (fun i => d.data (lba+i)) h

variable {lba : ℕ}

theorem pageAt_congr {d e : Disk} (h : ∀ i < 8, d.data (lba+i) = e.data (lba+i)) :
    d.pageAt lba = e.pageAt lba := by
  apply pageAt_of_sectors
  intro i hi
  rw [h i hi, sectorOf_pageAt e lba i hi]

/-! ## Addresses that do not wrap -/

theorem u64_of_lt {n : ℕ} (h : n < 2^64) : u64 n = n := Nat.mod_eq_of_lt h

theorem readWrapping_of_lt (d : Disk) (h : lba+7 < 2^64) : readWrapping d lba = readPage d lba := by
  have hu : ∀ i < 8, u64 (lba+i) = lba+i := fun i hi => u64_of_lt (by omega)
  have hall : ((List.range 8).all fun i => u64 (lba+i) < d.sectors) =
      (List.range 8).all fun i => lba+i < d.sectors := by
    simp [List.range_succ, hu, u64_of_lt (show lba < 2^64 by omega)]
  have hdata : Block.joinBytes (fun i => d.data (u64 (lba+i))) 8 =
      Block.joinBytes (fun i => d.data (lba+i)) 8 :=
    joinBytes_congr fun i hi => by rw [hu i hi]
  simp only [readWrapping, readPage, Disk.pageAt, hall, hdata]

theorem writeWrapping_of_lt (p : Page) (h : lba+7 < 2^64) : writeWrapping lba p = writePage lba p :=
  each_congr fun i hi => by rw [u64_of_lt (by have := List.mem_range.mp hi; omega)]

/-! ## What accepted writes change -/

@[simp] theorem put_sectors (d : Disk) (lba : ℕ) (s : Sector) :
    (d.put lba s).sectors = d.sectors := rfl

@[simp] theorem put_data_same (d : Disk) (lba : ℕ) (s : Sector) : (d.put lba s).data lba = s :=
  Function.update_self _ _ _

theorem put_data_ne (d : Disk) (lba m : ℕ) (s : Sector) (h : m ≠ lba) :
    (d.put lba s).data m = d.data m := Function.update_of_ne h _ _

/-! ## Requests -/

def Reliable (d : Disk) : Prop := ∀ n, d.working n = true

theorem writeSector_ends (lba : ℕ) (s : Sector) (d : Disk) :
    Ends (writeSector lba s) d (fun _ e => e = d.put lba s ∧ lba < d.sectors)
      (fun _ e => e = { d with tries := d.tries+1 } ∧ ¬(lba < d.sectors ∧ d.working d.tries)) := by
  unfold Ends writeSector
  by_cases h : lba < d.sectors ∧ d.working d.tries
  · simp [h]
  · simp [h]

theorem readPage_some (d : Disk) {lba : ℕ} (h : lba+7 < d.sectors) :
    readPage d lba = some (d.pageAt lba) := by
  refine if_pos (List.all_eq_true.mpr fun i hi => ?_)
  have hi' := List.mem_range.mp hi
  simp
  omega

theorem readPage_none (d : Disk) (lba : ℕ) (h : 2^64 ≤ lba+7) : readPage d lba = none := by
  refine if_neg fun hall => ?_
  have h7 := List.all_eq_true.mp hall 7 (by simp)
  have := d.addressed
  simp at h7
  omega

end NeuralOs.NeuralFs.BlockDev

/-! ## Sequences of accepted writes -/

namespace NeuralOs.NeuralFs.BlockWrites
open Fallible BlockDev

def puts (d : Disk) (l : List (ℕ × Sector)) : Disk := l.foldl (fun d w => d.put w.1 w.2) d

variable {d e : Disk} {l m : List (ℕ × Sector)} {lba : ℕ} {s : Sector}

theorem puts_single : puts d [(lba, s)] = d.put lba s := rfl

theorem puts_cons : puts d ((lba, s)::l) = puts (d.put lba s) l := rfl

theorem puts_append : puts d (l++m) = puts (puts d l) m := List.foldl_append

@[simp] theorem puts_sectors : (puts d l).sectors = d.sectors := by
  induction l generalizing d with
  | nil => rfl
  | cons w l ih => exact ih

theorem put_reliable (lba : ℕ) (s : Sector) (h : Reliable d) : Reliable (d.put lba s) :=
  fun n => h n

theorem puts_reliable (h : Reliable d) : Reliable (puts d l) := by
  induction l generalizing d with
  | nil => exact h
  | cons w l ih => exact ih h

theorem puts_data_other (h : lba ∉ l.map Prod.fst) : (puts d l).data lba = d.data lba := by
  induction l generalizing d with
  | nil => rfl
  | cons w l ih =>
    simp only [List.map_cons, List.mem_cons, not_or] at h
    exact (ih h.2).trans (put_data_ne d w.1 lba w.2 h.1)

theorem puts_data_of_unique (h : (lba, s) ∈ l) (hs : ∀ w ∈ l, w.1 = lba → w.2 = s) :
    (puts d l).data lba = s := by
  induction l generalizing d with
  | nil => simp at h
  | cons w l ih =>
    by_cases hl : lba ∈ l.map Prod.fst
    · obtain ⟨v, hv, rfl⟩ := List.mem_map.mp hl
      have hvs := hs v (by simp [hv]) rfl
      exact ih (hvs ▸ hv) fun x hx => hs x (by simp [hx])
    · have hw : (lba, s) = w := (List.mem_cons.mp h).resolve_right fun hm =>
        hl (List.mem_map_of_mem hm)
      subst hw
      exact (puts_data_other hl).trans (put_data_same d lba s)

theorem puts_tries : (puts d l).tries = d.tries+l.length := by
  induction l generalizing d with
  | nil => rfl
  | cons w l ih =>
    rw [puts, List.foldl_cons, ← puts, ih, List.length_cons]
    simp only [Disk.put]
    omega

theorem puts_log : (puts d l).log = d.log ++ l := by
  induction l generalizing d with
  | nil => simp [puts]
  | cons w l ih =>
    rw [puts, List.foldl_cons, ← puts, ih]
    simp [Disk.put]

theorem puts_working : (puts d l).working = d.working := by
  induction l generalizing d with
  | nil => rfl
  | cons w l ih => exact ih

theorem puts_data_mem (hnodup : (l.map Prod.fst).Nodup) (h : (lba, s) ∈ l) :
    (puts d l).data lba = s := by
  induction l generalizing d with
  | nil => simp at h
  | cons w l ih =>
    obtain ⟨hw, hl⟩ := List.nodup_cons.mp hnodup
    rcases List.mem_cons.mp h with rfl | h
    · exact (puts_data_other hw).trans (put_data_same d lba s)
    · exact ih hl h

section each
variable {α ε : Type} {f : α → Act Disk ε Unit} {g : α → ℕ × Sector}

theorem each_run (xs : List α)
    (hf : ∀ x ∈ xs, ∀ e, Reliable e → e.sectors = d.sectors →
      (f x).run e = (.ok (), e.put (g x).1 (g x).2)) (hr : Reliable d) :
    (Act.each f xs).run d = (.ok (), puts d (xs.map g)) := by
  induction xs generalizing d with
  | nil => rfl
  | cons x xs ih =>
    rw [Act.each, run_bind_ok (hf x (by simp) d hr rfl)]
    exact ih (fun y hy e he hs => hf y (by simp [hy]) e he hs) hr

end each

theorem writes_ends (l : List (ℕ × Sector)) (d : Disk) :
    Ends (Act.each (fun w => writeSector w.1 w.2) l) d
      (fun _ e => e = puts d l ∧ ∀ w ∈ l, w.1 < d.sectors)
      (fun _ e => ∃ k, ∃ h : k < l.length,
        e = { puts d (l.take k) with tries := d.tries+k+1 } ∧
          ¬(l[k].1 < d.sectors ∧ d.working (d.tries+k))) := by
  refine ends_each (fun done e => e = puts d done ∧ ∀ w ∈ done, w.1 < d.sectors) l ⟨rfl, by simp⟩ ?_
  rintro done w rest t rfl ⟨rfl, hin⟩
  refine ends_mono (writeSector_ends w.1 w.2 _) ?_ ?_
  · rintro _ e ⟨rfl, hw⟩
    rw [puts_sectors] at hw
    refine ⟨by rw [puts_append, puts_single], fun v hv => ?_⟩
    rcases List.mem_append.mp hv with hv | hv
    · exact hin v hv
    · rw [List.mem_singleton.mp hv]
      exact hw
  · rintro _ e ⟨rfl, hw⟩
    refine ⟨done.length, by simp, ?_, ?_⟩
    · simp [puts_tries]
    · simpa [puts_tries, puts_working] using hw

theorem writeSector_run (hr : Reliable d) (h : lba < d.sectors) :
    (writeSector lba s).run d = (.ok (), d.put lba s) := if_pos ⟨h, hr _⟩

theorem orFail_run {ε : Type} {x : ε} (hr : Reliable d) (h : lba < d.sectors) :
    ((writeSector lba s).orFail x).run d = (.ok (), d.put lba s) := by
  rw [Act.orFail, Act.catching]
  simp only [writeSector_run hr h]

/-! ## Writing a page -/

def pageWrites (lba : ℕ) (p : Page) : List (ℕ × Sector) :=
  (List.range 8).map fun i => (lba+i, sectorOf p i)

theorem pageWrites_take (lba : ℕ) (p : Page) (k : ℕ) :
    (pageWrites lba p).take k = (List.range (min k 8)).map fun i => (lba+i, sectorOf p i) := by
  rw [pageWrites, ← List.map_take, List.take_range]

theorem writePage_eq (lba : ℕ) (p : Page) :
    writePage lba p = Act.each (fun w => writeSector w.1 w.2) (pageWrites lba p) :=
  (each_map _ _).symm

theorem putSectors_eq (d : Disk) (lba : ℕ) (p : Page) (k : ℕ) :
    d.putSectors lba p k = puts d ((List.range k).map fun i => (lba+i, sectorOf p i)) := by
  induction k with
  | zero => rfl
  | succ k ih => rw [Disk.putSectors, ih, List.range_succ, List.map_append, puts_append]; rfl

theorem putSectors_data (d : Disk) (lba : ℕ) (p : Page) (k m : ℕ) :
    (d.putSectors lba p k).data m =
      if lba ≤ m ∧ m < lba+k then sectorOf p (m-lba) else d.data m := by
  induction k with
  | zero => simp [Disk.putSectors]
  | succ k ih =>
    simp only [Disk.putSectors, Disk.put, Function.update_apply, ih]
    by_cases hm : m = lba+k
    · subst hm
      simp
    · have hiff : (lba ≤ m ∧ m < lba+(k+1)) ↔ (lba ≤ m ∧ m < lba+k) := by omega
      simp [hm, hiff]

@[simp] theorem putPage_sectors (d : Disk) (lba : ℕ) (p : Page) :
    (d.putPage lba p).sectors = d.sectors := by
  rw [Disk.putPage, putSectors_eq, puts_sectors]

@[simp] theorem putPage_working (d : Disk) (lba : ℕ) (p : Page) :
    (d.putPage lba p).working = d.working := by
  rw [Disk.putPage, putSectors_eq, puts_working]

theorem putPage_data (d : Disk) (lba : ℕ) (p : Page) (m : ℕ) (h : m < lba ∨ lba+8 ≤ m) :
    (d.putPage lba p).data m = d.data m := by
  rw [Disk.putPage, putSectors_data, if_neg (by omega)]

theorem pageAt_putPage (d : Disk) (lba : ℕ) (p : Page) : (d.putPage lba p).pageAt lba = p := by
  apply pageAt_of_sectors
  intro i hi
  rw [Disk.putPage, putSectors_data, if_pos (by omega), Nat.add_sub_cancel_left]

theorem pageAt_putPage_ne {d : Disk} {lba m : ℕ} {p : Page} (h : m+8 ≤ lba ∨ lba+8 ≤ m) :
    (d.putPage lba p).pageAt m = d.pageAt m := by
  apply pageAt_congr
  intro i hi
  exact putPage_data d lba p (m+i) (by omega)

theorem writePage_ends (lba : ℕ) (p : Page) (d : Disk) :
    Ends (writePage lba p) d (fun _ e => e = d.putPage lba p ∧ lba+7 < d.sectors)
      (fun _ e => ∃ k < 8, e = { d.putSectors lba p k with tries := d.tries+k+1 } ∧
        ¬(lba+k < d.sectors ∧ d.working (d.tries+k))) := by
  rw [writePage_eq]
  refine ends_mono (writes_ends _ d) ?_ ?_
  · rintro - e ⟨rfl, hin⟩
    exact ⟨(putSectors_eq d lba p 8).symm, hin (lba+7, sectorOf p 7) (by simp [pageWrites])⟩
  · rintro - e ⟨k, hk, rfl, hn⟩
    have hk8 : k < 8 := by simpa [pageWrites] using hk
    refine ⟨k, hk8, ?_, by simpa [pageWrites] using hn⟩
    rw [pageWrites_take, min_eq_left hk8.le, putSectors_eq]

theorem writePage_reliable (lba : ℕ) (p : Page) (d : Disk) (hr : Reliable d)
    (h : lba+7 < d.sectors) : (writePage lba p).run d = (.ok (), d.putPage lba p) := by
  obtain ⟨_, e, he, hq, -⟩ := ends_value (writePage_ends lba p d) fun _ _ hx => by
    obtain ⟨k, hk, -, hn⟩ := hx
    exact hn ⟨by omega, hr _⟩
  rw [he, hq]

/-! ## Regions -/

/-- `e` comes from `d` by accepted writes in the region; a crash keeps some of the first. -/
structure Within (R : ℕ → Prop) (d e : Disk) : Prop where
  data : ∀ lba, ¬R lba → e.data lba = d.data lba
  log : ∃ ws, e.log = d.log ++ ws ∧ ∀ w ∈ ws, R w.1

variable {R : ℕ → Prop}

theorem Within.refl (d : Disk) : Within R d d := ⟨fun _ _ => rfl, [], by simp, by simp⟩

theorem Within.put (h : Within R d e) (hl : R lba) : Within R d (e.put lba s) := by
  obtain ⟨ws, hlog, hws⟩ := h.log
  refine ⟨fun m hm => ?_, ws ++ [(lba, s)], ?_, ?_⟩
  · have hne : m ≠ lba := fun he => hm (he ▸ hl)
    rw [put_data_ne e lba m s hne, h.data m hm]
  · rw [Disk.put, hlog, List.append_assoc]
  · intro w hw
    rcases List.mem_append.mp hw with hw | hw
    · exact hws w hw
    · rw [List.mem_singleton.mp hw]
      exact hl

theorem puts_within (hl : ∀ w ∈ l, R w.1) : Within R d (puts d l) := by
  refine ⟨fun m hm => puts_data_other fun hmem => ?_, l, puts_log, hl⟩
  obtain ⟨w, hw, rfl⟩ := List.mem_map.mp hmem
  exact hm (hl w hw)

theorem writeSector_within (hl : R lba) : Keeps (Within R d) (writeSector lba s) := by
  intro e he
  rw [writeSector]
  dsimp only
  split
  · exact he.put hl
  · exact ⟨he.data, he.log⟩

theorem writePage_within {p : Page} (hl : ∀ i < 8, R (lba+i)) :
    Keeps (Within R d) (writePage lba p) :=
  keeps_each _ fun i hi => writeSector_within (hl i (List.mem_range.mp hi))

end NeuralOs.NeuralFs.BlockWrites
