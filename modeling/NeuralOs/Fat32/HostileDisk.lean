import NeuralOs.Lib.ByteBlock
import NeuralOs.Fat32.FreeSpace

/-!
# Hostile disks

When the walk of `resolve_fat_file_sectors` is safe: the FAT entries it comes to
lie in the 512 bytes that are read of their sectors, and a chain that is long
enough does not come back to a cluster, nor to a sector number in 32 bits.
-/

set_option autoImplicit false

namespace NeuralOs.Fat32.FileSectors
open ByteString ByteBlock Checked
open FreeSpace (Partition)

/-- The content of a block device: what a request for so many bytes from an LBA on returns. -/
abbrev Disk := ℕ → (n : ℕ) → Option (Block n)

structure Volume where
  fatLba : ℕ
  dataLba : ℕ
  bps : ℕ
  spc : ℕ
  rootCluster : ℕ
  bps_range : 512 ≤ bps ∧ bps ≤ 4096
  bps_entries : bps % 32 = 0
  spc_pos : 0 < spc

def exfat : Bytes := [0x45, 0x58, 0x46, 0x41, 0x54, 0x20, 0x20, 0x20]

def Fat32Bpb (bpb : Block 512) : Prop :=
  bpb.get 3 8 ≠ exfat ∧ bpb.getLe 0x11 2 = 0 ∧
    (512 ≤ bpb.getLe 0x0B 2 ∧ bpb.getLe 0x0B 2 ≤ 4096) ∧ bpb.getLe 0x0B 2 % 32 = 0 ∧
    0 < bpb.getLe 0x0D 1

instance decidableFat32Bpb (bpb : Block 512) : Decidable (Fat32Bpb bpb) := by
  unfold Fat32Bpb
  infer_instance

def volumeOf (partLba : ℕ) (bpb : Block 512) (h : Fat32Bpb bpb) : Volume where
  fatLba := partLba+bpb.getLe 0x0E 2
  dataLba := partLba+bpb.getLe 0x0E 2+bpb.getLe 0x10 1*bpb.getLe 0x24 4
  bps := bpb.getLe 0x0B 2
  spc := bpb.getLe 0x0D 1
  rootCluster := bpb.getLe 0x2C 4
  bps_range := h.2.2.1
  bps_entries := h.2.2.2.1
  spc_pos := h.2.2.2.2

def dataTypes : List UInt8 := [0x0B, 0x0C, 0x1C, 0x73, 0xEF]

def volumeAt (rd : Disk) (p : Partition) : Option Volume :=
  if dataTypes.contains p.typeCode then
    match rd p.lbaStart.toNat 512 with
    | none => none
    | some bpb => if h : Fat32Bpb bpb then some (volumeOf p.lbaStart.toNat bpb h) else none
  else none

def isData (c : ℕ) : Bool := decide (2 ≤ c) && decide (c < 0x0FFFFFF8)

def leAt (b : Bytes) (i n : ℕ) : Run ℕ := do
  let d ← sub b i (i+n)
  return fromLe d

def fatSector (rd : Disk) (v : Volume) (c : ℕ) : Option (Block 512) :=
  rd (v.fatLba+c*4/v.bps) 512

def fatEntry (rd : Disk) (v : Volume) (c : ℕ) : Run (Option ℕ) :=
  match fatSector rd v c with
  | none => return none
  | some sec => do
    let e ← leAt sec.bytes (c*4%v.bps) 4
    return some (e % 2^28)

def readDir (rd : Disk) (v : Volume) (c : ℕ) : ℕ → Option Bytes
  | 0 => some []
  | n+1 =>
    match readDir rd v c n with
    | none => none
    | some b =>
      match rd (v.dataLba+(c-2)*v.spc+n) v.bps with
      | none => none
      | some s => some (b ++ s.bytes)

/-- First cluster and size of the directory entry with the wanted name, looking at `n` entries
from number `i` on. A zero byte ends the search, a deleted, long-name or label entry is passed. -/
def findEntry (dir want : Bytes) : ℕ → ℕ → Run (Option (ℕ × ℕ))
  | 0, _ => return none
  | n+1, i => do
    let first ← byteAt dir (32*i)
    if first = 0 then return none
    if first = 0xE5 then findEntry dir want n (i+1)
    else
      let attr ← byteAt dir (32*i+11)
      if attr &&& 0x0F = 0x0F ∨ attr &&& 0x08 ≠ 0 then findEntry dir want n (i+1)
      else
        let name ← sub dir (32*i) (32*i+11)
        if name ≠ want then findEntry dir want n (i+1)
        else
          let size ← leAt dir (32*i+28) 4
          let lo ← leAt dir (32*i+26) 2
          let hi ← leAt dir (32*i+20) 2
          return some (hi*2^16+lo, size)

def entryCount (dir : Bytes) : ℕ := (dir.length+31)/32

def clusterSectors (v : Volume) (c : ℕ) : List UInt32 :=
  (List.range v.spc).map fun s => UInt32.ofNat (v.dataLba+(c-2)*v.spc+s)

def finish (expect : ℕ) (out : List UInt32) : Option (List UInt32) :=
  if out.length < expect then none else some out

/-- The chain of a file. Each turn pushes at least one sector, so `expect` turns are enough. -/
def fileSectors (rd : Disk) (v : Volume) (expect : ℕ) :
    ℕ → ℕ → List UInt32 → Run (Option (List UInt32))
  | 0, _, out => return finish expect out
  | n+1, fc, out =>
    if isData fc ∧ out.length < expect then do
      match ← fatEntry rd v fc with
      | none => return none
      | some next => fileSectors rd v expect n next (out ++ clusterSectors v fc)
    else return finish expect out

def fileFlashMaxBytes : ℕ := 64*1024*1024

def openEntry (rd : Disk) (v : Volume) (e : ℕ × ℕ) : Run (Option (List UInt32)) :=
  if e.2 = 0 ∨ e.2 > fileFlashMaxBytes then return none
  else fileSectors rd v ((e.2+511)/512) ((e.2+511)/512) e.1 []

/-- The walk through the root directory; `none` goes on with the next partition. -/
def rootWalk (rd : Disk) (v : Volume) (want : Bytes) : ℕ → ℕ → Run (Option (Option (List UInt32)))
  | 0, _ => return none
  | n+1, c =>
    if isData c then
      match readDir rd v c v.spc with
      | none => return none
      | some dir => do
        match ← findEntry dir want (entryCount dir) 0 with
        | some e =>
          let r ← openEntry rd v e
          return some r
        | none =>
          match ← fatEntry rd v c with
          | none => return none
          | some next => rootWalk rd v want n next
    else return none

def resolveFatFileSectors (rd : Disk) (want : Bytes) :
    List Partition → Run (Option (List UInt32))
  | [] => return none
  | p::parts =>
    match volumeAt rd p with
    | none => resolveFatFileSectors rd want parts
    | some v => do
      match ← rootWalk rd v want 256 v.rootCluster with
      | some r => return r
      | none => resolveFatFileSectors rd want parts

/-! ## Lookups -/

/-- The FAT entry of the cluster lies in the 512 bytes that are read of its sector. -/
def InBuffer (v : Volume) (c : ℕ) : Prop := c*4%v.bps < 512

def link (v : Volume) (c : ℕ) (sec : Block 512) : ℕ := sec.getLe (c*4%v.bps) 4 % 2^28

section
variable {rd : Disk} {v : Volume}

theorem entry_inside {c : ℕ} (h : InBuffer v c) : c*4%v.bps+4 ≤ 512 := by
  have hdvd : 4 ∣ c*4%v.bps := by
    rw [Nat.dvd_mod_iff]
    · exact Nat.dvd_mul_left 4 c
    · have := v.bps_entries
      omega
  unfold InBuffer at h
  omega

theorem fatEntry_none {c : ℕ} (h : fatSector rd v c = none) : fatEntry rd v c = .ok none := by
  rw [fatEntry, h]
  rfl

theorem fatEntry_some {c : ℕ} {sec : Block 512} (h : fatSector rd v c = some sec)
    (hin : InBuffer v c) : fatEntry rd v c = .ok (some (link v c sec)) := by
  have hle := entry_inside hin
  rw [fatEntry, h]
  simp only [leAt]
  rw [sub_eq (Nat.le_add_right _ _) (by rw [sec.size]; exact hle), ok_bind,
    Nat.add_sub_cancel_left]
  rfl

theorem fatEntry_panics {c : ℕ} {sec : Block 512} (h : fatSector rd v c = some sec)
    (hin : ¬InBuffer v c) : fatEntry rd v c = .error .panic := by
  have hgt : ¬(c*4%v.bps ≤ c*4%v.bps+4 ∧ c*4%v.bps+4 ≤ sec.bytes.length) := by
    rw [sec.size]
    unfold InBuffer at hin
    omega
  rw [fatEntry, h]
  simp only [leAt, Checked.sub, if_neg hgt]
  rfl

theorem readDir_length {c n : ℕ} {dir : Bytes} (h : readDir rd v c n = some dir) :
    dir.length = n*v.bps := by
  induction n generalizing dir with
  | zero =>
    cases h
    simp
  | succ n ih =>
    rw [readDir] at h
    split at h
    · cases h
    next b hb =>
    split at h
    · cases h
    · next s _ =>
      cases h
      rw [List.length_append, ih hb, s.size, Nat.succ_mul]

theorem leAt_safe {b : Bytes} {i n : ℕ} (h : i+n ≤ b.length) : ∃ x, leAt b i n = .ok x := by
  rw [leAt, sub_eq (Nat.le_add_right _ _) h]
  exact ⟨_, rfl⟩

theorem findEntry_safe (want : Bytes) {dir : Bytes} (n i : ℕ) (h : 32*(i+n) ≤ dir.length) :
    ∃ r, findEntry dir want n i = .ok r := by
  induction n generalizing i with
  | zero => exact ⟨none, rfl⟩
  | succ n ih =>
    have hnext := ih (i+1) (by omega)
    rw [findEntry, byteAt_eq (by omega), ok_bind]
    split
    · exact ⟨none, rfl⟩
    split
    · exact hnext
    rw [byteAt_eq (by omega), ok_bind]
    split
    · exact hnext
    rw [sub_eq (by omega) (by omega), ok_bind]
    split
    · exact hnext
    · obtain ⟨size, hs⟩ := @leAt_safe dir (32*i+28) 4 (by omega)
      obtain ⟨lo, hlo⟩ := @leAt_safe dir (32*i+26) 2 (by omega)
      obtain ⟨hi, hhi⟩ := @leAt_safe dir (32*i+20) 2 (by omega)
      rw [hs, ok_bind, hlo, ok_bind, hhi]
      exact ⟨_, rfl⟩

theorem findEntry_dir (want : Bytes) {c : ℕ} {dir : Bytes} (h : readDir rd v c v.spc = some dir) :
    ∃ r, findEntry dir want (entryCount dir) 0 = .ok r := by
  apply findEntry_safe
  have hdvd : 32 ∣ dir.length := by
    rw [readDir_length h]
    exact Dvd.dvd.mul_left (Nat.dvd_of_mod_eq_zero v.bps_entries) v.spc
  unfold entryCount
  omega

end

/-! ## Hostile disks -/
open ByteBlock.Block (zero)

/-! ## The condition -/

/-- The first `n` clusters of the chain that starts at `c`, up to an unreadable FAT sector. -/
def chainOf (rd : Disk) (v : Volume) : ℕ → ℕ → List ℕ
  | 0, _ => []
  | n+1, c =>
    if isData c then
      match fatSector rd v c with
      | none => [c]
      | some sec => c :: chainOf rd v n (link v c sec)
    else []

def Readable (rd : Disk) (v : Volume) (chain : List ℕ) : Prop :=
  ∀ c ∈ chain, (fatSector rd v c).isSome → InBuffer v c

def whole (rd : Disk) (v : Volume) (turns : ℕ) (chain : List ℕ) : Bool :=
  decide (chain.length = turns) && chain.all fun c => (fatSector rd v c).isSome

/-- The chain visits no cluster twice, and no two of its sectors have the same number in
32 bits. -/
def Distinct (v : Volume) (chain : List ℕ) : Prop :=
  chain.Nodup ∧ ∀ c ∈ chain, ∀ d ∈ chain, ∀ s < v.spc, ∀ t < v.spc,
    (v.dataLba+(c-2)*v.spc+s) % 2^32 = (v.dataLba+(d-2)*v.spc+t) % 2^32 → c = d ∧ s = t

/-- The lookups of the chain of a file are in their buffers, and a chain that is long enough and
readable is distinct. -/
def FileOk (rd : Disk) (v : Volume) (e : ℕ × ℕ) : Prop :=
  e.2 ≠ 0 → e.2 ≤ fileFlashMaxBytes →
    let turns := ((e.2+511)/512+(v.spc-1))/v.spc
    let chain := chainOf rd v turns e.1
    Readable rd v chain ∧ (whole rd v turns chain = true → Distinct v chain)

/-- The lookups of the root directory are in their buffers, down to the cluster that holds the
entry, and the file it names is all right. -/
def RootOk (rd : Disk) (v : Volume) (want : Bytes) : ℕ → ℕ → Prop
  | 0, _ => True
  | n+1, c => isData c → ∀ dir, readDir rd v c v.spc = some dir →
    (∀ e, findEntry dir want (entryCount dir) 0 = .ok (some e) → FileOk rd v e) ∧
    (findEntry dir want (entryCount dir) 0 = .ok none → ∀ sec, fatSector rd v c = some sec →
      InBuffer v c ∧ RootOk rd v want n (link v c sec))

def HasEntry (rd : Disk) (v : Volume) (want : Bytes) : ℕ → ℕ → Prop
  | 0, _ => False
  | n+1, c => isData c ∧ ∃ dir, readDir rd v c v.spc = some dir ∧
    ((∃ e, findEntry dir want (entryCount dir) 0 = .ok (some e)) ∨
      findEntry dir want (entryCount dir) 0 = .ok none ∧
        ∃ sec, fatSector rd v c = some sec ∧ HasEntry rd v want n (link v c sec))

def PartsOk (rd : Disk) (want : Bytes) : List Partition → Prop
  | [] => True
  | p::parts => (∀ v, volumeAt rd p = some v → RootOk rd v want 256 v.rootCluster) ∧
    ((∀ v, volumeAt rd p = some v → ¬HasEntry rd v want 256 v.rootCluster) →
      PartsOk rd want parts)

/-- The walk does not index outside its buffers, and sectors that it returns are distinct. -/
def ResolvesSafely (rd : Disk) (want : Bytes) (parts : List Partition) : Prop :=
  ∃ r, resolveFatFileSectors rd want parts = .ok r ∧ ∀ out, r = some out → out.Nodup

/-! ## The chain of a file -/

section
variable {rd : Disk} {v : Volume}

theorem clusterSectors_length (v : Volume) (c : ℕ) : (clusterSectors v c).length = v.spc := by
  simp [clusterSectors]

theorem fileSectors_panics {expect turns : ℕ} (hmore : ∀ j < turns, v.spc*j < expect)
    (k fuel c : ℕ) (out : List UInt32) (hk : k ≤ turns) (hf : k ≤ fuel)
    (hout : out.length = v.spc*(turns-k)) (h : ¬Readable rd v (chainOf rd v k c)) :
    fileSectors rd v expect fuel c out = .error .panic := by
  induction k generalizing fuel c out with
  | zero => exact absurd (fun c hc => absurd hc List.not_mem_nil) h
  | succ k ih =>
    cases fuel with
    | zero => omega
    | succ fuel =>
      rw [chainOf] at h
      by_cases hc : isData c = true
      · rw [if_pos hc] at h
        have hlt : out.length < expect := hout ▸ hmore _ (by omega)
        rw [fileSectors, if_pos ⟨hc, hlt⟩]
        cases hs : fatSector rd v c with
        | none =>
          rw [hs] at h
          exact absurd (by simp [Readable, hs]) h
        | some sec =>
          rw [hs] at h
          by_cases hin : InBuffer v c
          · rw [fatEntry_some hs hin, ok_bind]
            apply ih
            · omega
            · omega
            · rw [List.length_append, clusterSectors_length, hout, ← Nat.mul_succ]
              congr 1
              omega
            · intro hr
              exact h (List.forall_mem_cons.mpr ⟨fun _ => hin, hr⟩)
          · rw [fatEntry_panics hs hin]
            rfl
      · rw [if_neg hc] at h
        exact absurd (fun c hc => absurd hc List.not_mem_nil) h

theorem fileSectors_ok {expect turns : ℕ} (hend : expect ≤ v.spc*turns)
    (hmore : ∀ j < turns, v.spc*j < expect) (k fuel c : ℕ) (out : List UInt32) (hk : k ≤ turns)
    (hf : k ≤ fuel) (hout : out.length = v.spc*(turns-k))
    (h : Readable rd v (chainOf rd v k c)) :
    fileSectors rd v expect fuel c out = .ok
      (if whole rd v k (chainOf rd v k c) then
        some (out ++ (chainOf rd v k c).flatMap (clusterSectors v)) else none) := by
  induction k generalizing fuel c out with
  | zero =>
    have hlen : ¬out.length < expect := by
      rw [hout, Nat.sub_zero]
      omega
    have hfin : finish expect out = some out := if_neg hlen
    have hgo : ¬(isData c = true ∧ out.length < expect) := fun h => hlen h.2
    have hw : whole rd v 0 [] = true := rfl
    rw [chainOf, hw, List.flatMap_nil, List.append_nil, if_pos rfl]
    cases fuel with
    | zero => rw [fileSectors, hfin]; rfl
    | succ fuel => rw [fileSectors, if_neg hgo, hfin]; rfl
  | succ k ih =>
    cases fuel with
    | zero => omega
    | succ fuel =>
      have hlt : out.length < expect := hout ▸ hmore _ (by omega)
      rw [chainOf] at h ⊢
      by_cases hc : isData c = true
      · rw [if_pos hc] at h ⊢
        rw [fileSectors, if_pos ⟨hc, hlt⟩]
        cases hs : fatSector rd v c with
        | none =>
          rw [fatEntry_none hs, ok_bind]
          have hw : whole rd v (k+1) [c] = false := by simp [whole, hs]
          rw [hw]
          rfl
        | some sec =>
          rw [hs] at h
          have hh := List.forall_mem_cons.mp h
          rw [fatEntry_some hs (hh.1 (by simp [hs])), ok_bind]
          simp only
          have hw : whole rd v (k+1) (c :: chainOf rd v k (link v c sec)) =
              whole rd v k (chainOf rd v k (link v c sec)) := by
            simp [whole, hs]
          rw [ih fuel (link v c sec) (out ++ clusterSectors v c) (by omega) (by omega) _ hh.2, hw,
            List.flatMap_cons, List.append_assoc]
          · rw [List.length_append, clusterSectors_length, hout, ← Nat.mul_succ]
            congr 1
            omega
      · have hw : whole rd v (k+1) [] = false := by simp [whole]
        rw [fileSectors, if_neg fun hg => hc hg.1, if_neg hc, finish, if_pos hlt, hw]
        rfl

theorem sector_eq_iff {a b : ℕ} : UInt32.ofNat a = UInt32.ofNat b ↔ a % 2^32 = b % 2^32 := by
  rw [← UInt32.toNat_inj, UInt32.toNat_ofNat', UInt32.toNat_ofNat']

theorem chainSectors_nodup (v : Volume) (chain : List ℕ) :
    (chain.flatMap (clusterSectors v)).Nodup ↔ Distinct v chain := by
  have hmem {c : ℕ} {x : UInt32} : x ∈ clusterSectors v c ↔
      ∃ s < v.spc, UInt32.ofNat (v.dataLba+(c-2)*v.spc+s) = x := by
    simp [clusterSectors]
  have hself {c : ℕ} (h : (clusterSectors v c).Nodup) {s t : ℕ} (hs : s < v.spc) (ht : t < v.spc)
      (he : UInt32.ofNat (v.dataLba+(c-2)*v.spc+s) = UInt32.ofNat (v.dataLba+(c-2)*v.spc+t)) :
      s = t :=
    List.inj_on_of_nodup_map h (List.mem_range.mpr hs) (List.mem_range.mpr ht) he
  rw [List.nodup_flatMap]
  constructor
  · rintro ⟨hin, hpair⟩
    have hnd : chain.Nodup := by
      refine hpair.imp fun {c d} hdis he => ?_
      subst he
      have h0 : UInt32.ofNat (v.dataLba+(c-2)*v.spc+0) ∈ clusterSectors v c :=
        hmem.mpr ⟨0, v.spc_pos, rfl⟩
      exact hdis h0 h0
    refine ⟨hnd, fun c hc d hd s hs t ht he => ?_⟩
    by_cases hcd : c = d
    · subst hcd
      exact ⟨rfl, hself (hin c hc) hs ht (sector_eq_iff.mpr he)⟩
    · exfalso
      have hsymm : Std.Symm (Function.onFun List.Disjoint (clusterSectors v)) :=
        ⟨fun _ _ h => List.Disjoint.symm h⟩
      have hdis := hpair.forall hc hd hcd
      exact hdis (hmem.mpr ⟨s, hs, rfl⟩) (hmem.mpr ⟨t, ht, (sector_eq_iff.mpr he).symm⟩)
  · rintro ⟨hnd, hinj⟩
    constructor
    · intro c hc
      refine List.Nodup.map_on ?_ List.nodup_range
      intro s hs t ht he
      exact (hinj c hc c hc s (List.mem_range.mp hs) t (List.mem_range.mp ht)
        (sector_eq_iff.mp he)).2
    · refine (List.pairwise_iff_forall_sublist.mpr fun {c d} hsub x hxc hxd => ?_)
      obtain ⟨s, hs, rfl⟩ := hmem.mp hxc
      obtain ⟨t, ht, he⟩ := hmem.mp hxd
      have hcd := (hinj c (hsub.subset (by simp)) d (hsub.subset (by simp)) s hs t ht
        (sector_eq_iff.mp he.symm)).1
      have hnd2 := hnd.sublist hsub
      simp [hcd] at hnd2

theorem turns_cover {expect spc turns : ℕ} (hp : 0 < spc) (ht : turns = (expect+(spc-1))/spc) :
    expect ≤ spc*turns ∧ ∀ j < turns, spc*j < expect := by
  have hdm := Nat.div_add_mod (expect+(spc-1)) spc
  have hlt := Nat.mod_lt (expect+(spc-1)) hp
  rw [← ht] at hdm
  refine ⟨by omega, fun j hj => ?_⟩
  have hle : spc*(j+1) ≤ spc*turns := Nat.mul_le_mul_left spc hj
  rw [Nat.mul_succ] at hle
  omega

theorem openEntry_iff (e : ℕ × ℕ) :
    (∃ r, openEntry rd v e = .ok r ∧ ∀ out, r = some out → out.Nodup) ↔ FileOk rd v e := by
  unfold openEntry FileOk
  by_cases hz : e.2 = 0 ∨ e.2 > fileFlashMaxBytes
  · rw [if_pos hz]
    refine iff_of_true ⟨none, rfl, fun out h => by cases h⟩ fun h0 hmax => ?_
    omega
  obtain ⟨h0, hmax⟩ := not_or.mp hz
  rw [if_neg hz]
  generalize hT : ((e.2+511)/512+(v.spc-1))/v.spc = turns
  obtain ⟨hend, hmore⟩ := turns_cover v.spc_pos hT.symm
  have hle : turns ≤ (e.2+511)/512 := by
    rcases Nat.eq_zero_or_pos turns with hz | hpos
    · omega
    · have h1 := hmore (turns-1) (by omega)
      have h2 := Nat.mul_le_mul_right (turns-1) v.spc_pos
      omega
  simp only [ne_eq, h0, not_false_eq_true, true_implies, not_lt.mp hmax]
  by_cases hr : Readable rd v (chainOf rd v turns e.1)
  · rw [fileSectors_ok hend hmore turns _ e.1 [] le_rfl hle (by simp) hr]
    simp only [hr, true_and, List.nil_append]
    rw [← chainSectors_nodup]
    constructor
    · rintro ⟨r, he, hout⟩ hw
      rw [if_pos hw] at he
      cases he
      exact hout _ rfl
    · intro h
      refine ⟨_, rfl, fun out ho => ?_⟩
      split at ho
      · next hw =>
        cases ho
        exact h hw
      · cases ho
  · rw [fileSectors_panics hmore turns _ e.1 [] le_rfl hle (by simp) hr]
    refine iff_of_false ?_ fun h => hr h.1
    rintro ⟨r, he, -⟩
    cases he

/-! ## The walk -/

def WalksSafely (rd : Disk) (v : Volume) (want : Bytes) (n c : ℕ) : Prop :=
  ∃ r, rootWalk rd v want n c = .ok r ∧ ∀ out, r = some (some out) → out.Nodup

theorem rootWalk_iff (want : Bytes) (n c : ℕ) :
    WalksSafely rd v want n c ↔ RootOk rd v want n c := by
  induction n generalizing c with
  | zero => exact iff_of_true ⟨none, rfl, fun out h => by cases h⟩ trivial
  | succ n ih =>
    unfold WalksSafely at ih ⊢
    rw [rootWalk, RootOk]
    by_cases hc : isData c = true
    · rw [if_pos hc]
      simp only [hc, true_implies]
      cases hd : readDir rd v c v.spc with
      | none => exact iff_of_true ⟨none, rfl, fun out h => by cases h⟩ fun dir h => by cases h
      | some dir =>
        obtain ⟨r, hr⟩ := findEntry_dir want hd
        simp only [Option.some.injEq, forall_eq', hr, ok_bind, Except.ok.injEq]
        cases r with
        | some e =>
          simp only [Option.some.injEq, forall_eq', reduceCtorEq, false_implies, and_true]
          rw [← openEntry_iff]
          constructor
          · rintro ⟨r, he, hout⟩
            obtain ⟨x, hx, hxr⟩ := bind_ok.mp he
            cases hxr
            exact ⟨x, hx, fun out ho => hout out (by rw [ho])⟩
          · rintro ⟨r, he, hout⟩
            rw [he, ok_bind]
            exact ⟨some r, rfl, fun out ho => hout out (Option.some.inj ho)⟩
        | none =>
          simp only [reduceCtorEq, false_implies, implies_true, true_and, true_implies]
          cases hs : fatSector rd v c with
          | none =>
            rw [fatEntry_none hs, ok_bind]
            exact iff_of_true ⟨none, rfl, fun out h => by cases h⟩ fun sec h => by cases h
          | some sec =>
            simp only [Option.some.injEq, forall_eq']
            by_cases hin : InBuffer v c
            · rw [fatEntry_some hs hin, ok_bind]
              simp only [hin, true_and]
              exact ih _
            · rw [fatEntry_panics hs hin]
              refine iff_of_false ?_ fun h => hin h.1
              rintro ⟨r, he, -⟩
              cases he
    · rw [if_neg hc]
      exact iff_of_true ⟨none, rfl, fun out h => by cases h⟩ fun h => absurd h hc

theorem rootWalk_none_iff (want : Bytes) (n c : ℕ) {r : Option (Option (List UInt32))}
    (h : rootWalk rd v want n c = .ok r) : r = none ↔ ¬HasEntry rd v want n c := by
  induction n generalizing c with
  | zero =>
    cases h
    exact iff_of_true rfl fun h => h
  | succ n ih =>
    rw [rootWalk] at h
    rw [HasEntry]
    by_cases hc : isData c = true
    · rw [if_pos hc] at h
      cases hd : readDir rd v c v.spc with
      | none =>
        rw [hd] at h
        cases h
        exact iff_of_true rfl fun ⟨_, dir, he, _⟩ => by cases he
      | some dir =>
        rw [hd] at h
        obtain ⟨x, hx⟩ := findEntry_dir want hd
        simp only [hx, ok_bind] at h
        cases x with
        | some e =>
          obtain ⟨y, -, hyr⟩ := bind_ok.mp h
          cases hyr
          refine iff_of_false (fun h => by cases h) (not_not.mpr ?_)
          exact ⟨hc, dir, rfl, Or.inl ⟨e, hx⟩⟩
        | none =>
          simp only [hc, true_and, Option.some.injEq, exists_eq_left', hx, Except.ok.injEq,
            reduceCtorEq, exists_false, false_or]
          cases hs : fatSector rd v c with
          | none =>
            rw [fatEntry_none hs, ok_bind] at h
            cases h
            exact iff_of_true rfl fun ⟨sec, he, _⟩ => by cases he
          | some sec =>
            by_cases hin : InBuffer v c
            · rw [fatEntry_some hs hin, ok_bind] at h
              simpa using ih _ h
            · rw [fatEntry_panics hs hin] at h
              cases h
    · rw [if_neg hc] at h
      cases h
      exact iff_of_true rfl fun h => hc h.1

end

/-- On any disk content the walk is safe and returns distinct sectors exactly when the lookups it
comes to are in their buffers and the chain of the file it finds is distinct. -/
theorem resolve_safe_iff (rd : Disk) (want : Bytes) (parts : List Partition) :
    ResolvesSafely rd want parts ↔ PartsOk rd want parts := by
  induction parts with
  | nil => exact iff_of_true ⟨none, rfl, fun out h => by cases h⟩ trivial
  | cons p parts ih =>
    unfold ResolvesSafely at ih ⊢
    rw [resolveFatFileSectors, PartsOk]
    cases hv : volumeAt rd p with
    | none => simpa using ih
    | some v =>
      simp only [Option.some.injEq, forall_eq']
      rw [← rootWalk_iff, WalksSafely]
      cases hw : rootWalk rd v want 256 v.rootCluster with
      | error e =>
        refine iff_of_false ?_ ?_
        · rintro ⟨r, he, -⟩
          cases he
        · rintro ⟨⟨r, he, -⟩, -⟩
          cases he
      | ok r =>
        have hnone := rootWalk_none_iff want 256 v.rootCluster hw
        rw [ok_bind]
        cases r with
        | none =>
          simp only [hnone.mp rfl, not_false_eq_true, true_implies]
          refine ih.trans ⟨fun h => ⟨⟨none, rfl, fun out h => by cases h⟩, h⟩, fun h => h.2⟩
        | some x =>
          have hhas : ¬¬HasEntry rd v want 256 v.rootCluster := fun h => by
            cases hnone.mpr h
          constructor
          · rintro ⟨r, he, hout⟩
            cases he
            exact ⟨⟨some x, rfl, fun out ho => hout out (Option.some.inj ho)⟩,
              fun h => absurd h hhas⟩
          · rintro ⟨⟨r, he, hout⟩, -⟩
            cases he
            exact ⟨x, rfl, fun out ho => hout out (by rw [ho])⟩

/-! ## Two disks -/

/-- A boot sector with `bps` bytes per sector, one sector per cluster, no reserved sectors and a
root directory at cluster `root`. -/
def bootSector (bps root : ℕ) : Block 512 :=
  (((zero 512).putLe 0x0B 2 bps).putLe 0x0D 1 1).putLe 0x2C 4 root

def dataPartition : Partition := ⟨false, 0x0C, 0, 128⟩

def wideSectors : Disk := fun lba n =>
  if h : lba = 0 ∧ 512 = n then some (h.2 ▸ bootSector 1024 128) else some (zero n)

def flashName : Bytes := [0x4E, 0x53, 0x47, 0x44, 0x42, 0x20, 0x20, 0x20, 0x42, 0x49, 0x4E]

/-- A root directory at cluster 3 with a file of two sectors at cluster 2, whose FAT entry, in the
boot sector, is 2 again. -/
def loopedFile : Disk := fun lba n =>
  if h : lba = 0 ∧ 512 = n then some (h.2 ▸ (bootSector 512 3).putLe 8 4 2)
  else if lba = 1 then
    some ((((zero n).put 0 flashName).putLe 26 2 2).putLe 28 4 1024)
  else some (zero n)

theorem wideSectors_panic :
    resolveFatFileSectors wideSectors flashName [dataPartition] = .error .panic := by
  decide +kernel

theorem loopedFile_sectors :
    resolveFatFileSectors loopedFile flashName [dataPartition] = .ok (some [0, 0]) := by
  decide +kernel

/-- A lookup past the end of its buffer, and a file whose two sectors are the same one. -/
theorem hostile_disks_break_walk :
    ¬ResolvesSafely wideSectors flashName [dataPartition] ∧
      ¬ResolvesSafely loopedFile flashName [dataPartition] := by
  constructor
  · rintro ⟨r, he, -⟩
    rw [wideSectors_panic] at he
    cases he
  · rintro ⟨r, he, hout⟩
    rw [loopedFile_sectors] at he
    cases he
    have hnd := hout _ rfl
    exact absurd hnd (by decide)

end NeuralOs.Fat32.FileSectors
