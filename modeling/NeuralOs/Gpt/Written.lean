import NeuralOs.Lib.Checked
import NeuralOs.Lib.Utf16
import NeuralOs.NeuralFs.BlockDev
import NeuralOs.NeuralFs.Checksum

/-!
# What the format writes

On a disk that carries out its requests the format always succeeds, and the boot
record, the header and the table stand in the first 34 sectors as they were built;
entries that were not placed are empty. On any disk, requests failing or not, only
the two tables and the first sectors of the partitions are written.
-/

set_option autoImplicit false

namespace NeuralOs.Gpt.Table
open ByteString ByteBlock Checked Fallible Utf16 NeuralFs.BlockDev NeuralFs.Checksum

abbrev Guid := Block 16

structure GptPartitionDef where
  typeGuid : Guid
  lbaStart : UInt64
  lbaEnd : UInt64
  label : List Char

structure GptPartition where
  index : ℕ
  name : List Char
  typeGuid : Guid
  lbaStart : UInt64
  lbaEnd : UInt64
  attrs : UInt64
  deriving DecidableEq

/-! ### Writing -/

def entryCount : ℕ := 128

def entrySize : ℕ := 128

def entriesLba : ℕ := 2

abbrev Entries := Block 16384

def mbr (totalLba : ℕ) : Sector :=
  let size := if 0xFFFFFFFF < totalLba then 0xFFFFFFFF else totalLba-1
  ((((Block.zero 512).put 0x1FE [0x55, 0xAA]).put (0x1BE+4) [0xEE]).putLe (0x1BE+8) 4 1).putLe
    (0x1BE+12) 4 size

/-- The bytes of a label are added to the bytes of the disk's identifier, round and round. -/
def mixLabel (guid : Bytes) (label : List Char) : Bytes :=
  (label.flatMap String.utf8EncodeChar).zipIdx.foldl
    (fun g b => g.modify (b.2%16) (· ^^^ b.1)) guid

def diskGuid (parts : List GptPartitionDef) : Bytes :=
  parts.foldl (fun g part => mixLabel g part.label) (zeros 16)

def labelBytes (label : List Char) : Bytes := ((encode label).take (72/2)).flatMap (toLe 2)

/-- Entry `i`; an index past the array panics. -/
def placeEntry (guid : Bytes) (all : Entries) (i : ℕ) (part : GptPartitionDef) : Option Entries :=
  let off := i*128
  if 16384 < off+128 then none
  else some (((((all.put off part.typeGuid.bytes).put (off+16) guid).putLe (off+32) 8
    part.lbaStart.toNat).putLe (off+40) 8 part.lbaEnd.toNat).put (off+56) (labelBytes part.label))

def placeEntries (guid : Bytes) : Entries → ℕ → List GptPartitionDef → Option Entries
  | all, _, [] => some all
  | all, i, part::parts =>
    match placeEntry guid all i part with
    | none => none
    | some all => placeEntries guid all (i+1) parts

/-- The checksum of the first 92 bytes, taken with the field itself cleared. -/
def sealHeader (hdr : Sector) : Sector :=
  let hdr := hdr.putLe 16 4 0
  hdr.putLe 16 4 (crc32c (hdr.get 0 92)).toNat

def signature : Bytes := [0x45, 0x46, 0x49, 0x20, 0x50, 0x41, 0x52, 0x54]

def primaryHeader (totalLba : ℕ) (parts : List GptPartitionDef) (all : Entries) : Sector :=
  let hdr := (((((Block.zero 512).put 0 signature).putLe 8 4 0x00010000).putLe 12 4 92).putLe 16 4
    0).putLe 20 4 0
  let hdr := (hdr.putLe 24 8 1).putLe 32 8 (totalLba-1)
  let hdr := hdr.putLe 40 8 ((parts.head?.map (·.lbaStart.toNat)).getD 0)
  let hdr := hdr.putLe 48 8 ((parts.getLast?.map (·.lbaEnd.toNat)).getD (totalLba-1))
  let hdr := (hdr.put 56 (diskGuid parts)).putLe 72 8 entriesLba
  let hdr := (hdr.putLe 80 4 entryCount).putLe 84 4 entrySize
  sealHeader (hdr.putLe 88 4 (crc32c all.bytes).toNat)

def backupHeader (totalLba : ℕ) (hdr : Sector) (all : Entries) : Sector :=
  let hdr := ((hdr.putLe 24 8 (totalLba-1)).putLe 32 8 1).putLe 72 8 (totalLba-1-32)
  sealHeader (hdr.putLe 88 4 (crc32c all.bytes).toNat)

/-- `sector[..end - start].copy_from_slice(&all_entries[start..end])` -/
def entrySector (all : Entries) (i : ℕ) : Sector :=
  (Block.zero 512).put 0 (all.get (i*512) (min (i*512+512) 16384-i*512))

def write (lba : ℕ) (s : Sector) : Act Disk (Stop Unit) Unit :=
  (writeSector lba s).orFail (.refused ())

def writeEntries (lba : ℕ) (all : Entries) : Act Disk (Stop Unit) Unit :=
  Act.each (fun i => write (lba+i) (entrySector all i)) (List.range 32)

/-- Both copies of the table with their headers; then the partitions are cleared. -/
def writeTable (totalLba : ℕ) (parts : List GptPartitionDef) (all : Entries)
    (hdr backup cleared : Sector) : Act Disk (Stop Unit) Unit := do
  writeEntries entriesLba all
  write 1 hdr
  writeEntries (totalLba-1-32) all
  write (totalLba-1) backup
  Act.each (fun part => (write part.lbaStart.toNat cleared).ignore) parts

def gptFormatMulti (totalLba : ℕ) (parts : List GptPartitionDef) : Act Disk (Stop Unit) Unit :=
  if totalLba ≤ 34 ∨ parts.isEmpty then .fail (.refused ())
  else if totalLba-1 < 32 then .fail (.refused ())
  else do
    write 0 (mbr totalLba)
    let all ← Act.need .panic (placeEntries (diskGuid parts) (Block.zero 16384) 0 parts)
    let hdr := primaryHeader totalLba parts all
    writeTable totalLba parts all hdr (backupHeader totalLba hdr all) (Block.zero 512)

/-! ### Reading -/

def unitsOf : Bytes → List ℕ
  | a::b::l => (a.toNat+256*b.toNat)::unitsOf l
  | _ => []

def nameOf (b : Bytes) : List Char := decode ((unitsOf b).takeWhile (· ≠ 0))

def readEntry (i : ℕ) (buf : Sector) (off : ℕ) : GptPartition :=
  ⟨i, nameOf (buf.get (off+56) 16), (Block.zero 16).put 0 (buf.get off 16),
    UInt64.ofNat (buf.getLe (off+32) 8), UInt64.ofNat (buf.getLe (off+40) 8), 0⟩

def readEntries (d : Disk) (lba : ℕ) : List ℕ → List GptPartition
  | [] => []
  | i::l =>
    match readSector d (u64 (lba+i*128/512)) with
    | none => []
    | some buf =>
      if (buf.get (i*128%512) 16).all (· == 0) then readEntries d lba l
      else readEntry i buf (i*128%512)::readEntries d lba l

def protective (s : Sector) : Bool :=
  s.get 510 2 == [0x55, 0xAA] && (List.range 4).any fun i => s.get (0x1BE+i*16+4) 1 == [0xEE]

def probeGpt (d : Disk) : Option (List GptPartition) :=
  match readSector d 0 with
  | none => none
  | some boot =>
    if protective boot = false then none
    else
      match readSector d 1 with
      | none => none
      | some hdr =>
        if hdr.get 0 8 ≠ signature then none
        else if hdr.getLe 84 4 ≠ 128 then none
        else some (readEntries d (hdr.getLe 72 8) (List.range (min (hdr.getLe 80 4) 128)))

end NeuralOs.Gpt.Table

/-! ## What the format writes -/

namespace NeuralOs.Gpt.Written
open ByteString ByteBlock Checked Fallible Utf16 NeuralFs.BlockDev NeuralFs.BlockWrites
open NeuralFs.Checksum Table

/-! ### What is written -/

variable {d : Disk} {lba : ℕ} {s : Sector}

theorem write_run (hr : Reliable d) (h : lba < d.sectors) :
    (write lba s).run d = (.ok (), d.put lba s) := orFail_run hr h

def entryWrites (lba : ℕ) (all : Entries) : List (ℕ × Sector) :=
  (List.range 32).map fun i => (lba+i, entrySector all i)

theorem writeEntries_run {all : Entries} (hr : Reliable d) (h : lba+32 ≤ d.sectors) :
    (writeEntries lba all).run d = (.ok (), puts d (entryWrites lba all)) := by
  refine each_run _ (fun i hi e he hs => ?_) hr
  have := List.mem_range.mp hi
  exact write_run he (by omega)

/-- A partition between the tables, with a type and a label that fits the entry. -/
structure Fits (totalLba : ℕ) (part : GptPartitionDef) : Prop where
  first : 34 ≤ part.lbaStart.toNat
  ordered : part.lbaStart.toNat ≤ part.lbaEnd.toNat
  last : part.lbaEnd.toNat+34 ≤ totalLba
  guid : part.typeGuid.bytes ≠ zeros 16
  short : (encode part.label).length ≤ 36
  noNul : ∀ c ∈ part.label, c.toNat ≠ 0

variable {totalLba : ℕ} {parts : List GptPartitionDef} {all : Entries}

def tableWrites (totalLba : ℕ) (parts : List GptPartitionDef) (all : Entries)
    (hdr backup cleared : Sector) : List (ℕ × Sector) :=
  entryWrites entriesLba all++[(1, hdr)]++
    (entryWrites (totalLba-1-32) all++[(totalLba-1, backup)]++
      parts.map fun part => (part.lbaStart.toNat, cleared))

theorem ignore_run (hr : Reliable d) (h : lba < d.sectors) :
    ((write lba s).ignore).run d = (.ok (), d.put lba s) := by
  rw [Act.ignore]
  simp only [write_run hr h]

theorem writeTable_run {hdr backup cleared : Sector} (hr : Reliable d) (hd : d.sectors = totalLba)
    (hsize : 68 ≤ totalLba) (hfit : ∀ part ∈ parts, Fits totalLba part) :
    (writeTable totalLba parts all hdr backup cleared).run d =
      (.ok (), puts d (tableWrites totalLba parts all hdr backup cleared)) := by
  have h₁ := puts_reliable (l := entryWrites entriesLba all) hr
  have h₂ := put_reliable 1 hdr h₁
  have h₃ := puts_reliable (l := entryWrites (totalLba-1-32) all) h₂
  have h₄ := put_reliable (totalLba-1) backup h₃
  have hclear : ∀ e, Reliable e → e.sectors = totalLba →
      (Act.each (fun part => (write part.lbaStart.toNat cleared).ignore) parts).run e =
        (.ok (), puts e (parts.map fun part => (part.lbaStart.toNat, cleared))) := by
    intro e he hs
    refine each_run parts (fun p hp e' he' hs' => ignore_run he' ?_) he
    have := (hfit p hp).ordered
    have := (hfit p hp).last
    omega
  rw [writeTable, run_bind_ok (writeEntries_run hr (by rw [entriesLba]; omega)),
    run_bind_ok (write_run h₁ (by rw [puts_sectors]; omega)),
    run_bind_ok (writeEntries_run h₂ (by rw [put_sectors, puts_sectors]; omega)),
    run_bind_ok (write_run h₃ (by rw [puts_sectors, put_sectors, puts_sectors]; omega)),
    hclear _ h₄ (by rw [put_sectors, puts_sectors, put_sectors, puts_sectors, hd])]
  simp only [tableWrites, puts_append, puts_single]

theorem size_of_fits (hne : parts ≠ []) (hfit : ∀ part ∈ parts, Fits totalLba part) :
    68 ≤ totalLba := by
  obtain ⟨part, hpart⟩ := List.exists_mem_of_ne_nil parts hne
  have := (hfit part hpart).first
  have := (hfit part hpart).ordered
  have := (hfit part hpart).last
  omega

theorem format_run (hr : Reliable d) (hd : d.sectors = totalLba) (hne : parts ≠ [])
    (hfit : ∀ part ∈ parts, Fits totalLba part)
    (hall : placeEntries (diskGuid parts) (Block.zero 16384) 0 parts = some all) :
    (gptFormatMulti totalLba parts).run d =
      (.ok (), puts d ((0, mbr totalLba)::tableWrites totalLba parts all
        (primaryHeader totalLba parts all)
        (backupHeader totalLba (primaryHeader totalLba parts all) all) (Block.zero 512))) := by
  have hsize := size_of_fits hne hfit
  have hempty : ¬(totalLba ≤ 34 ∨ parts.isEmpty = true) := by
    rintro (h | h)
    · omega
    · exact hne (List.isEmpty_iff.mp h)
  rw [gptFormatMulti, if_neg hempty, if_neg (by omega), run_bind_ok (write_run hr (by omega)), hall,
    run_need_bind, writeTable_run (put_reliable _ _ hr) (by rw [put_sectors, hd]) hsize hfit,
    puts_cons]

/-! ### The entries -/

variable {guid : Bytes} {part : GptPartitionDef} {i off len : ℕ}

@[simp] theorem mixLabel_length (g : Bytes) (label : List Char) :
    (mixLabel g label).length = g.length := by
  rw [mixLabel]
  generalize (label.flatMap String.utf8EncodeChar).zipIdx = l
  induction l generalizing g with
  | nil => rfl
  | cons b l ih => rw [List.foldl_cons, ih, List.length_modify]

theorem diskGuid_length (parts : List GptPartitionDef) : (diskGuid parts).length = 16 := by
  have h : ∀ g : Bytes, g.length = 16 →
      (parts.foldl (fun g part => mixLabel g part.label) g).length = 16 := by
    induction parts with
    | nil => exact fun g hg => hg
    | cons p parts ih => exact fun g hg => ih _ (by rw [mixLabel_length, hg])
  exact h (zeros 16) (by simp)

theorem flatMap_toLe_length (us : List ℕ) : (us.flatMap (toLe 2)).length = 2*us.length := by
  induction us with
  | nil => rfl
  | cons u us ih => simp [ih]; omega

theorem labelBytes_length_le (label : List Char) : (labelBytes label).length ≤ 72 := by
  rw [labelBytes, flatMap_toLe_length, List.length_take]
  omega

structure Holds (all : Entries) (i : ℕ) (part : GptPartitionDef) : Prop where
  typeGuid : all.get (i*128) 16 = part.typeGuid.bytes
  lbaStart : all.getLe (i*128+32) 8 = part.lbaStart.toNat
  lbaEnd : all.getLe (i*128+40) 8 = part.lbaEnd.toNat
  label : all.get (i*128+56) 72 = labelBytes part.label++zeros (72-(labelBytes part.label).length)

theorem placeEntry_other {all' : Entries} (off len : ℕ) (hg : guid.length = 16)
    (h : placeEntry guid all i part = some all') (ho : off+len ≤ i*128 ∨ i*128+128 ≤ off) :
    all'.get off len = all.get off len := by
  have hl := labelBytes_length_le part.label
  have ht := part.typeGuid.size
  rw [placeEntry] at h
  split at h
  · cases h
  · cases h
    simp (disch := omega) only [get_put_ne, get_putLe_ne]

theorem placeEntry_holds (part : GptPartitionDef) (hg : guid.length = 16) (hi : i < 128)
    (hzero : all.get (i*128) 128 = zeros 128) :
    ∃ all', placeEntry guid all i part = some all' ∧ Holds all' i part := by
  have hl := labelBytes_length_le part.label
  have ht := part.typeGuid.size
  have hs : part.lbaStart.toNat < 256^8 := part.lbaStart.toNat_lt
  have he : part.lbaEnd.toNat < 256^8 := part.lbaEnd.toNat_lt
  refine ⟨_, if_neg (by omega), ?_, ?_, ?_, ?_⟩
  · simp (disch := omega) only [get_put_ne, get_putLe_ne]
    have := get_put_same all (i*128) part.typeGuid.bytes (by omega)
    rwa [ht] at this
  · rw [getLe_put_ne (by omega), getLe_putLe_ne (by omega), getLe_putLe_of_lt (by omega) hs]
  · rw [getLe_put_ne (by omega), getLe_putLe_of_lt (by omega) he]
  set b := (((all.put (i*128) part.typeGuid.bytes).put (i*128+16) guid).putLe (i*128+32) 8
    part.lbaStart.toNat).putLe (i*128+40) 8 part.lbaEnd.toNat with hb
  set n := (labelBytes part.label).length with hn
  have hrest : (b.put (i*128+56) (labelBytes part.label)).get (i*128+56+n) (72-n) =
      zeros (72-n) := by
    simp (disch := omega) only [hb, get_put_ne, get_putLe_ne]
    have hsub := slice_slice all.bytes (i*128) 128 (56+n) (72-n) (by omega)
    have hslice : slice all.bytes (i*128) 128 = zeros 128 := hzero
    rw [hslice, slice_zeros _ _ _ (by omega), ← Nat.add_assoc] at hsub
    exact hsub.symm
  have hfirst := get_put_same b (i*128+56) (labelBytes part.label) (by omega)
  have hjoin := slice_append_slice (b.put (i*128+56) (labelBytes part.label)).bytes (i*128+56) n
    (72-n)
  rw [show n+(72-n) = 72 by omega] at hjoin
  refine hjoin.symm.trans ?_
  rw [← hn] at hfirst
  exact congrArg₂ (·++·) hfirst hrest

theorem Holds.congr {all' : Entries} (h : Holds all i part)
    (heq : ∀ off len, i*128 ≤ off → off+len ≤ i*128+128 → all'.get off len = all.get off len) :
    Holds all' i part := by
  refine ⟨?_, ?_, ?_, ?_⟩
  · rw [heq _ _ (by omega) (by omega), h.typeGuid]
  · rw [Block.getLe, heq _ _ (by omega) (by omega), ← Block.getLe, h.lbaStart]
  · rw [Block.getLe, heq _ _ (by omega) (by omega), ← Block.getLe, h.lbaEnd]
  · rw [heq _ _ (by omega) (by omega), h.label]

theorem placeEntries_holds (hg : guid.length = 16) (hi : i+parts.length ≤ 128)
    (hzero : ∀ j, i ≤ j → j < 128 → all.get (j*128) 128 = zeros 128) :
    ∃ all', placeEntries guid all i parts = some all' ∧
      (∀ off len, off+len ≤ i*128 → all'.get off len = all.get off len) ∧
      (∀ (k : ℕ) (hk : k < parts.length), Holds all' (i+k) parts[k]) ∧
      ∀ j, i+parts.length ≤ j → j < 128 → all'.get (j*128) 128 = zeros 128 := by
  induction parts generalizing all i with
  | nil =>
    refine ⟨all, rfl, fun _ _ _ => rfl, fun k hk => ?_, fun j hj hj' => hzero j hj hj'⟩
    simp at hk
  | cons p parts ih =>
    rw [List.length_cons] at hi
    obtain ⟨all₁, hstep, hholds⟩ := placeEntry_holds p hg (show i < 128 by omega)
      (hzero i le_rfl (by omega))
    have hother := fun off len => placeEntry_other off len hg hstep
    obtain ⟨all₂, hrest, hkeep, hnext, hempty⟩ := @ih all₁ (i+1) (by omega) fun j hj hj' => by
      rw [hother _ _ (by omega), hzero j (by omega) hj']
    refine ⟨all₂, by rw [placeEntries, hstep]; exact hrest, fun off len h => ?_, fun k hk => ?_,
      fun j hj hj' => hempty j (by rw [List.length_cons] at hj; omega) hj'⟩
    · rw [hkeep _ _ (by omega), hother _ _ (by omega)]
    · cases k with
      | zero => exact hholds.congr fun off len _ h => hkeep off len (by omega)
      | succ k =>
        have := hnext k (by simpa using hk)
        rwa [show i+1+k = i+(k+1) by omega] at this

/-! ### What is on the disk -/

theorem protective_mbr (totalLba : ℕ) : protective (mbr totalLba) = true := by
  have hsig : (mbr totalLba).get 510 2 = [0x55, 0xAA] := by
    rw [mbr, get_putLe_ne (by omega), get_putLe_ne (by omega), get_put_ne (by right; decide)]
    exact get_put_same (Block.zero 512) 0x1FE [0x55, 0xAA] (by decide)
  have htype : (mbr totalLba).get (0x1BE+0*16+4) 1 = [0xEE] := by
    rw [mbr, get_putLe_ne (by omega), get_putLe_ne (by omega)]
    exact get_put_same _ (0x1BE+4) [0xEE] (by decide)
  rw [protective, Bool.and_eq_true]
  refine ⟨by rw [hsig]; rfl, List.any_eq_true.mpr ⟨0, by simp, ?_⟩⟩
  rw [htype]
  rfl

theorem seal_get (hdr : Sector) (h : off+len ≤ 16 ∨ 20 ≤ off) :
    (sealHeader hdr).get off len = hdr.get off len := by
  rw [sealHeader, get_putLe_ne (by omega), get_putLe_ne (by omega)]

theorem primaryHeader_fields (totalLba : ℕ) (parts : List GptPartitionDef) (all : Entries) :
    (primaryHeader totalLba parts all).get 0 8 = signature ∧
      (primaryHeader totalLba parts all).getLe 72 8 = 2 ∧
      (primaryHeader totalLba parts all).getLe 80 4 = 128 ∧
      (primaryHeader totalLba parts all).getLe 84 4 = 128 := by
  have hg := diskGuid_length parts
  simp only [primaryHeader]
  refine ⟨?_, ?_, ?_, ?_⟩
  · rw [seal_get _ (by omega)]
    simp (disch := omega) only [get_put_ne, get_putLe_ne]
    exact get_put_same (Block.zero 512) 0 signature (by decide)
  all_goals rw [Block.getLe, seal_get _ (by omega), ← Block.getLe]
  · rw [getLe_putLe_ne (by omega), getLe_putLe_ne (by omega), getLe_putLe_ne (by omega),
      getLe_putLe_of_lt (by omega) (by decide), entriesLba]
  · rw [getLe_putLe_ne (by omega), getLe_putLe_ne (by omega),
      getLe_putLe_of_lt (by omega) (by decide), entryCount]
  · rw [getLe_putLe_ne (by omega), getLe_putLe_of_lt (by omega) (by decide), entrySize]

theorem entrySector_get (all : Entries) {k : ℕ} (hk : k < 32) (h : off+len ≤ 512) :
    (entrySector all k).get off len = all.get (k*512+off) len := by
  have hlen : (all.get (k*512) 512).length = 512 := get_length all _ _ (by omega)
  rw [entrySector, show min (k*512+512) 16384-k*512 = 512 by omega,
    get_put_inside (by omega) (by omega) (by omega), Nat.sub_zero]
  exact slice_slice all.bytes (k*512) 512 off len h

theorem format_data (d : Disk) (all : Entries) (m hdr backup cleared : Sector) (hsize : 68 ≤ totalLba)
    (hfit : ∀ part ∈ parts, Fits totalLba part) :
    (puts d ((0, m)::tableWrites totalLba parts all hdr backup cleared)).data 0 = m ∧
    (puts d ((0, m)::tableWrites totalLba parts all hdr backup cleared)).data 1 = hdr ∧
    ∀ k < 32, (puts d ((0, m)::tableWrites totalLba parts all hdr backup cleared)).data (2+k) =
      entrySector all k := by
  set first := (0, m)::(entryWrites entriesLba all++[(1, hdr)]) with hfirst
  set later := entryWrites (totalLba-1-32) all++[(totalLba-1, backup)]++
    parts.map fun part => (part.lbaStart.toNat, cleared) with hlater
  have hsplit : (0, m)::tableWrites totalLba parts all hdr backup cleared = first++later := rfl
  have hhigh : ∀ lba < 34, lba ∉ later.map Prod.fst := by
    intro lba hlba hmem
    simp only [hlater, entryWrites, List.map_append, List.map_map, List.mem_append, List.mem_map,
      List.mem_range, List.map_cons, List.map_nil, List.mem_singleton, Function.comp_apply] at hmem
    rcases hmem with (⟨i, -, hi⟩ | hi) | ⟨part, hp, hi⟩
    · omega
    · omega
    · have := (hfit part hp).first
      omega
  have hnodup : (first.map Prod.fst).Nodup := by
    have hkeys : first.map Prod.fst = 0::((List.range 32).map (2+·)++[1]) := by
      simp only [hfirst, entryWrites, entriesLba, List.map_cons, List.map_append, List.map_map,
        List.map_nil]
      rfl
    rw [hkeys]
    decide
  have hread : ∀ lba s, lba < 34 → (lba, s) ∈ first →
      (puts d ((0, m)::tableWrites totalLba parts all hdr backup cleared)).data lba = s := by
    intro lba s hlba hmem
    rw [hsplit, puts_append, puts_data_other (hhigh lba hlba), puts_data_mem hnodup hmem]
  refine ⟨hread 0 m (by omega) (by simp [hfirst]), hread 1 hdr (by omega) (by simp [hfirst]),
    fun k hk => hread (2+k) _ (by omega) ?_⟩
  refine List.mem_cons_of_mem _ (List.mem_append_left _ (List.mem_map.mpr ⟨k, ?_, rfl⟩))
  exact List.mem_range.mpr hk

/-! ### Where it writes -/

def TableSector (totalLba : ℕ) (parts : List GptPartitionDef) (lba : ℕ) : Prop :=
  lba < 34 ∨ (totalLba-33 ≤ lba ∧ lba < totalLba) ∨ ∃ part ∈ parts, lba = part.lbaStart.toNat

theorem write_within {R : ℕ → Prop} (h : R lba) : Keeps (Within R d) (write lba s) :=
  (writeSector_within h).orFail _

theorem writeEntries_within {R : ℕ → Prop} (h : ∀ i < 32, R (lba+i)) :
    Keeps (Within R d) (writeEntries lba all) :=
  keeps_each _ fun i hi => write_within (h i (List.mem_range.mp hi))

theorem writeTable_within (hsize : 34 < totalLba) (hdr backup cleared : Sector) :
    Keeps (Within (TableSector totalLba parts) d)
      (writeTable totalLba parts all hdr backup cleared) := by
  have hfirst : ∀ i < 34, TableSector totalLba parts i := fun i hi => .inl hi
  have hlast : ∀ i < 33, TableSector totalLba parts (totalLba-33+i) :=
    fun i hi => .inr (.inl ⟨by omega, by omega⟩)
  refine (writeEntries_within fun i hi => ?_).bind fun _ => (write_within ?_).bind fun _ =>
    (writeEntries_within fun i hi => ?_).bind fun _ => (write_within ?_).bind fun _ => ?_
  · exact hfirst (entriesLba+i) (by rw [entriesLba]; omega)
  · exact hfirst 1 (by omega)
  · exact hlast i (by omega)
  · rw [show totalLba-1 = totalLba-33+32 by omega]
    exact hlast 32 (by omega)
  · exact keeps_each _ fun part hp => (write_within (.inr (.inr ⟨part, hp, rfl⟩))).ignore

/-- Whether the format succeeds, fails at a request or panics on its table. -/
theorem format_confined (totalLba : ℕ) (parts : List GptPartitionDef) (d : Disk) :
    Within (TableSector totalLba parts) d ((gptFormatMulti totalLba parts).run d).2 := by
  have hkeeps : Keeps (Within (TableSector totalLba parts) d) (gptFormatMulti totalLba parts) := by
    refine Keeps.ite (fun _ => keeps_fail) fun hlarge =>
      Keeps.ite (fun _ => keeps_fail) fun _ => ?_
    have hsize : 34 < totalLba := not_le.mp (not_or.mp hlarge).1
    exact (write_within (.inl (by omega))).bind fun _ => (keeps_need _ _).bind fun all =>
      writeTable_within hsize _ _ _
  exact hkeeps d (Within.refl d)

end NeuralOs.Gpt.Written
