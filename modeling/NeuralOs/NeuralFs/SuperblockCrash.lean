import NeuralOs.NeuralFs.BlockDev
import NeuralOs.NeuralFs.Checksum

/-!
# Updating the superblock across a crash

`Superblock.write` makes sixteen sector writes, eight for each copy, and a crash
keeps a prefix of them. All that a superblock stores stands in the first sector of
a copy, so the first write already turns copy one into the new encoding.
-/

set_option autoImplicit false

namespace NeuralOs.NeuralFs.SuperblockCodec

open ByteString ByteBlock Fallible BlockDev Checksum

def superblockMagic : Bytes := [0x4E, 0x45, 0x55, 0x52, 0x41, 0x4C, 0x46, 0x53]

structure Superblock where
  magic : Bytes
  version : ℕ
  totalBlocks : ℕ
  freeBlocks : ℕ
  allocatedInodes : UInt64
  lastTxId : ℕ
  rootInode : UInt64
  inodeTreeRoot : ℕ
  freeExtentRoot : ℕ
  checksumTreeRoot : ℕ
  journalStart : ℕ
  journalBlocks : ℕ
  uuid : ℕ × ℕ
  nextCowBlock : ℕ
  deriving DecidableEq

def checkBlock (block : Page) : Option Page :=
  if block.get 0 8 ≠ superblockMagic then none
  else if block.getLe 12 4 ≠ (crc32c ((block.putLe 12 4 0).get 4 4092)).toNat then none
  else some (block.putLe 12 4 0)

def readBlock (d : Disk) (startLba blockNum : ℕ) : Option Page :=
  (readPage d (startLba+blockNum*8)).bind checkBlock

def decode (block : Page) : Superblock where
  magic := superblockMagic
  version := block.getLe 8 4
  totalBlocks := block.getLe 16 8
  freeBlocks := block.getLe 24 8
  allocatedInodes := UInt64.ofNat (block.getLe 32 8)
  lastTxId := block.getLe 40 8
  rootInode := UInt64.ofNat (block.getLe 56 8)
  inodeTreeRoot := block.getLe 64 8
  freeExtentRoot := block.getLe 72 8
  checksumTreeRoot := block.getLe 80 8
  journalStart := block.getLe 88 8
  journalBlocks := block.getLe 96 8
  uuid := (block.getLe 104 8, block.getLe 112 8)
  nextCowBlock := block.getLe 120 8

def Superblock.read (d : Disk) (startLba : ℕ) : Option Superblock :=
  ((readBlock d startLba 1).orElse fun _ => readBlock d startLba 2).map decode

def Superblock.body (sb : Superblock) : Page :=
  (Block.zero 4096).put 0 superblockMagic
    |>.putLe 8 4 sb.version
    |>.putLe 12 4 0
    |>.putLe 16 8 sb.totalBlocks
    |>.putLe 24 8 sb.freeBlocks
    |>.putLe 32 8 sb.allocatedInodes.toNat
    |>.putLe 40 8 sb.lastTxId
    |>.putLe 56 8 sb.rootInode.toNat
    |>.putLe 64 8 sb.inodeTreeRoot
    |>.putLe 72 8 sb.freeExtentRoot
    |>.putLe 80 8 sb.checksumTreeRoot
    |>.putLe 88 8 sb.journalStart
    |>.putLe 96 8 sb.journalBlocks
    |>.putLe 104 8 sb.uuid.1
    |>.putLe 112 8 sb.uuid.2
    |>.putLe 120 8 sb.nextCowBlock

def Superblock.encodeBlock (sb : Superblock) : Page :=
  sb.body.putLe 12 4 (crc32c (sb.body.get 4 4092)).toNat

def Superblock.write (sb : Superblock) (startLba : ℕ) : Act Disk Unit Unit := do
  writePage (startLba+1*8) sb.encodeBlock
  writePage (startLba+2*8) sb.encodeBlock

structure Fits (sb : Superblock) : Prop where
  magic : sb.magic = superblockMagic
  version : sb.version < 2^32
  totalBlocks : sb.totalBlocks < 2^64
  freeBlocks : sb.freeBlocks < 2^64
  lastTxId : sb.lastTxId < 2^64
  inodeTreeRoot : sb.inodeTreeRoot < 2^64
  freeExtentRoot : sb.freeExtentRoot < 2^64
  checksumTreeRoot : sb.checksumTreeRoot < 2^64
  journalStart : sb.journalStart < 2^64
  journalBlocks : sb.journalBlocks < 2^64
  uuid : sb.uuid.1 < 2^64 ∧ sb.uuid.2 < 2^64
  nextCowBlock : sb.nextCowBlock < 2^64

/-! ## Encoding and decoding -/

theorem body_crc_zero (sb : Superblock) : sb.body.get 12 4 = toLe 4 0 := by
  unfold Superblock.body
  simp (disch := omega) only [get_putLe_ne]
  exact get_put_same _ 12 (toLe 4 0) (by decide)

theorem body_magic (sb : Superblock) : sb.body.get 0 8 = superblockMagic := by
  unfold Superblock.body
  simp (disch := omega) only [get_putLe_ne]
  exact get_put_same _ 0 superblockMagic (by decide)

theorem decode_body (sb : Superblock) (h : Fits sb) : decode sb.body = sb := by
  obtain ⟨hm, hv, h1, h2, h3, h4, h5, h6, h7, h8, h9, h10⟩ := h
  have ha := sb.allocatedInodes.toNat_lt
  have hr := sb.rootInode.toNat_lt
  cases sb
  simp only at *
  unfold decode Superblock.body
  simp (disch := omega) only [getLe_putLe_ne, getLe_putLe, Nat.reducePow, Nat.mod_eq_of_lt,
    UInt64.ofNat_toNat, hm]

theorem encodeBlock_magic (sb : Superblock) : sb.encodeBlock.get 0 8 = superblockMagic := by
  rw [Superblock.encodeBlock, get_putLe_ne (by omega), body_magic]

theorem encodeBlock_cleared (sb : Superblock) : sb.encodeBlock.putLe 12 4 0 = sb.body := by
  have hb := put_put_get sb.body 12 (toLe 4 (crc32c (sb.body.get 4 4092)).toNat)
    (by rw [toLe_length]; omega)
  rw [toLe_length, body_crc_zero] at hb
  rw [Superblock.encodeBlock, Block.putLe, Block.putLe, hb]

theorem encodeBlock_crc (sb : Superblock) :
    sb.encodeBlock.getLe 12 4 = (crc32c (sb.body.get 4 4092)).toNat := by
  rw [Superblock.encodeBlock]
  exact getLe_putLe_of_lt (by omega) (crc32c_lt _)

theorem checkBlock_eq {block body : Page} (hm : block.get 0 8 = superblockMagic)
    (hz : block.putLe 12 4 0 = body) (hc : block.getLe 12 4 = (crc32c (body.get 4 4092)).toNat) :
    checkBlock block = some body := by
  rw [checkBlock, if_neg (not_not.mpr hm), hz, if_neg (not_not.mpr hc)]

theorem readBlock_encode (d : Disk) (startLba n : ℕ) (sb : Superblock)
    (hn : startLba+n*8+7 < d.sectors) (hp : d.pageAt (startLba+n*8) = sb.encodeBlock) :
    readBlock d startLba n = some sb.body := by
  rw [readBlock, readPage_some d hn, hp, Option.bind_some]
  exact checkBlock_eq (encodeBlock_magic sb) (encodeBlock_cleared sb) (encodeBlock_crc sb)

theorem read_of_first (d : Disk) (startLba : ℕ) (sb : Superblock) (h : Fits sb)
    (hn : startLba+1*8+7 < d.sectors) (hp : d.pageAt (startLba+1*8) = sb.encodeBlock) :
    Superblock.read d startLba = some sb := by
  rw [Superblock.read, readBlock_encode d startLba 1 sb hn hp]
  exact congrArg some (decode_body sb h)

def putSuperblock (d : Disk) (startLba : ℕ) (sb : Superblock) : Disk :=
  (d.putPage (startLba+1*8) sb.encodeBlock).putPage (startLba+2*8) sb.encodeBlock

end NeuralOs.NeuralFs.SuperblockCodec

/-! ## Updating the superblock across a crash -/

namespace NeuralOs.NeuralFs.SuperblockCrash

open ByteString ByteBlock Fallible BlockDev BlockWrites SuperblockCodec

def writes (sb : Superblock) (startLba : ℕ) : List (ℕ × Sector) :=
  pageWrites (startLba+1*8) sb.encodeBlock ++ pageWrites (startLba+2*8) sb.encodeBlock

def afterWrites (d : Disk) (ws : List (ℕ × Sector)) : Disk :=
  ws.foldl (fun d w => d.put w.1 w.2) d

/-- One of the two copies fails its magic or its CRC, the other is as it was in `d`. -/
def OneCopyDamaged (d e : Disk) (startLba : ℕ) : Prop :=
  e.sectors = d.sectors ∧
    (readBlock e startLba 1 = none ∧ e.pageAt (startLba+2*8) = d.pageAt (startLba+2*8) ∨
      readBlock e startLba 2 = none ∧ e.pageAt (startLba+1*8) = d.pageAt (startLba+1*8))

/-! ## What a prefix of the writes leaves -/

theorem writes_length (sb : Superblock) (startLba : ℕ) : (writes sb startLba).length = 16 := by
  simp [writes, pageWrites]

theorem afterWrites_take (d : Disk) (sb : Superblock) (startLba k : ℕ) :
    afterWrites d ((writes sb startLba).take k) =
      (d.putSectors (startLba+1*8) sb.encodeBlock (min k 8)).putSectors (startLba+2*8)
        sb.encodeBlock (min (k-8) 8) := by
  have hl : (pageWrites (startLba+1*8) sb.encodeBlock).length = 8 := by simp [pageWrites]
  rw [writes, List.take_append, hl, pageWrites_take, pageWrites_take, putSectors_eq, putSectors_eq]
  exact puts_append

theorem sectorOf_encodeBlock (sb : Superblock) (i : ℕ) (h0 : 0 < i) (h : i < 8) :
    (sectorOf sb.encodeBlock i).bytes = zeros 512 := by
  rw [sectorOf_bytes _ _ h, Superblock.encodeBlock, Superblock.body]
  simp (disch := omega) only [get_putLe_ne]
  rw [get_put_ne (Or.inr (by simp [superblockMagic]; omega))]
  exact get_zero (by omega)

theorem sectorOf_encodeBlock_eq (a b : Superblock) (i : ℕ) (h0 : 0 < i) (h : i < 8) :
    sectorOf a.encodeBlock i = sectorOf b.encodeBlock i := by
  apply Block.ext
  rw [sectorOf_encodeBlock a i h0 h, sectorOf_encodeBlock b i h0 h]

theorem pageAt_putSectors_encode {d : Disk} {lba k : ℕ} {old new : Superblock}
    (hd : d.pageAt lba = old.encodeBlock) (h0 : 0 < k) :
    (d.putSectors lba new.encodeBlock k).pageAt lba = new.encodeBlock := by
  apply pageAt_of_sectors
  intro i hi
  rw [putSectors_data]
  by_cases hk : i < k
  · rw [if_pos (by omega), Nat.add_sub_cancel_left]
  · rw [if_neg (by omega), ← sectorOf_pageAt d lba i hi, hd]
    exact sectorOf_encodeBlock_eq old new i (by omega) hi

theorem pageAt_putSectors_ne {d : Disk} {lba m k : ℕ} {p : Page} (hk : k ≤ 8)
    (h : m+8 ≤ lba ∨ lba+8 ≤ m) : (d.putSectors lba p k).pageAt m = d.pageAt m := by
  apply pageAt_congr
  intro i hi
  rw [putSectors_data, if_neg (by omega)]

section
variable {d : Disk} {startLba : ℕ} {old new : Superblock}

structure Stored (d : Disk) (startLba : ℕ) (old : Superblock) : Prop where
  first : readPage d (startLba+1*8) = some old.encodeBlock
  second : readPage d (startLba+2*8) = some old.encodeBlock

theorem readPage_inv {lba : ℕ} {p : Page} (h : readPage d lba = some p) :
    lba+7 < d.sectors ∧ d.pageAt lba = p := by
  unfold readPage at h
  split at h
  · next hall =>
    have h7 := List.all_eq_true.mp hall 7 (by simp)
    exact ⟨by simpa using h7, Option.some.inj h⟩
  · cases h

theorem stored_putSuperblock (d : Disk) (startLba : ℕ) (sb : Superblock)
    (h : startLba+2*8+7 < d.sectors) : Stored (putSuperblock d startLba sb) startLba sb := by
  constructor
  · rw [readPage_some _ (by simp [putSuperblock]; omega), putSuperblock,
      pageAt_putPage_ne (by omega), pageAt_putPage]
  · rw [readPage_some _ (by simpa [putSuperblock] using h), putSuperblock, pageAt_putPage]

theorem read_of_second (h : Fits new) (hf : readBlock d startLba 1 = none)
    (hn : startLba+2*8+7 < d.sectors) (hp : d.pageAt (startLba+2*8) = new.encodeBlock) :
    Superblock.read d startLba = some new := by
  rw [Superblock.read, hf, readBlock_encode d startLba 2 new hn hp]
  exact congrArg some (decode_body new h)

theorem afterWrites_first (hs : Stored d startLba old) {k : ℕ} (hk : 0 < k) :
    (afterWrites d ((writes new startLba).take k)).pageAt (startLba+1*8) = new.encodeBlock := by
  rw [afterWrites_take, pageAt_putSectors_ne (by omega) (by omega)]
  exact pageAt_putSectors_encode (readPage_inv hs.first).2 (by omega)

theorem afterWrites_second (hs : Stored d startLba old) :
    (afterWrites d (writes new startLba)).pageAt (startLba+2*8) = new.encodeBlock := by
  have hall : (writes new startLba).take 16 = writes new startLba :=
    List.take_of_length_le (writes_length new startLba).le
  rw [← hall, afterWrites_take]
  have hold : (d.putSectors (startLba+1*8) new.encodeBlock (min 16 8)).pageAt (startLba+2*8) =
      old.encodeBlock := by
    rw [pageAt_putSectors_ne (by omega) (by omega)]
    exact (readPage_inv hs.second).2
  exact pageAt_putSectors_encode hold (by omega)

@[simp] theorem afterWrites_sectors (ws : List (ℕ × Sector)) :
    (afterWrites d ws).sectors = d.sectors := puts_sectors

theorem read_afterWrites (hs : Stored d startLba old) (hn : Fits new) {k : ℕ} (hk : 0 < k) :
    Superblock.read (afterWrites d ((writes new startLba).take k)) startLba = some new := by
  apply read_of_first _ _ _ hn
  · rw [afterWrites_sectors]
    exact (readPage_inv hs.first).1
  · exact afterWrites_first hs hk

theorem read_damaged (hs : Stored d startLba old) (hn : Fits new) {e : Disk}
    (he : OneCopyDamaged (afterWrites d (writes new startLba)) e startLba) :
    Superblock.read e startLba = some new := by
  obtain ⟨hsec, hdam⟩ := he
  rw [afterWrites_sectors] at hsec
  have hall : (writes new startLba).take 16 = writes new startLba :=
    List.take_of_length_le (writes_length new startLba).le
  rcases hdam with ⟨hbad, hgood⟩ | ⟨-, hgood⟩
  · rw [afterWrites_second hs] at hgood
    exact read_of_second hn hbad (by rw [hsec]; exact (readPage_inv hs.second).1) hgood
  · rw [← hall, afterWrites_first hs (by omega)] at hgood
    exact read_of_first _ _ _ hn (by rw [hsec]; exact (readPage_inv hs.first).1) hgood

end

/-! ## What `write` does on any device -/

def MadeWrites (d e : Disk) (ws : List (ℕ × Sector)) (m : ℕ) : Prop :=
  e.log = d.log ++ ws.take m ∧ e.data = (afterWrites d (ws.take m)).data

theorem write_eq (sb : Superblock) (startLba : ℕ) :
    sb.write startLba = Act.each (fun w => writeSector w.1 w.2) (writes sb startLba) := by
  rw [writes, each_append, ← writePage_eq, ← writePage_eq]
  rfl

theorem write_ends (sb : Superblock) (startLba : ℕ) (d : Disk) :
    Ends (sb.write startLba) d (fun _ e => MadeWrites d e (writes sb startLba) 16)
      (fun _ e => ∃ m < 16, MadeWrites d e (writes sb startLba) m) := by
  rw [write_eq]
  refine ends_mono (writes_ends _ d) ?_ ?_
  · rintro - e ⟨rfl, -⟩
    rw [MadeWrites, List.take_of_length_le (writes_length sb startLba).le]
    exact ⟨puts_log, rfl⟩
  · rintro - e ⟨m, hm, rfl, -⟩
    exact ⟨m, writes_length sb startLba ▸ hm, puts_log, rfl⟩

/-- Both copies hold `old`, and `write` makes sixteen sector writes in order, or the first of
them up to a failed request. After any prefix of them the reader gets `old` or `new`, after all
of them `new`, also if one copy is then damaged. -/
theorem superblock_update_atomic (old new : Superblock) (d : Disk) (startLba : ℕ)
    (ho : Fits old) (hn : Fits new) (hs : Stored d startLba old) :
    (writes new startLba).length = 16 ∧
    Ends (new.write startLba) d (fun _ e => MadeWrites d e (writes new startLba) 16)
      (fun _ e => ∃ m < 16, MadeWrites d e (writes new startLba) m) ∧
    (∀ k, Superblock.read (afterWrites d ((writes new startLba).take k)) startLba = some old ∨
      Superblock.read (afterWrites d ((writes new startLba).take k)) startLba = some new) ∧
    Superblock.read (afterWrites d (writes new startLba)) startLba = some new ∧
    ∀ e, OneCopyDamaged (afterWrites d (writes new startLba)) e startLba →
      Superblock.read e startLba = some new := by
  refine ⟨writes_length new startLba, write_ends new startLba d, ?_, ?_, ?_⟩
  · intro k
    rcases Nat.eq_zero_or_pos k with rfl | hk
    · left
      obtain ⟨hin, hp⟩ := readPage_inv hs.first
      exact read_of_first d startLba old ho hin hp
    · exact Or.inr (read_afterWrites hs hn hk)
  · have hall : (writes new startLba).take 16 = writes new startLba :=
      List.take_of_length_le (writes_length new startLba).le
    rw [← hall]
    exact read_afterWrites hs hn (by omega)
  · exact fun e he => read_damaged hs hn he

def smallVolume (tx : ℕ) : Superblock where
  magic := superblockMagic
  version := 2
  totalBlocks := 64
  freeBlocks := 51
  allocatedInodes := 1
  lastTxId := tx
  rootInode := 1
  inodeTreeRoot := 12
  freeExtentRoot := 11
  checksumTreeRoot := 0
  journalStart := 3
  journalBlocks := 8
  uuid := (0, 0)
  nextCowBlock := 13

def emptyDisk : Disk := blankDisk 24

theorem smallVolume_update_atomic :
    Stored (putSuperblock emptyDisk 0 (smallVolume 0)) 0 (smallVolume 0) ∧
    Superblock.read (afterWrites (putSuperblock emptyDisk 0 (smallVolume 0))
      (writes (smallVolume 1) 0)) 0 = some (smallVolume 1) := by
  have hs := stored_putSuperblock emptyDisk 0 (smallVolume 0) (by decide)
  have h := superblock_update_atomic (smallVolume 0) (smallVolume 1) _ 0
    (by constructor <;> decide) (by constructor <;> decide) hs
  exact ⟨hs, h.2.2.2.1⟩

end NeuralOs.NeuralFs.SuperblockCrash
