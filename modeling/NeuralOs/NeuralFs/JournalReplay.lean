import NeuralOs.NeuralFs.SuperblockCrash

/-!
# Committing a journal and recovering it

`commit` computes the header CRC with the CRC field still zero, `recover` over the
header with the field filled in. The two agree only if the CRC is zero, so a
committed transaction is replayed in that case and refused in every other one.
-/

set_option autoImplicit false

namespace NeuralOs.NeuralFs.JournalLog

open ByteString ByteBlock Fallible BlockDev Checksum SuperblockCodec

def journalMagic : Bytes := [0x4E, 0x52, 0x46, 0x53, 0x4A, 0x52, 0x4E, 0x4C]

structure Journal where
  txId : ℕ
  dirtyBlocks : List (ℕ × Page)

namespace Journal

def new : Journal := ⟨0, []⟩

def beginTx (_ : Journal) (txId : ℕ) : Journal := ⟨txId, []⟩

def logBlock (j : Journal) (blockAddr : ℕ) (data : Page) : Journal :=
  { j with dirtyBlocks := j.dirtyBlocks ++ [(blockAddr, data)] }

def putAddrs (header : Sector) : List (ℕ × Page) → ℕ → Sector
  | [], _ => header
  | e::es, i => putAddrs (header.putLe (24+i*8) 8 e.1) es (i+1)

def plainHeader (j : Journal) : Sector :=
  putAddrs ((Block.zero 512).put 0 journalMagic
    |>.putLe 8 8 j.txId
    |>.putLe 16 4 j.dirtyBlocks.length) j.dirtyBlocks 0

def headerCrc (j : Journal) : UInt32 :=
  crc32c (j.plainHeader.get 0 (24+j.dirtyBlocks.length*8))

def header (j : Journal) : Sector := j.plainHeader.putLe 20 4 j.headerCrc.toNat

def commit (j : Journal) (startLba : ℕ) (sb : Superblock) : Act Disk Unit Unit :=
  let count := j.dirtyBlocks.length
  let journalLba := startLba+sb.journalStart*8
  if count = 0 then pure ()
  else if sb.journalBlocks ≤ count then Act.fail ()
  else if 512 < 24+count*8 then Act.fail ()
  else do
    Act.each (fun e => writeWrapping (journalLba+1+e.2*8) e.1.2) j.dirtyBlocks.zipIdx
    writeSector (u64 journalLba) j.header

def replay (startLba : ℕ) (sb : Superblock) (header : Sector) (i : ℕ) : Act Disk Unit Unit :=
  let ba := header.getLe (24+i*8) 8
  if ba < u64 (sb.inodeTreeRoot+2) ∨ sb.totalBlocks ≤ ba then Act.fail ()
  else do
    let page ← Act.look fun d => readWrapping d (startLba+sb.journalStart*8+1+i*8)
    let data ← Act.need () page
    writeWrapping (startLba+ba*8) data

def recoverFrom (startLba : ℕ) (sb : Superblock) (header : Sector) : Act Disk Unit Unit :=
  let count := header.getLe 16 4
  if header.get 0 8 ≠ journalMagic then pure ()
  else if header.getLe 8 8 ≤ sb.lastTxId then pure ()
  else if count = 0 ∨ sb.journalBlocks ≤ count then pure ()
  else if 512 < 24+count*8 then Act.fail ()
  else if header.getLe 20 4 ≠ (crc32c (header.get 0 (24+count*8))).toNat then Act.fail ()
  else do
    Act.each (replay startLba sb header) (List.range count)
    Act.ignore (writeSector (u64 (startLba+sb.journalStart*8)) (Block.zero 512))

def recover (startLba : ℕ) (sb : Superblock) : Act Disk Unit Unit := do
  let sector ← Act.look fun d => readSector d (u64 (startLba+sb.journalStart*8))
  let header ← Act.need () sector
  recoverFrom startLba sb header

end Journal

end NeuralOs.NeuralFs.JournalLog

/-! ## Where the journal writes -/

namespace NeuralOs.NeuralFs.JournalRegion
open Fallible BlockDev BlockWrites SuperblockCodec JournalLog Journal

variable (startLba : ℕ) (sb : Superblock) (d : Disk)

def journalLba : ℕ := startLba+sb.journalStart*8

/-! ## Commit -/

def LogSector (lba : ℕ) : Prop :=
  ∃ m, 0 < m ∧ m < sb.journalBlocks*8 ∧ lba = u64 (journalLba startLba sb+m)

def logWrites (j : Journal) : List (ℕ × Sector) :=
  j.dirtyBlocks.zipIdx.flatMap fun e =>
    (List.range 8).map fun i => (u64 (journalLba startLba sb+1+e.2*8+i), sectorOf e.1.2 i)

def Logged (j : Journal) (e : Disk) : Prop :=
  ∀ k (h : k < j.dirtyBlocks.length), ∀ i < 8,
    e.data (u64 (journalLba startLba sb+1+k*8+i)) = sectorOf j.dirtyBlocks[k].2 i

variable {startLba sb d} {j : Journal}

theorem pages_eq : Act.each (fun e => writeWrapping (journalLba startLba sb+1+e.2*8) e.1.2)
    j.dirtyBlocks.zipIdx = Act.each (fun w => writeSector w.1 w.2) (logWrites startLba sb j) := by
  rw [logWrites, each_flatMap]
  simp only [each_map]
  rfl

theorem mem_logWrites {w : ℕ × Sector} : w ∈ logWrites startLba sb j ↔
    ∃ k, ∃ h : k < j.dirtyBlocks.length, ∃ i < 8,
      (u64 (journalLba startLba sb+1+k*8+i), sectorOf j.dirtyBlocks[k].2 i) = w := by
  simp only [logWrites, List.mem_flatMap, List.mem_map, List.mem_range, Prod.exists,
    List.mk_mem_zipIdx_iff_getElem?, List.getElem?_eq_some_iff]
  constructor
  · rintro ⟨ba, p, k, ⟨hk, he⟩, i, hi, rfl⟩
    exact ⟨k, hk, i, hi, by rw [he]⟩
  · rintro ⟨k, hk, i, hi, rfl⟩
    exact ⟨_, _, k, ⟨hk, rfl⟩, i, hi, rfl⟩

theorem logWrites_length : (logWrites startLba sb j).length = 8*j.dirtyBlocks.length := by
  simp [logWrites, List.length_flatMap, Nat.mul_comm]

theorem logWrites_region (hcount : j.dirtyBlocks.length < sb.journalBlocks) :
    ∀ w ∈ logWrites startLba sb j, LogSector startLba sb w.1 := by
  intro w hw
  obtain ⟨k, hk, i, hi, rfl⟩ := mem_logWrites.mp hw
  exact ⟨1+k*8+i, by omega, by omega, by simp only [Nat.add_assoc]⟩

-- the addresses of a table that fits its sector are distinct, wherever they wrap
theorem logWrites_other (htable : 24+j.dirtyBlocks.length*8 ≤ 512) :
    u64 (journalLba startLba sb) ∉ (logWrites startLba sb j).map Prod.fst := by
  intro h
  obtain ⟨w, hw, hlba⟩ := List.mem_map.mp h
  obtain ⟨k, hk, i, hi, rfl⟩ := mem_logWrites.mp hw
  simp only [u64] at hlba
  omega

theorem logged_puts (htable : 24+j.dirtyBlocks.length*8 ≤ 512) :
    Logged startLba sb j (puts d (logWrites startLba sb j)) := by
  intro k hk i hi
  refine puts_data_of_unique (mem_logWrites.mpr ⟨k, hk, i, hi, rfl⟩) fun w hw hlba => ?_
  obtain ⟨m, hm, n, hn, rfl⟩ := mem_logWrites.mp hw
  simp only [u64] at hlba
  obtain rfl : m = k := by omega
  obtain rfl : n = i := by omega
  rfl

variable (startLba sb d)

/-- A commit fills the log and only then writes the header: a request is made only if all
before it were carried out. -/
theorem commit_writes_ahead (j : Journal) :
    Ends (commit j startLba sb) d
      (fun _ e => j.dirtyBlocks = [] ∧ e = d ∨
        ∃ t, Within (LogSector startLba sb) d t ∧ t.log = d.log ++ logWrites startLba sb j ∧
          Logged startLba sb j t ∧ e = t.put (u64 (journalLba startLba sb)) j.header)
      (fun _ e => Within (LogSector startLba sb) d e ∧
        e.data (u64 (journalLba startLba sb)) = d.data (u64 (journalLba startLba sb)) ∧
        (e = d ∨ ∃ k ≤ 8*j.dirtyBlocks.length, e.tries = d.tries+k+1 ∧
          e.log = d.log ++ (logWrites startLba sb j).take k)) := by
  rw [commit]
  split
  · next hzero => exact ends_pure (.inl ⟨List.length_eq_zero_iff.mp hzero, rfl⟩)
  split
  · exact ends_fail ⟨Within.refl d, rfl, .inl rfl⟩
  next hcount =>
  split
  · exact ends_fail ⟨Within.refl d, rfl, .inl rfl⟩
  next htable =>
  have hregion : ∀ w ∈ logWrites startLba sb j, LogSector startLba sb w.1 :=
    logWrites_region (not_le.mp hcount)
  have hother : u64 (journalLba startLba sb) ∉ (logWrites startLba sb j).map Prod.fst :=
    logWrites_other (not_lt.mp htable)
  have hlen : (logWrites startLba sb j).length = 8*j.dirtyBlocks.length := logWrites_length
  have hwithin := puts_within (d := d) hregion
  rw [← journalLba, pages_eq]
  refine ends_bind (ends_mono (writes_ends _ d) ?_ ?_)
  · rintro _ t ⟨rfl, -⟩
    refine ends_mono (writeSector_ends _ _ _) ?_ ?_
    · rintro _ e ⟨rfl, -⟩
      exact .inr ⟨_, hwithin, puts_log, logged_puts (not_lt.mp htable), rfl⟩
    rintro _ e ⟨rfl, -⟩
    refine ⟨⟨hwithin.data, hwithin.log⟩, puts_data_other hother, .inr ⟨_, le_rfl, ?_, ?_⟩⟩
    · rw [← hlen]
      exact congrArg (·+1) puts_tries
    · rw [← hlen, List.take_length]
      exact puts_log
  · rintro _ e ⟨k, hk, rfl, -⟩
    have htake := puts_within (d := d) fun w hw => hregion w (List.mem_of_mem_take (i := k) hw)
    refine ⟨⟨htake.data, htake.log⟩, puts_data_other fun hm => hother ?_,
      .inr ⟨k, by omega, rfl, puts_log⟩⟩
    rw [List.map_take] at hm
    exact List.mem_of_mem_take hm

/-! ## Recovery -/

def DataSector (lba : ℕ) : Prop :=
  ∃ ba, sb.inodeTreeRoot+2 ≤ ba ∧ ba < sb.totalBlocks ∧ startLba+ba*8 ≤ lba ∧
    lba < startLba+ba*8+8

/-- The volume ends where 64-bit sector addresses end, or before. -/
structure Addressable : Prop where
  blocks : startLba+sb.totalBlocks*8 ≤ 2^64
  root : sb.inodeTreeRoot+2 < 2^64

theorem replay_within (ha : Addressable startLba sb) (header : Sector) (i : ℕ) :
    Keeps (Within (fun lba => lba = u64 (journalLba startLba sb) ∨ DataSector startLba sb lba) d)
      (replay startLba sb header i) := by
  have hblocks := ha.blocks
  rw [replay, u64_of_lt ha.root]
  refine Keeps.ite (fun _ => keeps_fail) fun hba => ?_
  obtain ⟨hlow, hhigh⟩ := not_or.mp hba
  refine (keeps_look _).bind fun page => (keeps_need _ page).bind fun data => ?_
  rw [writeWrapping_of_lt data (by omega)]
  apply writePage_within
  intro k hk
  exact .inr ⟨_, not_lt.mp hlow, not_le.mp hhigh, by omega, by omega⟩

/-- Whatever the journal holds, recovery changes the header of the journal and data blocks. -/
theorem recover_confined (ha : Addressable startLba sb) :
    Within (fun lba => lba = u64 (journalLba startLba sb) ∨ DataSector startLba sb lba) d
      ((recover startLba sb).run d).2 := by
  have hkeeps : Keeps (Within (fun lba => lba = u64 (journalLba startLba sb) ∨
      DataSector startLba sb lba) d) (recover startLba sb) := by
    refine (keeps_look _).bind fun sector => (keeps_need _ sector).bind fun header => ?_
    rw [recoverFrom]
    refine Keeps.ite (fun _ => keeps_pure _) fun _ => Keeps.ite (fun _ => keeps_pure _) fun _ =>
      Keeps.ite (fun _ => keeps_pure _) fun _ => Keeps.ite (fun _ => keeps_fail) fun _ =>
      Keeps.ite (fun _ => keeps_fail) fun _ => ?_
    have hreplay := keeps_each (List.range (header.getLe 16 4)) fun i _ =>
      replay_within startLba sb d ha header i
    exact hreplay.bind fun _ => (writeSector_within (.inl rfl)).ignore
  exact hkeeps d (Within.refl d)

end NeuralOs.NeuralFs.JournalRegion

/-! ## Committing a journal and recovering it -/

namespace NeuralOs.NeuralFs.JournalReplay

open ByteString ByteBlock Fallible BlockDev BlockWrites Checksum SuperblockCodec JournalLog Journal
  JournalRegion

/-! ## The header read back -/

theorem get_putAddrs {es : List (ℕ × Page)} {h : Sector} {i o len : ℕ} (ho : o+len ≤ 24+i*8) :
    (putAddrs h es i).get o len = h.get o len := by
  induction es generalizing h i with
  | nil => rfl
  | cons e es ih => rw [putAddrs, ih (by omega), get_putLe_ne (by omega)]

theorem getLe_putAddrs (es : List (ℕ × Page)) (h : Sector) (i k : ℕ) (hk : k < es.length)
    (hs : 24+(i+es.length)*8 ≤ 512) :
    (putAddrs h es i).getLe (24+(i+k)*8) 8 = es[k].1 % 256^8 := by
  induction es generalizing h i k with
  | nil => simp at hk
  | cons e es ih =>
    rw [List.length_cons] at hk hs
    cases k with
    | zero =>
      rw [putAddrs, Block.getLe, get_putAddrs (by omega)]
      exact getLe_putLe h (24+(i+0)*8) 8 e.1 (by omega)
    | succ k =>
      have hi := ih (h.putLe (24+i*8) 8 e.1) (i+1) k (by omega) (by omega)
      rw [putAddrs, show i+(k+1) = i+1+k by omega, hi, List.getElem_cons_succ]

variable {j : Journal}

theorem header_magic (j : Journal) : j.header.get 0 8 = journalMagic := by
  simp (disch := omega) only [header, plainHeader, get_putLe_ne, get_putAddrs]
  exact get_put_same _ 0 journalMagic (by decide)

theorem header_txId (j : Journal) (h : j.txId < 2^64) : j.header.getLe 8 8 = j.txId := by
  rw [header, getLe_putLe_ne (by omega), plainHeader, Block.getLe,
    get_putAddrs (by omega), get_putLe_ne (by omega)]
  exact getLe_putLe_of_lt (by omega) (by omega)

theorem header_count (j : Journal) (h : 24+j.dirtyBlocks.length*8 ≤ 512) :
    j.header.getLe 16 4 = j.dirtyBlocks.length := by
  rw [header, getLe_putLe_ne (by omega), plainHeader, Block.getLe, get_putAddrs (by omega)]
  exact getLe_putLe_of_lt (by omega) (by omega)

theorem header_crc (j : Journal) : j.header.getLe 20 4 = j.headerCrc.toNat :=
  getLe_putLe_of_lt (by omega) (crc32c_lt _)

theorem header_addr (j : Journal) (h : 24+j.dirtyBlocks.length*8 ≤ 512) (k : ℕ)
    (hk : k < j.dirtyBlocks.length) (ha : j.dirtyBlocks[k].1 < 2^64) :
    j.header.getLe (24+k*8) 8 = j.dirtyBlocks[k].1 := by
  have hp := getLe_putAddrs j.dirtyBlocks ((Block.zero 512).put 0 journalMagic
    |>.putLe 8 8 j.txId |>.putLe 16 4 j.dirtyBlocks.length) 0 k hk (by omega)
  rw [Nat.zero_add] at hp
  rw [header, getLe_putLe_ne (by omega), plainHeader, hp, Nat.mod_eq_of_lt]
  omega

theorem plainHeader_field (j : Journal) : j.plainHeader.get 20 4 = zeros 4 := by
  rw [plainHeader, get_putAddrs (by omega), get_putLe_ne (by omega), get_putLe_ne (by omega),
    get_put_ne (by decide), get_zero (by omega)]

theorem get_cut {n : ℕ} (b : Block n) (m : ℕ) :
    b.get 0 (24+m) = b.get 0 20 ++ (b.get 20 4 ++ b.get 24 m) := by
  have h1 := slice_append_slice b.bytes 20 4 m
  have h2 := slice_append_slice b.bytes 0 20 (4+m)
  rw [Block.get, Block.get, Block.get, Block.get, h1, h2]
  congr 1
  omega

theorem header_crc_iff (j : Journal) :
    j.header.getLe 20 4 = (crc32c (j.header.get 0 (24+j.dirtyBlocks.length*8))).toNat ↔
      j.headerCrc = 0 := by
  have hf : j.header.get 20 4 = toLe 4 j.headerCrc.toNat := by
    have hs := get_put_same j.plainHeader 20 (toLe 4 j.headerCrc.toNat) (by simp)
    rwa [toLe_length] at hs
  have hh : j.header.get 0 (24+j.dirtyBlocks.length*8) = j.plainHeader.get 0 20 ++
      (toLe 4 j.headerCrc.toNat ++ j.plainHeader.get 24 (j.dirtyBlocks.length*8)) := by
    rw [get_cut, hf, header, get_putLe_ne (by omega), get_putLe_ne (by omega)]
  have hc : j.headerCrc = crc32c (j.plainHeader.get 0 20 ++
      (zeros 4 ++ j.plainHeader.get 24 (j.dirtyBlocks.length*8))) := by
    rw [headerCrc, get_cut, plainHeader_field]
  rw [header_crc, UInt32.toNat_inj, hh, ← crc32c_word_iff (j.plainHeader.get 0 20)
    (j.plainHeader.get 24 (j.dirtyBlocks.length*8)) j.headerCrc, ← hc, eq_comm]

/-! ## What `commit` writes -/

variable {d : Disk} {startLba : ℕ} {sb : Superblock}

def committed (d : Disk) (startLba : ℕ) (sb : Superblock) (j : Journal) : Disk :=
  (puts d (logWrites startLba sb j)).put (u64 (journalLba startLba sb)) j.header

theorem committed_sectors : (committed d startLba sb j).sectors = d.sectors := puts_sectors

theorem committed_working : (committed d startLba sb j).working = d.working := puts_working

structure HasRoom (d : Disk) (startLba : ℕ) (sb : Superblock) (j : Journal) : Prop where
  count : j.dirtyBlocks.length < sb.journalBlocks
  table : 24+j.dirtyBlocks.length*8 ≤ 512
  device : startLba+sb.journalStart*8+1+j.dirtyBlocks.length*8 ≤ d.sectors

section room
variable (h : HasRoom d startLba sb j)
include h

-- on a device with room no address of the journal wraps
variable {m : ℕ}

theorem log_lba (hm : m ≤ j.dirtyBlocks.length*8) :
    u64 (journalLba startLba sb+m) = startLba+sb.journalStart*8+m := by
  have := h.device
  have := d.addressed
  exact u64_of_lt (by rw [journalLba]; omega)

theorem log_sector {k i : ℕ} (hk : k < j.dirtyBlocks.length) (hi : i < 8) :
    u64 (journalLba startLba sb+1+k*8+i) = startLba+sb.journalStart*8+1+k*8+i := by
  have := log_lba h (show 1+k*8+i ≤ j.dirtyBlocks.length*8 by omega)
  simpa only [Nat.add_assoc] using this

theorem committed_header :
    (committed d startLba sb j).data (startLba+sb.journalStart*8) = j.header := by
  have h₀ := log_lba h (Nat.zero_le _)
  rw [Nat.add_zero, Nat.add_zero] at h₀
  rw [committed, h₀, put_data_same]

theorem committed_data (hm : m ≠ startLba+sb.journalStart*8) :
    (committed d startLba sb j).data m = (puts d (logWrites startLba sb j)).data m := by
  have h₀ := log_lba h (Nat.zero_le _)
  rw [Nat.add_zero, Nat.add_zero] at h₀
  exact put_data_ne _ _ _ _ (by rwa [h₀])

theorem committed_outside (hm : m < startLba+sb.journalStart*8 ∨
    startLba+sb.journalStart*8+1+j.dirtyBlocks.length*8 ≤ m) :
    (committed d startLba sb j).data m = d.data m := by
  rw [committed_data h (by omega)]
  apply puts_data_other
  intro hmem
  obtain ⟨w, hw, rfl⟩ := List.mem_map.mp hmem
  obtain ⟨k, hk, i, hi, rfl⟩ := mem_logWrites.mp hw
  rw [log_sector h hk hi] at hm
  omega

theorem committed_page {k : ℕ} (hk : k < j.dirtyBlocks.length) :
    (committed d startLba sb j).pageAt (startLba+sb.journalStart*8+1+k*8) = j.dirtyBlocks[k].2 := by
  apply pageAt_of_sectors
  intro i hi
  rw [committed_data h (by omega), ← log_sector h hk hi]
  exact logged_puts h.table k hk i hi

theorem commit_run (hn : j.dirtyBlocks ≠ []) (hrel : Reliable d) :
    (j.commit startLba sb).run d = (.ok (), committed d startLba sb j) := by
  have hpos : j.dirtyBlocks.length ≠ 0 := by simpa using hn
  have hcount := h.count
  have htable := h.table
  have hdev := h.device
  have hlog : (Act.each (fun w => writeSector w.1 w.2) (logWrites startLba sb j)).run d =
      (.ok (), puts d (logWrites startLba sb j)) := by
    have hrun := each_run (f := fun w => writeSector w.1 w.2) (g := id) (logWrites startLba sb j)
      (fun w hw e he hs => writeSector_run he ?_) hrel
    · rwa [List.map_id] at hrun
    · obtain ⟨k, hk, i, hi, rfl⟩ := mem_logWrites.mp hw
      simp only [log_sector h hk hi, hs]
      omega
  rw [commit, if_neg hpos, if_neg (by omega), if_neg (by omega), ← journalLba, pages_eq,
    run_bind_ok hlog, writeSector_run (puts_reliable hrel)]
  · rfl
  · have h₀ := log_lba h (Nat.zero_le _)
    rw [Nat.add_zero, Nat.add_zero] at h₀
    rw [h₀, puts_sectors]
    omega

end room

/-! ## What `recover` does with a header -/

theorem recover_eq (hs : startLba+sb.journalStart*8 < d.sectors) :
    (recover startLba sb).run d =
      (recoverFrom startLba sb (d.data (startLba+sb.journalStart*8))).run d := by
  have hread : readSector d (u64 (startLba+sb.journalStart*8)) =
      some (d.data (startLba+sb.journalStart*8)) := by
    rw [u64_of_lt (hs.trans d.addressed)]
    exact if_pos hs
  rw [recover, run_look_bind, hread, run_need_bind]

/-- The header of a commit, read by a superblock that is older than it. -/
structure Pending (sb : Superblock) (j : Journal) : Prop where
  some : 0 < j.dirtyBlocks.length
  count : j.dirtyBlocks.length < sb.journalBlocks
  table : 24+j.dirtyBlocks.length*8 ≤ 512
  newer : sb.lastTxId < j.txId
  txId : j.txId < 2^64

theorem recoverFrom_pending (h : Pending sb j) : recoverFrom startLba sb j.header =
    if j.headerCrc = 0 then do
      Act.each (replay startLba sb j.header) (List.range j.dirtyBlocks.length)
      Act.ignore (writeSector (u64 (startLba+sb.journalStart*8)) (Block.zero 512))
    else Act.fail () := by
  have hsome := h.some
  have hcount := h.count
  have htable := h.table
  have hnewer := h.newer
  have hc := header_crc_iff j
  rw [recoverFrom, header_count j h.table, header_txId j h.txId,
    if_neg (not_not.mpr (header_magic j)), if_neg (by omega), if_neg (by omega), if_neg (by omega)]
  by_cases h0 : j.headerCrc = 0
  · rw [if_neg (not_not.mpr (hc.mpr h0)), if_pos h0]
  · rw [if_pos fun hx => h0 (hc.mp hx), if_neg h0]

theorem recover_refuses (h : Pending sb j) (h0 : j.headerCrc ≠ 0)
    (hs : startLba+sb.journalStart*8 < d.sectors)
    (hd : d.data (startLba+sb.journalStart*8) = j.header) :
    (recover startLba sb).run d = (.error (), d) := by
  rw [recover_eq hs, hd, recoverFrom_pending h, if_neg h0, run_fail]

/-! ## The replay -/

def replayed (es : List (ℕ × Page)) (old : ℕ → Page) : ℕ → Page :=
  es.foldl (fun f e => Function.update f e.1 e.2) old

def Outside (startLba : ℕ) (es : List (ℕ × Page)) (m : ℕ) : Prop :=
  ∀ e ∈ es, m < startLba+e.1*8 ∨ startLba+e.1*8+8 ≤ m

/-- Where the logged pages are read from and may be written to. -/
structure Replayable (d : Disk) (startLba : ℕ) (sb : Superblock) (j : Journal) : Prop where
  table : 24+j.dirtyBlocks.length*8 ≤ 512
  target : ∀ e ∈ j.dirtyBlocks, sb.inodeTreeRoot+2 ≤ e.1 ∧ e.1 < sb.totalBlocks
  total : sb.totalBlocks < 2^64
  area : sb.journalStart+sb.journalBlocks ≤ sb.inodeTreeRoot+2
  count : j.dirtyBlocks.length < sb.journalBlocks
  device : startLba+sb.totalBlocks*8 ≤ d.sectors
  copies : ∀ k (hk : k < j.dirtyBlocks.length),
    d.pageAt (startLba+sb.journalStart*8+1+k*8) = j.dirtyBlocks[k].2

/-- The device while entries are being copied: the ones done are in place, the rest is as in `d`. -/
structure Copied (d : Disk) (startLba : ℕ) (es done : List (ℕ × Page)) (t : Disk) : Prop where
  sectors : t.sectors = d.sectors
  working : t.working = d.working
  pages : ∀ b, t.pageAt (startLba+b*8) = replayed done (fun b => d.pageAt (startLba+b*8)) b
  rest : ∀ m, Outside startLba es m → t.data m = d.data m

theorem replay_copies (hr : Replayable d startLba sb j) (hrel : Reliable d) {t : Disk} {k : ℕ}
    (hk : k < j.dirtyBlocks.length)
    (ht : Copied d startLba j.dirtyBlocks (j.dirtyBlocks.take k) t) :
    ∃ u, (replay startLba sb j.header k).run t = (.ok (), u) ∧
      Copied d startLba j.dirtyBlocks (j.dirtyBlocks.take (k+1)) u := by
  have hmem := List.getElem_mem hk
  have htarget := hr.target _ hmem
  have harea := hr.area
  have hcount := hr.count
  have hdev := hr.device
  have htot := hr.total
  have haddr := header_addr j hr.table k hk (by omega)
  set e := j.dirtyBlocks[k] with he
  -- the journal lies below every block that is written, so its copies are still there
  have hcopy : t.pageAt (startLba+sb.journalStart*8+1+k*8) = e.2 := by
    rw [he, ← hr.copies k hk]
    apply pageAt_congr
    intro i hi
    apply ht.rest
    intro e' he'
    have := hr.target e' he'
    left
    omega
  have haddressed := d.addressed
  have hread : readWrapping t (startLba+sb.journalStart*8+1+k*8) = some e.2 := by
    rw [readWrapping_of_lt t (by omega), readPage_some t (by rw [ht.sectors]; omega), hcopy]
  have hwrite := writePage_reliable (startLba+e.1*8) e.2 t
    (by rw [Reliable, ht.working]; exact hrel) (by rw [ht.sectors]; omega)
  refine ⟨t.putPage (startLba+e.1*8) e.2, ?_, ?_⟩
  · rw [replay, haddr, u64_of_lt (by omega), if_neg (by omega), run_look_bind, hread,
      run_need_bind, writeWrapping_of_lt _ (by omega), hwrite]
  constructor
  · rw [putPage_sectors, ht.sectors]
  · rw [putPage_working, ht.working]
  · intro b
    have hstep : replayed (j.dirtyBlocks.take (k+1)) (fun b => d.pageAt (startLba+b*8)) =
        Function.update (replayed (j.dirtyBlocks.take k) fun b => d.pageAt (startLba+b*8))
          e.1 e.2 := by
      rw [replayed, ← List.take_concat_get' _ k hk, List.foldl_append]
      rfl
    rw [hstep]
    by_cases hb : b = e.1
    · rw [hb, pageAt_putPage, Function.update_self]
    · rw [pageAt_putPage_ne (by omega), Function.update_of_ne hb, ht.pages]
  · intro m hm
    rw [putPage_data _ _ _ _ (hm e hmem), ht.rest m hm]

theorem replay_all (hr : Replayable d startLba sb j) (hrel : Reliable d) :
    ∃ u, (Act.each (replay startLba sb j.header) (List.range j.dirtyBlocks.length)).run d =
        (.ok (), u) ∧
      Copied d startLba j.dirtyBlocks j.dirtyBlocks u := by
  have hends : Ends (Act.each (replay startLba sb j.header) (List.range j.dirtyBlocks.length)) d
      (fun _ u => Copied d startLba j.dirtyBlocks
        (j.dirtyBlocks.take (List.range j.dirtyBlocks.length).length) u) (fun _ _ => False) := by
    apply ends_each fun done t =>
      Copied d startLba j.dirtyBlocks (j.dirtyBlocks.take done.length) t
    · exact ⟨rfl, rfl, fun _ => rfl, fun _ _ => rfl⟩
    intro done k rest t hsplit ht
    have hlen := congrArg List.length hsplit
    simp at hlen
    obtain rfl : done.length = k := by
      have hg : (List.range j.dirtyBlocks.length)[done.length]? = some k := by simp [hsplit]
      rw [List.getElem?_range (by omega)] at hg
      exact Option.some.inj hg
    obtain ⟨u, hu, hc⟩ := replay_copies hr hrel (by omega) ht
    apply ends_of_run hu
    simpa using hc
  obtain ⟨_, u, hu, hc⟩ := ends_value hends fun _ _ h => h
  rw [List.length_range, List.take_length] at hc
  exact ⟨u, hu, hc⟩

/-! ## The round trip -/

/-- Commit and recover both succeed, the logged pages are at their addresses, the header is
cleared, and no sector outside the journal and the logged blocks has changed. -/
def RoundTrip (d : Disk) (startLba : ℕ) (sb : Superblock) (j : Journal) : Prop :=
  ∃ d₁ e, (j.commit startLba sb).run d = (.ok (), d₁) ∧
    (recover startLba sb).run d₁ = (.ok (), e) ∧
    (∀ x ∈ j.dirtyBlocks, e.pageAt (startLba+x.1*8) =
      replayed j.dirtyBlocks (fun b => d.pageAt (startLba+b*8)) x.1) ∧
    e.data (startLba+sb.journalStart*8) = Block.zero 512 ∧
    ∀ m, (m < startLba+sb.journalStart*8 ∨
        startLba+(sb.journalStart+sb.journalBlocks)*8 ≤ m) →
      Outside startLba j.dirtyBlocks m → e.data m = d.data m

/-- A journal as it may be committed to a volume laid out with the journal before its tree. -/
structure Loggable (d : Disk) (startLba : ℕ) (sb : Superblock) (j : Journal) : Prop where
  logged : 1 ≤ j.dirtyBlocks.length ∧ j.dirtyBlocks.length ≤ 61
  count : j.dirtyBlocks.length < sb.journalBlocks
  newer : sb.lastTxId < j.txId
  txId : j.txId < 2^64
  target : ∀ e ∈ j.dirtyBlocks, sb.inodeTreeRoot+2 ≤ e.1 ∧ e.1 < sb.totalBlocks
  total : sb.totalBlocks < 2^64
  area : sb.journalStart+sb.journalBlocks ≤ sb.inodeTreeRoot+2
  device : startLba+sb.totalBlocks*8 ≤ d.sectors

theorem replayed_congr (es : List (ℕ × Page)) {old new : ℕ → Page} {b : ℕ}
    (h : b ∈ es.map Prod.fst ∨ old b = new b) : replayed es old b = replayed es new b := by
  induction es generalizing old new with
  | nil => simpa [replayed] using h
  | cons e es ih =>
    apply ih
    by_cases hb : b = e.1
    · exact .inr (by simp [hb])
    · rw [List.map_cons, List.mem_cons] at h
      simp only [Function.update_of_ne hb]
      tauto

theorem hasRoom_of_loggable (h : Loggable d startLba sb j) : HasRoom d startLba sb j := by
  obtain ⟨x, hx⟩ := List.exists_mem_of_length_pos (show 0 < j.dirtyBlocks.length by
    have := h.logged; omega)
  have := h.logged
  have := h.target x hx
  have := h.area
  have := h.device
  have := h.count
  exact ⟨h.count, by omega, by omega⟩

theorem roundTrip_of_zero (h : Loggable d startLba sb j) (hrel : Reliable d)
    (h0 : j.headerCrc = 0) : RoundTrip d startLba sb j := by
  have hroom := hasRoom_of_loggable h
  have hlogged := h.logged
  have hcount := h.count
  have harea := h.area
  have hdev := hroom.device
  set lba := startLba+sb.journalStart*8 with hlba
  have hne : j.dirtyBlocks ≠ [] := List.ne_nil_of_length_pos (by omega)
  have hsectors : (committed d startLba sb j).sectors = d.sectors := committed_sectors
  have hworking : (committed d startLba sb j).working = d.working := committed_working
  have hr : Replayable (committed d startLba sb j) startLba sb j := by
    refine ⟨hroom.table, h.target, h.total, h.area, h.count, by rw [hsectors]; exact h.device, ?_⟩
    exact fun k hk => committed_page hroom hk
  obtain ⟨u, hu, hcopied⟩ := replay_all hr (by rw [Reliable, hworking]; exact hrel)
  have haddressed := d.addressed
  refine ⟨_, u.put lba (Block.zero 512), commit_run hroom hne hrel, ?_, ?_, ?_, ?_⟩
  · rw [recover_eq (by rw [hsectors]; omega), committed_header hroom,
      recoverFrom_pending ⟨by omega, h.count, hroom.table, h.newer, h.txId⟩, if_pos h0,
      run_bind_ok hu, u64_of_lt (by omega), ← hlba]
    have hin : lba < u.sectors := by
      rw [hcopied.sectors, hsectors]
      omega
    have hok : u.working u.tries = true := by
      rw [hcopied.working, hworking]
      exact hrel _
    simp [Act.ignore, writeSector, hin, hok]
  · intro x hx
    have htarget := h.target x hx
    have hpage : (u.put lba (Block.zero 512)).pageAt (startLba+x.1*8) =
        u.pageAt (startLba+x.1*8) := by
      apply pageAt_congr
      intro i _
      exact put_data_ne _ _ _ _ (by omega)
    rw [hpage, hcopied.pages]
    exact replayed_congr _ (.inl (List.mem_map_of_mem hx))
  · exact put_data_same _ _ _
  · intro m hm hout
    rw [put_data_ne _ _ _ _ (by omega), hcopied.rest m hout, committed_outside hroom (by omega)]

/-- A committed transaction is replayed exactly if its header CRC is zero. -/
theorem roundTrip_iff (d : Disk) (startLba : ℕ) (sb : Superblock) (j : Journal)
    (h : Loggable d startLba sb j) (hrel : Reliable d) :
    RoundTrip d startLba sb j ↔ j.headerCrc = 0 := by
  refine ⟨fun hrt => ?_, roundTrip_of_zero h hrel⟩
  by_contra h0
  have hroom := hasRoom_of_loggable h
  have hlogged := h.logged
  have hdev := hroom.device
  have hne : j.dirtyBlocks ≠ [] := List.ne_nil_of_length_pos (by omega)
  obtain ⟨d₁, e, hd₁, he, -⟩ := hrt
  obtain rfl : committed d startLba sb j = d₁ :=
    congrArg Prod.snd ((commit_run hroom hne hrel).symm.trans hd₁)
  have hs : startLba+sb.journalStart*8 < (committed d startLba sb j).sectors := by
    rw [committed_sectors]
    omega
  have hp : Pending sb j := ⟨by omega, h.count, hroom.table, h.newer, h.txId⟩
  rw [recover_refuses hp h0 hs (committed_header hroom)] at he
  cases he

def smallSb : Superblock where
  magic := superblockMagic
  version := 1
  totalBlocks := 64
  freeBlocks := 51
  allocatedInodes := 1
  lastTxId := 0
  rootInode := 1
  inodeTreeRoot := 12
  freeExtentRoot := 11
  checksumTreeRoot := 0
  journalStart := 3
  journalBlocks := 8
  uuid := (0x4E555241, 0x4C46435F)
  nextCowBlock := 13

def oneBlock : Journal := ⟨1, [(20, Block.zero 4096)]⟩

theorem oneBlock_loggable : Loggable (blankDisk 512) 0 smallSb oneBlock := by
  constructor <;> simp [oneBlock, smallSb, blankDisk]

theorem oneBlock_room : HasRoom (blankDisk 512) 0 smallSb oneBlock :=
  hasRoom_of_loggable oneBlock_loggable

theorem roundTrip_iff_oneBlock : RoundTrip (blankDisk 512) 0 smallSb oneBlock ↔
    oneBlock.headerCrc = 0 :=
  roundTrip_iff _ _ _ _ oneBlock_loggable fun _ => rfl

theorem oneBlock_refused : (recover 0 smallSb).run (committed (blankDisk 512) 0 smallSb oneBlock) =
    (.error (), committed (blankDisk 512) 0 smallSb oneBlock) := by
  apply recover_refuses (j := oneBlock)
  · constructor <;> simp [oneBlock, smallSb]
  · decide +kernel
  · simp [committed_sectors, blankDisk, smallSb]
  · exact committed_header oneBlock_room

theorem oneBlock_no_roundTrip : ¬RoundTrip (blankDisk 512) 0 smallSb oneBlock := by
  rintro ⟨d₁, e, hd₁, he, -⟩
  obtain rfl : committed (blankDisk 512) 0 smallSb oneBlock = d₁ :=
    congrArg Prod.snd ((commit_run oneBlock_room (by simp [oneBlock]) fun _ => rfl).symm.trans hd₁)
  rw [oneBlock_refused] at he
  cases he

def zeroCrc : Journal := ⟨4152659896, [(20, Block.zero 4096)]⟩

theorem zeroCrc_confined : RoundTrip (blankDisk 512) 0 smallSb zeroCrc ∧
    Within (fun lba => lba = u64 (journalLba 0 smallSb) ∨ DataSector 0 smallSb lba)
      (committed (blankDisk 512) 0 smallSb zeroCrc)
      ((recover 0 smallSb).run (committed (blankDisk 512) 0 smallSb zeroCrc)).2 := by
  refine ⟨roundTrip_of_zero ?_ (fun _ => rfl) (by decide +kernel),
    recover_confined 0 smallSb _ ⟨by decide, by decide⟩⟩
  constructor <;> simp [zeroCrc, smallSb, blankDisk]

end NeuralOs.NeuralFs.JournalReplay
