import NeuralOs.Gpt.Written

/-!
# Reading the partition table back

The writer lays out 36 units of a label, the reader takes eight of them. A table
that was just written is read back as it was given if and only if no label is
longer than that.
-/

set_option autoImplicit false

namespace NeuralOs.Gpt.RoundTrip
open ByteString ByteBlock Utf16 NeuralFs.BlockDev NeuralFs.BlockWrites Table Written

variable {d : Disk} {totalLba lba i : ℕ} {parts : List GptPartitionDef} {all : Entries}
variable {part : GptPartitionDef}

/-! ### Names -/

theorem unitsOf_append (us : List ℕ) (hus : ∀ u ∈ us, u < 0x10000) (b : Bytes) :
    unitsOf (us.flatMap (toLe 2)++b) = us++unitsOf b := by
  induction us with
  | nil => rfl
  | cons u us ih =>
    have hu := hus u (by simp)
    have htwo : toLe 2 u = [UInt8.ofNat u, UInt8.ofNat (u/256)] := rfl
    rw [List.flatMap_cons, htwo]
    simp only [List.cons_append, List.nil_append, unitsOf, UInt8.toNat_ofNat',
      ih fun v hv => hus v (by simp [hv])]
    congr 1
    omega

theorem unitsOf_zeros (n : ℕ) : unitsOf (zeros (2*n)) = List.replicate n 0 := by
  induction n with
  | zero => rfl
  | succ n ih =>
    have hcons : zeros (2*(n+1)) = 0::0::zeros (2*n) := by
      rw [Nat.mul_succ, ← zeros_append]
      rw [zeros_append, Nat.add_comm, ← zeros_append]
      rfl
    rw [hcons, unitsOf, ih]
    rfl

theorem unitsOf_take (b : Bytes) (k : ℕ) : unitsOf (b.take (2*k)) = (unitsOf b).take k := by
  induction b using unitsOf.induct generalizing k with
  | case1 x y l ih =>
    cases k with
    | zero => rfl
    | succ k =>
      rw [Nat.mul_succ]
      simp only [List.take_succ_cons, unitsOf, ih]
  | case2 l h =>
    cases l with
    | nil => simp [unitsOf]
    | cons x l =>
      cases l with
      | nil => cases k <;> simp [unitsOf, Nat.mul_succ]
      | cons y l => exact absurd rfl (h x y l)

theorem takeWhile_units {us : List ℕ} (hus : ∀ u ∈ us, u ≠ 0) (n k : ℕ) :
    ((us++List.replicate n 0).take k).takeWhile (· ≠ 0) = us.take k := by
  induction us generalizing k with
  | nil => simp [List.take_replicate]
  | cons u us ih =>
    cases k with
    | zero => rfl
    | succ k =>
      have := ih (fun v hv => hus v (by simp [hv])) k
      simp only [List.cons_append, List.take_succ_cons, List.takeWhile_cons, this]
      simp [hus u (by simp)]

theorem encode_nonzero {label : List Char} (h : ∀ c ∈ label, c.toNat ≠ 0) :
    ∀ u ∈ encode label, u ≠ 0 := by
  intro u hu
  obtain ⟨c, hc, hu⟩ := List.mem_flatMap.mp hu
  have := h c hc
  rw [encodeChar] at hu
  split at hu
  · rw [List.mem_singleton.mp hu]
    exact this
  · rcases List.mem_cons.mp hu with rfl | hu
    · omega
    · rw [List.mem_singleton.mp hu]
      omega

theorem name_of_holds (h : Holds all i part) (hfit : Fits totalLba part) :
    nameOf (all.get (i*128+56) 16) = decode ((encode part.label).take 8) := by
  have hlabel : labelBytes part.label = (encode part.label).flatMap (toLe 2) := by
    rw [labelBytes, List.take_of_length_le hfit.short]
  have hlen := flatMap_toLe_length (encode part.label)
  have hshort := hfit.short
  have hslice : all.get (i*128+56) 16 =
      (labelBytes part.label++zeros (72-(labelBytes part.label).length)).take (2*8) := by
    rw [← h.label]
    have := slice_slice all.bytes (i*128+56) 72 0 16 (by omega)
    exact this.symm
  have hzeros : 72-(labelBytes part.label).length = 2*(36-(encode part.label).length) := by
    rw [hlabel, hlen]
    omega
  rw [nameOf, hslice, unitsOf_take, hzeros, hlabel, unitsOf_append _ (encode_lt _), unitsOf_zeros,
    takeWhile_units (encode_nonzero hfit.noNul)]

/-! ### The table that is read -/

def readBack (p : GptPartitionDef × ℕ) : GptPartition :=
  ⟨p.2, decode ((encode p.1.label).take 8), p.1.typeGuid, p.1.lbaStart, p.1.lbaEnd, 0⟩

def given (p : GptPartitionDef × ℕ) : GptPartition :=
  ⟨p.2, p.1.label, p.1.typeGuid, p.1.lbaStart, p.1.lbaEnd, 0⟩

theorem readEntry_holds (h : Holds all i part) (hfit : Fits totalLba part) (hi : i < 128) :
    readEntry i (entrySector all (i*128/512)) (i*128%512) = readBack (part, i) := by
  have hk : i*128/512 < 32 := by omega
  have hsplit : i*128/512*512+i*128%512 = i*128 := by omega
  have hget : ∀ o n, o+n ≤ 128 → (entrySector all (i*128/512)).get (i*128%512+o) n =
      all.get (i*128+o) n := by
    intro o n hon
    rw [entrySector_get all hk (by omega), ← Nat.add_assoc, hsplit]
  have hguid : (Block.zero 16).put 0 part.typeGuid.bytes = part.typeGuid := by
    apply Block.ext
    have := get_put_same (Block.zero 16) 0 part.typeGuid.bytes (by rw [part.typeGuid.size])
    rwa [part.typeGuid.size, get_whole] at this
  have h₀ := hget 0 16 (by omega)
  rw [Nat.add_zero, Nat.add_zero] at h₀
  rw [readEntry, Block.getLe, Block.getLe, h₀, hget 32 8 (by omega), hget 40 8 (by omega),
    hget 56 16 (by omega), ← Block.getLe, ← Block.getLe, h.typeGuid, h.lbaStart, h.lbaEnd,
    name_of_holds h hfit, hguid, UInt64.ofNat_toNat, UInt64.ofNat_toNat]
  rfl

theorem readEntries_append (l m : List ℕ)
    (h : ∀ i ∈ l, ∃ buf, readSector d (u64 (lba+i*128/512)) = some buf) :
    readEntries d lba (l++m) = readEntries d lba l++readEntries d lba m := by
  induction l with
  | nil => rfl
  | cons i l ih =>
    obtain ⟨buf, hbuf⟩ := h i (by simp)
    have hrest := ih fun j hj => h j (by simp [hj])
    rw [List.cons_append, readEntries, readEntries, hbuf]
    dsimp only
    rw [hrest]
    split <;> rfl

theorem all_zero_iff (b : Bytes) (n : ℕ) (h : b.length = n) :
    b.all (· == 0) = true ↔ b = zeros n := by
  rw [List.all_eq_true, zeros, List.eq_replicate_iff]
  simp [h]

theorem entry_type (hi : i < 128) :
    (entrySector all (i*128/512)).get (i*128%512) 16 = all.get (i*128) 16 := by
  rw [entrySector_get all (by omega) (by omega), show i*128/512*512+i*128%512 = i*128 by omega]

section Read

variable {e : Disk} (hsize : 34 ≤ e.sectors)
  (hdata : ∀ k < 32, e.data (2+k) = entrySector all k)
include hsize hdata

theorem read_entry_sector (hi : i < 128) :
    readSector e (u64 (2+i*128/512)) = some (entrySector all (i*128/512)) := by
  rw [u64_of_lt (by omega), readSector, if_pos (by omega), hdata _ (by omega)]

theorem readEntries_held (k : ℕ) (hk : k+parts.length ≤ 128)
    (hfit : ∀ part ∈ parts, Fits totalLba part)
    (hheld : ∀ (j : ℕ) (hj : j < parts.length), Holds all (k+j) parts[j]) :
    readEntries e 2 (List.range' k parts.length) = (parts.zipIdx k).map readBack := by
  induction parts generalizing k with
  | nil => rfl
  | cons p parts ih =>
    rw [List.length_cons] at hk
    have hp : Holds all k p := hheld 0 (by simp)
    have hrest := ih (k+1) (by omega) (fun q hq => hfit q (by simp [hq])) fun j hj => by
      have := hheld (j+1) (by simpa using hj)
      rwa [show k+(j+1) = k+1+j by omega] at this
    have hnonzero : ¬((entrySector all (k*128/512)).get (k*128%512) 16).all (· == 0) = true := by
      rw [entry_type (by omega), hp.typeGuid, all_zero_iff _ 16 p.typeGuid.size]
      exact (hfit p (by simp)).guid
    rw [List.length_cons, List.range'_succ, readEntries, read_entry_sector hsize hdata (by omega)]
    dsimp only
    rw [if_neg hnonzero, hrest, readEntry_holds hp (hfit p (by simp)) (by omega), List.zipIdx_cons,
      List.map_cons]

theorem readEntries_empty (n k : ℕ) (hk : k+n ≤ 128)
    (hzero : ∀ j, k ≤ j → j < 128 → all.get (j*128) 128 = zeros 128) :
    readEntries e 2 (List.range' k n) = [] := by
  induction n generalizing k with
  | zero => rfl
  | succ n ih =>
    have hslice : all.get (k*128) 16 = zeros 16 := by
      have hsub := slice_slice all.bytes (k*128) 128 0 16 (by omega)
      have hz : slice all.bytes (k*128) 128 = zeros 128 := hzero k le_rfl (by omega)
      rw [hz, slice_zeros _ _ _ (by omega)] at hsub
      exact hsub.symm
    rw [List.range'_succ, readEntries, read_entry_sector hsize hdata (by omega)]
    dsimp only
    rw [entry_type (by omega), hslice, if_pos ((all_zero_iff _ 16 (by simp)).mpr rfl)]
    exact ih (k+1) (by omega) fun j hj hj' => hzero j (by omega) hj'

end Read

theorem probe_format (hr : Reliable d) (hd : d.sectors = totalLba) (hne : parts ≠ [])
    (hcount : parts.length ≤ 128) (hfit : ∀ part ∈ parts, Fits totalLba part) :
    ∃ e, (gptFormatMulti totalLba parts).run d = (.ok (), e) ∧
      probeGpt e = some (parts.zipIdx.map readBack) := by
  have hsize := size_of_fits hne hfit
  obtain ⟨all, hall, -, hheld, hzero⟩ := placeEntries_holds (diskGuid_length parts)
    (show 0+parts.length ≤ 128 by omega) fun j _ hj => by
      rw [get_zero (by omega)]
  refine ⟨_, format_run hr hd hne hfit hall, ?_⟩
  obtain ⟨h₀, h₁, hk⟩ := format_data d all (mbr totalLba) (primaryHeader totalLba parts all)
    (backupHeader totalLba (primaryHeader totalLba parts all) all) (Block.zero 512) hsize hfit
  have hsec : (puts d ((0, mbr totalLba)::tableWrites totalLba parts all
      (primaryHeader totalLba parts all)
      (backupHeader totalLba (primaryHeader totalLba parts all) all) (Block.zero 512))).sectors =
        totalLba := by rw [puts_sectors, hd]
  generalize (puts d ((0, mbr totalLba)::tableWrites totalLba parts all
    (primaryHeader totalLba parts all)
    (backupHeader totalLba (primaryHeader totalLba parts all) all) (Block.zero 512))) = e at *
  obtain ⟨hsig, hlba, hcnt, hent⟩ := primaryHeader_fields totalLba parts all
  have hread₀ : readSector e 0 = some (mbr totalLba) := by
    rw [readSector, if_pos (by omega), h₀]
  have hread₁ : readSector e 1 = some (primaryHeader totalLba parts all) := by
    rw [readSector, if_pos (by omega), h₁]
  rw [probeGpt, hread₀]
  dsimp only
  rw [if_neg (by rw [protective_mbr]; decide), hread₁]
  dsimp only
  rw [if_neg (not_not.mpr hsig), if_neg (not_not.mpr hent), hlba, hcnt]
  have hrange : List.range (min 128 128) =
      List.range' 0 parts.length++List.range' parts.length (128-parts.length) := by
    have := List.range'_append_1 (s := 0) (m := parts.length) (n := 128-parts.length)
    rw [Nat.zero_add, show parts.length+(128-parts.length) = 128 by omega] at this
    rw [this, List.range_eq_range', Nat.min_self]
  have hheld' : ∀ (j : ℕ) (hj : j < parts.length), Holds all (0+j) parts[j] := hheld
  rw [hrange, readEntries_append _ _ fun i hi => ?_,
    readEntries_held (by omega) hk 0 (by omega) hfit hheld',
    readEntries_empty (by omega) hk _ _ (by omega) fun j hj hj' => hzero j (by omega) hj',
    List.append_nil]
  have := List.mem_range'_1.mp hi
  exact ⟨_, read_entry_sector (by omega) hk (by omega)⟩

theorem readBack_eq_given_iff (p : GptPartitionDef × ℕ) :
    readBack p = given p ↔ (encode p.1.label).length ≤ 8 := by
  constructor
  · intro h
    have hname : decode ((encode p.1.label).take 8) = p.1.label := congrArg GptPartition.name h
    have hle := encode_decode_length ((encode p.1.label).take 8) fun u hu =>
      encode_lt _ u (List.mem_of_mem_take hu)
    rw [hname] at hle
    exact hle.trans (by simp)
  · intro h
    rw [readBack, given, List.take_of_length_le h, decode_encode]

theorem round_trip_iff (hr : Reliable d) (hd : d.sectors = totalLba) (hne : parts ≠ [])
    (hcount : parts.length ≤ 128) (hfit : ∀ part ∈ parts, Fits totalLba part) :
    ∃ e, (gptFormatMulti totalLba parts).run d = (.ok (), e) ∧
      (probeGpt e = some (parts.zipIdx.map given) ↔
        ∀ part ∈ parts, (encode part.label).length ≤ 8) := by
  obtain ⟨e, hformat, hprobe⟩ := probe_format hr hd hne hcount hfit
  refine ⟨e, hformat, ?_⟩
  rw [hprobe, Option.some_inj, List.map_inj_left]
  constructor
  · intro h part hp
    rw [← List.zipIdx_map_fst 0 parts] at hp
    obtain ⟨q, hq, rfl⟩ := List.mem_map.mp hp
    exact (readBack_eq_given_iff q).mp (h q hq)
  · intro h p hp
    exact (readBack_eq_given_iff p).mpr (h p.1 (List.fst_mem_of_mem_zipIdx hp))

def gptTypeEsp : Guid :=
  ⟨[0x28, 0x73, 0x2A, 0xC1, 0x1F, 0xF8, 0xD2, 0x11, 0xBA, 0x4B, 0x00, 0xA0, 0xC9, 0x3E, 0xC9,
    0x3B], rfl⟩

def gptTypeNeuralfs : Guid :=
  ⟨[0x52, 0x55, 0x45, 0x4E, 0x4C, 0x41, 0x53, 0x46, 0x2D, 0x4E, 0x46, 0x53, 0x20, 0x00, 0x00,
    0x01], rfl⟩

def esp : GptPartitionDef := ⟨gptTypeEsp, 2048, 4095, "ESP".toList⟩

def neural : GptPartitionDef := ⟨gptTypeNeuralfs, 4096, 65501, "neural-os-core".toList⟩

theorem fits_esp : Fits 65536 esp :=
  ⟨by decide, by decide, by decide, by decide, by decide, by simp [esp]⟩

theorem fits_neural : Fits 65536 neural :=
  ⟨by decide, by decide, by decide, by decide, by decide, by simp [neural]⟩

def data : GptPartitionDef := ⟨gptTypeNeuralfs, 4096, 65501, "DATA".toList⟩

theorem fits_data : Fits 65536 data :=
  ⟨by decide, by decide, by decide, by decide, by decide, by simp [data]⟩

theorem esp_read_back : ∃ e, (gptFormatMulti 65536 [esp, data]).run (blankDisk 65536) = (.ok (), e) ∧
    probeGpt e = some [given (esp, 0), given (data, 1)] := by
  obtain ⟨e, hformat, hprobe⟩ := round_trip_iff (fun _ => rfl)
    (show (blankDisk 65536).sectors = 65536 from rfl) (show [esp, data] ≠ [] by simp) (by simp)
    (by simpa using ⟨fits_esp, fits_data⟩)
  exact ⟨e, hformat, hprobe.mpr (by decide)⟩

/-- The installer's own label comes back as its first eight characters. -/
theorem neural_label_cut :
    ∃ e, (gptFormatMulti 65536 [esp, neural]).run (blankDisk 65536) = (.ok (), e) ∧
      probeGpt e = some [given (esp, 0),
        ⟨1, "neural-o".toList, gptTypeNeuralfs, 4096, 65501, 0⟩] := by
  have hr : Reliable (blankDisk 65536) := fun _ => rfl
  have hfit : ∀ part ∈ [esp, neural], Fits 65536 part := by simpa using ⟨fits_esp, fits_neural⟩
  obtain ⟨e, hformat, hprobe⟩ := probe_format hr rfl (by simp) (by simp) hfit
  refine ⟨e, hformat, hprobe.trans ?_⟩
  decide

end NeuralOs.Gpt.RoundTrip
