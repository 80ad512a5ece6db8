import NeuralOs.Lib.ByteBlock
import NeuralOs.Lib.Checked
import NeuralOs.Storage.TickvStore

/-!
# A file as flash

`FileFlash` keeps the LBAs of the sectors of a file, in the order of its chain, and
reads and writes byte ranges through them, with a bounce buffer for parts of a
sector. The device is any state with a single-sector read and write. On a list
without duplicates the sectors are one flat array of bytes.
-/

set_option autoImplicit false

namespace NeuralOs.FileFlash
open ByteString ByteBlock ByteSpan MeasuredLoop Checked
open TickvState (satAdd)

abbrev Sector := Block 512

inductive FlashError where
  | oob | io
  deriving DecidableEq

/-- The closure that the chain functions are given; `none` and `false` are failed requests. -/
structure Device (D : Type) where
  rd : D → ℕ → Option Sector × D
  wr : D → ℕ → Sector → Bool × D

variable {D : Type}

/-- The loop variables of `chain_read` and `chain_write`; `buf` is what is read into or written
from. -/
structure Chain (D : Type) where
  done : ℕ
  pos : ℕ
  buf : Bytes
  dev : D

namespace Chain

def inOff (s : Chain D) : ℕ := s.pos % 512

def take (s : Chain D) : ℕ := min (512-s.inOff) (s.buf.length-s.done)

end Chain

def readTurn (dv : Device D) (sectors : List UInt32) (s : Chain D) :
    Chain D ⊕ (Except (Stop FlashError) Bytes × D) :=
  if s.done < s.buf.length then
    match sectors[s.pos/512]? with
    | none => .inr (.error .panic, s.dev)
    | some lba =>
      match dv.rd s.dev lba.toNat with
      | (none, d) => .inr (.error (.refused .io), d)
      | (some sec, d) =>
        let buf := if s.inOff = 0 ∧ s.take = 512 then patch s.buf s.done sec.bytes
          else patch s.buf s.done (sec.get s.inOff s.take)
        .inl ⟨s.done+s.take, s.pos+s.take, buf, d⟩
  else .inr (.ok s.buf, s.dev)

/-- One turn of the loop of `chain_write`: a part of a sector is read, changed and written. -/
def writeTurn (dv : Device D) (sectors : List UInt32) (s : Chain D) :
    Chain D ⊕ (Except (Stop FlashError) Bytes × D) :=
  if s.done < s.buf.length then
    match sectors[s.pos/512]? with
    | none => .inr (.error .panic, s.dev)
    | some lba =>
      if s.inOff = 0 ∧ s.take = 512 then
        match dv.wr s.dev lba.toNat ((Block.zero 512).put 0 (slice s.buf s.done 512)) with
        | (false, d) => .inr (.error (.refused .io), d)
        | (true, d) => .inl ⟨s.done+s.take, s.pos+s.take, s.buf, d⟩
      else
        match dv.rd s.dev lba.toNat with
        | (none, d) => .inr (.error (.refused .io), d)
        | (some sec, d) =>
          match dv.wr d lba.toNat (sec.put s.inOff (slice s.buf s.done s.take)) with
          | (false, d) => .inr (.error (.refused .io), d)
          | (true, d) => .inl ⟨s.done+s.take, s.pos+s.take, s.buf, d⟩
  else .inr (.ok [], s.dev)

section
variable {s t : Chain D}

theorem Chain.take_pos (h : s.done < s.buf.length) : 0 < s.take := by
  unfold Chain.take Chain.inOff
  omega

theorem Chain.take_le (s : Chain D) : s.inOff+s.take ≤ 512 ∧ s.take ≤ s.buf.length-s.done := by
  unfold Chain.take Chain.inOff
  omega

theorem readTurn_buf {dv : Device D} {sectors : List UInt32} (h : readTurn dv sectors s = .inl t) :
    s.done < s.buf.length ∧ t.done = s.done+s.take ∧ t.buf.length = s.buf.length := by
  have htake := s.take_le
  unfold readTurn at h
  split at h
  · next hlt =>
    split at h
    · cases h
    split at h
    · cases h
    next sec _ _ =>
    cases h
    refine ⟨hlt, rfl, ?_⟩
    simp only
    split
    · next hw =>
      rw [patch_length]
      rw [sec.size]
      omega
    · rw [patch_length]
      rw [get_length _ _ _ htake.1]
      omega
  · cases h

theorem writeTurn_buf {dv : Device D} {sectors : List UInt32}
    (h : writeTurn dv sectors s = .inl t) :
    s.done < s.buf.length ∧ t.done = s.done+s.take ∧ t.buf = s.buf := by
  unfold writeTurn at h
  split at h
  · next hlt =>
    repeat' split at h
    all_goals cases h
    all_goals exact ⟨hlt, rfl, rfl⟩
  · cases h

end

def readLoop (dv : Device D) (sectors : List UInt32) :
    Loop (Chain D) (Except (Stop FlashError) Bytes × D) where
  step := readTurn dv sectors
  measure s := s.buf.length-s.done
  decreases s t h := by
    obtain ⟨hlt, hd, hb⟩ := readTurn_buf h
    have := Chain.take_pos hlt
    omega

def writeLoop (dv : Device D) (sectors : List UInt32) :
    Loop (Chain D) (Except (Stop FlashError) Bytes × D) where
  step := writeTurn dv sectors
  measure s := s.buf.length-s.done
  decreases s t h := by
    obtain ⟨hlt, hd, hb⟩ := writeTurn_buf h
    have := Chain.take_pos hlt
    rw [hd, hb]
    omega

def chainRead (dv : Device D) (sectors : List UInt32) (offset : ℕ) (buf : Bytes) (d : D) :
    Except (Stop FlashError) Bytes × D :=
  if satAdd offset buf.length > sectors.length*512 then (.error (.refused .oob), d)
  else (readLoop dv sectors).exec ⟨0, offset, buf, d⟩

def chainWrite (dv : Device D) (sectors : List UInt32) (offset : ℕ) (data : Bytes) (d : D) :
    Except (Stop FlashError) Bytes × D :=
  if satAdd offset data.length > sectors.length*512 then (.error (.refused .oob), d)
  else (writeLoop dv sectors).exec ⟨0, offset, data, d⟩

/-! ## The device as one array -/

/-- Single-sector requests at the LBAs of the list succeed, and a write changes what is read at
its own LBA only. -/
structure Lawful (dv : Device D) (view : D → ℕ → Sector) (lbas : List UInt32) : Prop where
  rd : ∀ d, ∀ l ∈ lbas, ∃ d', dv.rd d l.toNat = (some (view d l.toNat), d') ∧
    ∀ m ∈ lbas, view d' m.toNat = view d m.toNat
  wr : ∀ d, ∀ l ∈ lbas, ∀ s, ∃ d', dv.wr d l.toNat s = (true, d') ∧ view d' l.toNat = s ∧
    ∀ m ∈ lbas, m ≠ l → view d' m.toNat = view d m.toNat

def flat (view : D → ℕ → Sector) (lbas : List UInt32) (d : D) : Bytes :=
  Block.joinBytes (fun i => view d (lbas.getD i 0).toNat) lbas.length

section
variable {dv : Device D} {view : D → ℕ → Sector} {lbas : List UInt32} {d d' : D}

theorem flat_length (view : D → ℕ → Sector) (lbas : List UInt32) (d : D) :
    (flat view lbas d).length = 512*lbas.length := joinBytes_length _ _

variable {a : Bytes} {i : ℕ} {l : UInt32}

theorem getD_mem (h : i < lbas.length) : lbas.getD i 0 ∈ lbas := by
  rw [List.getD_eq_getElem _ _ h]
  exact List.getElem_mem h

theorem flat_part {o n : ℕ} (hl : lbas[i]? = some l) (h : o+n ≤ 512) :
    (view d l.toNat).get o n = slice (flat view lbas d) (512*i+o) n := by
  obtain ⟨hi, rfl⟩ := List.getElem?_eq_some_iff.mp hl
  have hs := get_joinBytes (fun i => view d (lbas.getD i 0).toNat) hi
  rw [Block.get, ← List.getD_eq_getElem lbas 0 hi, ← hs, slice_slice _ _ _ _ _ h]
  rfl

theorem flat_write (hn : lbas.Nodup) {o : ℕ} {p : Bytes} (hl : lbas[i]? = some l)
    (h : o+p.length ≤ 512) (hnew : view d' l.toNat = (view d l.toNat).put o p)
    (hsame : ∀ m ∈ lbas, m ≠ l → view d' m.toNat = view d m.toNat) :
    flat view lbas d' = patch (flat view lbas d) (512*i+o) p := by
  obtain ⟨hi, rfl⟩ := List.getElem?_eq_some_iff.mp hl
  have hs := get_joinBytes (fun i => view d (lbas.getD i 0).toNat) hi
  have hu := joinBytes_update (fun i => view d (lbas.getD i 0).toNat)
    (fun i => view d' (lbas.getD i 0).toNat) hi (by
      intro j hj hji
      apply hsame _ (getD_mem hj)
      rw [List.getD_eq_getElem _ _ hj]
      exact fun he => hji ((hn.getElem_inj_iff).mp he))
  simp only [List.getD_eq_getElem _ _ hi] at hs hu
  rw [flat, hu, hnew, put_bytes h, ← hs]
  apply patch_slice
  · have := flat_length view lbas d
    unfold flat at this
    omega
  · exact h

/-! ## The two loops on the array -/

/-- Between two turns of a read: `buf` holds the first `done` bytes, the array is as it was. -/
structure Reading (view : D → ℕ → Sector) (lbas : List UInt32) (a : Bytes) (offset : ℕ)
    (s : Chain D) : Prop where
  pos : s.pos = offset+s.done
  done : s.done ≤ s.buf.length
  inside : offset+s.buf.length ≤ a.length
  buf : s.buf.take s.done = slice a offset s.done
  array : flat view lbas s.dev = a

/-- Between two turns of a write: the first `done` bytes are in the array. -/
structure Writing (view : D → ℕ → Sector) (lbas : List UInt32) (a : Bytes) (offset : ℕ)
    (s : Chain D) : Prop where
  pos : s.pos = offset+s.done
  done : s.done ≤ s.buf.length
  inside : offset+s.buf.length ≤ a.length
  array : flat view lbas s.dev = patch a offset (s.buf.take s.done)

theorem sector_exists {s : Chain D} {offset : ℕ} (ha : a.length = 512*lbas.length)
    (hp : s.pos = offset+s.done) (hin : offset+s.buf.length ≤ a.length)
    (hlt : s.done < s.buf.length) : ∃ l, lbas[s.pos/512]? = some l :=
  ⟨_, List.getElem?_eq_getElem (by omega)⟩

theorem pos_split (s : Chain D) : 512*(s.pos/512)+s.inOff = s.pos := by
  unfold Chain.inOff
  omega

theorem readTurn_lawful (hd : Lawful dv view lbas) {s : Chain D}
    (hlt : s.done < s.buf.length) (hl : lbas[s.pos/512]? = some l) :
    ∃ d', readTurn dv lbas s = .inl ⟨s.done+s.take, s.pos+s.take,
        patch s.buf s.done (slice (flat view lbas s.dev) s.pos s.take), d'⟩ ∧
      flat view lbas d' = flat view lbas s.dev := by
  obtain ⟨d', hr, hsame⟩ := hd.rd s.dev l (List.mem_of_getElem? hl)
  refine ⟨d', ?_, joinBytes_congr fun _ hi => hsame _ (getD_mem hi)⟩
  have hpart : (view s.dev l.toNat).get s.inOff s.take = _ := flat_part hl s.take_le.1
  rw [pos_split] at hpart
  rw [readTurn, if_pos hlt, hl]
  simp only [hr]
  split
  · next hw => rw [← hpart, hw.1, hw.2, get_whole]
  · rw [hpart]

theorem writeTurn_lawful (hn : lbas.Nodup) (hd : Lawful dv view lbas) {s : Chain D}
    (hlt : s.done < s.buf.length) (hl : lbas[s.pos/512]? = some l) :
    ∃ d', writeTurn dv lbas s = .inl ⟨s.done+s.take, s.pos+s.take, s.buf, d'⟩ ∧
      flat view lbas d' =
        patch (flat view lbas s.dev) s.pos (slice s.buf s.done s.take) := by
  have hmem := List.mem_of_getElem? hl
  have htake := s.take_le
  have hpl : (slice s.buf s.done s.take).length = s.take := slice_length _ _ _ (by omega)
  rw [writeTurn, if_pos hlt, hl]
  simp only
  split
  · next hw =>
    obtain ⟨d', hwr, hnew, hsame⟩ := hd.wr s.dev l hmem
      ((Block.zero 512).put 0 (slice s.buf s.done 512))
    rw [hwr]
    refine ⟨d', rfl, ?_⟩
    rw [← pos_split s]
    apply flat_write hn hl (by omega) _ hsame
    rw [hnew, hw.1, hw.2]
    exact put_whole _ _ _ (by rw [← hw.2, hpl])
  · obtain ⟨d₁, hrd, hsame₁⟩ := hd.rd s.dev l hmem
    obtain ⟨d', hwr, hnew, hsame⟩ := hd.wr d₁ l hmem
      ((view s.dev l.toNat).put s.inOff (slice s.buf s.done s.take))
    simp only [hrd, hwr]
    refine ⟨d', rfl, ?_⟩
    rw [← pos_split s]
    apply flat_write hn hl (by omega) hnew
    exact fun m hm hne => (hsame m hm hne).trans (hsame₁ m hm)

theorem readLoop_array (hd : Lawful dv view lbas) (offset : ℕ)
    (ha : a.length = 512*lbas.length) (s : Chain D) (h : Reading view lbas a offset s) :
    ((readLoop dv lbas).exec s).1 = .ok (slice a offset s.buf.length) ∧
      flat view lbas ((readLoop dv lbas).exec s).2 = a := by
  revert h
  apply exec_rule (readLoop dv lbas) (fun s r => Reading view lbas a offset s →
    r.1 = .ok (slice a offset s.buf.length) ∧ flat view lbas r.2 = a)
  · intro s r hr h
    have hstep : readTurn dv lbas s = .inr r := hr
    by_cases hlt : s.done < s.buf.length
    · obtain ⟨l, hl⟩ := sector_exists ha h.pos h.inside hlt
      obtain ⟨d', ht, -⟩ := readTurn_lawful hd hlt hl
      rw [ht] at hstep
      cases hstep
    · have hall : s.done = s.buf.length := le_antisymm h.done (not_lt.mp hlt)
      have hbuf := h.buf
      rw [hall, List.take_length] at hbuf
      rw [readTurn, if_neg hlt] at hstep
      cases hstep
      exact ⟨congrArg Except.ok hbuf, h.array⟩
  · intro s t r ht ih h
    have hstep : readTurn dv lbas s = .inl t := ht
    obtain ⟨hlt, -, hlen⟩ := readTurn_buf hstep
    have htake := s.take_le
    obtain ⟨l, hl⟩ := sector_exists ha h.pos h.inside hlt
    obtain ⟨d', ht', harr⟩ := readTurn_lawful hd hlt hl
    rw [ht'] at hstep
    obtain rfl := Sum.inl.inj hstep
    simp only at hlen ih
    rw [hlen] at ih
    apply ih
    have hin := h.inside
    have hpiece : (slice a s.pos s.take).length = s.take :=
      slice_length _ _ _ (by rw [h.pos]; omega)
    refine ⟨by simp only; rw [h.pos]; omega, by simp only; rw [hlen]; omega,
      by simp only; rw [hlen]; exact hin, ?_, harr.trans h.array⟩
    have htp := take_patch s.buf s.done (slice a s.pos s.take) h.done
    rw [hpiece] at htp
    simp only
    rw [h.array, htp, h.buf, h.pos, slice_append_slice]

theorem writeLoop_array (hn : lbas.Nodup) (hd : Lawful dv view lbas) (offset : ℕ)
    (ha : a.length = 512*lbas.length) (s : Chain D) (h : Writing view lbas a offset s) :
    ((writeLoop dv lbas).exec s).1 = .ok [] ∧
      flat view lbas ((writeLoop dv lbas).exec s).2 = patch a offset s.buf := by
  revert h
  apply exec_rule (writeLoop dv lbas) (fun s r => Writing view lbas a offset s →
    r.1 = .ok [] ∧ flat view lbas r.2 = patch a offset s.buf)
  · intro s r hr h
    have hstep : writeTurn dv lbas s = .inr r := hr
    by_cases hlt : s.done < s.buf.length
    · obtain ⟨l, hl⟩ := sector_exists ha h.pos h.inside hlt
      obtain ⟨d', ht, -⟩ := writeTurn_lawful hn hd hlt hl
      rw [ht] at hstep
      cases hstep
    · have hall : s.done = s.buf.length := le_antisymm h.done (not_lt.mp hlt)
      have harr := h.array
      rw [hall, List.take_length] at harr
      rw [writeTurn, if_neg hlt] at hstep
      cases hstep
      exact ⟨rfl, harr⟩
  · intro s t r ht ih h
    have hstep : writeTurn dv lbas s = .inl t := ht
    obtain ⟨hlt, -, -⟩ := writeTurn_buf hstep
    have htake := s.take_le
    obtain ⟨l, hl⟩ := sector_exists ha h.pos h.inside hlt
    obtain ⟨d', ht', harr⟩ := writeTurn_lawful hn hd hlt hl
    rw [ht'] at hstep
    obtain rfl := Sum.inl.inj hstep
    apply ih
    have hin := h.inside
    have hdone : (s.buf.take s.done).length = s.done := by
      rw [List.length_take]
      omega
    refine ⟨by simp only; rw [h.pos]; omega, by simp only; omega, hin, ?_⟩
    simp only
    have happ := patch_append a offset (s.buf.take s.done) (slice s.buf s.done s.take)
      (by rw [hdone]; omega)
    rw [harr, h.array, h.pos]
    rw [hdone] at happ
    rw [happ, slice, List.take_add]

end

/-! ## Sequences of calls -/

inductive FlashOp where
  | read (offset : ℕ) (buf : Bytes)
  | write (offset : ℕ) (data : Bytes)

def step (dv : Device D) (sectors : List UInt32) (d : D) :
    FlashOp → Except (Stop FlashError) Bytes × D
  | .read offset buf => chainRead dv sectors offset buf d
  | .write offset data => chainWrite dv sectors offset data d

def arrayStep (a : Bytes) : FlashOp → Except (Stop FlashError) Bytes × Bytes
  | .read offset buf =>
    if offset+buf.length > a.length then (.error (.refused .oob), a)
    else (.ok (slice a offset buf.length), a)
  | .write offset data =>
    if offset+data.length > a.length then (.error (.refused .oob), a)
    else (.ok [], patch a offset data)

def results {σ : Type} (step : σ → FlashOp → Except (Stop FlashError) Bytes × σ) :
    σ → List FlashOp → List (Except (Stop FlashError) Bytes)
  | _, [] => []
  | s, op::ops => (step s op).1 :: results step (step s op).2 ops

section
variable {dv : Device D} {view : D → ℕ → Sector} {lbas : List UInt32} {d : D}

theorem length_le_of_nodup (h : lbas.Nodup) : lbas.length ≤ 2^32 := by
  have hmap : (lbas.map UInt32.toNat).Nodup :=
    (List.nodup_map_iff fun _ _ => UInt32.toNat_inj.mp).mpr h
  have hsub : (lbas.map UInt32.toNat).toFinset ⊆ Finset.range (2^32) := by
    intro x hx
    obtain ⟨l, -, rfl⟩ := List.mem_map.mp (List.mem_toFinset.mp hx)
    exact Finset.mem_range.mpr l.toNat_lt
  have hcard := Finset.card_le_card hsub
  rwa [List.toFinset_card_of_nodup hmap, Finset.card_range, List.length_map] at hcard

theorem oob_iff (h : lbas.Nodup) {offset n : ℕ} :
    satAdd offset n > lbas.length*512 ↔ offset+n > 512*lbas.length := by
  have := length_le_of_nodup h
  unfold satAdd
  omega

theorem step_array (hn : lbas.Nodup) (hd : Lawful dv view lbas) (op : FlashOp) :
    (step dv lbas d op).1 = (arrayStep (flat view lbas d) op).1 ∧
      flat view lbas (step dv lbas d op).2 = (arrayStep (flat view lbas d) op).2 := by
  have hl := flat_length view lbas d
  cases op with
  | read offset buf =>
    rw [step, chainRead, arrayStep, hl]
    by_cases h : offset+buf.length > 512*lbas.length
    · rw [if_pos h, if_pos ((oob_iff hn).mpr h)]
      exact ⟨rfl, rfl⟩
    · rw [if_neg h, if_neg fun hs => h ((oob_iff hn).mp hs)]
      exact readLoop_array hd offset hl _ ⟨rfl, Nat.zero_le _, by simp only; omega, rfl, rfl⟩
  | write offset data =>
    rw [step, chainWrite, arrayStep, hl]
    by_cases h : offset+data.length > 512*lbas.length
    · rw [if_pos h, if_pos ((oob_iff hn).mpr h)]
      exact ⟨rfl, rfl⟩
    · rw [if_neg h, if_neg fun hs => h ((oob_iff hn).mp hs)]
      refine writeLoop_array hn hd offset hl _ ⟨rfl, Nat.zero_le _, by simp only; omega, ?_⟩
      simp [patch]

end

/-- Over a list of distinct sectors, any sequence of calls returns what it returns on a plain
array of 512 bytes per sector that starts as the sectors are. -/
theorem fileFlash_refines_array (dv : Device D) (view : D → ℕ → Sector) (lbas : List UInt32)
    (hn : lbas.Nodup) (hd : Lawful dv view lbas) (ops : List FlashOp) (d : D) :
    (flat view lbas d).length = 512*lbas.length ∧
      results (step dv lbas) d ops = results arrayStep (flat view lbas d) ops := by
  refine ⟨flat_length view lbas d, ?_⟩
  induction ops generalizing d with
  | nil => rfl
  | cons op ops ih =>
    obtain ⟨hres, hflat⟩ := step_array hn hd op
    rw [results, results, hres, ih, hflat]

def memory : Device (ℕ → Sector) where
  rd d l := (some (d l), d)
  wr d l s := (true, Function.update d l s)

theorem memory_lawful (lbas : List UInt32) : Lawful memory (fun d => d) lbas := by
  constructor
  · exact fun d l _ => ⟨d, rfl, fun _ _ => rfl⟩
  · intro d l _ s
    refine ⟨_, rfl, Function.update_self _ _ _, fun m _ hm => ?_⟩
    exact Function.update_of_ne (fun he => hm (UInt32.toNat_inj.mp he)) _ _

theorem memory_refines_array :
    results (step memory [7, 3]) (fun _ => Block.zero 512)
      [.write 510 [1, 2, 3, 4], .read 509 [0, 0, 0, 0], .read 1020 [0, 0, 0, 0, 0]] =
    results arrayStep (flat (fun d => d) [7, 3] fun _ => Block.zero 512)
      [.write 510 [1, 2, 3, 4], .read 509 [0, 0, 0, 0], .read 1020 [0, 0, 0, 0, 0]] :=
  (fileFlash_refines_array memory (fun d => d) [7, 3] (by decide) (memory_lawful _) _ _).2

end NeuralOs.FileFlash
