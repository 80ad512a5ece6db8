import NeuralOs.Ota.SelfUpdate

/-!
# One boot cycle of an update

A boot reads the directory anew and counts an attempt, and the last attempt
promotes the fallback slot. The line that counts the attempt is then read with the
size of the line before it: cut by its last character, or filled up with zeros,
which changes none of its fields.
-/

set_option autoImplicit false

namespace NeuralOs.Ota

open ByteString Fallible TextScan Bpe

variable {v : Volume} {f g : File} {data : Bytes} {cache : Option Dir} {dir : Dir}
  {fate : ℕ → Fate} {n : ℕ}

/-! ## Files -/

@[simp] theorem put_same : (v.put f data).file f = some data := Function.update_self _ _ _

theorem put_ne (h : g ≠ f) : (v.put f data).file g = v.file g := Function.update_of_ne h _ _

theorem slotFile_ne_bootCfg (s : ℕ) : slotFile s ≠ .bootCfg := by
  unfold slotFile
  split <;> simp

theorem otherSlot_range (s : ℕ) : otherSlot s = 1 ∨ otherSlot s = 2 := by
  unfold otherSlot
  split <;> simp

theorem markedSlot_range (cfg : Option Bytes) : markedSlot cfg = 1 ∨ markedSlot cfg = 2 := by
  unfold markedSlot
  split
  · split <;> simp
  · simp

/-! ## Reading through the directory -/

theorem read_put_ne (h : g ≠ f) : (v.put f data).read dir g = v.read dir g := by
  rw [Volume.read, Volume.read, put_ne h]
  rfl

theorem padded_length (v : Volume) (data : Bytes) : v.cluster ≤ (padded v.cluster data).length ∧
    data.length ≤ (padded v.cluster data).length := by
  have hpos := v.sector
  rw [padded, List.length_append, zeros_length]
  refine ⟨?_, by omega⟩
  split
  · omega
  next hne =>
  have hlen : 0 < data.length := List.length_pos_iff.mpr hne
  have hone : 1 ≤ (data.length+v.cluster-1)/v.cluster :=
    (Nat.one_le_div_iff (by omega)).mpr (by omega)
  have := Nat.mul_le_mul_right v.cluster hone
  omega

theorem take_padded (cluster : ℕ) (data : Bytes) :
    (padded cluster data).take data.length = data := by
  rw [padded, List.take_left]

theorem read_dir (v : Volume) (f : File) :
    v.read v.dir f = (v.file f).filter (·.length ≤ maxInline) := by
  cases hf : v.file f with
  | none => simp [Volume.read, Volume.dir, hf]
  | some data =>
    have hmin : maxInline < min data.length 0xFFFFFFFF ↔ ¬ data.length ≤ maxInline := by
      unfold maxInline
      omega
    simp only [Volume.read, Volume.dir, hf, Option.map_some, Option.bind_some, hmin,
      Option.filter_some, decide_eq_true_eq]
    by_cases hsmall : data.length ≤ maxInline
    · have hsize : min data.length 0xFFFFFFFF = data.length := by
        unfold maxInline at hsmall
        omega
      rw [if_neg (not_not_intro hsmall), if_pos hsmall, hsize, take_padded]
    · rw [if_pos hsmall, if_neg hsmall]

section run
variable {α : Type} {k : Option Bytes → DiskAct α}

@[simp] theorem run_readFile_bind : (readFile f >>= k).run ⟨v, cache, fate, n⟩ =
    (k (v.read (cache.getD v.dir) f)).run ⟨v, some (cache.getD v.dir), fate, n⟩ := rfl

@[simp] theorem run_activeSlot_bind {k : ℕ → DiskAct α} :
    (activeSlot >>= k).run ⟨v, cache, fate, n⟩ =
      (k (markedSlot (v.read (cache.getD v.dir) .bootCfg))).run
        ⟨v, some (cache.getD v.dir), fate, n⟩ := rfl

end run

theorem textOf_utf8 (text : Text) : textOf (utf8 text) = text := by
  rw [textOf, fromUtf8_utf8, Option.getD_some]

theorem utf8_ascii {text : Text} (h : ∀ c ∈ text, c.toNat < 128) :
    utf8 text = text.map fun c => UInt8.ofNat c.toNat := by
  induction text with
  | nil => rfl
  | cons c text ih =>
    rw [List.forall_mem_cons] at h
    rw [utf8_cons, utf8EncodeChar_ascii h.1, ih h.2]
    rfl

theorem textOf_window (v : Volume) {text : Text} (h : ∀ c ∈ text, c.toNat < 128) :
    ∃ k, v.cluster ≤ text.length+k ∧ ∀ m, textOf ((padded v.cluster (utf8 text)).take m) =
      (text ++ List.replicate k '\x00').take m := by
  obtain ⟨k, hk⟩ : ∃ k, padded v.cluster (utf8 text) = utf8 text ++ zeros k := ⟨_, rfl⟩
  have hfill : ∀ c ∈ text ++ List.replicate k '\x00', c.toNat < 128 := by
    intro c hc
    rcases List.mem_append.mp hc with hc | hc
    · exact h c hc
    · rw [List.eq_of_mem_replicate hc]
      decide
  have hall : padded v.cluster (utf8 text) = utf8 (text ++ List.replicate k '\x00') := by
    rw [hk, utf8_append, utf8_ascii fun c hc => hfill c (List.mem_append_right _ hc),
      List.map_replicate]
    rfl
  refine ⟨k, ?_, fun m => ?_⟩
  · have hlen := (padded_length v (utf8 text)).1
    rw [hall, utf8_ascii hfill, List.length_map, List.length_append, List.length_replicate] at hlen
    exact hlen
  · rw [hall, utf8_ascii hfill, ← List.map_take,
      ← utf8_ascii fun c hc => hfill c (List.mem_of_mem_take hc), textOf_utf8]

section line
variable {slot tries attempts : ℕ} {lastGood : Option ℕ}

theorem digit_ascii {c : Char} (h : c.isDigit = true) : c.toNat < 128 := by
  simp only [Char.isDigit, Bool.and_eq_true, decide_eq_true_eq, UInt32.le_iff_toNat_le] at h
  have hhigh : c.toNat ≤ 57 := h.2
  omega

theorem cfgText_ascii (hslot : slot = 1 ∨ slot = 2)
    (hg : lastGood = none ∨ lastGood = some 1 ∨ lastGood = some 2) :
    ∀ c ∈ cfgText slot tries attempts lastGood, c.toNat < 128 := by
  have hhead : (cfgHead slot).all (·.toNat < 128) = true := by
    rcases hslot with rfl | rfl <;> decide
  have hend : (cfgEnd lastGood).all (·.toNat < 128) = true := by
    rcases hg with rfl | rfl | rfl <;> decide
  have hmid : cfgMiddle.all (·.toNat < 128) = true := by decide
  have hdec : ∀ m, ∀ c ∈ decimal m, c.toNat < 128 := fun m c hc =>
    digit_ascii (List.all_eq_true.mp (decimal_digits m) c hc)
  simp only [List.all_eq_true, decide_eq_true_eq] at hhead hend hmid
  intro c hc
  simp only [cfgText, cfgLine, List.mem_append] at hc
  rcases hc with hc | hc | hc | hc | hc
  · exact hhead c hc
  · exact hdec _ c hc
  · exact hmid c hc
  · exact hdec _ c hc
  · exact hend c hc

theorem nextAttempt_small (a : ℕ) : nextAttempt a < 256 := by
  unfold nextAttempt
  omega

end line

/-- `kernel` is in slot `back`, to which a rollback returns, after `attempts` boots. -/
structure Armed (v : Volume) (kernel : Option Bytes) (back attempts : ℕ) : Prop where
  slot : back = 1 ∨ back = 2
  small : attempts < 256
  line : ∃ lastGood, (lastGood = none ∨ lastGood = some back) ∧
    v.file .bootCfg = some (utf8 (cfgText (otherSlot back) 3 attempts lastGood))
  saved : v.file (slotFile back) = kernel

section armed
variable {kernel : Option Bytes} {back attempts maxAttempts : ℕ}

def counted (v : Volume) (back attempts : ℕ) : Volume :=
  v.put .bootCfg (utf8 (cfgText (otherSlot back) 3 (nextAttempt attempts) none))

end armed

/-! ## Switching -/

end NeuralOs.Ota
