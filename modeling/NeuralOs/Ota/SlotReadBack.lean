import NeuralOs.Ota.Rollback

/-!
# Which slot is read as the active one

`parse_bootcfg` reads the slot that was written, if the directory of the last boot
shows the file; `active_slot` looks for a marker that no writer prints and answers
1. Since that answer does not change with the line that a switch writes, a second
switch promotes the same slot again.
-/

set_option autoImplicit false

namespace NeuralOs.Ota

open ByteString Fallible TextScan Bpe Machine

/-- The lines of the four writers, whatever they read, with the slot they name. -/
inductive Writes : Text → ℕ → Prop
  | switchSlot (cfg : Option Bytes) :
    Writes (cfgText (otherSlot (markedSlot cfg)) 3 0 (some (markedSlot cfg)))
      (otherSlot (markedSlot cfg))
  | rollback (cfg : Option Bytes) :
    Writes (cfgText (fallbackSlot (cfgOf cfg)) 0 0 (some (fallbackSlot (cfgOf cfg))))
      (fallbackSlot (cfgOf cfg))
  | markBootOk (cfg : Option Bytes) :
    Writes (cfgText (cfgOf cfg).slot 0 0 none) (cfgOf cfg).slot
  | noteBootAttempt (cfg : Option Bytes) :
    Writes (cfgText (cfgOf cfg).slot (cfgOf cfg).tries (nextAttempt (cfgOf cfg).attempts) none)
      (cfgOf cfg).slot

theorem fallbackSlot_range (c : BootCfg) : fallbackSlot c = 1 ∨ fallbackSlot c = 2 := by
  unfold fallbackSlot
  split
  next h => exact h
  next => exact otherSlot_range _

theorem writes_fields {text : Text} {slot : ℕ} (h : Writes text slot) :
    ∃ tries attempts lastGood, text = cfgText slot tries attempts lastGood ∧
      (slot = 1 ∨ slot = 2) ∧ tries < 256 ∧ attempts < 256 ∧
      (lastGood = none ∨ lastGood = some 1 ∨ lastGood = some 2) := by
  cases h with
  | switchSlot cfg =>
    refine ⟨_, _, _, rfl, otherSlot_range _, by decide, by decide, Or.inr ?_⟩
    rcases markedSlot_range cfg with h | h <;> simp [h]
  | rollback cfg =>
    refine ⟨_, _, _, rfl, fallbackSlot_range _, by decide, by decide, Or.inr ?_⟩
    rcases fallbackSlot_range (cfgOf cfg) with h | h <;> simp [h]
  | markBootOk cfg =>
    exact ⟨_, _, _, rfl, (cfgOf_range cfg).1, by decide, by decide, Or.inl rfl⟩
  | noteBootAttempt cfg =>
    exact ⟨_, _, _, rfl, (cfgOf_range cfg).1, (cfgOf_range cfg).2, nextAttempt_small _, Or.inl rfl⟩

theorem writes_slot {text : Text} {slot : ℕ} (h : Writes text slot) :
    (parseBootcfg text).slot = slot ∧ contains slotBMark text = false ∧
      contains bootSlot2 text = decide (slot = 2) ∧ ∀ c ∈ text, c.toNat < 128 := by
  obtain ⟨tries, attempts, lastGood, rfl, hslot, ht, ha, hg⟩ := writes_fields h
  have hend := cfgEnd_ending hg
  exact ⟨by rw [parseBootcfg_cfgText hslot ht ha hg], slotBMark_absent hslot hend.mark,
    bootSlot2_contained hslot hend.slot2, cfgText_ascii hslot hg⟩

/-! ## The line through the directory -/

def Lined (v : Volume) : Prop :=
  v.file .bootCfg = none ∨ ∃ text slot, Writes text slot ∧ v.file .bootCfg = some (utf8 text)

theorem contains_window {text p : Text} {k m : ℕ} (hp : p ≠ []) (hnul : '\x00' ∉ p)
    (h : contains p text = false) :
    contains p ((text ++ List.replicate k '\x00').take m) = false := by
  rw [← Bool.not_eq_true, contains_iff hp] at h ⊢
  intro hin
  exact h (infix_of_filled hnul (hin.trans (List.take_prefix _ _).isInfix))

theorem lined_read {v : Volume} (h : Lined v) (dir : Dir) :
    markedSlot (v.read dir .bootCfg) = 1 ∧
      ((cfgOf (v.file .bootCfg)).slot = 1 → (cfgOf (v.read dir .bootCfg)).slot = 1) := by
  rcases h with hnone | ⟨text, slot, hw, hline⟩
  · have hread : v.read dir .bootCfg = none := by
      rw [Volume.read, hnone]
      cases dir .bootCfg with
      | none => rfl
      | some size => simp
    rw [hread]
    exact ⟨rfl, fun _ => rfl⟩
  obtain ⟨hparse, hmark, htwo, hascii⟩ := writes_slot hw
  obtain ⟨k, -, hwindow⟩ := textOf_window v hascii
  cases hread : v.read dir .bootCfg with
  | none => exact ⟨rfl, fun _ => rfl⟩
  | some cfg =>
    obtain ⟨size, -, hcfg⟩ := Option.bind_eq_some_iff.mp hread
    rw [hline, Option.map_some] at hcfg
    split at hcfg
    · cases hcfg
    cases hcfg
    have hmark' := contains_window (k := k) (m := size) (by decide) (by decide) hmark
    rw [← hwindow] at hmark'
    refine ⟨by simp [markedSlot, hmark'], fun hone => ?_⟩
    rw [hline, cfgOf, textOf_utf8, hparse] at hone
    have htwo' : contains bootSlot2 text = false := by rw [htwo, hone]; rfl
    have htwo'' := contains_window (k := k) (m := size) (by decide) (by decide) htwo'
    rw [← hwindow] at htwo''
    simp [cfgOf, parseBootcfg, hmark', htwo'']

/-! ## The line through any operations -/

section keeps

theorem keeps_readFile (f : File) : Keeps (fun d : Disk => Lined d.vol) (readFile f) :=
  fun _ h => h

theorem keeps_activeSlot {α : Type} {next : ℕ → DiskAct α}
    (h : ∀ cfg, Keeps (fun d => Lined d.vol) (next (markedSlot cfg))) :
    Keeps (fun d => Lined d.vol) (activeSlot >>= next) := fun _ hd => h _ _ hd

theorem keeps_bootState {α : Type} {next : BootCfg → DiskAct α}
    (h : ∀ cfg, Keeps (fun d => Lined d.vol) (next (cfgOf cfg))) :
    Keeps (fun d => Lined d.vol) (bootState >>= next) := fun _ hd => h _ _ hd

theorem keeps_writeFile {f : File} {data : Bytes}
    (h : ∀ v, Lined v → Lined (v.put f data)) :
    Keeps (fun d : Disk => Lined d.vol) (writeFile f data) := by
  intro d hd
  unfold writeFile
  dsimp only
  cases d.fate d.requests with
  | done => exact h d.vol hd
  | refused => exact hd
  | lost => exact hd

theorem keeps_writeKernel {f : File} (hf : f ≠ .bootCfg) (data : Bytes) :
    Keeps (fun d : Disk => Lined d.vol) (writeKernel f data) := by
  apply keeps_writeFile
  intro v hv
  rwa [Lined, put_ne hf.symm]

theorem keeps_writeBootcfg {text : Text} {slot : ℕ} (hw : Writes text slot) :
    Keeps (fun d : Disk => Lined d.vol) (writeBootcfg text) :=
  keeps_writeFile fun _ _ => .inr ⟨text, slot, hw, put_same⟩

theorem keeps_promoteSlot (slot : ℕ) : Keeps (fun d : Disk => Lined d.vol) (promoteSlot slot) := by
  apply Keeps.bind (keeps_readFile _)
  intro blob
  cases blob with
  | none => exact keeps_pure false
  | some blob => exact Keeps.ite (fun _ => keeps_writeKernel (by decide) blob) fun _ => keeps_pure _

theorem keeps_backup (slot : ℕ) (kernel : Option Bytes) :
    Keeps (fun d : Disk => Lined d.vol) (backup slot kernel) := by
  cases kernel with
  | none => exact keeps_pure true
  | some cur => exact keeps_writeKernel (slotFile_ne_bootCfg _) cur

theorem keeps_switchSlot : Keeps (fun d : Disk => Lined d.vol) switchSlot := by
  apply keeps_activeSlot
  intro cfg
  apply Keeps.bind (keeps_readFile _)
  intro kernel
  apply Keeps.bind (keeps_backup _ _)
  intro saved
  refine Keeps.ite (fun _ => Keeps.bind (keeps_promoteSlot _) fun promoted => ?_)
    fun _ => keeps_pure _
  exact Keeps.ite (fun _ => keeps_writeBootcfg (.switchSlot cfg)) fun _ => keeps_pure _

theorem keeps_rollback : Keeps (fun d : Disk => Lined d.vol) rollback := by
  apply keeps_bootState
  intro cfg
  refine Keeps.ite (fun _ => keeps_pure _) fun _ =>
    Keeps.bind (keeps_promoteSlot _) fun promoted => ?_
  exact Keeps.ite (fun _ => keeps_writeBootcfg (.rollback cfg)) fun _ => keeps_pure _

theorem keeps_markBootOk : Keeps (fun d : Disk => Lined d.vol) markBootOk := by
  apply keeps_bootState
  intro cfg
  refine Keeps.ite (fun _ => keeps_pure _) fun _ => ?_
  exact Keeps.bind (keeps_writeBootcfg (.markBootOk cfg)) fun _ => keeps_pure ()

theorem keeps_noteBootAttempt (maxAttempts : ℕ) :
    Keeps (fun d : Disk => Lined d.vol) (noteBootAttempt maxAttempts) := by
  apply keeps_bootState
  intro cfg
  refine Keeps.ite (fun _ => keeps_pure _) fun _ =>
    Keeps.bind (keeps_writeBootcfg (.noteBootAttempt cfg)) fun written => ?_
  exact Keeps.ite (fun _ => keeps_rollback) fun _ => keeps_pure _

theorem keeps_applyUpdate (data : Bytes) :
    Keeps (fun d : Disk => Lined d.vol) (applyUpdate data) :=
  keeps_activeSlot fun _ => keeps_writeKernel (slotFile_ne_bootCfg _) data

end keeps

inductive SlotOp
  | switchSlot
  | rollback
  | markBootOk
  | noteBootAttempt (maxAttempts : ℕ)
  | applyUpdate (data : Bytes)
  | reboot

def execSlot (d : Disk) : SlotOp → Disk
  | .switchSlot => (switchSlot.run d).2
  | .rollback => (rollback.run d).2
  | .markBootOk => (markBootOk.run d).2
  | .noteBootAttempt maxAttempts => ((noteBootAttempt maxAttempts).run d).2
  | .applyUpdate data => ((applyUpdate data).run d).2
  | .reboot => d.reboot

variable {d t : Disk}

theorem execSlot_lined (hd : Lined d.vol) (op : SlotOp) : Lined (execSlot d op).vol := by
  cases op with
  | switchSlot => exact keeps_switchSlot d hd
  | rollback => exact keeps_rollback d hd
  | markBootOk => exact keeps_markBootOk d hd
  | noteBootAttempt maxAttempts => exact keeps_noteBootAttempt maxAttempts d hd
  | applyUpdate data => exact keeps_applyUpdate data d hd
  | reboot => exact hd

theorem run_lined (hd : Lined d.vol) (ops : List SlotOp) : Lined (run execSlot d ops).vol := by
  induction ops generalizing d with
  | nil => exact hd
  | cons op ops ih => exact ih (execSlot_lined hd op)

/-! ## Switching twice -/

theorem writeFile_ok {f : File} {data : Bytes} (h : (writeFile f data).run d = (.ok true, t)) :
    t.vol = d.vol.put f data ∧ t.cache = d.cache := by
  unfold writeFile at h
  dsimp only at h
  split at h <;> cases h
  exact ⟨rfl, rfl⟩

theorem promoteSlot_ok {slot : ℕ} {v : Volume} {dir : Dir} {fate : ℕ → Fate} {n : ℕ}
    (h : (promoteSlot slot).run ⟨v, some dir, fate, n⟩ = (.ok true, t)) :
    ∃ blob, v.read dir (slotFile slot) = some blob ∧ t.vol = v.put .kernelElf blob ∧
      t.cache = some dir := by
  rw [promoteSlot, run_readFile_bind, Option.getD_some] at h
  cases hread : v.read dir (slotFile slot) with
  | none =>
    rw [hread] at h
    cases h
  | some blob =>
    rw [hread] at h
    dsimp only at h
    split at h
    · exact ⟨blob, rfl, writeFile_ok h⟩
    · cases h

theorem backup_ok {slot : ℕ} {kernel : Option Bytes}
    (h : (backup slot kernel).run d = (.ok true, t)) :
    t.cache = d.cache ∧ ∀ g, g ≠ slotFile slot →
      t.vol.file g = d.vol.file g ∧ ∀ dir, t.vol.read dir g = d.vol.read dir g := by
  cases kernel with
  | none =>
    cases h
    exact ⟨rfl, fun _ _ => ⟨rfl, fun _ => rfl⟩⟩
  | some cur =>
    obtain ⟨hvol, hcache⟩ := writeFile_ok h
    refine ⟨hcache, fun g hg => ?_⟩
    rw [hvol]
    exact ⟨put_ne hg, fun _ => read_put_ne hg⟩

theorem switchSlot_ok (hd : Lined d.vol) (h : switchSlot.run d = (.ok true, t)) :
    t.cache = some (d.cache.getD d.vol.dir) ∧
      (∃ blob, d.vol.read (d.cache.getD d.vol.dir) .slotB = some blob ∧
        t.vol.file .kernelElf = some blob) ∧
      t.vol.file .slotB = d.vol.file .slotB ∧
      ∀ dir, t.vol.read dir .slotB = d.vol.read dir .slotB := by
  obtain ⟨v, cache, fate, n⟩ := d
  rw [switchSlot, run_activeSlot_bind, run_readFile_bind, Option.getD_some] at h
  rw [(lined_read hd _).1] at h
  obtain ⟨saved, u, hback, h⟩ := bind_ok h
  cases saved with
  | false => cases h
  | true =>
    obtain ⟨ucache, hu⟩ := backup_ok hback
    obtain ⟨hfile, hread⟩ := hu .slotB (by decide)
    obtain ⟨uvol, ucache', ufate, un⟩ := u
    subst ucache
    obtain ⟨promoted, w, hprom, h⟩ := bind_ok h
    cases promoted with
    | false => cases h
    | true =>
      obtain ⟨blob, hblob, hw, hcache⟩ := promoteSlot_ok hprom
      obtain ⟨ht, htcache⟩ := writeFile_ok h
      refine ⟨htcache.trans hcache, ?_, ?_, fun dir => ?_⟩
      · refine ⟨blob, (hread _).symm.trans hblob, ?_⟩
        rw [ht, put_ne (by decide), hw, put_same]
      · rw [ht, put_ne (by decide), hw, put_ne (by decide)]
        exact hfile
      · rw [ht, read_put_ne (by decide), hw, read_put_ne (by decide)]
        exact hread dir

theorem switch_twice (hd : Lined d.vol) (hfirst : switchSlot.run d = (.ok true, t)) :
    (∀ u, switchSlot.run t = (.ok true, u) → u.vol.file .kernelElf = t.vol.file .kernelElf) ∧
    ∀ u, switchSlot.run t.reboot = (.ok true, u) → u.vol.file .kernelElf = d.vol.file .slotB := by
  have ht : Lined t.vol := by
    have hlined := keeps_switchSlot d hd
    rwa [hfirst] at hlined
  obtain ⟨hcache, ⟨blob, hblob, hkernel⟩, hslot, hread⟩ := switchSlot_ok hd hfirst
  constructor
  · intro u hsecond
    obtain ⟨-, ⟨blob', hblob', hkernel'⟩, -, -⟩ := switchSlot_ok ht hsecond
    rw [hcache, Option.getD_some, hread, hblob] at hblob'
    rw [hkernel', hkernel, hblob']
  · intro u hsecond
    obtain ⟨-, ⟨blob', hblob', hkernel'⟩, -, -⟩ := switchSlot_ok (d := t.reboot) ht hsecond
    have hwhole : t.vol.read t.vol.dir .slotB = some blob' := hblob'
    rw [read_dir, Option.filter_eq_some_iff, hslot] at hwhole
    rw [hkernel', hwhole.1]

/-! ## The slot an update is stored in -/

def Disk.seen (d : Disk) (f : File) : Option Bytes := d.vol.read (d.cache.getD d.vol.dir) f

def Disk.named (d : Disk) : ℕ := (cfgOf (d.vol.file .bootCfg)).slot

def updateFile (d : Disk) : File := slotFile (otherSlot (markedSlot (d.seen .bootCfg)))

theorem lined_spared_iff (h : Lined d.vol) :
    (markedSlot (d.seen .bootCfg) = d.named ∧ (cfgOf (d.seen .bootCfg)).slot = d.named ∧
      updateFile d ≠ slotFile d.named) ↔ d.named = 1 := by
  obtain ⟨hmark, hone⟩ := lined_read h (d.cache.getD d.vol.dir)
  rw [updateFile, Disk.seen, hmark]
  constructor
  · rintro ⟨hnamed, -⟩
    exact hnamed.symm
  · intro hnamed
    rw [hnamed]
    exact ⟨rfl, hone hnamed, by decide⟩

/-- From a disk without a boot configuration, after any operations and restarts: the slot that
was written is read back by both readers, and an update spares it, exactly if it is slot 1. A
second switch in a row never brings the kernel back, unless the second slot already held it. -/
theorem slot_read_back_iff {start : Disk} (hnone : start.vol.file .bootCfg = none)
    (ops : List SlotOp) :
    (∀ text slot, Writes text slot → (parseBootcfg text).slot = slot ∧
      (markedSlot (some (utf8 text)) = slot ↔ slot = 1)) ∧
    ((markedSlot ((run execSlot start ops).seen .bootCfg) = (run execSlot start ops).named ∧
        (cfgOf ((run execSlot start ops).seen .bootCfg)).slot = (run execSlot start ops).named ∧
        updateFile (run execSlot start ops) ≠ slotFile (run execSlot start ops).named) ↔
      (run execSlot start ops).named = 1) ∧
    ∀ t, switchSlot.run (run execSlot start ops) = (.ok true, t) →
      (∀ u, switchSlot.run t = (.ok true, u) → u.vol.file .kernelElf = t.vol.file .kernelElf) ∧
      ∀ u, switchSlot.run t.reboot = (.ok true, u) →
        u.vol.file .kernelElf = (run execSlot start ops).vol.file .slotB := by
  have hlined := run_lined (.inl hnone) ops
  refine ⟨?_, lined_spared_iff hlined, fun t => switch_twice hlined⟩
  intro text slot hw
  obtain ⟨hparse, hmark, -⟩ := writes_slot hw
  rw [markedSlot, textOf_utf8, hmark]
  exact ⟨hparse, eq_comm⟩

def twoKernels : Disk where
  vol := { usedVolume with file := fun f =>
    if f = .kernelElf then some (elfImage 1) else if f = .slotB then some (elfImage 2) else none }
  cache := none
  fate := fun _ => .done
  requests := 0

def rolledBackDisk : Disk := run execSlot twoKernels [.switchSlot, .reboot, .rollback]

theorem rolled_back_slot_read :
    markedSlot (rolledBackDisk.seen .bootCfg) = rolledBackDisk.named ∧
      (cfgOf (rolledBackDisk.seen .bootCfg)).slot = rolledBackDisk.named ∧
      updateFile rolledBackDisk ≠ slotFile rolledBackDisk.named :=
  (@slot_read_back_iff twoKernels rfl [.switchSlot, .reboot, .rollback]).2.1.mpr
    (by decide +kernel)

/-- After a switch and a restart the update goes to the active slot, and a second switch keeps the
new kernel. -/
theorem switched_slot_not_read :
    (run execSlot twoKernels [.switchSlot, .reboot]).named = 2 ∧
      markedSlot ((run execSlot twoKernels [.switchSlot, .reboot]).seen .bootCfg) = 1 ∧
      updateFile (run execSlot twoKernels [.switchSlot, .reboot]) = slotFile 2 ∧
      (switchSlot.run twoKernels).1.toOption = some true ∧
      (switchSlot.run (execSlot twoKernels .switchSlot)).1.toOption = some true ∧
      twoKernels.vol.file .kernelElf = some (elfImage 1) ∧
      (run execSlot twoKernels [.switchSlot, .switchSlot]).vol.file .kernelElf =
        some (elfImage 2) := by
  decide +kernel

end NeuralOs.Ota
