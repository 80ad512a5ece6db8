import NeuralOs.Lib.Machine
import NeuralOs.Ota.BootCycle

/-!
# What a rollback returns to

The kernel that was last confirmed is either the running one or the one in the
fallback slot, as long as no update is applied while another is pending (the second
backup overwrites the confirmed kernel) and no step is misled by the directory of
the last boot.
-/

set_option autoImplicit false

namespace NeuralOs.Ota

open ByteString Fallible Machine

inductive Op where
  | update (offer : Offer)
  | boot (maxAttempts : ℕ)
  | markBootOk
  | rollback

structure Sys where
  vol : Volume
  cache : Option Dir
  /-- What `kernel.elf` held when a boot was last confirmed. -/
  confirmed : Option Bytes

def Sys.seen (s : Sys) (f : File) : Option Bytes := s.vol.read (s.cache.getD s.vol.dir) f

def Sys.onDisk (s : Sys) : BootCfg := cfgOf (s.vol.file .bootCfg)

def Sys.after {α : Type} (s : Sys) (x : DiskAct α) : Sys :=
  let d := (x.run ⟨s.vol, s.cache, fun _ => .done, 0⟩).2
  ⟨d.vol, d.cache, s.confirmed⟩

def step (key : ReleaseKey) (s : Sys) : Op → Sys
  | .update offer => s.after (update key offer)
  | .boot maxAttempts => Sys.after { s with cache := none } (noteBootAttempt maxAttempts)
  | .markBootOk => { s.after markBootOk with confirmed := s.vol.file .kernelElf }
  | .rollback => s.after rollback

/-- The slot to return to is the one that the disk names, and it is read as it is or not at all. -/
def Sys.FallbackSeen (s : Sys) : Prop :=
  s.onDisk.tries ≠ 0 ∧ fallbackSlot (cfgOf (s.seen .bootCfg)) = fallbackSlot s.onDisk ∧
    (s.seen (slotFile (fallbackSlot s.onDisk)) = none ∨
      s.seen (slotFile (fallbackSlot s.onDisk)) = s.vol.file (slotFile (fallbackSlot s.onDisk)))

/-- No update is applied while one is pending, and no step reads a file wrong that it relies on. -/
def Orderly (s : Sys) : Op → Prop
  | .update _ => s.onDisk.tries = 0 ∧ s.seen .kernelElf = s.vol.file .kernelElf
  | .boot _ => True
  | .markBootOk => (cfgOf (s.seen .bootCfg)).tries = 0 ↔ s.onDisk.tries = 0
  | .rollback => (cfgOf (s.seen .bootCfg)).tries = 0 ∨ s.FallbackSeen

/-- The confirmed kernel runs, or an update is pending and the fallback slot holds it. -/
inductive Kept (v : Volume) (kernel : Bytes) : Prop where
  | idle (tries : (cfgOf (v.file .bootCfg)).tries = 0) (running : v.file .kernelElf = some kernel)
  | pending (back attempts : ℕ) (new : Bytes) (armed : Armed v (some kernel) back attempts)
      (small : kernel.length ≤ maxInline) (running : v.file .kernelElf = some new)
      (elf : isValidElf new = true)

/-! ## One step -/

section
variable {v : Volume} {kernel : Bytes} {dir : Dir} {n : ℕ}

variable {s : Sys}

theorem jsonU8_getD_lt (text key : TextScan.Text) : (jsonU8 text key).getD 0 < 256 := by
  unfold jsonU8
  cases hf : fieldText text key with
  | none => simp
  | some rest =>
    rw [Option.bind_some]
    cases hp : parseU8 (rest.takeWhile Char.isDigit) with
    | none => simp
    | some n => exact TextScan.parseBelow_lt hp

theorem cfgOf_range (cfg : Option Bytes) :
    ((cfgOf cfg).slot = 1 ∨ (cfgOf cfg).slot = 2) ∧ (cfgOf cfg).tries < 256 := by
  cases cfg with
  | none => simp [cfgOf]
  | some cfg =>
    refine ⟨?_, jsonU8_getD_lt (textOf cfg) triesKey⟩
    unfold cfgOf parseBootcfg
    dsimp only
    split <;> simp

end

/-! ## Runs -/

def elfImage (mark : UInt8) : Bytes :=
  [0x7F, 0x45, 0x4C, 0x46, 2, 1] ++ zeros 10 ++ [2, 0, 0x3E] ++ zeros 45 ++ [mark]

def usedVolume : Volume where
  cluster := 512
  sector := le_rfl
  file
    | .kernelElf => some (elfImage 1)
    | .slotA => some (elfImage 8)
    | .slotB => some (elfImage 9)
    | .bootCfg => none

instance (s : Sys) : (op : Op) → Decidable (Orderly s op)
  | .update _ => inferInstanceAs (Decidable (_ ∧ _))
  | .boot _ => .isTrue trivial
  | .markBootOk => inferInstanceAs (Decidable (_ ↔ _))
  | .rollback => inferInstanceAs (Decidable (_ ∨ _ ∧ _ ∧ (_ ∨ _)))

end NeuralOs.Ota
