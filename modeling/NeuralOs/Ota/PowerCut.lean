import NeuralOs.Ota.Rollback

/-!
# Power loss during an update

An update writes the new kernel into its slot, the backup, `kernel.elf` and the
boot configuration, in this order, and the power goes after some number of these
writes. Only the last write arms the counter, so a cut just before it leaves the
new kernel with nothing to undo it.
-/

set_option autoImplicit false

namespace NeuralOs.Ota

open ByteString Fallible Bpe

def cut (k : ℕ) : ℕ → Fate := fun n => if n < k then .done else .lost

section plan
variable (v : Volume) (dir : Dir) (new : Bytes)

def leaving : ℕ := markedSlot (v.read dir .bootCfg)

def stored : Volume := v.put (slotFile (otherSlot (leaving v dir))) new

def promoted : Option Bytes :=
  ((stored v dir new).read dir (slotFile (otherSlot (leaving v dir)))).filter isValidElf

end plan

def puts (v : Volume) (ws : List (File × Bytes)) : Volume := ws.foldl (fun v w => v.put w.1 w.2) v

section writes
variable {v : Volume} {cache : Option Dir} {dir : Dir} {old new data : Bytes} {f : File} {k n : ℕ}

section promoted
variable {blob : Bytes} (hp : promoted v (cache.getD v.dir) new = some blob)
include hp

end promoted

end writes

/-! ## The boots that follow -/

section boots
variable {v : Volume} {old new : Bytes} {kernel : Option Bytes} {back attempts maxAttempts j : ℕ}

end boots

/-! ## Which cuts are recovered from -/

section recovery
variable {v : Volume} {cache : Option Dir} {old new : Bytes} {k maxAttempts : ℕ}

end recovery

end NeuralOs.Ota
