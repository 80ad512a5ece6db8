import NeuralOs.Lib.TextScan
import NeuralOs.Bpe.RoundTrip
import NeuralOs.Lib.Fallible

/-!
# The A/B self-update

An update is fetched, checked and stored in the inactive slot; switching backs
the running kernel up, promotes the new one to `kernel.elf` and writes the boot
configuration. The root directory is read once after a boot and never again:
`read_file` finds what was there then, with the size it had, in the clusters as
they are now. Each write is carried out, is refused, or finds the power gone.
-/

set_option autoImplicit false

namespace NeuralOs.Ota

open TextScan

def parseU8 : Text → Option ℕ := parseBelow 256

def quoted (key : Text) : Text := '"'::key++['"']

def fieldText (body key : Text) : Option Text :=
  (after (quoted key) body).bind fun s =>
    if s.head? = some ':' then some (trimStart s.tail) else none

def jsonU8 (body key : Text) : Option ℕ :=
  (fieldText body key).bind fun rest => parseU8 (rest.takeWhile Char.isDigit)

def jsonField (body key : Text) : Option Text :=
  (fieldText body key).bind fun rest =>
    if rest.head? = some '"' ∧ '"' ∈ rest.tail then some (rest.tail.takeWhile (· ≠ '"')) else none

def triesKey : Text := "tries".toList
def attemptsKey : Text := "attempts".toList
def lastGoodKey : Text := "last_good".toList
def slotBMark : Text := "slot_b".toList
def bootSlot2 : Text := "\"boot_slot\":\"2\"".toList

@[ext] structure BootCfg where
  slot : ℕ
  tries : ℕ
  attempts : ℕ
  /-- 0 if the text names none. -/
  lastGood : ℕ
  deriving DecidableEq

def parseBootcfg (text : Text) : BootCfg where
  slot := if contains bootSlot2 text || contains slotBMark text then 2 else 1
  tries := (jsonU8 text triesKey).getD 0
  attempts := (jsonU8 text attemptsKey).getD 0
  lastGood := (((jsonField text lastGoodKey).bind parseU8).or (jsonU8 text lastGoodKey)).getD 0

def slotName (slot : ℕ) : Text := if slot = 1 then "KERNEL~1".toList else "KERNEL~2".toList

def cfgHead (slot : ℕ) : Text :=
  "\x7b\"boot_slot\":\"".toList ++ (decimal slot ++ ("\",\"kernel\":\"".toList ++ (slotName slot ++
    "\",\"tries\":".toList)))

def cfgMiddle : Text := ','::"\"attempts\":".toList

def cfgEnd : Option ℕ → Text
  | none => ['\x7d']
  | some g => ','::("\"last_good\":\"".toList ++ (decimal g ++ "\"\x7d".toList))

def cfgLine (slot tries attempts : ℕ) (tail : Text) : Text :=
  cfgHead slot ++ (decimal tries ++ (cfgMiddle ++ (decimal attempts ++ tail)))

/-- The line every writer prints; two of the four leave `last_good` out. -/
def cfgText (slot tries attempts : ℕ) (lastGood : Option ℕ) : Text :=
  cfgLine slot tries attempts (cfgEnd lastGood)

/-! ## Reading back what was written -/

section read
variable {slot tries attempts : ℕ} {tail : Text} {lastGood : Option ℕ}

theorem after_cfgLine {c : Char} {p : Text} (hc : c.isDigit = false)
    (hhead : apart (c::p) (cfgHead slot) = true) (hmid : apart (c::p) cfgMiddle = true) :
    after (c::p) (cfgLine slot tries attempts tail) = after (c::p) tail := by
  rw [cfgLine, after_skip hhead, after_free (not_mem_digits (decimal_digits tries) hc),
    after_skip hmid, after_free (not_mem_digits (decimal_digits attempts) hc)]

theorem isWhitespace_of_isDigit {c : Char} (h : c.isDigit = true) : isWhitespace c = false := by
  simp only [Char.isDigit, Bool.and_eq_true, decide_eq_true_eq, ge_iff_le, UInt32.le_iff_toNat_le]
    at h
  have hlow : 48 ≤ c.toNat := h.1
  have hhigh : c.toNat ≤ 57 := h.2
  simp only [isWhitespace, Bool.or_eq_false_iff, Bool.and_eq_false_iff, decide_eq_false_iff_not,
    List.contains_eq_mem, List.mem_cons, List.not_mem_nil, or_false]
  omega

theorem trimStart_digits {ds : Text} (h : ds.all Char.isDigit = true) (hne : ds ≠ []) (s : Text) :
    trimStart (ds++s) = ds++s := by
  cases ds with
  | nil => exact absurd rfl hne
  | cons d ds =>
    simp only [List.all_cons, Bool.and_eq_true] at h
    rw [trimStart, List.cons_append, List.dropWhile_cons, isWhitespace_of_isDigit h.1]
    simp

theorem jsonU8_of_after {body key s : Text} {n : ℕ}
    (h : after (quoted key) body = some (':'::(decimal n++s))) (hn : n < 256)
    (hs : ∀ c ∈ s.head?, c.isDigit = false) : jsonU8 body key = some n := by
  have hf : fieldText body key = some (decimal n++s) := by
    simp [fieldText, h, trimStart_digits (decimal_digits n) (decimal_ne_nil n)]
  rw [jsonU8, hf, Option.bind_some, takeWhile_digits (decimal_digits n) hs, parseU8,
    parseBelow_decimal hn]

theorem jsonU8_tries (hslot : slot = 1 ∨ slot = 2) (ht : tries < 256) :
    jsonU8 (cfgLine slot tries attempts tail) triesKey = some tries := by
  have hsplit : cfgHead slot = (cfgHead slot).take 37 ++ (quoted triesKey ++ [':']) := by
    rcases hslot with rfl | rfl <;> decide
  have hapart : apart (quoted triesKey) ((cfgHead slot).take 37) = true := by
    rcases hslot with rfl | rfl <;> decide
  have hafter : after (quoted triesKey) (cfgLine slot tries attempts tail) =
      some (':'::(decimal tries ++ (cfgMiddle ++ (decimal attempts ++ tail)))) := by
    rw [cfgLine, hsplit, List.append_assoc, List.append_assoc, after_skip hapart]
    exact after_here (by simp [quoted]) _
  apply jsonU8_of_after hafter ht
  simp [cfgMiddle]

theorem jsonU8_attempts (hslot : slot = 1 ∨ slot = 2) (ha : attempts < 256)
    (hdigit : ∀ c ∈ tail.head?, c.isDigit = false) :
    jsonU8 (cfgLine slot tries attempts tail) attemptsKey = some attempts := by
  have hsplit : cfgMiddle = [','] ++ (quoted attemptsKey ++ [':']) := by decide
  have hapart : apart (quoted attemptsKey) (cfgHead slot) = true := by
    rcases hslot with rfl | rfl <;> decide
  have hfree : '"' ∉ decimal tries := not_mem_digits (decimal_digits tries) (by decide)
  have hafter : after (quoted attemptsKey) (cfgLine slot tries attempts tail) =
      some (':'::(decimal attempts ++ tail)) := by
    rw [cfgLine, after_skip hapart, quoted, List.cons_append, after_free hfree, ← List.cons_append,
      ← quoted, hsplit, List.append_assoc, after_skip (by decide), List.append_assoc]
    exact after_here (by simp [quoted]) _
  exact jsonU8_of_after hafter ha hdigit

theorem slotBMark_absent (hslot : slot = 1 ∨ slot = 2) (htail : after slotBMark tail = none) :
    contains slotBMark (cfgLine slot tries attempts tail) = false := by
  have hhead : apart slotBMark (cfgHead slot) = true := by
    rcases hslot with rfl | rfl <;> decide
  have hsplit : slotBMark = 's'::"lot_b".toList := by decide
  rw [hsplit] at hhead htail ⊢
  rw [contains, after_cfgLine (by decide) hhead (by decide), htail]
  rfl

theorem bootSlot2_contained (hslot : slot = 1 ∨ slot = 2) (htail : after bootSlot2 tail = none) :
    contains bootSlot2 (cfgLine slot tries attempts tail) = decide (slot = 2) := by
  have hsplit : bootSlot2 = '"'::"boot_slot\":\"2\"".toList := by decide
  rcases hslot with rfl | rfl
  · rw [hsplit] at htail ⊢
    rw [contains, after_cfgLine (by decide) (by decide) (by decide +kernel), htail]
    rfl
  · have hhead : cfgHead 2 = ['\x7b'] ++ (bootSlot2 ++ (cfgHead 2).drop 16) := by decide
    rw [contains, cfgLine, hhead, List.append_assoc, after_skip (by decide),
      List.append_assoc, after_here (by decide)]
    rfl

theorem after_lastGood (hslot : slot = 1 ∨ slot = 2) :
    after (quoted lastGoodKey) (cfgLine slot tries attempts tail) =
      after (quoted lastGoodKey) tail := by
  have hhead : apart (quoted lastGoodKey) (cfgHead slot) = true := by
    rcases hslot with rfl | rfl <;> decide
  exact after_cfgLine (by decide) hhead (by decide)

/-- What a line's end must be like for the rest to be read as written. -/
structure Ending (tail : Text) : Prop where
  digit : ∀ c ∈ tail.head?, c.isDigit = false
  mark : after slotBMark tail = none
  slot2 : after bootSlot2 tail = none

theorem parseBootcfg_cfgLine (hslot : slot = 1 ∨ slot = 2) (ht : tries < 256)
    (ha : attempts < 256) (hend : Ending tail) :
    parseBootcfg (cfgLine slot tries attempts tail) =
      ⟨slot, tries, attempts, (parseBootcfg tail).lastGood⟩ := by
  apply BootCfg.ext
  · simp only [parseBootcfg, bootSlot2_contained hslot hend.slot2, slotBMark_absent hslot hend.mark]
    rcases hslot with rfl | rfl <;> rfl
  · simp only [parseBootcfg, jsonU8_tries hslot ht, Option.getD_some]
  · simp only [parseBootcfg, jsonU8_attempts hslot ha hend.digit, Option.getD_some]
  · simp only [parseBootcfg, jsonField, jsonU8, fieldText, after_lastGood hslot]

theorem cfgEnd_ending (hg : lastGood = none ∨ lastGood = some 1 ∨ lastGood = some 2) :
    Ending (cfgEnd lastGood) := by
  rcases hg with rfl | rfl | rfl <;> exact ⟨by simp [cfgEnd], by decide, by decide⟩

theorem parseBootcfg_cfgText (hslot : slot = 1 ∨ slot = 2) (ht : tries < 256)
    (ha : attempts < 256) (hg : lastGood = none ∨ lastGood = some 1 ∨ lastGood = some 2) :
    parseBootcfg (cfgText slot tries attempts lastGood) =
      ⟨slot, tries, attempts, lastGood.getD 0⟩ := by
  have hlast : (parseBootcfg (cfgEnd lastGood)).lastGood = lastGood.getD 0 := by
    rcases hg with rfl | rfl | rfl <;> decide
  rw [cfgText, parseBootcfg_cfgLine hslot ht ha (cfgEnd_ending hg), hlast]

end read

/-! ## The A/B self-update -/

open ByteString Fallible Bpe

inductive File where
  | slotA
  | slotB
  | bootCfg
  | kernelElf
  deriving DecidableEq

structure Volume where
  /-- The bytes of a cluster, at least one sector. -/
  cluster : ℕ
  sector : 512 ≤ cluster
  file : File → Option Bytes

def Volume.put (v : Volume) (f : File) (data : Bytes) : Volume :=
  { v with file := Function.update v.file f (some data) }

abbrev Dir := File → Option ℕ

def Volume.dir (v : Volume) : Dir := fun f => (v.file f).map fun data => min data.length 0xFFFFFFFF

inductive Fate where
  | done
  | refused
  | lost

structure PowerLoss where

structure Disk where
  vol : Volume
  /-- `ROOT_DIR_CACHE`, empty after a boot. -/
  cache : Option Dir
  /-- What becomes of the `n`-th write request. -/
  fate : ℕ → Fate
  requests : ℕ

abbrev DiskAct := Act Disk PowerLoss

def maxInline : ℕ := 256*1024*1024

/-- The clusters that `write_file` fills; an empty file has one. -/
def padded (cluster : ℕ) (data : Bytes) : Bytes :=
  data ++ zeros ((if data = [] then 1 else (data.length+cluster-1)/cluster)*cluster-data.length)

def Volume.read (v : Volume) (dir : Dir) (f : File) : Option Bytes :=
  (dir f).bind fun size =>
    if maxInline < size then none
    else (v.file f).map fun data => (padded v.cluster data).take size

def readFile (f : File) : DiskAct (Option Bytes) where
  run d :=
    let dir := d.cache.getD d.vol.dir
    (.ok (d.vol.read dir f), { d with cache := some dir })

def writeFile (f : File) (data : Bytes) : DiskAct Bool where
  run d :=
    match d.fate d.requests with
    | .done => (.ok true, { d with vol := d.vol.put f data, requests := d.requests+1 })
    | .refused => (.ok false, { d with requests := d.requests+1 })
    | .lost => (.error ⟨⟩, d)

def isValidElf (data : Bytes) : Bool :=
  64 < data.length && data.take 4 == [0x7F, 0x45, 0x4C, 0x46] && data[4]? == some 2 &&
    data[5]? == some 1 && data[16]? == some 2 && data[18]? == some 0x3E

def slotFile (slot : ℕ) : File := if slot = 1 then .slotA else .slotB

def otherSlot (slot : ℕ) : ℕ := if slot = 1 then 2 else 1

def textOf (b : Bytes) : Text := (fromUtf8 b).getD []

/-- The slot that `active_slot` finds in what it reads. -/
def markedSlot : Option Bytes → ℕ
  | some cfg => if contains slotBMark (textOf cfg) then 2 else 1
  | none => 1

/-- The configuration, or slot 1 with nothing pending if there is none. -/
def cfgOf : Option Bytes → BootCfg
  | some cfg => parseBootcfg (textOf cfg)
  | none => ⟨1, 0, 0, 0⟩

def activeSlot : DiskAct ℕ := do
  return markedSlot (← readFile .bootCfg)

def bootState : DiskAct BootCfg := do
  return cfgOf (← readFile .bootCfg)

def writeKernel (f : File) (data : Bytes) : DiskAct Bool := writeFile f data

def writeBootcfg (text : Text) : DiskAct Bool := writeFile .bootCfg (utf8 text)

def promoteSlot (slot : ℕ) : DiskAct Bool := do
  match ← readFile (slotFile slot) with
  | some blob => if isValidElf blob then writeFile .kernelElf blob else pure false
  | none => pure false

def applyUpdate (data : Bytes) : DiskAct Bool := do
  let active ← activeSlot
  writeKernel (slotFile (otherSlot active)) data

/-- The running kernel into the slot that is left, if there is a `kernel.elf`. -/
def backup (slot : ℕ) : Option Bytes → DiskAct Bool
  | some cur => writeKernel (slotFile slot) cur
  | none => pure true

def switchSlot : DiskAct Bool := do
  let current ← activeSlot
  let kernel ← readFile .kernelElf
  if ← backup current kernel then
    if ← promoteSlot (otherSlot current) then
      writeBootcfg (cfgText (otherSlot current) 3 0 (some current))
    else pure false
  else pure false

def fallbackSlot (c : BootCfg) : ℕ :=
  if c.lastGood = 1 ∨ c.lastGood = 2 then c.lastGood else otherSlot c.slot

def rollback : DiskAct Bool := do
  let c ← bootState
  if c.tries = 0 then pure false
  else
    if ← promoteSlot (fallbackSlot c) then
      writeBootcfg (cfgText (fallbackSlot c) 0 0 (some (fallbackSlot c)))
    else pure false

def markBootOk : DiskAct Unit := do
  let c ← bootState
  if c.tries = 0 then pure ()
  else
    let _ ← writeBootcfg (cfgText c.slot 0 0 none)
    pure ()

def nextAttempt (attempts : ℕ) : ℕ := min 255 (attempts+1)

def noteBootAttempt (maxAttempts : ℕ) : DiskAct Bool := do
  let c ← bootState
  if c.tries = 0 then pure true
  else
    let _ ← writeBootcfg (cfgText c.slot c.tries (nextAttempt c.attempts) none)
    if maxAttempts ≤ nextAttempt c.attempts then rollback else pure true

def Disk.reboot (d : Disk) : Disk := { d with cache := none }

/-! ## Fetching -/

/-- The hash and the check of the release key's signature over a digest. -/
structure ReleaseKey where
  sha256 : Bytes → Bytes
  verifyUpdateSignature : Bytes → Bytes → Bool

def hexDigit (n : ℕ) : UInt8 := UInt8.ofNat (if n < 10 then n+48 else n+87)

def sha256Hex (key : ReleaseKey) (data : Bytes) : Bytes :=
  (key.sha256 data).flatMap fun b => [hexDigit (b.toNat/16), hexDigit (b.toNat%16)]

def asciiLower (b : UInt8) : UInt8 := if 65 ≤ b ∧ b ≤ 90 then b+32 else b

def hexEq (a b : Bytes) : Bool := a.length == b.length && a.map asciiLower == b.map asciiLower

def hexNibble (c : UInt8) : UInt8 :=
  if 48 ≤ c ∧ c ≤ 57 then c-48
  else if 97 ≤ c ∧ c ≤ 102 then c-97+10
  else if 65 ≤ c ∧ c ≤ 70 then c-65+10
  else 0xFF

def parseSignature : Bytes → Option Bytes
  | [] => some []
  | [_] => none
  | c::d::rest =>
    if hexNibble c = 0xFF ∨ hexNibble d = 0xFF then none
    else (parseSignature rest).map ((hexNibble c*16+hexNibble d) :: ·)

structure Offer where
  body : Except String Bytes
  sha256 : Option Bytes
  sig : Option Bytes

def checkOffer (key : ReleaseKey) (o : Offer) : Except String Bytes := do
  let data ← o.body
  if data = [] then .error "update_empty"
  else if o.sha256.any fun expected => !hexEq (sha256Hex key data) expected then
    .error "hash_mismatch"
  else if (o.sig.getD []).length ≠ 128 then .error "unsigned_update"
  else if !((parseSignature (o.sig.getD [])).any
      fun sig => key.verifyUpdateSignature (key.sha256 data) sig) then .error "bad_signature"
  else if !isValidElf data then .error "not_elf"
  else .ok data

def fetchUpdate (key : ReleaseKey) (o : Offer) : DiskAct (Except String (ℕ × Bytes)) :=
  match checkOffer key o with
  | .error e => pure (.error e)
  | .ok data => do
    if ← applyUpdate data then pure (.ok (data.length, sha256Hex key data))
    else pure (.error "apply_failed")

def update (key : ReleaseKey) (o : Offer) : DiskAct Bool := do
  match ← fetchUpdate key o with
  | .ok _ => switchSlot
  | .error _ => pure false

end NeuralOs.Ota
