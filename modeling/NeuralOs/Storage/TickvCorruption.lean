import NeuralOs.Storage.TickvDurability

/-!
# A damaged record

After a CRC failure the recovery scan goes on at the next sector, inside the
damaged record, and reads the bytes of its body as headers. Zeros or ones there are
taken for the end of the log, and bytes that look like a record are indexed or
skipped as one. What the scan has indexed when it is back in step with the log
decides the outcome.
-/

set_option autoImplicit false

namespace NeuralOs.TickvResync
open ByteString MeasuredLoop TickvRecord TickvState TickvStore TickvMount TickvLog TickvLogUpdate

/-- The records that start before `off`, the first one at `start`. -/
def passed (off : ℕ) : List Rec → ℕ → List Rec
  | [], _ => []
  | x::B, start => if start < off then x::passed off B (start+x.size) else []

/-- `off` is not inside one of the records. -/
def Landed (start : ℕ) (B : List Rec) (off : ℕ) : Prop :=
  start+logSize (passed off B start) ≤ off

instance (start : ℕ) (B : List Rec) (off : ℕ) : Decidable (Landed start B off) :=
  inferInstanceAs (Decidable (_ ≤ _))

section Passed
variable {off : ℕ}

theorem Landed.ge {B : List Rec} {start : ℕ} (h : Landed start B off) : start ≤ off :=
  (Nat.le_add_right _ _).trans h

end Passed

section Walk
variable (f : RamFlash) (start : ℕ) (B : List Rec)

variable {f start B} {s : RangeScan}

variable {t : RangeScan}

end Walk

end NeuralOs.TickvResync

/-! ## A damaged record -/

namespace NeuralOs.TickvCorruption
open ByteString MeasuredLoop TickvRecord TickvState TickvStore TickvMount TickvLog TickvLogUpdate
open TickvImage TickvScanLog TickvContent TickvRefine TickvOperation TickvResync

/-- Only bytes of the body of the record behind `A` differ, and its CRC fails. -/
structure Damaged (f f' : RamFlash) (A : List Rec) (r : Rec) : Prop where
  size : f'.size = f.size
  outside : ∀ i, i < logSize A+header ∨ logSize A+header+r.body.length ≤ i →
    f'.data[i]? = f.data[i]?
  crc : (crc32 (slice f'.data (logSize A+header) r.body.length)).toNat ≠ hdrCrc r.hdr

/-- What the scan reads as a header `j` sectors into the record behind `A`. -/
def inner (f : RamFlash) (A : List Rec) (j : ℕ) : Bytes := slice f.data (logSize A+512*j) header

section Reads
variable {f f' : RamFlash} {A B : List Rec} {r : Rec}

variable {o : ℕ}

theorem read_congr (hs : f'.size = f.size) {n : ℕ}
    (h : ∀ i, o ≤ i → i < o+n → f'.data[i]? = f.data[i]?) : f'.read o n = f.read o n := by
  simp only [RamFlash.read, slice_congr h, show f'.data.length = f.data.length from hs]

theorem Damaged.read_hdr (h : Damaged f f' A r) (hf : Begins f.data (A ++ r::B)) :
    f'.read (logSize A) header = .ok r.hdr := by
  rw [read_congr h.size fun i _ hi => h.outside i (.inl (by omega))]
  exact hf.read_hdr (at_middle A B r)

theorem Damaged.fits (h : Damaged f f' A r) (hf : Begins f.data (A ++ r::B)) :
    logSize A+r.size ≤ f'.size := by
  rw [h.size]
  exact not_lt.mp (begins_bound hf).2

theorem Damaged.read_body (h : Damaged f f' A r) (hf : Begins f.data (A ++ r::B)) :
    f'.read (logSize A+header) (r.key.bytes.length+r.val.length) =
      .ok (slice f'.data (logSize A+header) r.body.length) := by
  have hb := h.fits hf
  have hr := r.size_ge
  rw [RamFlash.read, if_neg, Rec.body_length]
  rw [Rec.body_length] at hr
  change ¬ _ > f'.size
  omega

end Reads

section Scan
variable {f f' : RamFlash} {A B : List Rec} {r : Rec}

variable {j : ℕ}

end Scan

section Recovery
variable {w w' : World} {A B : List Rec} {r : Rec}

end Recovery

end NeuralOs.TickvCorruption
