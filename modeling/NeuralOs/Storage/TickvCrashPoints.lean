import NeuralOs.Storage.TickvFailure
import NeuralOs.Storage.TickvCompactContent

/-!
# The crash points of a compaction

A compaction first blanks the start of the log and then writes the live set
behind it, record by record. Every cut in between leaves the old log, a log
with a blank first header, or a log of the first records of the live set.
-/

set_option autoImplicit false

namespace NeuralOs.TickvCrashPoints
open ByteString MeasuredLoop TickvRecord TickvState TickvStore TickvMount TickvTrace TickvLog
open TickvLogUpdate TickvImage LogStore TickvMountLog TickvSnapshot TickvContent TickvRegular TickvRefine
open TickvCompaction TickvOperation TickvDurability TickvFailure TickvCompactContent
open TickvCompactCrash

/-! ### Cuts -/

/-- Every cut of the events that lead from `w` to `w'` leaves a flash of the given kind. -/
def Passes (J : RamFlash → Prop) (w w' : World) : Prop :=
  ∃ es, w'.trace = w.trace ++ es ∧ w'.flash = applyEvents w.flash es ∧
    ∀ n, J (applyEvents w.flash (es.take n))

section Cuts
variable {J : RamFlash → Prop} {w w₁ w₂ : World}

theorem Passes.refl (h : J w.flash) : Passes J w w :=
  ⟨[], by simp, rfl, fun _ => by simpa [applyEvents] using h⟩

theorem Passes.start (h : Passes J w w₁) : J w.flash := by
  obtain ⟨es, -, -, hJ⟩ := h
  simpa [applyEvents] using hJ 0

theorem Passes.finish (h : Passes J w w₁) : J w₁.flash := by
  obtain ⟨es, -, hf, hJ⟩ := h
  rw [hf, ← List.take_length (l := es)]
  exact hJ _

theorem Passes.trans (h : Passes J w w₁) (h' : Passes J w₁ w₂) : Passes J w w₂ := by
  obtain ⟨es, ht, hf, hJ⟩ := h
  obtain ⟨es', ht', hf', hJ'⟩ := h'
  refine ⟨es ++ es', by rw [ht', ht, List.append_assoc], by rw [hf', hf, applyEvents_append], ?_⟩
  intro n
  rw [List.take_append, applyEvents_append]
  by_cases hn : n ≤ es.length
  · rw [Nat.sub_eq_zero_of_le hn]
    exact hJ n
  · rw [List.take_of_length_le (Nat.le_of_not_le hn), ← hf]
    exact hJ' _

theorem Passes.step {e : Event} (ht : w₁.trace = w.trace ++ [e])
    (hf : w₁.flash = applyEvent w.flash e) (h : J w.flash) (h' : J w₁.flash) : Passes J w w₁ := by
  refine ⟨[e], ht, hf, fun n => ?_⟩
  rcases n with _ | n
  · simpa [applyEvents] using h
  · simpa [applyEvents, ← hf] using h'

theorem Passes.cut (h : Passes J w w₁) (n : ℕ) : J (crashed w w₁ n).flash := by
  obtain ⟨es, ht, -, hJ⟩ := h
  rw [crashed, added_eq ht]
  exact hJ n

theorem Passes.same {w₀ w₃ : World} (h : Passes J w w₁) (hf : w₀.flash = w.flash)
    (ht : w₀.trace = w.trace) (hf' : w₃.flash = w₁.flash) (ht' : w₃.trace = w₁.trace) :
    Passes J w₀ w₃ := by
  obtain ⟨es, h₁, h₂, hJ⟩ := h
  exact ⟨es, by rw [ht', h₁, ht], by rw [hf', h₂, hf], by rw [hf]; exact hJ⟩

end Cuts

/-! ### Blanking -/

structure Blanked (f : RamFlash) : Prop where
  size : header ≤ f.size
  blank : hdrBlank (slice f.data 0 header) = true
  shaped : hdrTickvShaped (slice f.data 0 header) = false

theorem Blanked.mount {w : World} (h : Blanked w.flash) (k : Str) :
    view (remount w none) k = .error .missing :=
  remount_blank w h.size h.blank h.shaped k

section Content
variable {k : Str} {v : Bytes}

end Content

end NeuralOs.TickvCrashPoints
