import NeuralOs.Lib.Machine

/-!
# Timer futures

Sixteen slots count down at each timer tick. A `TimerFuture` claims the first slot
that is zero and is ready when its slot is zero again. Zero means both free and
expired: a slot whose timer has expired but is not dropped yet can be claimed again,
and then one of the two timers is wrong.
-/

set_option autoImplicit false

namespace NeuralOs.Async.Timers
open Machine

abbrev timerSlotCount : ℕ := 16

abbrev Slot := Fin timerSlotCount

/-- A future with its slot; how many ticks it was created with and how many have happened
since are bookkeeping only. -/
structure TimerFuture where
  slot : Option Slot
  due : ℕ
  age : ℕ

def TimerFuture.aged (t : TimerFuture) : TimerFuture := { t with age := t.age+1 }

structure World where
  slots : Slot → ℕ
  timers : ℕ → Option TimerFuture
  next : ℕ

def World.init : World := ⟨fun _ => 0, fun _ => none, 0⟩

inductive Op
  | create (ticks : ℕ)
  | poll (handle : ℕ)
  | drop (handle : ℕ)
  | tick

namespace World

def freeSlot (w : World) : Option Slot :=
  (List.finRange timerSlotCount).find? fun i => w.slots i = 0

/-- Without a free slot, and for no ticks at all, the future has none. -/
def create (w : World) (ticks : ℕ) : World :=
  let slot := if ticks = 0 then none else w.freeSlot
  { slots :=
      match slot with
      | none => w.slots
      | some i => Function.update w.slots i ticks
    timers := Function.update w.timers w.next (some ⟨slot, ticks, 0⟩)
    next := w.next+1 }

def remaining (w : World) (t : TimerFuture) : ℕ :=
  match t.slot with
  | none => 0
  | some i => w.slots i

def pollReady (w : World) (t : TimerFuture) : Bool := w.remaining t == 0

def dropTimer (w : World) (h : ℕ) (t : TimerFuture) : World :=
  { w with
    slots :=
      match t.slot with
      | none => w.slots
      | some i => Function.update w.slots i 0
    timers := Function.update w.timers h none }

def tickTimerSlots (w : World) : World :=
  { w with
    slots := fun i => if w.slots i > 0 then w.slots i-1 else w.slots i
    timers := fun h => (w.timers h).map TimerFuture.aged }

/-- Polling reads the slot; a dropped future can no longer be used. -/
def step (w : World) : Op → World
  | .create ticks => w.create ticks
  | .poll _ => w
  | .drop h =>
    match w.timers h with
    | none => w
    | some t => w.dropTimer h t
  | .tick => w.tickTimerSlots

/-- Every future that got a slot is ready when its ticks are over, and not before. -/
def Punctual (w : World) : Prop :=
  ∀ h t, w.timers h = some t → t.slot.isSome → (w.pollReady t = true ↔ t.due ≤ t.age)

def Clear (w : World) : Op → Prop
  | .create ticks => ticks ≠ 0 → ∀ i, w.freeSlot = some i →
      ∀ h t, w.timers h = some t → t.slot ≠ some i
  | _ => True

/-! ### Slots with one owner -/

structure Owned (w : World) : Prop where
  fresh : ∀ h, w.next ≤ h → w.timers h = none
  value : ∀ h t i, w.timers h = some t → t.slot = some i → w.slots i = t.due-t.age
  single : ∀ h h' t t' i, w.timers h = some t → w.timers h' = some t' →
    t.slot = some i → t'.slot = some i → h = h'

theorem init_owned : Owned .init := by
  constructor <;> simp [init]

variable {i : Slot} {ticks : ℕ} {w : World}

theorem punctual_of_owned (hw : Owned w) : Punctual w := by
  intro h t ht hslot
  obtain ⟨i, hi⟩ := Option.isSome_iff_exists.mp hslot
  have hv := hw.value h t i ht hi
  simp [pollReady, remaining, hi, hv, Nat.sub_eq_zero_iff_le]

theorem freeSlot_zero (h : w.freeSlot = some i) : w.slots i = 0 := by
  simpa using List.find?_some h

theorem create_slots (h : ticks ≠ 0)
    (hi : w.freeSlot = some i) : (w.create ticks).slots = Function.update w.slots i ticks := by
  simp [create, h, hi]

theorem create_timers {ticks h : ℕ} {t : TimerFuture}
    (ht : (w.create ticks).timers h = some t) :
    (h = w.next ∧ t = ⟨if ticks = 0 then none else w.freeSlot, ticks, 0⟩) ∨
      (h ≠ w.next ∧ w.timers h = some t) := by
  by_cases hh : h = w.next
  · subst hh
    simp only [create, Function.update_self, Option.some.injEq] at ht
    exact .inl ⟨rfl, ht.symm⟩
  · simp only [create, Function.update_of_ne hh] at ht
    exact .inr ⟨hh, ht⟩

theorem create_slots_other (h : ∀ j, ticks ≠ 0 → w.freeSlot = some j → i ≠ j) :
    (w.create ticks).slots i = w.slots i := by
  by_cases h0 : ticks = 0
  · simp [create, h0]
  · cases hj : w.freeSlot with
    | none => simp [create, h0, hj]
    | some j =>
      rw [create_slots h0 hj]
      exact Function.update_of_ne (h j h0 hj) _ _

theorem create_owned (hw : Owned w) (hc : w.Clear (.create ticks)) : Owned (w.create ticks) := by
  -- a slot that an older future holds is not the one that is claimed
  have hold : ∀ h t i, w.timers h = some t → t.slot = some i →
      ∀ j, ticks ≠ 0 → w.freeSlot = some j → i ≠ j := by
    rintro h t i ht hi j h0 hj rfl
    exact hc h0 i hj h t ht hi
  have hnew : ∀ i, (if ticks = 0 then none else w.freeSlot) = some i →
      ticks ≠ 0 ∧ w.freeSlot = some i := by
    intro i hi
    split at hi
    · cases hi
    · next h0 => exact ⟨h0, hi⟩
  refine ⟨fun h hh => ?_, fun h t i ht hi => ?_, fun h h' t t' i ht ht' hi hi' => ?_⟩
  · have hne : h ≠ w.next := by
      simp only [create] at hh
      omega
    simp only [create, Function.update_of_ne hne]
    exact hw.fresh h (by simp only [create] at hh; omega)
  · rcases create_timers ht with ⟨rfl, rfl⟩ | ⟨-, ht⟩
    · obtain ⟨h0, hfree⟩ := hnew i hi
      rw [create_slots h0 hfree, Function.update_self]
      rfl
    · rw [create_slots_other (hold h t i ht hi)]
      exact hw.value h t i ht hi
  · rcases create_timers ht with ⟨rfl, rfl⟩ | ⟨-, ht⟩
    · obtain ⟨h0, hfree⟩ := hnew i hi
      rcases create_timers ht' with ⟨rfl, rfl⟩ | ⟨-, ht'⟩
      · rfl
      · exact absurd rfl (hold h' t' i ht' hi' i h0 hfree)
    · rcases create_timers ht' with ⟨rfl, rfl⟩ | ⟨-, ht'⟩
      · obtain ⟨h0, hfree⟩ := hnew i hi'
        exact absurd rfl (hold h t i ht hi i h0 hfree)
      · exact hw.single h h' t t' i ht ht' hi hi'

theorem dropTimer_owned (hw : Owned w) {h : ℕ} {t : TimerFuture}
    (ht : w.timers h = some t) : Owned (w.dropTimer h t) := by
  have hkept : ∀ g u, (w.dropTimer h t).timers g = some u → g ≠ h ∧ w.timers g = some u := by
    intro g u hg
    by_cases hgh : g = h
    · subst hgh
      simp [dropTimer] at hg
    · exact ⟨hgh, by simpa [dropTimer, Function.update_of_ne hgh] using hg⟩
  refine ⟨fun g hg => ?_, fun g u i hg hi => ?_, fun g g' u u' i hg hg' hi hi' => ?_⟩
  · by_cases hgh : g = h
    · simp [dropTimer, hgh]
    · simpa [dropTimer, Function.update_of_ne hgh] using hw.fresh g hg
  · obtain ⟨hgh, hg⟩ := hkept g u hg
    have hslots : (w.dropTimer h t).slots i = w.slots i := by
      cases hs : t.slot with
      | none => simp [dropTimer, hs]
      | some j =>
        have hij : i ≠ j := by
          rintro rfl
          exact hgh (hw.single g h u t i hg ht hi hs)
        simp [dropTimer, hs, Function.update_of_ne hij]
    rw [hslots]
    exact hw.value g u i hg hi
  · exact hw.single g g' u u' i (hkept g u hg).2 (hkept g' u' hg').2 hi hi'

theorem tick_owned (hw : Owned w) : Owned w.tickTimerSlots := by
  have hback : ∀ h t, w.tickTimerSlots.timers h = some t →
      ∃ u, w.timers h = some u ∧ t = TimerFuture.aged u := by
    intro h t ht
    obtain ⟨u, hu, rfl⟩ := Option.map_eq_some_iff.mp ht
    exact ⟨u, hu, rfl⟩
  refine ⟨fun h hh => ?_, fun h t i ht hi => ?_, fun h h' t t' i ht ht' hi hi' => ?_⟩
  · simp [tickTimerSlots, hw.fresh h hh]
  · obtain ⟨u, hu, rfl⟩ := hback h t ht
    have hv := hw.value h u i hu hi
    simp only [tickTimerSlots, TimerFuture.aged]
    split <;> omega
  · obtain ⟨u, hu, rfl⟩ := hback h t ht
    obtain ⟨u', hu', rfl⟩ := hback h' t' ht'
    exact hw.single h h' u u' i hu hu' hi hi'

theorem step_owned (hw : Owned w) {op : Op} (hc : w.Clear op) : Owned (w.step op) := by
  cases op with
  | create ticks => exact create_owned hw hc
  | poll h => exact hw
  | drop h =>
    rw [step]
    split
    · exact hw
    · next t ht => exact dropTimer_owned hw ht
  | tick => exact tick_owned hw

theorem clear_of_punctual (hw : Owned w) {op : Op} (hp : Punctual (w.step op)) : w.Clear op := by
  cases op with
  | poll h => trivial
  | drop h => trivial
  | tick => trivial
  | create ticks =>
    intro h0 i hi h t ht hslot
    have hne : h ≠ w.next := by
      intro he
      rw [hw.fresh h (by omega)] at ht
      cases ht
    have hlive : (w.create ticks).timers h = some t := by
      simpa [create, Function.update_of_ne hne] using ht
    have hdue : t.due ≤ t.age := by
      have := hw.value h t i ht hslot
      rw [freeSlot_zero hi] at this
      omega
    have hready := (hp h t hlive (by simp [hslot])).mpr hdue
    have hrem : (w.create ticks).remaining t = ticks := by
      simp [remaining, hslot, create_slots h0 hi]
    simp only [pollReady, step] at hready
    rw [hrem] at hready
    exact h0 (by simpa using hready)

theorem run_punctual_iff (hw : Owned w) (ops : List Op) :
    (∀ pre, pre <+: ops → Punctual (run step w pre)) ↔ Along step Clear w ops := by
  induction ops generalizing w with
  | nil =>
    constructor
    · exact fun _ => trivial
    · intro _ pre hpre
      rw [List.prefix_nil.mp hpre]
      exact punctual_of_owned hw
  | cons op ops ih =>
    constructor
    · intro h
      have hc : w.Clear op := clear_of_punctual hw (h [op] (by simp))
      refine ⟨hc, (ih (step_owned hw hc)).mp fun pre hpre => ?_⟩
      exact h (op::pre) (by simpa using hpre)
    · rintro ⟨hc, hrest⟩ pre hpre
      cases pre with
      | nil => exact punctual_of_owned hw
      | cons op' pre =>
        obtain ⟨rfl, htail⟩ := List.cons_prefix_cons.mp hpre
        exact (ih (step_owned hw hc)).mpr hrest pre htail

/-- In every state of a run the futures are punctual, exactly if each creation of the run claims
a slot that no live future holds. -/
theorem timers_independent_iff (ops : List Op) :
    (∀ pre, pre <+: ops → Punctual (run step .init pre)) ↔ Along step Clear .init ops :=
  run_punctual_iff init_owned ops

/-- The first future has expired when the second claims its slot: it is pending again. Once it is
dropped, the second is ready at once. -/
theorem shared_slot :
    let w := run step .init [.create 1, .tick, .create 5]
    let w' := w.step (.drop 0)
    (∃ t, w.timers 0 = some t ∧ t.slot.isSome ∧ t.due ≤ t.age ∧ w.pollReady t = false) ∧
      ∃ t, w'.timers 1 = some t ∧ t.slot.isSome ∧ t.age < t.due ∧ w'.pollReady t = true := by
  refine ⟨⟨⟨some 0, 1, 1⟩, ?_⟩, ⟨⟨some 0, 5, 0⟩, ?_⟩⟩
  · refine ⟨rfl, rfl, Nat.le_refl 1, rfl⟩
  · refine ⟨rfl, rfl, by decide, rfl⟩

end World

end NeuralOs.Async.Timers
