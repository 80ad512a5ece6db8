import NeuralOs.EventBus.Bus

/-!
# Delivery on the bus

Over every sequence of operations the bus gives the replies of its account, and
what a receiver gets is a part of what it is owed, in order and at most once.
-/

set_option autoImplicit false

namespace NeuralOs.EventBus.Publication
open ByteString Stamp Bus Subscription

variable {w : World} {v : Spec} {i : ℕ} {f : Feed}

theorem live_iff (h : Follows w v) (topic : Bytes) (i : ℕ) :
    (i ∈ slots w topic ∧ (w.heap i).strong > 1) ↔ (v.feeds i).any (·.live topic) = true := by
  constructor
  · rintro ⟨hmem, hstrong⟩
    obtain ⟨f, hf, rfl⟩ := h.listed topic i hmem
    have hs := h.strong i f hf
    have hheld : f.held = true := by
      cases hh : f.held with
      | true => rfl
      | false =>
        simp [hh, hmem] at hs
        omega
    have hsub := (h.inside i f hf hheld).mp hmem
    simp [hf, Feed.live, hheld, hsub]
  · intro hany
    cases hf : v.feeds i with
    | none => simp [hf] at hany
    | some f =>
      rw [hf] at hany
      obtain ⟨⟨hheld, hsub⟩, rfl⟩ : (f.held = true ∧ f.subscribed = true) ∧ f.topic = topic := by
        simpa [Feed.live] using hany
      have hmem := (h.inside i f hf hheld).mpr hsub
      have hs := h.strong i f hf
      rw [if_pos hmem, hheld] at hs
      exact ⟨hmem, by simp [hs]⟩

theorem fanOut_slots (w : World) (e : Event) (t : Bytes) :
    slots (w.fanOut e).1 t =
      if t = e.topic then (slots w t).filter fun q => (w.heap q).strong > 1 else slots w t := by
  rw [World.fanOut]
  cases hs : w.bus.subscribers e.topic with
  | none =>
    by_cases ht : t = e.topic
    · simp [slots, ht, hs]
    · simp [ht]
  | some queues =>
    by_cases ht : t = e.topic
    · simp [slots, ht, hs]
    · simp [slots, ht]

theorem fanOut_heap (e : Event) (hnodup : (slots w e.topic).Nodup) (i : ℕ) :
    (w.fanOut e).1.heap i =
      if i ∈ slots w e.topic then
        if (w.heap i).strong > 1 then
          { w.heap i with queue := pushBounded (w.heap i).queue e (queueDepthFor e.topic) }
        else { w.heap i with strong := (w.heap i).strong-1 }
      else w.heap i := by
  rw [World.fanOut]
  cases hs : w.bus.subscribers e.topic with
  | none => simp [slots, hs]
  | some queues =>
    simp only [slots, hs, Option.getD_some] at hnodup ⊢
    rw [foldl_deliver _ _ (hnodup.filter _)]
    by_cases hmem : i ∈ queues
    · by_cases hlive : (w.heap i).strong > 1
      · simp [hmem, hlive, release, List.count_eq_zero.mpr]
      · have hcount : (queues.filter fun q => ¬(w.heap q).strong > 1).count i = 1 := by
          rw [List.count_filter (by simpa using hlive), hnodup.count, if_pos hmem]
        simp only [List.mem_filter, hmem, hlive, release, hcount, decide_false, Bool.false_eq_true,
          and_false, if_false, if_true]
    · simp [hmem, release, List.count_eq_zero.mpr]

theorem fanOut_rest (w : World) (e : Event) :
    (w.fanOut e).1.next = w.next ∧ (w.fanOut e).1.receivers = w.receivers ∧
      (w.fanOut e).1.bus.nextEventId = w.bus.nextEventId := by
  rw [World.fanOut]
  split <;> exact ⟨rfl, rfl, rfl⟩

theorem fanOut_count (h : Follows w v) (e : Event) : (w.fanOut e).2 = v.liveCount e.topic := by
  have hcount : (w.fanOut e).2 =
      ((slots w e.topic).filter fun q => (w.heap q).strong > 1).length := by
    rw [World.fanOut, slots]
    cases w.bus.subscribers e.topic <;> rfl
  rw [hcount, Spec.liveCount]
  apply List.Perm.length_eq
  rw [List.perm_ext_iff_of_nodup ((h.nodup _).filter _) (List.nodup_range.filter _)]
  intro i
  rw [List.mem_filter, List.mem_filter, decide_eq_true_iff, live_iff h, List.mem_range]
  constructor
  · intro hlive
    refine ⟨?_, hlive⟩
    by_contra hi
    rw [h.fresh i (by omega)] at hlive
    cases hlive
  · exact fun hi => hi.2

def numbered (w : World) (hasher : Hasher) (publisher : UInt64) (e : Event) : World :=
  { w with bus := { w.bus with
    nextEventId := w.bus.nextEventId+1
    audit := w.bus.audit.stamp hasher publisher e } }

theorem numbered_count (hasher : Hasher) (publisher : UInt64) (e : Event) :
    ((numbered w hasher publisher e).fanOut e).2 = (w.fanOut e).2 := by
  have hsubs : (numbered w hasher publisher e).bus.subscribers = w.bus.subscribers := rfl
  rw [World.fanOut, World.fanOut, hsubs]
  cases w.bus.subscribers e.topic <;> rfl

theorem offer_fields (f : Feed) (e : Event) : (f.offer e).topic = f.topic ∧
    (f.offer e).held = f.held ∧ (f.offer e).subscribed = f.subscribed ∧
    (f.offer e).since = f.since := by
  rw [Feed.offer]
  split <;> exact ⟨rfl, rfl, rfl, rfl⟩

theorem publish_follows (h : Follows w v) (hasher : Hasher) (publisher : UInt64) (e : Event) :
    Follows ((numbered w hasher publisher e).fanOut e).1
      { v with feeds := fun i => (v.feeds i).map (·.offer e), log := v.log ++ [e] } := by
  have hslots : ∀ t i, i ∈ slots ((numbered w hasher publisher e).fanOut e).1 t ↔
      i ∈ slots w t ∧ (t = e.topic → (w.heap i).strong > 1) := by
    intro t i
    rw [fanOut_slots]
    change i ∈ (if t = e.topic then (slots w t).filter fun q => (w.heap q).strong > 1
      else slots w t) ↔ _
    split
    next ht => simp [ht]
    next ht => simp [ht]
  have hheap : ∀ i, ((numbered w hasher publisher e).fanOut e).1.heap i =
      if i ∈ slots w e.topic then
        if (w.heap i).strong > 1 then
          ⟨pushBounded (w.heap i).queue e (queueDepthFor e.topic), (w.heap i).strong⟩
        else ⟨(w.heap i).queue, (w.heap i).strong-1⟩
      else w.heap i := fanOut_heap e (h.nodup e.topic)
  obtain ⟨hnext, hrecv, hids⟩ := fanOut_rest (numbered w hasher publisher e) e
  have hback : ∀ i f', (v.feeds i).map (·.offer e) = some f' →
      ∃ f, v.feeds i = some f ∧ f' = f.offer e := by
    intro i f' hf'
    obtain ⟨f, hf, he⟩ := Option.map_eq_some_iff.mp hf'
    exact ⟨f, hf, he.symm⟩
  have htopic : ∀ i f, v.feeds i = some f → i ∈ slots w e.topic → f.topic = e.topic := by
    intro i f hf hmem
    obtain ⟨f', hf', ht⟩ := h.listed e.topic i hmem
    rw [hf] at hf'
    rwa [Option.some.inj hf']
  constructor
  · exact hnext.trans h.next
  · rw [hids]
    change w.bus.nextEventId+1 = _
    rw [h.ids, List.length_append, List.length_singleton]
    exact (UInt64.ofNat_add _ 1).symm
  · intro i hi
    simp [h.fresh i hi]
  · intro i
    rw [hrecv, Spec.holder]
    change w.receivers i = Option.map _ (Option.filter _ ((v.feeds i).map (·.offer e)))
    rw [h.handle, Spec.holder]
    cases v.feeds i with
    | none => rfl
    | some f =>
      obtain ⟨ht, hh, -⟩ := offer_fields f e
      cases hheld : f.held <;> simp [Option.filter, hh, hheld, ht]
  · intro t q hq
    obtain ⟨f, hf, ht⟩ := h.listed t q ((hslots t q).mp hq).1
    exact ⟨f.offer e, by simp [hf], (offer_fields f e).1.trans ht⟩
  · intro t
    rw [fanOut_slots]
    split
    · exact (h.nodup t).filter _
    · exact h.nodup t
  · intro i f' hf' hheld
    obtain ⟨f, hf, rfl⟩ := hback i f' hf'
    obtain ⟨ht, hh, hsub, -⟩ := offer_fields f e
    rw [hh] at hheld
    rw [ht, hsub, hslots, ← h.inside i f hf hheld]
    refine and_iff_left_of_imp fun hmem _ => ?_
    rw [h.strong i f hf, if_pos hmem, hheld]
    decide
  · intro i f' hf'
    obtain ⟨f, hf, rfl⟩ := hback i f' hf'
    obtain ⟨ht, hh, -⟩ := offer_fields f e
    have hs := h.strong i f hf
    simp only [hheap, ht, hh, hslots]
    by_cases hmem : i ∈ slots w e.topic
    · have hft := htopic i f hf hmem
      rw [hft, if_pos hmem] at hs
      by_cases hlive : (w.heap i).strong > 1
      · simpa [hmem, hlive, hft] using hs
      have hheld : f.held = false := by
        cases hheld : f.held with
        | false => rfl
        | true =>
          rw [hheld] at hs
          exact absurd hs (by simp; omega)
      simp [hmem, hft, hheld, hs]
    · have hft : i ∈ slots w f.topic → f.topic ≠ e.topic := by
        intro hi he
        exact hmem (he ▸ hi)
      by_cases hi : i ∈ slots w f.topic
      · simpa [hmem, hi, hft hi] using hs
      · simpa [hmem, hi] using hs
  · intro i f' hf' hheld
    obtain ⟨f, hf, rfl⟩ := hback i f' hf'
    obtain ⟨ht, hh, -⟩ := offer_fields f e
    rw [hh] at hheld
    have hq := h.queue i f hf hheld
    have hiff := live_iff h e.topic i
    rw [hf, Option.any_some] at hiff
    rw [hheap, ht]
    by_cases hlive : f.live e.topic = true
    · obtain ⟨hmem, hstrong⟩ := hiff.mpr hlive
      have hft := htopic i f hf hmem
      rw [if_pos hmem, if_pos hstrong, hq, hft, pushBounded_latest (depth_pos _)]
      simp [Feed.offer, hlive]
    · have hoffer : f.offer e = f := by simp [Feed.offer, hlive]
      rw [hoffer, ← hq]
      by_cases hmem : i ∈ slots w e.topic
      · have hdead : ¬(w.heap i).strong > 1 := fun hs => hlive (hiff.mp ⟨hmem, hs⟩)
        simp [hmem, hdead]
      · simp [hmem]

end NeuralOs.EventBus.Publication

/-! ## Delivery on the bus -/

namespace NeuralOs.EventBus.Delivery
open ByteString Stamp Bus Subscription Publication

variable {w : World} {v : Spec} {i : ℕ} {f : Feed}

theorem step_follows (h : Follows w v) (op : Op) :
    Follows (w.step op).1 (v.step op).1 ∧ (w.step op).2 = (v.step op).2 := by
  cases op with
  | subscribe topic =>
    refine ⟨subscribe_follows h topic, ?_⟩
    simp [World.step, World.subscribe, Spec.step, h.next]
  | unsubscribe i =>
    rw [World.step, Spec.step, h.handle]
    cases hi : v.holder i with
    | none => exact ⟨h, rfl⟩
    | some f =>
      obtain ⟨hf, hheld⟩ := holder_some hi
      exact ⟨unsubscribe_follows h hf hheld, rfl⟩
  | dropReceiver i =>
    rw [World.step, Spec.step, h.handle]
    cases hi : v.holder i with
    | none => exact ⟨h, rfl⟩
    | some f =>
      obtain ⟨hf, hheld⟩ := holder_some hi
      exact ⟨dropReceiver_follows h hf hheld, rfl⟩
  | publish hasher publisher e =>
    rw [World.step, Spec.step]
    by_cases hvalid : e.token.isValid = true
    · rw [World.publish, if_pos hvalid, if_pos hvalid, ← h.ids]
      refine ⟨publish_follows h hasher publisher _, ?_⟩
      exact congrArg (fun n => Reply.published (.ok n))
        ((numbered_count hasher publisher _).trans (fanOut_count h _))
    · rw [World.publish, if_neg hvalid, if_neg hvalid]
      exact ⟨h, rfl⟩
  | tryReceive i =>
    rw [World.step, Spec.step, h.handle]
    cases hi : v.holder i with
    | none => exact ⟨h, rfl⟩
    | some f =>
      obtain ⟨hf, hheld⟩ := holder_some hi
      obtain ⟨hw, hr⟩ := tryReceive_follows h hf hheld
      exact ⟨hw, congrArg Reply.received hr⟩

theorem run_follows (h : Follows w v) (ops : List Op) :
    Follows (w.run ops).1 (v.run ops).1 ∧ (w.run ops).2 = (v.run ops).2 := by
  induction ops generalizing w v with
  | nil => exact ⟨h, rfl⟩
  | cons op ops ih =>
    obtain ⟨hstep, hreply⟩ := step_follows h op
    obtain ⟨hrun, hreplies⟩ := ih hstep
    exact ⟨hrun, congrArg₂ List.cons hreply hreplies⟩

def owed (v : Spec) (f : Feed) : List Event := (v.log.drop f.since).filter (·.topic = f.topic)

/-- The events are numbered in order, and a receiver's events are split into those up to
the last one it received and the unread ones. -/
structure Told (v : Spec) : Prop where
  ids : ∀ n (h : n < v.log.length), v.log[n].id = .ofNat (n+1)
  since : ∀ i f, v.feeds i = some f → f.since ≤ v.log.length
  parts : ∀ i f, v.feeds i = some f → ∃ past, f.sent = past ++ f.unread ∧ f.got.Sublist past
  sent : ∀ i f, v.feeds i = some f → f.sent <+: owed v f
  whole : ∀ i f, v.feeds i = some f → f.held = true → f.subscribed = true → f.sent = owed v f

theorem told_new : Told .new := by
  constructor <;> simp [Spec.new]

theorem alter_told (h : Told v) (hf : v.feeds i = some f) {g : Feed → Feed}
    (hkeep : (g f).topic = f.topic ∧ (g f).since = f.since ∧ (g f).sent = f.sent)
    (hmore : (g f).held = true → (g f).subscribed = true →
      f.held = true ∧ f.subscribed = true)
    (hparts : ∃ past, f.sent = past ++ (g f).unread ∧ (g f).got.Sublist past) :
    Told (v.alter i g) := by
  obtain ⟨ht, hs, hsent⟩ := hkeep
  have howed : owed (v.alter i g) (g f) = owed v f := by rw [owed, owed, ht, hs]; rfl
  have hback : ∀ j f', (v.alter i g).feeds j = some f' → j ≠ i ∧ v.feeds j = some f' ∨
      j = i ∧ f' = g f := by
    intro j f' hf'
    by_cases hj : j = i
    · rw [hj, alter_feeds_self hf] at hf'
      exact .inr ⟨hj, (Option.some.inj hf').symm⟩
    · rw [alter_feeds_ne hj] at hf'
      exact .inl ⟨hj, hf'⟩
  constructor
  · exact h.ids
  · intro j f' hf'
    obtain ⟨-, hold⟩ | ⟨-, rfl⟩ := hback j f' hf'
    · exact h.since j f' hold
    · exact hs ▸ h.since i f hf
  · intro j f' hf'
    obtain ⟨-, hold⟩ | ⟨-, rfl⟩ := hback j f' hf'
    · exact h.parts j f' hold
    · rwa [hsent]
  · intro j f' hf'
    obtain ⟨-, hold⟩ | ⟨-, rfl⟩ := hback j f' hf'
    · exact h.sent j f' hold
    · rw [howed, hsent]
      exact h.sent i f hf
  · intro j f' hf' hheld hsub
    obtain ⟨-, hold⟩ | ⟨-, rfl⟩ := hback j f' hf'
    · exact h.whole j f' hold hheld hsub
    · obtain ⟨h₁, h₂⟩ := hmore hheld hsub
      rw [howed, hsent]
      exact h.whole i f hf h₁ h₂

theorem read_parts (h : ∃ past, f.sent = past ++ f.unread ∧ f.got.Sublist past) :
    ∃ past, f.sent = past ++ f.read.1.unread ∧ f.read.1.got.Sublist past := by
  obtain ⟨past, hsent, hgot⟩ := h
  cases hl : latest (queueDepthFor f.topic) f.unread with
  | nil =>
    have hread : f.read = (f, none) := by simp [Feed.read, hl]
    rw [hread]
    exact ⟨past, hsent, hgot⟩
  | cons e rest =>
    have hread : f.read = ({ f with got := f.got ++ [e], unread := rest }, some e) := by
      simp [Feed.read, hl]
    rw [hread]
    have hsplit := List.take_append_drop (f.unread.length-queueDepthFor f.topic) f.unread
    rw [← latest, hl] at hsplit
    refine ⟨past ++ f.unread.take (f.unread.length-queueDepthFor f.topic) ++ [e], ?_, ?_⟩
    · rw [hsent]
      conv_lhs => rw [← hsplit]
      simp
    · exact (hgot.trans (List.sublist_append_left _ _)).append (List.Sublist.refl _)

theorem owed_offer (e : Event) (h : f.since ≤ v.log.length) :
    owed { v with feeds := fun i => (v.feeds i).map (·.offer e), log := v.log ++ [e] }
      (f.offer e) = owed v f ++ if e.topic = f.topic then [e] else [] := by
  obtain ⟨ht, -, -, hs⟩ := offer_fields f e
  rw [owed, owed, ht, hs, List.drop_append_of_le_length h, List.filter_append]
  congr 1
  split
  next he => simp [he]
  next he => simp [he]

theorem offer_told (h : Told v) {e : Event} (hid : e.id = .ofNat (v.log.length+1)) :
    Told { v with feeds := fun i => (v.feeds i).map (·.offer e), log := v.log ++ [e] } := by
  have hback : ∀ i f', (v.feeds i).map (·.offer e) = some f' →
      ∃ f, v.feeds i = some f ∧ f' = f.offer e := by
    intro i f' hf'
    obtain ⟨f, hf, he⟩ := Option.map_eq_some_iff.mp hf'
    exact ⟨f, hf, he.symm⟩
  have hlive : ∀ f : Feed, f.live e.topic = true →
      f.held = true ∧ f.subscribed = true ∧ e.topic = f.topic ∧
        f.offer e = { f with sent := f.sent ++ [e], unread := f.unread ++ [e] } := by
    intro f hl
    obtain ⟨⟨hheld, hsub⟩, ht⟩ : (f.held = true ∧ f.subscribed = true) ∧ f.topic = e.topic := by
      simpa [Feed.live] using hl
    exact ⟨hheld, hsub, ht.symm, if_pos hl⟩
  have hdead : ∀ f : Feed, f.live e.topic ≠ true → f.offer e = f := fun f hl => if_neg hl
  constructor
  · intro n hn
    by_cases hlt : n < v.log.length
    · simpa [hlt] using h.ids n hlt
    · have : n = v.log.length := by simp at hn; omega
      simp [this, hid]
  · intro i f' hf'
    obtain ⟨f, hf, rfl⟩ := hback i f' hf'
    have := h.since i f hf
    rw [(offer_fields f e).2.2.2, List.length_append]
    omega
  · intro i f' hf'
    obtain ⟨f, hf, rfl⟩ := hback i f' hf'
    obtain ⟨past, hsent, hgot⟩ := h.parts i f hf
    by_cases hl : f.live e.topic = true
    · rw [(hlive f hl).2.2.2]
      exact ⟨past, by simp [hsent], hgot⟩
    · rw [hdead f hl]
      exact ⟨past, hsent, hgot⟩
  · intro i f' hf'
    obtain ⟨f, hf, rfl⟩ := hback i f' hf'
    rw [owed_offer e (h.since i f hf)]
    by_cases hl : f.live e.topic = true
    · obtain ⟨hheld, hsub, ht, ho⟩ := hlive f hl
      rw [ho, if_pos ht, ← h.whole i f hf hheld hsub]
    · rw [hdead f hl]
      exact (h.sent i f hf).trans (List.prefix_append _ _)
  · intro i f' hf' hheld hsub
    obtain ⟨f, hf, rfl⟩ := hback i f' hf'
    obtain ⟨-, hh, hs, -⟩ := offer_fields f e
    rw [hh] at hheld
    rw [hs] at hsub
    rw [owed_offer e (h.since i f hf)]
    by_cases ht : e.topic = f.topic
    · have hl : f.live e.topic = true := by simp [Feed.live, hheld, hsub, ht]
      rw [(hlive f hl).2.2.2, if_pos ht, ← h.whole i f hf hheld hsub]
    · have hl : f.live e.topic ≠ true := by simp [Feed.live, Ne.symm ht]
      rw [hdead f hl, if_neg ht, List.append_nil]
      exact h.whole i f hf hheld hsub

theorem step_told (h : Told v) (op : Op) : Told (v.step op).1 := by
  cases op with
  | subscribe topic =>
    have hback : ∀ i f, (v.step (.subscribe topic)).1.feeds i = some f →
        v.feeds i = some f ∨ f = .start topic v.log.length := by
      intro i f hf
      by_cases hi : i = v.next
      · right
        simpa [Spec.step, hi, eq_comm] using hf
      · left
        simpa [Spec.step, hi] using hf
    constructor
    · exact h.ids
    · intro i f hf
      obtain hold | rfl := hback i f hf
      · exact h.since i f hold
      · exact le_rfl
    · intro i f hf
      obtain hold | rfl := hback i f hf
      · exact h.parts i f hold
      · exact ⟨[], rfl, List.Sublist.refl _⟩
    · intro i f hf
      obtain hold | rfl := hback i f hf
      · exact h.sent i f hold
      · exact List.nil_prefix
    · intro i f hf hheld hsub
      obtain hold | rfl := hback i f hf
      · exact h.whole i f hold hheld hsub
      · simp [owed, Feed.start, Spec.step]
  | unsubscribe i =>
    rw [Spec.step]
    cases hi : v.holder i with
    | none => exact h
    | some f =>
      obtain ⟨hf, -⟩ := holder_some hi
      exact alter_told h hf ⟨rfl, rfl, rfl⟩ (by simp) (h.parts i f hf)
  | dropReceiver i =>
    rw [Spec.step]
    cases hi : v.holder i with
    | none => exact h
    | some f =>
      obtain ⟨hf, -⟩ := holder_some hi
      exact alter_told h hf ⟨rfl, rfl, rfl⟩ (by simp) (h.parts i f hf)
  | publish hasher publisher e =>
    rw [Spec.step]
    split
    · exact offer_told h rfl
    · exact h
  | tryReceive i =>
    rw [Spec.step]
    cases hi : v.holder i with
    | none => exact h
    | some f =>
      obtain ⟨hf, -⟩ := holder_some hi
      have hread : f.read.1.topic = f.topic ∧ f.read.1.since = f.since ∧ f.read.1.sent = f.sent ∧
          f.read.1.held = f.held ∧ f.read.1.subscribed = f.subscribed := by
        rw [Feed.read]
        split <;> exact ⟨rfl, rfl, rfl, rfl, rfl⟩
      obtain ⟨h₁, h₂, h₃, h₄, h₅⟩ := hread
      refine alter_told h hf ⟨h₁, h₂, h₃⟩ ?_ (read_parts (h.parts i f hf))
      rw [h₄, h₅]
      exact fun hheld hsub => ⟨hheld, hsub⟩

theorem run_told (h : Told v) (ops : List Op) : Told (v.run ops).1 := by
  induction ops generalizing v with
  | nil => exact h
  | cons op ops ih => exact ih (step_told h op)

theorem log_increasing (h : Told v) (hb : v.log.length < 2^64) :
    v.log.Pairwise fun a b => a.id < b.id := by
  rw [List.pairwise_iff_getElem]
  intro m n hm hn hlt
  have hsize : UInt64.size = 2^64 := rfl
  rw [h.ids m hm, h.ids n hn, UInt64.lt_iff_toNat_lt, UInt64.toNat_ofNat_of_lt' (by omega),
    UInt64.toNat_ofNat_of_lt' (by omega)]
  omega

theorem bus_delivers (ops : List Op) (h : (Spec.new.run ops).1.log.length < 2^64) :
    let w := (World.new.run ops).1
    let v := (Spec.new.run ops).1
    (World.new.run ops).2 = (Spec.new.run ops).2 ∧
      ∀ i f, v.feeds i = some f → f.held = true →
        (w.heap i).queue = latest (queueDepthFor f.topic) f.unread ∧
        (∃ past, f.sent = past ++ f.unread ∧ f.got.Sublist past) ∧
        f.sent <+: owed v f ∧ (f.subscribed = true → f.sent = owed v f) ∧
        (f.got ++ (w.heap i).queue).Pairwise fun a b => a.id < b.id := by
  intro w v
  obtain ⟨hw, hreplies⟩ := run_follows follows_new ops
  have hv : Told v := run_told told_new ops
  refine ⟨hreplies, fun i f hf hheld => ?_⟩
  have hqueue := hw.queue i f hf hheld
  obtain ⟨past, hsent, hgot⟩ := hv.parts i f hf
  refine ⟨hqueue, ⟨past, hsent, hgot⟩, hv.sent i f hf, hv.whole i f hf hheld, ?_⟩
  have hsub : (f.got ++ (w.heap i).queue).Sublist v.log := by
    calc
      _ = f.got ++ latest (queueDepthFor f.topic) f.unread := by rw [hqueue]
      List.Sublist _ (past ++ f.unread) := hgot.append (List.drop_sublist _ _)
      _ = f.sent := hsent.symm
      List.Sublist _ (owed v f) := (hv.sent i f hf).sublist
      List.Sublist _ v.log := List.filter_sublist.trans (List.drop_sublist _ _)
  exact (log_increasing hv h).sublist hsub

def note (token : UInt64) : Op := .publish .fallback 7 ⟨0, [0x54], [1, 2], .legacy token⟩

/-- Two receivers, one of which comes late and is dropped, and an event without a token. -/
def twoReceivers : List Op :=
  [.subscribe [0x54], note 1, .subscribe [0x54], note 2, .tryReceive 1, note 0, .tryReceive 0,
    .dropReceiver 1, note 3, .tryReceive 0]

theorem bus_delivers_note : (Spec.new.run twoReceivers).1.log.length = 3 ∧
    (World.new.run twoReceivers).2 = (Spec.new.run twoReceivers).2 := by
  have hlog : (Spec.new.run twoReceivers).1.log.length = 3 := by decide +kernel
  exact ⟨hlog, (bus_delivers _ (by rw [hlog]; decide)).1⟩

theorem notes_logged (v : Spec) (n : ℕ) :
    (v.run (List.replicate n (note 1))).1.log.length = v.log.length+n := by
  induction n generalizing v with
  | zero => rfl
  | succ n ih =>
    have hstep : (v.step (note 1)).1.log.length = v.log.length+1 := by
      simp [Spec.step, note, CapabilityToken.isValid]
    rw [List.replicate_succ, Spec.run]
    exact (ih _).trans (by rw [hstep]; omega)

/-- A refused token gets an error whoever listens, and event ids start again after 2^64
publications. -/
theorem refused_and_wrapped :
    (World.new.run [.subscribe [0x54], note 0]).2 =
        [.receiver 0, .published (.error .invalidToken)] ∧
      (World.new.run (List.replicate (2^64) (note 1))).1.bus.nextEventId = 1 := by
  refine ⟨rfl, ?_⟩
  rw [(run_follows follows_new _).1.ids, notes_logged]
  decide

end NeuralOs.EventBus.Delivery
