import NeuralOs.Lib.Machine

/-!
# The ticket lock

Every atomic operation of `lock`, `try_lock` and the drop of a guard is one step
of its thread, and the steps of any number of threads interleave. The counters
are 64-bit words that wrap. The lock keeps, as history, who drew which ticket and
who got a guard with it: guards come in the order of the tickets, one at a time.
-/

set_option autoImplicit false

namespace NeuralOs.Sync.Tickets
open Machine

/-- Where a thread is: in no call, in the wait loop of `lock`, or in `try_lock`
between the load of `serving` and the exchange. -/
inductive Pc
  | idle
  | spinning (myTicket : UInt64)
  | trying (nowServing : UInt64)
  deriving DecidableEq

structure TicketLock (Tid : Type) where
  ticket : UInt64
  serving : UInt64
  pc : Tid → Pc
  guards : List Tid
  taken : List (Tid × UInt64)
  acquired : List (Tid × UInt64)

inductive Act (Tid : Type)
  | fetchTicket (i : Tid)
  | loadServing (i : Tid)
  | tryLoad (i : Tid)
  | tryExchange (i : Tid)
  | giveGuard (i j : Tid)
  | dropGuard (i : Tid)

variable {Tid : Type}

def TicketLock.new : TicketLock Tid := ⟨0, 0, fun _ => .idle, [], [], []⟩

/-- The acquisitions so far: calls of `lock` that drew a ticket, and calls of `try_lock`
that succeeded. -/
def TicketLock.acquisitions (s : TicketLock Tid) : ℕ := s.taken.length

variable [DecidableEq Tid]

def TicketLock.enter (s : TicketLock Tid) (i : Tid) (t : UInt64) : TicketLock Tid :=
  { s with
    pc := Function.update s.pc i .idle
    guards := i :: s.guards
    acquired := s.acquired ++ [(i, t)] }

/-- A thread that is not at the operation stays where it is. -/
def TicketLock.step (s : TicketLock Tid) : Act Tid → TicketLock Tid
  | .fetchTicket i =>
    match s.pc i with
    | .idle => { s with
        ticket := s.ticket+1
        pc := Function.update s.pc i (.spinning s.ticket)
        taken := s.taken ++ [(i, s.ticket)] }
    | _ => s
  | .loadServing i =>
    match s.pc i with
    | .spinning t => if s.serving = t then s.enter i t else s
    | _ => s
  | .tryLoad i =>
    match s.pc i with
    | .idle => { s with pc := Function.update s.pc i (.trying s.serving) }
    | _ => s
  | .tryExchange i =>
    match s.pc i with
    | .trying n =>
      if s.ticket = n then
        { s with ticket := n+1, taken := s.taken ++ [(i, n)] }.enter i n
      else { s with pc := Function.update s.pc i .idle }
    | _ => s
  | .giveGuard i j =>
    if i ∈ s.guards then { s with guards := j :: s.guards.erase i } else s
  | .dropGuard i =>
    if i ∈ s.guards then { s with serving := s.serving+1, guards := s.guards.erase i } else s

/-! ### The invariant -/

/-- The tickets below `served` are done, those below `acquired` have their guard, and the
rest wait in order. -/
structure Fair (s : TicketLock Tid) : Prop where
  numbered : ∀ n (h : n < s.taken.length), s.taken[n].2 = .ofNat n
  ticket : s.ticket = .ofNat s.taken.length
  order : s.acquired <+: s.taken
  single : s.guards.length ≤ 1
  serving : s.serving = .ofNat (s.acquired.length-s.guards.length)
  guarded : s.guards.length ≤ s.acquired.length
  queued : ∀ n, s.acquired.length ≤ n → ∀ h : n < s.taken.length,
    s.pc s.taken[n].1 = .spinning s.taken[n].2
  spinning : ∀ i t, s.pc i = .spinning t →
    ∃ n, s.acquired.length ≤ n ∧ s.taken[n]? = some (i, t)
  trying : ∀ i t, s.pc i = .trying t →
    ∃ k, k ≤ s.acquired.length-s.guards.length ∧ t = .ofNat k

variable {s : TicketLock Tid} {i : Tid}

omit [DecidableEq Tid] in
theorem fair_new : Fair (.new : TicketLock Tid) := by
  constructor <;> simp [TicketLock.new]

theorem ofNat_inj {m n : ℕ} (hm : m < 2^64) (hn : n < 2^64)
    (h : UInt64.ofNat m = UInt64.ofNat n) : m = n := by
  have := congrArg UInt64.toNat h
  rwa [UInt64.toNat_ofNat_of_lt' hm, UInt64.toNat_ofNat_of_lt' hn] at this

theorem prefix_snoc {α : Type} {l m : List α} {x : α} (h : l <+: m)
    (hx : m[l.length]? = some x) : l ++ [x] <+: m := by
  obtain ⟨r, rfl⟩ := h
  cases r with
  | nil => simp at hx
  | cons y r =>
    have : y = x := by simpa using hx
    exact ⟨r, by simp [this]⟩

theorem fetchTicket_fair (h : Fair s) : Fair (s.step (.fetchTicket i)) := by
  rw [TicketLock.step]
  split
  case h_2 => exact h
  case h_1 hi =>
  have hne : ∀ j t, s.pc j = .spinning t → j ≠ i := by
    rintro j t hj rfl
    rw [hi] at hj
    cases hj
  constructor
  · intro n hn
    by_cases hlt : n < s.taken.length
    · simpa [hlt] using h.numbered n hlt
    · have : n = s.taken.length := by simp at hn; omega
      simp [this, h.ticket]
  · simp [h.ticket]
  · exact h.order.trans (List.prefix_append _ _)
  · exact h.single
  · exact h.serving
  · exact h.guarded
  · intro n hA hn
    by_cases hlt : n < s.taken.length
    · have hold := h.queued n hA hlt
      simpa [hlt, Function.update_of_ne (hne _ _ hold)] using hold
    · have : n = s.taken.length := by simp at hn; omega
      simp [this]
  · intro j t hj
    by_cases hji : j = i
    · have ht : s.ticket = t := by simpa [hji] using hj
      refine ⟨s.taken.length, h.order.length_le, ?_⟩
      simp [hji, ht]
    · obtain ⟨n, hA, hn⟩ := h.spinning j t (by simpa [hji] using hj)
      exact ⟨n, hA, (List.getElem?_append_left (List.getElem?_eq_some_iff.mp hn).1).trans hn⟩
  · intro j t hj
    by_cases hji : j = i
    · simp [hji] at hj
    · exact h.trying j t (by simpa [hji] using hj)

theorem taken_grows (a : Act Tid) {n : ℕ} (h : (s.step a).taken.length < n) :
    s.taken.length < n := by
  revert h
  cases a <;> simp only [TicketLock.step, TicketLock.enter] <;> (repeat' split) <;>
    simp <;> omega

omit [DecidableEq Tid] in
theorem served_next (h : Fair s) (hb : s.taken.length < 2^64) {t : UInt64}
    (hi : s.pc i = .spinning t) (hs : s.serving = t) :
    s.guards = [] ∧ s.taken[s.acquired.length]? = some (i, t) := by
  obtain ⟨n, hA, hn⟩ := h.spinning i t hi
  obtain ⟨hlt, hval⟩ := List.getElem?_eq_some_iff.mp hn
  have hnum := h.numbered n hlt
  rw [hval, ← hs, h.serving] at hnum
  have hlast : s.acquired.length-s.guards.length = n := ofNat_inj (by omega) (by omega) hnum
  have hg := h.guarded
  have hfree : s.guards.length = 0 := by omega
  have hnA : n = s.acquired.length := by omega
  exact ⟨List.eq_nil_of_length_eq_zero hfree, hnA ▸ hn⟩

theorem loadServing_fair (h : Fair s) (hb : s.taken.length < 2^64) :
    Fair (s.step (.loadServing i)) := by
  rw [TicketLock.step]
  split
  case h_2 => exact h
  case h_1 t hi =>
  split
  case isFalse => exact h
  case isTrue hs =>
  obtain ⟨hfree, hnext⟩ := served_next h hb hi hs
  have hserving := h.serving
  constructor
  · exact h.numbered
  · exact h.ticket
  · exact prefix_snoc h.order hnext
  · simp [TicketLock.enter, hfree]
  · simpa [TicketLock.enter, hfree] using hserving
  · simp [TicketLock.enter, hfree]
  · intro n hA hn
    simp only [TicketLock.enter, List.length_append, List.length_singleton] at hA hn ⊢
    have hold := h.queued n (by omega) hn
    rw [Function.update_of_ne, hold]
    intro he
    rw [he, hi, h.numbered n hn] at hold
    obtain ⟨hlt, hval⟩ := List.getElem?_eq_some_iff.mp hnext
    have hnum := h.numbered _ hlt
    rw [hval, Pc.spinning.inj hold] at hnum
    have := ofNat_inj (by omega) (by omega) hnum
    omega
  · intro j t' hj
    by_cases hji : j = i
    · simp [TicketLock.enter, hji] at hj
    obtain ⟨n, hA, hn⟩ := h.spinning j t' (by simpa [TicketLock.enter, hji] using hj)
    refine ⟨n, ?_, hn⟩
    have : n ≠ s.acquired.length := by
      rintro rfl
      rw [hn] at hnext
      exact hji (congrArg Prod.fst (Option.some.inj hnext))
    simp [TicketLock.enter]
    omega
  · intro j t' hj
    by_cases hji : j = i
    · simp [TicketLock.enter, hji] at hj
    · obtain ⟨k, hk, ht⟩ := h.trying j t' (by simpa [TicketLock.enter, hji] using hj)
      refine ⟨k, ?_, ht⟩
      simp [TicketLock.enter, hfree] at hk ⊢
      omega

theorem move_fair (h : Fair s) {p : Pc} (hi : ∀ t, s.pc i ≠ .spinning t)
    (hp : ∀ t, p ≠ .spinning t) (htry : ∀ t, p = .trying t → t = s.serving) :
    Fair { s with pc := Function.update s.pc i p } := by
  constructor
  · exact h.numbered
  · exact h.ticket
  · exact h.order
  · exact h.single
  · exact h.serving
  · exact h.guarded
  · intro n hA hn
    have hold := h.queued n hA hn
    have hne : s.taken[n].1 ≠ i := by
      intro he
      rw [he] at hold
      exact hi _ hold
    exact (Function.update_of_ne hne _ _).trans hold
  · intro j t hj
    by_cases hji : j = i
    · exact absurd (by simpa [hji] using hj) (hp t)
    · exact h.spinning j t (by simpa [hji] using hj)
  · intro j t hj
    by_cases hji : j = i
    · have ht := htry t (by simpa [hji] using hj)
      exact ⟨_, le_rfl, ht.trans h.serving⟩
    · exact h.trying j t (by simpa [hji] using hj)

theorem tryLoad_fair (h : Fair s) : Fair (s.step (.tryLoad i)) := by
  rw [TicketLock.step]
  split
  case h_2 => exact h
  case h_1 hi => exact move_fair h (by simp [hi]) (by simp) (by simp)

omit [DecidableEq Tid] in
theorem exchanged_free (h : Fair s) (hb : s.taken.length < 2^64) {n : UInt64}
    (hi : s.pc i = .trying n) (ht : s.ticket = n) :
    s.guards = [] ∧ s.acquired = s.taken := by
  obtain ⟨k, hk, hn⟩ := h.trying i n hi
  rw [h.ticket, hn] at ht
  have hle := h.order.length_le
  have hlast : s.taken.length = k := ofNat_inj hb (by omega) ht
  have hg := h.guarded
  have hfree : s.guards.length = 0 := by omega
  exact ⟨List.eq_nil_of_length_eq_zero hfree, h.order.eq_of_length (by omega)⟩

theorem tryExchange_fair (h : Fair s) (hb : s.taken.length < 2^64) :
    Fair (s.step (.tryExchange i)) := by
  rw [TicketLock.step]
  split
  case h_2 => exact h
  case h_1 n hi =>
  split
  case isFalse => exact move_fair h (by simp [hi]) (by simp) (by simp)
  case isTrue ht =>
  obtain ⟨hfree, hall⟩ := exchanged_free h hb hi ht
  have hserving := h.serving
  constructor
  · intro m hm
    by_cases hlt : m < s.taken.length
    · simpa [TicketLock.enter, hlt] using h.numbered m hlt
    · have : m = s.taken.length := by simp [TicketLock.enter] at hm; omega
      simp [TicketLock.enter, this, ← h.ticket, ht]
  · simp [TicketLock.enter, ← ht, h.ticket]
  · simp [TicketLock.enter, hall]
  · simp [TicketLock.enter, hfree]
  · simpa [TicketLock.enter, hfree] using hserving
  · simp [TicketLock.enter, hfree]
  · intro m hA hm
    simp [TicketLock.enter, hall] at hA hm
    omega
  · intro j t hj
    by_cases hji : j = i
    · simp [TicketLock.enter, hji] at hj
    · obtain ⟨m, hA, hm⟩ := h.spinning j t (by simpa [TicketLock.enter, hji] using hj)
      rw [hall] at hA
      simp [hA] at hm
  · intro j t hj
    by_cases hji : j = i
    · simp [TicketLock.enter, hji] at hj
    · obtain ⟨k, hk, hkt⟩ := h.trying j t (by simpa [TicketLock.enter, hji] using hj)
      refine ⟨k, ?_, hkt⟩
      simp [TicketLock.enter, hfree] at hk ⊢
      omega

theorem giveGuard_fair (h : Fair s) {j : Tid} : Fair (s.step (.giveGuard i j)) := by
  rw [TicketLock.step]
  split
  case isFalse => exact h
  case isTrue hi =>
  have hlen : (j :: s.guards.erase i).length = s.guards.length := by
    have := List.length_pos_of_mem hi
    rw [List.length_cons, List.length_erase_of_mem hi]
    omega
  exact ⟨h.numbered, h.ticket, h.order, hlen ▸ h.single, hlen ▸ h.serving, hlen ▸ h.guarded,
    h.queued, h.spinning, hlen ▸ h.trying⟩

theorem dropGuard_fair (h : Fair s) : Fair (s.step (.dropGuard i)) := by
  rw [TicketLock.step]
  split
  case isFalse => exact h
  case isTrue hi =>
  have hpos := List.length_pos_of_mem hi
  have hlen : (s.guards.erase i).length = 0 := by
    have := h.single
    rw [List.length_erase_of_mem hi]
    omega
  have hone : s.guards.length = 1 := by
    have := h.single
    omega
  have hg := h.guarded
  refine ⟨h.numbered, h.ticket, h.order, ?_, ?_, ?_, h.queued, h.spinning, ?_⟩
  · simp [hlen]
  · show s.serving+1 = .ofNat (s.acquired.length-(s.guards.erase i).length)
    rw [h.serving, hlen, hone, ← UInt64.ofNat_one, ← UInt64.ofNat_add]
    congr 1
    omega
  · simp [hlen]
  · intro j t hj
    obtain ⟨k, hk, ht⟩ := h.trying j t hj
    refine ⟨k, ?_, ht⟩
    show k ≤ s.acquired.length-(s.guards.erase i).length
    omega

theorem step_fair (a : Act Tid) (h : Fair s) (hb : (s.step a).taken.length < 2^64) :
    Fair (s.step a) := by
  cases a with
  | fetchTicket i => exact fetchTicket_fair h
  | loadServing i => exact loadServing_fair h (taken_grows _ hb)
  | tryLoad i => exact tryLoad_fair h
  | tryExchange i => exact tryExchange_fair h (taken_grows _ hb)
  | giveGuard i j => exact giveGuard_fair h
  | dropGuard i => exact dropGuard_fair h

theorem run_fair {steps : List (Act Tid)}
    (h : (run TicketLock.step (.new : TicketLock Tid) steps).acquisitions < 2^64) :
    Fair (run TicketLock.step (.new : TicketLock Tid) steps) :=
  run_within (G := fun s => s.acquisitions < 2^64) (fun _ a => taken_grows a)
    (fun _ a => step_fair a) fair_new h

omit [DecidableEq Tid] in
theorem fair_tickets (h : Fair s) :
    s.taken.map Prod.snd = (List.range s.acquisitions).map UInt64.ofNat := by
  apply List.ext_getElem
  · simp [TicketLock.acquisitions]
  · intro n h₁ h₂
    simpa using h.numbered n (by simpa using h₁)

omit [DecidableEq Tid] in
theorem fair_waiting (h : Fair s) :
    ∀ x ∈ s.taken.drop s.acquired.length, s.pc x.1 = .spinning x.2 := by
  intro x hx
  obtain ⟨n, hn, rfl⟩ := List.mem_iff_getElem.mp hx
  rw [List.getElem_drop]
  exact h.queued _ (by omega) _

omit [DecidableEq Tid] in
theorem fair_free (h : Fair s) (hfree : s.guards = [])
    (hwait : ∀ i t, s.pc i ≠ .spinning t) : s.ticket = s.serving := by
  have hall : s.acquired.length = s.taken.length := by
    have hle := h.order.length_le
    by_contra hne
    exact hwait _ _ (h.queued s.acquired.length le_rfl (by omega))
  rw [h.ticket, h.serving, hfree, hall, List.length_nil, Nat.sub_zero]

theorem fifo_exclusion (steps : List (Act Tid))
    (h : (run TicketLock.step (.new : TicketLock Tid) steps).acquisitions < 2^64) :
    let s := run TicketLock.step (.new : TicketLock Tid) steps
    s.guards.length ≤ 1 ∧
      s.acquired <+: s.taken ∧
      s.taken.map Prod.snd = (List.range s.acquisitions).map UInt64.ofNat ∧
      (∀ x ∈ s.taken.drop s.acquired.length, s.pc x.1 = .spinning x.2) ∧
      (∀ i n, s.pc i = .trying n → s.ticket ≠ n →
        s.step (.tryExchange i) = { s with pc := Function.update s.pc i .idle }) ∧
      (s.guards = [] → (∀ i t, s.pc i ≠ .spinning t) → s.ticket = s.serving) := by
  intro s
  have hs : Fair s := run_fair h
  refine ⟨hs.single, hs.order, fair_tickets hs, fair_waiting hs, ?_, fair_free hs⟩
  intro i n hi hn
  simp [TicketLock.step, hi, hn]

def handOver : List (Act Bool) :=
  [.fetchTicket false, .fetchTicket true, .loadServing true, .loadServing false,
    .loadServing true, .dropGuard false, .loadServing true]

theorem fifo_exclusion_handOver :
    (run TicketLock.step .new handOver).acquisitions = 2 ∧
      (run TicketLock.step .new handOver).guards.length ≤ 1 ∧
      (run TicketLock.step .new handOver).acquired <+:
        (run TicketLock.step .new handOver).taken := by
  have h := fifo_exclusion handOver (by decide)
  exact ⟨by decide, h.1, h.2.1⟩

/-- A free lock with threads waiting is entered by the first of them at its next load, and by
nobody else. -/
theorem free_lock_entered (steps : List (Act Tid))
    (h : (run TicketLock.step (.new : TicketLock Tid) steps).acquisitions < 2^64) :
    let s := run TicketLock.step (.new : TicketLock Tid) steps
    s.guards = [] → ∀ x, s.taken[s.acquired.length]? = some x →
      ∀ j, (s.step (.loadServing j)).guards = if j = x.1 then [j] else [] := by
  intro s hfree x hx j
  have hs : Fair s := run_fair h
  obtain ⟨hlt, rfl⟩ := List.getElem?_eq_some_iff.mp hx
  have hserving : s.serving = s.taken[s.acquired.length].2 := by
    rw [hs.serving, hfree, hs.numbered _ hlt, List.length_nil, Nat.sub_zero]
  rw [TicketLock.step]
  split
  case h_1 t hj =>
    by_cases ht : s.serving = t
    · have hnext := (served_next hs h hj ht).2
      rw [hx, Option.some.injEq] at hnext
      simp [ht, hnext, TicketLock.enter, hfree]
    · have hne : j ≠ s.taken[s.acquired.length].1 := by
        rintro rfl
        rw [hs.queued _ le_rfl hlt, ← hserving] at hj
        exact ht (Pc.spinning.inj hj)
      simp [ht, hne, hfree]
  case h_2 hj =>
    have hne : j ≠ s.taken[s.acquired.length].1 := by
      rintro rfl
      exact hj _ (hs.queued _ le_rfl hlt)
    simp [hne, hfree]

theorem free_lock_entered_handOver :
    ((run TicketLock.step .new (handOver.take 3)).step (.loadServing false)).guards = [false] ∧
      ((run TicketLock.step .new (handOver.take 3)).step (.loadServing true)).guards = [] := by
  have h := free_lock_entered (handOver.take 3) (by decide) (by decide) (false, 0) (by decide)
  exact ⟨h false, h true⟩

end NeuralOs.Sync.Tickets
