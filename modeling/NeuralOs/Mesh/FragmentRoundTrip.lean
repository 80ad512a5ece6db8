import NeuralOs.Mesh.FragmentRun

/-!
# One fragmented message

The fragments of one message come in any order and any number of times, spread over
any number of calls of `recv_fragmented`. The call that takes in the last missing
fragment returns the message; the calls before it return nothing.
-/

set_option autoImplicit false

namespace NeuralOs.Mesh.FragmentRoundTrip
open ByteString Bitmap Checked Pieces SlotTable UdpFrame Fragment Reassembly FragmentRun

structure Delivery where
  idx : ℕ
  now : UInt64

structure Call where
  now : UInt64
  queue : List Delivery

def Delivery.incoming (frames : List Bytes) (d : Delivery) : Incoming :=
  ⟨frames.getD d.idx [], d.now, true⟩

def recvCalls (frames : List Bytes) (ramMb : ℕ) (port : UInt16) :
    List Call → Rx → Run (List (Option Bytes × List Incoming) × Rx)
  | [], rx => .ok ([], rx)
  | c::l, rx => do
    let (o, q, rx) ← recvFragmented false ramMb port c.now (c.queue.map (·.incoming frames)) rx
    let (os, rx) ← recvCalls frames ramMb port l rx
    .ok ((o, q)::os, rx)

structure Progress where
  seen : Finset ℕ
  last : UInt64

def Progress.start : Progress := ⟨∅, 0⟩

def Progress.note (g : Progress) (d : Delivery) : Progress :=
  if d.idx ∈ g.seen then g else ⟨insert d.idx g.seen, d.now⟩

def Progress.notes (g : Progress) (q : List Delivery) : Progress := q.foldl Progress.note g

def Full (n : ℕ) (g : Progress) : Prop := ∀ i < n, i ∈ g.seen

instance decidableFull (n : ℕ) (g : Progress) : Decidable (Full n g) :=
  inferInstanceAs (Decidable (∀ i < _, i ∈ _))

theorem mem_note (g : Progress) (d : Delivery) (i : ℕ) :
    i ∈ (g.note d).seen ↔ i = d.idx ∨ i ∈ g.seen := by
  rw [Progress.note]
  split
  next h =>
    constructor
    · exact .inr
    · rintro (rfl | hi)
      · exact h
      · exact hi
  · simp

theorem full_notes {n : ℕ} {g : Progress} (q : List Delivery) (h : Full n g) :
    Full n (g.notes q) := by
  induction q generalizing g with
  | nil => exact h
  | cons d q ih => exact ih fun i hi => (mem_note g d i).mpr (.inr (h i hi))

def InTime (n : ℕ) : Progress → List Call → Prop
  | _, [] => True
  | g, c::l =>
    (g.seen.Nonempty → ¬Full n g → (c.now-g.last).toNat ≤ fragTimeoutTicks) ∧
      InTime n (g.notes c.queue) l

/-! ### The slot of the message -/

def table (o : Option FragReassembly) : Slots FragReassembly := o::vacant 15

variable {id : ℕ} {p : Bytes} {rs : FragReassembly} {o : Option FragReassembly} {g : Progress}
variable {f : Frag} {now : UInt64} {i : ℕ}

theorem slotPos_table (h : ∀ rs, o = some rs → rs.id = id) : slotPos id (table o) = some 0 := by
  cases o with
  | none => rfl
  | some rs =>
    have hid := h rs rfl
    simp [slotPos, table, vacant, List.replicate, scanStep, hid]

theorem collected_count {seen : Bits} {chunks : List Bytes} {received : ℕ}
    (h : Collected p seen chunks received) :
    received = parts p ↔ ∀ i < parts p, seen i = true := by
  rw [h.counted]
  constructor
  · intro hcard i hi
    have hfilter := Finset.eq_of_subset_of_card_le
      (Finset.filter_subset (fun i => seen i = true) (Finset.range (parts p)))
      (by rw [Finset.card_range]; omega)
    have hmem : i ∈ (Finset.range (parts p)).filter fun i => seen i = true := by
      rw [hfilter]
      simpa using hi
    exact (Finset.mem_filter.mp hmem).2
  · intro hall
    rw [Finset.filter_true_of_mem fun i hi => hall i (Finset.mem_range.mp hi), Finset.card_range]

def Slot (id : ℕ) (p : Bytes) (g : Progress) (o : Option FragReassembly) : Prop :=
  (g.seen = ∅ ∧ o = none) ∨
    ∃ rs, o = some rs ∧ g.seen.Nonempty ∧ Holds id p rs ∧ (∀ i, rs.seen i = true ↔ i ∈ g.seen) ∧
      rs.lastTick = g.last

theorem Slot.reassembly (h : Slot id p g o) (now : UInt64)
    (hf : f = ⟨id, parts p, i, p.length, piece fragMaxChunk p i⟩) :
    Holds id p (reassemblyFor f now o) ∧
      (∀ j, (reassemblyFor f now o).seen j = true ↔ j ∈ g.seen) ∧
      (g.seen.Nonempty → o = some (reassemblyFor f now o)) := by
  subst hf
  rcases h with ⟨hempty, rfl⟩ | ⟨rs, rfl, -, hrs, hseen, -⟩
  · refine ⟨⟨rfl, rfl, rfl, collected_empty p⟩, fun j => ?_, fun hne => ?_⟩
    · simp [reassemblyFor, hempty]
    · simp [hempty] at hne
  · have hfor : reassemblyFor ⟨id, parts p, i, p.length, piece fragMaxChunk p i⟩ now (some rs) =
        rs := if_pos hrs.id
    rw [hfor]
    exact ⟨hrs, hseen, fun _ => rfl⟩

theorem Slot.id_eq (h : Slot id p g o) : ∀ rs, o = some rs → rs.id = id := by
  rintro rs rfl
  rcases h with ⟨-, hnone⟩ | ⟨rs', hsome, -, hrs, -⟩
  · cases hnone
  · cases hsome
    exact hrs.id

theorem insert_duplicate (hp : Cut p) (hi : i ∈ g.seen) (h : Slot id p g o)
    (hf : f = ⟨id, parts p, i, p.length, piece fragMaxChunk p i⟩) :
    insertFrag f now true (table o) = .ok (.more, table o) := by
  obtain ⟨hrs, hseen, hsame⟩ := h.reassembly now hf
  have hparts := parts_le hp
  have hidx : f.idx = i := by rw [hf]
  have hfid : f.id = id := by rw [hf]
  have hold := (hseen i).mpr hi
  have hlt := hrs.collected.inside i hold
  rw [insertFrag, hfid, slotPos_table h.id_eq]
  simp only [table, List.getElem?_cons_zero, hidx, if_neg (show ¬16 ≤ i/64 by omega),
    if_pos hold, List.set_cons_zero, ← hsame ⟨i, hi⟩]

theorem insert_new (now : UInt64) (hp : Cut p) (hi : i < parts p) (hnew : i ∉ g.seen) (h : Slot id p g o)
    (hf : f = ⟨id, parts p, i, p.length, piece fragMaxChunk p i⟩) :
    (Full (parts p) ⟨insert i g.seen, now⟩ →
      insertFrag f now true (table o) = .ok (.message p, table none)) ∧
    (¬Full (parts p) ⟨insert i g.seen, now⟩ → ∃ o', Slot id p ⟨insert i g.seen, now⟩ o' ∧
      insertFrag f now true (table o) = .ok (.more, table o')) := by
  obtain ⟨hrs, hseen, -⟩ := h.reassembly now hf
  set rs := reassemblyFor f now o with hrsdef
  have hidx : f.idx = i := by rw [hf]
  have hdata : f.data = piece fragMaxChunk p i := by rw [hf]
  have hfid : f.id = id := by rw [hf]
  have hparts := parts_le hp
  have hunseen : ¬rs.seen i = true := fun hs => hnew ((hseen i).mp hs)
  have hadd := collected_add hrs.collected hi (by simpa using hunseen)
  have hmark : ∀ j, mark rs.seen i 1 j = true ↔ j ∈ insert i g.seen := by
    intro j
    rw [Finset.mem_insert, ← hseen j]
    simp only [mark, Bool.or_eq_true, decide_eq_true_eq]
    constructor
    · rintro (hj | hj)
      · exact .inr hj
      · exact .inl (by omega)
    · rintro (hj | hj)
      · exact .inr (by omega)
      · exact .inl hj
  have hfull : rs.received+1 = rs.totalFrags ↔ Full (parts p) ⟨insert i g.seen, now⟩ := by
    rw [hrs.totalFrags, collected_count hadd]
    exact forall₂_congr fun j _ => hmark j
  set rs' : FragReassembly := { rs with
    seen := mark rs.seen i 1
    chunks := (resized rs.chunks i).set i (piece fragMaxChunk p i)
    received := rs.received+1
    lastTick := now } with hrs'
  have hinsert : insertFrag f now true (table o) =
      if rs.received+1 = rs.totalFrags then
        if rs'.chunks.flatten.length ≠ rs.totalLen then .ok (.more, table none)
        else .ok (.message rs'.chunks.flatten, table none)
      else .ok (.more, table (some rs')) := by
    rw [insertFrag, hfid, slotPos_table h.id_eq]
    simp only [table, List.getElem?_cons_zero, ← hrsdef, hidx, hdata,
      if_neg (show ¬16 ≤ i/64 by omega), if_neg hunseen,
      if_neg (Nat.not_le.mpr (resized_length rs.chunks i)), Bool.true_eq_false, if_false,
      List.set_cons_zero, hrs']
  refine ⟨fun hdone => ?_,
    fun hmore => ⟨some rs', .inr ⟨rs', rfl, ⟨i, by simp⟩, ?_, hmark, rfl⟩, ?_⟩⟩
  · have hjoin : rs'.chunks.flatten = p :=
      collected_full hadd ((hfull.mpr hdone).trans hrs.totalFrags)
    rw [hinsert, if_pos (hfull.mpr hdone), hjoin, if_neg (by simp [hrs.totalLen])]
  · exact ⟨hrs.id, hrs.totalFrags, hrs.totalLen, hadd⟩
  · rw [hinsert, if_neg fun he => hmore (hfull.mp he)]

/-! ### The frames -/

theorem entries_all {α : Type} {l : List (Option α)} (h : l.all (·.isSome) = true) :
    l = (entries l).map some := by
  induction l with
  | nil => rfl
  | cons o l ih =>
    cases o with
    | none => simp at h
    | some a => exact congrArg (some a :: ·) (ih (by simpa using h))

section Sent

variable {s : Sender} {port : UInt16} {ramMb : ℕ}

def framesOf (s : Sender) (p : Bytes) (port : UInt16) : List Bytes :=
  (s.sendFragmented broadcastMac p port).2.2

variable (hp : Cut p) (hsent : (s.sendFragmented broadcastMac p port).2.1 = true)
include hp hsent

theorem framesOf_map : (framesOf s p port).map some = (List.range (parts p)).map fun i =>
    buildUdpFrame s.cfg broadcastMac (fragment s.fragId p i) port := by
  have hmax : ¬fragMaxPayload < p.length := Nat.not_lt.mpr hp.2
  have hdirect : ¬p.length ≤ fragDirectMax := Nat.not_le.mpr hp.1
  rw [Sender.sendFragmented, if_neg hmax, if_neg hdirect] at hsent
  rw [framesOf, Sender.sendFragmented, if_neg hmax, if_neg hdirect]
  exact (entries_all hsent).symm

theorem framesOf_length : (framesOf s p port).length = parts p := by
  have := congrArg List.length (framesOf_map hp hsent)
  simpa using this

theorem frame_built (hi : i < parts p) :
    buildUdpFrame s.cfg broadcastMac (fragment s.fragId p i) port =
      some ((framesOf s p port).getD i []) := by
  have hlen := framesOf_length hp hsent
  have hget := congrArg (fun l => l[i]?) (framesOf_map hp hsent)
  simp only [List.getElem?_map, List.getElem?_range hi, Option.map_some] at hget
  rw [List.getElem?_eq_getElem (by omega)] at hget
  rw [List.getD_eq_getElem _ _ (by omega)]
  simpa using hget.symm

/-! ### Calls -/

def Tracks (s : Sender) (p : Bytes) (g : Progress) (rx : Rx) : Prop :=
  ∃ o, rx.table = table o ∧ Slot s.fragId.toNat p g o

def proceed (ramMb : ℕ) (port : UInt16) (q : List Incoming) (rx : Rx) :
    FragResult × Slots FragReassembly → Run (Option Bytes × List Incoming × Rx)
  | (.noSlot, t) => .ok (none, q, { rx with table := t })
  | (.message out, t) => .ok (some out, q, { rx with table := t })
  | (.more, t) => recvLoop false ramMb port 16 q { rx with table := t }

variable (hram : p.length ≤ fragReassemblyBudgetBytes ramMb) {rx : Rx} {d : Delivery}
include hram

theorem loop_fragment (hd : d.idx < parts p) (h : Tracks s p g rx) (hmore : ¬Full (parts p) g) :
    ∃ rx', (¬Full (parts p) (g.note d) → Tracks s p (g.note d) rx') ∧
      ∀ q, recvLoop false ramMb port 16 (d.incoming (framesOf s p port)::q) rx =
        if Full (parts p) (g.note d) then .ok (some p, q, rx')
        else recvLoop false ramMb port 16 q rx' := by
  obtain ⟨o, htable, hslot⟩ := h
  set rx₁ := rx.learnMac (fragment s.fragId p d.idx) s.cfg.mac.toList
  have hsmall : (fragment s.fragId p d.idx).length < 65528 := by
    have : (piece fragMaxChunk p d.idx).length ≤ fragMaxChunk := piece_length_le d.idx
    rw [fragment_length]
    simp only [fragMaxChunk] at this ⊢
    omega
  have hread := readFrag_fragment hp s.fragId hd ramMb
  rw [if_neg (Nat.not_lt.mpr hram)] at hread
  have hloop : ∀ q, recvLoop false ramMb port 16 (d.incoming (framesOf s p port)::q) rx =
      insertFrag ⟨s.fragId.toNat, parts p, d.idx, p.length, piece fragMaxChunk p d.idx⟩ d.now true
        (table o) >>= proceed ramMb port q rx₁ := by
    intro q
    rw [recvLoop, Delivery.incoming, udpPayload_build hsmall (frame_built hp hsent hd), ok_bind,
      if_pos (by simp)]
    simp only [Bool.false_eq_true, if_false, fragment_tag, hread, ok_bind, learnMac_table, htable,
      Bool.true_eq_false]
    refine congrArg (insertFrag _ _ _ _ >>= ·) (funext fun r => ?_)
    obtain ⟨r, t⟩ := r
    cases r <;> rfl
  by_cases hold : d.idx ∈ g.seen
  · have hnote : g.note d = g := if_pos hold
    rw [hnote]
    refine ⟨{ rx₁ with table := table o }, fun _ => ⟨o, rfl, hslot⟩, fun q => ?_⟩
    rw [hloop, insert_duplicate hp hold hslot rfl, ok_bind, proceed, if_neg hmore]
  have hnote : g.note d = ⟨insert d.idx g.seen, d.now⟩ := if_neg hold
  rw [hnote]
  obtain ⟨hdone, hnext⟩ := insert_new d.now hp hd hold hslot rfl
  by_cases hfull : Full (parts p) ⟨insert d.idx g.seen, d.now⟩
  · refine ⟨{ rx₁ with table := table none }, fun hn => absurd hfull hn, fun q => ?_⟩
    rw [hloop, hdone hfull, ok_bind, proceed, if_pos hfull]
  · obtain ⟨o', hslot', hins⟩ := hnext hfull
    refine ⟨{ rx₁ with table := table o' }, fun _ => ⟨o', rfl, hslot'⟩, fun q => ?_⟩
    rw [hloop, hins, ok_bind, proceed, if_neg hfull]

theorem loop_collects (q₁ : List Delivery) (hq : ∀ d ∈ q₁, d.idx < parts p) (h : Tracks s p g rx)
    (hmore : ¬Full (parts p) (g.notes q₁)) : ∃ rx', Tracks s p (g.notes q₁) rx' ∧
      ∀ q, recvLoop false ramMb port 16 (q₁.map (·.incoming (framesOf s p port))++q) rx =
        recvLoop false ramMb port 16 q rx' := by
  induction q₁ generalizing g rx with
  | nil => exact ⟨rx, h, fun q => rfl⟩
  | cons d q₁ ih =>
    have hnext : ¬Full (parts p) (g.note d) := fun hf => hmore (full_notes q₁ hf)
    have hnow : ¬Full (parts p) g := fun hf => hmore (full_notes (d::q₁) hf)
    obtain ⟨rx₁, h₁, hstep⟩ := loop_fragment hp hsent hram (hq d (by simp)) h hnow
    obtain ⟨rx₂, h₂, hloop⟩ := ih (fun e he => hq e (by simp [he])) (h₁ hnext) hmore
    refine ⟨rx₂, h₂, fun q => ?_⟩
    rw [List.map_cons, List.cons_append, hstep, if_neg hnext, hloop]

omit hp hsent hram in
theorem recvFragmented_in_time (h : Tracks s p g rx)
    (htime : g.seen.Nonempty → (now-g.last).toNat ≤ fragTimeoutTicks) (q : List Incoming) :
    recvFragmented false ramMb port now q rx = recvLoop false ramMb port 16 q rx := by
  obtain ⟨o, htable, hslot⟩ := h
  have hsweep : sweep (·.expired now) rx.table = rx.table := by
    rw [htable]
    refine sweep_none fun rs hrs => ?_
    have ho : some rs = o := by simpa [table, mem_entries, vacant] using hrs
    rcases hslot with ⟨-, rfl⟩ | ⟨rs', rfl, hne, -, -, hlast⟩
    · cases ho
    · cases ho
      rw [FragReassembly.expired, hlast]
      exact decide_eq_false (Nat.not_lt.mpr (htime hne))
  rw [recvFragmented, hsweep]

theorem calls_collect (before : List Call) (hq : ∀ c ∈ before, ∀ d ∈ c.queue, d.idx < parts p)
    (h : Tracks s p g rx) (htime : InTime (parts p) g before)
    (hmore : ¬Full (parts p) (g.notes (before.flatMap (·.queue)))) :
    ∃ rx', Tracks s p (g.notes (before.flatMap (·.queue))) rx' ∧
      ∀ l os rx'', recvCalls (framesOf s p port) ramMb port l rx' = .ok (os, rx'') →
        recvCalls (framesOf s p port) ramMb port (before++l) rx =
          .ok (before.map (fun _ => (none, []))++os, rx'') := by
  induction before generalizing g rx with
  | nil => exact ⟨rx, h, fun l os rx'' hrest => hrest⟩
  | cons c before ih =>
    have hnotes : g.notes ((c::before).flatMap (·.queue)) =
        (g.notes c.queue).notes (before.flatMap (·.queue)) := by
      simp [Progress.notes]
    rw [hnotes] at hmore ⊢
    have hcall : ¬Full (parts p) (g.notes c.queue) := fun hf => hmore (full_notes _ hf)
    have hnow : ¬Full (parts p) g := fun hf => hcall (full_notes c.queue hf)
    obtain ⟨rx₁, h₁, hloop⟩ := loop_collects hp hsent hram c.queue (hq c (by simp)) h hcall
    obtain ⟨rx₂, h₂, hrest⟩ := ih (fun e he => hq e (by simp [he])) h₁ htime.2 hmore
    refine ⟨rx₂, h₂, fun l os rx'' hl => ?_⟩
    have hfirst : recvFragmented false ramMb port c.now
        (c.queue.map (·.incoming (framesOf s p port))) rx = .ok (none, [], rx₁) := by
      have := hloop []
      rw [List.append_nil] at this
      rw [recvFragmented_in_time h (fun hne => htime.1 hne hnow), this]
      rfl
    rw [List.cons_append, recvCalls, hfirst, ok_bind]
    simp only [hrest l os rx'' hl, ok_bind]
    rfl

theorem call_completes {c : Call} {q₁ q₂ : List Delivery} (hc : c.queue = q₁++d::q₂)
    (hq : ∀ e ∈ c.queue, e.idx < parts p) (h : Tracks s p g rx)
    (htime : g.seen.Nonempty → (c.now-g.last).toNat ≤ fragTimeoutTicks)
    (hmore : ¬Full (parts p) (g.notes q₁)) (hfull : Full (parts p) (g.notes (q₁++[d]))) :
    ∃ rx', recvFragmented false ramMb port c.now (c.queue.map (·.incoming (framesOf s p port))) rx =
      .ok (some p, q₂.map (·.incoming (framesOf s p port)), rx') := by
  rw [hc] at hq
  obtain ⟨rx₁, h₁, hloop⟩ :=
    loop_collects hp hsent hram q₁ (fun e he => hq e (by simp [he])) h hmore
  obtain ⟨rx₂, -, hstep⟩ := loop_fragment hp hsent hram (hq d (by simp)) h₁ hmore
  have hlast : Full (parts p) ((g.notes q₁).note d) := by
    simpa [Progress.notes] using hfull
  refine ⟨rx₂, ?_⟩
  rw [recvFragmented_in_time h htime, hc, List.map_append, hloop, List.map_cons, hstep,
    if_pos hlast]

end Sent

/-! ### The completing delivery -/

variable {n : ℕ}

theorem queue_splits (q : List Delivery) (hmore : ¬Full n g) (hfull : Full n (g.notes q)) :
    ∃ q₁ d q₂, q = q₁++d::q₂ ∧ ¬Full n (g.notes q₁) ∧ Full n (g.notes (q₁++[d])) := by
  induction q generalizing g with
  | nil => exact absurd hfull hmore
  | cons d q ih =>
    by_cases hd : Full n (g.note d)
    · exact ⟨[], d, q, rfl, hmore, hd⟩
    · obtain ⟨q₁, e, q₂, rfl, h₁, h₂⟩ := ih hd hfull
      exact ⟨d::q₁, e, q₂, rfl, h₁, h₂⟩

theorem calls_split (calls : List Call) (hmore : ¬Full n g)
    (hfull : Full n (g.notes (calls.flatMap (·.queue)))) :
    ∃ before c after q₁ d q₂, calls = before++c::after ∧ c.queue = q₁++d::q₂ ∧
      ¬Full n (g.notes (before.flatMap (·.queue)++q₁)) ∧
      Full n (g.notes (before.flatMap (·.queue)++q₁++[d])) := by
  induction calls generalizing g with
  | nil => exact absurd hfull hmore
  | cons c calls ih =>
    by_cases hc : Full n (g.notes c.queue)
    · obtain ⟨q₁, d, q₂, hq, h₁, h₂⟩ := queue_splits c.queue hmore hc
      exact ⟨[], c, calls, q₁, d, q₂, rfl, hq, h₁, h₂⟩
    have hnotes : ∀ q, g.notes (c.queue++q) = (g.notes c.queue).notes q := by
      simp [Progress.notes]
    rw [List.flatMap_cons, hnotes] at hfull
    obtain ⟨before, e, after, q₁, d, q₂, rfl, hq, h₁, h₂⟩ := ih hc hfull
    refine ⟨c::before, e, after, q₁, d, q₂, rfl, hq, ?_, ?_⟩
    · rw [List.flatMap_cons, List.append_assoc, hnotes]
      exact h₁
    · rw [List.flatMap_cons, List.append_assoc, List.append_assoc, hnotes, ← List.append_assoc]
      exact h₂

theorem mem_notes (q : List Delivery) : i ∈ (g.notes q).seen ↔ i ∈ g.seen ∨ ∃ d ∈ q, d.idx = i := by
  induction q generalizing g with
  | nil => simp [Progress.notes]
  | cons d q ih =>
    have hcons : g.notes (d::q) = (g.note d).notes q := rfl
    rw [hcons, ih, mem_note]
    simp only [List.mem_cons, exists_eq_or_imp, eq_comm (a := i)]
    tauto

theorem inTime_append {before l : List Call} (h : InTime n g (before++l)) :
    InTime n g before ∧ InTime n (g.notes (before.flatMap (·.queue))) l := by
  induction before generalizing g with
  | nil => exact ⟨trivial, h⟩
  | cons c before ih =>
    obtain ⟨h₁, h₂⟩ := ih h.2
    refine ⟨⟨h.1, h₁⟩, ?_⟩
    have hnotes : g.notes ((c::before).flatMap (·.queue)) =
        (g.notes c.queue).notes (before.flatMap (·.queue)) := by
      simp [Progress.notes]
    rw [hnotes]
    exact h₂

/-- The calls split at the delivery of the last missing fragment: those before return nothing,
and the call at hand returns the payload there. -/
def ReturnedWhenFull (s : Sender) (p : Bytes) (port : UInt16) (ramMb : ℕ) (calls : List Call) :
    Prop :=
  ∃ before c after q₁ d q₂ rx, calls = before++c::after ∧ c.queue = q₁++d::q₂ ∧
    ¬Full (framesOf s p port).length (Progress.start.notes (before.flatMap (·.queue)++q₁)) ∧
    Full (framesOf s p port).length (Progress.start.notes (before.flatMap (·.queue)++q₁++[d])) ∧
    recvCalls (framesOf s p port) ramMb port (before++[c]) Rx.new =
      .ok (before.map (fun _ => (none, []))++
        [(some p, q₂.map (·.incoming (framesOf s p port)))], rx)

theorem fragments_round_trip (s : Sender) (p : Bytes) (port : UInt16) (ramMb : ℕ) (hp : Cut p)
    (hsent : (s.sendFragmented broadcastMac p port).2.1 = true)
    (hram : p.length ≤ fragReassemblyBudgetBytes ramMb) (calls : List Call)
    (hown : ∀ c ∈ calls, ∀ d ∈ c.queue, d.idx < (framesOf s p port).length)
    (hall : ∀ i < (framesOf s p port).length, ∃ c ∈ calls, ∃ d ∈ c.queue, d.idx = i)
    (htime : InTime (framesOf s p port).length Progress.start calls) :
    ReturnedWhenFull s p port ramMb calls := by
  rw [ReturnedWhenFull]
  rw [framesOf_length hp hsent] at *
  have hstart : ¬Full (parts p) Progress.start := by
    intro hf
    have hpos : 0 < parts p := by
      by_contra h0
      have := (pieceCount_le_iff (by decide) _ _).mp (Nat.le_of_not_lt h0)
      have := hp.1
      simp only [fragDirectMax] at this
      omega
    simpa [Progress.start] using hf 0 hpos
  have hfull : Full (parts p) (Progress.start.notes (calls.flatMap (·.queue))) := by
    intro i hi
    obtain ⟨c, hc, d, hd, hidx⟩ := hall i hi
    exact (mem_notes _).mpr (.inr ⟨d, List.mem_flatMap.mpr ⟨c, hc, hd⟩, hidx⟩)
  obtain ⟨before, c, after, q₁, d, q₂, rfl, hq, h₁, h₂⟩ := calls_split calls hstart hfull
  obtain ⟨htime₁, htime₂⟩ := inTime_append htime
  have hnotes : ∀ q, Progress.start.notes (before.flatMap (·.queue)++q) =
      (Progress.start.notes (before.flatMap (·.queue))).notes q := by
    simp [Progress.notes]
  have hmore : ¬Full (parts p) (Progress.start.notes (before.flatMap (·.queue))) := by
    intro hf
    rw [hnotes] at h₁
    exact h₁ (full_notes q₁ hf)
  obtain ⟨rx, hrx, hcalls⟩ := calls_collect hp hsent hram before
    (fun e he => hown e (by simp [he]))
    (show Tracks s p Progress.start Rx.new from ⟨none, rfl, .inl ⟨rfl, rfl⟩⟩) htime₁ hmore
  obtain ⟨rx', hlast⟩ := call_completes hp hsent hram hq (hown c (by simp)) hrx
    (fun hne => htime₂.1 hne hmore) (by rw [← hnotes]; exact h₁)
    (by rw [← hnotes, ← List.append_assoc]; exact h₂)
  refine ⟨before, c, after, q₁, d, q₂, rx', rfl, hq, h₁, h₂, hcalls [c] _ rx' ?_⟩
  rw [recvCalls, hlast, ok_bind]
  rfl

def lateCalls : List Call := [⟨5, [⟨1, 4⟩, ⟨1, 5⟩]⟩, ⟨2000, [⟨0, 7⟩, ⟨1, 8⟩]⟩]

theorem lateCalls_returned : Cut (message 1) ∧
    InTime (framesOf (node 0) (message 1) 42069).length Progress.start lateCalls ∧
    ReturnedWhenFull (node 0) (message 1) 42069 0 lateCalls := by
  have hp : Cut (message 1) := by decide +kernel
  have hlen : (framesOf (node 0) (message 1) 42069).length = 2 := by decide +kernel
  have htime : InTime (framesOf (node 0) (message 1) 42069).length Progress.start lateCalls := by
    rw [hlen]
    exact ⟨by decide, by decide, trivial⟩
  refine ⟨hp, htime, fragments_round_trip (node 0) (message 1) 42069 0 hp (by decide +kernel)
    (by decide +kernel) lateCalls ?_ ?_ htime⟩
  · rw [hlen]
    decide
  · rw [hlen]
    decide

end NeuralOs.Mesh.FragmentRoundTrip
