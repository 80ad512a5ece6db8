import NeuralOs.Lib.Machine
import NeuralOs.Mesh.LargeMessage

/-!
# Interleaved messages

The chunks of several large messages arrive in any order, each as often as the
network likes. As long as at most four messages are under way at a time and none of
them waits too long, each message is handed on once, as it was sent.
-/

set_option autoImplicit false

namespace NeuralOs.Mesh.Interleaving
open ByteString Checked Pieces SlotTable Machine Chunk LargeMessage

/-- A message of 2 to 59 chunks. -/
structure Message where
  source : UInt8
  msgId : UInt32
  payload : Bytes
  large : chunkDataMax < payload.length
  small : payload.length ≤ 59*chunkDataMax

def Message.key (m : Message) : UInt8 × ℕ := (m.source, m.msgId.toNat)

def Message.packets (m : Message) : List Bytes :=
  (meshSendLarge (fun _ => true) m.msgId m.payload).2

structure Delivery (ι : Type) where
  msg : ι
  seq : ℕ
  now : UInt64

/-- Which packets of each message have come, and when the last of them did. -/
structure Progress (ι : Type) where
  got : ι → Finset ℕ
  last : ι → UInt64

variable {ι : Type} [DecidableEq ι]

def Progress.start : Progress ι := ⟨fun _ => ∅, fun _ => 0⟩

def Progress.deliver (g : Progress ι) (d : Delivery ι) : Progress ι :=
  ⟨Function.update g.got d.msg (insert d.seq (g.got d.msg)), Function.update g.last d.msg d.now⟩

variable (ms : ι → Message)

def Complete (g : Progress ι) (m : ι) : Prop := ∀ i < (ms m).packets.length, i ∈ g.got m

instance decidableComplete (g : Progress ι) (m : ι) : Decidable (Complete ms g m) :=
  inferInstanceAs (Decidable (∀ i < _, i ∈ _))

def Open (g : Progress ι) (m : ι) : Prop := (g.got m).Nonempty ∧ ¬Complete ms g m

/-- The packet belongs to a message that is not complete, no message under way has waited
longer than the timeout, and at most four are under way afterwards. -/
structure Fair (g : Progress ι) (d : Delivery ι) : Prop where
  packet : d.seq < (ms d.msg).packets.length
  incomplete : ¬Complete ms g d.msg
  timely : ∀ m, Open ms g m → (d.now-g.last m).toNat ≤ chunkTimeoutTicks
  few : ∀ s : Finset ι, (∀ m ∈ s, Open ms (g.deliver d) m) → s.card ≤ 4

def reassembleAll : List (Delivery ι) → Slots ChunkSlot →
    Run (List (Option Bytes) × Slots ChunkSlot)
  | [], t => .ok ([], t)
  | d::l, t => do
    let (o, t) ← chunkReassemble (ms d.msg).source ((ms d.msg).packets.getD d.seq []) d.now t
    let (os, t) ← reassembleAll l t
    .ok (o::os, t)

def returned (m : ι) (run : List (Delivery ι)) (os : List (Option Bytes)) : List Bytes :=
  ((run.zip os).filter fun p => p.1.msg = m).filterMap Prod.snd

/-! ### The packets of a message -/

variable {ms} {g : Progress ι} {d : Delivery ι} {t : Slots ChunkSlot} {m : ι}

theorem packets_eq (m : Message) :
    m.packets = (List.range (total m.payload)).map (chunkBody m.msgId m.payload) := by
  rw [Message.packets, meshSendLarge, if_neg (Nat.not_le.mpr m.large)]
  simp

@[simp] theorem packets_length (m : Message) : m.packets.length = total m.payload := by
  simp [packets_eq]

theorem one_lt_total (m : Message) : 1 < total m.payload := by
  by_contra h
  have := (pieceCount_le_iff (by decide) _ _).mp (Nat.le_of_not_lt h)
  have := m.large
  omega

theorem reassemble_packet (m : Message) {i : ℕ} (hi : i < m.packets.length) (now : UInt64)
    (t : Slots ChunkSlot) : chunkReassemble m.source (m.packets.getD i []) now t =
      insertChunk m.source ⟨m.msgId.toNat, i, total m.payload, piece chunkDataMax m.payload i⟩ now
        (sweep (·.expired now) t) := by
  rw [packets_length] at hi
  have hpacket : m.packets.getD i [] = chunkBody m.msgId m.payload i := by
    simp [packets_eq, List.getD, hi]
  rw [chunkReassemble, hpacket, readChunk_own m.msgId m.small hi]
  rfl

/-! ### The table -/

def slotOf (ms : ι → Message) (g : Progress ι) (m : ι) : ChunkSlot :=
  ⟨(ms m).source, (ms m).msgId.toNat, total (ms m).payload, g.last m,
    gathered (ms m).payload (g.got m)⟩

structure Tracks (ms : ι → Message) (g : Progress ι) (t : Slots ChunkSlot) : Prop where
  size : t.length = 4
  distinct : Distinct slotKey t
  slots : ∀ s, s ∈ entries t ↔ ∃ m, Open ms g m ∧ s = slotOf ms g m

omit [DecidableEq ι] in
theorem tracks_start : Tracks ms Progress.start (vacant 4) := by
  refine ⟨by simp [vacant], distinct_vacant 4, fun s => ?_⟩
  simp [Open, Progress.start]

theorem deliver_other (h : m ≠ d.msg) : (g.deliver d).got m = g.got m ∧
    (g.deliver d).last m = g.last m :=
  ⟨Function.update_of_ne h _ _, Function.update_of_ne h _ _⟩

theorem complete_other (h : m ≠ d.msg) : Complete ms (g.deliver d) m ↔ Complete ms g m := by
  rw [Complete, Complete, (deliver_other h).1]

theorem open_other (h : m ≠ d.msg) : Open ms (g.deliver d) m ↔ Open ms g m := by
  rw [Open, Open, (deliver_other h).1, complete_other h]

theorem slotOf_other (h : m ≠ d.msg) : slotOf ms (g.deliver d) m = slotOf ms g m := by
  rw [slotOf, slotOf, (deliver_other h).1, (deliver_other h).2]

theorem slotOf_self : slotOf ms (g.deliver d) d.msg =
    ⟨(ms d.msg).source, (ms d.msg).msgId.toNat, total (ms d.msg).payload, d.now,
      gathered (ms d.msg).payload (insert d.seq (g.got d.msg))⟩ := by
  simp [slotOf, Progress.deliver]

theorem complete_self : Complete ms (g.deliver d) d.msg ↔
    ∀ i < total (ms d.msg).payload, i ∈ insert d.seq (g.got d.msg) := by
  simp [Complete, Progress.deliver]

theorem open_self : Open ms (g.deliver d) d.msg ↔ ¬Complete ms (g.deliver d) d.msg := by
  refine and_iff_right ⟨d.seq, ?_⟩
  simp [Progress.deliver]

omit [DecidableEq ι] in
theorem Tracks.lookup_open (h : Tracks ms g t) (hm : Open ms g m) :
    lookup slotKey (ms m).key t = some (slotOf ms g m) :=
  h.distinct.lookup_mem ((h.slots _).mpr ⟨m, hm, rfl⟩)

section Keys

variable (hkeys : Function.Injective fun i => (ms i).key)
include hkeys

theorem Tracks.next (h : Tracks ms g t) {t' : Slots ChunkSlot} (hsize : t'.length = t.length)
    (hdist : Distinct slotKey t')
    (hslots : ∀ s, s ∈ entries t' ↔
      (Open ms (g.deliver d) d.msg ∧ s = slotOf ms (g.deliver d) d.msg) ∨
      (s ∈ entries t ∧ slotKey s ≠ (ms d.msg).key)) : Tracks ms (g.deliver d) t' := by
  refine ⟨hsize.trans h.size, hdist, fun s => ?_⟩
  rw [hslots, h.slots]
  constructor
  · rintro (hs | ⟨⟨m, hm, rfl⟩, hne⟩)
    · exact ⟨d.msg, hs⟩
    · have hmd : m ≠ d.msg := by
        rintro rfl
        exact hne rfl
      exact ⟨m, (open_other hmd).mpr hm, (slotOf_other hmd).symm⟩
  · rintro ⟨m, hm, rfl⟩
    by_cases hmd : m = d.msg
    · subst hmd
      exact .inl ⟨hm, rfl⟩
    · refine .inr ⟨⟨m, (open_other hmd).mp hm, slotOf_other hmd⟩, fun hk => hmd (hkeys ?_)⟩
      rw [slotOf_other hmd] at hk
      exact hk

omit [DecidableEq ι] in
theorem Tracks.lookup_closed (h : Tracks ms g t) (hm : ¬Open ms g m) :
    lookup slotKey (ms m).key t = none := by
  refine lookup_eq_none.mpr fun s hs hk => ?_
  obtain ⟨m', hm', rfl⟩ := (h.slots s).mp hs
  exact hm (hkeys hk ▸ hm')

end Keys

theorem Tracks.card (h : Tracks ms g t) :
    ∃ s : Finset ι, (∀ m ∈ s, Open ms g m) ∧ s.card = (entries t).length := by
  have hlist : ∀ l : List ChunkSlot, (∀ s ∈ l, ∃ m, Open ms g m ∧ s = slotOf ms g m) →
      ∃ l' : List ι, l = l'.map (slotOf ms g) ∧ ∀ m ∈ l', Open ms g m := by
    intro l hl
    induction l with
    | nil => exact ⟨[], rfl, by simp⟩
    | cons s l ih =>
      obtain ⟨m, hm, rfl⟩ := hl s (by simp)
      obtain ⟨l', rfl, hl'⟩ := ih fun s hs => hl s (by simp [hs])
      exact ⟨m::l', rfl, by simpa using ⟨hm, hl'⟩⟩
  obtain ⟨l, hl, hopen⟩ := hlist (entries t) fun s hs => (h.slots s).mp hs
  have hnodup : l.Nodup := by
    have := h.distinct
    rw [Distinct, hl, List.map_map] at this
    exact this.of_map
  refine ⟨l.toFinset, fun m hm => hopen m (by simpa using hm), ?_⟩
  rw [List.toFinset_card_of_nodup hnodup, hl, List.length_map]

theorem Tracks.free (h : Tracks ms g t) (hd : Fair ms g d) (hnew : ¬Open ms g d.msg)
    (hopen : Open ms (g.deliver d) d.msg) : none ∈ t := by
  obtain ⟨s, hs, hcard⟩ := h.card
  have hout : d.msg ∉ s := fun hin => hnew (hs _ hin)
  have := hd.few (insert d.msg s) fun m hm => by
    by_cases hmd : m = d.msg
    · subst hmd
      exact hopen
    · exact (open_other hmd).mpr (hs m (Finset.mem_of_mem_insert_of_ne hm hmd))
  rw [Finset.card_insert_of_notMem hout] at this
  exact free_iff.mpr (by rw [h.size]; omega)

/-! ### One packet -/

theorem Tracks.unswept (h : Tracks ms g t) (hd : Fair ms g d) : sweep (·.expired d.now) t = t := by
  refine sweep_none fun s hs => ?_
  obtain ⟨m, hm, rfl⟩ := (h.slots s).mp hs
  exact decide_eq_false (Nat.not_lt.mpr (hd.timely m hm))

/-- What the receiver does with a packet: it returns the message if that is complete now. -/
def Answers (ms : ι → Message) (g : Progress ι) (d : Delivery ι) (t : Slots ChunkSlot) : Prop :=
  ∃ t', chunkReassemble (ms d.msg).source ((ms d.msg).packets.getD d.seq []) d.now t =
    .ok (if Complete ms (g.deliver d) d.msg then some (ms d.msg).payload else none, t') ∧
    Tracks ms (g.deliver d) t'

section Step

variable (hkeys : Function.Injective fun i => (ms i).key)
include hkeys

theorem first_packet (h : Tracks ms g t) (hd : Fair ms g d) (hnew : g.got d.msg = ∅) :
    Answers ms g d t := by
  have hclosed : ¬Open ms g d.msg := fun ho => by simpa [hnew] using ho.1
  -- another packet of the message is missing
  have hmore : ¬Complete ms (g.deliver d) d.msg := by
    rw [complete_self, hnew]
    intro hall
    have htwo := one_lt_total (ms d.msg)
    have h₀ := hall 0 (by omega)
    have h₁ := hall 1 htwo
    simp at h₀ h₁
    omega
  have hopen := open_self.mpr hmore
  have hfree := h.free hd hclosed hopen
  have hlook := h.lookup_closed hkeys hclosed
  have hi := hd.packet
  rw [packets_length] at hi
  have hchunks : (List.replicate (total (ms d.msg).payload) none).set d.seq
      (some (piece chunkDataMax (ms d.msg).payload d.seq)) =
        gathered (ms d.msg).payload (insert d.seq (g.got d.msg)) := by
    rw [hnew, ← gathered_empty, gathered_set]
  refine ⟨fill (slotOf ms (g.deliver d) d.msg) t, ?_, h.next hkeys (by simp) ?_ fun s => ?_⟩
  · rw [Message.key] at hlook
    rw [reassemble_packet _ hd.packet, h.unswept hd, insertChunk, hlook, if_neg hmore, slotOf_self]
    simp only [placeChunk, List.length_replicate, if_pos hi, hchunks, ok_bind]
  · exact h.distinct.fill hlook
  rw [mem_entries_fill hfree]
  have hkey : ∀ s ∈ entries t, slotKey s ≠ (ms d.msg).key := lookup_eq_none.mp hlook
  constructor
  · rintro (rfl | hs)
    · exact .inl ⟨hopen, rfl⟩
    · exact .inr ⟨hs, hkey s hs⟩
  · rintro (⟨-, rfl⟩ | ⟨hs, -⟩)
    · exact .inl rfl
    · exact .inr hs

theorem next_packet (h : Tracks ms g t) (hd : Fair ms g d) (hopen : Open ms g d.msg) :
    Answers ms g d t := by
  have hlook := h.lookup_open hopen
  have hi := hd.packet
  rw [packets_length] at hi
  obtain ⟨j, hj, hmissing⟩ : ∃ j < total (ms d.msg).payload, j ∉ g.got d.msg := by
    have := hd.incomplete
    rw [Complete, packets_length] at this
    push Not at this
    exact this
  have hroom : ¬chunkSlotMaxBytes <
      ((entries (gathered (ms d.msg).payload (g.got d.msg))).map List.length).sum+
        (piece chunkDataMax (ms d.msg).payload d.seq).length := by
    have hused := gathered_used (ms d.msg).payload hj hmissing
    have hlen : (piece chunkDataMax (ms d.msg).payload d.seq).length ≤ chunkDataMax :=
      piece_length_le d.seq
    have := total_le (ms d.msg).small
    simp only [chunkSlotMaxBytes, chunkDataMax] at *
    omega
  have hinsert : chunkReassemble (ms d.msg).source ((ms d.msg).packets.getD d.seq []) d.now t =
      if (gathered (ms d.msg).payload (insert d.seq (g.got d.msg))).all (·.isSome) then
        .ok (some (entries (gathered (ms d.msg).payload (insert d.seq (g.got d.msg)))).flatten,
          clear slotKey (ms d.msg).key t)
      else .ok (none, modify slotKey (ms d.msg).key
        (fun _ => slotOf ms (g.deliver d) d.msg) t) := by
    rw [Message.key] at hlook ⊢
    rw [reassemble_packet _ hd.packet, h.unswept hd, insertChunk, hlook, slotOf_self]
    simp only [slotOf, ne_eq, not_true_eq_false, if_false, ChunkSlot.used, if_neg hroom,
      placeChunk, gathered_length, if_pos hi, gathered_set, ok_bind]
  by_cases hfull : Complete ms (g.deliver d) d.msg
  · have hall := complete_self.mp hfull
    refine ⟨clear slotKey (ms d.msg).key t, ?_, h.next hkeys (by simp) h.distinct.clear fun s => ?_⟩
    · rw [hinsert, if_pos ((gathered_all _).mpr hall), gathered_join _ hall, if_pos hfull]
    · rw [h.distinct.mem_clear, open_self]
      simp [hfull]
  · have hno : ¬(gathered (ms d.msg).payload (insert d.seq (g.got d.msg))).all (·.isSome) = true :=
      fun hall => hfull (complete_self.mpr ((gathered_all _).mp hall))
    have hdist : Distinct slotKey
        (modify slotKey (ms d.msg).key (fun _ => slotOf ms (g.deliver d) d.msg) t) :=
      h.distinct.modify fun _ _ => rfl
    refine ⟨_, by rw [hinsert, if_neg hno, if_neg hfull], h.next hkeys (by simp) hdist fun s => ?_⟩
    rw [h.distinct.mem_modify hlook, open_self]
    simp [hfull]

theorem packet_answered (h : Tracks ms g t) (hd : Fair ms g d) : Answers ms g d t := by
  by_cases hnew : g.got d.msg = ∅
  · exact first_packet hkeys h hd hnew
  · exact next_packet hkeys h hd ⟨Finset.nonempty_iff_ne_empty.mpr hnew, hd.incomplete⟩

end Step

/-! ### Runs -/

theorem returned_cons (m : ι) (d : Delivery ι) (l : List (Delivery ι)) (o : Option Bytes)
    (os : List (Option Bytes)) :
    returned m (d::l) (o::os) = (if d.msg = m then o.toList else [])++returned m l os := by
  rw [returned, returned, List.zip_cons_cons, List.filter_cons]
  split
  next h =>
    have h' : d.msg = m := by simpa using h
    rw [if_pos h', List.filterMap_cons]
    cases o <;> rfl
  next h =>
    have h' : ¬d.msg = m := by simpa using h
    rw [if_neg h', List.nil_append]

theorem complete_deliver (d : Delivery ι) (h : Complete ms g m) : Complete ms (g.deliver d) m := by
  by_cases hmd : m = d.msg
  · subst hmd
    rw [complete_self]
    intro i hi
    exact Finset.mem_insert_of_mem (h i (by rwa [packets_length]))
  · exact (complete_other hmd).mpr h

theorem complete_run (l : List (Delivery ι)) (h : Complete ms g m) :
    Complete ms (run Progress.deliver g l) m := by
  induction l generalizing g with
  | nil => exact h
  | cons d l ih => exact ih (complete_deliver d h)

theorem run_answered (hkeys : Function.Injective fun i => (ms i).key) (l : List (Delivery ι))
    (h : Tracks ms g t) (hl : Along Progress.deliver (Fair ms) g l) :
    ∃ os t', reassembleAll ms l t = .ok (os, t') ∧ ∀ m, returned m l os =
      if ¬Complete ms g m ∧ Complete ms (run Progress.deliver g l) m then [(ms m).payload]
      else [] := by
  induction l generalizing g t with
  | nil =>
    refine ⟨[], t, rfl, fun m => ?_⟩
    rw [if_neg fun hc => hc.1 hc.2]
    rfl
  | cons d l ih =>
    obtain ⟨hd, hl⟩ := hl
    obtain ⟨t₁, hstep, h₁⟩ := packet_answered hkeys h hd
    obtain ⟨os, t₂, hrest, hret⟩ := ih h₁ hl
    refine ⟨(if Complete ms (g.deliver d) d.msg then some (ms d.msg).payload else none)::os, t₂, ?_,
      fun m => ?_⟩
    · rw [reassembleAll, hstep, ok_bind]
      simp only [hrest, ok_bind]
    rw [returned_cons, hret m, run]
    by_cases hmd : d.msg = m
    · subst hmd
      rw [if_pos rfl]
      by_cases hnow : Complete ms (g.deliver d) d.msg
      · simp [hnow, hd.incomplete, complete_run l hnow]
      · simp [hnow, hd.incomplete]
    · rw [if_neg hmd, List.nil_append]
      simp only [complete_other (Ne.symm hmd)]

theorem interleaved_messages (ms : ι → Message)
    (hkeys : Function.Injective fun i => ((ms i).source, (ms i).msgId))
    (l : List (Delivery ι)) (hl : Along Progress.deliver (Fair ms) Progress.start l) :
    ∃ os t, reassembleAll ms l (vacant 4) = .ok (os, t) ∧ ∀ m, returned m l os =
      if Complete ms (run Progress.deliver Progress.start l) m then [(ms m).payload] else [] := by
  have hkeys' : Function.Injective fun i => (ms i).key := by
    intro i j hij
    obtain ⟨hs, hid⟩ := Prod.mk.inj hij
    exact hkeys (Prod.ext hs (UInt32.toNat_inj.mp hid))
  obtain ⟨os, t, hrun, hret⟩ := run_answered hkeys' l tracks_start hl
  refine ⟨os, t, hrun, fun m => ?_⟩
  have hnone : ¬Complete ms Progress.start m := by
    intro hall
    have htwo := one_lt_total (ms m)
    simpa [Progress.start] using hall 0 (by rw [packets_length]; omega)
  rw [hret m]
  simp [hnone]

def pair (i : Fin 2) : Message :=
  ⟨UInt8.ofNat i, 7, List.replicate 1101 (UInt8.ofNat i), by rw [List.length_replicate]; decide,
    by rw [List.length_replicate]; decide⟩

def pairRun : List (Delivery (Fin 2)) :=
  [⟨⟨0, Nat.zero_lt_two⟩, 1, 0⟩, ⟨⟨1, Nat.one_lt_two⟩, 1, 3⟩, ⟨⟨1, Nat.one_lt_two⟩, 1, 5⟩, ⟨⟨0, Nat.zero_lt_two⟩, 0, 9⟩,
   ⟨⟨1, Nat.one_lt_two⟩, 0, 10⟩]

theorem pair_timely {g : Progress (Fin 2)} {now : UInt64}
    (h : ∀ m, (now-g.last m).toNat ≤ chunkTimeoutTicks) :
    ∀ m, Open pair g m → (now-g.last m).toNat ≤ chunkTimeoutTicks := fun m _ => h m

theorem interleaved_pair : Along Progress.deliver (Fair pair) Progress.start pairRun ∧
    ∃ os t, reassembleAll pair pairRun (vacant 4) = .ok (os, t) ∧ ∀ m, returned m pairRun os =
      if Complete pair (run Progress.deliver Progress.start pairRun) m then [(pair m).payload]
      else [] := by
  have hrun : Along Progress.deliver (Fair pair) Progress.start pairRun := by
    refine ⟨?_, ?_, ?_, ?_, ?_, trivial⟩ <;>
      exact ⟨by decide +kernel, by decide +kernel, pair_timely (by decide +kernel),
        fun s _ => (Finset.card_le_univ s).trans (by decide)⟩
  exact ⟨hrun, interleaved_messages pair (by decide) pairRun hrun⟩

end NeuralOs.Mesh.Interleaving
