import NeuralOs.Lib.Checked
import NeuralOs.Lib.SlotTable

/-!
# Large messages

A message whose packets all arrive is handed on as it was sent. The chunks may
come in any order and more than once, between packets of other messages and
other senders.
-/

set_option autoImplicit false

namespace NeuralOs.Mesh.Chunk
open ByteString Checked Pieces SlotTable

def chunkDataMax : ℕ := 1100

def chunkSlotMaxBytes : ℕ := 65536

def chunkTimeoutTicks : ℕ := 500

def chkTag : Bytes := [0x43, 0x48, 0x4B, 0x00]

def roleTag : Bytes := [0x52, 0x4F, 0x4C, 0x45, 0x00]

/-! ### Sending -/

def chunkBody (msgId : UInt32) (payload : Bytes) (seq : ℕ) : Bytes :=
  chkTag ++ toLe 4 msgId.toNat ++ toLe 2 seq ++
    toLe 2 (pieceCount chunkDataMax payload.length) ++ piece chunkDataMax payload seq

/-- The payloads of the packets that are sent for a message; `send` says which of them
could be signed and sent. -/
def meshSendLarge (send : Bytes → Bool) (msgId : UInt32) (payload : Bytes) :
    Bool × List Bytes :=
  if payload.length ≤ chunkDataMax then (send payload, [payload].filter send)
  else
    let bodies := (List.range (pieceCount chunkDataMax payload.length)).map
      (chunkBody msgId payload)
    (bodies.all send, bodies.filter send)

/-! ### Receiving -/

structure ChunkSlot where
  source : UInt8
  msgId : ℕ
  total : ℕ
  lastSeen : UInt64
  chunks : List (Option Bytes)
  deriving DecidableEq

structure Chunk where
  msgId : ℕ
  seq : ℕ
  total : ℕ
  data : Bytes
  deriving DecidableEq

/-- The header of a chunk; `none` for a chunk that is dropped. -/
def readChunk (payload : Bytes) : Run (Option Chunk) :=
  if payload.length < 12 then .ok none
  else do
    let tag ← sub payload 0 4
    if tag ≠ chkTag then .ok none
    else do
      let msgId ← sub payload 4 8
      let seq ← sub payload 8 10
      let total ← sub payload 10 12
      let data ← sub payload 12 payload.length
      let c : Chunk := ⟨fromLe msgId, fromLe seq, fromLe total, data⟩
      if c.total = 0 ∨ c.total ≤ c.seq ∨ chunkDataMax < c.data.length ∨
          chunkSlotMaxBytes < c.total*chunkDataMax then .ok none
      else .ok (some c)

def slotKey (s : ChunkSlot) : UInt8 × ℕ := (s.source, s.msgId)

def ChunkSlot.expired (now : UInt64) (s : ChunkSlot) : Bool :=
  chunkTimeoutTicks < (now-s.lastSeen).toNat

def ChunkSlot.used (s : ChunkSlot) : ℕ := ((entries s.chunks).map List.length).sum

def placeChunk (chunks : List (Option Bytes)) (seq : ℕ) (data : Bytes) :
    Run (List (Option Bytes)) :=
  if seq < chunks.length then .ok (chunks.set seq (some data)) else .error .panic

/-- A chunk that meets no slot of its message opens one and is never the last. -/
def insertChunk (sid : UInt8) (c : Chunk) (now : UInt64) (t : Slots ChunkSlot) :
    Run (Option Bytes × Slots ChunkSlot) :=
  match lookup slotKey (sid, c.msgId) t with
  | none => do
    let chunks ← placeChunk (List.replicate c.total none) c.seq c.data
    .ok (none, fill ⟨sid, c.msgId, c.total, now, chunks⟩ t)
  | some slot =>
    let slot := if slot.total ≠ c.total then
      { slot with chunks := List.replicate c.total none, total := c.total } else slot
    if chunkSlotMaxBytes < slot.used+c.data.length then
      .ok (none, clear slotKey (sid, c.msgId) t)
    else do
      let chunks ← placeChunk slot.chunks c.seq c.data
      if chunks.all (·.isSome) then
        .ok (some (entries chunks).flatten, clear slotKey (sid, c.msgId) t)
      else
        .ok (none, modify slotKey (sid, c.msgId)
          (fun _ => { slot with chunks := chunks, lastSeen := now }) t)

def chunkReassemble (sid : UInt8) (payload : Bytes) (now : UInt64) (t : Slots ChunkSlot) :
    Run (Option Bytes × Slots ChunkSlot) := do
  let c ← readChunk payload
  match c with
  | none => .ok (none, t)
  | some c => insertChunk sid c now (sweep (·.expired now) t)

def acceptSync (sid : UInt8) (payload : Bytes) (now : UInt64) (t : Slots ChunkSlot) :
    Run (Option Bytes × Slots ChunkSlot) :=
  if roleTag.isPrefixOf payload then .ok (none, t)
  else if chkTag.isPrefixOf payload then chunkReassemble sid payload now t
  else .ok (some payload, t)

/-! ### Safety -/

variable {t : Slots ChunkSlot} (sid : UInt8) (payload : Bytes) (now : UInt64)

def Sound (t : Slots ChunkSlot) : Prop := ∀ s ∈ entries t, s.chunks.length = s.total

theorem sound_vacant (n : ℕ) : Sound (vacant n) := by simp [Sound]

theorem Sound.sweep {p : ChunkSlot → Bool} (h : Sound t) : Sound (sweep p t) :=
  fun s hs => h s (mem_entries_sweep.mp hs).1

theorem Sound.clear {k : UInt8 × ℕ} (h : Sound t) : Sound (clear slotKey k t) :=
  fun s hs => h s (mem_entries_clear hs)

theorem readChunk_total : ∃ o, readChunk payload = .ok o ∧
    ∀ c, o = some c → c.seq < c.total ∧ c.data.length ≤ chunkDataMax ∧
      c.total*chunkDataMax ≤ chunkSlotMaxBytes := by
  rw [readChunk]
  split
  · exact ⟨none, rfl, by simp⟩
  rw [sub_eq (by omega) (by omega), ok_bind]
  split
  · exact ⟨none, rfl, by simp⟩
  rw [sub_eq (by omega) (by omega), ok_bind, sub_eq (by omega) (by omega), ok_bind,
    sub_eq (by omega) (by omega), ok_bind, sub_eq (by omega) (by omega), ok_bind]
  dsimp only
  split
  · exact ⟨none, rfl, by simp⟩
  next h =>
    refine ⟨_, rfl, fun c hc => ?_⟩
    obtain rfl := Option.some.inj hc
    push Not at h
    exact ⟨h.2.1, h.2.2.1, h.2.2.2⟩

theorem placed_length (l : List (Option Bytes)) (i : ℕ) (d : Bytes) :
    (entries (l.set i (some d))).flatten.length ≤ ((entries l).map List.length).sum+d.length := by
  rw [List.length_flatten]
  induction l generalizing i with
  | nil => simp [entries]
  | cons o l ih =>
    cases i with
    | zero => cases o <;> simp <;> omega
    | succ i =>
      have := ih i
      cases o with
      | none => simpa using this
      | some b =>
        simp only [List.set_cons_succ, entries_some, List.map_cons, List.sum_cons]
        omega

theorem insertChunk_total {c : Chunk} (hs : Sound t) (hc : c.seq < c.total) :
    ∃ o t', insertChunk sid c now t = .ok (o, t') ∧ Sound t' ∧
      (∀ k, k ≠ (sid, c.msgId) → lookup slotKey k t' = lookup slotKey k t) ∧
      ∀ out, o = some out → out.length ≤ chunkSlotMaxBytes := by
  rw [insertChunk]
  split
  next hnone =>
    rw [placeChunk, if_pos (by simpa using hc), ok_bind]
    refine ⟨none, _, rfl, fun s hmem => ?_, fun k hk => ?_, by simp⟩
    · rcases mem_entries_fill_sub hmem with rfl | hmem
      · simp
      · exact hs s hmem
    · exact lookup_fill_other (Ne.symm hk)
  next slot hslot =>
    set slot' := if slot.total ≠ c.total then
      { slot with chunks := List.replicate c.total none, total := c.total } else slot with hslot'
    have hkey : slotKey slot' = (sid, c.msgId) := by
      have := lookup_key hslot
      rw [hslot']
      split
      · exact this
      · exact this
    have hlen : slot'.chunks.length = c.total ∧ slot'.total = c.total := by
      rw [hslot']
      split
      · simp
      next h =>
        push Not at h
        exact ⟨(hs slot (lookup_mem hslot)).trans h, h⟩
    dsimp only
    split
    · exact ⟨none, _, rfl, hs.clear, fun k hk => lookup_clear_other hk, by simp⟩
    next hroom =>
      rw [placeChunk, if_pos (by omega), ok_bind]
      split
      next hall =>
        refine ⟨_, _, rfl, hs.clear, fun k hk => lookup_clear_other hk, fun out hout => ?_⟩
        obtain rfl := Option.some.inj hout
        exact (placed_length _ _ _).trans (by rw [ChunkSlot.used] at hroom; omega)
      next hsome =>
        refine ⟨none, _, rfl, fun s hmem => ?_, fun k hk => ?_, by simp⟩
        · rcases mem_entries_modify hmem with hmem | ⟨-, -, -, rfl⟩
          · exact hs s hmem
          · simp [hlen]
        · exact lookup_modify_other hk fun _ _ => hkey

theorem chunkReassemble_total (hs : Sound t) :
    ∃ o t', chunkReassemble sid payload now t = .ok (o, t') ∧ Sound t' ∧
      ∀ out, o = some out → out.length ≤ chunkSlotMaxBytes := by
  obtain ⟨o, ho, hc⟩ := readChunk_total payload
  rw [chunkReassemble, ho, ok_bind]
  cases o with
  | none => exact ⟨none, t, rfl, hs, by simp⟩
  | some c =>
    obtain ⟨o, t', h, hs', -, hout⟩ := insertChunk_total sid now hs.sweep (hc c rfl).1
    exact ⟨o, t', h, hs', hout⟩

theorem acceptSync_total (hs : Sound t) :
    ∃ o t', acceptSync sid payload now t = .ok (o, t') ∧ Sound t' := by
  rw [acceptSync]
  split
  · exact ⟨none, t, rfl, hs⟩
  split
  · obtain ⟨o, t', h, hs', -⟩ := chunkReassemble_total sid payload now hs
    exact ⟨o, t', h, hs'⟩
  · exact ⟨some payload, t, rfl, hs⟩

end NeuralOs.Mesh.Chunk

/-! ## Large messages -/

namespace NeuralOs.Mesh.LargeMessage
open ByteString Checked Pieces SlotTable Chunk

structure Arrival where
  sid : UInt8
  payload : Bytes
  now : UInt64

def receiveAll : List Arrival → Slots ChunkSlot → Run (List (Option Bytes) × Slots ChunkSlot)
  | [], t => .ok ([], t)
  | a :: l, t => do
    let (o, t) ← acceptSync a.sid a.payload a.now t
    let (os, t) ← receiveAll l t
    .ok (o :: os, t)

def chunkId (payload : Bytes) : Option ℕ :=
  match readChunk payload with
  | .ok (some c) => some c.msgId
  | _ => none

def Own (sid : UInt8) (msgId : ℕ) (a : Arrival) : Prop :=
  a.sid = sid ∧ chkTag.isPrefixOf a.payload = true ∧ chunkId a.payload = some msgId

instance (sid : UInt8) (msgId : ℕ) (a : Arrival) : Decidable (Own sid msgId a) :=
  inferInstanceAs (Decidable (_ ∧ _))

/-- While the message is being collected, no packet comes more than the timeout after the
last of its chunks. -/
def Timely (sid : UInt8) (msgId : ℕ) : Option UInt64 → List Arrival → Prop
  | _, [] => True
  | last, a :: l => (∀ x, last = some x → (a.now-x).toNat ≤ chunkTimeoutTicks) ∧
    Timely sid msgId (if Own sid msgId a then some a.now else last) l

def Admitted (sid : UInt8) (msgId : ℕ) : Slots ChunkSlot → List Arrival → Prop
  | _, [] => True
  | t, a :: l =>
    if Own sid msgId a then none ∈ sweep (·.expired a.now) t
    else ∀ o t', acceptSync a.sid a.payload a.now t = .ok (o, t') → Admitted sid msgId t' l

/-- All packets in `sent` reach a receiver that has not seen the message. -/
structure Delivered (sid : UInt8) (msgId : ℕ) (sent : List Bytes) (t : Slots ChunkSlot)
    (run : List Arrival) : Prop where
  sound : Sound t
  fresh : lookup slotKey (sid, msgId) t = none
  only : ∀ a ∈ run, Own sid msgId a → a.payload ∈ sent
  all : ∀ b ∈ sent, ∃ a ∈ run, a.sid = sid ∧ a.payload = b
  timely : Timely sid msgId none run
  admitted : Admitted sid msgId t run

/-- Every message that the sender reports as sent is handed on as it is. -/
def Transmits (payload : Bytes) : Prop :=
  ∀ (send : Bytes → Bool) (sid : UInt8) (msgId : UInt32) (t : Slots ChunkSlot)
    (run : List Arrival), (meshSendLarge send msgId payload).1 = true →
    Delivered sid msgId.toNat (meshSendLarge send msgId payload).2 t run →
    ∃ os t', receiveAll run t = .ok (os, t') ∧ some payload ∈ os

/-- At most 59 chunks, and a payload of one packet does not look like a chunk or a role. -/
def Transmittable (payload : Bytes) : Prop :=
  payload.length ≤ 64900 ∧
    (payload.length ≤ chunkDataMax →
      chkTag.isPrefixOf payload = false ∧ roleTag.isPrefixOf payload = false)

/-! ### Runs -/

variable {sid : UInt8} {msgId : ℕ} {t : Slots ChunkSlot} {a : Arrival} {l : List Arrival}

theorem receiveAll_total (l : List Arrival) (hs : Sound t) :
    ∃ os t', receiveAll l t = .ok (os, t') ∧ Sound t' := by
  induction l generalizing t with
  | nil => exact ⟨[], t, rfl, hs⟩
  | cons a l ih =>
    obtain ⟨o, t₁, h₁, hs₁⟩ := acceptSync_total a.sid a.payload a.now hs
    obtain ⟨os, t₂, h₂, hs₂⟩ := ih hs₁
    exact ⟨o :: os, t₂, by rw [receiveAll, h₁, ok_bind]; simp only [h₂, ok_bind], hs₂⟩

variable {t₁ : Slots ChunkSlot}

theorem receiveAll_cons {o : Option Bytes}
    (h : acceptSync a.sid a.payload a.now t = .ok (o, t₁)) :
    receiveAll (a :: l) t = (do
      let (os, t) ← receiveAll l t₁
      .ok (o :: os, t)) := by
  rw [receiveAll, h, ok_bind]

theorem receiveAll_head {payload : Bytes}
    (h : acceptSync a.sid a.payload a.now t = .ok (some payload, t₁)) (hs : Sound t₁) :
    ∃ os t', receiveAll (a :: l) t = .ok (os, t') ∧ some payload ∈ os := by
  obtain ⟨os, t', h', -⟩ := receiveAll_total l hs
  exact ⟨some payload :: os, t', by rw [receiveAll_cons h, h', ok_bind], by simp⟩

theorem receiveAll_tail {payload : Bytes} {o : Option Bytes}
    (h : acceptSync a.sid a.payload a.now t = .ok (o, t₁))
    (hl : ∃ os t', receiveAll l t₁ = .ok (os, t') ∧ some payload ∈ os) :
    ∃ os t', receiveAll (a :: l) t = .ok (os, t') ∧ some payload ∈ os := by
  obtain ⟨os, t', h', hmem⟩ := hl
  exact ⟨o :: os, t', by rw [receiveAll_cons h, h', ok_bind], by simp [hmem]⟩

theorem acceptSync_other (hs : Sound t) (hown : ¬Own sid msgId a) :
    ∃ o t', acceptSync a.sid a.payload a.now t = .ok (o, t') ∧ Sound t' ∧
      (lookup slotKey (sid, msgId) t = none → lookup slotKey (sid, msgId) t' = none) ∧
      ∀ s, lookup slotKey (sid, msgId) t = some s → s.expired a.now = false →
        lookup slotKey (sid, msgId) t' = some s := by
  rw [acceptSync]
  split
  · exact ⟨none, t, rfl, hs, id, fun s h _ => h⟩
  split
  next hchk =>
    obtain ⟨c, hc, hlt⟩ := readChunk_total a.payload
    rw [chunkReassemble, hc, ok_bind]
    cases c with
    | none => exact ⟨none, t, rfl, hs, id, fun s h _ => h⟩
    | some c =>
      obtain ⟨o, t', h, hs', hother, -⟩ := insertChunk_total a.sid a.now hs.sweep (hlt c rfl).1
      have hk : (sid, msgId) ≠ (a.sid, c.msgId) := by
        intro hk
        obtain ⟨h₁, h₂⟩ := Prod.mk.inj hk
        exact hown ⟨h₁.symm, hchk, by rw [chunkId, hc, h₂]⟩
      refine ⟨o, t', h, hs', fun hnone => ?_, fun s hsome hexp => ?_⟩
      · rw [hother _ hk]
        exact lookup_sweep_none hnone
      · rw [hother _ hk]
        exact lookup_sweep hsome hexp
  · exact ⟨some a.payload, t, rfl, hs, id, fun s h _ => h⟩

/-! ### The chunks of one message -/

section Message

variable (payload : Bytes)

abbrev total : ℕ := pieceCount chunkDataMax payload.length

def gathered (got : Finset ℕ) : List (Option Bytes) :=
  (List.range (total payload)).map fun i =>
    if i ∈ got then some (piece chunkDataMax payload i) else none

@[simp] theorem gathered_length (got : Finset ℕ) :
    (gathered payload got).length = total payload := by
  simp [gathered]

theorem gathered_empty : gathered payload ∅ = List.replicate (total payload) none := by
  simp [gathered]

theorem gathered_set (got : Finset ℕ) (i : ℕ) :
    (gathered payload got).set i (some (piece chunkDataMax payload i)) =
      gathered payload (insert i got) := by
  apply List.ext_getElem
  · simp
  · intro j h₁ h₂
    rw [List.getElem_set]
    split
    next h => simp [gathered, h]
    next h => simp [gathered, Ne.symm h]

theorem gathered_all {got : Finset ℕ} :
    (gathered payload got).all (·.isSome) = true ↔ ∀ i < total payload, i ∈ got := by
  simp only [gathered, List.all_map, List.all_eq_true, List.mem_range, Function.comp_apply]
  refine forall₂_congr fun i _ => ?_
  split <;> simp_all

theorem gathered_join {got : Finset ℕ} (h : ∀ i < total payload, i ∈ got) :
    (entries (gathered payload got)).flatten = payload := by
  have hmap : gathered payload got =
      ((List.range (total payload)).map (piece chunkDataMax payload)).map some := by
    rw [gathered, List.map_map]
    refine List.map_congr_left fun i hi => ?_
    simp [h i (List.mem_range.mp hi)]
  have hentries : ∀ l : List Bytes, entries (l.map some) = l := by
    intro l
    simp [entries]
  rw [hmap, hentries, pieces_join (by decide)]

variable {i j : ℕ}

theorem gathered_used {got : Finset ℕ} (hi : i < total payload) (hgot : i ∉ got) :
    ((entries (gathered payload got)).map List.length).sum+chunkDataMax ≤
      total payload*chunkDataMax := by
  have hfree : none ∈ gathered payload got :=
    List.mem_map.mpr ⟨i, List.mem_range.mpr hi, by simp [hgot]⟩
  have hcount := free_iff.mp hfree
  rw [gathered_length] at hcount
  have hsum : ((entries (gathered payload got)).map List.length).sum ≤
      ((entries (gathered payload got)).map List.length).length • chunkDataMax := by
    refine List.sum_le_card_nsmul _ _ fun x hx => ?_
    obtain ⟨d, hd, rfl⟩ := List.mem_map.mp hx
    obtain ⟨j, -, hj⟩ := List.mem_map.mp (mem_entries.mp hd)
    split at hj
    · exact Option.some.inj hj ▸ piece_length_le j
    · cases hj
  rw [List.length_map, smul_eq_mul] at hsum
  have := Nat.mul_le_mul_right chunkDataMax (Nat.succ_le_of_lt hcount)
  rw [Nat.succ_mul] at this
  omega

theorem readChunk_body (msgId : UInt32) (i : ℕ) :
    readChunk (chunkBody msgId payload i) =
      .ok (if total payload % 65536 = 0 ∨ total payload % 65536 ≤ i % 65536 ∨
          chunkSlotMaxBytes < total payload % 65536*chunkDataMax then none
        else some ⟨msgId.toNat, i % 65536, total payload % 65536,
          piece chunkDataMax payload i⟩) := by
  set d := piece chunkDataMax payload i
  have hbody : chunkBody msgId payload i = chkTag ++ (toLe 4 msgId.toNat ++ (toLe 2 i ++
      (toLe 2 (total payload) ++ d))) := by
    simp [chunkBody, d]
  set w := chunkBody msgId payload i
  have hlen : w.length = 12+d.length := by
    simp [hbody, chkTag]
    omega
  have htag : slice w 0 4 = chkTag := by
    rw [hbody]
    exact slice_whole chkTag _
  have hid : slice w 4 4 = toLe 4 msgId.toNat := by
    rw [hbody]
    exact slice_at chkTag _ _ rfl (by simp)
  have hseq : slice w 8 2 = toLe 2 i := by
    rw [hbody, ← List.append_assoc]
    exact slice_at _ _ _ (by simp [chkTag]) (by simp)
  have htotal : slice w 10 2 = toLe 2 (total payload) := by
    rw [hbody, ← List.append_assoc, ← List.append_assoc]
    exact slice_at _ _ _ (by simp [chkTag]) (by simp)
  have hdata : slice w 12 (w.length-12) = d := by
    have := slice_at (chkTag ++ toLe 4 msgId.toNat ++ toLe 2 i ++ toLe 2 (total payload)) d []
      (o := 12) (n := d.length) (by simp [chkTag]) rfl
    rw [hlen, Nat.add_sub_cancel_left, hbody]
    simpa using this
  have hd : ¬chunkDataMax < d.length := Nat.not_lt.mpr (piece_length_le i)
  have hid' : fromLe (toLe 4 msgId.toNat) = msgId.toNat := by
    rw [fromLe_toLe, Nat.mod_eq_of_lt (by simpa using msgId.toNat_lt)]
  rw [readChunk, if_neg (by omega), sub_eq (by omega) (by omega), ok_bind,
    if_neg (by simp [htag]), sub_eq (by omega) (by omega), ok_bind, sub_eq (by omega) (by omega),
    ok_bind, sub_eq (by omega) (by omega), ok_bind, sub_eq (by omega) (by omega), ok_bind, hid,
    hseq, htotal, hdata, hid', fromLe_toLe, fromLe_toLe, show 256^2 = 65536 from rfl]
  simp only [hd, false_or]
  exact (apply_ite Except.ok _ _ _).symm

/-! ### Collecting -/

def Building (sid : UInt8) (msgId : UInt32) (got : Finset ℕ) (last : UInt64)
    (t : Slots ChunkSlot) : Prop :=
  lookup slotKey (sid, msgId.toNat) t =
    some ⟨sid, msgId.toNat, total payload, last, gathered payload got⟩

/-- No other chunks come under the id of the message, and those not in `got` come. -/
structure Awaited (sid : UInt8) (msgId : UInt32) (got : Finset ℕ) (l : List Arrival) : Prop where
  only : ∀ a ∈ l, Own sid msgId.toNat a → ∃ i < total payload, a.payload = chunkBody msgId payload i
  all : ∀ i < total payload, i ∉ got → ∃ a ∈ l, a.sid = sid ∧ a.payload = chunkBody msgId payload i

variable {payload} {msgId : UInt32} {got : Finset ℕ} {last : UInt64}

theorem body_tags (i : ℕ) : roleTag.isPrefixOf (chunkBody msgId payload i) = false ∧
    chkTag.isPrefixOf (chunkBody msgId payload i) = true := by
  simp [chunkBody, chkTag, roleTag, List.isPrefixOf]

theorem total_le (hlen : payload.length ≤ 64900) : total payload ≤ 59 :=
  (pieceCount_le_iff (by decide) _ _).mpr hlen

theorem readChunk_own (msgId : UInt32) (hlen : payload.length ≤ 64900)
    (hi : i < total payload) : readChunk (chunkBody msgId payload i) =
      .ok (some ⟨msgId.toNat, i, total payload, piece chunkDataMax payload i⟩) := by
  have htotal := total_le hlen
  rw [readChunk_body, Nat.mod_eq_of_lt (show total payload < 65536 by omega),
    Nat.mod_eq_of_lt (show i < 65536 by omega), if_neg (by
      simp only [chunkSlotMaxBytes, chunkDataMax]
      omega)]

theorem acceptSync_body (msgId : UInt32) (hlen : payload.length ≤ 64900) (hi : i < total payload)
    (sid : UInt8) (now : UInt64) (t : Slots ChunkSlot) :
    acceptSync sid (chunkBody msgId payload i) now t =
      insertChunk sid ⟨msgId.toNat, i, total payload, piece chunkDataMax payload i⟩ now
        (sweep (·.expired now) t) := by
  rw [acceptSync, (body_tags i).1, (body_tags i).2, chunkReassemble, readChunk_own msgId hlen hi]
  rfl

theorem first_chunk (hlen : payload.length ≤ 64900) (hs : Sound t)
    (hi : i < total payload) {now : UInt64}
    (hfresh : lookup slotKey (sid, msgId.toNat) t = none)
    (hroom : none ∈ sweep (·.expired now) t) :
    ∃ t', acceptSync sid (chunkBody msgId payload i) now t = .ok (none, t') ∧ Sound t' ∧
      Building payload sid msgId (insert i ∅) now t' := by
  obtain ⟨o, t', h, hs'⟩ := acceptSync_total sid (chunkBody msgId payload i) now hs
  have hnone : lookup slotKey (sid, msgId.toNat) (sweep (·.expired now) t) = none :=
    lookup_sweep_none hfresh
  have hchunks : (List.replicate (total payload) none).set i (some (piece chunkDataMax payload i)) =
      gathered payload (insert i ∅) := by
    rw [← gathered_empty, gathered_set]
  have hinsert := acceptSync_body msgId hlen hi sid now t
  simp only [insertChunk, hnone, placeChunk, List.length_replicate, if_pos hi, hchunks,
    ok_bind] at hinsert
  rw [hinsert] at h
  obtain ⟨rfl, rfl⟩ := Prod.mk.inj (Except.ok.inj h)
  refine ⟨_, hinsert, hs', ?_⟩
  have hself : ∀ s : ChunkSlot, slotKey s = (sid, msgId.toNat) →
      lookup slotKey (slotKey s) (fill s (sweep (·.expired now) t)) = some s := fun s hk =>
    lookup_fill_self (hk ▸ hnone) hroom
  exact hself ⟨sid, msgId.toNat, total payload, now, gathered payload (insert i ∅)⟩ rfl

theorem next_chunk (hlen : payload.length ≤ 64900) (hs : Sound t)
    (hi : i < total payload) (hj : j < total payload) (hmissing : j ∉ got) {now : UInt64}
    (hb : Building payload sid msgId got last t)
    (htime : (now-last).toNat ≤ chunkTimeoutTicks) :
    ∃ o t', acceptSync sid (chunkBody msgId payload i) now t = .ok (o, t') ∧ Sound t' ∧
      ((∀ x < total payload, x ∈ insert i got) → o = some payload) ∧
      ((∃ x < total payload, x ∉ insert i got) →
        Building payload sid msgId (insert i got) now t') := by
  obtain ⟨o, t', h, hs'⟩ := acceptSync_total sid (chunkBody msgId payload i) now hs
  have hslot : lookup slotKey (sid, msgId.toNat) (sweep (·.expired now) t) = _ :=
    lookup_sweep hb (by simpa [ChunkSlot.expired] using htime)
  have hroom : ¬chunkSlotMaxBytes <
      ((entries (gathered payload got)).map List.length).sum+
        (piece chunkDataMax payload i).length := by
    have hused := gathered_used payload hj hmissing
    have hd : (piece chunkDataMax payload i).length ≤ chunkDataMax := piece_length_le i
    have := total_le hlen
    simp only [chunkSlotMaxBytes, chunkDataMax] at *
    omega
  have hinsert := acceptSync_body msgId hlen hi sid now t
  simp only [insertChunk, hslot, ne_eq, not_true_eq_false, if_false, ChunkSlot.used, if_neg hroom,
    placeChunk, gathered_length, if_pos hi, gathered_set, ok_bind] at hinsert
  refine ⟨o, t', h, hs', fun hall => ?_, fun hsome => ?_⟩
  · rw [if_pos ((gathered_all payload).mpr hall), gathered_join payload hall] at hinsert
    rw [hinsert] at h
    exact (Prod.mk.inj (Except.ok.inj h)).1.symm
  have hnot : ¬(gathered payload (insert i got)).all (·.isSome) = true := by
    rw [gathered_all]
    push Not
    exact hsome
  rw [if_neg hnot] at hinsert
  rw [hinsert] at h
  obtain ⟨-, rfl⟩ := Prod.mk.inj (Except.ok.inj h)
  exact lookup_modify_self hslot rfl

theorem body_own (hlen : payload.length ≤ 64900) (hi : i < total payload)
    (h : a.payload = chunkBody msgId payload i) (hsid : a.sid = sid) :
    Own sid msgId.toNat a := by
  exact ⟨hsid, h ▸ (body_tags i).2, by rw [chunkId, h, readChunk_own msgId hlen hi]⟩

theorem body_inj (hlen : payload.length ≤ 64900) (hi : i < total payload)
    (hj : j < total payload) (h : chunkBody msgId payload i = chunkBody msgId payload j) :
    i = j := by
  have hread := readChunk_own msgId hlen hi
  rw [h, readChunk_own msgId hlen hj] at hread
  have := Option.some.inj (Except.ok.inj hread)
  exact (congrArg Chunk.seq this).symm

theorem Awaited.other (hlen : payload.length ≤ 64900) (h : Awaited payload sid msgId got (a :: l))
    (hown : ¬Own sid msgId.toNat a) : Awaited payload sid msgId got l := by
  refine ⟨fun b hb => h.only b (by simp [hb]), fun i hi hout => ?_⟩
  obtain ⟨b, hb, hsid, hpay⟩ := h.all i hi hout
  rcases List.mem_cons.mp hb with rfl | hb
  · exact absurd (body_own hlen hi hpay hsid) hown
  · exact ⟨b, hb, hsid, hpay⟩

theorem Awaited.own (hlen : payload.length ≤ 64900) (h : Awaited payload sid msgId got (a :: l))
    (hi : i < total payload) (hbody : a.payload = chunkBody msgId payload i) :
    Awaited payload sid msgId (insert i got) l := by
  refine ⟨fun b hb => h.only b (by simp [hb]), fun y hy hyout => ?_⟩
  rw [Finset.mem_insert, not_or] at hyout
  obtain ⟨b, hb, hsid, hpay⟩ := h.all y hy hyout.2
  rcases List.mem_cons.mp hb with rfl | hb
  · exact absurd (body_inj hlen hy hi (hpay.symm.trans hbody)) hyout.1
  · exact ⟨b, hb, hsid, hpay⟩

theorem building_completes (hlen : payload.length ≤ 64900) (l : List Arrival) (hs : Sound t)
    (hb : Building payload sid msgId got last t) (hj : j < total payload) (hmissing : j ∉ got)
    (ha : Awaited payload sid msgId got l) (htime : Timely sid msgId.toNat (some last) l) :
    ∃ os t', receiveAll l t = .ok (os, t') ∧ some payload ∈ os := by
  induction l generalizing t got last j with
  | nil =>
    obtain ⟨a, hmem, -⟩ := ha.all j hj hmissing
    simp at hmem
  | cons a l ih =>
    obtain ⟨hnow, htime⟩ := htime
    by_cases hown : Own sid msgId.toNat a
    · rw [if_pos hown] at htime
      obtain ⟨i, hi, hbody⟩ := ha.only a (by simp) hown
      obtain ⟨o, t₁, hstep, hs₁, hdone, hmore⟩ :=
        next_chunk hlen hs hi hj hmissing hb (hnow last rfl)
      rw [← hown.1, ← hbody] at hstep
      by_cases hfull : ∀ x < total payload, x ∈ insert i got
      · exact receiveAll_head (hdone hfull ▸ hstep) hs₁
      push Not at hfull
      obtain ⟨x, hx, hxout⟩ := hfull
      exact receiveAll_tail hstep
        (ih hs₁ (hmore ⟨x, hx, hxout⟩) hx hxout (ha.own hlen hi hbody) htime)
    · rw [if_neg hown] at htime
      obtain ⟨o, t₁, hstep, hs₁, -, hkeep⟩ := acceptSync_other hs hown
      refine receiveAll_tail hstep (ih hs₁ (hkeep _ hb ?_) hj hmissing (ha.other hlen hown) htime)
      simpa [ChunkSlot.expired] using hnow last rfl

theorem fresh_completes (hlen : payload.length ≤ 64900) (hlarge : chunkDataMax < payload.length)
    (l : List Arrival) (hs : Sound t) (hfresh : lookup slotKey (sid, msgId.toNat) t = none)
    (ha : Awaited payload sid msgId ∅ l) (htime : Timely sid msgId.toNat none l)
    (hroom : Admitted sid msgId.toNat t l) :
    ∃ os t', receiveAll l t = .ok (os, t') ∧ some payload ∈ os := by
  have htwo : 1 < total payload := by
    by_contra h
    have := (pieceCount_le_iff (by decide) _ _).mp (Nat.le_of_not_lt h)
    omega
  induction l generalizing t with
  | nil =>
    obtain ⟨a, hmem, -⟩ := ha.all 0 (by omega) (by simp)
    simp at hmem
  | cons a l ih =>
    obtain ⟨-, htime⟩ := htime
    rw [Admitted] at hroom
    by_cases hown : Own sid msgId.toNat a
    · rw [if_pos hown] at htime hroom
      obtain ⟨i, hi, hbody⟩ := ha.only a (by simp) hown
      obtain ⟨t₁, hstep, hs₁, hb⟩ := first_chunk hlen hs hi hfresh hroom
      rw [← hown.1, ← hbody] at hstep
      -- with two chunks or more, another one is missing
      obtain ⟨j, hj, hji⟩ : ∃ j < total payload, j ≠ i := by
        by_cases h : i = 0
        · exact ⟨1, htwo, by omega⟩
        · exact ⟨0, by omega, by omega⟩
      exact receiveAll_tail hstep
        (building_completes hlen l hs₁ hb hj (by simpa using hji) (ha.own hlen hi hbody) htime)
    · rw [if_neg hown] at htime hroom
      obtain ⟨o, t₁, hstep, hs₁, hnone, -⟩ := acceptSync_other hs hown
      exact receiveAll_tail hstep
        (ih hs₁ (hnone hfresh) (ha.other hlen hown) htime (hroom o t₁ hstep))

theorem single_handed_on (htag : chkTag.isPrefixOf payload = false)
    (hrole : roleTag.isPrefixOf payload = false) (l : List Arrival) (hs : Sound t)
    (hin : ∃ a ∈ l, a.payload = payload) :
    ∃ os t', receiveAll l t = .ok (os, t') ∧ some payload ∈ os := by
  induction l generalizing t with
  | nil => simp at hin
  | cons a l ih =>
    by_cases ha : a.payload = payload
    · have hstep : acceptSync a.sid a.payload a.now t = .ok (some payload, t) := by
        simp [acceptSync, ha, htag, hrole]
      exact receiveAll_head hstep hs
    obtain ⟨o, t₁, hstep, hs₁⟩ := acceptSync_total a.sid a.payload a.now hs
    obtain ⟨b, hb, hpay⟩ := hin
    refine receiveAll_tail hstep (ih hs₁ ⟨b, ?_, hpay⟩)
    rcases List.mem_cons.mp hb with rfl | hb
    · exact absurd hpay ha
    · exact hb

theorem transmits_of_transmittable (h : Transmittable payload) : Transmits payload := by
  intro send sid msgId t run hok hd
  rw [meshSendLarge] at hok hd
  split at hok
  next hsmall =>
    rw [if_pos hsmall] at hd
    obtain ⟨htag, hrole⟩ := h.2 hsmall
    obtain ⟨a, ha, -, hpay⟩ := hd.all payload (by simpa using hok)
    exact single_handed_on htag hrole run hd.sound ⟨a, ha, hpay⟩
  next hlarge =>
    rw [if_neg hlarge] at hd
    have hsent : ((List.range (total payload)).map (chunkBody msgId payload)).filter send =
        (List.range (total payload)).map (chunkBody msgId payload) :=
      List.filter_eq_self.mpr (List.all_eq_true.mp hok)
    obtain ⟨hs, hfresh, honly, hall, htime, hroom⟩ := hd
    dsimp only at honly hall
    rw [hsent] at honly hall
    refine fresh_completes h.1 (by omega) run hs hfresh
      ⟨fun a ha hown => ?_, fun i hi _ => ?_⟩ htime hroom
    · obtain ⟨i, hi, heq⟩ := List.mem_map.mp (honly a ha hown)
      exact ⟨i, List.mem_range.mp hi, heq.symm⟩
    · exact hall _ (List.mem_map.mpr ⟨i, List.mem_range.mpr hi, rfl⟩)

end Message

end NeuralOs.Mesh.LargeMessage

/-! ## The limit on large messages -/

namespace NeuralOs.Mesh.LargeMessageLimit
open ByteString Checked Pieces SlotTable Chunk LargeMessage

variable {payload : Bytes} {msgId : UInt32} {t : Slots ChunkSlot}

def inOrder (sent : List Bytes) : List Arrival := sent.map fun b => ⟨1, b, 0⟩

theorem lookup_vacant (k : UInt8 × ℕ) (n : ℕ) : lookup slotKey k (vacant n) = none :=
  lookup_eq_none.mpr (by simp)

theorem vacant_room (p : ChunkSlot → Bool) : none ∈ sweep p (vacant 4) := by
  simp [sweep, vacant]

theorem timely_inOrder {sid : UInt8} {msgId : ℕ} {sent : List Bytes} {last : Option UInt64}
    (hlast : ∀ x, last = some x → x = 0) : Timely sid msgId last (inOrder sent) := by
  induction sent generalizing last with
  | nil => trivial
  | cons b sent ih =>
    refine ⟨fun x hx => ?_, ih ?_⟩
    · simp [hlast x hx]
    · split
      · rintro x ⟨⟩
        rfl
      · exact hlast

theorem admitted_inOrder {sent : List Bytes} (h : ∀ b ∈ sent, ∃ i, b = chunkBody msgId payload i) :
    Admitted 1 msgId.toNat (vacant 4) (inOrder sent) := by
  induction sent with
  | nil => trivial
  | cons b sent ih =>
    rw [inOrder, List.map_cons, Admitted]
    split
    · exact vacant_room _
    next hown =>
      intro o t' hstep
      obtain ⟨i, rfl⟩ := h b (by simp)
      -- a chunk that is not collected leaves the table as it is
      rw [acceptSync, (body_tags i).1, (body_tags i).2, if_neg (by simp), if_pos rfl,
        chunkReassemble, readChunk_body, ok_bind] at hstep
      split at hstep
      next hnone =>
        cases hstep
        exact ih fun b hb => h b (by simp [hb])
      next c hsome =>
        refine absurd ⟨rfl, (body_tags i).2, ?_⟩ hown
        rw [chunkId, readChunk_body, hsome]
        split at hsome
        · cases hsome
        · exact congrArg some (congrArg Chunk.msgId (Option.some.inj hsome)).symm

theorem long_chunk (hlen : 64900 < payload.length) (hs : Sound t) (sid : UInt8) (now : UInt64)
    {i : ℕ} {o : Option Bytes} {t' : Slots ChunkSlot}
    (h : acceptSync sid (chunkBody msgId payload i) now t = .ok (o, t')) : o ≠ some payload := by
  rintro rfl
  rw [acceptSync, (body_tags i).1, (body_tags i).2, if_neg (by simp), if_pos rfl] at h
  obtain ⟨o', t₁, h', -, hout⟩ := chunkReassemble_total sid (chunkBody msgId payload i) now hs
  have hsame := h'.symm.trans h
  have hmax := hout payload (Prod.mk.inj (Except.ok.inj hsame)).1
  rw [chunkReassemble, readChunk_body, ok_bind] at h
  have hcount : 60 ≤ total payload := by
    by_contra hc
    have := (pieceCount_le_iff (by decide) payload.length 59).mp (Nat.le_of_lt_succ (not_le.mp hc))
    simp only [chunkDataMax] at this
    omega
  split at h
  · cases h
  next c hc =>
    -- the count was cut to 16 bits, so the payload is far beyond the limit of a slot
    split at hc
    · cases hc
    next hlim =>
      simp only [chunkSlotMaxBytes, chunkDataMax] at hlim hmax
      have hbig : 65536 ≤ total payload := by omega
      have : ¬payload.length ≤ 65535*chunkDataMax := by
        rw [← pieceCount_le_iff (by decide)]
        exact not_le.mpr hbig
      simp only [chunkDataMax] at this
      omega

theorem receiveAll_long (hlen : 64900 < payload.length) (l : List Arrival) (hs : Sound t)
    (hl : ∀ a ∈ l, ∃ i, a.payload = chunkBody msgId payload i) {os : List (Option Bytes)}
    {t' : Slots ChunkSlot} (h : receiveAll l t = .ok (os, t')) : some payload ∉ os := by
  induction l generalizing t os with
  | nil =>
    cases h
    simp
  | cons a l ih =>
    obtain ⟨o, t₁, hstep, hs₁⟩ := acceptSync_total a.sid a.payload a.now hs
    rw [receiveAll_cons hstep] at h
    obtain ⟨⟨os', t₂⟩, hrest, h⟩ := bind_ok.mp h
    cases h
    obtain ⟨i, hi⟩ := hl a (by simp)
    have ho := long_chunk hlen hs a.sid a.now (hi ▸ hstep)
    have hos := ih hs₁ (fun b hb => hl b (by simp [hb])) hrest
    simp [Ne.symm ho, hos]

theorem long_lost (hlen : 64900 < payload.length) :
    ∃ run, Delivered 1 1 (meshSendLarge (fun _ => true) 1 payload).2 (vacant 4) run ∧
      ∃ os t', receiveAll run (vacant 4) = .ok (os, t') ∧ some payload ∉ os := by
  have hsent : (meshSendLarge (fun _ => true) 1 payload).2 =
      (List.range (total payload)).map (chunkBody 1 payload) := by
    rw [meshSendLarge, if_neg (by simp only [chunkDataMax]; omega)]
    simp
  have hbodies : ∀ b ∈ (List.range (total payload)).map (chunkBody 1 payload),
      ∃ i, b = chunkBody 1 payload i := by
    intro b hb
    obtain ⟨i, -, rfl⟩ := List.mem_map.mp hb
    exact ⟨i, rfl⟩
  have hpay : ∀ a ∈ inOrder ((List.range (total payload)).map (chunkBody 1 payload)),
      a.payload ∈ (List.range (total payload)).map (chunkBody 1 payload) := by
    intro a ha
    obtain ⟨b, hb, rfl⟩ := List.mem_map.mp ha
    exact hb
  rw [hsent]
  refine ⟨inOrder _, ⟨sound_vacant 4, lookup_vacant _ 4, fun a ha _ => hpay a ha,
    fun b hb => ⟨_, List.mem_map.mpr ⟨b, hb, rfl⟩, rfl, rfl⟩, timely_inOrder (by simp),
    admitted_inOrder hbodies⟩, ?_⟩
  obtain ⟨os, t', h, -⟩ := receiveAll_total (t := vacant 4)
    (inOrder ((List.range (total payload)).map (chunkBody 1 payload))) (sound_vacant 4)
  exact ⟨os, t', h, receiveAll_long hlen _ (sound_vacant 4) (fun a ha => hbodies _ (hpay a ha)) h⟩

theorem tagged_lost (hsmall : payload.length ≤ chunkDataMax)
    (htag : ¬(chkTag.isPrefixOf payload = false ∧ roleTag.isPrefixOf payload = false)) :
    ∃ run, Delivered 1 1 (meshSendLarge (fun _ => true) 1 payload).2 (vacant 4) run ∧
      ∃ os t', receiveAll run (vacant 4) = .ok (os, t') ∧ some payload ∉ os := by
  have hsent : (meshSendLarge (fun _ => true) 1 payload).2 = [payload] := by
    simp [meshSendLarge, hsmall]
  rw [hsent]
  refine ⟨inOrder [payload], ⟨sound_vacant 4, lookup_vacant _ 4, fun a ha _ => ?_,
    fun b hb => ⟨_, List.mem_map.mpr ⟨b, hb, rfl⟩, rfl, rfl⟩, timely_inOrder (by simp),
    ?_⟩, ?_⟩
  · obtain ⟨b, hb, rfl⟩ := List.mem_map.mp ha
    exact hb
  · rw [inOrder, List.map_singleton, Admitted]
    split
    · exact vacant_room _
    · exact fun _ _ _ => trivial
  obtain ⟨o, t', hstep, -⟩ := acceptSync_total 1 payload 0 (sound_vacant 4)
  refine ⟨[o], t', ?_, ?_⟩
  · rw [inOrder, List.map_singleton, receiveAll_cons hstep]
    rfl
  rw [List.mem_singleton]
  rintro rfl
  rw [acceptSync] at hstep
  split at hstep
  · cases hstep
  next hrole =>
    rw [if_pos (by simpa [hrole] using htag)] at hstep
    obtain ⟨c, hc, hlt⟩ := readChunk_total payload
    rw [chunkReassemble, hc, ok_bind] at hstep
    cases c with
    | none => cases hstep
    | some c =>
      have hnone : lookup slotKey (1, c.msgId)
          (sweep (·.expired 0) (vacant 4 : Slots ChunkSlot)) = none :=
        lookup_sweep_none (lookup_vacant _ 4)
      simp only [insertChunk, hnone, placeChunk, List.length_replicate,
        if_pos (hlt c rfl).1, ok_bind] at hstep
      cases hstep

theorem large_message_iff (payload : Bytes) : Transmits payload ↔ Transmittable payload := by
  refine ⟨fun h => ?_, transmits_of_transmittable⟩
  have hlost : ¬∃ run, Delivered 1 1 (meshSendLarge (fun _ => true) 1 payload).2 (vacant 4) run ∧
      ∃ os t', receiveAll run (vacant 4) = .ok (os, t') ∧ some payload ∉ os := by
    rintro ⟨run, hd, os, t', hrun, hout⟩
    have hok : (meshSendLarge (fun _ => true) 1 payload).1 = true := by
      rw [meshSendLarge]
      split <;> simp
    obtain ⟨os', t'', hrun', hin⟩ := h (fun _ => true) 1 1 (vacant 4) run hok hd
    obtain ⟨rfl, -⟩ := Prod.mk.inj (Except.ok.inj (hrun.symm.trans hrun'))
    exact hout hin
  constructor
  · by_contra hlen
    exact hlost (long_lost (by omega))
  · intro hsmall
    by_contra htag
    exact hlost (tagged_lost hsmall htag)

/-- One byte more than 59 chunks hold. -/
theorem chunk_limit_exceeded :
    ∃ run, Delivered 1 1 (meshSendLarge (fun _ => true) 1 (zeros 64901)).2 (vacant 4) run ∧
      ∃ os t', receiveAll run (vacant 4) = .ok (os, t') ∧ some (zeros 64901) ∉ os :=
  long_lost (by simp)

end NeuralOs.Mesh.LargeMessageLimit
