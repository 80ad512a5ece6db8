import NeuralOs.Mesh.Reassembly
import NeuralOs.Mesh.Engine

/-!
# Memory envelopes

The memory state that workers exchange is an envelope, a version with a payload.
A worker merges each envelope it receives into its own: the higher version wins,
and two payloads of one version are joined with a separator. The merge is a join
exactly on sets of envelopes where a version determines the payload.
-/

set_option autoImplicit false

namespace NeuralOs.Sgdb.CrdtSync
open ByteString Mesh.TaskPacket Mesh.Engine

def conflictSep : Bytes :=
  [0x0A, 0x3C, 0x43, 0x52, 0x44, 0x54, 0x2D, 0x43, 0x4F, 0x4E, 0x46, 0x4C, 0x49, 0x43, 0x54, 0x3E,
    0x0A]

def crdtTag : Bytes := [0x43, 0x52, 0x44, 0x54, 0x00]

def hdrLen : ℕ := 5+8

inductive MergeKind
  | keepLocal
  | adoptRemote
  | conflictBoth
  deriving DecidableEq

structure MergeResult where
  kind : MergeKind
  version : UInt64
  payload : Bytes
  deriving DecidableEq

def parseCrdtBody (payload : Bytes) : Option (UInt64 × Bytes) :=
  if crdtTag.isPrefixOf payload = false ∨ payload.length < hdrLen then none
  else some (UInt64.ofNat (fromLe (slice payload 5 8)), payload.drop hdrLen)

def mergeLww (localV : UInt64) (own : Bytes) (remoteV : UInt64) (remote : Bytes) : MergeResult :=
  if localV < remoteV then ⟨.adoptRemote, remoteV, remote⟩
  else if remoteV < localV then ⟨.keepLocal, localV, own⟩
  else if own = remote then ⟨.keepLocal, localV, own⟩
  else ⟨.conflictBoth, localV, own ++ conflictSep ++ remote⟩

/-- `applied` lists the blobs that were handed to the document store, with their sources. -/
structure CrdtMemorySync where
  localVersion : UInt64
  nodeVersions : List (UInt8 × UInt64)
  localBlob : Bytes
  applied : List (UInt8 × Bytes)

def CrdtMemorySync.new : CrdtMemorySync := ⟨0, [], [], []⟩

def upsertPeerVersion (node : UInt8) (v : UInt64) : List (UInt8 × UInt64) → List (UInt8 × UInt64)
  | [] => [(node, v)]
  | (n, w) :: l => if n = node then (n, v) :: l else (n, w) :: upsertPeerVersion node v l

def CrdtMemorySync.applyMerge (s : CrdtMemorySync) (m : MergeResult) : CrdtMemorySync :=
  match m.kind with
  | .keepLocal => s
  | .adoptRemote => { s with localVersion := m.version, localBlob := m.payload }
  | .conflictBoth => { s with localBlob := m.payload }

def CrdtMemorySync.drainEvent (role : NodeRole) (s : CrdtMemorySync) (evt : Bytes) :
    CrdtMemorySync :=
  match parse evt with
  | none => s
  | some pkt =>
    if pkt.taskType ≠ taskInference then s
    else
      match parseCrdtBody (evt.drop packetHeaderSize) with
      | none => s
      | some (v, blob) =>
        match role with
        | .master =>
          { s with
            nodeVersions := upsertPeerVersion pkt.sourceId v s.nodeVersions
            applied := s.applied ++ [(pkt.sourceId, blob)] }
        | .worker =>
          let s' := s.applyMerge (mergeLww s.localVersion s.localBlob v blob)
          { s' with applied := s'.applied ++ [(pkt.sourceId, blob)] }
        | _ => s

def CrdtMemorySync.drainCrdtEvents (role : NodeRole) (s : CrdtMemorySync) (evts : List Bytes) :
    CrdtMemorySync :=
  evts.foldl (·.drainEvent role) s

def CrdtMemorySync.publish (s : CrdtMemorySync) (clock : UInt64) (myId : UInt8) : Bytes :=
  serialize (AiosTaskPacket.new clock myId 0xFF taskInference 1 0 0 PacketFlags.new) ++
    crdtTag ++ toLe 8 s.localVersion.toNat ++ s.localBlob

/-! ### Envelopes -/

@[ext] structure Envelope where
  version : UInt64
  payload : Bytes
  deriving DecidableEq

def merge (a b : Envelope) : Envelope :=
  let m := mergeLww a.version a.payload b.version b.payload
  ⟨m.version, m.payload⟩

def CrdtMemorySync.envelope (s : CrdtMemorySync) : Envelope := ⟨s.localVersion, s.localBlob⟩

def envelopeOf (evt : Bytes) : Option Envelope :=
  match parse evt with
  | none => none
  | some pkt =>
    if pkt.taskType ≠ taskInference then none
    else (parseCrdtBody (evt.drop packetHeaderSize)).map fun e => ⟨e.1, e.2⟩

def received (evts : List Bytes) : List Envelope := evts.filterMap envelopeOf

theorem mergeLww_kind (v w : UInt64) (p q : Bytes) :
    ((mergeLww v p w q).kind ≠ .adoptRemote → (mergeLww v p w q).version = v) ∧
      ((mergeLww v p w q).kind = .keepLocal → (mergeLww v p w q).payload = p) := by
  rw [mergeLww]
  split
  · simp
  split
  · simp
  split <;> simp

theorem applyMerge_envelope (s : CrdtMemorySync) (v : UInt64) (blob : Bytes) :
    (s.applyMerge (mergeLww s.localVersion s.localBlob v blob)).envelope =
      merge s.envelope ⟨v, blob⟩ := by
  obtain ⟨hversion, hpayload⟩ := mergeLww_kind s.localVersion v s.localBlob blob
  simp only [merge, CrdtMemorySync.envelope, CrdtMemorySync.applyMerge]
  cases hk : (mergeLww s.localVersion s.localBlob v blob).kind with
  | keepLocal => rw [hversion (by simp [hk]), hpayload hk]
  | adoptRemote => rfl
  | conflictBoth => rw [hversion (by simp [hk])]

theorem drainEvent_envelope (s : CrdtMemorySync) (evt : Bytes) :
    (s.drainEvent .worker evt).envelope =
      match envelopeOf evt with
      | none => s.envelope
      | some a => merge s.envelope a := by
  rw [CrdtMemorySync.drainEvent, envelopeOf]
  cases parse evt with
  | none => rfl
  | some pkt =>
    dsimp only
    split
    · rfl
    cases parseCrdtBody (evt.drop packetHeaderSize) with
    | none => rfl
    | some e => exact applyMerge_envelope s e.1 e.2

theorem drain_envelope (s : CrdtMemorySync) (evts : List Bytes) :
    (s.drainCrdtEvents .worker evts).envelope = (received evts).foldl merge s.envelope := by
  induction evts generalizing s with
  | nil => rfl
  | cons evt evts ih =>
    have hstep := drainEvent_envelope s evt
    have hrest : (s.drainCrdtEvents .worker (evt :: evts)).envelope =
        (received evts).foldl merge (s.drainEvent .worker evt).envelope :=
      ih (s.drainEvent .worker evt)
    rw [hrest, hstep, received, received, List.filterMap_cons]
    cases envelopeOf evt <;> rfl

/-! ### The join -/

variable {a b c : Envelope} {S : Set Envelope}

def Consistent (S : Set Envelope) : Prop := ∀ a ∈ S, ∀ b ∈ S, a.version = b.version → a = b

/-- The merge is a join on `S`: algebraically, and for workers that receive the same set of
envelopes in any order and any number of times. -/
structure CrdtJoin (S : Set Envelope) : Prop where
  comm : ∀ a ∈ S, ∀ b ∈ S, merge a b = merge b a
  assoc : ∀ a ∈ S, ∀ b ∈ S, ∀ c ∈ S, merge (merge a b) c = merge a (merge b c)
  idem : ∀ a ∈ S, merge a a = a
  converge : ∀ s s' : CrdtMemorySync, s.envelope = s'.envelope → s.envelope ∈ S →
    ∀ evts evts' : List Bytes, (∀ a, a ∈ received evts ↔ a ∈ received evts') →
      (∀ a ∈ received evts, a ∈ S) →
      (s.drainCrdtEvents .worker evts).envelope = (s'.drainCrdtEvents .worker evts').envelope

theorem merge_of_lt (h : a.version < b.version) : merge a b = b := by
  simp [merge, mergeLww, h]

theorem merge_of_gt (h : b.version < a.version) : merge a b = a := by
  simp [merge, mergeLww, h, UInt64.not_lt.mpr (UInt64.le_of_lt h)]

theorem merge_self (a : Envelope) : merge a a = a := by
  simp [merge, mergeLww, UInt64.lt_irrefl]

theorem merge_conflict (hv : a.version = b.version) (h : a.payload ≠ b.payload) :
    merge a b = ⟨a.version, a.payload ++ conflictSep ++ b.payload⟩ := by
  simp [merge, mergeLww, hv, h, UInt64.lt_irrefl]

theorem merge_pick (hS : Consistent S) (ha : a ∈ S) (hb : b ∈ S) :
    merge a b = if a.version < b.version then b else a := by
  split
  next h => exact merge_of_lt h
  next h =>
    rcases Nat.lt_or_ge b.version.toNat a.version.toNat with h' | h'
    · exact merge_of_gt h'
    · obtain rfl : a = b := hS a ha b hb (UInt64.le_antisymm h' (UInt64.not_lt.mp h))
      exact merge_self a

theorem merge_mem (hS : Consistent S) (ha : a ∈ S) (hb : b ∈ S) : merge a b ∈ S := by
  rw [merge_pick hS ha hb]
  split
  · exact hb
  · exact ha

theorem fold_merge (hS : Consistent S) (l : List Envelope) (hl : ∀ x ∈ l, x ∈ S) (ha : a ∈ S) :
    l.foldl merge a ∈ a :: l ∧ ∀ x ∈ a :: l, x.version ≤ (l.foldl merge a).version := by
  induction l generalizing a with
  | nil => simp
  | cons b l ih =>
    have hb := hl b (by simp)
    obtain ⟨hmem, hmax⟩ := ih (fun x hx => hl x (by simp [hx])) (merge_mem hS ha hb)
    have hpick := merge_pick hS ha hb
    have hle : a.version ≤ (merge a b).version ∧ b.version ≤ (merge a b).version := by
      rw [hpick]
      split
      next h => exact ⟨UInt64.le_of_lt h, UInt64.le_refl _⟩
      next h => exact ⟨UInt64.le_refl _, UInt64.not_lt.mp h⟩
    rw [List.foldl_cons]
    constructor
    · rcases List.mem_cons.mp hmem with h | h
      · rw [h, hpick]
        split <;> simp
      · simp [h]
    · intro x hx
      have htop := hmax (merge a b) (by simp)
      rcases List.mem_cons.mp hx with rfl | hx
      · exact UInt64.le_trans hle.1 htop
      rcases List.mem_cons.mp hx with rfl | hx
      · exact UInt64.le_trans hle.2 htop
      · exact hmax x (by simp [hx])

theorem join_of_consistent (hS : Consistent S) : CrdtJoin S where
  comm a ha b hb := by
    rw [merge_pick hS ha hb, merge_pick hS hb ha]
    split
    next h => rw [if_neg (UInt64.lt_asymm h)]
    next h =>
      split
      · rfl
      next h' =>
        exact hS a ha b hb (UInt64.le_antisymm (UInt64.not_lt.mp h') (UInt64.not_lt.mp h))
  assoc a ha b hb c hc := by
    rw [merge_pick hS (merge_mem hS ha hb) hc, merge_pick hS ha (merge_mem hS hb hc),
      merge_pick hS ha hb, merge_pick hS hb hc]
    simp only [UInt64.lt_iff_toNat_lt]
    split_ifs <;> first | rfl | omega
  idem a _ := merge_self a
  converge s s' hs hmem evts evts' hsame hin := by
    have hin' : ∀ a ∈ received evts', a ∈ S := fun a ha => hin a ((hsame a).mpr ha)
    rw [drain_envelope, drain_envelope, ← hs]
    obtain ⟨h₁, hmax₁⟩ := fold_merge hS (received evts) hin hmem
    obtain ⟨h₂, hmax₂⟩ := fold_merge hS (received evts') hin' hmem
    have hsub : ∀ a, a ∈ s.envelope :: received evts ↔ a ∈ s.envelope :: received evts' := by
      simp [hsame]
    have hS' : ∀ a ∈ s.envelope :: received evts, a ∈ S := by
      rintro a (_ | ⟨_, ha⟩)
      · exact hmem
      · exact hin a ha
    exact hS _ (hS' _ h₁) _ (hS' _ ((hsub _).mpr h₂))
      (UInt64.le_antisymm (hmax₂ _ ((hsub _).mp h₁)) (hmax₁ _ ((hsub _).mpr h₂)))

theorem consistent_of_assoc
    (h : ∀ a ∈ S, ∀ b ∈ S, ∀ c ∈ S, merge (merge a b) c = merge a (merge b c)) :
    Consistent S := by
  intro a ha b hb hv
  by_contra hab
  have hne : a.payload ≠ b.payload := fun hp => hab (Envelope.ext hv hp)
  have hassoc := h a ha a ha b hb
  have hlong : a.payload ≠ a.payload ++ conflictSep ++ b.payload := by
    intro hp
    have := congrArg List.length hp
    simp [conflictSep] at this
  rw [merge_self, merge_conflict hv hne, merge_conflict (by rfl) hlong] at hassoc
  have := congrArg (fun e => e.payload.length) hassoc
  simp only [List.length_append, conflictSep, List.length_cons] at this
  omega

theorem merge_join_iff (S : Set Envelope) : CrdtJoin S ↔ Consistent S :=
  ⟨fun h => consistent_of_assoc h.assoc, join_of_consistent⟩

def firstWrite (x : UInt8) : CrdtMemorySync := ⟨1, [], [x], []⟩

/-- Two first writes: the order of delivery decides the blob, and a second delivery of one
of them changes it. -/
theorem order_decides_blob :
    merge (firstWrite 97).envelope (firstWrite 98).envelope ≠
        merge (firstWrite 98).envelope (firstWrite 97).envelope ∧
      (CrdtMemorySync.new.drainCrdtEvents .worker
          [(firstWrite 97).publish 1 1, (firstWrite 98).publish 1 2]).envelope ≠
        (CrdtMemorySync.new.drainCrdtEvents .worker
          [(firstWrite 98).publish 1 2, (firstWrite 97).publish 1 1]).envelope ∧
      (CrdtMemorySync.new.drainCrdtEvents .worker
          [(firstWrite 97).publish 1 1, (firstWrite 98).publish 1 2]).envelope ≠
        (CrdtMemorySync.new.drainCrdtEvents .worker
          [(firstWrite 97).publish 1 1, (firstWrite 98).publish 1 2,
            (firstWrite 98).publish 2 2]).envelope := by
  decide

end NeuralOs.Sgdb.CrdtSync
