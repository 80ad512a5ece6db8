import NeuralOs.EventBus.Bus
import NeuralOs.Lib.BoundedLog
import NeuralOs.Lib.Machine

/-!
# What the provenance ring proves

`verify_stamps` walks the retained chain from the base hash and compares nothing
with the last hash, so any first part of the ring verifies, and any content that is
chained again. As many stamps as before, none of the fallback algorithm, that end in
the last hash are the published ones, unless the hash has collided.
-/

set_option autoImplicit false

namespace NeuralOs.EventBus.Provenance
open ByteString HashChain Stamp

variable {hash : HashFn} {base prev : Digest} {l : List Stamp}

def pairs (l : List Stamp) : List (Body × Digest) := l.map fun st => (st.toBody, st.chainHash)

theorem pairs_injective : Function.Injective pairs := by
  apply List.map_injective_iff.mpr
  rintro ⟨b, h⟩ ⟨c, k⟩ he
  rw [Prod.mk.injEq] at he
  rw [Stamp.mk.injEq]
  exact he

theorem verifyFrom_ok {n : UInt64} :
    (∃ m, verifyFrom hash prev n l = .ok m) ↔ Chained (link hash) prev (pairs l) := by
  induction l generalizing prev n with
  | nil => simp [verifyFrom, pairs, Chained]
  | cons st l ih =>
    rw [verifyFrom]
    by_cases h : link hash prev st.toBody = st.chainHash
    · rw [if_neg (not_not.mpr h), ih]
      simp [pairs, Chained, h]
    · rw [if_pos h]
      simp [pairs, Chained, Ne.symm h]

variable {r : StampRing}

theorem verify_iff {altered : List Stamp} :
    (∃ n, verifyStamps { r with entries := altered } hash = .ok n) ↔
      Chained (link hash) r.baseHash (pairs altered) := verifyFrom_ok

/-! ### Published rings -/

/-- Events published one after another, each by its publisher, with a registered hash. -/
def published (hash : HashFn) (events : List (UInt64 × Event)) : Audit :=
  events.foldl (fun a x => a.stamp (.registered hash) x.1 x.2) .new

/-- The ring is a chain from its base to its last hash. -/
structure Linked (hash : HashFn) (r : StampRing) : Prop where
  chained : Chained (link hash) r.baseHash (pairs r.entries)
  last : endOf r.baseHash (pairs r.entries) = r.lastHash

theorem evict_linked (h : Linked hash r) : Linked hash r.evict := by
  rw [StampRing.evict]
  split
  case isFalse => exact h
  case isTrue =>
  split
  case h_1 => exact h
  case h_2 ev rest he =>
  have hc := h.chained
  have hl := h.last
  rw [he] at hc hl
  exact ⟨hc.2, hl⟩

theorem evict_last (r : StampRing) : r.evict.lastHash = r.lastHash := by
  rw [StampRing.evict]
  split
  · split <;> rfl
  · rfl

theorem push_linked (h : Linked hash r) {st : Stamp}
    (hst : st.chainHash = link hash r.lastHash st.toBody) : Linked hash (r.push st) := by
  have he := evict_linked h
  have hpairs : pairs (r.push st).entries = pairs r.evict.entries ++ [(st.toBody, st.chainHash)] := by
    simp [pairs, StampRing.push]
  constructor
  · rw [hpairs]
    refine chained_append.mpr ⟨he.chained, ?_, trivial⟩
    exact hst.trans (by rw [← evict_last, ← he.last]; rfl)
  · rw [hpairs]
    exact endOf_snoc _ _ _

theorem published_linked (hash : HashFn) (events : List (UInt64 × Event)) :
    Linked hash (published hash events).ring := by
  induction events using List.reverseRecOn with
  | nil => exact ⟨trivial, rfl⟩
  | append_singleton events x ih =>
    rw [published, List.foldl_append]
    exact push_linked ih rfl

/-! ### The hashed strings -/

theorem chainBuf_eq (prev : Digest) (b : Body) :
    chainBuf prev b = prev.toList ++ (toLe 8 b.seq.toNat ++ (toLe 8 b.eventId.toNat ++
      (toLe 8 b.tokenId.toNat ++ (toLe 8 b.publisher.toNat ++ (toLe 8 b.causalParentId.toNat ++
      (toLe 4 b.taintLabel.toNat ++ ([b.algo] ++ (toLe 4 b.digestLen.toNat ++
      b.payloadDigest.toList)))))))) := by
  simp [chainBuf, copyInto, putU64, putU32, List.take_of_length_le]

theorem toLe_word {v w : UInt64} (h : toLe 8 v.toNat = toLe 8 w.toNat) : v = w := by
  have := congrArg fromLe h
  have hv := v.toNat_lt
  have hw := w.toNat_lt
  rw [fromLe_toLe, fromLe_toLe, Nat.mod_eq_of_lt (by omega), Nat.mod_eq_of_lt (by omega)] at this
  exact UInt64.toNat_inj.mp this

theorem toLe_half {v w : UInt32} (h : toLe 4 v.toNat = toLe 4 w.toNat) : v = w := by
  have := congrArg fromLe h
  have hv := v.toNat_lt
  have hw := w.toNat_lt
  rw [fromLe_toLe, fromLe_toLe, Nat.mod_eq_of_lt (by omega), Nat.mod_eq_of_lt (by omega)] at this
  exact UInt32.toNat_inj.mp this

theorem chainBuf_injective {p q : Digest} {b c : Body} (h : chainBuf p b = chainBuf q c) :
    p = q ∧ b = c := by
  rw [chainBuf_eq, chainBuf_eq] at h
  obtain ⟨hp, h⟩ := List.append_inj h (by simp)
  obtain ⟨hseq, h⟩ := List.append_inj h (by simp)
  obtain ⟨hevent, h⟩ := List.append_inj h (by simp)
  obtain ⟨htoken, h⟩ := List.append_inj h (by simp)
  obtain ⟨hpub, h⟩ := List.append_inj h (by simp)
  obtain ⟨hparent, h⟩ := List.append_inj h (by simp)
  obtain ⟨htaint, h⟩ := List.append_inj h (by simp)
  obtain ⟨halgo, h⟩ := List.append_inj h (by simp)
  obtain ⟨hlen, hdigest⟩ := List.append_inj h (by simp)
  refine ⟨Vector.toList_inj.mp hp, ?_⟩
  obtain ⟨b₁, b₂, b₃, b₄, b₅, b₆, b₇, b₈, b₉⟩ := b
  obtain ⟨c₁, c₂, c₃, c₄, c₅, c₆, c₇, c₈, c₉⟩ := c
  rw [Body.mk.injEq]
  exact ⟨toLe_word hseq, toLe_word hevent, toLe_word htoken, toLe_word hpub, toLe_word hparent,
    toLe_half htaint, List.singleton_inj.mp halgo, toLe_half hlen, Vector.toList_inj.mp hdigest⟩

def hashed (base : Digest) (l : List Stamp) : List Bytes :=
  (inputs base (pairs l)).map fun x => chainBuf x.1 x.2

def NoCollision (hash : HashFn) (strings : List Bytes) : Prop :=
  ∀ x ∈ strings, ∀ y ∈ strings, hash x = hash y → x = y

instance (hash : HashFn) (strings : List Bytes) : Decidable (NoCollision hash strings) :=
  inferInstanceAs (Decidable (∀ x ∈ strings, ∀ y ∈ strings, hash x = hash y → x = y))

def rechained (hash : HashFn) (base : Digest) (bodies : List Body) : List Stamp :=
  (HashChain.chainOf (link hash) base bodies).map fun x => ⟨x.1, x.2⟩

theorem pairs_rechained (hash : HashFn) (base : Digest) (bodies : List Body) :
    pairs (rechained hash base bodies) = HashChain.chainOf (link hash) base bodies := by
  simp [pairs, rechained, Function.comp_def]

theorem link_registered {b : Body} (h : b.algo ≠ 0) (p : Digest) :
    link hash p b = hash (chainBuf p b) := by
  rw [link, if_neg h, Stamp.chainOf]

theorem inputs_body {x : Digest × Body} (hx : x ∈ inputs base (pairs l)) :
    ∃ st ∈ l, x.2 = st.toBody := by
  induction l generalizing base with
  | nil => simp [pairs, inputs] at hx
  | cons st l ih =>
    rcases List.mem_cons.mp hx with rfl | hx
    · exact ⟨st, by simp, rfl⟩
    · obtain ⟨st', hst, he⟩ := ih hx
      exact ⟨st', by simp [hst], he⟩

theorem published_algo (hash : HashFn) (events : List (UInt64 × Event)) :
    ∀ st ∈ (published hash events).ring.entries, st.algo ≠ 0 := by
  induction events using List.reverseRecOn with
  | nil => simp [published, Audit.new, StampRing.new]
  | append_singleton events x ih =>
    intro st hst
    rw [published, List.foldl_append] at hst
    rcases List.mem_append.mp hst with hst | hst
    · refine ih st ?_
      rw [StampRing.evict] at hst
      split at hst
      · split at hst
        next => exact hst
        next ev rest he =>
          rw [published, he]
          exact List.mem_cons_of_mem _ hst
      · exact hst
    · rw [List.mem_singleton.mp hst]
      simp [buildStamp, algoFor]

theorem same_end_same_stamps {altered : List Stamp} (hr : Linked hash r)
    (halgo : ∀ st ∈ r.entries, st.algo ≠ 0)
    (hver : Chained (link hash) r.baseHash (pairs altered))
    (hlen : altered.length = r.entries.length)
    (hend : endOf r.baseHash (pairs altered) = r.lastHash) (halgo' : ∀ st ∈ altered, st.algo ≠ 0)
    (hcol : NoCollision hash (hashed r.baseHash r.entries ++ hashed r.baseHash altered)) :
    altered = r.entries := by
  apply pairs_injective
  refine chained_unique hver hr.chained (by simpa [pairs] using hlen) (hend.trans hr.last.symm) ?_
  intro x hx y hy he
  obtain ⟨st, hst, hb⟩ := inputs_body hx
  obtain ⟨st', hst', hb'⟩ := inputs_body hy
  rw [link_registered (hb ▸ halgo' st hst), link_registered (hb' ▸ halgo st' hst')] at he
  have hmem : chainBuf x.1 x.2 ∈ hashed r.baseHash altered := List.mem_map.mpr ⟨x, hx, rfl⟩
  have hmem' : chainBuf y.1 y.2 ∈ hashed r.baseHash r.entries := List.mem_map.mpr ⟨y, hy, rfl⟩
  obtain ⟨h₁, h₂⟩ := chainBuf_injective
    (hcol _ (List.mem_append_right _ hmem) _ (List.mem_append_left _ hmem') he)
  exact Prod.ext h₁ h₂

theorem unnoticed_change (hash : HashFn) (r : StampRing) :
    ∃ altered, altered ≠ r.entries ∧ Chained (link hash) r.baseHash (pairs altered) ∧
      (NoCollision hash (hashed r.baseHash r.entries) →
        NoCollision hash (hashed r.baseHash r.entries ++ hashed r.baseHash altered)) := by
  cases hl : r.entries with
  | nil =>
    let body : Body := ⟨0, 0, 0, 0, 0, 0, 1, 0, zeroHash⟩
    refine ⟨rechained hash r.baseHash [body], by simp [rechained, HashChain.chainOf], ?_, ?_⟩
    · rw [pairs_rechained]
      exact chainOf_chained
    have hone : hashed r.baseHash (rechained hash r.baseHash [body]) =
        [chainBuf r.baseHash body] := by
      rw [hashed, pairs_rechained]
      rfl
    rw [hone]
    simp [hashed, pairs, inputs, NoCollision]
  | cons st l =>
    refine ⟨[], by simp, trivial, ?_⟩
    simp [hashed, pairs, inputs]

theorem tampering_unnoticed (hash : HashFn) (events : List (UInt64 × Event)) :
    let r := (published hash events).ring
    (∃ altered, altered ≠ r.entries ∧
        (∃ n, verifyStamps { r with entries := altered } hash = .ok n) ∧
        (NoCollision hash (hashed r.baseHash r.entries) →
          NoCollision hash (hashed r.baseHash r.entries ++ hashed r.baseHash altered))) ∧
      (∀ k, ∃ n, verifyStamps { r with entries := r.entries.take k } hash = .ok n) ∧
      (∀ bodies, ∃ n,
        verifyStamps { r with entries := rechained hash r.baseHash bodies } hash = .ok n) ∧
      ∀ altered, altered ≠ r.entries → altered.length = r.entries.length →
        endOf r.baseHash (pairs altered) = r.lastHash → (∀ st ∈ altered, st.algo ≠ 0) →
        NoCollision hash (hashed r.baseHash r.entries ++ hashed r.baseHash altered) →
        ¬∃ n, verifyStamps { r with entries := altered } hash = .ok n := by
  intro r
  have hr : Linked hash r := published_linked hash events
  refine ⟨?_, fun k => ?_, fun bodies => ?_, ?_⟩
  · obtain ⟨altered, hne, hver, hcol⟩ := unnoticed_change hash r
    exact ⟨altered, hne, verify_iff.mpr hver, hcol⟩
  · rw [verify_iff, pairs, List.map_take]
    exact chained_take hr.chained k
  · rw [verify_iff, pairs_rechained]
    exact chainOf_chained
  · intro altered hne hlen hend halgo hcol hver
    exact hne (same_end_same_stamps hr (published_algo hash events) (verify_iff.mp hver) hlen hend
      halgo hcol)

def taggedFnv : HashFn := fun data => fnv1a64Pad32 (1::data)

def twoEvents : List (UInt64 × Event) :=
  [(7, ⟨1, [0x54], [1], .legacy 1⟩), (7, ⟨2, [0x54], [2], .legacy 1⟩)]

theorem newest_removed :
    let r := (published taggedFnv twoEvents).ring
    NoCollision taggedFnv (hashed r.baseHash r.entries) ∧ r.entries.length = 2 ∧
      verifyStamps { r with entries := r.entries.take 1 } taggedFnv = .ok 1 := by
  decide +kernel

end NeuralOs.EventBus.Provenance

/-! ## Honest histories verify -/

namespace NeuralOs.EventBus.HonestHistory
open HashChain Machine Stamp Bus Provenance

inductive Call
  | publish (publisher : UInt64) (event : Event)
  | registerAuditHooks (hasher : Hasher)

structure Node where
  world : World
  hasher : Hasher

def Node.new : Node := ⟨.new, .fallback⟩

def Node.audit (n : Node) : Audit := n.world.bus.audit

def Node.step (n : Node) : Call → Node
  | .publish publisher event => { n with world := (n.world.publish n.hasher publisher event).1 }
  | .registerAuditHooks hasher => { n with hasher := hasher }

def Node.auditVerify (n : Node) : Except UInt64 UInt64 := verifyStamps n.audit.ring n.hasher.fn

def stampMade (n : Node) : Call → List Stamp
  | .publish publisher event =>
    if event.token.isValid then
      [buildStamp n.audit.nextSeq n.world.bus.nextEventId event.token.asLegacy publisher
        n.audit.ring.lastHash event.topic event.payload n.hasher]
    else []
  | .registerAuditHooks _ => []

def history : Node → List Call → List Stamp
  | _, [] => []
  | n, c::calls => stampMade n c ++ history (n.step c) calls

def Call.registers : Call → Bool
  | .publish _ _ => false
  | .registerAuditHooks _ => true

def Call.accepted : Call → Bool
  | .publish _ event => event.token.isValid
  | .registerAuditHooks _ => false

/-! ### Verification counts -/

theorem verifyFrom_count {hash : HashFn} {prev : Digest} {n : UInt64} {l : List Stamp}
    (h : Chained (link hash) prev (pairs l)) :
    verifyFrom hash prev n l = .ok (n+.ofNat l.length) := by
  induction l generalizing prev n with
  | nil => simp [verifyFrom]
  | cons st l ih =>
    obtain ⟨hst, hl⟩ := h
    rw [verifyFrom, if_neg (not_not.mpr hst.symm), ih hl, List.length_cons, UInt64.ofNat_add,
      UInt64.add_assoc, UInt64.add_comm 1]
    rfl

theorem push_entries (r : StampRing) (st : Stamp) :
    (r.push st).entries = BoundedLog.push stampRingCap r.entries st := by
  rw [StampRing.push, BoundedLog.push, StampRing.evict]
  split
  · split
    · next he => simp [he]
    · next he => simp [he]
  · rfl

/-! ### The invariant -/

structure Honest (n : Node) (all : List Stamp) : Prop where
  linked : Linked n.hasher.fn n.audit.ring
  kept : n.audit.ring.entries = all.rtake stampRingCap
  next : n.audit.nextSeq = .ofNat all.length
  event : n.world.bus.nextEventId = .ofNat (all.length+1)
  seqs : all.map (·.seq) = (List.range all.length).map UInt64.ofNat
  events : all.map (·.eventId) = (List.range all.length).map fun i => UInt64.ofNat (i+1)

/-- No hasher was registered so far. -/
structure Plain (n : Node) : Prop where
  hasher : n.hasher = .fallback
  algo : ∀ st ∈ n.audit.ring.entries, st.algo = 0

theorem new_honest : Honest .new [] where
  linked := ⟨trivial, rfl⟩
  kept := rfl
  next := rfl
  event := rfl
  seqs := rfl
  events := rfl

theorem new_plain : Plain .new := ⟨rfl, by simp [Node.new, Node.audit, World.new, Audit.new,
  StampRing.new]⟩

variable {n : Node}

theorem publish_rejected {publisher : UInt64} {event : Event}
    (h : event.token.isValid = false) : n.step (.publish publisher event) = n := by
  rw [Node.step, World.publish, h]
  rfl

theorem publish_accepted {publisher : UInt64} {event : Event} {st : Stamp}
    (h : event.token.isValid = true) (hst : stampMade n (.publish publisher event) = [st]) :
    (n.step (.publish publisher event)).audit = ⟨n.audit.ring.push st, n.audit.nextSeq+1⟩ ∧
      (n.step (.publish publisher event)).world.bus.nextEventId = n.world.bus.nextEventId+1 := by
  simp only [stampMade, if_pos h, List.cons.injEq, and_true] at hst
  subst hst
  rw [Node.step, World.publish, if_pos h]
  simp only [World.fanOut]
  split <;> exact ⟨rfl, rfl⟩

theorem buildStamp_link {hasher : Hasher} {seq eventId tokenId publisher : UInt64} {prev : Digest}
    {topic payload : ByteString.Bytes} :
    (buildStamp seq eventId tokenId publisher prev topic payload hasher).chainHash =
      link hasher.fn prev
        (buildStamp seq eventId tokenId publisher prev topic payload hasher).toBody := by
  cases hasher with
  | fallback => rfl
  | registered hash => rfl

theorem publish_honest {all : List Stamp} (hn : Honest n all) (publisher : UInt64) (event : Event) :
    Honest (n.step (.publish publisher event)) (all ++ stampMade n (.publish publisher event)) := by
  cases hv : event.token.isValid with
  | false =>
    rw [publish_rejected hv]
    simpa [stampMade, hv] using hn
  | true =>
    obtain ⟨st, hst, hseq, hev, hlink⟩ : ∃ st, stampMade n (.publish publisher event) = [st] ∧
        st.seq = n.audit.nextSeq ∧ st.eventId = n.world.bus.nextEventId ∧
        st.chainHash = link n.hasher.fn n.audit.ring.lastHash st.toBody := by
      refine ⟨_, if_pos hv, rfl, rfl, buildStamp_link⟩
    obtain ⟨haudit, hid⟩ := publish_accepted hv hst
    have hlen : (all ++ [st]).length = all.length+1 := by simp
    rw [hst]
    constructor
    · rw [haudit]
      exact push_linked hn.linked hlink
    · rw [haudit]
      refine (push_entries _ st).trans ?_
      rw [hn.kept, BoundedLog.push_rtake (by decide)]
    · rw [haudit, hlen, UInt64.ofNat_add]
      exact congrArg (· + 1) hn.next
    · rw [hid, hlen, hn.event, UInt64.ofNat_add (all.length+1)]
      rfl
    · rw [hlen, List.range_succ, List.map_append, List.map_append, hn.seqs]
      simp [hseq, hn.next]
    · rw [hlen, List.range_succ, List.map_append, List.map_append, hn.events]
      simp [hev, hn.event]

theorem publish_plain (hn : Plain n) (publisher : UInt64) (event : Event) :
    Plain (n.step (.publish publisher event)) := by
  refine ⟨hn.hasher, ?_⟩
  cases hv : event.token.isValid with
  | false =>
    rw [publish_rejected hv]
    exact hn.algo
  | true =>
    obtain ⟨st, hst, halgo⟩ : ∃ st, stampMade n (.publish publisher event) = [st] ∧
        st.algo = 0 := ⟨_, if_pos hv, by rw [buildStamp, hn.hasher]; rfl⟩
    obtain ⟨haudit, -⟩ := publish_accepted hv hst
    intro st' hst'
    rw [haudit] at hst'
    change st' ∈ (n.audit.ring.push st).entries at hst'
    rw [push_entries, BoundedLog.push] at hst'
    rcases List.mem_append.mp hst' with hmem | hmem
    · split at hmem
      · exact hn.algo st' (List.mem_of_mem_tail hmem)
      · exact hn.algo st' hmem
    · rw [List.mem_singleton.mp hmem]
      exact halgo

theorem chained_fallback {hash hash' : HashFn} {prev : Digest} {l : List Stamp}
    (halgo : ∀ st ∈ l, st.algo = 0) (h : Chained (link hash) prev (pairs l)) :
    Chained (link hash') prev (pairs l) := by
  induction l generalizing prev with
  | nil => trivial
  | cons st l ih =>
    obtain ⟨hst, hl⟩ := h
    refine ⟨?_, ih (fun s hs => halgo s (by simp [hs])) hl⟩
    have h0 := halgo st (by simp)
    rw [link, if_pos h0] at hst ⊢
    exact hst

theorem register_honest {all : List Stamp} (hp : Plain n) (hn : Honest n all)
    (hasher : Hasher) : Honest (n.step (.registerAuditHooks hasher)) all where
  linked := ⟨chained_fallback hp.algo hn.linked.chained, hn.linked.last⟩
  kept := hn.kept
  next := hn.next
  event := hn.event
  seqs := hn.seqs
  events := hn.events

/-! ### Runs -/

theorem run_honest {all : List Stamp} {calls : List Call}
    (hcalls : calls.countP Call.registers = 0) (hn : Honest n all) :
    Honest (run Node.step n calls) (all ++ history n calls) := by
  induction calls generalizing n all with
  | nil =>
    rw [history, List.append_nil]
    exact hn
  | cons c calls ih =>
    cases c with
    | publish publisher event =>
      have := ih (by simpa [Call.registers] using hcalls) (publish_honest hn publisher event)
      rw [List.append_assoc] at this
      exact this
    | registerAuditHooks hasher => simp [Call.registers] at hcalls

theorem run_honest_once {all : List Stamp} {calls : List Call}
    (hcalls : calls.countP Call.registers ≤ 1) (hp : Plain n) (hn : Honest n all) :
    Honest (run Node.step n calls) (all ++ history n calls) := by
  induction calls generalizing n all with
  | nil =>
    rw [history, List.append_nil]
    exact hn
  | cons c calls ih =>
    cases c with
    | publish publisher event =>
      have := ih (by simpa [Call.registers] using hcalls) (publish_plain hp publisher event)
        (publish_honest hn publisher event)
      rw [List.append_assoc] at this
      exact this
    | registerAuditHooks hasher =>
      rw [List.countP_cons_of_pos rfl] at hcalls
      have hrest : calls.countP Call.registers = 0 := by omega
      have := run_honest hrest (register_honest hp hn hasher)
      exact this

theorem history_length (n : Node) (calls : List Call) :
    (history n calls).length = calls.countP Call.accepted := by
  induction calls generalizing n with
  | nil => rfl
  | cons c calls ih =>
    rw [history, List.length_append, ih, List.countP_cons, Nat.add_comm]
    congr 1
    cases c with
    | publish publisher event =>
      by_cases hv : event.token.isValid = true
      · simp [stampMade, Call.accepted, hv]
      · simp [stampMade, Call.accepted, hv]
    | registerAuditHooks hasher => rfl

/-- Whatever was published, and wherever the hasher was registered, the ring verifies. -/
theorem honest_history_verifies (calls : List Call) (h : calls.countP Call.registers ≤ 1) :
    let n := run Node.step .new calls
    let all := history .new calls
    n.auditVerify = .ok (.ofNat n.audit.ring.entries.length) ∧
      n.audit.ring.entries = all.rtake stampRingCap ∧
      all.length = calls.countP Call.accepted ∧
      all.map (·.seq) = (List.range all.length).map UInt64.ofNat ∧
      all.map (·.eventId) = (List.range all.length).map fun i => UInt64.ofNat (i+1) := by
  intro n all
  have hn : Honest n all := run_honest_once h new_plain new_honest
  refine ⟨?_, hn.kept, history_length .new calls, hn.seqs, hn.events⟩
  rw [Node.auditVerify, verifyStamps, verifyFrom_count hn.linked.chained, UInt64.zero_add]

def mixedCalls : List Call :=
  [.publish 0 ⟨0, [0x54], [1], .legacy 1⟩, .registerAuditHooks (.registered taggedFnv),
    .publish 7 ⟨0, [0x54], [2], .legacy 1⟩]

theorem mixedCalls_verify : mixedCalls.countP Call.registers ≤ 1 ∧
    (run Node.step .new mixedCalls).auditVerify = .ok 2 := by
  have h := honest_history_verifies mixedCalls (by decide)
  refine ⟨by decide, h.1.trans ?_⟩
  rw [h.2.1, List.rtake, List.length_drop, h.2.2.1]
  decide

end NeuralOs.EventBus.HonestHistory
