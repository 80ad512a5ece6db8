import NeuralOs.Lib.ByteString
import NeuralOs.Lib.HashChain

/-!
# The event bus

A queue is shared by the topic map and by its receiver and counts its owners;
dropping the receiver only lowers the count, and the next publication on the topic
prunes the queue. Queues are bounded and displace their oldest event. Every lock is
taken without contention.
-/

set_option autoImplicit false

namespace NeuralOs.EventBus.Stamp
open ByteString HashChain

abbrev Digest := Vector UInt8 32

inductive CapabilityToken
  | legacy (val : UInt64)
  | ed25519 (publicKey : Vector UInt8 32) (signature : Vector UInt8 64)
  deriving DecidableEq

/-- An identity carries no message to check its signature against, so it is refused. -/
def CapabilityToken.isValid : CapabilityToken → Bool
  | .legacy val => val > 0
  | .ed25519 _ _ => false

def CapabilityToken.asLegacy : CapabilityToken → UInt64
  | .legacy val => val
  | .ed25519 _ _ => 0

structure Event where
  id : UInt64
  topic : Bytes
  payload : Bytes
  token : CapabilityToken
  deriving DecidableEq

structure Body where
  seq : UInt64
  eventId : UInt64
  tokenId : UInt64
  publisher : UInt64
  causalParentId : UInt64
  taintLabel : UInt32
  algo : UInt8
  digestLen : UInt32
  payloadDigest : Digest
  deriving DecidableEq

structure Stamp extends Body where
  chainHash : Digest
  deriving DecidableEq

def stampRingCap : ℕ := 512

def hashPrefixMax : ℕ := 256

structure StampRing where
  entries : List Stamp
  lastHash : Digest
  baseHash : Digest
  nextSeq : UInt64
  dropped : UInt64

def zeroHash : Digest := Vector.replicate 32 0

def StampRing.new : StampRing := ⟨[], zeroHash, zeroHash, 0, 0⟩

/-- When the ring is full the oldest stamp goes, and its hash becomes the base. -/
def StampRing.evict (r : StampRing) : StampRing :=
  if r.entries.length ≥ stampRingCap then
    match r.entries with
    | [] => r
    | ev::rest => { r with
        entries := rest
        baseHash := ev.chainHash
        dropped := if r.dropped.toNat+1 < 2^64 then r.dropped+1 else r.dropped }
  else r

def StampRing.push (r : StampRing) (st : Stamp) : StampRing :=
  let r := r.evict
  { r with
    lastHash := st.chainHash
    nextSeq := st.seq+1
    entries := r.entries ++ [st] }

abbrev HashFn := Bytes → Digest

def fnvStep (h : UInt64) (b : UInt8) : UInt64 := (h ^^^ b.toUInt64)*0x100000001b3

def fnv1a64Pad32 : HashFn := fun data =>
  let h := data.foldl fnvStep 0xcbf29ce484222325
  Vector.ofFn fun i => (toLe 8 h.toNat).getD i 0

inductive Hasher
  | fallback
  | registered (hash : HashFn)

def Hasher.fn : Hasher → HashFn
  | .fallback => fnv1a64Pad32
  | .registered hash => hash

def algoFor : Hasher → UInt8
  | .fallback => 0
  | .registered _ => 1

/-- Append to a buffer of `room` bytes what still fits. -/
def copyInto (room : ℕ) (dst src : Bytes) : Bytes := dst ++ src.take (room-dst.length)

def putU64 (room : ℕ) (dst : Bytes) (v : UInt64) : Bytes := copyInto room dst (toLe 8 v.toNat)

def putU32 (room : ℕ) (dst : Bytes) (v : UInt32) : Bytes := copyInto room dst (toLe 4 v.toNat)

def chainBuf (prev : Digest) (b : Body) : Bytes :=
  let p := copyInto 128 [] prev.toList
  let p := putU64 128 p b.seq
  let p := putU64 128 p b.eventId
  let p := putU64 128 p b.tokenId
  let p := putU64 128 p b.publisher
  let p := putU64 128 p b.causalParentId
  let p := putU32 128 p b.taintLabel
  let p := copyInto 128 p [b.algo]
  let p := putU32 128 p b.digestLen
  copyInto 128 p b.payloadDigest.toList

def chainOf (prev : Digest) (b : Body) (hasher : HashFn) : Digest := hasher (chainBuf prev b)

def audioTag : Bytes := [0x41, 0x55, 0x44, 0x49, 0x4F, 0x5F]

def buildStamp (seq eventId tokenId publisher : UInt64) (prev : Digest) (topic payload : Bytes)
    (hasher : Hasher) : Stamp :=
  let prefixLen := if audioTag.isPrefixOf topic then 0 else min payload.length hashPrefixMax
  let d := copyInto 328 [] (topic.take (min topic.length 64))
  let d := copyInto 328 d (payload.take prefixLen)
  let d := putU64 328 d (.ofNat payload.length)
  let body : Body := ⟨seq, eventId, tokenId, publisher, 0, 0, algoFor hasher,
    .ofNat prefixLen, hasher.fn d⟩
  ⟨body, chainOf prev body hasher.fn⟩

/-- A stamp names its algorithm: 0 is the fallback, anything else the hasher passed. -/
def link (hasher : HashFn) (prev : Digest) (b : Body) : Digest :=
  chainOf prev b (if b.algo = 0 then fnv1a64Pad32 else hasher)

def verifyFrom (hasher : HashFn) : Digest → UInt64 → List Stamp → Except UInt64 UInt64
  | _, n, [] => .ok n
  | prev, n, st::l =>
    if link hasher prev st.toBody ≠ st.chainHash then .error st.seq
    else verifyFrom hasher st.chainHash (n+1) l

def verifyStamps (r : StampRing) (hasher : HashFn) : Except UInt64 UInt64 :=
  verifyFrom hasher r.baseHash 0 r.entries

structure Audit where
  ring : StampRing
  nextSeq : UInt64

def Audit.new : Audit := ⟨.new, 0⟩

def Audit.stamp (a : Audit) (hasher : Hasher) (publisher : UInt64) (e : Event) : Audit :=
  ⟨a.ring.push (buildStamp a.nextSeq e.id e.token.asLegacy publisher a.ring.lastHash e.topic
    e.payload hasher), a.nextSeq+1⟩

end NeuralOs.EventBus.Stamp

/-! ## The event bus -/

namespace NeuralOs.EventBus.Bus
open ByteString Stamp

def defaultQueueDepth : ℕ := 64

def streamQueueDepth : ℕ := 8

def streamTopics : List Bytes :=
  [audioTag ++ [0x46, 0x52, 0x41, 0x4D, 0x45], audioTag ++ [0x49, 0x4E],
    audioTag ++ [0x4F, 0x55, 0x54]]

def queueDepthFor (topic : Bytes) : ℕ :=
  if topic ∈ streamTopics then streamQueueDepth else defaultQueueDepth

def shed (depth : ℕ) : List Event → List Event
  | [] => []
  | e::q => if q.length+1 ≥ depth then shed depth q else e::q

def pushBounded (q : List Event) (event : Event) (depth : ℕ) : List Event :=
  shed depth q ++ [event]

structure Cell where
  queue : List Event
  strong : ℕ

structure Receiver where
  topic : Bytes
  queue : ℕ

structure EventBus where
  subscribers : Bytes → Option (List ℕ)
  nextEventId : UInt64
  audit : Audit

structure World where
  bus : EventBus
  heap : ℕ → Cell
  next : ℕ
  receivers : ℕ → Option Receiver

def World.new : World := ⟨⟨fun _ => none, 1, .new⟩, fun _ => ⟨[], 0⟩, 0, fun _ => none⟩

inductive PublishError
  | invalidToken
  deriving DecidableEq

inductive Op
  | subscribe (topic : Bytes)
  | unsubscribe (rx : ℕ)
  | dropReceiver (rx : ℕ)
  | publish (hasher : Hasher) (publisher : UInt64) (event : Event)
  | tryReceive (rx : ℕ)

inductive Reply
  | receiver (rx : ℕ)
  | done
  | published (r : Except PublishError ℕ)
  | received (e : Option Event)

def release (heap : ℕ → Cell) (qs : List ℕ) : ℕ → Cell :=
  fun i => { heap i with strong := (heap i).strong-qs.count i }

def deliver (event : Event) (depth : ℕ) (heap : ℕ → Cell) (q : ℕ) : ℕ → Cell :=
  Function.update heap q { heap q with queue := pushBounded (heap q).queue event depth }

def entryOf (queues : List ℕ) : Option (List ℕ) := if queues = [] then none else some queues

def World.subscribe (w : World) (topic : Bytes) : World × Reply :=
  let queues := (w.bus.subscribers topic).getD [] ++ [w.next]
  ({ w with
    bus := { w.bus with subscribers := Function.update w.bus.subscribers topic (some queues) }
    heap := Function.update w.heap w.next ⟨[], 2⟩
    next := w.next+1
    receivers := Function.update w.receivers w.next (some ⟨topic, w.next⟩) },
    .receiver w.next)

def World.unsubscribe (w : World) (rx : Receiver) : World :=
  match w.bus.subscribers rx.topic with
  | none => w
  | some queues => { w with
      bus := { w.bus with
        subscribers :=
          Function.update w.bus.subscribers rx.topic (entryOf (queues.filter (· ≠ rx.queue))) }
      heap := release w.heap (queues.filter (· = rx.queue)) }

def World.dropReceiver (w : World) (i : ℕ) (rx : Receiver) : World :=
  { w with
    heap := release w.heap [rx.queue]
    receivers := Function.update w.receivers i none }

def World.fanOut (w : World) (event : Event) : World × ℕ :=
  match w.bus.subscribers event.topic with
  | none => (w, 0)
  | some queues =>
    let live := queues.filter fun q => (w.heap q).strong > 1
    let zombies := queues.filter fun q => ¬(w.heap q).strong > 1
    ({ w with
      bus := { w.bus with
        subscribers := Function.update w.bus.subscribers event.topic (entryOf live) }
      heap := live.foldl (deliver event (queueDepthFor event.topic)) (release w.heap zombies) },
      live.length)

def World.publish (w : World) (hasher : Hasher) (publisher : UInt64) (event : Event) :
    World × Except PublishError ℕ :=
  if event.token.isValid then
    let event := { event with id := w.bus.nextEventId }
    let w := { w with bus := { w.bus with
      nextEventId := w.bus.nextEventId+1
      audit := w.bus.audit.stamp hasher publisher event } }
    let (w, delivered) := w.fanOut event
    (w, .ok delivered)
  else (w, .error .invalidToken)

def World.tryReceive (w : World) (rx : Receiver) : World × Option Event :=
  match (w.heap rx.queue).queue with
  | [] => (w, none)
  | e::q =>
    ({ w with heap := Function.update w.heap rx.queue { w.heap rx.queue with queue := q } },
      some e)

/-- A dropped receiver can no longer be used. -/
def World.step (w : World) : Op → World × Reply
  | .subscribe topic => w.subscribe topic
  | .unsubscribe i =>
    match w.receivers i with
    | none => (w, .done)
    | some rx => (w.unsubscribe rx, .done)
  | .dropReceiver i =>
    match w.receivers i with
    | none => (w, .done)
    | some rx => (w.dropReceiver i rx, .done)
  | .publish hasher publisher event =>
    let (w, r) := w.publish hasher publisher event
    (w, .published r)
  | .tryReceive i =>
    match w.receivers i with
    | none => (w, .received none)
    | some rx =>
      let (w, e) := w.tryReceive rx
      (w, .received e)

def World.run : World → List Op → World × List Reply
  | w, [] => (w, [])
  | w, op::ops =>
    let (w, r) := w.step op
    let (w, rs) := w.run ops
    (w, r::rs)

end NeuralOs.EventBus.Bus

/-! ## What subscribers are owed -/

namespace NeuralOs.EventBus.Subscription
open ByteString Stamp Bus

def latest (n : ℕ) (l : List Event) : List Event := l.drop (l.length-n)

structure Feed where
  topic : Bytes
  since : ℕ
  subscribed : Bool
  held : Bool
  sent : List Event
  got : List Event
  unread : List Event

def Feed.start (topic : Bytes) (since : ℕ) : Feed := ⟨topic, since, true, true, [], [], []⟩

def Feed.live (f : Feed) (topic : Bytes) : Bool := f.held && f.subscribed && f.topic == topic

def Feed.offer (f : Feed) (e : Event) : Feed :=
  if f.live e.topic then { f with sent := f.sent ++ [e], unread := f.unread ++ [e] } else f

def Feed.read (f : Feed) : Feed × Option Event :=
  match latest (queueDepthFor f.topic) f.unread with
  | [] => (f, none)
  | e::rest => ({ f with got := f.got ++ [e], unread := rest }, some e)

structure Spec where
  feeds : ℕ → Option Feed
  next : ℕ
  log : List Event

def Spec.new : Spec := ⟨fun _ => none, 0, []⟩

def Spec.liveCount (v : Spec) (topic : Bytes) : ℕ :=
  ((List.range v.next).filter fun i => (v.feeds i).any (·.live topic)).length

def Spec.alter (v : Spec) (i : ℕ) (g : Feed → Feed) : Spec :=
  { v with feeds := Function.update v.feeds i ((v.feeds i).map g) }

def Spec.holder (v : Spec) (i : ℕ) : Option Feed := (v.feeds i).filter (·.held)

def Spec.step (v : Spec) : Op → Spec × Reply
  | .subscribe topic =>
    ({ v with
      feeds := Function.update v.feeds v.next (some (.start topic v.log.length))
      next := v.next+1 }, .receiver v.next)
  | .unsubscribe i =>
    match v.holder i with
    | none => (v, .done)
    | some _ => (v.alter i fun f => { f with subscribed := false }, .done)
  | .dropReceiver i =>
    match v.holder i with
    | none => (v, .done)
    | some _ => (v.alter i fun f => { f with held := false }, .done)
  | .publish _ _ event =>
    if event.token.isValid then
      let event := { event with id := .ofNat (v.log.length+1) }
      ({ v with
        feeds := fun i => (v.feeds i).map (·.offer event)
        log := v.log ++ [event] }, .published (.ok (v.liveCount event.topic)))
    else (v, .published (.error .invalidToken))
  | .tryReceive i =>
    match v.holder i with
    | none => (v, .received none)
    | some f => (v.alter i fun f => f.read.1, .received f.read.2)

def Spec.run : Spec → List Op → Spec × List Reply
  | v, [] => (v, [])
  | v, op::ops =>
    let (v, r) := v.step op
    let (v, rs) := v.run ops
    (v, r::rs)

/-! ### Queues -/

theorem depth_pos (topic : Bytes) : 0 < queueDepthFor topic := by
  rw [queueDepthFor]
  split <;> decide

theorem shed_eq (depth : ℕ) (q : List Event) : shed depth q = q.drop (q.length+1-depth) := by
  induction q with
  | nil => simp [shed]
  | cons e q ih =>
    rw [shed]
    split
    next h =>
      rw [ih, List.length_cons, show q.length+1+1-depth = q.length+1-depth+1 by omega]
      rfl
    next h =>
      rw [List.length_cons, show q.length+1+1-depth = 0 by omega]
      rfl

theorem pushBounded_latest {depth : ℕ} (hd : 0 < depth) (l : List Event) (e : Event) :
    pushBounded (latest depth l) e depth = latest depth (l ++ [e]) := by
  rw [pushBounded, shed_eq, latest, latest, List.drop_drop, List.length_drop,
    List.length_append, List.length_singleton, List.drop_append_of_le_length (by omega)]
  congr 2
  omega

theorem latest_length (n : ℕ) (l : List Event) : (latest n l).length ≤ n := by
  simp [latest]
  omega

theorem latest_of_le {n : ℕ} {l : List Event} (h : l.length ≤ n) : latest n l = l := by
  rw [latest, Nat.sub_eq_zero_of_le h, List.drop_zero]

theorem foldl_deliver (e : Event) (depth : ℕ) {qs : List ℕ} (hqs : qs.Nodup) (heap : ℕ → Cell)
    (i : ℕ) :
    qs.foldl (deliver e depth) heap i =
      if i ∈ qs then { heap i with queue := pushBounded (heap i).queue e depth } else heap i := by
  induction qs generalizing heap with
  | nil => simp
  | cons q qs ih =>
    obtain ⟨hq, hqs⟩ := List.nodup_cons.mp hqs
    rw [List.foldl_cons, ih hqs]
    by_cases hi : i = q
    · subst hi
      simp [hq, deliver]
    · simp [hi, deliver]

@[simp] theorem entryOf_getD (l : List ℕ) : (entryOf l).getD [] = l := by
  rw [entryOf]
  split
  next h => simp [h]
  · rfl

/-! ### The bus follows its specification -/

def slots (w : World) (topic : Bytes) : List ℕ := (w.bus.subscribers topic).getD []

structure Follows (w : World) (v : Spec) : Prop where
  next : w.next = v.next
  ids : w.bus.nextEventId = .ofNat (v.log.length+1)
  fresh : ∀ i, v.next ≤ i → v.feeds i = none
  handle : ∀ i, w.receivers i = (v.holder i).map fun f => ⟨f.topic, i⟩
  listed : ∀ t, ∀ q ∈ slots w t, ∃ f, v.feeds q = some f ∧ f.topic = t
  nodup : ∀ t, (slots w t).Nodup
  inside : ∀ i f, v.feeds i = some f → f.held = true →
    (i ∈ slots w f.topic ↔ f.subscribed = true)
  strong : ∀ i f, v.feeds i = some f →
    (w.heap i).strong = (if i ∈ slots w f.topic then 1 else 0)+f.held.toNat
  queue : ∀ i f, v.feeds i = some f → f.held = true →
    (w.heap i).queue = latest (queueDepthFor f.topic) f.unread

theorem follows_new : Follows .new .new := by
  constructor <;> simp [World.new, Spec.new, Spec.holder, slots]

variable {w : World} {v : Spec} {i j : ℕ} {f : Feed}

theorem known_lt (h : Follows w v) (hf : v.feeds i = some f) : i < v.next := by
  by_contra hi
  rw [h.fresh i (by omega)] at hf
  cases hf

theorem holder_some (h : v.holder i = some f) : v.feeds i = some f ∧ f.held = true := by
  simpa [Spec.holder] using h

theorem subscribe_follows (h : Follows w v) (topic : Bytes) :
    Follows (w.subscribe topic).1 (v.step (.subscribe topic)).1 := by
  have hnew : ∀ t, w.next ∉ slots w t := by
    intro t hmem
    obtain ⟨f, hf, -⟩ := h.listed t _ hmem
    have := known_lt h hf
    have := h.next
    omega
  have hslots : ∀ t, slots (w.subscribe topic).1 t =
      slots w t ++ if t = topic then [w.next] else [] := by
    intro t
    by_cases ht : t = topic <;> simp [slots, World.subscribe, ht]
  have hmem : ∀ i t, i ≠ v.next → (i ∈ slots (w.subscribe topic).1 t ↔ i ∈ slots w t) := by
    intro i t hi
    rw [← h.next] at hi
    rw [hslots, List.mem_append]
    split <;> simp [hi]
  have hfirst : (v.step (.subscribe topic)).1.feeds v.next = some (.start topic v.log.length) := by
    simp [Spec.step]
  have hheap : (w.subscribe topic).1.heap v.next = ⟨[], 2⟩ := by
    simp [World.subscribe, h.next]
  have hfeeds : ∀ i, i ≠ v.next → (v.step (.subscribe topic)).1.feeds i = v.feeds i := by
    intro i hi
    simp [Spec.step, hi]
  have hcells : ∀ i, i ≠ v.next → (w.subscribe topic).1.heap i = w.heap i := by
    intro i hi
    simp [World.subscribe, h.next, hi]
  constructor
  · simp [World.subscribe, Spec.step, h.next]
  · exact h.ids
  · intro i hi
    simp only [Spec.step] at hi ⊢
    rw [Function.update_of_ne (by omega)]
    exact h.fresh i (by omega)
  · intro i
    by_cases hi : i = v.next
    · rw [hi, Spec.holder, hfirst]
      simp [World.subscribe, h.next, Feed.start]
    · rw [Spec.holder, hfeeds i hi, ← Spec.holder, ← h.handle i]
      simp [World.subscribe, h.next, hi]
  · intro t q hq
    by_cases hi : q = v.next
    · refine ⟨_, hi ▸ hfirst, ?_⟩
      change topic = t
      by_contra ht
      rw [hslots, if_neg (Ne.symm ht), List.append_nil] at hq
      exact hnew t (by rwa [h.next, ← hi])
    · rw [hfeeds q hi]
      exact h.listed t q ((hmem q t hi).mp hq)
  · intro t
    rw [hslots]
    split
    · refine List.nodup_append.mpr ⟨h.nodup t, List.nodup_singleton _, ?_⟩
      rintro a ha b hb rfl
      exact hnew t (List.mem_singleton.mp hb ▸ ha)
    · simpa using h.nodup t
  · intro i f hf hheld
    by_cases hi : i = v.next
    · rw [hi, hfirst] at hf
      rw [← Option.some.inj hf, hslots]
      simp [hi, Feed.start, h.next]
    · rw [hmem i _ hi]
      exact h.inside i f (hfeeds i hi ▸ hf) hheld
  · intro i f hf
    by_cases hi : i = v.next
    · rw [hi, hfirst] at hf
      rw [← Option.some.inj hf, hslots, hi, hheap]
      simp [Feed.start, h.next]
    · simp only [hmem i _ hi, hcells i hi]
      exact h.strong i f (hfeeds i hi ▸ hf)
  · intro i f hf hheld
    by_cases hi : i = v.next
    · rw [hi, hfirst] at hf
      rw [← Option.some.inj hf, hi, hheap]
      simp [Feed.start, latest]
    · rw [hcells i hi]
      exact h.queue i f (hfeeds i hi ▸ hf) hheld

variable {g : Feed → Feed}

theorem alter_feeds_ne (hj : j ≠ i) : (v.alter i g).feeds j = v.feeds j := by
  simp [Spec.alter, hj]

theorem alter_feeds_self (hf : v.feeds i = some f) : (v.alter i g).feeds i = some (g f) := by
  simp [Spec.alter, hf]

theorem alter_follows (h : Follows w v) (hf : v.feeds i = some f) {w' : World}
    (hnext : w'.next = w.next) (hids : w'.bus.nextEventId = w.bus.nextEventId)
    (htopic : (g f).topic = f.topic)
    (hother : ∀ j, j ≠ i → w'.receivers j = w.receivers j ∧ w'.heap j = w.heap j ∧
      ∀ t, j ∈ slots w' t ↔ j ∈ slots w t)
    (hnodup : ∀ t, (slots w' t).Nodup) (hsub : ∀ t, i ∈ slots w' t → i ∈ slots w t)
    (hrecv : w'.receivers i = if (g f).held then some ⟨f.topic, i⟩ else none)
    (hin : (g f).held = true → (i ∈ slots w' f.topic ↔ (g f).subscribed = true))
    (hstrong : (w'.heap i).strong =
      (if i ∈ slots w' f.topic then 1 else 0)+(g f).held.toNat)
    (hqueue : (g f).held = true →
      (w'.heap i).queue = latest (queueDepthFor f.topic) (g f).unread) :
    Follows w' (v.alter i g) := by
  have hself := alter_feeds_self hf (g := g)
  constructor
  · exact hnext.trans h.next
  · exact hids.trans h.ids
  · intro j hj
    have := known_lt h hf
    have hle : v.next ≤ j := hj
    rw [alter_feeds_ne (by omega)]
    exact h.fresh j hj
  · intro j
    by_cases hj : j = i
    · rw [hj, hrecv, Spec.holder, hself, ← htopic]
      cases hh : (g f).held <;> simp [hh]
    · rw [(hother j hj).1, h.handle j, Spec.holder, Spec.holder, alter_feeds_ne hj]
  · intro t q hq
    by_cases hqi : q = i
    · subst hqi
      obtain ⟨f', hf', ht⟩ := h.listed t q (hsub t hq)
      rw [hf] at hf'
      exact ⟨_, hself, htopic.trans ((Option.some.inj hf') ▸ ht)⟩
    · rw [alter_feeds_ne hqi]
      exact h.listed t q (((hother q hqi).2.2 t).mp hq)
  · exact hnodup
  · intro j f' hf' hheld
    by_cases hj : j = i
    · subst hj
      rw [hself] at hf'
      rw [← Option.some.inj hf'] at hheld ⊢
      rw [htopic]
      exact hin hheld
    · rw [alter_feeds_ne hj] at hf'
      rw [(hother j hj).2.2]
      exact h.inside j f' hf' hheld
  · intro j f' hf'
    by_cases hj : j = i
    · subst hj
      rw [hself] at hf'
      rw [← Option.some.inj hf', htopic]
      exact hstrong
    · rw [alter_feeds_ne hj] at hf'
      simp only [(hother j hj).2.2, (hother j hj).2.1]
      exact h.strong j f' hf'
  · intro j f' hf' hheld
    by_cases hj : j = i
    · subst hj
      rw [hself] at hf'
      rw [← Option.some.inj hf'] at hheld ⊢
      rw [htopic]
      exact hqueue hheld
    · rw [alter_feeds_ne hj] at hf'
      rw [(hother j hj).2.1]
      exact h.queue j f' hf' hheld

theorem receiver_held (h : Follows w v) (hf : v.feeds i = some f) (hheld : f.held = true) :
    w.receivers i = some ⟨f.topic, i⟩ := by
  rw [h.handle, Spec.holder, hf]
  simp [hheld]

theorem unsubscribe_slots (h : Follows w v) (hf : v.feeds i = some f) (t : Bytes) :
    slots (w.unsubscribe ⟨f.topic, i⟩) t = (slots w t).filter (· ≠ i) := by
  have hother : t ≠ f.topic → (slots w t).filter (· ≠ i) = slots w t := by
    intro ht
    refine List.filter_eq_self.mpr fun q hq => ?_
    have hqi : q ≠ i := by
      rintro rfl
      obtain ⟨f', hf', ht'⟩ := h.listed t q hq
      rw [hf] at hf'
      exact ht ((Option.some.inj hf') ▸ ht').symm
    simpa using hqi
  rw [World.unsubscribe]
  cases hs : w.bus.subscribers f.topic with
  | none =>
    by_cases ht : t = f.topic
    · simp [slots, ht, hs]
    · exact (hother ht).symm
  | some queues =>
    by_cases ht : t = f.topic
    · simp [slots, ht, hs]
    · rw [hother ht]
      simp [slots, ht]

theorem unsubscribe_heap (h : Follows w v) (f : Feed) (j : ℕ) :
    (w.unsubscribe ⟨f.topic, i⟩).heap j =
      ⟨(w.heap j).queue, (w.heap j).strong-if j = i ∧ i ∈ slots w f.topic then 1 else 0⟩ := by
  rw [World.unsubscribe]
  cases hs : w.bus.subscribers f.topic with
  | none => simp [slots, hs]
  | some queues =>
    have hnd := h.nodup f.topic
    simp only [slots, hs, Option.getD_some] at hnd ⊢
    by_cases hj : j = i
    · subst hj
      simp [release, List.count_filter, hnd.count]
    · simp [release, hj, List.count_eq_zero.mpr]

theorem unsubscribe_rest (rx : Receiver) : (w.unsubscribe rx).next = w.next ∧
    (w.unsubscribe rx).bus.nextEventId = w.bus.nextEventId ∧
    (w.unsubscribe rx).receivers = w.receivers := by
  rw [World.unsubscribe]
  split <;> exact ⟨rfl, rfl, rfl⟩

theorem unsubscribe_follows (h : Follows w v) (hf : v.feeds i = some f) (hheld : f.held = true) :
    Follows (w.unsubscribe ⟨f.topic, i⟩) (v.alter i fun f => { f with subscribed := false }) := by
  obtain ⟨hnext, hids, hrecv⟩ := unsubscribe_rest (w := w) ⟨f.topic, i⟩
  have hslots := unsubscribe_slots h hf
  have hheap := unsubscribe_heap (i := i) h f
  refine alter_follows h hf hnext hids rfl ?_ ?_ ?_ ?_ ?_ ?_ ?_
  · intro j hj
    refine ⟨by rw [hrecv], by rw [hheap]; simp [hj], fun t => ?_⟩
    rw [hslots]
    simp [hj]
  · intro t
    rw [hslots]
    exact (h.nodup t).filter _
  · intro t
    rw [hslots]
    simp
  · rw [hrecv, receiver_held h hf hheld]
    simp [hheld]
  · simp [hslots]
  · rw [hheap, hslots]
    have hstrong := h.strong i f hf
    by_cases hmem : i ∈ slots w f.topic <;> simp [hmem, hheld] at hstrong ⊢ <;> omega
  · intro _
    rw [hheap]
    exact h.queue i f hf hheld

theorem dropReceiver_follows (h : Follows w v) (hf : v.feeds i = some f) (hheld : f.held = true) :
    Follows (w.dropReceiver i ⟨f.topic, i⟩) (v.alter i fun f => { f with held := false }) := by
  refine alter_follows h hf rfl rfl rfl ?_ h.nodup (fun t => id) ?_ (by simp) ?_ (by simp)
  · intro j hj
    refine ⟨by simp [World.dropReceiver, hj], ?_, fun t => Iff.rfl⟩
    simp [World.dropReceiver, release, hj, List.count_eq_zero.mpr]
  · simp [World.dropReceiver]
  · have := h.strong i f hf
    simp only [hheld] at this
    have hs : slots (w.dropReceiver i ⟨f.topic, i⟩) f.topic = slots w f.topic := rfl
    rw [hs]
    simp [World.dropReceiver, release, this]

theorem alter_self (hf : v.feeds i = some f) (hg : g f = f) : v.alter i g = v := by
  rw [Spec.alter, hf, Option.map_some, hg, ← hf, Function.update_eq_self]

theorem tryReceive_follows (h : Follows w v) (hf : v.feeds i = some f) (hheld : f.held = true) :
    Follows (w.tryReceive ⟨f.topic, i⟩).1 (v.alter i fun f => f.read.1) ∧
      (w.tryReceive ⟨f.topic, i⟩).2 = f.read.2 := by
  have hq := h.queue i f hf hheld
  cases hl : latest (queueDepthFor f.topic) f.unread with
  | nil =>
    have hread : f.read = (f, none) := by simp [Feed.read, hl]
    have hrecv : w.tryReceive ⟨f.topic, i⟩ = (w, none) := by simp [World.tryReceive, hq, hl]
    rw [alter_self hf (by rw [hread]), hrecv, hread]
    exact ⟨h, rfl⟩
  | cons e rest =>
    have hread : f.read = ({ f with got := f.got ++ [e], unread := rest }, some e) := by
      simp [Feed.read, hl]
    have hrecv : w.tryReceive ⟨f.topic, i⟩ =
        ({ w with heap := Function.update w.heap i { w.heap i with queue := rest } }, some e) := by
      simp [World.tryReceive, hq, hl]
    have hlen := latest_length (queueDepthFor f.topic) f.unread
    rw [hl, List.length_cons] at hlen
    rw [hrecv]
    refine ⟨?_, by rw [hread]⟩
    refine alter_follows h hf rfl rfl (by rw [hread]) ?_ h.nodup (fun t => id) ?_ ?_ ?_ ?_
    · intro j hj
      exact ⟨rfl, Function.update_of_ne hj _ _, fun t => Iff.rfl⟩
    · rw [hread]
      simpa [hheld] using receiver_held h hf hheld
    · rw [hread]
      exact h.inside i f hf
    · rw [hread]
      exact (congrArg Cell.strong (Function.update_self i _ w.heap)).trans (h.strong i f hf)
    · rw [hread]
      intro _
      simpa using (latest_of_le (by omega)).symm

end NeuralOs.EventBus.Subscription
