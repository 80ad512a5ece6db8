import NeuralOs.Lib.KeyedList
import NeuralOs.Lib.Machine
import NeuralOs.Bpe.RoundTrip

/-!
# The skill output cache

Outputs of idempotent skills are kept for a time under a 64-bit hash of the
skill's name followed by its payload. The name and the payload themselves are
not stored, so an answer is the output of the last call with the same hash.
-/

set_option autoImplicit false

namespace NeuralOs.Skills
open ByteString KeyedList
open Bpe (utf8)

def maxEntries : ℕ := 64
def u64Max : ℕ := 2^64-1

structure CacheEntry where
  output : Bytes
  expiresAtTick : ℕ
  deriving DecidableEq

/-- The map is a list in increasing key order. -/
structure OutputCache where
  cache : List (ℕ × CacheEntry)
  defaultTtl : ℕ
  hits : ℕ
  misses : ℕ
  sorted : Sorted cache

namespace OutputCache

def new (defaultTtl : ℕ) : OutputCache := ⟨[], defaultTtl, 0, 0, List.Pairwise.nil⟩

def hashByte (h : ℕ) (b : UInt8) : ℕ := (h*33+b.toNat) % 2^64

def hash (name : List Char) (payload : Bytes) : ℕ :=
  payload.foldl hashByte ((utf8 name).foldl hashByte 5381)

variable (c : OutputCache)

def get (name : List Char) (payload : Bytes) (now : ℕ) : OutputCache × Option Bytes :=
  match c.cache.lookup (hash name payload) with
  | some entry =>
    if now < entry.expiresAtTick then
      ({ c with hits := min (c.hits+1) u64Max }, some entry.output)
    else ({ c with misses := min (c.misses+1) u64Max }, none)
  | none => ({ c with misses := min (c.misses+1) u64Max }, none)

def evictExpired (now : ℕ) : OutputCache :=
  { c with
    cache := c.cache.filter fun e => now < e.2.expiresAtTick
    sorted := c.sorted.sublist List.filter_sublist }

def dropWhileFull : List (ℕ × CacheEntry) → List (ℕ × CacheEntry)
  | [] => []
  | e::l => if (e::l).length ≥ maxEntries then dropWhileFull l else e::l

theorem dropWhileFull_suffix (l : List (ℕ × CacheEntry)) : dropWhileFull l <:+ l := by
  induction l with
  | nil => exact List.suffix_rfl
  | cons e l ih =>
    rw [dropWhileFull]
    split
    · exact ih.trans (List.suffix_cons e l)
    · exact List.suffix_rfl

theorem dropWhileFull_length (l : List (ℕ × CacheEntry)) :
    (dropWhileFull l).length < maxEntries := by
  induction l with
  | nil => decide
  | cons e l ih =>
    rw [dropWhileFull]
    split
    next => exact ih
    next h => exact Nat.lt_of_not_le h

def dropSmallest : OutputCache :=
  { c with
    cache := dropWhileFull c.cache
    sorted := c.sorted.sublist (dropWhileFull_suffix _).sublist }

def makeRoom (now : ℕ) : OutputCache :=
  (if c.cache.length ≥ maxEntries then c.evictExpired now else c).dropSmallest

theorem sorted_put {l : List (ℕ × CacheEntry)} (h : Sorted l) (k : ℕ) (v : CacheEntry) :
    Sorted (ins k v (l.filter fun e => e.1 ≠ k)) := by
  apply sorted_ins (h.sublist List.filter_sublist)
  intro e he
  simpa using (List.mem_filter.mp he).2

def insert (k : ℕ) (v : CacheEntry) : OutputCache :=
  { c with
    cache := ins k v (c.cache.filter fun e => e.1 ≠ k)
    sorted := sorted_put c.sorted k v }

def set (name : List Char) (payload output : Bytes) (now : ℕ) (ttl : Option ℕ) : OutputCache :=
  (c.makeRoom now).insert (hash name payload)
    ⟨output, min (now + ttl.getD c.defaultTtl) u64Max⟩

end OutputCache

inductive Call
  | set (name : List Char) (payload output : Bytes) (now : ℕ) (ttl : Option ℕ)
  | get (name : List Char) (payload : Bytes) (now : ℕ)
  | evictExpired (now : ℕ)

def exec (c : OutputCache) : Call → OutputCache
  | .set name payload output now ttl => c.set name payload output now ttl
  | .get name payload now => (c.get name payload now).1
  | .evictExpired now => c.evictExpired now

def runCalls (ttl : ℕ) (calls : List Call) : OutputCache :=
  Machine.run exec (OutputCache.new ttl) calls

def Call.entry (ttl : ℕ) : Call → Option ((List Char × Bytes) × CacheEntry)
  | .set name payload output now own =>
    some ((name, payload), ⟨output, min (now + own.getD ttl) u64Max⟩)
  | _ => none

/-- The entry of the last `set` whose name and payload satisfy `p`. -/
def lastSet (ttl : ℕ) (p : List Char × Bytes → Bool) (calls : List Call) : Option CacheEntry :=
  (((calls.filterMap (Call.entry ttl)).filter fun e => p e.1).getLast?).map Prod.snd

/-! ## What the map holds -/

section holds
variable {ttl : ℕ} {p : List Char × Bytes → Bool} {calls : List Call} {call : Call}

theorem lastSet_other (h : ∀ e, call.entry ttl = some e → p e.1 = false) :
    lastSet ttl p (calls++[call]) = lastSet ttl p calls := by
  cases hcall : call.entry ttl with
  | none => simp [lastSet, List.filterMap_append, hcall]
  | some e => simp [lastSet, List.filterMap_append, List.filter_append, hcall, h e hcall]

theorem lastSet_own {e : (List Char × Bytes) × CacheEntry} (hcall : call.entry ttl = some e)
    (hp : p e.1 = true) : lastSet ttl p (calls++[call]) = some e.2 := by
  simp [lastSet, List.filterMap_append, List.filter_append, hcall, hp]

def key (q : List Char × Bytes) : ℕ := OutputCache.hash q.1 q.2

/-- Every entry was left by the last `set` with its hash. -/
structure Holds (ttl : ℕ) (calls : List Call) (c : OutputCache) : Prop where
  default : c.defaultTtl = ttl
  bound : c.cache.length ≤ maxEntries
  last : ∀ k e, (k, e) ∈ c.cache → lastSet ttl (fun q => key q = k) calls = some e

theorem Holds.of_sublist {c d : OutputCache} (h : Holds ttl calls c)
    (hsub : d.cache.Sublist c.cache) (httl : d.defaultTtl = c.defaultTtl)
    (hcall : call.entry ttl = none) : Holds ttl (calls++[call]) d where
  default := httl.trans h.default
  bound := hsub.length_le.trans h.bound
  last k e he := by
    rw [lastSet_other]
    · exact h.last k e (hsub.subset he)
    · intro x hx
      rw [hcall] at hx
      cases hx

theorem makeRoom_sublist (c : OutputCache) (now : ℕ) : (c.makeRoom now).cache.Sublist c.cache := by
  unfold OutputCache.makeRoom
  split
  · exact (OutputCache.dropWhileFull_suffix _).sublist.trans List.filter_sublist
  · exact (OutputCache.dropWhileFull_suffix _).sublist

theorem makeRoom_defaultTtl (c : OutputCache) (now : ℕ) :
    (c.makeRoom now).defaultTtl = c.defaultTtl := by
  unfold OutputCache.makeRoom
  split <;> rfl

theorem Holds.set {c : OutputCache} (h : Holds ttl calls c) (name : List Char)
    (payload output : Bytes) (now : ℕ) (own : Option ℕ) :
    Holds ttl (calls++[.set name payload output now own])
      (c.set name payload output now own) where
  default := (makeRoom_defaultTtl c now).trans h.default
  bound := by
    have hroom : (c.makeRoom now).cache.length < maxEntries :=
      OutputCache.dropWhileFull_length _
    have hfilter := List.length_filter_le (fun e => decide (e.1 ≠ OutputCache.hash name payload))
      (c.makeRoom now).cache
    simp only [OutputCache.set, OutputCache.insert, length_ins]
    omega
  last k e he := by
    simp only [OutputCache.set, OutputCache.insert, mem_ins, Prod.mk.injEq] at he
    rcases he with ⟨rfl, rfl⟩ | he
    · have hentry : Call.entry ttl (.set name payload output now own) =
          some ((name, payload), ⟨output, min (now + own.getD ttl) u64Max⟩) := rfl
      rw [h.default]
      exact lastSet_own hentry (decide_eq_true rfl)
    · obtain ⟨hmem, hne⟩ := List.mem_filter.mp he
      rw [lastSet_other]
      · exact h.last k e ((makeRoom_sublist c now).subset hmem)
      · intro x hx
        cases hx
        exact decide_eq_false (Ne.symm (of_decide_eq_true hne))

theorem Holds.exec {c : OutputCache} (h : Holds ttl calls c) (call : Call) :
    Holds ttl (calls++[call]) (exec c call) := by
  cases call with
  | set name payload output now own => exact h.set name payload output now own
  | get name payload now =>
    have hsame : (c.get name payload now).1.cache = c.cache ∧
        (c.get name payload now).1.defaultTtl = c.defaultTtl := by
      unfold OutputCache.get
      split
      · split <;> exact ⟨rfl, rfl⟩
      · exact ⟨rfl, rfl⟩
    exact h.of_sublist (hsame.1 ▸ List.Sublist.refl _) hsame.2 rfl
  | evictExpired now => exact h.of_sublist List.filter_sublist rfl rfl

theorem holds_run (ttl : ℕ) (calls : List Call) : Holds ttl calls (runCalls ttl calls) := by
  induction calls using List.reverseRecOn with
  | nil => exact ⟨rfl, Nat.zero_le _, fun k e he => absurd he List.not_mem_nil⟩
  | append_singleton calls call ih =>
    rw [runCalls, Machine.run_append]
    exact ih.exec call

end holds

/-! ## Whose output an answer is -/

/-- An answer is the unexpired output of the last `set` for exactly that name and payload. -/
def AnswersOwn (ttl : ℕ) (calls : List Call) (q : List Char × Bytes) : Prop :=
  ∀ now out, ((runCalls ttl calls).get q.1 q.2 now).2 = some out →
    ∃ e, lastSet ttl (fun r => r = q) calls = some e ∧ e.output = out ∧ now < e.expiresAtTick

theorem get_eq_some {c : OutputCache} {name : List Char} {payload out : Bytes} {now : ℕ}
    (h : (c.get name payload now).2 = some out) :
    ∃ e, (OutputCache.hash name payload, e) ∈ c.cache ∧ e.output = out ∧ now < e.expiresAtTick := by
  unfold OutputCache.get at h
  split at h
  next e he =>
    split at h
    next hnow =>
      cases h
      exact ⟨e, (lookup_iff_mem c.sorted).mp he, rfl, hnow⟩
    next => cases h
  next => cases h

def SetsIn (Q : Set (List Char × Bytes)) (ttl : ℕ) (calls : List Call) : Prop :=
  ∀ call ∈ calls, ∀ e, call.entry ttl = some e → e.1 ∈ Q

theorem lastSet_congr {ttl : ℕ} {calls : List Call} {p r : List Char × Bytes → Bool}
    {Q : Set (List Char × Bytes)} (hQ : SetsIn Q ttl calls) (h : ∀ q ∈ Q, p q = r q) :
    lastSet ttl p calls = lastSet ttl r calls := by
  have hfilter : (calls.filterMap (Call.entry ttl)).filter (fun e => p e.1) =
      (calls.filterMap (Call.entry ttl)).filter fun e => r e.1 := by
    apply List.filter_congr
    intro e he
    obtain ⟨call, hcall, hentry⟩ := List.mem_filterMap.mp he
    exact h e.1 (hQ call hcall e hentry)
  rw [lastSet, lastSet, hfilter]

theorem answersOwn_of_injOn {Q : Set (List Char × Bytes)} (hkey : Set.InjOn key Q) {ttl : ℕ}
    {calls : List Call} (hQ : SetsIn Q ttl calls) {q : List Char × Bytes} (hq : q ∈ Q) :
    AnswersOwn ttl calls q := by
  intro now out hget
  obtain ⟨e, he, hout, hnow⟩ := get_eq_some hget
  have hlast := (holds_run ttl calls).last _ e he
  refine ⟨e, ?_, hout, hnow⟩
  rw [← hlast]
  apply lastSet_congr hQ
  intro r hr
  exact decide_eq_decide.mpr (hkey.eq_iff hr hq).symm

def oneSet (r : List Char × Bytes) : List Call := [.set r.1 r.2 [1] 0 (some 1)]

theorem oneSet_answers {q r : List Char × Bytes} (h : key r = key q) (ttl : ℕ) :
    ((runCalls ttl (oneSet r)).get q.1 q.2 0).2 = some [1] := by
  have hkey : OutputCache.hash q.1 q.2 = OutputCache.hash r.1 r.2 := h.symm
  simp [runCalls, oneSet, Machine.run, exec, OutputCache.set, OutputCache.insert,
    OutputCache.makeRoom, OutputCache.new, OutputCache.dropSmallest, OutputCache.dropWhileFull,
    maxEntries, ins, OutputCache.get, hkey, u64Max]

/-- The names and payloads of a family of calls get only their own outputs in
every history exactly if no two of them have the same hash. The map never
holds more than 64 entries. -/
theorem answers_own_iff (ttl : ℕ) (Q : Set (List Char × Bytes)) :
    ((∀ calls, SetsIn Q ttl calls → ∀ q ∈ Q, AnswersOwn ttl calls q) ↔ Set.InjOn key Q) ∧
      ∀ calls, (runCalls ttl calls).cache.length ≤ 64 := by
  refine ⟨⟨?_, ?_⟩, fun calls => (holds_run ttl calls).bound⟩
  · intro h r hr q hq hkey
    have hin : SetsIn Q ttl (oneSet r) := by
      intro call hcall e he
      cases List.mem_singleton.mp hcall
      cases he
      exact hr
    obtain ⟨e, he, -⟩ := h (oneSet r) hin q hq 0 [1] (oneSet_answers hkey ttl)
    by_contra hne
    simp [lastSet, oneSet, Call.entry, hne] at he
  · intro hkey calls hQ q hq
    exact answersOwn_of_injOn hkey hQ hq

/-- The output of skill `a` for `bc` is returned for skill `ab` and `c`. -/
theorem other_call_answered :
    ((runCalls 100 [.set ['a'] [98, 99] [1] 0 none]).get ['a', 'b'] [99] 0).2 = some [1] ∧
      lastSet 100 (fun r => r = (['a', 'b'], [99])) [.set ['a'] [98, 99] [1] 0 none] = none := by
  decide

end NeuralOs.Skills
