import NeuralOs.Lib.SlotTable
import NeuralOs.Lib.ByteString

/-!
# The mesh engine

The table of known nodes that one node keeps, its capacity scores and the
election of the master. A node describes itself with what it measured and its
peers with what their heartbeats say. Scores are exact rationals.
-/

set_option autoImplicit false

namespace NeuralOs.Mesh.Engine
open ByteString SlotTable

inductive SimdWeight
  | none
  | sse42
  | avx2
  | avx512
  deriving DecidableEq

def SimdWeight.asF32 : SimdWeight → ℚ
  | .none => 0
  | .sse42 => 1
  | .avx2 => 2
  | .avx512 => 4

inductive NodeTier
  | l0
  | l1
  | l2
  | l3
  | l4
  deriving DecidableEq

def NodeTier.scoreBonus : NodeTier → ℚ
  | .l0 => 1
  | .l1 => 12/10
  | .l2 => 15/10
  | .l3 => 2
  | .l4 => 3

structure NodeCapabilities where
  nodeId : Bytes
  cores : ℕ
  clockMhz : ℕ
  ramGb : ℕ
  l3CacheMb : ℕ
  simd : SimdWeight
  has3dVcache : Bool
  isAnchored : Bool
  tier : NodeTier
  deriving DecidableEq

def NodeCapabilities.capacityScore (c : NodeCapabilities) : ℚ :=
  let computeScore : ℚ := c.cores*c.clockMhz
  let memoryScore : ℚ := c.ramGb*c.simd.asF32
  let cacheScore : ℚ := c.l3CacheMb
  let score := computeScore+memoryScore+cacheScore
  let score := if c.has3dVcache then score*(15/10) else score
  let score := if c.isAnchored then score*(12/10) else score
  score*c.tier.scoreBonus

inductive NodeRole
  | master
  | memory
  | compute
  | worker
  | undecided
  deriving DecidableEq

structure MeshNode where
  capabilities : NodeCapabilities
  role : NodeRole
  lastHeartbeat : UInt64
  online : Bool
  deriving DecidableEq

def MeshNode.new (c : NodeCapabilities) (now : UInt64) : MeshNode := ⟨c, .undecided, now, true⟩

def MeshNode.nid (n : MeshNode) : UInt8 := n.capabilities.nodeId.headD 0

/-- `lastAssign` is a static of `assign_roles`. -/
structure BrainMeshEngine where
  localCapabilities : NodeCapabilities
  nodes : Slots MeshNode
  nodeCount : ℕ
  localRole : NodeRole
  isMaster : Bool
  lastAssign : UInt64

def BrainMeshEngine.new (c : NodeCapabilities) : BrainMeshEngine :=
  ⟨c, vacant 16, 0, .undecided, false, 0⟩

/-- What the engine reads from elsewhere: the timer, whether the first keys had time to
settle, the id of this node and the capabilities that peers announced. -/
structure Surroundings where
  now : UInt64
  tofuSettled : Bool
  nodeId : UInt8
  peerCaps : UInt8 → Option UInt8

def nodeKey (n : MeshNode) : Bytes := n.capabilities.nodeId

def BrainMeshEngine.addOrUpdateNode (e : BrainMeshEngine) (c : NodeCapabilities) (now : UInt64) :
    BrainMeshEngine :=
  if (lookup nodeKey c.nodeId e.nodes).isSome then
    { e with
      nodes := modify nodeKey c.nodeId
        (fun n => { n with capabilities := c, lastHeartbeat := now, online := true }) e.nodes }
  else if e.nodeCount < 16 ∧ none ∈ e.nodes then
    { e with nodes := fill (MeshNode.new c now) e.nodes, nodeCount := e.nodeCount+1 }
  else e

/-! ### Election -/

/-- A higher score wins, and the smaller id among equal scores. -/
def beats (a b : NodeCapabilities) : Prop :=
  b.capacityScore < a.capacityScore ∨
    (a.capacityScore = b.capacityScore ∧ a.nodeId < b.nodeId)

instance (a b : NodeCapabilities) : Decidable (beats a b) :=
  inferInstanceAs (Decidable (_ ∨ _))

/-- One round of the loop: `best` is the winner so far with its slot, or the local node. -/
def electStep (own : NodeCapabilities) (best : Option (MeshNode × ℕ))
    (slot : Option MeshNode × ℕ) : Option (MeshNode × ℕ) :=
  match slot with
  | (none, _) => best
  | (some n, i) =>
    if n.online = true ∧ beats n.capabilities ((best.map (·.1.capabilities)).getD own) then
      some (n, i)
    else best

def BrainMeshEngine.bestNode (e : BrainMeshEngine) : Option (MeshNode × ℕ) :=
  e.nodes.zipIdx.foldl (electStep e.localCapabilities) none

/-- The peer that becomes the memory node: most RAM, then the smaller id. -/
def memoryStep (best : Option (MeshNode × ℕ)) (slot : Option MeshNode × ℕ) :
    Option (MeshNode × ℕ) :=
  match slot with
  | (none, _) => best
  | (some n, i) =>
    if n.online then
      match best with
      | none => some (n, i)
      | some (cur, _) =>
        if cur.capabilities.ramGb < n.capabilities.ramGb ∨
            (n.capabilities.ramGb = cur.capabilities.ramGb ∧ n.nid < cur.nid) then
          some (n, i)
        else best
    else best

def capCompute : UInt8 := 8

def computeOk (env : Surroundings) (n : MeshNode) : Bool :=
  2 ≤ n.capabilities.ramGb &&
    (((env.peerCaps n.nid).getD 0 &&& capCompute) != 0 ||
      n.capabilities.simd == .avx512 || n.capabilities.simd == .avx2)

def assignedRole (env : Surroundings) (memoryNode : Option ℕ) (n : MeshNode) (i : ℕ) : NodeRole :=
  if some i = memoryNode then .memory
  else if computeOk env n then .compute
  else .worker

def assignSlot (env : Surroundings) (memoryNode : Option ℕ) (slot : Option MeshNode × ℕ) :
    Option MeshNode :=
  match slot with
  | (none, _) => none
  | (some n, i) =>
    if n.online then some { n with role := assignedRole env memoryNode n i } else some n

/-- The engine and the `ROLE` messages it sends, a target with its role. -/
def BrainMeshEngine.assignRoles (e : BrainMeshEngine) (env : Surroundings) :
    BrainMeshEngine × List (UInt8 × NodeRole) :=
  if e.isMaster = false ∨ e.localRole ≠ .master then (e, [])
  else if env.tofuSettled = false then (e, [])
  else if e.lastAssign ≠ 0 ∧ env.now-e.lastAssign < 110 then (e, [])
  else
    let memoryNode := (e.nodes.zipIdx.foldl memoryStep none).map (·.2)
    let nodes := e.nodes.zipIdx.map (assignSlot env memoryNode)
    let assigns := (entries nodes).filter (·.online) |>.map fun n => (n.nid, n.role)
    ({ e with nodes := nodes, lastAssign := env.now }, assigns ++ [(env.nodeId, .master)])

def BrainMeshEngine.becomeMaster (e : BrainMeshEngine) (env : Surroundings) :
    BrainMeshEngine × List (UInt8 × NodeRole) :=
  { e with isMaster := true, localRole := .master }.assignRoles env

/-- A finer role that the master assigned is kept. -/
def BrainMeshEngine.becomeWorker (e : BrainMeshEngine) : BrainMeshEngine :=
  if e.localRole = .memory ∨ e.localRole = .compute then { e with isMaster := false }
  else { e with isMaster := false, localRole := .worker }

def BrainMeshEngine.checkElection (e : BrainMeshEngine) (env : Surroundings) :
    BrainMeshEngine × List (UInt8 × NodeRole) :=
  let best := e.bestNode
  if e.localCapabilities.isAnchored then e.becomeMaster env
  else
    match best with
    | none => e.becomeMaster env
    | some (n, i) =>
      ({ e with nodes := e.nodes.set i (some { n with role := .master }) }.becomeWorker, [])

/-! ### Capabilities in `p2p_tick` -/

/-- `((ram_mb + 1023) / 1024).max(1)` -/
def ramGbOf (ramMb : ℕ) : ℕ := max ((ramMb+1023)/1024) 1

def idOf (nid : UInt8) : Bytes := [nid, 0, 0, 0, 0, 0]

def ownCapabilities (tier : NodeTier) (nid : UInt8) (ramMb : ℕ) : NodeCapabilities :=
  ⟨idOf nid, 1, 1000, ramGbOf ramMb % 2^32, 0, .none, false, false, tier⟩

def announcedRam (ramMb : ℕ) : ℕ := min (ramGbOf ramMb) 255

/-- How a node sees the sender of a heartbeat: always of tier L1. -/
def peerCapabilities (sid : UInt8) (ramGb : ℕ) : NodeCapabilities :=
  ⟨idOf sid, 1, 1000, ramGb, 0, .none, false, false, .l1⟩

def BrainMeshEngine.heartbeat (e : BrainMeshEngine) (env : Surroundings) (sid : UInt8)
    (ramGb : ℕ) : BrainMeshEngine × List (UInt8 × NodeRole) :=
  (e.addOrUpdateNode (peerCapabilities sid ramGb) env.now).checkElection env

end NeuralOs.Mesh.Engine

/-! ## Master election -/

namespace NeuralOs.Mesh.Election
open ByteString SlotTable Engine

/-! ### The winner of the loop -/

theorem beats_irrefl (a : NodeCapabilities) : ¬beats a a := by
  rintro (h | ⟨-, h⟩)
  · exact lt_irrefl _ h
  · exact List.lt_irrefl _ h

theorem beats_trans {a b c : NodeCapabilities} (hab : beats a b) (hbc : beats b c) : beats a c := by
  rcases hab with h₁ | ⟨h₁, h₁'⟩ <;> rcases hbc with h₂ | ⟨h₂, h₂'⟩
  · exact .inl (h₂.trans h₁)
  · exact .inl (h₂ ▸ h₁)
  · exact .inl (h₁ ▸ h₂)
  · exact .inr ⟨h₁.trans h₂, List.lt_trans h₁' h₂'⟩

variable (own : NodeCapabilities)

def holder (best : Option (MeshNode × ℕ)) : NodeCapabilities :=
  (best.map (·.1.capabilities)).getD own

theorem electStep_holder (best : Option (MeshNode × ℕ)) (slot : Option MeshNode × ℕ) :
    holder own (electStep own best slot) = holder own best ∨
      beats (holder own (electStep own best slot)) (holder own best) := by
  obtain ⟨o, i⟩ := slot
  cases o with
  | none => exact .inl rfl
  | some n =>
    rw [electStep]
    split
    next h => exact .inr h.2
    · exact .inl rfl

theorem fold_holder (l : List (Option MeshNode × ℕ)) (best : Option (MeshNode × ℕ)) :
    holder own (l.foldl (electStep own) best) = holder own best ∨
      beats (holder own (l.foldl (electStep own) best)) (holder own best) := by
  induction l generalizing best with
  | nil => exact .inl rfl
  | cons slot l ih =>
    rw [List.foldl_cons]
    rcases ih (electStep own best slot) with h | h <;>
      rcases electStep_holder own best slot with h' | h'
    · exact .inl (h.trans h')
    · exact .inr (h ▸ h')
    · exact .inr (h' ▸ h)
    · exact .inr (beats_trans h h')

theorem fold_unbeaten (l : List (Option MeshNode × ℕ)) (best : Option (MeshNode × ℕ))
    {n : MeshNode} {i : ℕ} (hn : (some n, i) ∈ l) (hon : n.online = true) :
    ¬beats n.capabilities (holder own (l.foldl (electStep own) best)) := by
  induction l generalizing best with
  | nil => simp at hn
  | cons slot l ih =>
    rw [List.foldl_cons]
    rcases List.mem_cons.mp hn with h | h
    · intro hb
      -- the winner is at least as good as what this round left
      have hround : ¬beats n.capabilities (holder own (electStep own best slot)) := by
        subst h
        rw [electStep]
        split
        · exact beats_irrefl _
        next hnot => exact fun hb => hnot ⟨hon, hb⟩
      rcases fold_holder own l (electStep own best slot) with h' | h'
      · exact hround (h' ▸ hb)
      · exact hround (beats_trans hb h')
    · exact ih (electStep own best slot) h

theorem fold_mem (l : List (Option MeshNode × ℕ)) {n : MeshNode} {i : ℕ}
    (best : Option (MeshNode × ℕ)) (h : l.foldl (electStep own) best = some (n, i)) :
    best = some (n, i) ∨
      ((some n, i) ∈ l ∧ n.online = true ∧ beats n.capabilities (holder own best)) := by
  induction l generalizing best with
  | nil => exact .inl h
  | cons slot l ih =>
    rw [List.foldl_cons] at h
    rcases ih (electStep own best slot) h with h' | ⟨h', hon, hb⟩
    · obtain ⟨o, j⟩ := slot
      cases o with
      | none => exact .inl h'
      | some m =>
        rw [electStep] at h'
        split at h'
        next hm =>
          cases h'
          exact .inr ⟨by simp, hm⟩
        · exact .inl h'
    · refine .inr ⟨by simp [h'], hon, ?_⟩
      rcases electStep_holder own best slot with hs | hs
      · exact hs ▸ hb
      · exact beats_trans hb hs

variable {e : BrainMeshEngine} {n : MeshNode} {i : ℕ}

theorem mem_slots {o : Option MeshNode} : (o, i) ∈ e.nodes.zipIdx ↔ e.nodes[i]? = some o := by
  simp [List.mem_zipIdx_iff_getElem?]

theorem bestNode_some (h : e.bestNode = some (n, i)) :
    e.nodes[i]? = some (some n) ∧ n.online = true ∧
      beats n.capabilities e.localCapabilities ∧
      ∀ m ∈ entries e.nodes, m.online = true → ¬beats m.capabilities n.capabilities := by
  rcases fold_mem _ _ none h with h' | ⟨hmem, hon, hb⟩
  · cases h'
  refine ⟨mem_slots.mp hmem, hon, hb, fun m hm hmon => ?_⟩
  obtain ⟨j, hj⟩ := List.mem_iff_getElem?.mp (mem_entries.mp hm)
  have := fold_unbeaten e.localCapabilities _ none (mem_slots.mpr hj) hmon
  rwa [show e.nodes.zipIdx.foldl (electStep e.localCapabilities) none = some (n, i) from h] at this

theorem bestNode_none (h : e.bestNode = none) {m : MeshNode} (hm : m ∈ entries e.nodes)
    (hon : m.online = true) : ¬beats m.capabilities e.localCapabilities := by
  obtain ⟨j, hj⟩ := List.mem_iff_getElem?.mp (mem_entries.mp hm)
  have := fold_unbeaten e.localCapabilities _ none (mem_slots.mpr hj) hon
  rwa [show e.nodes.zipIdx.foldl (electStep e.localCapabilities) none = none from h] at this

/-! ### What an election leaves as it is -/

def profile (n : MeshNode) : NodeCapabilities × Bool := (n.capabilities, n.online)

def profiles (e : BrainMeshEngine) : Slots (NodeCapabilities × Bool) :=
  e.nodes.map (Option.map profile)

structure SameMesh (e e' : BrainMeshEngine) : Prop where
  own : e'.localCapabilities = e.localCapabilities
  count : e'.nodeCount = e.nodeCount
  profiles : profiles e' = profiles e

theorem becomeMaster_same (e : BrainMeshEngine) (env : Surroundings) :
    SameMesh e (e.becomeMaster env).1 := by
  rw [BrainMeshEngine.becomeMaster, BrainMeshEngine.assignRoles]
  split
  · exact ⟨rfl, rfl, rfl⟩
  split
  · exact ⟨rfl, rfl, rfl⟩
  split
  · exact ⟨rfl, rfl, rfl⟩
  refine ⟨rfl, rfl, ?_⟩
  apply List.ext_getElem?
  intro j
  simp only [profiles, List.getElem?_map, List.getElem?_zipIdx, Option.map_map]
  cases e.nodes[j]? with
  | none => rfl
  | some o =>
    cases o with
    | none => rfl
    | some n =>
      simp only [Option.map_some, Function.comp_apply, assignSlot]
      split <;> rfl

@[simp] theorem becomeMaster_isMaster (e : BrainMeshEngine) (env : Surroundings) :
    (e.becomeMaster env).1.isMaster = true := by
  rw [BrainMeshEngine.becomeMaster, BrainMeshEngine.assignRoles]
  split
  · rfl
  split
  · rfl
  split <;> rfl

theorem becomeMaster_role {e : BrainMeshEngine} {env : Surroundings} {n : MeshNode}
    (hn : n ∈ entries (e.becomeMaster env).1.nodes) (hrole : n.role = .master) :
    n ∈ entries e.nodes := by
  rw [BrainMeshEngine.becomeMaster, BrainMeshEngine.assignRoles] at hn
  split at hn
  · exact hn
  split at hn
  · exact hn
  split at hn
  · exact hn
  obtain ⟨⟨o, i⟩, hslot, hassign⟩ := List.mem_map.mp (mem_entries.mp hn)
  cases o with
  | none => cases hassign
  | some m =>
    rw [assignSlot] at hassign
    split at hassign
    · -- no assigned role is that of a master
      cases hassign
      simp only [assignedRole] at hrole
      split at hrole
      · cases hrole
      · split at hrole <;> cases hrole
    · cases hassign
      exact mem_entries.mpr (List.mem_of_getElem? (mem_slots.mp hslot))

theorem becomeWorker_same (e : BrainMeshEngine) : SameMesh e e.becomeWorker := by
  rw [BrainMeshEngine.becomeWorker]
  split <;> exact ⟨rfl, rfl, rfl⟩

@[simp] theorem becomeWorker_isMaster (e : BrainMeshEngine) : e.becomeWorker.isMaster = false := by
  rw [BrainMeshEngine.becomeWorker]
  split <;> rfl

@[simp] theorem becomeWorker_nodes (e : BrainMeshEngine) : e.becomeWorker.nodes = e.nodes := by
  rw [BrainMeshEngine.becomeWorker]
  split <;> rfl

theorem checkElection_some (hown : e.localCapabilities.isAnchored = false)
    (h : e.bestNode = some (n, i)) (env : Surroundings) : (e.checkElection env).1 =
      { e with nodes := e.nodes.set i (some { n with role := .master }) }.becomeWorker := by
  simp [BrainMeshEngine.checkElection, hown, h]

theorem checkElection_none (h : e.bestNode = none) (env : Surroundings) :
    (e.checkElection env).1 = (e.becomeMaster env).1 := by
  simp [BrainMeshEngine.checkElection, h]

theorem checkElection_same (e : BrainMeshEngine) (env : Surroundings) :
    SameMesh e (e.checkElection env).1 := by
  cases hown : e.localCapabilities.isAnchored with
  | true => simpa [BrainMeshEngine.checkElection, hown] using becomeMaster_same e env
  | false =>
    cases hb : e.bestNode with
    | none => simpa [checkElection_none hb] using becomeMaster_same e env
    | some b =>
      obtain ⟨n, i⟩ := b
      rw [checkElection_some hown hb]
      obtain ⟨h₁, h₂, h₃⟩ :=
        becomeWorker_same { e with nodes := e.nodes.set i (some { n with role := .master }) }
      refine ⟨h₁, h₂, h₃.trans ?_⟩
      apply List.ext_getElem?
      intro j
      simp only [profiles, List.getElem?_map, List.getElem?_set]
      split
      next hij =>
        subst hij
        rw [(bestNode_some hb).1]
        split
        · rfl
        next hlen =>
          have := (List.getElem?_eq_some_iff.mp (bestNode_some hb).1).1
          exact absurd this hlen
      · rfl

end NeuralOs.Mesh.Election
