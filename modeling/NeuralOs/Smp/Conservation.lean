import Mathlib
import NeuralOs.Lib.Machine

/-!
# The run queues conserve tasks

What an operation holds in its hands and what is queued make up one bag, which it
changes only by the tasks it accepts and by the task it executes or hands out. The
inflight bit of an agent counts its tasks in the bag.
-/

set_option autoImplicit false

namespace NeuralOs.Smp.RunQueue

structure AgentTask where
  agentIdx : UInt32
  tickId : UInt32
  priority : UInt8
  affinityRing : UInt8
  goalUrgency : UInt8
  deriving DecidableEq

inductive CoreRole
  | system
  | compute
  | memory
  | worker
  | idle
  deriving DecidableEq

def rqCap : ℕ := 128

def maxCores : ℕ := 256

/-- What does not change while the queues run: the cores with their roles and the function
that ticks an agent, if one is registered. -/
structure Config where
  cpuCount : ℕ
  coreRoles : ℕ → CoreRole
  agentTick : Option (UInt32 → UInt32 → Bool)

def Config.cores (cfg : Config) : ℕ := min cfg.cpuCount maxCores

def Config.coreRole (cfg : Config) (core : ℕ) : CoreRole := cfg.coreRoles (min core (maxCores-1))

structure Sched where
  queues : ℕ → List AgentTask
  inflight : ℕ → Bool
  env : ℕ → Bool
  asked : ℕ
  /-- Bookkeeping only: tasks that were accepted, tasks that were executed, tasks that
  `steal_agent` handed to its caller, and every theft with its thief. -/
  accepted : List AgentTask
  executed : List AgentTask
  taken : List AgentTask
  stolen : List (ℕ × AgentTask)

def Sched.init (env : ℕ → Bool) : Sched :=
  ⟨fun _ => [], fun _ => false, env, 0, [], [], [], []⟩

namespace Sched

/-! ### One queue -/

def put (s : Sched) (core : ℕ) (q : List AgentTask) : Sched :=
  { s with queues := Function.update s.queues core q }

def answered (s : Sched) : Sched := { s with asked := s.asked+1 }

def enqueue (s : Sched) (core : ℕ) (task : AgentTask) : Bool × Sched :=
  if rqCap ≤ (s.queues core).length then (false, s)
  else (true, s.put core (s.queues core++[task]))

/-- `PerCoreRunQueue::dequeue`, whose exchange may fail without a reason. -/
def dequeue (s : Sched) (core : ℕ) : Option AgentTask × Sched :=
  match s.queues core with
  | [] => (none, s)
  | task::rest =>
    if s.env s.asked then (some task, s.answered.put core rest) else (none, s.answered)

/-- Without room on the heap nothing is queued. -/
def enqueueAgent (s : Sched) (core : ℕ) (task : AgentTask) : Bool × Sched :=
  if maxCores ≤ core then (false, s)
  else if s.env s.asked then s.answered.enqueue core task
  else (false, s.answered)

def dequeueAgent (s : Sched) (core : ℕ) : Option AgentTask × Sched :=
  if maxCores ≤ core then (none, s) else s.dequeue core

def inflightTest (s : Sched) (idx : UInt32) : Bool :=
  if 256 ≤ idx.toNat then false else s.inflight idx.toNat

def inflightSet (s : Sched) (idx : UInt32) : Sched :=
  if 256 ≤ idx.toNat then s else { s with inflight := Function.update s.inflight idx.toNat true }

def inflightClear (s : Sched) (idx : UInt32) : Sched :=
  if 256 ≤ idx.toNat then s else { s with inflight := Function.update s.inflight idx.toNat false }

def noteStolen (s : Sched) (thief : ℕ) (task : AgentTask) : Sched :=
  { s with stolen := s.stolen++[(thief, task)] }

end Sched

/-! ### Stealing -/

def affinityAllows (cfg : Config) (core : ℕ) (ring : UInt8) : Bool :=
  if ring = 0 then core == 0
  else if ring = 1 then cfg.coreRole core ∈ [.compute, .worker]
  else if ring = 2 then cfg.coreRole core ∈ [.worker, .memory, .compute]
  else if ring = 3 then cfg.coreRole core ∈ [.memory, .worker]
  else cfg.coreRole core ≠ .system

def victims (cfg : Config) (core : ℕ) : List ℕ :=
  ((List.range' 1 (cfg.cores-1)).map fun offset => (core+offset)%cfg.cores).filter (· ≠ core)

def minLen (s : Sched) (vs : List ℕ) : Option ℕ :=
  ((vs.map fun v => (s.queues v).length).filter (1 < ·)).min?

/-- The first task of a victim with a fitting length that the thief may run; a task that it
may not run goes back to the end of its queue. -/
def scan (cfg : Config) (core : ℕ) (pick : ℕ → Bool) :
    List ℕ → Sched → Option AgentTask × Sched
  | [], s => (none, s)
  | v::vs, s =>
    if pick (s.queues v).length then
      match s.dequeue v with
      | (none, s) => scan cfg core pick vs s
      | (some task, s) =>
        if affinityAllows cfg core task.affinityRing then (some task, s.noteStolen core task)
        else scan cfg core pick vs (s.enqueue v task).2
    else scan cfg core pick vs s

def stealAgent (cfg : Config) (core : ℕ) (s : Sched) : Option AgentTask × Sched :=
  if cfg.cores ≤ 1 then (none, s)
  else
    match minLen s (victims cfg core) with
    | none => (none, s)
    | some m =>
      match scan cfg core (· == m) (victims cfg core) s with
      | (some task, s) => (some task, s)
      | (none, s) => scan cfg core (1 < ·) (victims cfg core) s

/-- At most `k` tasks of one victim move to the thief's queue. -/
def burst (cfg : Config) (thief victim : ℕ) : ℕ → ℕ → Sched → ℕ × Sched
  | 0, moved, s => (moved, s)
  | k+1, moved, s =>
    if (s.queues victim).length ≤ 1 then (moved, s)
    else
      match s.dequeue victim with
      | (none, s) => (moved, s)
      | (some task, s) =>
        if affinityAllows cfg thief task.affinityRing then
          match s.enqueueAgent thief task with
          | (true, s) => burst cfg thief victim k (moved+1) (s.noteStolen thief task)
          | (false, s) => (moved, (s.enqueue victim task).2)
        else burst cfg thief victim k moved (s.enqueue victim task).2

def burstOver (cfg : Config) (thief : ℕ) : List ℕ → Sched → ℕ × Sched
  | [], s => (0, s)
  | v::vs, s =>
    if (s.queues v).length ≤ 1 then burstOver cfg thief vs s
    else
      match burst cfg thief v (max 1 (min 4 ((s.queues v).length/2))) 0 s with
      | (0, s) => burstOver cfg thief vs s
      | (moved+1, s) => (moved+1, s)

def stealBurst (cfg : Config) (thief : ℕ) (s : Sched) : ℕ × Sched :=
  if maxCores ≤ thief then (0, s)
  else if s.queues thief ≠ [] then (0, s)
  else if cfg.cores ≤ 1 then (0, s)
  else burstOver cfg thief (victims cfg thief) s

/-! ### Distributing and running -/

structure Agent where
  idx : UInt32
  affinityRing : UInt8
  priority : UInt8
  urgency : UInt8

def totalPending (cfg : Config) (s : Sched) : ℕ :=
  ((List.range cfg.cores).map fun c => (s.queues c).length).sum

def apImbalance (cfg : Config) (s : Sched) : ℕ :=
  let lens := (List.range' 1 (cfg.cores-1)).map fun c => (s.queues c).length
  if cfg.cores ≤ 2 then 0 else lens.foldl max 0-lens.min?.getD 0

def shouldRedistribute (cfg : Config) (s : Sched) (tickId : UInt32) : Bool :=
  totalPending cfg s == 0 || tickId%32 == 0 || decide (2 < apImbalance cfg s)

def shortest (s : Sched) (cores : List ℕ) : Option ℕ :=
  cores.argmin fun c => (s.queues c).length

def targetRole (ring : UInt8) : CoreRole :=
  if ring = 1 then .compute else if ring = 2 then .worker else if ring = 3 then .memory else .worker

def resolveTargetCoreForRole (cfg : Config) (s : Sched) (ring : UInt8) : ℕ :=
  let others := List.range' 1 (cfg.cores-1)
  let withRole (role : CoreRole) := others.filter fun c => cfg.coreRole c = role
  if ring = 0 then 0
  else if cfg.cpuCount ≤ 1 then 0
  else
    match shortest s (withRole (targetRole ring)) with
    | some c => c
    | none =>
      match if targetRole ring = .memory then shortest s (withRole .worker) else none with
      | some c => c
      | none => (shortest s others).getD 1

def distributeOne (cfg : Config) (tickId : UInt32) (s : Sched) (a : Agent) : Sched :=
  if a.affinityRing = 0 then s
  else if s.inflightTest a.idx then s
  else
    let task : AgentTask := ⟨a.idx, tickId, a.priority, a.affinityRing, a.urgency⟩
    match s.enqueueAgent (resolveTargetCoreForRole cfg s a.affinityRing) task with
    | (true, s) => { s.inflightSet a.idx with accepted := s.accepted++[task] }
    | (false, s) => s

def distributeBatch (cfg : Config) (agents : List Agent) (tickId : UInt32) (s : Sched) : Sched :=
  if shouldRedistribute cfg s tickId then agents.foldl (distributeOne cfg tickId) s else s

/-- The own queue, then a burst into it, then a single theft. -/
def nextTask (cfg : Config) (core : ℕ) (s : Sched) : Option AgentTask × Sched :=
  match s.dequeueAgent core with
  | (some task, s) => (some task, s)
  | (none, s) =>
    match (stealBurst cfg core s).2.dequeueAgent core with
    | (some task, s) => (some task, s)
    | (none, s) => stealAgent cfg core s

def tryRunOneAgent (cfg : Config) (core : ℕ) (s : Sched) : Bool × Sched :=
  match cfg.agentTick with
  | none => (false, s)
  | some tick =>
    match nextTask cfg core s with
    | (none, s) => (false, s)
    | (some task, s) =>
      (tick task.agentIdx task.tickId,
        { s.inflightClear task.agentIdx with executed := s.executed++[task] })

/-! ### Runs -/

inductive Op
  | distributeBatch (agents : List Agent) (tickId : UInt32)
  | tryRunOneAgent (core : ℕ)
  | stealAgent (core : ℕ)
  | stealBurst (thief : ℕ)

/-- A task that `steal_agent` returns is in the hands of its caller from then on. -/
def step (cfg : Config) (s : Sched) : Op → Sched
  | .distributeBatch agents tickId => distributeBatch cfg agents tickId s
  | .tryRunOneAgent core => (tryRunOneAgent cfg core s).2
  | .stealAgent core =>
    match stealAgent cfg core s with
    | (none, s) => s
    | (some task, s) => { s with taken := s.taken++[task] }
  | .stealBurst thief => (stealBurst cfg thief s).2

end NeuralOs.Smp.RunQueue

/-! ## The run queues conserve tasks -/

namespace NeuralOs.Smp.Conservation
open Machine RunQueue

def queued (s : Sched) : Multiset AgentTask :=
  ∑ c ∈ Finset.range maxCores, (s.queues c : Multiset AgentTask)

def Room (s : Sched) : Prop := ∀ c, (s.queues c).length ≤ rqCap

def Allowed (cfg : Config) (s : Sched) : Prop :=
  ∀ x ∈ s.stolen, affinityAllows cfg x.1 x.2.affinityRing = true

/-- The bag of queued tasks and of those in hand is the same after as before, and nothing is
accepted, executed or handed out. -/
structure Kept (cfg : Config) (s t : Sched) (hand hand' : Multiset AgentTask) : Prop where
  bag : queued t+hand' = queued s+hand
  inflight : t.inflight = s.inflight
  accepted : t.accepted = s.accepted
  executed : t.executed = s.executed
  taken : t.taken = s.taken
  room : Room t
  allowed : Allowed cfg s → Allowed cfg t

variable {cfg : Config} {s t u : Sched} {hand hand' hand'' : Multiset AgentTask}

theorem Kept.refl (hs : Room s) : Kept cfg s s hand hand :=
  ⟨rfl, rfl, rfl, rfl, rfl, hs, id⟩

theorem Kept.trans (h : Kept cfg s t hand hand') (h' : Kept cfg t u hand' hand'') :
    Kept cfg s u hand hand'' where
  bag := h'.bag.trans h.bag
  inflight := h'.inflight.trans h.inflight
  accepted := h'.accepted.trans h.accepted
  executed := h'.executed.trans h.executed
  taken := h'.taken.trans h.taken
  room := h'.room
  allowed := h'.allowed ∘ h.allowed

/-! ### One queue -/

theorem queued_congr (h : t.queues = s.queues) : queued t = queued s := by
  rw [queued, queued, h]

variable {core : ℕ} {o : Option AgentTask} {task : AgentTask}

theorem queued_put (h : core < maxCores) (q : List AgentTask) :
    queued (s.put core q)+(s.queues core : Multiset AgentTask) =
      queued s+(q : Multiset AgentTask) := by
  have hmem : core ∈ Finset.range maxCores := Finset.mem_range.mpr h
  have hrest : ∀ c ∈ (Finset.range maxCores).erase core,
      ((s.put core q).queues c : Multiset AgentTask) = (s.queues c : Multiset AgentTask) := by
    intro c hc
    simp only [Sched.put, Function.update_of_ne (Finset.ne_of_mem_erase hc)]
  have hself : (s.put core q).queues core = q := by simp [Sched.put]
  rw [queued, queued, ← Finset.add_sum_erase _ _ hmem, ← Finset.add_sum_erase _ _ hmem,
    Finset.sum_congr rfl hrest, hself]
  abel

theorem room_put {q : List AgentTask} (hs : Room s) (hq : q.length ≤ rqCap) :
    Room (s.put core q) := by
  intro c
  by_cases hc : c = core
  · subst hc
    simpa [Sched.put] using hq
  · simpa [Sched.put, Function.update_of_ne hc] using hs c

theorem dequeue_kept (cfg : Config) (hs : Room s)
    (hcore : core < maxCores) (h : s.dequeue core = (o, t)) (hand : Multiset AgentTask) :
    Kept cfg s t hand (o.toList+hand) ∧ (o.isSome → (t.queues core).length < rqCap) := by
  rw [Sched.dequeue] at h
  split at h
  · cases h
    exact ⟨by simpa using Kept.refl hs, by simp⟩
  next task rest hq =>
  split at h
  · cases h
    have hlen := hs core
    rw [hq, List.length_cons] at hlen
    have hbag := queued_put (s := s.answered) hcore rest
    refine ⟨⟨?_, rfl, rfl, rfl, rfl, room_put hs (by omega), id⟩, fun _ => ?_⟩
    · change queued (s.answered.put core rest)+(s.queues core : Multiset AgentTask) =
        queued s+_ at hbag
      rw [hq, ← Multiset.cons_coe, Multiset.add_cons] at hbag
      have hbag' : queued (s.answered.put core rest)+{task} = queued s := by
        refine Multiset.add_right_inj (s := (rest : Multiset AgentTask)) |>.mp ?_
        rw [add_comm, add_comm (rest : Multiset AgentTask), ← hbag, ← Multiset.singleton_add]
        abel
      rw [← hbag', Option.toList_some, Multiset.coe_singleton]
      abel
    · simp only [Sched.put, Function.update_self]
      omega
  · cases h
    exact ⟨⟨by simp [queued, Sched.answered], rfl, rfl, rfl, rfl, hs, id⟩, by simp⟩

theorem enqueue_kept (cfg : Config) (hs : Room s)
    (hcore : core < maxCores) (h : s.enqueue core task = (true, t)) (hand : Multiset AgentTask) :
    Kept cfg s t ({task}+hand) hand := by
  rw [Sched.enqueue] at h
  split at h
  · cases h
  next hlen =>
  cases h
  refine ⟨?_, rfl, rfl, rfl, rfl, room_put hs (by simp; omega), id⟩
  have hbag := queued_put (s := s) hcore (s.queues core++[task])
  rw [← Multiset.coe_add, Multiset.coe_singleton] at hbag
  have hbag' : queued (s.put core (s.queues core++[task])) = queued s+{task} := by
    refine Multiset.add_right_inj (s := (s.queues core : Multiset AgentTask)) |>.mp ?_
    rw [add_comm, hbag]
    abel
  rw [hbag']
  abel

theorem putBack_kept (cfg : Config) (task : AgentTask) (hs : Room s)
    (hcore : core < maxCores) (hroom : (s.queues core).length < rqCap) (hand : Multiset AgentTask) :
    Kept cfg s (s.enqueue core task).2 ({task}+hand) hand := by
  obtain ⟨t, ht⟩ : ∃ t, s.enqueue core task = (true, t) := ⟨_, if_neg (by omega)⟩
  rw [ht]
  exact enqueue_kept cfg hs hcore ht hand

theorem enqueueAgent_kept (cfg : Config) {ok : Bool} (hs : Room s)
    (h : s.enqueueAgent core task = (ok, t)) (hand : Multiset AgentTask) :
    Kept cfg s t ({task}+hand) (if ok then hand else {task}+hand) ∧
      (ok = false → t.queues = s.queues) := by
  rw [Sched.enqueueAgent] at h
  split at h
  · cases h
    exact ⟨Kept.refl hs, fun _ => rfl⟩
  next hcore =>
  split at h
  · cases ok with
    | true =>
      have hk := enqueue_kept cfg (s := s.answered) hs (by omega) h hand
      exact ⟨⟨hk.bag, hk.inflight, hk.accepted, hk.executed, hk.taken, hk.room, hk.allowed⟩,
        by simp⟩
    | false =>
      rw [Sched.enqueue] at h
      split at h
      · cases h
        exact ⟨⟨rfl, rfl, rfl, rfl, rfl, hs, id⟩, fun _ => rfl⟩
      · cases h
  · cases h
    exact ⟨⟨rfl, rfl, rfl, rfl, rfl, hs, id⟩, fun _ => rfl⟩

theorem noteStolen_kept (hand : Multiset AgentTask) (hs : Room s)
    (h : affinityAllows cfg core task.affinityRing = true) :
    Kept cfg s (s.noteStolen core task) hand hand := by
  refine ⟨rfl, rfl, rfl, rfl, rfl, hs, fun hal x hx => ?_⟩
  rcases List.mem_append.mp hx with hx | hx
  · exact hal x hx
  · rw [List.mem_singleton.mp hx]
    exact h

theorem dequeueAgent_kept (cfg : Config) (hs : Room s)
    (h : s.dequeueAgent core = (o, t)) : Kept cfg s t 0 o.toList := by
  rw [Sched.dequeueAgent] at h
  split at h
  · cases h
    exact Kept.refl hs
  · next hcore => simpa using (dequeue_kept cfg hs (by omega) h 0).1

/-! ### Stealing -/

theorem victims_lt {v : ℕ} (h : v ∈ victims cfg core) : v < maxCores ∧ v ≠ core := by
  obtain ⟨hv, hne⟩ := List.mem_filter.mp h
  obtain ⟨offset, ho, rfl⟩ := List.mem_map.mp hv
  have hpos : 0 < cfg.cores := by
    have := List.mem_range'_1.mp ho
    omega
  have hlt : (core+offset)%cfg.cores < cfg.cores := Nat.mod_lt _ hpos
  have hle : cfg.cores ≤ maxCores := Nat.min_le_right _ _
  exact ⟨by omega, by simpa using hne⟩

theorem scan_kept {pick : ℕ → Bool} {vs : List ℕ}
    (hvs : ∀ v ∈ vs, v < maxCores) (hs : Room s) (h : scan cfg core pick vs s = (o, t)) :
    Kept cfg s t 0 o.toList := by
  induction vs generalizing s with
  | nil =>
    cases h
    exact Kept.refl hs
  | cons v vs ih =>
    have hv := hvs v (by simp)
    have ih' := fun {u : Sched} hu => @ih u (fun w hw => hvs w (by simp [hw])) hu
    rw [scan] at h
    split at h
    · rcases hd : s.dequeue v with ⟨o', s'⟩
      obtain ⟨hk, hroom⟩ := dequeue_kept cfg hs hv hd 0
      rw [hd] at h
      cases o' with
      | none => exact hk.trans (ih' hk.room h)
      | some task =>
        simp only at h
        split at h
        · next hal =>
          cases h
          exact hk.trans (noteStolen_kept _ hk.room hal)
        · have hback := putBack_kept cfg task hk.room hv (hroom rfl) 0
          exact (hk.trans hback).trans (ih' hback.room h)
    · exact ih' hs h

theorem stealAgent_kept (hs : Room s)
    (h : stealAgent cfg core s = (o, t)) : Kept cfg s t 0 o.toList := by
  have hvs : ∀ v ∈ victims cfg core, v < maxCores := fun v hv => (victims_lt hv).1
  rw [stealAgent] at h
  split at h
  · cases h
    exact Kept.refl hs
  split at h
  · cases h
    exact Kept.refl hs
  next m _ =>
  rcases hscan : scan cfg core (· == m) (victims cfg core) s with ⟨o', s'⟩
  have hk := scan_kept hvs hs hscan
  rw [hscan] at h
  cases o' with
  | some task =>
    cases h
    exact hk
  | none => exact hk.trans (scan_kept hvs hk.room h)

theorem burst_kept {thief victim k moved n : ℕ} (hv : victim < maxCores) (hs : Room s)
    (h : burst cfg thief victim k moved s = (n, t)) : Kept cfg s t 0 0 := by
  induction k generalizing s moved with
  | zero =>
    cases h
    exact Kept.refl hs
  | succ k ih =>
    rw [burst] at h
    split at h
    · cases h
      exact Kept.refl hs
    rcases hd : s.dequeue victim with ⟨o, s'⟩
    obtain ⟨hk, hroom⟩ := dequeue_kept cfg hs hv hd 0
    rw [hd] at h
    cases o with
    | none =>
      cases h
      exact hk
    | some task =>
      simp only at h
      split at h
      · next hal =>
        rcases he : s'.enqueueAgent thief task with ⟨ok, s''⟩
        obtain ⟨hk', hsame⟩ := enqueueAgent_kept cfg hk.room he 0
        rw [he] at h
        cases ok with
        | true =>
          have hnote := noteStolen_kept 0 hk'.room hal
          exact ((hk.trans hk').trans hnote).trans (ih hnote.room h)
        | false =>
          -- the refused task fits into the queue it was taken from
          cases h
          have hroom' : (s''.queues victim).length < rqCap := by
            rw [hsame rfl]
            exact hroom rfl
          exact (hk.trans hk').trans (putBack_kept cfg task hk'.room hv hroom' 0)
      · have hback := putBack_kept cfg task hk.room hv (hroom rfl) 0
        exact (hk.trans hback).trans (ih hback.room h)

theorem burstOver_kept {thief n : ℕ} {vs : List ℕ} (hvs : ∀ v ∈ vs, v < maxCores) (hs : Room s)
    (h : burstOver cfg thief vs s = (n, t)) : Kept cfg s t 0 0 := by
  induction vs generalizing s with
  | nil =>
    cases h
    exact Kept.refl hs
  | cons v vs ih =>
    have ih' := fun {u : Sched} hu => @ih u (fun w hw => hvs w (by simp [hw])) hu
    rw [burstOver] at h
    split at h
    · exact ih' hs h
    rcases hb : burst cfg thief v (max 1 (min 4 ((s.queues v).length/2))) 0 s with ⟨m, s'⟩
    have hk := burst_kept (hvs v (by simp)) hs hb
    rw [hb] at h
    cases m with
    | zero => exact hk.trans (ih' hk.room h)
    | succ m =>
      cases h
      exact hk

theorem stealBurst_kept (thief : ℕ) (hs : Room s) : Kept cfg s (stealBurst cfg thief s).2 0 0 := by
  rw [stealBurst]
  split
  · exact Kept.refl hs
  · split
    · exact Kept.refl hs
    · split
      · exact Kept.refl hs
      · exact burstOver_kept (fun v hv => (victims_lt hv).1) hs rfl

theorem nextTask_kept (hs : Room s)
    (h : nextTask cfg core s = (o, t)) : Kept cfg s t 0 o.toList := by
  rw [nextTask] at h
  rcases hd : s.dequeueAgent core with ⟨o₁, s₁⟩
  have hk₁ := dequeueAgent_kept cfg hs hd
  rw [hd] at h
  cases o₁ with
  | some task =>
    cases h
    exact hk₁
  | none =>
    have hk₂ := hk₁.trans (stealBurst_kept core hk₁.room)
    rcases hd' : (stealBurst cfg core s₁).2.dequeueAgent core with ⟨o₂, s₂⟩
    have hk₃ := hk₂.trans (dequeueAgent_kept cfg hk₂.room hd')
    simp only [hd'] at h
    cases o₂ with
    | some task =>
      cases h
      exact hk₃
    | none => exact hk₃.trans (stealAgent_kept hk₃.room h)

/-! ### The invariant -/

def tasksOf (idx : ℕ) (b : Multiset AgentTask) : ℕ := b.countP fun task => task.agentIdx.toNat = idx

structure Conserved (cfg : Config) (s : Sched) (hand : Multiset AgentTask) : Prop where
  balance : queued s+hand+s.executed+s.taken = s.accepted
  inflight : ∀ idx < 256, tasksOf idx (queued s+hand+s.taken) = if s.inflight idx then 1 else 0
  room : Room s
  allowed : Allowed cfg s

theorem init_conserved (env : ℕ → Bool) : Conserved cfg (.init env) 0 where
  balance := by simp [queued, Sched.init]
  inflight := by simp [queued, Sched.init, tasksOf]
  room := by simp [Room, Sched.init]
  allowed := by simp [Allowed, Sched.init]

theorem conserved_of_kept (h : Conserved cfg s hand) (hk : Kept cfg s t hand hand') :
    Conserved cfg t hand' where
  balance := by
    rw [hk.bag, hk.executed, hk.taken, hk.accepted]
    exact h.balance
  inflight := by
    rw [hk.bag, hk.taken, hk.inflight]
    exact h.inflight
  room := hk.room
  allowed := hk.allowed h.allowed

theorem tasksOf_cons (idx : ℕ) (task : AgentTask) (b : Multiset AgentTask) :
    tasksOf idx (task ::ₘ b) = tasksOf idx b+if task.agentIdx.toNat = idx then 1 else 0 := by
  rw [tasksOf, Multiset.countP_cons, tasksOf]

theorem take_conserved (h : Conserved cfg s {task}) :
    Conserved cfg { s with taken := s.taken++[task] } 0 := by
  have hbag : queued s+0+((s.taken++[task] : List AgentTask) : Multiset AgentTask) =
      queued s+{task}+(s.taken : Multiset AgentTask) := by
    rw [← Multiset.coe_add, Multiset.coe_singleton]
    abel
  refine ⟨?_, fun idx hidx => ?_, h.room, h.allowed⟩
  · change queued s+0+(s.executed : Multiset AgentTask)+
      ((s.taken++[task] : List AgentTask) : Multiset AgentTask) = s.accepted
    rw [← h.balance, ← Multiset.coe_add, Multiset.coe_singleton]
    abel
  · exact (congrArg (tasksOf idx) hbag).trans (h.inflight idx hidx)

theorem execute_conserved (h : Conserved cfg s {task}) :
    Conserved cfg { s.inflightClear task.agentIdx with executed := s.executed++[task] } 0 := by
  have hfields : (s.inflightClear task.agentIdx).queues = s.queues ∧
      (s.inflightClear task.agentIdx).taken = s.taken ∧
      (s.inflightClear task.agentIdx).accepted = s.accepted ∧
      (s.inflightClear task.agentIdx).stolen = s.stolen := by
    rw [Sched.inflightClear]
    split <;> exact ⟨rfl, rfl, rfl, rfl⟩
  obtain ⟨hq, ht, ha, hst⟩ := hfields
  have hqueued : queued { s.inflightClear task.agentIdx with executed := s.executed++[task] } =
      queued s := queued_congr hq
  refine ⟨?_, fun idx hidx => ?_, ?_, ?_⟩
  · rw [hqueued]
    simp only [ht, ha]
    rw [← h.balance, ← Multiset.coe_add, Multiset.coe_singleton]
    abel
  · rw [hqueued]
    simp only [ht]
    have hcount := h.inflight idx hidx
    have hbag : queued s+{task}+(s.taken : Multiset AgentTask) =
        task ::ₘ (queued s+0+(s.taken : Multiset AgentTask)) := by
      rw [← Multiset.singleton_add]
      abel
    rw [hbag, tasksOf_cons] at hcount
    by_cases hown : task.agentIdx.toNat = idx
    · have hclear : (s.inflightClear task.agentIdx).inflight idx = false := by
        rw [Sched.inflightClear, if_neg (by omega), hown]
        exact Function.update_self ..
      rw [if_pos hown] at hcount
      rw [hclear, if_neg Bool.false_ne_true]
      split at hcount <;> omega
    · have hsame : (s.inflightClear task.agentIdx).inflight idx = s.inflight idx := by
        rw [Sched.inflightClear]
        split
        · rfl
        · exact Function.update_of_ne (Ne.symm hown) _ _
      rw [hsame]
      rw [if_neg hown, Nat.add_zero] at hcount
      exact hcount
  · intro c
    simp only [hq]
    exact h.room c
  · simp only [Allowed, hst]
    exact h.allowed

theorem accept_conserved (h : Conserved cfg s 0) (hk : Kept cfg s t {task} 0)
    (hfree : s.inflightTest task.agentIdx = false) :
    Conserved cfg { t.inflightSet task.agentIdx with accepted := t.accepted++[task] } 0 := by
  have hfields : (t.inflightSet task.agentIdx).queues = t.queues ∧
      (t.inflightSet task.agentIdx).executed = s.executed ∧
      (t.inflightSet task.agentIdx).taken = s.taken ∧
      (t.inflightSet task.agentIdx).stolen = t.stolen := by
    rw [Sched.inflightSet, ← hk.executed, ← hk.taken]
    split <;> exact ⟨rfl, rfl, rfl, rfl⟩
  obtain ⟨hq, hex, hta, hst⟩ := hfields
  have hqueued : queued { t.inflightSet task.agentIdx with accepted := t.accepted++[task] } =
      queued s+{task} := by
    have hbag : queued t = queued s+{task} := by simpa using hk.bag
    exact (queued_congr hq).trans hbag
  refine ⟨?_, fun idx hidx => ?_, ?_, ?_⟩
  · rw [hqueued]
    simp only [hex, hta]
    rw [hk.accepted, ← Multiset.coe_add, ← h.balance, Multiset.coe_singleton]
    abel
  · rw [hqueued]
    simp only [hta]
    have hmove : queued s+{task}+0+(s.taken : Multiset AgentTask) =
        task ::ₘ (queued s+0+(s.taken : Multiset AgentTask)) := by
      rw [← Multiset.singleton_add]
      abel
    rw [hmove, tasksOf_cons, h.inflight idx hidx]
    by_cases hown : task.agentIdx.toNat = idx
    · have hlt : ¬256 ≤ task.agentIdx.toNat := by omega
      have hclear : s.inflight idx = false := by
        rw [Sched.inflightTest, if_neg hlt, hown] at hfree
        exact hfree
      have hset : (t.inflightSet task.agentIdx).inflight idx = true := by
        rw [Sched.inflightSet, if_neg hlt, hown]
        exact Function.update_self ..
      simp [hset, hown, hclear]
    · have hkeep : (t.inflightSet task.agentIdx).inflight idx = s.inflight idx := by
        rw [Sched.inflightSet, ← hk.inflight]
        split
        · rfl
        · exact Function.update_of_ne (Ne.symm hown) _ _
      simp [hkeep, hown]
  · intro c
    simp only [hq]
    exact hk.room c
  · simp only [Allowed, hst]
    exact hk.allowed h.allowed

theorem distributeOne_conserved {tickId : UInt32} {a : Agent} (h : Conserved cfg s 0) :
    Conserved cfg (distributeOne cfg tickId s a) 0 := by
  rw [distributeOne]
  split
  · exact h
  split
  · exact h
  next hfree =>
  dsimp only
  split
  · next t he =>
    obtain ⟨hk, -⟩ := enqueueAgent_kept cfg h.room he 0
    exact accept_conserved h hk (by simpa using hfree)
  · next t he =>
    obtain ⟨hk, hsame⟩ := enqueueAgent_kept cfg h.room he 0
    refine conserved_of_kept h ⟨?_, hk.inflight, hk.accepted, hk.executed, hk.taken, hk.room,
      hk.allowed⟩
    rw [queued_congr (hsame rfl)]

theorem distributeBatch_conserved {agents : List Agent} {tickId : UInt32}
    (h : Conserved cfg s 0) : Conserved cfg (distributeBatch cfg agents tickId s) 0 := by
  have hall : ∀ (l : List Agent) (s : Sched), Conserved cfg s 0 →
      Conserved cfg (l.foldl (distributeOne cfg tickId) s) 0 := by
    intro l
    induction l with
    | nil => exact fun s hs => hs
    | cons a l ih => exact fun s hs => ih _ (distributeOne_conserved hs)
  rw [distributeBatch]
  split
  · exact hall agents s h
  · exact h

theorem step_conserved (op : Op) (h : Conserved cfg s 0) : Conserved cfg (step cfg s op) 0 := by
  cases op with
  | distributeBatch agents tickId => exact distributeBatch_conserved h
  | stealBurst thief => exact conserved_of_kept h (stealBurst_kept thief h.room)
  | stealAgent core =>
    rw [step]
    rcases hst : stealAgent cfg core s with ⟨o, t⟩
    have hk := conserved_of_kept h (stealAgent_kept h.room hst)
    cases o with
    | none => exact hk
    | some task => exact take_conserved hk
  | tryRunOneAgent core =>
    rw [step, tryRunOneAgent]
    split
    · exact h
    · rcases hn : nextTask cfg core s with ⟨o, t⟩
      have hk := conserved_of_kept h (nextTask_kept h.room hn)
      cases o with
      | none => exact hk
      | some task => exact execute_conserved hk

theorem run_conserved (env : ℕ → Bool) (ops : List Op) :
    Conserved cfg (run (step cfg) (.init env) ops) 0 := by
  suffices h : ∀ s, Conserved cfg s 0 → Conserved cfg (run (step cfg) s ops) 0 from
    h _ (init_conserved env)
  induction ops with
  | nil => exact fun s hs => hs
  | cons op ops ih => exact fun s hs => ih _ (step_conserved op hs)

/-- Whatever is distributed, stolen and run: every accepted task is queued, was executed or was
handed out, once; thefts respect affinity; and the bit of an agent is set exactly when one task
of it is under way. -/
theorem tasks_conserved (cfg : Config) (env : ℕ → Bool) (ops : List Op) :
    let s := run (step cfg) (.init env) ops
    queued s+s.executed+s.taken = s.accepted ∧
      (∀ x ∈ s.stolen, affinityAllows cfg x.1 x.2.affinityRing = true) ∧
      ∀ idx < 256, tasksOf idx (queued s+s.taken) ≤ 1 ∧
        (s.inflight idx = true ↔ tasksOf idx (queued s+s.taken) = 1) := by
  intro s
  have h : Conserved cfg s 0 := run_conserved env ops
  refine ⟨by simpa using h.balance, h.allowed, fun idx hidx => ?_⟩
  have hcount := h.inflight idx hidx
  rw [add_zero] at hcount
  rw [hcount]
  split
  · next hb => simp [hb]
  · next hb => simp [hb]

end NeuralOs.Smp.Conservation
