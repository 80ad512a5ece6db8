import Mathlib
import NeuralOs.Lib.Machine

/-!
# The life of a watched agent

The life of an agent is read off the log alone: overruns since the last recovery, polls
refused in this pause and in all, and how a tick left the agent. Manager and registry
stay in step with it, so that it decides which polls are refused.
-/

set_option autoImplicit false

namespace NeuralOs.AgentCore.Watchdog

def inc (n : ℕ) : ℕ := min (n+1) (2^64-1)

/-! ### Budgets -/

inductive AgentWatchdogState
  | normal
  | warning
  | paused
  | crashed
  deriving DecidableEq

structure AgentBudget where
  ticksUsed : ℕ
  tickBudget : ℕ
  overruns : ℕ
  watchdog : AgentWatchdogState

namespace AgentBudget

def new (budget : ℕ) : AgentBudget := ⟨0, budget, 0, .normal⟩

def allowPoll (b : AgentBudget) : Bool × AgentBudget :=
  if b.watchdog = .paused ∨ b.watchdog = .crashed then (false, b)
  else (true, { b with ticksUsed := inc b.ticksUsed })

def noteWallOverrun (b : AgentBudget) : AgentBudget :=
  if b.watchdog = .crashed then b
  else
    { b with
      overruns := inc b.overruns
      watchdog := if 3 < inc b.overruns then .paused else .warning }

def reset (b : AgentBudget) : AgentBudget :=
  { b with
    ticksUsed := 0
    watchdog := if b.watchdog = .warning then .normal else b.watchdog }

def recover (b : AgentBudget) : AgentBudget :=
  { b with ticksUsed := 0, overruns := 0, watchdog := .normal }

end AgentBudget

/-- `BudgetManager::allow_poll`; a name that is not registered is not watched. -/
def allowPoll : Option AgentBudget → Bool × Option AgentBudget
  | none => (true, none)
  | some b => (b.allowPoll.1, some b.allowPoll.2)

/-! ### Agents -/

inductive ScheduleKind
  | oneshot
  | continuous
  | pollEvery (n : ℕ)
  | eventDriven
  deriving DecidableEq

inductive AgentTickResult
  | pending
  | done
  | crashed
  deriving DecidableEq

inductive AgentState
  | inactive
  | active
  | done
  | crashed
  deriving DecidableEq

structure AgentInstance where
  name : String
  state : AgentState
  lastPoll : ℕ
  tickCounter : ℕ
  schedule : ScheduleKind
  consecutivePending : ℕ
  goalUrgency : UInt8
  pausedTicks : ℕ
  lifetimePausedPolls : ℕ

def AgentInstance.new (name : String) (schedule : ScheduleKind) : AgentInstance where
  name := name
  state := .inactive
  lastPoll := 0
  tickCounter := 0
  schedule := schedule
  consecutivePending := 0
  goalUrgency := if schedule = .continuous then 100 else 0
  pausedTicks := 0
  lifetimePausedPolls := 0

def watchdogShouldCrash (urgency : UInt8) (consecutivePending : ℕ) : Bool :=
  urgency == 0 && 10000 < consecutivePending

def checkAgent (a : AgentInstance) (b : Option AgentBudget) :
    Bool × AgentInstance × Option AgentBudget :=
  if 0 < a.pausedTicks then
    let paused := inc a.pausedTicks
    let lifetime := inc a.lifetimePausedPolls
    let counted := { a with pausedTicks := paused, lifetimePausedPolls := lifetime }
    -- the crash comes before the recovery
    if 10000 ≤ lifetime then (false, { counted with state := .crashed }, b)
    else if 1000 ≤ paused then (false, { counted with pausedTicks := 0 }, b.map .recover)
    else (false, counted, b)
  else if (allowPoll b).1 then (true, a, (allowPoll b).2)
  else
    (false, { a with pausedTicks := 1, lifetimePausedPolls := inc a.lifetimePausedPolls },
      (allowPoll b).2)

def applyTickResult (a : AgentInstance) (result : AgentTickResult) (tickId : ℕ) : AgentInstance :=
  match result with
  | .pending =>
    { a with
      lastPoll := tickId
      consecutivePending := inc a.consecutivePending
      state :=
        if watchdogShouldCrash a.goalUrgency (inc a.consecutivePending) then .crashed
        else a.state }
  | .done =>
    { a with
      lastPoll := tickId
      consecutivePending := 0
      state := if a.schedule = .oneshot then .done else a.state }
  | .crashed => { a with lastPoll := tickId, state := .crashed }

/-! ### The registry -/

structure AgentRegistry where
  agents : List AgentInstance
  budgets : String → Option AgentBudget

namespace AgentRegistry

def put (r : AgentRegistry) (idx : ℕ) (a : AgentInstance) (b : Option AgentBudget) :
    AgentRegistry :=
  ⟨r.agents.set idx a, Function.update r.budgets a.name b⟩

def noteWallOverrun (r : AgentRegistry) (name : String) : AgentRegistry :=
  { r with
    budgets := Function.update r.budgets name ((r.budgets name).map .noteWallOverrun) }

def resetAll (r : AgentRegistry) : AgentRegistry :=
  { r with budgets := fun name => (r.budgets name).map .reset }

end AgentRegistry

/-! ### Scheduling -/

/-- What happened, in the order it did. A tick is noted with the state it leaves. -/
inductive Event
  | ticked (idx : ℕ) (after : AgentState)
  | refused (idx : ℕ)
  | overran (name : String)

structure World where
  reg : AgentRegistry
  log : List Event

inductive Op
  | cycle
  /-- The scheduler comes to this agent: do the hooks allow the tick, is the tick lock free,
  is the tick slow, and how does it end. -/
  | poll (idx : ℕ) (hook lock slow : Bool) (result : AgentTickResult) (tickId : ℕ)
  /-- Another core takes this agent from its queue. -/
  | tickAgentByIndex (idx : ℕ) (result : AgentTickResult) (tickId : ℕ)
  | overrun (name : String)

def tick (w : World) (idx : ℕ) (a : AgentInstance) (slow : Bool) (result : AgentTickResult)
    (tickId : ℕ) : World :=
  let a' := applyTickResult { a with tickCounter := a.tickCounter+1 } result tickId
  let reg := { w.reg with agents := w.reg.agents.set idx a' }
  if slow then ⟨reg.noteWallOverrun a.name, w.log++[.ticked idx a'.state, .overran a.name]⟩
  else ⟨reg, w.log++[.ticked idx a'.state]⟩

def polled (w : World) (idx : ℕ) (allowed slow : Bool) (result : AgentTickResult)
    (tickId : ℕ) : World :=
  match w.reg.agents[idx]? with
  | none => w
  | some a =>
    if a.state ≠ .active then w
    else
      match checkAgent a (w.reg.budgets a.name) with
      | (false, a', b) => ⟨w.reg.put idx a' b, w.log++[.refused idx]⟩
      | (true, a', b) =>
        if allowed then tick ⟨w.reg.put idx a' b, w.log⟩ idx a' slow result tickId
        else ⟨w.reg.put idx a' b, w.log⟩

def step (w : World) : Op → World
  | .cycle => { w with reg := w.reg.resetAll }
  | .poll idx hook lock slow result tickId => polled w idx (hook && lock) slow result tickId
  | .tickAgentByIndex idx result tickId => polled w idx true false result tickId
  | .overrun name => ⟨w.reg.noteWallOverrun name, w.log++[.overran name]⟩

end NeuralOs.AgentCore.Watchdog

/-! ## The life of a watched agent -/

namespace NeuralOs.AgentCore.LifeCycle
open Machine Watchdog

structure Life where
  overruns : ℕ
  pause : ℕ
  lifetime : ℕ
  last : AgentState

/-- A thousand refused polls are a recovery. -/
def Life.note (idx : ℕ) (name : String) (l : Life) : Event → Life
  | .ticked i after => if i = idx then { l with last := after } else l
  | .refused i =>
    if i = idx then
      if l.pause+1 = 1000 then { l with overruns := 0, pause := 0, lifetime := l.lifetime+1 }
      else { l with pause := l.pause+1, lifetime := l.lifetime+1 }
    else l
  | .overran n => if n = name then { l with overruns := l.overruns+1 } else l

def life (idx : ℕ) (name : String) (log : List Event) : Life :=
  log.foldl (Life.note idx name) ⟨0, 0, 0, .active⟩

/-- When an agent may be ticked and when a poll of it may be refused. -/
def Fits (idx : ℕ) (l : Life) : Event → Prop
  | .ticked i _ => i = idx → l.overruns < 4 ∧ l.lifetime < 10000 ∧ l.last = .active
  | .refused i => i = idx → 4 ≤ l.overruns ∧ l.lifetime < 10000 ∧ l.last = .active
  | .overran _ => True

def Lawful (idx : ℕ) (name : String) (log : List Event) : Prop :=
  ∀ pre e post, log = pre++e::post → Fits idx (life idx name pre) e

def Foreign (idx : ℕ) (name : String) : Event → Prop
  | .ticked i _ => i ≠ idx
  | .refused i => i ≠ idx
  | .overran n => n ≠ name

variable {idx : ℕ} {name : String} {log : List Event} {l : Life} {w : World}
  {a : AgentInstance} {b : AgentBudget}

/-! ### Logs -/

theorem life_append (log es : List Event) :
    life idx name (log++es) = es.foldl (Life.note idx name) (life idx name log) :=
  List.foldl_append

variable {e : Event} {n : ℕ}

theorem fits_foreign (h : Foreign idx name e) : Fits idx l e := by
  cases e with
  | ticked i after => exact fun hi => absurd hi h
  | refused i => exact fun hi => absurd hi h
  | overran n => trivial

theorem lawful_append (h : Lawful idx name log)
    (he : Fits idx (life idx name log) e) : Lawful idx name (log++[e]) := by
  intro pre d post hlog
  rcases List.eq_nil_or_concat post with rfl | ⟨post', x, rfl⟩
  · obtain ⟨rfl, hd⟩ := List.append_inj' hlog rfl
    obtain rfl := List.singleton_inj.mp hd
    exact he
  · have hlog' : log++[e] = (pre++d::post')++[x] := by simpa using hlog
    exact h pre d post' (List.append_inj' hlog' rfl).1

theorem foreign_append {es : List Event} (h : Lawful idx name log)
    (hes : ∀ e ∈ es, Foreign idx name e) :
    Lawful idx name (log++es) ∧ life idx name (log++es) = life idx name log := by
  induction es generalizing log with
  | nil => exact ⟨by simpa using h, by simp⟩
  | cons e es ih =>
    have he := hes e (by simp)
    obtain ⟨hl, hlife⟩ := ih (lawful_append h (fits_foreign he)) fun d hd => hes d (by simp [hd])
    rw [List.append_assoc, List.singleton_append] at hl hlife
    refine ⟨hl, hlife.trans ?_⟩
    rw [life_append]
    cases e <;> exact if_neg he

/-! ### Manager and registry in step -/

structure Own (idx : ℕ) (name : String) (r : AgentRegistry) (a : AgentInstance)
    (b : AgentBudget) : Prop where
  agent : r.agents[idx]? = some a
  named : a.name = name
  budget : r.budgets name = some b
  unique : ∀ j c, r.agents[j]? = some c → c.name = name → j = idx

/-- The watchdog of the manager, from the overruns alone. -/
structure Watched (b : AgentBudget) (overruns : ℕ) : Prop where
  counted : b.overruns = min overruns (2^64-1)
  paused : b.watchdog = .paused ↔ 4 ≤ overruns
  alive : b.watchdog ≠ .crashed

structure Paced (a : AgentInstance) (b : AgentBudget) (l : Life) : Prop where
  pause : a.pausedTicks = l.pause
  lifetime : a.lifetimePausedPolls = l.lifetime
  short : l.pause < 1000
  rounds : l.lifetime%1000 = l.pause
  watched : Watched b l.overruns
  reason : 0 < l.pause → 4 ≤ l.overruns

structure Tracked (a : AgentInstance) (b : AgentBudget) (l : Life) : Prop where
  bound : l.lifetime ≤ 10000
  state : a.state = if l.lifetime = 10000 then .crashed else l.last
  paced : l.lifetime < 10000 → Paced a b l

theorem watched_overrun (h : Watched b n) : Watched b.noteWallOverrun (n+1) := by
  have hinc : inc b.overruns = min (n+1) (2^64-1) := by
    rw [inc, h.counted]
    omega
  rw [AgentBudget.noteWallOverrun, if_neg h.alive]
  refine ⟨hinc, ?_, ?_⟩
  · simp only [hinc]
    split <;> simp <;> omega
  · simp only
    split <;> simp

theorem watched_reset (h : Watched b n) : Watched b.reset n := by
  refine ⟨h.counted, ?_, ?_⟩
  · rw [← h.paused, AgentBudget.reset]
    simp only
    split
    · next hw => simp [hw]
    · rfl
  · rw [AgentBudget.reset]
    simp only
    split
    · simp
    · exact h.alive

theorem watched_recover (b : AgentBudget) : Watched b.recover 0 :=
  ⟨rfl, by simp [AgentBudget.recover], by simp [AgentBudget.recover]⟩

theorem watched_poll (h : Watched b n) :
    b.allowPoll.1 = decide (n < 4) ∧ Watched b.allowPoll.2 n := by
  rw [AgentBudget.allowPoll]
  by_cases hp : b.watchdog = .paused
  · rw [if_pos (.inl hp)]
    exact ⟨by have := h.paused.mp hp; simp; omega, h⟩
  · rw [if_neg (by simp [hp, h.alive])]
    have hlt : n < 4 := by
      by_contra hge
      exact hp (h.paused.mpr (by omega))
    exact ⟨by simp [hlt], h.counted, h.paused, h.alive⟩

/-! ### A poll of the agent -/

theorem active_iff (h : Tracked a b l) :
    a.state = .active ↔ l.lifetime < 10000 ∧ l.last = .active := by
  have hb := h.bound
  rw [h.state]
  split
  · next heq => simp [heq]
  · next hne => exact ⟨fun hl => ⟨by omega, hl⟩, fun hl => hl.2⟩

theorem checkAgent_allowed (h : Paced a b l) (hlt : l.overruns < 4) :
    ∃ b', checkAgent a (some b) = (true, a, some b') ∧ Paced a b' l := by
  have hzero : ¬0 < a.pausedTicks := by
    rw [h.pause]
    intro hpos
    have := h.reason hpos
    omega
  obtain ⟨hok, hw⟩ := watched_poll h.watched
  have hok' : (allowPoll (some b)).1 = true := by
    rw [allowPoll, hok]
    exact decide_eq_true hlt
  refine ⟨b.allowPoll.2, ?_, ⟨h.pause, h.lifetime, h.short, h.rounds, hw, h.reason⟩⟩
  rw [checkAgent, if_neg hzero, if_pos hok']
  rfl

theorem checkAgent_refused (idx : ℕ) (name : String) (h : Tracked a b l)
    (hlife : l.lifetime < 10000) (hge : 4 ≤ l.overruns) :
    ∃ a' b', checkAgent a (some b) = (false, a', some b') ∧ a'.name = a.name ∧
      Tracked a' b' (l.note idx name (.refused idx)) := by
  obtain ⟨hpause, hlifetime, hshort, hrounds, hwatched, hreason⟩ := h.paced hlife
  have hstate := h.state
  rw [if_neg (by omega)] at hstate
  have hinc : inc a.lifetimePausedPolls = l.lifetime+1 := by
    rw [inc, hlifetime]
    omega
  have hnote : l.note idx name (.refused idx) =
      if l.pause+1 = 1000 then { l with overruns := 0, pause := 0, lifetime := l.lifetime+1 }
      else { l with pause := l.pause+1, lifetime := l.lifetime+1 } := if_pos rfl
  rw [checkAgent, hnote]
  by_cases hpos : 0 < a.pausedTicks
  · have hincp : inc a.pausedTicks = l.pause+1 := by
      rw [inc, hpause]
      omega
    rw [if_pos hpos]
    simp only [hinc, hincp]
    by_cases hcrash : 10000 ≤ l.lifetime+1
    · -- the last poll of the tenth pause
      rw [if_pos hcrash, if_pos (by omega)]
      exact ⟨_, b, rfl, rfl, ⟨by simp; omega, by simp; omega, fun hlt => by simp at hlt; omega⟩⟩
    rw [if_neg hcrash]
    by_cases hfull : l.pause+1 = 1000
    · rw [if_pos (by omega), if_pos hfull]
      exact ⟨_, b.recover, rfl, rfl, ⟨by simp; omega, by simp [hstate]; omega, fun _ =>
        ⟨rfl, rfl, by simp, by simp; omega, watched_recover b, by simp⟩⟩⟩
    · rw [if_neg (by omega), if_neg hfull]
      exact ⟨_, b, rfl, rfl, ⟨by simp; omega, by simp [hstate]; omega, fun _ =>
        ⟨rfl, rfl, by simp; omega, by simp; omega, hwatched, fun _ => hge⟩⟩⟩
  · -- the first refused poll of a pause is never the last of a life
    obtain ⟨hok, hw⟩ := watched_poll hwatched
    have hno : ¬(allowPoll (some b)).1 = true := by
      rw [allowPoll, hok]
      simp
      omega
    rw [if_neg hpos, if_neg hno, if_neg (by omega)]
    have hzero : l.pause = 0 := by omega
    exact ⟨_, b.allowPoll.2, rfl, rfl, ⟨by simp; omega, by simp [hstate]; omega, fun _ =>
      ⟨by simp [hzero], hinc, by simp; omega, by simp; omega, hw, fun _ => hge⟩⟩⟩

/-! ### Writing back -/

variable {r : AgentRegistry}

theorem own_set {a' : AgentInstance} (h : Own idx name r a b) (hname : a'.name = name) :
    Own idx name { r with agents := r.agents.set idx a' } a' b := by
  have hlt : idx < r.agents.length := (List.getElem?_eq_some_iff.mp h.agent).1
  refine ⟨by simp [hlt], hname, h.budget, fun j c hj hc => ?_⟩
  by_cases hne : j = idx
  · exact hne
  · rw [List.getElem?_set_ne (Ne.symm hne)] at hj
    exact h.unique j c hj hc

theorem own_put {a' : AgentInstance} (b' : AgentBudget) (h : Own idx name r a b)
    (hname : a'.name = name) : Own idx name (r.put idx a' (some b')) a' b' := by
  have hset := own_set h hname
  exact ⟨hset.agent, hname, by simp [AgentRegistry.put, hname], hset.unique⟩

theorem own_other {j : ℕ} {c c' : AgentInstance} (o : Option AgentBudget)
    (h : Own idx name r a b) (hj : j ≠ idx) (hc : r.agents[j]? = some c)
    (hname : c'.name = c.name) : Own idx name (r.put j c' o) a b := by
  have hne : c.name ≠ name := fun hn => hj (h.unique j c hc hn)
  refine ⟨?_, h.named, ?_, fun k d hk hd => ?_⟩
  · rw [AgentRegistry.put, List.getElem?_set_ne hj]
    exact h.agent
  · rw [AgentRegistry.put, hname]
    exact (Function.update_of_ne (Ne.symm hne) _ _).trans h.budget
  rw [AgentRegistry.put] at hk
  by_cases hkj : k = j
  · subst hkj
    obtain ⟨hlt, -⟩ := List.getElem?_eq_some_iff.mp hc
    rw [List.getElem?_set_self hlt, Option.some.injEq] at hk
    rw [← hk, hname] at hd
    exact h.unique k c hc hd
  · rw [List.getElem?_set_ne (Ne.symm hkj)] at hk
    exact h.unique k d hk hd

theorem own_overrun (h : Own idx name r a b) (n : String) :
    Own idx name (r.noteWallOverrun n) a (if n = name then b.noteWallOverrun else b) := by
  refine ⟨h.agent, h.named, ?_, h.unique⟩
  rw [AgentRegistry.noteWallOverrun]
  split
  · next hn =>
    subst hn
    simp [h.budget]
  · next hn =>
    simp only
    rw [Function.update_of_ne (Ne.symm hn)]
    exact h.budget

theorem own_resetAll (h : Own idx name r a b) : Own idx name r.resetAll a b.reset :=
  ⟨h.agent, h.named, by simp [AgentRegistry.resetAll, h.budget], h.unique⟩

/-! ### Runs -/

def Sound (idx : ℕ) (name : String) (w : World) : Prop :=
  ∃ a b, Own idx name w.reg a b ∧ Tracked a b (life idx name w.log) ∧ Lawful idx name w.log

theorem tracked_overrun (idx : ℕ) (name : String) (h : Tracked a b l) (n : String) :
    Tracked a (if n = name then b.noteWallOverrun else b) (l.note idx name (.overran n)) := by
  rw [Life.note]
  split
  · refine ⟨h.bound, h.state, fun hlt => ?_⟩
    obtain ⟨hpause, hlifetime, hshort, hrounds, hwatched, hreason⟩ := h.paced hlt
    exact ⟨hpause, hlifetime, hshort, hrounds, watched_overrun hwatched, fun hpos =>
      Nat.le_succ_of_le (hreason hpos)⟩
  · exact h

theorem sound_overrun (h : Sound idx name w) (n : String) :
    Sound idx name ⟨w.reg.noteWallOverrun n, w.log++[.overran n]⟩ := by
  obtain ⟨a, b, hown, htracked, hlawful⟩ := h
  refine ⟨a, _, own_overrun hown n, ?_, lawful_append hlawful trivial⟩
  rw [life_append]
  exact tracked_overrun idx name htracked n

theorem applyTickResult_fields (a : AgentInstance) (result : AgentTickResult) (tickId : ℕ) :
    (applyTickResult a result tickId).name = a.name ∧
      (applyTickResult a result tickId).pausedTicks = a.pausedTicks ∧
      (applyTickResult a result tickId).lifetimePausedPolls = a.lifetimePausedPolls := by
  cases result <;> exact ⟨rfl, rfl, rfl⟩

theorem sound_tick (hown : Own idx name w.reg a b) (hpaced : Paced a b (life idx name w.log))
    (hlawful : Lawful idx name w.log) (hfits : Fits idx (life idx name w.log) (.ticked idx .active))
    (slow : Bool) (result : AgentTickResult) (tickId : ℕ) :
    Sound idx name (tick w idx a slow result tickId) := by
  let a' := applyTickResult { a with tickCounter := a.tickCounter+1 } result tickId
  obtain ⟨hname, hp, hlt⟩ :=
    applyTickResult_fields { a with tickCounter := a.tickCounter+1 } result tickId
  have hlive := (hfits rfl).2.1
  have hticked : Sound idx name
      ⟨{ w.reg with agents := w.reg.agents.set idx a' }, w.log++[.ticked idx a'.state]⟩ := by
    refine ⟨a', b, own_set hown (hname.trans hown.named), ?_, lawful_append hlawful hfits⟩
    have hlife : life idx name (w.log++[.ticked idx a'.state]) =
        { life idx name w.log with last := a'.state } := by
      rw [life_append]
      exact if_pos rfl
    rw [hlife]
    refine ⟨hlive.le, by rw [if_neg hlive.ne], fun _ => ⟨hp.trans hpaced.pause,
      hlt.trans hpaced.lifetime, hpaced.short, hpaced.rounds, hpaced.watched, hpaced.reason⟩⟩
  rw [tick]
  cases slow with
  | false => exact hticked
  | true =>
    have hslow := sound_overrun hticked a.name
    rw [List.append_assoc] at hslow
    exact hslow

theorem sound_polled_own (h : Sound idx name w) (allowed slow : Bool) (result : AgentTickResult)
    (tickId : ℕ) : Sound idx name (polled w idx allowed slow result tickId) := by
  have hsound := h
  obtain ⟨a, b, hown, htracked, hlawful⟩ := h
  rw [polled, hown.agent]
  simp only
  split
  · exact hsound
  next hact =>
  rw [not_not] at hact
  obtain ⟨hlife, hlast⟩ := (active_iff htracked).mp hact
  rw [hown.named, hown.budget]
  by_cases hlt : (life idx name w.log).overruns < 4
  · obtain ⟨b', hcheck, hpaced⟩ := checkAgent_allowed (htracked.paced hlife) hlt
    rw [hcheck]
    simp only
    have hown' := own_put b' hown hown.named
    split
    · exact sound_tick (w := ⟨w.reg.put idx a (some b'), w.log⟩) hown' hpaced hlawful
        (fun _ => ⟨hlt, hlife, hlast⟩) slow result tickId
    · exact ⟨a, b', hown', ⟨htracked.bound, htracked.state, fun _ => hpaced⟩, hlawful⟩
  · obtain ⟨a', b', hcheck, hname, htracked'⟩ :=
      checkAgent_refused idx name htracked hlife (Nat.le_of_not_lt hlt)
    rw [hcheck]
    refine ⟨a', b', own_put b' hown (hname.trans hown.named), ?_, lawful_append hlawful
      fun _ => ⟨Nat.le_of_not_lt hlt, hlife, hlast⟩⟩
    rw [life_append]
    exact htracked'

theorem checkAgent_name (a : AgentInstance) (o : Option AgentBudget) :
    (checkAgent a o).2.1.name = a.name := by
  rw [checkAgent]
  split
  · simp only
    split
    · rfl
    · split <;> rfl
  · split <;> rfl

theorem polled_other {j : ℕ} (hown : Own idx name w.reg a b) (hj : j ≠ idx)
    (allowed slow : Bool) (result : AgentTickResult) (tickId : ℕ) :
    Own idx name (polled w j allowed slow result tickId).reg a b ∧
      ∃ es, (polled w j allowed slow result tickId).log = w.log++es ∧
        ∀ e ∈ es, Foreign idx name e := by
  rw [polled]
  split
  · exact ⟨hown, [], by simp, by simp⟩
  next c hc =>
  split
  · exact ⟨hown, [], by simp, by simp⟩
  have hne : c.name ≠ name := fun hn => hj (hown.unique j c hc hn)
  have hcname := checkAgent_name c (w.reg.budgets c.name)
  rcases hcheck : checkAgent c (w.reg.budgets c.name) with ⟨ok, c', o⟩
  rw [hcheck] at hcname
  change c'.name = c.name at hcname
  have hput := own_other o hown hj hc hcname
  cases ok with
  | false => exact ⟨hput, [.refused j], rfl, by simpa [Foreign] using hj⟩
  | true =>
    cases allowed with
    | false => exact ⟨hput, [], by simp, by simp⟩
    | true =>
      have hc' : (w.reg.put j c' o).agents[j]? = some c' := by
        obtain ⟨hlt, -⟩ := List.getElem?_eq_some_iff.mp hc
        simp [AgentRegistry.put, hlt]
      let d := applyTickResult { c' with tickCounter := c'.tickCounter+1 } result tickId
      have hdname : d.name = c'.name := (applyTickResult_fields _ result tickId).1
      have hset := own_other ((w.reg.put j c' o).budgets c'.name) hput hj hc' hdname
      rw [AgentRegistry.put, hdname, Function.update_eq_self] at hset
      simp only [tick, if_true]
      cases slow with
      | false => exact ⟨hset, [.ticked j d.state], rfl, by simpa [Foreign] using hj⟩
      | true =>
        have hover := own_overrun hset c'.name
        have hne' : c'.name ≠ name := by rwa [hcname]
        rw [if_neg hne'] at hover
        refine ⟨hover, [.ticked j d.state, .overran c'.name], rfl, ?_⟩
        simp only [List.forall_mem_cons, Foreign]
        exact ⟨hj, hne', by simp⟩

theorem sound_polled (h : Sound idx name w) (j : ℕ) (allowed slow : Bool)
    (result : AgentTickResult) (tickId : ℕ) :
    Sound idx name (polled w j allowed slow result tickId) := by
  by_cases hj : j = idx
  · subst hj
    exact sound_polled_own h allowed slow result tickId
  · obtain ⟨a, b, hown, htracked, hlawful⟩ := h
    obtain ⟨hown', es, hlog, hes⟩ := polled_other hown hj allowed slow result tickId
    obtain ⟨hlawful', hlife⟩ := foreign_append hlawful hes
    exact ⟨a, b, hown', by rw [hlog, hlife]; exact htracked, by rw [hlog]; exact hlawful'⟩

theorem sound_step (op : Op) (h : Sound idx name w) : Sound idx name (step w op) := by
  cases op with
  | cycle =>
    obtain ⟨a, b, hown, htracked, hlawful⟩ := h
    refine ⟨a, b.reset, own_resetAll hown, ⟨htracked.bound, htracked.state, fun hlt => ?_⟩, hlawful⟩
    obtain ⟨hpause, hlifetime, hshort, hrounds, hwatched, hreason⟩ := htracked.paced hlt
    exact ⟨hpause, hlifetime, hshort, hrounds, watched_reset hwatched, hreason⟩
  | poll j hook lock slow result tickId => exact sound_polled h j _ slow result tickId
  | tickAgentByIndex j result tickId => exact sound_polled h j true false result tickId
  | overrun n => exact sound_overrun h n

/-- A registered and activated agent whose name no other agent has. -/
structure Fresh (r : AgentRegistry) (idx : ℕ) (name : String) : Prop where
  own : ∃ a n, Own idx name r a (.new n) ∧ a.state = .active ∧ a.pausedTicks = 0 ∧
    a.lifetimePausedPolls = 0

theorem sound_fresh (h : Fresh r idx name) : Sound idx name ⟨r, []⟩ := by
  obtain ⟨a, n, hown, hstate, hpause, hlife⟩ := h.own
  refine ⟨a, .new n, hown, ⟨by simp [life], by simpa [life] using hstate, fun _ => ?_⟩, ?_⟩
  · exact ⟨hpause, hlife, by simp [life], rfl,
      ⟨rfl, by simp [life, AgentBudget.new], by simp [AgentBudget.new]⟩, by simp [life]⟩
  · intro pre e post hlog
    simp at hlog

theorem sound_run (ops : List Op) (h : Sound idx name w) : Sound idx name (run step w ops) := by
  induction ops generalizing w with
  | nil => exact h
  | cons op ops ih => exact ih (sound_step op h)

/-- Ticks and refusals follow the life that the log tells; the agent is crashed exactly when ten
thousand polls of it were refused or a tick left it crashed; and while it is active, a poll
with fewer than four overruns ticks it. -/
theorem watchdog_life_cycle {r : AgentRegistry} {idx : ℕ} {name : String} (h : Fresh r idx name)
    (ops : List Op) :
    let w := run step ⟨r, []⟩ ops
    let l := life idx name w.log
    Lawful idx name w.log ∧
      (∃ a, w.reg.agents[idx]? = some a ∧
        (a.state = .crashed ↔ l.lifetime = 10000 ∨ l.last = .crashed)) ∧
      (l.lifetime < 10000 → l.last = .active → l.overruns < 4 → ∀ slow result tickId,
        ∃ after es, (step w (.poll idx true true slow result tickId)).log =
          w.log++.ticked idx after::es) := by
  intro w l
  obtain ⟨a, b, hown, htracked, hlawful⟩ : Sound idx name w := sound_run ops (sound_fresh h)
  refine ⟨hlawful, ⟨a, hown.agent, ?_⟩, ?_⟩
  · rw [htracked.state]
    split
    · next heq => exact ⟨fun _ => .inl heq, fun _ => rfl⟩
    · next hne => exact ⟨.inr, fun hor => hor.resolve_left hne⟩
  intro hlife hlast hlt slow result tickId
  have hact : a.state = .active := (active_iff htracked).mpr ⟨hlife, hlast⟩
  obtain ⟨b', hcheck, -⟩ := checkAgent_allowed (htracked.paced hlife) hlt
  rw [step, polled, hown.agent]
  simp only [hact, ne_eq, not_true_eq_false, if_false, hown.named, hown.budget, hcheck,
    Bool.and_self, if_true, tick]
  cases slow with
  | false => exact ⟨_, [], rfl⟩
  | true => exact ⟨_, [.overran name], rfl⟩

def oneAgent : AgentRegistry :=
  ⟨[{ AgentInstance.new "a" .continuous with state := .active }],
    fun n => if n = "a" then some (.new 100) else none⟩

theorem oneAgent_fresh : Fresh oneAgent 0 "a" := by
  refine ⟨⟨_, 100, ⟨rfl, rfl, rfl, fun j c hj _ => ?_⟩, rfl, rfl, rfl⟩⟩
  obtain ⟨hlt, -⟩ := List.getElem?_eq_some_iff.mp hj
  exact Nat.lt_one_iff.mp hlt

def overworked : List Op := .cycle::List.replicate 6 (.poll 0 true true true .pending 1)

theorem oneAgent_lives : Lawful 0 "a" (run step ⟨oneAgent, []⟩ overworked).log ∧
    (life 0 "a" (run step ⟨oneAgent, []⟩ overworked).log).overruns = 4 ∧
    (life 0 "a" (run step ⟨oneAgent, []⟩ overworked).log).pause = 2 :=
  ⟨(watchdog_life_cycle oneAgent_fresh overworked).1, by decide, by decide⟩

/-- An agent whose own tick reports a crash is marked without any refused poll. -/
theorem crash_without_refusal :
    ((run step ⟨oneAgent, []⟩ [.poll 0 true true false .crashed 1]).reg.agents.map
        AgentInstance.state = [.crashed]) ∧
      (life 0 "a" (run step ⟨oneAgent, []⟩ [.poll 0 true true false .crashed 1]).log).lifetime =
        0 := by
  decide

end NeuralOs.AgentCore.LifeCycle
