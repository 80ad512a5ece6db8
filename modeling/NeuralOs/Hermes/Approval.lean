import NeuralOs.Lib.BoundedLog
import NeuralOs.Lib.Machine

/-!
# The approval gate

Dangerous skills ask before they run. The gate keeps the last 64 requests of
all skills and answers from the newest one of a skill; a skill without a
request may run. Beside the gate stands the ledger of all requests, which is
what the gate is for, and the gate is the end of the ledger.
-/

set_option autoImplicit false

namespace NeuralOs.Hermes.Approval
open BoundedLog

abbrev Name := List Char

inductive ApprovalLevel
  | auto
  | confirm
  | escalate
  | deny
  deriving DecidableEq

structure ApprovalRequest where
  id : ℕ
  skill : Name
  agent : Name
  reason : Name
  requiredLevel : ApprovalLevel
  resolved : Bool
  approved : Bool
  deriving DecidableEq

structure ApprovalGate where
  requests : List ApprovalRequest
  nextId : ℕ

def requestsCap : ℕ := 64

namespace ApprovalGate

def new : ApprovalGate := ⟨[], 1⟩

variable (g : ApprovalGate)

def fresh (id : ℕ) (skill agent reason : Name) (level : ApprovalLevel) : ApprovalRequest :=
  ⟨id, skill, agent, reason, level, false, false⟩

def request (skill agent reason : Name) (level : ApprovalLevel) : ApprovalGate × ℕ :=
  (⟨push requestsCap g.requests (fresh g.nextId skill agent reason level), g.nextId+1⟩, g.nextId)

def allows : Option ApprovalRequest → Bool
  | some r => if r.resolved then r.approved else r.requiredLevel = .auto
  | none => true

def canExecute (skill : Name) : Bool := allows (g.requests.reverse.find? fun r => r.skill = skill)

def resolution (id : ℕ) : Option Bool :=
  (g.requests.find? fun r => r.id = id && r.resolved).map (·.approved)

def pending : List ApprovalRequest := g.requests.filter fun r => !r.resolved

def isOpen (id : ℕ) (r : ApprovalRequest) : Bool := r.id = id && !r.resolved

def settle (approve : Bool) (r : ApprovalRequest) : ApprovalRequest :=
  { r with resolved := true, approved := approve }

def resolve (id : ℕ) (approve : Bool) : ApprovalGate × Bool :=
  (⟨modifyFirst (isOpen id) (settle approve) g.requests, g.nextId⟩, g.requests.any (isOpen id))

end ApprovalGate

inductive Call
  | request (skill agent reason : Name) (level : ApprovalLevel)
  | resolve (id : ℕ) (approve : Bool)

def exec (g : ApprovalGate) : Call → ApprovalGate
  | .request skill agent reason level => (g.request skill agent reason level).1
  | .resolve id approve => (g.resolve id approve).1

def gateAfter (calls : List Call) : ApprovalGate := Machine.run exec .new calls

/-! ## The ledger of all requests -/

/-- All requests ever made; the id of a request is its position counted from 1. -/
def record (ledger : List ApprovalRequest) : Call → List ApprovalRequest
  | .request skill agent reason level =>
    ledger ++ [ApprovalGate.fresh (ledger.length+1) skill agent reason level]
  | .resolve id approve =>
    modifyFirst (ApprovalGate.isOpen id) (ApprovalGate.settle approve) ledger

def ledgerAfter (calls : List Call) : List ApprovalRequest := Machine.run record [] calls

structure Follows (ledger : List ApprovalRequest) (g : ApprovalGate) : Prop where
  requests : g.requests = ledger.rtake requestsCap
  nextId : g.nextId = ledger.length+1
  ids : ledger.map (·.id) = (List.range ledger.length).map (·+1)

theorem modifyFirst_ids (p : ApprovalRequest → Bool) (approve : Bool) (l : List ApprovalRequest) :
    (modifyFirst p (ApprovalGate.settle approve) l).map (·.id) = l.map (·.id) := by
  induction l with
  | nil => rfl
  | cons r l ih =>
    rw [modifyFirst]
    split
    · rfl
    · rw [List.map_cons, List.map_cons, ih]

variable {ledger : List ApprovalRequest}

theorem Follows.one_open {g : ApprovalGate}
    (h : Follows ledger g) (id : ℕ) : ledger.Pairwise fun x y =>
      ApprovalGate.isOpen id x = true → ApprovalGate.isOpen id y = false := by
  have hnodup : (ledger.map (·.id)).Nodup := by
    rw [h.ids]
    exact List.Nodup.map (add_left_injective 1) List.nodup_range
  refine (List.pairwise_map.mp hnodup).imp ?_
  intro x y hne hx
  simp only [ApprovalGate.isOpen, Bool.and_eq_true, decide_eq_true_eq] at hx
  simp [ApprovalGate.isOpen, ← hx.1, Ne.symm hne]

theorem Follows.exec {g : ApprovalGate} (h : Follows ledger g)
    (call : Call) : Follows (record ledger call) (exec g call) := by
  cases call with
  | request skill agent reason level =>
    constructor
    · simp only [Approval.exec, ApprovalGate.request, record, h.requests, h.nextId]
      exact push_rtake (by decide) _ _
    · simp [Approval.exec, ApprovalGate.request, record, h.nextId]
    · simp [record, h.ids, List.range_succ, ApprovalGate.fresh]
  | resolve id approve =>
    constructor
    · simp only [Approval.exec, ApprovalGate.resolve, record, h.requests]
      exact (modifyFirst_rtake (h.one_open id)).symm
    · simp [Approval.exec, ApprovalGate.resolve, record, h.nextId, modifyFirst_length]
    · simp only [record, modifyFirst_ids, modifyFirst_length, h.ids]

theorem follows_run (calls : List Call) : Follows (ledgerAfter calls) (gateAfter calls) := by
  induction calls using List.reverseRecOn with
  | nil => exact ⟨rfl, rfl, rfl⟩
  | append_singleton calls call ih =>
    rw [ledgerAfter, gateAfter, Machine.run_append, Machine.run_append]
    exact ih.exec call

/-! ## Refused skills -/

def newest (ledger : List ApprovalRequest) (skill : Name) : Option ApprovalRequest :=
  ledger.reverse.find? fun r => r.skill = skill

/-- The most recent request for the skill was denied, or waits for an answer it needs. -/
def Refused (ledger : List ApprovalRequest) (skill : Name) : Prop :=
  ∃ r, newest ledger skill = some r ∧
    ((r.resolved = true ∧ r.approved = false) ∨ (r.resolved = false ∧ r.requiredLevel ≠ .auto))

def later (ledger : List ApprovalRequest) (skill : Name) : ℕ :=
  (ledger.reverse.takeWhile fun r => !decide (r.skill = skill)).length

theorem canExecute_eq (calls : List Call) (skill : Name) :
    (gateAfter calls).canExecute skill =
      if later (ledgerAfter calls) skill < requestsCap then
        ApprovalGate.allows (newest (ledgerAfter calls) skill)
      else true := by
  rw [ApprovalGate.canExecute, (follows_run calls).requests, find_rtake]
  unfold later newest
  split <;> rfl

theorem allows_of_refused {skill : Name}
    (h : Refused ledger skill) : ApprovalGate.allows (newest ledger skill) = false := by
  obtain ⟨r, hr, hdenied | hwaits⟩ := h
  · simp [hr, ApprovalGate.allows, hdenied]
  · simp [hr, ApprovalGate.allows, hwaits]

/-- A refused skill stays refused exactly as long as fewer than 64 requests
follow its own. -/
theorem refused_stays_iff (calls : List Call) (skill : Name) :
    (Refused (ledgerAfter calls) skill → (gateAfter calls).canExecute skill = false) ↔
      (Refused (ledgerAfter calls) skill → later (ledgerAfter calls) skill < requestsCap) := by
  rw [canExecute_eq]
  constructor
  · intro h hrefused
    by_contra hlate
    have hfalse := h hrefused
    rw [if_neg hlate] at hfalse
    cases hfalse
  · intro h hrefused
    rw [if_pos (h hrefused)]
    exact allows_of_refused hrefused

def deniedThenBusy : List Call :=
  .request ['a'] [] [] .confirm :: .resolve 1 false ::
    List.replicate 64 (.request ['b'] [] [] .auto)

theorem denied_skill_allowed : Refused (ledgerAfter deniedThenBusy) ['a'] ∧
    (gateAfter deniedThenBusy).canExecute ['a'] = true := by
  refine ⟨⟨⟨1, ['a'], [], [], .confirm, true, false⟩, ?_, ?_⟩, ?_⟩
  · decide +kernel
  · exact Or.inl ⟨rfl, rfl⟩
  · decide +kernel

end NeuralOs.Hermes.Approval
