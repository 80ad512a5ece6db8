import NeuralOs.Lib.Machine

/-!
# The async executor

Sixty-four task slots, a channel of at most 256 wake notifications, and the
functions that register a future, wake a task, poll a task and drain the
channel. The stored waker of a task calls `wake_future` for its own index and
`wake_future` calls the stored waker, so the recursion takes fuel and `none`
is a call that has not returned.
-/

set_option autoImplicit false

namespace NeuralOs.Async

/-- What one poll of a future does: the tasks it wakes, and whether it is ready. -/
structure Polled where
  wakes : List ℕ
  ready : Bool

/-- A future is known by the outcomes of its polls, in order. -/
def Future : Type := ℕ → Polled

def Future.next (future : Future) : Future := fun n => future (n+1)

structure TaskState where
  future : Option Future
  waker : Bool
  woken : Bool

structure Executor where
  tasks : ℕ → TaskState
  count : ℕ
  wakeChannel : List ℕ
  /-- Bookkeeping only: the task was woken and has not been polled since. -/
  owed : ℕ → Bool

def maxTasks : ℕ := 64
def mask : ℕ := 255

namespace Executor

def new : Executor :=
  { tasks := fun _ => ⟨none, false, false⟩, count := 0, wakeChannel := [], owed := fun _ => false }

def setTask (s : Executor) (i : ℕ) (f : TaskState → TaskState) : Executor :=
  { s with tasks := Function.update s.tasks i (f (s.tasks i)) }

def Registered (s : Executor) (i : ℕ) : Prop := i < maxTasks ∧ (s.tasks i).future.isSome

def tryPush (s : Executor) (i : ℕ) : Executor :=
  if s.wakeChannel.length > mask then s else { s with wakeChannel := s.wakeChannel ++ [i] }

def tryPop (s : Executor) : Option (ℕ × Executor) :=
  match s.wakeChannel with
  | [] => none
  | i::rest => some (i, { s with wakeChannel := rest })

def registerFuture (s : Executor) (future : Future) : Option ℕ × Executor :=
  if s.count ≥ maxTasks then (none, s) else
  match (List.range maxTasks).find? fun i => (s.tasks i).future.isNone with
  | none => (none, s)
  | some i =>
    (some i, { s.setTask i fun t => { t with future := some future } with
      count := s.count + 1
      owed := Function.update s.owed i false })

/-- The `woken` flag of a task; a registered task is owed a poll from here on. -/
def markWoken (s : Executor) (i : ℕ) : Executor :=
  { s.setTask i fun t => { t with woken := true } with
    owed := Function.update s.owed i ((s.tasks i).future.isSome || s.owed i) }

def wakeByIndex (wakeByRef : Executor → ℕ → Option Executor) (s : Executor) (i : ℕ) :
    Option Executor :=
  if i < maxTasks then
    if ((s.markWoken i).tasks i).waker then wakeByRef (s.markWoken i) i else some (s.markWoken i)
  else some s

def wakeFuture : ℕ → Executor → ℕ → Option Executor
  | 0, _, _ => none
  | fuel+1, s, i => (wakeByIndex (wakeFuture fuel) s i).map (tryPush · i)

/-- The waker is stored before the future runs. -/
def storeWaker (s : Executor) (i : ℕ) : Executor :=
  { s.setTask i fun t => { t with waker := true } with owed := Function.update s.owed i false }

def finishPoll (s : Executor) (i : ℕ) (future : Future) : Executor :=
  if (future 0).ready then
    { s.setTask i fun t => { t with future := none, waker := false } with count := s.count - 1 }
  else s.setTask i fun t => { t with future := some future.next }

def pollTask (fuel : ℕ) (s : Executor) (i : ℕ) : Option Executor :=
  if i ≥ maxTasks then some s else
  match (s.tasks i).future with
  | none => some s
  | some future =>
    ((future 0).wakes.foldlM (wakeFuture fuel) (s.storeWaker i)).map (finishPoll · i future)

def processLoop (fuel : ℕ) : ℕ → Executor → Option Executor
  | 0, s => some s
  | budget+1, s =>
    match s.tryPop with
    | none => some s
    | some (i, s') => (pollTask fuel s' i).bind (processLoop fuel budget)

def processWakes (fuel : ℕ) (s : Executor) : Option Executor := processLoop fuel maxTasks s

end Executor

inductive Call where
  | registerFuture (future : Future)
  | wakeFuture (i : ℕ)
  | pollTask (i : ℕ)
  | processWakes

open Executor

def Call.exec (fuel : ℕ) (s : Executor) : Call → Option Executor
  | .registerFuture future => some (s.registerFuture future).2
  | .wakeFuture i => s.wakeFuture fuel i
  | .pollTask i => s.pollTask fuel i
  | .processWakes => s.processWakes fuel

def execAll (fuel : ℕ) (calls : List Call) (s : Executor) : Option Executor :=
  calls.foldlM (Call.exec fuel) s

namespace Executor

variable (s : Executor) (i j : ℕ)

@[simp] theorem setTask_wakeChannel (f : TaskState → TaskState) :
    (s.setTask i f).wakeChannel = s.wakeChannel := rfl

@[simp] theorem setTask_owed (f : TaskState → TaskState) : (s.setTask i f).owed = s.owed := rfl

@[simp] theorem tryPush_tasks : (s.tryPush i).tasks = s.tasks := by
  unfold tryPush
  split <;> rfl

@[simp] theorem tryPush_owed : (s.tryPush i).owed = s.owed := by
  unfold tryPush
  split <;> rfl

theorem mem_tryPush {s : Executor} {i j : ℕ} (h : j ∈ s.wakeChannel) :
    j ∈ (s.tryPush i).wakeChannel := by
  unfold tryPush
  split
  · exact h
  · exact List.mem_append_left _ h

theorem mem_tryPush_self {s : Executor} {i : ℕ}
    (h : s.wakeChannel.length ≤ mask ∨ i ∈ s.wakeChannel) : i ∈ (s.tryPush i).wakeChannel := by
  cases h with
  | inl h =>
    rw [tryPush, if_neg (by omega)]
    exact List.mem_append_right _ (List.mem_singleton_self i)
  | inr h => exact mem_tryPush h

@[simp] theorem markWoken_wakeChannel : (s.markWoken i).wakeChannel = s.wakeChannel := rfl

@[simp] theorem markWoken_future : ((s.markWoken i).tasks j).future = (s.tasks j).future := by
  by_cases h : j = i
  · subst h
    simp [markWoken, setTask]
  · simp [markWoken, setTask, h]

@[simp] theorem markWoken_waker : ((s.markWoken i).tasks j).waker = (s.tasks j).waker := by
  by_cases h : j = i
  · subst h
    simp [markWoken, setTask]
  · simp [markWoken, setTask, h]

theorem wakeFuture_stored {s : Executor} {i : ℕ} (hi : i < maxTasks)
    (hw : (s.tasks i).waker = true) (fuel : ℕ) : s.wakeFuture fuel i = none := by
  -- the stored waker calls the same function on the same index, one level deeper
  induction fuel generalizing s with
  | zero => rfl
  | succ fuel ih =>
    have hw' : ((s.markWoken i).tasks i).waker = true := by rw [markWoken_waker, hw]
    rw [wakeFuture, wakeByIndex, if_pos hi, if_pos hw', ih hw']
    rfl

/-- What a wake does when no waker is stored. -/
def notified (s : Executor) (i : ℕ) : Executor :=
  (if i < maxTasks then s.markWoken i else s).tryPush i

theorem wakeFuture_free {s : Executor} {i : ℕ} (hw : i < maxTasks → (s.tasks i).waker = false)
    {fuel : ℕ} (hf : 0 < fuel) : s.wakeFuture fuel i = some (s.notified i) := by
  obtain ⟨fuel, rfl⟩ : ∃ n, fuel = n+1 := ⟨fuel-1, by omega⟩
  by_cases hi : i < maxTasks
  · simp [wakeFuture, wakeByIndex, notified, hi, hw hi]
  · simp [wakeFuture, wakeByIndex, notified, hi]

@[simp] theorem notified_future : ((s.notified i).tasks j).future = (s.tasks j).future := by
  unfold notified
  split <;> simp

@[simp] theorem notified_waker : ((s.notified i).tasks j).waker = (s.tasks j).waker := by
  unfold notified
  split <;> simp

@[simp] theorem notified_registered : (s.notified i).Registered j ↔ s.Registered j := by
  simp [Registered]

theorem notified_owed_ne {i j : ℕ} (h : j ≠ i) : (s.notified i).owed j = s.owed j := by
  unfold notified
  split <;> simp [markWoken, h]

theorem mem_notified {s : Executor} {i j : ℕ} (h : j ∈ s.wakeChannel) :
    j ∈ (s.notified i).wakeChannel := by
  unfold notified
  split <;> exact mem_tryPush h

@[simp] theorem finishPoll_owed (future : Future) : (s.finishPoll i future).owed = s.owed := by
  unfold finishPoll
  split <;> rfl

@[simp] theorem finishPoll_wakeChannel (future : Future) :
    (s.finishPoll i future).wakeChannel = s.wakeChannel := by
  unfold finishPoll
  split <;> rfl

theorem wakeFuture_returns_iff :
    (∃ fuel, (s.wakeFuture fuel i).isSome) ↔ (i < maxTasks → (s.tasks i).waker = false) := by
  constructor
  · rintro ⟨fuel, h⟩ hi
    by_contra hw
    rw [wakeFuture_stored hi (by simpa using hw)] at h
    exact absurd h (by simp)
  · intro h
    exact ⟨1, by rw [wakeFuture_free h Nat.one_pos]; rfl⟩

end Executor
/-! ## Wake-ups that return and are not lost -/

/-- No waker is stored for the task, and if it is registered the channel has
room for the notification or already holds one. -/
def Heard (s : Executor) (i : ℕ) : Prop :=
  (i < maxTasks → (s.tasks i).waker = false) ∧
    (s.Registered i → s.wakeChannel.length ≤ mask ∨ i ∈ s.wakeChannel)

def polled (s : Executor) (i : ℕ) : Executor :=
  if i ≥ maxTasks then s else
  match (s.tasks i).future with
  | none => s
  | some future =>
    (Machine.run notified (s.storeWaker i) (future 0).wakes).finishPoll i future

def HeardPoll (s : Executor) (i : ℕ) : Prop :=
  i < maxTasks → ∀ future, (s.tasks i).future = some future →
    Machine.Along notified Heard (s.storeWaker i) (future 0).wakes

def processed : ℕ → Executor → Executor
  | 0, s => s
  | budget+1, s =>
    match s.tryPop with
    | none => s
    | some (i, s') => processed budget (polled s' i)

def HeardLoop : ℕ → Executor → Prop
  | 0, _ => True
  | budget+1, s =>
    ∀ i s', s.tryPop = some (i, s') → HeardPoll s' i ∧ HeardLoop budget (polled s' i)

def HeardCall (s : Executor) : Call → Prop
  | .registerFuture _ => True
  | .wakeFuture i => Heard s i
  | .pollTask i => HeardPoll s i
  | .processWakes => HeardLoop maxTasks s

def called (s : Executor) : Call → Executor
  | .registerFuture future => (s.registerFuture future).2
  | .wakeFuture i => s.notified i
  | .pollTask i => polled s i
  | .processWakes => processed maxTasks s

section Follows

variable {fuel : ℕ} (hf : 0 < fuel)
include hf

variable {s : Executor}

theorem foldlM_wakeFuture {l : List ℕ} (h : Machine.Along notified Heard s l) :
    l.foldlM (wakeFuture fuel) s = some (Machine.run notified s l) := by
  induction l generalizing s with
  | nil => rfl
  | cons i l ih =>
    rw [List.foldlM_cons, wakeFuture_free h.1.1 hf]
    exact ih h.2

theorem pollTask_eq {i : ℕ} (h : HeardPoll s i) : s.pollTask fuel i = some (polled s i) := by
  by_cases hi : i ≥ maxTasks
  · simp [pollTask, polled, hi]
  · cases hfut : (s.tasks i).future with
    | none => simp [pollTask, polled, hi, hfut]
    | some future =>
      have hw := foldlM_wakeFuture hf (h (by omega) future hfut)
      simp only [pollTask, polled, if_neg hi, hfut, hw, Option.map_some]

theorem processLoop_eq {budget : ℕ} (h : HeardLoop budget s) :
    processLoop fuel budget s = some (processed budget s) := by
  induction budget generalizing s with
  | zero => rfl
  | succ budget ih =>
    cases hpop : s.tryPop with
    | none => simp only [processLoop, processed, hpop]
    | some p =>
      obtain ⟨hp, hl⟩ := h p.1 p.2 hpop
      simp only [processLoop, processed, hpop, pollTask_eq hf hp, Option.bind_some]
      exact ih hl

theorem exec_eq {c : Call} (h : HeardCall s c) : c.exec fuel s = some (called s c) := by
  cases c with
  | registerFuture future => rfl
  | wakeFuture i => exact wakeFuture_free h.1 hf
  | pollTask i => exact pollTask_eq hf h
  | processWakes => exact processLoop_eq hf h

theorem execAll_eq {calls : List Call} (h : Machine.Along called HeardCall s calls) :
    execAll fuel calls s = some (Machine.run called s calls) := by
  induction calls generalizing s with
  | nil => rfl
  | cons c calls ih =>
    rw [execAll, List.foldlM_cons, exec_eq hf h.1]
    exact ih h.2

end Follows

/-- A registered task that is owed a poll has a notification in the channel. -/
def NoneLost (s : Executor) : Prop :=
  ∀ i, s.Registered i → s.owed i = true → i ∈ s.wakeChannel

variable {i : ℕ} {s : Executor}

theorem notified_noneLost (hs : NoneLost s) (h : Heard s i) : NoneLost (s.notified i) := by
  intro j hj ho
  rw [notified_registered] at hj
  by_cases hji : j = i
  · subst hji
    rw [notified, if_pos hj.1]
    exact mem_tryPush_self (h.2 hj)
  · rw [notified_owed_ne s hji] at ho
    exact mem_notified (hs j hj ho)

/-- The channel may have lost the notification of the one task being polled. -/
def NoneLostBut (s : Executor) (i : ℕ) : Prop :=
  ∀ j, j ≠ i → s.Registered j → s.owed j = true → j ∈ s.wakeChannel

theorem NoneLost.storeWaker (hs : NoneLostBut s i) : NoneLost (s.storeWaker i) := by
  intro j hj ho
  by_cases hji : j = i
  · subst hji
    simp [Executor.storeWaker] at ho
  · have ho' : s.owed j = true := by simpa [Executor.storeWaker, hji] using ho
    have hj' : s.Registered j := by
      simpa [Registered, Executor.storeWaker, setTask, hji] using hj
    exact hs j hji hj' ho'

theorem run_notified_future (s : Executor) (l : List ℕ) (j : ℕ) :
    ((Machine.run notified s l).tasks j).future = (s.tasks j).future := by
  induction l generalizing s with
  | nil => rfl
  | cons i l ih => rw [Machine.run, ih, notified_future]

theorem finishPoll_noneLost {future : Future} (hs : NoneLost s)
    (hi : s.Registered i) : NoneLost (s.finishPoll i future) := by
  intro j hj ho
  have hj' : s.Registered j := by
    by_cases hji : j = i
    · rw [hji]
      exact hi
    · unfold finishPoll at hj
      split at hj <;> simpa [Registered, setTask, hji] using hj
  rw [finishPoll_owed] at ho
  rw [finishPoll_wakeChannel]
  exact hs j hj' ho

theorem polled_noneLost (hs : NoneLostBut s i) (h : HeardPoll s i) : NoneLost (polled s i) := by
  by_cases hi : i ≥ maxTasks
  · rw [polled, if_pos hi]
    intro j hj ho
    refine hs j ?_ hj ho
    rintro rfl
    exact absurd hj.1 (by omega)
  cases hfut : (s.tasks i).future with
  | none =>
    simp only [polled, if_neg hi, hfut]
    intro j hj ho
    refine hs j ?_ hj ho
    rintro rfl
    simp [Registered, hfut] at hj
  | some future =>
    simp only [polled, if_neg hi, hfut]
    have hrun : NoneLost (Machine.run notified (s.storeWaker i) (future 0).wakes) :=
      Machine.run_invariant (fun _ _ h1 h2 => notified_noneLost h1 h2)
        (NoneLost.storeWaker hs) (h (by omega) future hfut)
    refine finishPoll_noneLost hrun ⟨by omega, ?_⟩
    rw [run_notified_future]
    simp [Executor.storeWaker, setTask, hfut]

theorem NoneLost.tryPop {s' : Executor} (hs : NoneLost s)
    (h : s.tryPop = some (i, s')) : NoneLostBut s' i := by
  unfold Executor.tryPop at h
  split at h
  · exact absurd h (by simp)
  · rename_i k rest hc
    obtain ⟨rfl, rfl⟩ : k = i ∧ { s with wakeChannel := rest } = s' := by simpa using h
    intro j hji hj ho
    have hmem : j ∈ k :: rest := hc ▸ hs j hj ho
    simpa [hji] using hmem

theorem processed_noneLost {budget : ℕ} (hs : NoneLost s)
    (h : HeardLoop budget s) : NoneLost (processed budget s) := by
  induction budget generalizing s with
  | zero => exact hs
  | succ budget ih =>
    cases hpop : s.tryPop with
    | none =>
      simp only [processed, hpop]
      exact hs
    | some p =>
      obtain ⟨hp, hl⟩ := h p.1 p.2 hpop
      simp only [processed, hpop]
      exact ih (polled_noneLost (hs.tryPop hpop) hp) hl

theorem registerFuture_noneLost {future : Future} (hs : NoneLost s) :
    NoneLost (s.registerFuture future).2 := by
  unfold registerFuture
  split
  · exact hs
  split
  · exact hs
  rename_i i hfind
  intro j hj ho
  have hji : j ≠ i := by
    rintro rfl
    simp at ho
  exact hs j (by simpa [Registered, setTask, hji] using hj) (by simpa [hji] using ho)

theorem called_noneLost (s : Executor) (c : Call) (hs : NoneLost s) (h : HeardCall s c) :
    NoneLost (called s c) := by
  cases c with
  | registerFuture future => exact registerFuture_noneLost hs
  | wakeFuture i => exact notified_noneLost hs h
  | pollTask i => exact polled_noneLost (fun j _ => hs j) h
  | processWakes => exact processed_noneLost hs h

theorem new_noneLost : NoneLost new := by
  intro i hi
  simp [Registered, new] at hi

/-- A wake returns exactly when no waker is stored; in a run whose wakes are
all heard every call returns and no wake-up is lost. -/
theorem wakes_return_and_stay (calls : List Call) (h : Machine.Along called HeardCall new calls) :
    (∀ s i, (∃ fuel, (wakeFuture fuel s i).isSome) ↔
      (i < maxTasks → (s.tasks i).waker = false)) ∧
    ∃ s, (∀ fuel, 0 < fuel → execAll fuel calls new = some s) ∧
      ∀ i, s.Registered i → s.owed i = true → i ∈ s.wakeChannel := by
  refine ⟨fun s i => wakeFuture_returns_iff s i, ?_⟩
  refine ⟨Machine.run called new calls, fun fuel hf => execAll_eq hf h, ?_⟩
  exact Machine.run_invariant called_noneLost new_noneLost h

def waits : Future := fun _ => ⟨[], false⟩

theorem waits_heard :
    Machine.Along called HeardCall new [.registerFuture waits, .wakeFuture 0, .processWakes] := by
  refine ⟨trivial, ⟨fun _ => rfl, fun _ => .inl (by decide)⟩, ?_, trivial⟩
  intro i s' hpop
  cases hpop
  refine ⟨fun _ future hfut => ?_, fun i s' hempty => ?_⟩
  · cases hfut
    trivial
  · cases hempty

theorem wakes_return_and_stay_waits :
    ∃ s, (∀ fuel, 0 < fuel →
        execAll fuel [.registerFuture waits, .wakeFuture 0, .processWakes] new = some s) ∧
      ∀ i, s.Registered i → s.owed i = true → i ∈ s.wakeChannel :=
  (wakes_return_and_stay _ waits_heard).2

theorem execAll_append (fuel : ℕ) (l m : List Call) (s : Executor) :
    execAll fuel (l++m) s = (execAll fuel l s).bind (execAll fuel m) := by
  rw [execAll, List.foldlM_append]
  rfl

theorem execAll_wakes {fuel : ℕ} (hf : 0 < fuel)
    (hs : ∀ j, (s.tasks j).waker = false) (l : List ℕ) :
    execAll fuel (l.map .wakeFuture) s = some (Machine.run notified s l) := by
  induction l generalizing s with
  | nil => rfl
  | cons i l ih =>
    have hi : Call.exec fuel s (.wakeFuture i) = some (s.notified i) :=
      wakeFuture_free (fun _ => hs i) hf
    rw [List.map_cons, execAll, List.foldlM_cons, hi]
    exact ih fun j => by rw [notified_waker, hs j]

theorem registered_idle (j : ℕ) : ((new.registerFuture waits).2.tasks j).waker = false := by
  by_cases hj : j = 0
  · subst hj
    rfl
  · exact congrArg TaskState.waker (Function.update_of_ne hj _ new.tasks)

theorem run_notified_replicate {k : ℕ} (hi : maxTasks ≤ i)
    (hk : s.wakeChannel.length + k ≤ mask + 1) :
    Machine.run notified s (List.replicate k i) =
      { s with wakeChannel := s.wakeChannel ++ List.replicate k i } := by
  induction k generalizing s with
  | zero => simp [Machine.run]
  | succ k ih =>
    have hstep : s.notified i = { s with wakeChannel := s.wakeChannel ++ [i] } := by
      rw [notified, if_neg (by omega), tryPush, if_neg (by omega)]
    rw [List.replicate_succ, Machine.run, hstep, ih (by simp; omega)]
    simp

theorem notified_full (hi : i < maxTasks)
    (hfull : mask < s.wakeChannel.length) : s.notified i = s.markWoken i := by
  rw [notified, if_pos hi, tryPush, if_pos (by simpa using hfull)]

def crowd : List ℕ := List.replicate (mask+1) maxTasks

theorem run_crowd :
    Machine.run notified (new.registerFuture waits).2 crowd =
      { (new.registerFuture waits).2 with wakeChannel := crowd } :=
  run_notified_replicate (Nat.le_refl _) (by decide)

/-- Waking a task that was polled and is pending never returns, and a wake-up
that finds the channel full is lost. -/
theorem pending_wake_diverges :
    (∀ fuel, execAll fuel [.registerFuture waits, .wakeFuture 0, .processWakes, .wakeFuture 0]
      new = none) ∧
    ∃ s, (∀ fuel, 0 < fuel →
        execAll fuel (.registerFuture waits :: (crowd ++ [0]).map .wakeFuture) new = some s) ∧
      s.Registered 0 ∧ s.owed 0 = true ∧ 0 ∉ s.wakeChannel := by
  constructor
  · intro fuel
    cases fuel with
    | zero => rfl
    | succ n =>
      have h3 := execAll_eq (Nat.succ_pos n) waits_heard
      have hsplit := execAll_append (n+1) [.registerFuture waits, .wakeFuture 0, .processWakes]
        [.wakeFuture 0] new
      rw [h3, Option.bind_some] at hsplit
      refine hsplit.trans ?_
      rw [execAll, List.foldlM_cons]
      have hlast := wakeFuture_stored (s := Machine.run called new
        [.registerFuture waits, .wakeFuture 0, .processWakes]) (i := 0) (by decide) rfl (n+1)
      rw [Call.exec, hlast]
      rfl
  · refine ⟨Machine.run notified (new.registerFuture waits).2 (crowd ++ [0]), ?_, ?_⟩
    · intro fuel hf
      rw [execAll, List.foldlM_cons]
      exact execAll_wakes hf registered_idle (crowd ++ [0])
    · rw [Machine.run_append, run_crowd, Machine.run, notified_full (by decide) (by simp [crowd])]
      refine ⟨⟨by decide, rfl⟩, rfl, ?_⟩
      simp [Machine.run, markWoken, crowd, maxTasks]

end NeuralOs.Async
