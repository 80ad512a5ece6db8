import NeuralOs.Lib.Checked

/-!
# The token bucket

Broadcasts are limited by a bucket of twenty tokens that gains one a tick. A call
that is granted moves the refill tick to now. A call that is refused keeps the
tokens it was credited and leaves the refill tick where it was, so that the same
ticks are credited again to the next call.
-/

set_option autoImplicit false

namespace NeuralOs.Mesh.TokenBucket
open Checked CheckedMachine

def tokenBucketRefillPerTick : ℕ := 1

def tokenBucketMaxTokens : ℕ := 20

structure Bucket where
  tokens : ℕ
  lastRefill : UInt64
  deriving DecidableEq

structure Call where
  now : UInt64
  cost : UInt32
  deriving DecidableEq

/-- `(elapsed as u32).saturating_mul(TOKEN_BUCKET_REFILL_PER_TICK)` -/
def refill (now : UInt64) (b : Bucket) : ℕ :=
  min ((now-b.lastRefill).toNat % 2^32 * tokenBucketRefillPerTick) (2^32-1)

def refilled (now : UInt64) (b : Bucket) : Run ℕ :=
  if 0 < (now-b.lastRefill).toNat then
    if b.tokens+refill now b < 2^32 then .ok (min (b.tokens+refill now b) tokenBucketMaxTokens)
    else .error .panic
  else .ok b.tokens

def tokenBucketTryConsume (now : UInt64) (cost : UInt32) (b : Bucket) : Run (Bool × Bucket) := do
  let tokens ← refilled now b
  if cost.toNat ≤ tokens then .ok (true, ⟨tokens-cost.toNat, now⟩)
  else .ok (false, ⟨tokens, b.lastRefill⟩)

/-! ### Runs -/

/-- The bucket with the calls that were granted, the latest one first. -/
structure World where
  bucket : Bucket
  granted : List Call
  deriving DecidableEq

def World.start : World := ⟨⟨tokenBucketMaxTokens, 0⟩, []⟩

def World.step (w : World) (c : Call) : Run World := do
  let (granted, bucket) ← tokenBucketTryConsume c.now c.cost w.bucket
  .ok ⟨bucket, if granted then c::w.granted else w.granted⟩

def spent (s e : ℕ) (calls : List Call) : ℕ :=
  ((calls.filter fun c => s ≤ c.now.toNat ∧ c.now.toNat ≤ e).map (·.cost.toNat)).sum

/-- No call overflows, and in a window of `n` ticks at most the capacity and `n` times the
refill rate are granted. -/
def Bounded (calls : List Call) : Prop :=
  ∃ w, run World.step World.start calls = .ok w ∧
    ∀ s n, spent s (s+n) w.granted ≤ tokenBucketMaxTokens+n*tokenBucketRefillPerTick

def Timely (calls : List Call) : Prop := calls.Pairwise fun c d => c.now ≤ d.now

/-- The bound holds after every part of the run, whatever else is asked in the same tick. -/
def KeepsBound (calls : List Call) : Prop :=
  ∀ l m, l <+: calls → (∀ c ∈ m, l.getLast?.map (·.now) = some c.now) → Bounded (l++m)

/-- The sum of the refill does not overflow. A call that is refused some ticks after the last
refill leaves a sum that does not overflow for a full bucket either, and finds room for a full
bucket in every window up to now. -/
def Creditable (w : World) (c : Call) : Prop :=
  w.bucket.tokens+refill c.now w.bucket < 2^32 ∧
    (w.bucket.lastRefill ≠ c.now →
      min (w.bucket.tokens+refill c.now w.bucket) tokenBucketMaxTokens < c.cost.toNat →
        tokenBucketMaxTokens+refill c.now w.bucket < 2^32 ∧
          ∀ s ≤ c.now.toNat, spent s c.now.toNat w.granted ≤ c.now.toNat-s)

instance decidableCreditable (w : World) (c : Call) : Decidable (Creditable w c) :=
  inferInstanceAs (Decidable (_ ∧ _))

/-! ### One call -/

variable {b : Bucket} {w : World} {c : Call}

def available (now : UInt64) (b : Bucket) : ℕ :=
  min (b.tokens+refill now b) tokenBucketMaxTokens

theorem refilled_eq (now : UInt64) (h : b.tokens ≤ tokenBucketMaxTokens) :
    refilled now b =
      if b.tokens+refill now b < 2^32 then .ok (available now b) else .error .panic := by
  rw [refilled]
  split
  · rfl
  next he =>
    have hzero : refill now b = 0 := by
      have : (now-b.lastRefill).toNat = 0 := by omega
      simp [refill, this]
    have hle : b.tokens ≤ 20 := h
    rw [available, hzero, Nat.add_zero, if_pos (by omega), min_eq_left h]

theorem step_granted (h : w.bucket.tokens ≤ tokenBucketMaxTokens)
    (hfit : w.bucket.tokens+refill c.now w.bucket < 2^32)
    (hc : c.cost.toNat ≤ available c.now w.bucket) :
    w.step c = .ok ⟨⟨available c.now w.bucket-c.cost.toNat, c.now⟩, c::w.granted⟩ := by
  rw [World.step, tokenBucketTryConsume, refilled_eq _ h, if_pos hfit, ok_bind, if_pos hc, ok_bind]
  rfl

theorem step_refused (h : w.bucket.tokens ≤ tokenBucketMaxTokens)
    (hfit : w.bucket.tokens+refill c.now w.bucket < 2^32)
    (hc : available c.now w.bucket < c.cost.toNat) :
    w.step c = .ok ⟨⟨available c.now w.bucket, w.bucket.lastRefill⟩, w.granted⟩ := by
  rw [World.step, tokenBucketTryConsume, refilled_eq _ h, if_pos hfit, ok_bind,
    if_neg (Nat.not_le.mpr hc), ok_bind]
  rfl

theorem step_overflows (h : w.bucket.tokens ≤ tokenBucketMaxTokens)
    (hfit : ¬w.bucket.tokens+refill c.now w.bucket < 2^32) : w.step c = .error .panic := by
  rw [World.step, tokenBucketTryConsume, refilled_eq _ h, if_neg hfit]
  rfl

theorem refill_le (h : b.lastRefill ≤ c.now) : refill c.now b ≤ c.now.toNat-b.lastRefill.toNat := by
  rw [refill, UInt64.toNat_sub_of_le _ _ h, tokenBucketRefillPerTick, Nat.mul_one]
  exact (min_le_left _ _).trans (Nat.mod_le _ _)

theorem refill_eq (h : b.lastRefill ≤ c.now) (hlt : c.now.toNat-b.lastRefill.toNat < 2^32) :
    refill c.now b = c.now.toNat-b.lastRefill.toNat := by
  rw [refill, UInt64.toNat_sub_of_le _ _ h, tokenBucketRefillPerTick, Nat.mul_one,
    Nat.mod_eq_of_lt hlt]
  exact min_eq_left (by omega)

/-! ### Windows -/

theorem spent_cons (s e : ℕ) (c : Call) (l : List Call) :
    spent s e (c::l) =
      (if s ≤ c.now.toNat ∧ c.now.toNat ≤ e then c.cost.toNat else 0)+spent s e l := by
  rw [spent, spent, List.filter_cons]
  split
  next h =>
    rw [if_pos (by simpa using h)]
    rfl
  next h =>
    rw [if_neg (by simpa using h), Nat.zero_add]

variable {l : List Call}

theorem spent_later {s u : ℕ} (h : ∀ c ∈ l, c.now.toNat ≤ u) (hs : u < s)
    (e : ℕ) : spent s e l = 0 := by
  induction l with
  | nil => rfl
  | cons c l ih =>
    have hc := h c (by simp)
    rw [spent_cons, if_neg (by omega), ih fun d hd => h d (by simp [hd])]

theorem spent_until {u e : ℕ} (h : ∀ c ∈ l, c.now.toNat ≤ u) (he : u ≤ e)
    (s : ℕ) : spent s e l = spent s u l := by
  induction l with
  | nil => rfl
  | cons c l ih =>
    have hc := h c (by simp)
    have hiff : (s ≤ c.now.toNat ∧ c.now.toNat ≤ e) ↔ (s ≤ c.now.toNat ∧ c.now.toNat ≤ u) := by
      omega
    rw [spent_cons, spent_cons, ih fun d hd => h d (by simp [hd]), if_congr hiff rfl rfl]

/-! ### The invariant -/

/-- At tick `u`: what has been granted in a window leaves room for the tokens that a call at
a later tick `x` can find. -/
structure Sound (u : ℕ) (w : World) : Prop where
  tokens : w.bucket.tokens ≤ tokenBucketMaxTokens
  last : w.bucket.lastRefill.toNat ≤ u
  past : ∀ c ∈ w.granted, c.now.toNat ≤ u
  room : ∀ x ≥ u, ∀ s ≤ x, spent s x w.granted +
    min (w.bucket.tokens+(x-w.bucket.lastRefill.toNat)) tokenBucketMaxTokens ≤
      tokenBucketMaxTokens+(x-s)
  bound : ∀ s n, spent s (s+n) w.granted ≤ tokenBucketMaxTokens+n

theorem sound_start : Sound 0 World.start := by
  refine ⟨le_rfl, le_rfl, by simp [World.start], fun x _ s _ => ?_, fun s n => ?_⟩
  · simp [World.start, spent]
  · simp [World.start, spent]

variable {u : ℕ}

theorem available_le (h : Sound u w) (hc : u ≤ c.now.toNat) : available c.now w.bucket ≤
    min (w.bucket.tokens+(c.now.toNat-w.bucket.lastRefill.toNat)) tokenBucketMaxTokens := by
  have hle : w.bucket.lastRefill ≤ c.now := UInt64.le_iff_toNat_le.mpr (h.last.trans hc)
  have := refill_le hle
  rw [available]
  omega

theorem sound_granted (h : Sound u w) (hc : u ≤ c.now.toNat)
    (hcost : c.cost.toNat ≤ available c.now w.bucket) :
    Sound c.now.toNat ⟨⟨available c.now w.bucket-c.cost.toNat, c.now⟩, c::w.granted⟩ := by
  have hav := available_le h hc
  have hmax : available c.now w.bucket ≤ tokenBucketMaxTokens := min_le_right _ _
  have hpast : ∀ d ∈ w.granted, d.now.toNat ≤ c.now.toNat := fun d hd => (h.past d hd).trans hc
  have hroom : ∀ x ≥ c.now.toNat, ∀ s ≤ x, spent s x (c::w.granted) +
      min (available c.now w.bucket-c.cost.toNat+(x-c.now.toNat)) tokenBucketMaxTokens ≤
        tokenBucketMaxTokens+(x-s) := by
    intro x hx s hs
    rw [spent_cons, spent_until hpast hx]
    by_cases hsc : s ≤ c.now.toNat
    · have := h.room c.now.toNat hc s hsc
      rw [if_pos ⟨hsc, hx⟩]
      omega
    · rw [if_neg (by omega), spent_later hpast (by omega)]
      omega
  refine ⟨(Nat.sub_le _ _).trans hmax, le_rfl, fun d hd => ?_, hroom, fun s n => ?_⟩
  · rcases List.mem_cons.mp hd with rfl | hd
    · exact le_rfl
    · exact hpast d hd
  show spent s (s+n) (c::w.granted) ≤ tokenBucketMaxTokens+n
  by_cases hin : c.now.toNat ≤ s+n
  · have := hroom (s+n) hin s (by omega)
    omega
  · rw [spent_cons, if_neg (by omega), Nat.zero_add]
    exact h.bound s n

theorem sound_refused (h : Sound u w) (hc : u ≤ c.now.toNat)
    (hfull : w.bucket.lastRefill ≠ c.now →
      ∀ s ≤ c.now.toNat, spent s c.now.toNat w.granted ≤ c.now.toNat-s) :
    Sound c.now.toNat ⟨⟨available c.now w.bucket, w.bucket.lastRefill⟩, w.granted⟩ := by
  have hpast : ∀ d ∈ w.granted, d.now.toNat ≤ c.now.toNat := fun d hd => (h.past d hd).trans hc
  refine ⟨min_le_right _ _, h.last.trans hc, hpast, fun x hx s hs => ?_, h.bound⟩
  dsimp only
  by_cases hlast : w.bucket.lastRefill = c.now
  · -- nothing was credited
    have hav := available_le h hc
    have := h.room x (hc.trans hx) s hs
    rw [hlast] at hav this ⊢
    omega
  · rw [spent_until hpast hx]
    by_cases hsc : s ≤ c.now.toNat
    · have := hfull hlast s hsc
      omega
    · rw [spent_later hpast (by omega)]
      omega

theorem sound_step (h : Sound u w) (hc : u ≤ c.now.toNat) (hok : Creditable w c) :
    ∃ w', w.step c = .ok w' ∧ Sound c.now.toNat w' := by
  by_cases hcost : c.cost.toNat ≤ available c.now w.bucket
  · exact ⟨_, step_granted h.tokens hok.1 hcost, sound_granted h hc hcost⟩
  · have hlt := Nat.lt_of_not_le hcost
    exact ⟨_, step_refused h.tokens hok.1 hlt, sound_refused h hc fun hl => (hok.2 hl hlt).2⟩

theorem Sound.mono (h : Sound u w) {v : ℕ} (hv : u ≤ v) : Sound v w :=
  ⟨h.tokens, h.last.trans hv, fun c hc => (h.past c hc).trans hv,
    fun x hx => h.room x (hv.trans hx), h.bound⟩

theorem sound_run {v : ℕ} (h : Sound u w) (hu : ∀ c ∈ l, u ≤ c.now.toNat)
    (hl : Timely l) (hv : ∀ c ∈ l, c.now.toNat ≤ v) (huv : u ≤ v)
    (hok : Along World.step Creditable w l) :
    ∃ w', run World.step w l = .ok w' ∧ Sound v w' := by
  induction l generalizing u w with
  | nil => exact ⟨w, rfl, h.mono huv⟩
  | cons c l ih =>
    obtain ⟨hhead, htail⟩ := List.pairwise_cons.mp hl
    obtain ⟨w₁, hstep, h₁⟩ := sound_step h (hu c (by simp)) hok.1
    obtain ⟨w₂, hrun, h₂⟩ := ih h₁ (fun d hd => UInt64.le_iff_toNat_le.mp (hhead d hd)) htail
      (fun d hd => hv d (by simp [hd])) (hv c (by simp)) (hok.2 w₁ hstep)
    exact ⟨w₂, by rw [run, hstep, ok_bind, hrun], h₂⟩

theorem bounded_of_along (hl : Timely l)
    (hok : Along World.step Creditable World.start l) : Bounded l := by
  obtain ⟨w, hrun, h⟩ := sound_run (v := (2^64 : ℕ)) sound_start (by simp) hl
    (fun c _ => c.now.toNat_lt.le) (by simp) hok
  refine ⟨w, hrun, fun s n => ?_⟩
  rw [tokenBucketRefillPerTick, Nat.mul_one]
  exact h.bound s n

/-! ### Further calls in the same tick -/

/-- Nothing is left to credit at tick `u`, or a full bucket does no harm there. -/
def Settled (u : UInt64) (w : World) : Prop :=
  w.bucket.lastRefill = u ∨
    (tokenBucketMaxTokens+refill u w.bucket < 2^32 ∧
      ∀ s ≤ u.toNat, spent s u.toNat w.granted ≤ u.toNat-s)

theorem refill_now (h : b.lastRefill = c.now) : refill c.now b = 0 := by
  simp [refill, h]

theorem creditable_of_settled (ht : w.bucket.tokens ≤ tokenBucketMaxTokens)
    (h : Settled c.now w) : Creditable w c := by
  rcases h with h | h
  · refine ⟨?_, fun hne => absurd h hne⟩
    rw [refill_now h]
    simp only [tokenBucketMaxTokens] at ht
    omega
  · exact ⟨(Nat.add_le_add_right ht _).trans_lt h.1, fun _ _ => h⟩

theorem settled_step {w' : World} (h : Sound u w) (hok : Creditable w c)
    (hstep : w.step c = .ok w') : Settled c.now w' := by
  by_cases hcost : c.cost.toNat ≤ available c.now w.bucket
  · rw [step_granted h.tokens hok.1 hcost] at hstep
    cases hstep
    exact .inl rfl
  have hlt := Nat.lt_of_not_le hcost
  rw [step_refused h.tokens hok.1 hlt] at hstep
  cases hstep
  by_cases hlast : w.bucket.lastRefill = c.now
  · exact .inl hlast
  · exact .inr (hok.2 hlast hlt)

theorem settled_along {now : UInt64} {m : List Call} (h : Sound now.toNat w)
    (hw : Settled now w) (hm : ∀ c ∈ m, c.now = now) : Along World.step Creditable w m := by
  induction m generalizing w with
  | nil => trivial
  | cons c m ih =>
    obtain rfl := hm c (by simp)
    have hc := creditable_of_settled h.tokens hw
    refine ⟨hc, fun w' hstep => ?_⟩
    obtain ⟨w₁, hstep', h₁⟩ := sound_step h le_rfl hc
    rw [hstep] at hstep'
    cases hstep'
    exact ih h₁ (settled_step h hc hstep) fun d hd => hm d (by simp [hd])

theorem keepsBound_of_along {calls : List Call} (ht : Timely calls)
    (hok : Along World.step Creditable World.start calls) : KeepsBound calls := by
  rintro l m ⟨rest, rfl⟩ hm
  have hl := (along_append.mp hok).1
  have htl : Timely l := (List.pairwise_append.mp ht).1
  rcases List.eq_nil_or_concat' l with rfl | ⟨l, c, rfl⟩
  · have hnil : m = [] := List.eq_nil_iff_forall_not_mem.mpr fun c hc => by simpa using hm c hc
    subst hnil
    exact bounded_of_along htl hl
  have hnow : ∀ d ∈ m, d.now = c.now := fun d hd => by simpa using (hm d hd).symm
  obtain ⟨hl₁, hl₂, hbefore⟩ := List.pairwise_append.mp htl
  have hbefore' : ∀ d ∈ l, d.now ≤ c.now := fun d hd => hbefore d hd c (by simp)
  have htick : ∀ d ∈ l++[c], d.now ≤ c.now := by
    intro d hd
    rcases List.mem_append.mp hd with hd | hd
    · exact hbefore' d hd
    · rw [List.mem_singleton.mp hd]
      exact UInt64.le_refl _
  refine bounded_of_along ?_ (along_append.mpr ⟨hl, fun w₂ hrun => ?_⟩)
  · refine List.pairwise_append.mpr ⟨htl, ?_, fun d hd e he => hnow e he ▸ htick d hd⟩
    exact List.pairwise_of_forall_mem_list fun d hd e he => by
      rw [hnow d hd, hnow e he]
      exact UInt64.le_refl _
  · obtain ⟨w₁, hrun₁, h₁⟩ := sound_run (v := c.now.toNat) sound_start (by simp) hl₁
      (fun d hd => UInt64.le_iff_toNat_le.mp (hbefore' d hd)) (by simp) (along_append.mp hl).1
    have hc := ((along_append.mp hl).2 w₁ hrun₁).1
    obtain ⟨w', hstep, h'⟩ := sound_step h₁ le_rfl hc
    rw [run_append, hrun₁, ok_bind, run, hstep, ok_bind, run] at hrun
    cases hrun
    exact settled_along h' (settled_step h₁ hc hstep) hnow

/-! ### What a refusal can lead to -/

def refusal (now : UInt64) : Call := ⟨now, 21⟩

theorem refusals_fill {now : UInt64} (k : ℕ) (ht : w.bucket.tokens ≤ tokenBucketMaxTokens)
    (hr : 0 < refill now w.bucket) (hfit : tokenBucketMaxTokens+refill now w.bucket < 2^32) :
    ∃ t, min (w.bucket.tokens+k) tokenBucketMaxTokens ≤ t ∧ t ≤ tokenBucketMaxTokens ∧
      run World.step w (List.replicate k (refusal now)) =
        .ok ⟨⟨t, w.bucket.lastRefill⟩, w.granted⟩ := by
  induction k generalizing w with
  | zero => exact ⟨w.bucket.tokens, min_le_left _ _, ht, rfl⟩
  | succ k ih =>
    have hav : available now w.bucket ≤ tokenBucketMaxTokens := min_le_right _ _
    have hstep : w.step (refusal now) =
        .ok ⟨⟨available now w.bucket, w.bucket.lastRefill⟩, w.granted⟩ :=
      step_refused ht ((Nat.add_le_add_right ht _).trans_lt hfit) (Nat.lt_succ_of_le hav)
    obtain ⟨t, hle, hmax, hrun⟩ :=
      @ih ⟨⟨available now w.bucket, w.bucket.lastRefill⟩, w.granted⟩ hav hr hfit
    refine ⟨t, ?_, hmax, ?_⟩
    · dsimp only [available] at hle
      omega
    · rw [List.replicate_succ, run, hstep, ok_bind, hrun]

def drain (now : UInt64) : List Call := List.replicate 20 (refusal now) ++ [⟨now, 20⟩]

theorem drain_granted (now : UInt64) (ht : w.bucket.tokens ≤ tokenBucketMaxTokens)
    (hr : 0 < refill now w.bucket) (hfit : tokenBucketMaxTokens+refill now w.bucket < 2^32) :
    ∃ w', run World.step w (drain now) = .ok w' ∧ w'.granted = ⟨now, 20⟩::w.granted := by
  obtain ⟨t, hle, hmax, hrun⟩ := refusals_fill 20 ht hr hfit
  have hfull : t = tokenBucketMaxTokens := by
    simp only [tokenBucketMaxTokens] at hle hmax ⊢
    omega
  subst hfull
  have hstep := step_granted (w := ⟨⟨tokenBucketMaxTokens, w.bucket.lastRefill⟩, w.granted⟩)
    (c := ⟨now, 20⟩) le_rfl hfit (le_min (Nat.le_add_right _ _) le_rfl)
  exact ⟨_, by rw [drain, run_append, hrun, ok_bind, run, hstep, ok_bind, run], rfl⟩

theorem bound_lost (hrun : run World.step World.start l = .ok w)
    (h : Sound c.now.toNat w) (hc : ¬Creditable w c) :
    ∃ m, (∀ d ∈ m, d.now = c.now) ∧ ¬Bounded (l++[c]++m) := by
  by_cases hfit : w.bucket.tokens+refill c.now w.bucket < 2^32
  swap
  · refine ⟨[], by simp, ?_⟩
    rintro ⟨w', hrun', -⟩
    rw [List.append_nil, run_append, hrun, ok_bind, run, step_overflows h.tokens hfit] at hrun'
    cases hrun'
  have hrefused : w.bucket.lastRefill ≠ c.now ∧ available c.now w.bucket < c.cost.toNat ∧
      ¬(tokenBucketMaxTokens+refill c.now w.bucket < 2^32 ∧
        ∀ s ≤ c.now.toNat, spent s c.now.toNat w.granted ≤ c.now.toNat-s) := by
    by_contra hcon
    exact hc ⟨hfit, fun h₁ h₂ => by_contra fun h₃ => hcon ⟨h₁, h₂, h₃⟩⟩
  obtain ⟨hlast, hcost, hno⟩ := hrefused
  have hstep := step_refused h.tokens hfit hcost
  set w₁ : World := ⟨⟨available c.now w.bucket, w.bucket.lastRefill⟩, w.granted⟩ with hw₁
  have hrun₁ : run World.step World.start (l++[c]) = .ok w₁ := by
    rw [run_append, hrun, ok_bind, run, hstep, ok_bind, run]
  have ht₁ : w₁.bucket.tokens ≤ tokenBucketMaxTokens := min_le_right _ _
  by_cases hbig : tokenBucketMaxTokens+refill c.now w.bucket < 2^32
  · obtain ⟨s, hs, hspent⟩ : ∃ s ≤ c.now.toNat,
        c.now.toNat-s < spent s c.now.toNat w.granted := by
      by_contra hall
      exact hno ⟨hbig, fun s hs => Nat.le_of_not_lt fun hlt => hall ⟨s, hs, hlt⟩⟩
    -- the windows are that full only shortly after the last grant
    have hroom := h.room c.now.toNat le_rfl s hs
    have hle : w.bucket.lastRefill ≤ c.now := UInt64.le_iff_toNat_le.mpr h.last
    have hne : w.bucket.lastRefill.toNat ≠ c.now.toNat := fun he => hlast (UInt64.toNat_inj.mp he)
    have hlt := h.last
    have hr : refill c.now w.bucket = c.now.toNat-w.bucket.lastRefill.toNat :=
      refill_eq hle (by simp only [tokenBucketMaxTokens] at hroom; omega)
    obtain ⟨w₂, hrun₂, hgranted⟩ := drain_granted (w := w₁) c.now ht₁
      (by change 0 < refill c.now w.bucket; omega) hbig
    refine ⟨drain c.now, fun d hd => ?_, ?_⟩
    · rcases List.mem_append.mp hd with hd | hd
      · rw [List.eq_of_mem_replicate hd]
        rfl
      · rw [List.mem_singleton.mp hd]
    · rintro ⟨w', hrun', hbound⟩
      rw [run_append, hrun₁, ok_bind, hrun₂] at hrun'
      cases hrun'
      have := hbound s (c.now.toNat-s)
      rw [hgranted, spent_cons, Nat.add_sub_of_le hs, if_pos ⟨hs, le_rfl⟩] at this
      change 20+spent s c.now.toNat w.granted ≤ 20+(c.now.toNat-s)*1 at this
      omega
  · refine ⟨[c], by simp, ?_⟩
    rintro ⟨w', hrun', -⟩
    have hfull : w₁.bucket.tokens = tokenBucketMaxTokens := by
      have hr : refill c.now w.bucket ≥ 2^32-20 := by
        simp only [tokenBucketMaxTokens] at hbig
        omega
      simp only [hw₁, available, tokenBucketMaxTokens]
      omega
    rw [run_append, hrun₁, ok_bind, run, step_overflows ht₁ (by rw [hfull]; exact hbig)] at hrun'
    cases hrun'

theorem keepsBound_iff {calls : List Call} (ht : Timely calls) :
    KeepsBound calls ↔ Along World.step Creditable World.start calls := by
  refine ⟨fun hkeep => by_contra fun hno => ?_, keepsBound_of_along ht⟩
  obtain ⟨l, c, rest, w, rfl, hl, hrun, hc⟩ := first_failure hno
  obtain ⟨htl, -, hbefore⟩ := List.pairwise_append.mp ht
  obtain ⟨w', hrun', h⟩ := sound_run (v := c.now.toNat) sound_start (by simp) htl
    (fun d hd => UInt64.le_iff_toNat_le.mp (hbefore d hd c (by simp))) (by simp) hl
  rw [hrun] at hrun'
  cases hrun'
  obtain ⟨m, hm, hlost⟩ := bound_lost hrun h hc
  exact hlost (hkeep (l++[c]) m ⟨rest, by simp⟩ fun d hd => by simp [hm d hd])

def quietCalls : List Call := [⟨5, 1⟩, ⟨30, 21⟩]

theorem quietCalls_bounded : Timely quietCalls ∧ KeepsBound quietCalls := by
  have ht : Timely quietCalls := by
    rw [Timely]
    decide
  refine ⟨ht, (keepsBound_iff ht).mpr ⟨by decide, fun w hw => ⟨?_, fun _ _ => trivial⟩⟩⟩
  obtain rfl : w = ⟨⟨19, 5⟩, [⟨5, 1⟩]⟩ := (Except.ok.inj hw).symm
  decide

def greedyCalls : List Call := ⟨0, 20⟩::drain 1

theorem forty_in_two_ticks : Timely greedyCalls ∧ ¬Bounded greedyCalls := by
  refine ⟨by rw [Timely]; decide, ?_⟩
  rintro ⟨w, hrun, hbound⟩
  obtain rfl : w = ⟨⟨0, 1⟩, [⟨1, 20⟩, ⟨0, 20⟩]⟩ := (Except.ok.inj hrun).symm
  exact absurd (hbound 0 1) (by decide)

end NeuralOs.Mesh.TokenBucket
