import Mathlib

/-!
# Stateful actions that can fail

An action changes a state and ends in a value or in an error. What it changed
before the error stays changed. `Ends` states what holds at either end, `Keeps` what
holds at both if it held before, and their rules follow the ways actions are put
together.
-/

set_option autoImplicit false

namespace NeuralOs.Fallible

structure Act (σ ε α : Type) where
  run : σ → Except ε α × σ

variable {σ ε ε' α β : Type}

namespace Act

def andThen (x : Act σ ε α) (f : α → Act σ ε β) : Act σ ε β where
  run s :=
    match x.run s with
    | (.ok a, t) => (f a).run t
    | (.error e, t) => (.error e, t)

instance : Monad (Act σ ε) where
  pure a := ⟨fun s => (.ok a, s)⟩
  bind := andThen

def fail (e : ε) : Act σ ε α := ⟨fun s => (.error e, s)⟩

def look (f : σ → α) : Act σ ε α := ⟨fun s => (.ok (f s), s)⟩

def need (e : ε) : Option α → Act σ ε α
  | some a => ⟨fun s => (.ok a, s)⟩
  | none => ⟨fun s => (.error e, s)⟩

/-- On failure of `x` apply `c` to the state and fail with another error. -/
def catching (x : Act σ ε α) (g : ε → ε') (c : σ → σ) : Act σ ε' α where
  run s :=
    match x.run s with
    | (.ok a, t) => (.ok a, t)
    | (.error e, t) => (.error (g e), c t)

def orFail (x : Act σ ε α) (e : ε') : Act σ ε' α := x.catching (fun _ => e) id

def ignore (x : Act σ ε Unit) : Act σ ε Unit := ⟨fun s => (.ok (), (x.run s).2)⟩

def each (f : α → Act σ ε Unit) : List α → Act σ ε Unit
  | [] => pure ()
  | x::xs => do
    f x
    each f xs

end Act

/-! ## Running actions -/

section run
variable {x : Act σ ε α} {f : α → Act σ ε β} {s t : σ}

theorem run_bind (x : Act σ ε α) (f : α → Act σ ε β) (s : σ) : (x >>= f).run s =
    match x.run s with
    | (.ok a, t) => (f a).run t
    | (.error e, t) => (.error e, t) := rfl

@[simp] theorem run_fail (e : ε) : (Act.fail e : Act σ ε α).run s = (.error e, s) := rfl

theorem run_bind_ok {a : α} (h : x.run s = (.ok a, t)) : (x >>= f).run s = (f a).run t := by
  rw [run_bind, h]

@[simp] theorem run_look_bind (g : σ → α) :
    ((Act.look g : Act σ ε α) >>= f).run s = (f (g s)).run s := rfl

@[simp] theorem run_need_bind (e : ε) (a : α) :
    ((Act.need e (some a) : Act σ ε α) >>= f).run s = (f a).run s := rfl

theorem bind_ok {b : β} (h : (x >>= f).run s = (.ok b, t)) :
    ∃ a u, x.run s = (.ok a, u) ∧ (f a).run u = (.ok b, t) := by
  rw [run_bind] at h
  split at h
  · next a u hx => exact ⟨a, u, hx, h⟩
  · cases h

end run

section each
variable {f g : α → Act σ ε Unit}

theorem each_congr {l : List α} (h : ∀ x ∈ l, f x = g x) : Act.each f l = Act.each g l := by
  induction l with
  | nil => rfl
  | cons x l ih => rw [Act.each, Act.each, h x (by simp), ih fun y hy => h y (by simp [hy])]

theorem each_map (k : β → α) (l : List β) : Act.each f (l.map k) = Act.each (fun x => f (k x)) l := by
  induction l with
  | nil => rfl
  | cons x l ih => rw [List.map_cons, Act.each, Act.each, ih]

theorem each_append (l m : List α) :
    Act.each f (l ++ m) = (do Act.each f l; Act.each f m) := by
  induction l with
  | nil => rfl
  | cons x l ih =>
    rw [List.cons_append, Act.each, Act.each, ih]
    refine congrArg Act.mk (funext fun s => ?_)
    rw [run_bind (f x)]
    obtain ⟨r, t⟩ := (f x).run s
    cases r <;> rfl

theorem each_flatMap (k : β → List α) (l : List β) :
    Act.each f (l.flatMap k) = Act.each (fun x => Act.each f (k x)) l := by
  induction l with
  | nil => rfl
  | cons x l ih => rw [List.flatMap_cons, each_append, ih, Act.each]

end each

/-! ## What holds at the end -/

/-- `Q` holds if the action ends in a value, `E` if it ends in an error. -/
def Ends (x : Act σ ε α) (s : σ) (Q : α → σ → Prop) (E : ε → σ → Prop) : Prop :=
  match x.run s with
  | (.ok a, t) => Q a t
  | (.error e, t) => E e t

variable {x : Act σ ε α} {s : σ} {Q R : α → σ → Prop} {E F : ε → σ → Prop}

theorem ends_iff : Ends x s Q E ↔
    (∀ a t, x.run s = (.ok a, t) → Q a t) ∧ ∀ e t, x.run s = (.error e, t) → E e t := by
  unfold Ends
  split
  · next a t h => simp [h]
  · next e t h => simp [h]

variable {a : α}

theorem ends_ok (h : Ends x s Q E) {t : σ} (hx : x.run s = (.ok a, t)) : Q a t :=
  (ends_iff.mp h).1 a t hx

theorem ends_error (h : Ends x s Q E) {e : ε} {t : σ} (hx : x.run s = (.error e, t)) : E e t :=
  (ends_iff.mp h).2 e t hx

theorem ends_of_run {t : σ} (hx : x.run s = (.ok a, t)) (h : Q a t) : Ends x s Q E := by
  rwa [Ends, hx]

theorem ends_mono (h : Ends x s Q E) (hq : ∀ a t, Q a t → R a t) (he : ∀ e t, E e t → F e t) :
    Ends x s R F :=
  ends_iff.mpr ⟨fun a t hx => hq a t (ends_ok h hx), fun e t hx => he e t (ends_error h hx)⟩

theorem ends_value (h : Ends x s Q E) (he : ∀ e t, ¬E e t) :
    ∃ a t, x.run s = (.ok a, t) ∧ Q a t := by
  match hx : x.run s with
  | (.ok a, t) => exact ⟨a, t, rfl, ends_ok h hx⟩
  | (.error e, t) => exact absurd (ends_error h hx) (he e t)

theorem ends_pure (h : Q a s) : Ends (pure a : Act σ ε α) s Q E := h

theorem ends_fail {e : ε} (h : E e s) : Ends (Act.fail e : Act σ ε α) s Q E := h

theorem ends_bind {f : α → Act σ ε β} {R : β → σ → Prop}
    (h : Ends x s (fun a t => Ends (f a) t R E) E) : Ends (x >>= f) s R E := by
  rw [Ends, run_bind]
  unfold Ends at h
  split at h <;> simp_all

theorem ends_each {f : α → Act σ ε Unit} (I : List α → σ → Prop) (xs : List α) (h0 : I [] s)
    (hstep : ∀ done x rest t, xs = done ++ x :: rest → I done t →
      Ends (f x) t (fun _ u => I (done ++ [x]) u) E) :
    Ends (Act.each f xs) s (fun _ t => I xs t) E := by
  suffices h : ∀ rest done t, xs = done ++ rest → I done t →
      Ends (Act.each f rest) t (fun _ u => I xs u) E from h xs [] s rfl h0
  intro rest
  induction rest with
  | nil =>
    intro done t hxs hi
    rw [List.append_nil] at hxs
    exact ends_pure (hxs ▸ hi)
  | cons x rest ih =>
    intro done t hxs hi
    apply ends_bind
    refine ends_mono (hstep done x rest t hxs hi) ?_ fun _ _ he => he
    intro _ u hu
    exact ih (done ++ [x]) u (by simp [hxs]) hu

/-! ## What both ends keep -/

def Keeps (P : σ → Prop) (x : Act σ ε α) : Prop := ∀ s, P s → P (x.run s).2

variable {P : σ → Prop}

theorem keeps_pure (a : α) : Keeps P (pure a : Act σ ε α) := fun _ h => h

theorem keeps_fail {e : ε} : Keeps P (Act.fail e : Act σ ε α) := fun _ h => h

theorem keeps_look (f : σ → α) : Keeps P (Act.look f : Act σ ε α) := fun _ h => h

theorem keeps_need (e : ε) (o : Option α) : Keeps P (Act.need e o : Act σ ε α) := by
  cases o with
  | none => exact fun _ h => h
  | some a => exact fun _ h => h

theorem Keeps.bind {f : α → Act σ ε β} (hx : Keeps P x) (hf : ∀ a, Keeps P (f a)) :
    Keeps P (x >>= f) := by
  intro s h
  have ht := hx s h
  rw [run_bind]
  split
  · next a t hrun =>
    rw [hrun] at ht
    exact hf a t ht
  · next e t hrun =>
    rw [hrun] at ht
    exact ht

theorem Keeps.ite {c : Prop} [Decidable c] {y : Act σ ε α} (hx : c → Keeps P x)
    (hy : ¬c → Keeps P y) : Keeps P (if c then x else y) := by
  split
  · next h => exact hx h
  · next h => exact hy h

theorem Keeps.orFail (hx : Keeps P x) (e : ε') : Keeps P (x.orFail e) := by
  intro s h
  have ht := hx s h
  rw [Act.orFail, Act.catching]
  dsimp only
  split
  · next hrun => rwa [hrun] at ht
  · next hrun => rwa [hrun] at ht

theorem Keeps.ignore {x : Act σ ε Unit} (hx : Keeps P x) : Keeps P x.ignore := hx

theorem keeps_each {f : α → Act σ ε Unit} (xs : List α) (hf : ∀ x ∈ xs, Keeps P (f x)) :
    Keeps P (Act.each f xs) := by
  induction xs with
  | nil => exact keeps_pure ()
  | cons x xs ih =>
    have hx := hf x List.mem_cons_self
    exact hx.bind fun _ => ih fun y hy => hf y (List.mem_cons_of_mem x hy)

end NeuralOs.Fallible
