import NeuralOs.Lib.TextScan

/-!
# Resolving directory paths

An absolute path is walked component by component: an empty component and `.`
stay, `..` leaves the directory and a name enters it. A walk that never leaves
the directory it starts in ends below it.
-/

set_option autoImplicit false

namespace NeuralOs.DirPath
open TextScan

def components (path : Text) : List Text := List.splitOn '/' path

def isHere (c : Text) : Bool := c = [] || c = ['.']
def isUp (c : Text) : Bool := c = ['.', '.']

def walk (dir : List Text) (c : Text) : List Text :=
  if isHere c then dir else if isUp c then dir.dropLast else dir++[c]

def resolve (path : Text) : List Text := (components path).foldl walk []

/-- The walk from depth `d` never climbs above depth 0. -/
def inside : ℕ → List Text → Bool
  | _, [] => true
  | d, c::cs =>
    if isHere c then inside d cs
    else if isUp c then 0 < d && inside (d-1) cs
    else inside (d+1) cs

theorem resolve_append (dir rest : Text) :
    resolve (dir++ '/'::rest) = (components rest).foldl walk (resolve dir) := by
  rw [resolve, components, List.splitOn_append_cons_self, List.foldl_append]
  rfl

theorem resolve_slash (dir : Text) : resolve (dir++['/']) = resolve dir := by
  rw [resolve_append]
  rfl

theorem walk_inside {cs : List Text} {d : ℕ} (h : inside d cs = true) (base : List Text)
    {below : List Text} (hd : below.length = d) : base <+: cs.foldl walk (base++below) := by
  induction cs generalizing d below with
  | nil => exact List.prefix_append base below
  | cons c cs ih =>
    rw [inside] at h
    rw [List.foldl_cons, walk]
    by_cases hhere : isHere c = true
    · rw [if_pos hhere] at h ⊢
      exact ih h hd
    rw [if_neg hhere] at h ⊢
    by_cases hup : isUp c = true
    · rw [if_pos hup, Bool.and_eq_true, decide_eq_true_eq] at h
      have hne : below ≠ [] := List.ne_nil_of_length_pos (hd ▸ h.1)
      rw [if_pos hup, List.dropLast_append_of_ne_nil hne]
      exact ih h.2 (by rw [List.length_dropLast, hd])
    · rw [if_neg hup] at h ⊢
      rw [List.append_assoc]
      exact ih h (by simp [hd])

theorem resolve_inside {dir rest : Text} (h : inside 0 (components rest) = true) :
    resolve dir <+: resolve (dir++ '/'::rest) := by
  rw [resolve_append]
  have hbelow := walk_inside h (resolve dir) (List.length_nil (α := Text))
  rwa [List.append_nil] at hbelow

end NeuralOs.DirPath
