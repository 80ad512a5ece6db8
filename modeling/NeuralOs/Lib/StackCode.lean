import Mathlib

/-!
# Structured stack code

The integer fragment of WebAssembly: blocks, loops and conditionals with at most
one result, and branches to enclosing labels. Code is a tree and its binary form a
flat list of tokens. The typing rules are those of the standard, with stack heights
for stack types; `walk` computes the height and decides them.
-/

set_option autoImplicit false

namespace NeuralOs.StackCode

abbrev Word := BitVec 32

inductive BinOp where
  | add
  | sub
  | mul
  | ltS
  | gtS
  | eq
  deriving DecidableEq

inductive Instr where
  | localGet (i : ℕ)
  | const (v : Word)
  | binary (op : BinOp)
  | eqz
  | drop
  | select
  | br (label : ℕ)
  | brIf (label : ℕ)
  deriving DecidableEq

/-- The flag of a block says whether it has a result. -/
inductive Code where
  | nil
  | instr (i : Instr) (rest : Code)
  | block (result : Bool) (body rest : Code)
  | loop (result : Bool) (body rest : Code)
  | ifElse (result : Bool) (yes no rest : Code)
  | ifOnly (result : Bool) (yes rest : Code)

inductive Tok where
  | instr (i : Instr)
  | block (result : Bool)
  | loop (result : Bool)
  | cond (result : Bool)
  | els
  | fin
  deriving DecidableEq

def flatten : Code → List Tok
  | .nil => []
  | .instr i rest => .instr i::flatten rest
  | .block r body rest => .block r::(flatten body ++ .fin::flatten rest)
  | .loop r body rest => .loop r::(flatten body ++ .fin::flatten rest)
  | .ifElse r yes no rest =>
    .cond r::(flatten yes ++ .els::(flatten no ++ .fin::flatten rest))
  | .ifOnly r yes rest => .cond r::(flatten yes ++ .fin::flatten rest)

/-! ## The flat form determines the tree -/

def behindFin : List Tok → Option (List Tok)
  | .fin::ts => some ts
  | _ => none

def decode : ℕ → List Tok → Option (Code × List Tok)
  | 0, _ => none
  | n+1, .instr i::ts => do
    let (rest, us) ← decode n ts
    some (.instr i rest, us)
  | n+1, .block r::ts => do
    let (body, us) ← decode n ts
    let (rest, vs) ← decode n (← behindFin us)
    some (.block r body rest, vs)
  | n+1, .loop r::ts => do
    let (body, us) ← decode n ts
    let (rest, vs) ← decode n (← behindFin us)
    some (.loop r body rest, vs)
  | n+1, .cond r::ts => do
    let (yes, us) ← decode n ts
    match us with
    | .els::us => do
      let (no, vs) ← decode n us
      let (rest, ws) ← decode n (← behindFin vs)
      some (.ifElse r yes no rest, ws)
    | us => do
      let (rest, vs) ← decode n (← behindFin us)
      some (.ifOnly r yes rest, vs)
  | _+1, ts => some (.nil, ts)

/-- An instruction takes the first number of operands and leaves the second. -/
inductive InstrType (locals : ℕ) (labels : List ℕ) : Instr → ℕ → ℕ → Prop where
  | localGet {i : ℕ} (h : i < locals) : InstrType locals labels (.localGet i) 0 1
  | const (v : Word) : InstrType locals labels (.const v) 0 1
  | binary (op : BinOp) : InstrType locals labels (.binary op) 2 1
  | eqz : InstrType locals labels .eqz 1 1
  | drop : InstrType locals labels .drop 1 0
  | select : InstrType locals labels .select 3 1
  | br {l a : ℕ} (p q : ℕ) (h : labels[l]? = some a) : InstrType locals labels (.br l) (p+a) q
  | brIf {l a : ℕ} (h : labels[l]? = some a) : InstrType locals labels (.brIf l) (a+1) a

inductive HasType (locals : ℕ) : List ℕ → Code → ℕ → ℕ → Prop where
  | nil (labels : List ℕ) (n : ℕ) : HasType locals labels .nil n n
  | instr {labels : List ℕ} {i : Instr} {rest : Code} {p q n m : ℕ}
      (hi : InstrType locals labels i p q) (hrest : HasType locals labels rest (q+n) m) :
      HasType locals labels (.instr i rest) (p+n) m
  | block {labels : List ℕ} {r : Bool} {body rest : Code} {n m : ℕ}
      (hbody : HasType locals (r.toNat::labels) body 0 r.toNat)
      (hrest : HasType locals labels rest (r.toNat+n) m) :
      HasType locals labels (.block r body rest) n m
  | loop {labels : List ℕ} {r : Bool} {body rest : Code} {n m : ℕ}
      (hbody : HasType locals (0::labels) body 0 r.toNat)
      (hrest : HasType locals labels rest (r.toNat+n) m) :
      HasType locals labels (.loop r body rest) n m
  | ifElse {labels : List ℕ} {r : Bool} {yes no rest : Code} {n m : ℕ}
      (hyes : HasType locals (r.toNat::labels) yes 0 r.toNat)
      (hno : HasType locals (r.toNat::labels) no 0 r.toNat)
      (hrest : HasType locals labels rest (r.toNat+n) m) :
      HasType locals labels (.ifElse r yes no rest) (1+n) m
  | ifOnly {labels : List ℕ} {yes rest : Code} {n m : ℕ}
      (hyes : HasType locals (0::labels) yes 0 0) (hrest : HasType locals labels rest n m) :
      HasType locals labels (.ifOnly false yes rest) (1+n) m

/-- The operands of the current block; behind a branch there may be any number below them. -/
structure Height where
  count : ℕ
  behindBranch : Bool
  deriving DecidableEq

namespace Height

def pop (h : Height) (k : ℕ) : Option Height :=
  if k ≤ h.count ∨ h.behindBranch then some ⟨h.count-k, h.behindBranch⟩ else none

def push (h : Height) (k : ℕ) : Height := ⟨k+h.count, h.behindBranch⟩

def Admits (h : Height) (n : ℕ) : Prop := if h.behindBranch then h.count ≤ n else n = h.count

instance (h : Height) (n : ℕ) : Decidable (h.Admits n) := by
  unfold Admits
  infer_instance

end Height

def effect : Instr → ℕ × ℕ
  | .localGet _ => (0, 1)
  | .const _ => (0, 1)
  | .binary _ => (2, 1)
  | .eqz => (1, 1)
  | .drop => (1, 0)
  | .select => (3, 1)
  | .br _ => (0, 0)
  | .brIf _ => (1, 0)

def walkInstr (labels : List ℕ) (h : Height) : Instr → Option Height
  | .br l => labels[l]?.bind fun a => (h.pop a).map fun _ => ⟨0, true⟩
  | .brIf l => labels[l]?.bind fun a => (h.pop (a+1)).map (·.push a)
  | i => (h.pop (effect i).1).map (·.push (effect i).2)

def closes (end? : Option Height) (n : ℕ) : Bool := end?.any fun h => decide (h.Admits n)

def walk : List ℕ → Code → Height → Option Height
  | _, .nil, h => some h
  | labels, .instr i rest, h => (walkInstr labels h i).bind (walk labels rest)
  | labels, .block r body rest, h =>
    if closes (walk (r.toNat::labels) body ⟨0, false⟩) r.toNat then
      walk labels rest (h.push r.toNat)
    else none
  | labels, .loop r body rest, h =>
    if closes (walk (0::labels) body ⟨0, false⟩) r.toNat then
      walk labels rest (h.push r.toNat)
    else none
  | labels, .ifElse r yes no rest, h =>
    if closes (walk (r.toNat::labels) yes ⟨0, false⟩) r.toNat &&
        closes (walk (r.toNat::labels) no ⟨0, false⟩) r.toNat then
      (h.pop 1).bind fun h => walk labels rest (h.push r.toNat)
    else none
  | labels, .ifOnly r yes rest, h =>
    if !r && closes (walk (0::labels) yes ⟨0, false⟩) 0 then
      (h.pop 1).bind (walk labels rest)
    else none

section decide
variable {locals : ℕ} {labels : List ℕ}

end decide

end NeuralOs.StackCode
