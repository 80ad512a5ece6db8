import NeuralOs.Lib.Checked
import NeuralOs.Lib.StackCode

/-!
# What the validator guarantees

The builder's output is compared with the WebAssembly typing rules. Outside of
blocks the validator's depth is the number of operands. Inside, it starts from the
announced result on top of what lies below, and `Else` and `End` reset it, so a
block that takes operands from below its entry, or leaves too few or too many, goes
unnoticed. Lists whose blocks keep to their own operands are handled soundly.
-/

set_option autoImplicit false

namespace NeuralOs.Hermes

open ByteString Checked StackCode

inductive ValType where
  | i32
  deriving DecidableEq

abbrev BlockResult := Option ValType

inductive Op where
  | localGet (i : ℕ)
  | i32Const (v : Word)
  | i32Add
  | i32Sub
  | i32Mul
  | drop
  | i32LtS
  | i32GtS
  | i32Eq
  | i32Eqz
  | logicalAnd
  | logicalOr
  | block (r : BlockResult)
  | loop (r : BlockResult)
  | ifOp (r : BlockResult)
  | elseOp
  | br (target : ℕ)
  | brIf (target : ℕ)
  | endOp
  | i32Select
  | gpuSubmit (op : UInt8)
  | gpuMatmul
  deriving DecidableEq

def blockResultByte : BlockResult → UInt8
  | none => 0x40
  | some .i32 => 0x7F

/-! ## The validator -/

structure Frame where
  entryDepth : ℤ
  arity : ℤ
  isLoop : Bool
  deriving DecidableEq

def blockArity (r : BlockResult) : ℤ := if r = some .i32 then 1 else 0

def openBlock (depth : ℤ) (stack : List Frame) (r : BlockResult) (isLoop : Bool) :
    ℤ × List Frame :=
  (depth+blockArity r, ⟨depth, blockArity r, isLoop⟩::stack)

def binop (depth : ℤ) (stack : List Frame) : Except String (ℤ × List Frame) :=
  if depth < 2 then .error "op-IR: stack underflow em binop" else .ok (depth-1, stack)

def validateOp (nParams : ℕ) (depth : ℤ) (stack : List Frame) :
    Op → Except String (ℤ × List Frame)
  | .localGet i =>
    if nParams ≤ i then .error "op-IR: local fora de faixa" else .ok (depth+1, stack)
  | .i32Const _ => .ok (depth+1, stack)
  | .i32Add => binop depth stack
  | .i32Sub => binop depth stack
  | .i32Mul => binop depth stack
  | .drop => if depth < 1 then .error "op-IR: stack underflow em Drop" else .ok (depth-1, stack)
  | .i32LtS => binop depth stack
  | .i32GtS => binop depth stack
  | .i32Eq => binop depth stack
  | .logicalAnd => binop depth stack
  | .logicalOr => binop depth stack
  | .i32Eqz => if depth < 1 then .error "op-IR: stack underflow em I32Eqz" else .ok (depth, stack)
  | .i32Select =>
    if depth < 3 then
      .error "op-IR: stack underflow em I32Select (precisa cond, true, false)"
    else .ok (depth-2, stack)
  | .block r => .ok (openBlock depth stack r false)
  | .ifOp r =>
    if depth < 1 then .error "op-IR: stack underflow em If"
    else .ok (openBlock (depth-1) stack r false)
  | .loop r => .ok (openBlock depth stack r true)
  | .elseOp =>
    match stack with
    | [] => .error "op-IR: Else sem If"
    | f::_ => .ok (f.entryDepth+f.arity, stack)
  | .br target =>
    if stack = [] then .error "op-IR: br sem bloco/loop"
    else if stack.length ≤ target then .error "op-IR: br target fora de faixa"
    else .ok (depth, stack)
  | .brIf target =>
    if depth < 1 then .error "op-IR: stack underflow em BrIf"
    else if stack = [] then .error "op-IR: br_if sem bloco/loop"
    else if stack.length ≤ target then .error "op-IR: br_if target fora de faixa"
    else .ok (depth-1, stack)
  | .endOp =>
    match stack with
    | [] => .error "op-IR: End sem bloco/loop aberto"
    | f::stack => .ok (f.entryDepth+f.arity, stack)
  | .gpuSubmit _ => .ok (depth, stack)
  | .gpuMatmul => .ok (depth, stack)

def Op.isGpu : Op → Bool
  | .gpuSubmit _ => true
  | .gpuMatmul => true
  | _ => false

/-- A GPU operation ends the check at once. -/
def validateFrom (nParams : ℕ) : ℤ → List Frame → List Op → Except String Unit
  | depth, stack, [] =>
    if stack ≠ [] then .error "op-IR: blocos/loops não fechados (falta End)"
    else if depth ≠ 1 then .error "op-IR: deve sobrar exatamente 1 valor (result i32)"
    else .ok ()
  | depth, stack, op::ops =>
    if op.isGpu then .ok ()
    else do
      let (depth, stack) ← validateOp nParams depth stack op
      validateFrom nParams depth stack ops

def validate (nParams : ℕ) (ops : List Op) : Except String Unit := validateFrom nParams 0 [] ops

/-! ## Closing blocks -/

def openings : List Op → ℤ
  | [] => 0
  | .block _::ops => openings ops+1
  | .loop _::ops => openings ops+1
  | .ifOp _::ops => openings ops+1
  | .endOp::ops => openings ops-1
  | _::ops => openings ops

def ensureEnds (ops : List Op) : List Op := ops ++ List.replicate (openings ops).toNat .endOp

/-! ## Writing the module -/

def uleb (n : ℕ) : Bytes :=
  if n < 128 then [UInt8.ofNat n] else UInt8.ofNat (n%128+128)::uleb (n/128)

theorem sleb_decreases {v : ℤ} (h : ¬ (-64 ≤ v ∧ v < 64)) : (v/128).natAbs < v.natAbs := by
  omega

/-- Seven bits at a time until what is left repeats the sign bit. -/
def sleb (v : ℤ) : Bytes :=
  if h : -64 ≤ v ∧ v < 64 then [UInt8.ofNat (v%128).toNat]
  else UInt8.ofNat ((v%128).toNat+128)::sleb (v/128)
termination_by v.natAbs
decreasing_by exact sleb_decreases h

def wasmSection (id : UInt8) (content : Bytes) : Bytes := id::uleb content.length ++ content

def wasmHeader : Bytes := [0x00, 0x61, 0x73, 0x6D, 0x01, 0x00, 0x00, 0x00]

def codeSection (body : Bytes) : Bytes :=
  wasmSection 0x0A (uleb 1 ++ uleb body.length ++ body)

def buildGpuImportModule (gpuOp : UInt8) : Bytes :=
  wasmHeader ++
    wasmSection 0x01 (uleb 2 ++ [0x60] ++ uleb 2 ++ [0x7F, 0x7F] ++ uleb 1 ++ [0x7F] ++
      [0x60] ++ uleb 0 ++ uleb 1 ++ [0x7F]) ++
    wasmSection 0x02 (uleb 1 ++ uleb 8 ++ [0x61, 0x69, 0x6F, 0x73, 0x5F, 0x67, 0x70, 0x75] ++
      uleb 6 ++ [0x73, 0x75, 0x62, 0x6D, 0x69, 0x74] ++ [0x00] ++ uleb 0) ++
    wasmSection 0x03 (uleb 1 ++ uleb 1) ++
    wasmSection 0x07 (uleb 1 ++ uleb 3 ++ [0x72, 0x75, 0x6E] ++ [0x00] ++ uleb 1) ++
    codeSection (uleb 0 ++ [0x41] ++ sleb gpuOp.toNat ++ [0x41] ++ sleb 0 ++ [0x10] ++ uleb 0 ++
      [0x0B])

def runModule (nParams : ℕ) (body : Bytes) : Bytes :=
  wasmHeader ++
    wasmSection 0x01 (uleb 1 ++ [0x60] ++ uleb nParams ++ List.replicate nParams 0x7F ++ uleb 1 ++
      [0x7F]) ++
    wasmSection 0x03 (uleb 1 ++ uleb 0) ++
    wasmSection 0x07 (uleb 1 ++ uleb 3 ++ [0x72, 0x75, 0x6E] ++ [0x00] ++ uleb 0) ++
    codeSection (uleb 0 ++ body ++ [0x0B])

/-- The bytes of one operation; the last arm stands for the `unreachable!` branches. -/
def encodeOp : Op → Except (Stop String) Bytes
  | .localGet i => .ok (0x20::uleb i)
  | .i32Const v => .ok (0x41::sleb v.toInt)
  | .i32Add => .ok [0x6A]
  | .i32Sub => .ok [0x6B]
  | .i32Mul => .ok [0x6C]
  | .drop => .ok [0x1A]
  | .i32LtS => .ok [0x48]
  | .i32GtS => .ok [0x4A]
  | .i32Eq => .ok [0x46]
  | .i32Eqz => .ok [0x45]
  | .i32Select => .ok [0x1B]
  | .block r => .ok [0x02, blockResultByte r]
  | .loop r => .ok [0x03, blockResultByte r]
  | .ifOp r => .ok [0x04, blockResultByte r]
  | .elseOp => .ok [0x05]
  | .br t => .ok (0x0C::uleb t)
  | .brIf t => .ok (0x0D::uleb t)
  | .endOp => .ok [0x0B]
  | .logicalAnd => .error .panic
  | .logicalOr => .error .panic
  | .gpuSubmit _ => .error .panic
  | .gpuMatmul => .error .panic

def encodeBody : List Op → Except (Stop String) Bytes
  | [] => .ok []
  | op::ops => do
    let b ← encodeOp op
    let bs ← encodeBody ops
    .ok (b++bs)

/-- The code of the first GPU operation; `GpuMatmul` stands for code 2. -/
def firstGpu : List Op → Option UInt8
  | [] => none
  | .gpuSubmit op::_ => some op
  | .gpuMatmul::_ => some 2
  | _::ops => firstGpu ops

def buildRunModule (nParams : ℕ) (ops : List Op) : Except (Stop String) Bytes :=
  match firstGpu ops with
  | some op => .ok (buildGpuImportModule op)
  | none =>
    match validate nParams (ensureEnds ops) with
    | .error e => .error (.refused e)
    | .ok () => do
      let body ← encodeBody (ensureEnds ops)
      .ok (runModule nParams body)

/-! ## What the validator guarantees -/

/-! ## Operations as tokens -/

def tok : Op → Option Tok
  | .localGet i => some (.instr (.localGet i))
  | .i32Const v => some (.instr (.const v))
  | .i32Add => some (.instr (.binary .add))
  | .i32Sub => some (.instr (.binary .sub))
  | .i32Mul => some (.instr (.binary .mul))
  | .drop => some (.instr .drop)
  | .i32LtS => some (.instr (.binary .ltS))
  | .i32GtS => some (.instr (.binary .gtS))
  | .i32Eq => some (.instr (.binary .eq))
  | .i32Eqz => some (.instr .eqz)
  | .i32Select => some (.instr .select)
  | .block r => some (.block r.isSome)
  | .loop r => some (.loop r.isSome)
  | .ifOp r => some (.cond r.isSome)
  | .elseOp => some .els
  | .br t => some (.instr (.br t))
  | .brIf t => some (.instr (.brIf t))
  | .endOp => some .fin
  | .logicalAnd => none
  | .logicalOr => none
  | .gpuSubmit _ => none
  | .gpuMatmul => none

def resultByte (r : Bool) : UInt8 := if r then 0x7F else 0x40

def encodeTok : Tok → Bytes
  | .instr (.localGet i) => 0x20::uleb i
  | .instr (.const v) => 0x41::sleb v.toInt
  | .instr (.binary .add) => [0x6A]
  | .instr (.binary .sub) => [0x6B]
  | .instr (.binary .mul) => [0x6C]
  | .instr (.binary .ltS) => [0x48]
  | .instr (.binary .gtS) => [0x4A]
  | .instr (.binary .eq) => [0x46]
  | .instr .eqz => [0x45]
  | .instr .drop => [0x1A]
  | .instr .select => [0x1B]
  | .instr (.br l) => 0x0C::uleb l
  | .instr (.brIf l) => 0x0D::uleb l
  | .block r => [0x02, resultByte r]
  | .loop r => [0x03, resultByte r]
  | .cond r => [0x04, resultByte r]
  | .els => [0x05]
  | .fin => [0x0B]

def bodyTokens : List Op → Option (List Tok)
  | [] => some []
  | op::ops => (tok op).bind fun t => (bodyTokens ops).map (t::·)

variable {i : ℕ} {op : Op} {ts : List Tok}

/-- No `unreachable!` is reached, and an emitted body is typed as a function with one result. -/
def Sound (nParams : ℕ) (ops : List Op) : Prop :=
  buildRunModule nParams ops ≠ .error .panic ∧
    ∀ wasm, buildRunModule nParams ops = .ok wasm →
      ∃ c, bodyTokens (ensureEnds ops) = some (flatten c) ∧
        wasm = runModule nParams ((flatten c).flatMap encodeTok) ∧ HasType nParams [1] c 0 1

section nested
variable {nParams : ℕ} {depth : ℤ} {stack : List Frame} {r : Bool} {t : Tok} {ops : List Op}

variable {c : Code} {st : ℤ × List Frame}

end nested

section build
variable {nParams : ℕ} {ops : List Op}

end build

end NeuralOs.Hermes
