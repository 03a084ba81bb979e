import Nballerina.CodeGen.Bindings
import Nballerina.Lib.After

/-!
# Generating code

What the functions of `front/expr.bal` and `front/stmt.bal` write to while they generate the code
of a function: its registers and blocks (`bir:FunctionCode`) and the rest of the `StmtContext`.

Mirroring notes:
- `blocks` gives the instructions of every label; labels from `blockCount` on have not been made.
- An instruction with operands and predecessors side by side has a list of pairs here.
- `regions` and `scopeStack`, which only describe the code to later passes, are left out.
-/

namespace Nballerina.CodeGen

open Nballerina.Lib

variable {T V : Type}

/-! ## Instructions -/

/-- `bir:Operand` -/
inductive Operand (T V : Type) where
  | const (value : V) (semType : T)
  | function (value : V) (semType : T)
  | reg (reg : Register T)

def Operand.isRegister : Operand T V → Bool
  | .reg _ => true
  | _ => false

def Operand.semType : Operand T V → T
  | .const _ semType => semType
  | .function _ semType => semType
  | .reg r => r.semType

/-- `==`, `!=`, `===` and `!==` -/
structure EqualityOp where
  exact : Bool
  negated : Bool
deriving DecidableEq

/-- The instructions of `bir` that conditions and loops are made of. -/
inductive Insn (T V : Type) where
  | assign (result : Register T) (operand : Operand T V)
  | compare (op : OrderOp) (result : Register T) (left right : Operand T V)
  | equality (op : EqualityOp) (result : Register T) (left right : Operand T V)
  | typeTest (result : Register T) (operand : Register T) (semType : T) (negated : Bool)
  | booleanNot (result : Register T) (operand : Register T)
  | branch (dest : Nat)
  | condBranch (operand : Register T) (ifTrue ifFalse : Nat)
  | typeCondBranch (operand : Register T) (semType : T) (ifTrue ifFalse : Nat)
      (ifTrueRegister ifFalseRegister : NarrowRegister T)
  | typeMerge (result : NarrowRegister T) (operands : List (Nat × Register T))

/-! ## The state -/

/-- Where a run stops that is no error of the program. -/
inductive Panic where
  /-- the end of a chain is cast to `BindingChain`, or a missing lookup to its result -/
  | chainCast
  /-- a value does not agree with its singleton type -/
  | inconsistent
  /-- a constant whose type a test splits -/
  | constTypeTest

/-- How code generation fails. -/
inductive Failure where
  | semantic (message : String)
  | panic (p : Panic)

/-- `bir:FunctionCode` and `StmtContext` -/
structure Gen (T V : Type) where
  registers : List (Register T)
  blocks : Blocks (Insn T V)
  blockCount : Nat
  isClosure : Bool
  innerCapturedRegisters : List Nat
  directRefVarRegisters : List Nat

abbrev GenM (T V : Type) := ExceptT Failure (StateM (Gen T V))

/-- What a function returns, or how it fails, and the state after it. -/
abbrev runFrom {α : Type} (m : GenM T V α) (g : Gen T V) : Except Failure α × Gen T V := m.run g

namespace Gen

def addRegister (g : Gen T V) (reg : Register T) : Gen T V :=
  { g with registers := g.registers ++ [reg] }

def push (g : Gen T V) (block : Nat) (insn : Insn T V) : Gen T V :=
  { g with blocks := pushInsn g.blocks block insn }

def addBlock (g : Gen T V) : Gen T V := { g with blockCount := g.blockCount + 1 }

/-- `markAsDirectRef`, for a variable register -/
def markAsDirectRef (g : Gen T V) : Register T → Gen T V
  | .capturable (.decl reg) =>
    if reg.kind = .var ∧ reg.number ∉ g.directRefVarRegisters then
      { g with directRefVarRegisters := g.directRefVarRegisters ++ [reg.number] }
    else g
  | _ => g

/-- `bir:discardBasicBlocksFrom` -/
def discard (g : Gen T V) (firstToDiscard : Nat) : Gen T V :=
  { g with
    blocks := fun b => if b < firstToDiscard then g.blocks b else []
    blockCount := firstToDiscard }

@[simp] theorem length_addRegister (g : Gen T V) (reg : Register T) :
    (g.addRegister reg).registers.length = g.registers.length + 1 :=
  List.length_append

@[simp] theorem blocks_addRegister (g : Gen T V) (reg : Register T) :
    (g.addRegister reg).blocks = g.blocks := rfl

@[simp] theorem blockCount_addRegister (g : Gen T V) (reg : Register T) :
    (g.addRegister reg).blockCount = g.blockCount := rfl

@[simp] theorem registers_push (g : Gen T V) (block : Nat) (insn : Insn T V) :
    (g.push block insn).registers = g.registers := rfl

@[simp] theorem blocks_push (g : Gen T V) (block : Nat) (insn : Insn T V) :
    (g.push block insn).blocks = pushInsn g.blocks block insn := rfl

@[simp] theorem blockCount_push (g : Gen T V) (block : Nat) (insn : Insn T V) :
    (g.push block insn).blockCount = g.blockCount := rfl

@[simp] theorem registers_addBlock (g : Gen T V) : g.addBlock.registers = g.registers := rfl

@[simp] theorem blocks_addBlock (g : Gen T V) : g.addBlock.blocks = g.blocks := rfl

@[simp] theorem blockCount_addBlock (g : Gen T V) : g.addBlock.blockCount = g.blockCount + 1 := rfl

end Gen

def createTmpRegister (t : T) : GenM T V (Register T) := do
  let g ← get
  set (g.addRegister (.tmp g.registers.length t))
  return .tmp g.registers.length t

def createAssignTmpRegister (t : T) : GenM T V (Register T) := do
  let g ← get
  set (g.addRegister (.assignTmp g.registers.length t))
  return .assignTmp g.registers.length t

def createNarrowRegister (t : T) : GenM T V (NarrowRegister T) := do
  let g ← get
  set (g.addRegister (.narrow ⟨g.registers.length, t⟩))
  return ⟨g.registers.length, t⟩

def createBasicBlock : GenM T V Nat := do
  let g ← get
  set g.addBlock
  return g.blockCount

def emit (block : Nat) (insn : Insn T V) : GenM T V Unit := modify fun g => g.push block insn

def semanticErr {α : Type} (message : String) : GenM T V α := throw (.semantic message)

/-! ## Merging types -/

variable [DecidableEq T] [TypeOps T V]

/-- The loop of `codeGenTypeMerge` over the groups. -/
def codeGenMergeGroups (block : Nat) (bindingLimit : BindingChain T) (numOrigins : Nat) :
    List (MergeOriginGroup T) → BindingChain T → GenM T V (BindingChain T)
  | [], narrowed => return narrowed
  | group :: groups, narrowed => do
    if group.operands.length < numOrigins then
      codeGenMergeGroups block bindingLimit numOrigins groups narrowed
    else
      match bindingsLookup (← get).isClosure group.unnarrowed.name bindingLimit false with
      | none => throw (.panic .chainCast)
      | some (existing, _) =>
        if existing.reg.semType = group.union then
          codeGenMergeGroups block bindingLimit numOrigins groups narrowed
        else
          let merged ← createNarrowRegister group.union
          emit block (.typeMerge merged group.operands)
          codeGenMergeGroups block bindingLimit numOrigins groups
            (narrow narrowed (.decl group.unnarrowed) merged)

/-- `codeGenTypeMerge` -/
def codeGenTypeMerge (block : Nat) (bindingLimit : BindingChain T) :
    List (TypeMergerOrigin T) → GenM T V (BindingChain T)
  | [] => return bindingLimit
  | [origin] => return origin.bindings
  | origins =>
    match groupOriginsByUnnarrowed bindingLimit origins [] with
    | none => throw (.panic .chainCast)
    | some groups => codeGenMergeGroups block bindingLimit origins.length groups bindingLimit

end Nballerina.CodeGen
