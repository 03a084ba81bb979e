import Nballerina.Lib.Blocks

/-!
# The LLVM that the compiler emits (`print.llvm`)

The builder of `print.llvm/llvm.bal`, as far as integer arithmetic goes, and the meaning of the
instructions it adds to the blocks of a function.

Mirroring notes:
- A block is known by a number, and so is a register; the builder prints names for them.
- A place in memory is the address of a register of the BIR and has its number. The runtime
  function `panic_construct` returns a pointer to an error that has the packed panic it was given.
- `exec` follows the language reference of LLVM. It has no result where the reference says that
  behaviour is undefined (`sdiv` and `srem` by 0 or of the least integer by -1) or that the result
  is poison (`nsw` on overflow): what is shown to run never comes near either.
-/

namespace Nballerina.Nback.Llvm

open Lib

/-- An operand of an instruction. -/
inductive Value where
  | constInt (val : BitVec 64)
  | reg (number : Nat)
deriving DecidableEq, Repr

inductive IntrinsicFunctionName where
  | saddWithOverflow
  | ssubWithOverflow
  | smulWithOverflow
deriving DecidableEq, Repr

inductive IntArithmeticOp where
  | add
  | sub
  | mul
deriving DecidableEq, Repr

inductive IntArithmeticSignedOp where
  | sdiv
  | srem
deriving DecidableEq, Repr

inductive Insn where
  | load (result addr : Nat)
  | store (value : Value) (addr : Nat)
  | callIntrinsic (result : Nat) (name : IntrinsicFunctionName) (lhs rhs : Value)
  | callPanicConstruct (result : Nat) (packedPanic : Value)
  | extractValue (result : Nat) (value : Value) (index : Nat)
  | iCmpEq (result : Nat) (lhs rhs : Value)
  | iBitwiseAnd (result : Nat) (lhs rhs : Value)
  | iArithmeticSigned (result : Nat) (op : IntArithmeticSignedOp) (lhs rhs : Value)
  | iArithmeticNoWrap (result : Nat) (op : IntArithmeticOp) (lhs rhs : Value)
  | br (dest : Nat)
  | condBr (condition : Value) (ifTrue ifFalse : Nat)
deriving DecidableEq, Repr

/-! ## Meaning -/

/-- What a register or a place in memory has in it. -/
inductive Datum where
  | i64 (val : BitVec 64)
  | i1 (val : Bool)
  /-- a structure of an `i64` and an `i1` -/
  | intWithOverflow (val : BitVec 64) (overflow : Bool)
  | error (packedPanic : BitVec 64)
deriving DecidableEq, Repr

structure State where
  regs : Nat → Option Datum
  memory : Nat → Option Datum

def State.eval (s : State) : Value → Option Datum
  | .constInt val => some (.i64 val)
  | .reg number => s.regs number

def State.evalInt (s : State) (v : Value) : Option (BitVec 64) :=
  match s.eval v with
  | some (.i64 val) => some val
  | _ => none

def State.evalBool (s : State) (v : Value) : Option Bool :=
  match s.eval v with
  | some (.i1 val) => some val
  | _ => none

def State.setReg (s : State) (number : Nat) (d : Datum) : State :=
  { s with regs := Function.update s.regs number (some d) }

def State.setMemory (s : State) (addr : Nat) (d : Datum) : State :=
  { s with memory := Function.update s.memory addr (some d) }

def IntrinsicFunctionName.eval (a b : BitVec 64) : IntrinsicFunctionName → BitVec 64 × Bool
  | .saddWithOverflow => (a + b, BitVec.saddOverflow a b)
  | .ssubWithOverflow => (a - b, BitVec.ssubOverflow a b)
  | .smulWithOverflow => (a * b, BitVec.smulOverflow a b)

/-- With `nsw`: nothing if there is a signed overflow. -/
def IntArithmeticOp.evalNoWrap (a b : BitVec 64) : IntArithmeticOp → Option (BitVec 64)
  | .add => if BitVec.saddOverflow a b then none else some (a + b)
  | .sub => if BitVec.ssubOverflow a b then none else some (a - b)
  | .mul => if BitVec.smulOverflow a b then none else some (a * b)

def IntArithmeticSignedOp.eval (a b : BitVec 64) (op : IntArithmeticSignedOp) :
    Option (BitVec 64) :=
  if b = 0 ∨ (a = BitVec.intMin 64 ∧ b = -1) then none
  else
    match op with
    | .sdiv => some (a.sdiv b)
    | .srem => some (a.srem b)

def Datum.extract : Datum → Nat → Option Datum
  | .intWithOverflow val _, 0 => some (.i64 val)
  | .intWithOverflow _ overflow, 1 => some (.i1 overflow)
  | _, _ => none

/-- The value of an instruction with a result. -/
def Insn.result (s : State) : Insn → Option (Nat × Datum)
  | .load result addr => do return (result, ← s.memory addr)
  | .callIntrinsic result name lhs rhs => do
    let r := name.eval (← s.evalInt lhs) (← s.evalInt rhs)
    return (result, .intWithOverflow r.1 r.2)
  | .callPanicConstruct result packedPanic => do return (result, .error (← s.evalInt packedPanic))
  | .extractValue result value index => do return (result, ← (← s.eval value).extract index)
  | .iCmpEq result lhs rhs => do
    return (result, .i1 (decide ((← s.evalInt lhs) = (← s.evalInt rhs))))
  | .iBitwiseAnd result lhs rhs => do
    return (result, .i1 ((← s.evalBool lhs) && (← s.evalBool rhs)))
  | .iArithmeticSigned result op lhs rhs => do
    return (result, .i64 (← op.eval (← s.evalInt lhs) (← s.evalInt rhs)))
  | .iArithmeticNoWrap result op lhs rhs => do
    return (result, .i64 (← op.evalNoWrap (← s.evalInt lhs) (← s.evalInt rhs)))
  | .store .. => none
  | .br .. => none
  | .condBr .. => none

def exec (insn : Insn) (s : State) : Option (Step State) :=
  match insn with
  | .br dest => some (.jump dest s)
  | .condBr condition ifTrue ifFalse => do
    return .jump (if ← s.evalBool condition then ifTrue else ifFalse) s
  | .store value addr => do return .next (s.setMemory addr (← s.eval value))
  | insn => do
    let r ← insn.result s
    return .next (s.setReg r.1 r.2)

section Exec

variable {s : State} {lhs rhs : Value} {x y : BitVec 64}

theorem evalInt_constInt (val : BitVec 64) : s.evalInt (.constInt val) = some val := rfl

@[simp] theorem eval_setReg_self (s : State) (r : Nat) (d : Datum) :
    (s.setReg r d).eval (.reg r) = some d :=
  Function.update_self ..

theorem eval_setReg_of_ne {k r : Nat} (h : k ≠ r) (d : Datum) :
    (s.setReg r d).eval (.reg k) = s.eval (.reg k) :=
  Function.update_of_ne h ..

@[simp] theorem memory_setReg (s : State) (r : Nat) (d : Datum) :
    (s.setReg r d).memory = s.memory := rfl

theorem exec_load {addr : Nat} {d : Datum} (h : s.memory addr = some d) (r : Nat) :
    exec (.load r addr) s = some (.next (s.setReg r d)) := by
  simp [exec, Insn.result, h]

theorem exec_store {v : Value} {d : Datum} (h : s.eval v = some d) (addr : Nat) :
    exec (.store v addr) s = some (.next (s.setMemory addr d)) := by
  simp [exec, h]

/-- The result and the overflow flag are kept in one register. -/
theorem exec_callIntrinsic (hl : s.evalInt lhs = some x) (hr : s.evalInt rhs = some y)
    {name : IntrinsicFunctionName} {v : BitVec 64} {overflow : Bool}
    (heval : name.eval x y = (v, overflow)) (r : Nat) :
    exec (.callIntrinsic r name lhs rhs) s =
      some (.next (s.setReg r (.intWithOverflow v overflow))) := by
  simp [exec, Insn.result, hl, hr, heval]

theorem exec_callPanicConstruct (packed : BitVec 64) (r : Nat) :
    exec (.callPanicConstruct r (.constInt packed)) s = some (.next (s.setReg r (.error packed))) := by
  simp [exec, Insn.result, evalInt_constInt]

theorem exec_extractValue {v : Value} {d d' : Datum} {index : Nat} (h : s.eval v = some d)
    (hd : d.extract index = some d') (r : Nat) :
    exec (.extractValue r v index) s = some (.next (s.setReg r d')) := by
  simp [exec, Insn.result, h, hd]

theorem exec_iCmpEq (hl : s.evalInt lhs = some x) (hr : s.evalInt rhs = some y) (r : Nat) :
    exec (.iCmpEq r lhs rhs) s = some (.next (s.setReg r (.i1 (decide (x = y))))) := by
  simp [exec, Insn.result, hl, hr]

theorem exec_iBitwiseAnd {p q : Bool} (hl : s.eval lhs = some (.i1 p)) (hr : s.eval rhs = some (.i1 q))
    (r : Nat) : exec (.iBitwiseAnd r lhs rhs) s = some (.next (s.setReg r (.i1 (p && q)))) := by
  simp [exec, Insn.result, State.evalBool, hl, hr]

theorem exec_iArithmeticSigned (hl : s.evalInt lhs = some x) (hr : s.evalInt rhs = some y)
    {op : IntArithmeticSignedOp} {v : BitVec 64} (hop : op.eval x y = some v) (r : Nat) :
    exec (.iArithmeticSigned r op lhs rhs) s = some (.next (s.setReg r (.i64 v))) := by
  simp [exec, Insn.result, hl, hr, hop]

/-- Defined only where the result is no poison. -/
theorem exec_iArithmeticNoWrap (hl : s.evalInt lhs = some x) (hr : s.evalInt rhs = some y)
    {op : IntArithmeticOp} {v : BitVec 64} (hop : op.evalNoWrap x y = some v) (r : Nat) :
    exec (.iArithmeticNoWrap r op lhs rhs) s = some (.next (s.setReg r (.i64 v))) := by
  simp [exec, Insn.result, hl, hr, hop]

theorem exec_br (dest : Nat) : exec (.br dest) s = some (.jump dest s) := rfl

theorem exec_condBr {v : Value} {p : Bool} (h : s.eval v = some (.i1 p)) (ifTrue ifFalse : Nat) :
    exec (.condBr v ifTrue ifFalse) s = some (.jump (if p then ifTrue else ifFalse) s) := by
  simp [exec, State.evalBool, h]

end Exec

/-! ## The builder -/

structure Builder where
  blocks : Blocks Insn
  numBlocks : Nat
  current : Nat
  numRegs : Nat

abbrev BuildM := StateM Builder

def addInsn (insn : Insn) : BuildM Unit :=
  modify fun b => { b with blocks := pushInsn b.blocks b.current insn }

/-- Adds an instruction with a new register for its result. -/
def addInsnWithResult (insn : Nat → Insn) : BuildM Value := do
  let b ← get
  addInsn (insn b.numRegs)
  modify fun b => { b with numRegs := b.numRegs + 1 }
  return .reg b.numRegs

def addBasicBlock : BuildM Nat := do
  let b ← get
  set { b with numBlocks := b.numBlocks + 1 }
  return b.numBlocks

def positionAtEnd (block : Nat) : BuildM Unit := modify fun b => { b with current := block }

def load (addr : Nat) : BuildM Value := addInsnWithResult fun reg => .load reg addr

def store (value : Value) (addr : Nat) : BuildM Unit := addInsn (.store value addr)

def callIntrinsic (name : IntrinsicFunctionName) (lhs rhs : Value) : BuildM Value :=
  addInsnWithResult fun reg => .callIntrinsic reg name lhs rhs

def callPanicConstruct (packedPanic : Value) : BuildM Value :=
  addInsnWithResult fun reg => .callPanicConstruct reg packedPanic

def extractValue (value : Value) (index : Nat) : BuildM Value :=
  addInsnWithResult fun reg => .extractValue reg value index

def iCmpEq (lhs rhs : Value) : BuildM Value := addInsnWithResult fun reg => .iCmpEq reg lhs rhs

def iBitwiseAnd (lhs rhs : Value) : BuildM Value :=
  addInsnWithResult fun reg => .iBitwiseAnd reg lhs rhs

def iArithmeticSigned (op : IntArithmeticSignedOp) (lhs rhs : Value) : BuildM Value :=
  addInsnWithResult fun reg => .iArithmeticSigned reg op lhs rhs

def iArithmeticNoWrap (op : IntArithmeticOp) (lhs rhs : Value) : BuildM Value :=
  addInsnWithResult fun reg => .iArithmeticNoWrap reg op lhs rhs

def br (dest : Nat) : BuildM Unit := addInsn (.br dest)

def condBr (condition : Value) (ifTrue ifFalse : Nat) : BuildM Unit :=
  addInsn (.condBr condition ifTrue ifFalse)

end Nballerina.Nback.Llvm
