import Nballerina.Nback.Llvm
import Nballerina.Front.Arithmetic

/-!
# Integer arithmetic in the back end (`nback/number.bal`)

`buildArithmeticBinary` and `buildNoPanicArithmeticBinary` emit LLVM for the instructions of the
front end. Together with the front end they give the exact result where it fits in 64 bits, and a
panic or a compile-time error where it does not.

Mirroring notes:
- The operands and the result of the instructions are of type `int`, so their registers are not
  tagged: `buildInt` is a load and `buildStoreInt` a store.
- Of the scaffold there is the block to go to on panic, the address the error is stored at and the
  line number of a position.
-/

namespace Nballerina.Nback

open Lib Llvm Front

structure Scaffold where
  onPanic : Nat
  panicAddress : Nat
  lineNumber : Int → BitVec 64

/-- The panics of integer arithmetic, with their index. -/
inductive PanicIndex where
  | arithmeticOverflow
  | divideByZero
deriving DecidableEq, Repr

def PanicIndex.toBitVec : PanicIndex → BitVec 64
  | .arithmeticOverflow => 1
  | .divideByZero => 2

/-- `panicIndex | (lineNumber << 8)` -/
def packPanic (panicIndex : PanicIndex) (lineNumber : BitVec 64) : BitVec 64 :=
  panicIndex.toBitVec ||| (lineNumber <<< 8)

section Build

variable (scaffold : Scaffold)

def buildErrorForConstPanic (panicIndex : PanicIndex) (pos : Int) : BuildM Value :=
  callPanicConstruct (.constInt (packPanic panicIndex (scaffold.lineNumber pos)))

def buildInt : IntOperand → BuildM Value
  | .const value _ => return .constInt (BitVec.ofInt 64 value)
  | .register number _ => load number

def buildStoreInt (value : Value) (reg : Nat) : BuildM Unit := store value reg

def buildBinaryIntIntrinsic : ArithmeticBinaryOp → Option IntrinsicFunctionName
  | .add => some .saddWithOverflow
  | .sub => some .ssubWithOverflow
  | .mul => some .smulWithOverflow
  | .div => none
  | .rem => none

/-- The operations with a check for overflow. -/
def buildIntrinsic (name : IntrinsicFunctionName) (insn : IntArithmeticInsn) (lhs rhs : Value) :
    BuildM Unit := do
  let resultWithOverflow ← callIntrinsic name lhs rhs
  let continueBlock ← addBasicBlock
  let overflowBlock ← addBasicBlock
  condBr (← extractValue resultWithOverflow 1) overflowBlock continueBlock
  positionAtEnd overflowBlock
  store (← buildErrorForConstPanic scaffold .arithmeticOverflow insn.pos) scaffold.panicAddress
  br scaffold.onPanic
  positionAtEnd continueBlock
  let result ← extractValue resultWithOverflow 0
  buildStoreInt result insn.result

/-- `/` and `%`: the checks, up to the block in which the least integer is divided by -1 and the
block in which it is safe to divide. -/
def buildDivisorChecks (insn : IntArithmeticInsn) (lhs rhs : Value) : BuildM (Nat × Nat) := do
  let zeroDivisorBlock ← addBasicBlock
  let continueBlock ← addBasicBlock
  condBr (← iCmpEq rhs (.constInt 0)) zeroDivisorBlock continueBlock
  positionAtEnd zeroDivisorBlock
  store (← buildErrorForConstPanic scaffold .divideByZero insn.pos) scaffold.panicAddress
  br scaffold.onPanic
  positionAtEnd continueBlock
  let continueBlock ← addBasicBlock
  let overflowBlock ← addBasicBlock
  let lhsIsMin ← iCmpEq lhs (.constInt (BitVec.intMin 64))
  let rhsIsMinusOne ← iCmpEq rhs (.constInt (-1))
  condBr (← iBitwiseAnd lhsIsMin rhsIsMinusOne) overflowBlock continueBlock
  return (overflowBlock, continueBlock)

def buildDiv (insn : IntArithmeticInsn) (lhs rhs : Value) : BuildM Unit := do
  let (overflowBlock, continueBlock) ← buildDivisorChecks scaffold insn lhs rhs
  positionAtEnd overflowBlock
  store (← buildErrorForConstPanic scaffold .arithmeticOverflow insn.pos) scaffold.panicAddress
  br scaffold.onPanic
  positionAtEnd continueBlock
  let result ← iArithmeticSigned .sdiv lhs rhs
  buildStoreInt result insn.result

def buildRem (insn : IntArithmeticInsn) (lhs rhs : Value) : BuildM Unit := do
  let (overflowBlock, continueBlock) ← buildDivisorChecks scaffold insn lhs rhs
  positionAtEnd overflowBlock
  store (.constInt 0) insn.result
  let joinBlock ← addBasicBlock
  br joinBlock
  positionAtEnd continueBlock
  let result ← iArithmeticSigned .srem lhs rhs
  buildStoreInt result insn.result
  br joinBlock
  positionAtEnd joinBlock

def buildArithmeticBinary (insn : IntArithmeticInsn) : BuildM Unit := do
  let lhs ← buildInt insn.lhs
  let rhs ← buildInt insn.rhs
  match buildBinaryIntIntrinsic insn.op with
  | some name => buildIntrinsic scaffold name insn lhs rhs
  | none =>
    if insn.op = .div then buildDiv scaffold insn lhs rhs else buildRem scaffold insn lhs rhs

/-- `intArithmeticOps.get`; other operators have no entry. -/
def intArithmeticOps : ArithmeticBinaryOp → Option IntArithmeticOp
  | .add => some .add
  | .sub => some .sub
  | .mul => some .mul
  | .div => none
  | .rem => none

/-- The `none` is a panic. -/
def buildNoPanicArithmeticBinary (insn : IntArithmeticInsn) : Option (BuildM Unit) := do
  let op ← intArithmeticOps insn.op
  return do
    let lhs ← buildInt insn.lhs
    let rhs ← buildInt insn.rhs
    let result ← iArithmeticNoWrap op lhs rhs
    buildStoreInt result insn.result

/-- The entry of the table of instructions. -/
def buildIntArithmetic (insn : IntArithmeticInsn) : Option (BuildM Unit) :=
  if insn.noPanic then buildNoPanicArithmeticBinary insn
  else some (buildArithmeticBinary scaffold insn)

end Build

/-! ## The exact result -/

/-- The result of an operation, if it is in the range of an `int`. -/
def fitsInt (n : Int) : Except PanicIndex Int :=
  if Types.intMinValue ≤ n ∧ n ≤ Types.intMaxValue then .ok n else .error .arithmeticOverflow

/-- What `a op b` is on integers: division truncates, and the remainder goes with it. -/
def exactArithmetic (op : ArithmeticBinaryOp) (a b : Int) : Except PanicIndex Int :=
  match op with
  | .add => fitsInt (a + b)
  | .sub => fitsInt (a - b)
  | .mul => fitsInt (a * b)
  | .div => if b = 0 then .error .divideByZero else fitsInt (a.tdiv b)
  | .rem => if b = 0 then .error .divideByZero else .ok (a.tmod b)

/-! ## What the emitted code does -/

/-- The builder is at a block of the function, and new blocks are empty. -/
structure Ready (b : Builder) : Prop where
  current_lt : b.current < b.numBlocks
  fresh : ∀ n, b.numBlocks ≤ n → b.blocks n = []

/-- The builder after some code. -/
def built {α : Type} (m : BuildM α) (b : Builder) : Builder := (m.run b).run.2

/-- The emitted code, however it goes on, stores the integer and comes to its end. -/
def Stores (result : Nat) (m : BuildM Unit) (b : Builder) (s : State) (n : Int) : Prop :=
  ∀ blocks, Extends (built m b).blocks blocks → ∃ s',
    Star exec blocks (blockEnd b.blocks b.current) s
      (blockEnd (built m b).blocks (built m b).current) s' ∧
    s'.memory = Function.update s.memory result (some (.i64 (BitVec.ofInt 64 n)))

/-- The emitted code stores an error with the panic and goes to the block for panics. -/
def Panics (scaffold : Scaffold) (pos : Int) (m : BuildM Unit) (b : Builder) (s : State)
    (p : PanicIndex) : Prop :=
  ∀ blocks, Extends (built m b).blocks blocks → ∃ s',
    Star exec blocks (blockEnd b.blocks b.current) s (blockStart scaffold.onPanic) s' ∧
    s'.memory = Function.update s.memory scaffold.panicAddress
      (some (.error (packPanic p (scaffold.lineNumber pos))))

/-- The emitted code does what the result says. -/
def Delivers (scaffold : Scaffold) (insn : IntArithmeticInsn) (m : BuildM Unit) (b : Builder)
    (s : State) : Except PanicIndex Int → Prop
  | .ok n => Stores insn.result m b s n
  | .error p => Panics scaffold insn.pos m b s p

/-- The operand has the integer in it, and the instructions before it do not change it. -/
structure HoldsInt (s : State) (numRegs : Nat) (v : Value) (x : BitVec 64) : Prop where
  eval : s.evalInt v = some x
  below : ∀ r, v = .reg r → r < numRegs

theorem HoldsInt.setReg {s : State} {numRegs r : Nat} {v : Value} {x : BitVec 64}
    (h : HoldsInt s numRegs v x) (hr : numRegs ≤ r) (d : Datum) :
    HoldsInt (s.setReg r d) numRegs v x := by
  refine ⟨?_, h.below⟩
  rw [← h.eval]
  unfold State.evalInt State.eval State.setReg
  cases v with
  | constInt val => rfl
  | reg number =>
    have hlt := h.below number rfl
    simp only [Function.update_of_ne (show number ≠ r by omega)]

variable {s : State} {b : Builder} {x y : BitVec 64}

/-- To the end of a block that has only these instructions. -/
theorem star_block {blocks blocks' : Blocks Insn} (hext : Extends blocks' blocks) {b : Nat}
    {insns : List Insn} (hb : blocks' b = insns) {s' : State}
    (hrun : runInsns exec insns s = some (.next s')) :
    Star exec blocks (blockStart b) s (blockEnd blocks' b) s' := by
  have hend : blockEnd blocks' b = ⟨b, 0 + insns.length⟩ := by
    unfold blockEnd
    rw [hb, Nat.zero_add]
  rw [hend]
  exact star_next ((seg_start hb).mono hext) hrun

section Intrinsic

variable {scaffold : Scaffold} {insn : IntArithmeticInsn} {lhs rhs : Value} {b : Builder} {s : State}
  {x y : BitVec 64}

variable (scaffold insn lhs rhs) in
/-- The blocks of an operation that checks for overflow. -/
theorem buildIntrinsic_blocks (hb : Ready b) (name : IntrinsicFunctionName) :
    (built (buildIntrinsic scaffold name insn lhs rhs) b).current = b.numBlocks ∧
    (built (buildIntrinsic scaffold name insn lhs rhs) b).blocks b.current =
      b.blocks b.current ++ [.callIntrinsic b.numRegs name lhs rhs,
        .extractValue (b.numRegs + 1) (.reg b.numRegs) 1,
        .condBr (.reg (b.numRegs + 1)) (b.numBlocks + 1) b.numBlocks] ∧
    (built (buildIntrinsic scaffold name insn lhs rhs) b).blocks (b.numBlocks + 1) =
      [.callPanicConstruct (b.numRegs + 2)
          (.constInt (packPanic .arithmeticOverflow (scaffold.lineNumber insn.pos))),
        .store (.reg (b.numRegs + 2)) scaffold.panicAddress, .br scaffold.onPanic] ∧
    (built (buildIntrinsic scaffold name insn lhs rhs) b).blocks b.numBlocks =
      [.extractValue (b.numRegs + 3) (.reg b.numRegs) 0,
        .store (.reg (b.numRegs + 3)) insn.result] := by
  have hlt := hb.current_lt
  have hne : b.current ≠ b.numBlocks := by omega
  have hne' : b.current ≠ b.numBlocks + 1 := by omega
  have hfresh := hb.fresh b.numBlocks (Nat.le_refl _)
  have hfresh' := hb.fresh (b.numBlocks + 1) (by omega)
  unfold built
  refine ⟨rfl, ?_, ?_, ?_⟩
  all_goals
    simp [buildIntrinsic, buildErrorForConstPanic, callIntrinsic, addInsnWithResult, addInsn,
      addBasicBlock, condBr, extractValue, positionAtEnd, store, callPanicConstruct, br,
      buildStoreInt, hne, hne', hne.symm, hne'.symm, hfresh, hfresh']

/-- The panic that the builder emits into a block of its own. -/
theorem runInsns_panic (r addr onPanic : Nat) (packed : BitVec 64) (s : State) :
    runInsns exec [.callPanicConstruct r (.constInt packed), .store (.reg r) addr, .br onPanic] s =
      some (.jump onPanic ((s.setReg r (.error packed)).setMemory addr (.error packed))) := by
  rw [runInsns_next (exec_callPanicConstruct packed r),
    runInsns_next (exec_store (eval_setReg_self ..) addr), runInsns_jump (exec_br onPanic)]

variable {name : IntrinsicFunctionName}

/-- The branch is taken on the overflow flag. -/
theorem runInsns_intrinsic (hl : s.evalInt lhs = some x) (hr : s.evalInt rhs = some y) {v : BitVec 64}
    {overflow : Bool} (heval : name.eval x y = (v, overflow)) (r ifTrue ifFalse : Nat) :
    runInsns exec [.callIntrinsic r name lhs rhs, .extractValue (r + 1) (.reg r) 1,
        .condBr (.reg (r + 1)) ifTrue ifFalse] s =
      some (.jump (if overflow then ifTrue else ifFalse)
        ((s.setReg r (.intWithOverflow v overflow)).setReg (r + 1) (.i1 overflow))) := by
  rw [runInsns_next (exec_callIntrinsic hl hr heval r),
    runInsns_next (exec_extractValue (eval_setReg_self ..) rfl (r + 1)),
    runInsns_jump (exec_condBr (eval_setReg_self ..) ifTrue ifFalse)]

theorem runInsns_extract {v : BitVec 64} {overflow : Bool} {r r' : Nat}
    (hr : s.eval (.reg r) = some (.intWithOverflow v overflow)) (addr : Nat) :
    runInsns exec [.extractValue r' (.reg r) 0, .store (.reg r') addr] s =
      some (.next ((s.setReg r' (.i64 v)).setMemory addr (.i64 v))) := by
  rw [runInsns_next (exec_extractValue hr rfl r'),
    runInsns_next (exec_store (eval_setReg_self ..) addr)]
  rfl

theorem buildIntrinsic_stores (hb : Ready b) (hl : s.evalInt lhs = some x) (hr : s.evalInt rhs = some y)
    {n : Int} (heval : name.eval x y = (BitVec.ofInt 64 n, false)) :
    Stores insn.result (buildIntrinsic scaffold name insn lhs rhs) b s n := by
  intro blocks hext
  obtain ⟨hcurrent, htest, _, hcontinue⟩ := buildIntrinsic_blocks scaffold insn lhs rhs hb name
  have hreg : (((s.setReg b.numRegs (.intWithOverflow (BitVec.ofInt 64 n) false)).setReg
      (b.numRegs + 1) (.i1 false))).eval (.reg b.numRegs) =
      some (.intWithOverflow (BitVec.ofInt 64 n) false) := by
    rw [eval_setReg_of_ne (by omega), eval_setReg_self]
  rw [hcurrent]
  exact ⟨_, (star_jump ((seg_append htest).mono hext) (runInsns_intrinsic hl hr heval ..)).trans
    (star_block hext hcontinue (runInsns_extract hreg insn.result)), rfl⟩

theorem buildIntrinsic_panics (hb : Ready b) (hl : s.evalInt lhs = some x) (hr : s.evalInt rhs = some y)
    {v : BitVec 64} (heval : name.eval x y = (v, true)) :
    Panics scaffold insn.pos (buildIntrinsic scaffold name insn lhs rhs) b s
      .arithmeticOverflow := by
  intro blocks hext
  obtain ⟨_, htest, hpanic, _⟩ := buildIntrinsic_blocks scaffold insn lhs rhs hb name
  exact ⟨_, (star_jump ((seg_append htest).mono hext) (runInsns_intrinsic hl hr heval ..)).trans
    (star_jump ((seg_start hpanic).mono hext) (runInsns_panic ..)), rfl⟩

end Intrinsic

section Division

variable {scaffold : Scaffold} {insn : IntArithmeticInsn} {lhs rhs : Value} {b : Builder} {s : State}
  {x y : BitVec 64}

variable (scaffold insn lhs rhs b) in
/-- The blocks that `/` and `%` have in common. -/
structure DivisorChecks (blocks : Blocks Insn) : Prop where
  zeroTest : blocks b.current = b.blocks b.current ++ [.iCmpEq b.numRegs rhs (.constInt 0),
    .condBr (.reg b.numRegs) b.numBlocks (b.numBlocks + 1)]
  zeroDivisor : blocks b.numBlocks = [.callPanicConstruct (b.numRegs + 1)
      (.constInt (packPanic .divideByZero (scaffold.lineNumber insn.pos))),
    .store (.reg (b.numRegs + 1)) scaffold.panicAddress, .br scaffold.onPanic]
  minTest : blocks (b.numBlocks + 1) =
    [.iCmpEq (b.numRegs + 2) lhs (.constInt (BitVec.intMin 64)),
      .iCmpEq (b.numRegs + 3) rhs (.constInt (-1)),
      .iBitwiseAnd (b.numRegs + 4) (.reg (b.numRegs + 2)) (.reg (b.numRegs + 3)),
      .condBr (.reg (b.numRegs + 4)) (b.numBlocks + 3) (b.numBlocks + 2)]

variable (scaffold insn lhs rhs) in
/-- The blocks of a division. -/
theorem buildDiv_blocks (hb : Ready b) :
    DivisorChecks scaffold insn lhs rhs b (built (buildDiv scaffold insn lhs rhs) b).blocks ∧
    (built (buildDiv scaffold insn lhs rhs) b).blocks (b.numBlocks + 3) =
      [.callPanicConstruct (b.numRegs + 5)
          (.constInt (packPanic .arithmeticOverflow (scaffold.lineNumber insn.pos))),
        .store (.reg (b.numRegs + 5)) scaffold.panicAddress, .br scaffold.onPanic] ∧
    (built (buildDiv scaffold insn lhs rhs) b).blocks (b.numBlocks + 2) =
      [.iArithmeticSigned (b.numRegs + 6) .sdiv lhs rhs,
        .store (.reg (b.numRegs + 6)) insn.result] := by
  have hlt := hb.current_lt
  have hfresh := hb.fresh
  refine ⟨⟨?_, ?_, ?_⟩, ?_, ?_⟩
  all_goals
    simp only [built, buildDiv, buildDivisorChecks, buildErrorForConstPanic, iCmpEq, iBitwiseAnd,
      iArithmeticSigned, addInsnWithResult, addInsn, addBasicBlock, condBr, positionAtEnd, store,
      callPanicConstruct, br, buildStoreInt, StateT.run_bind, StateT.run_get, StateT.run_set,
      StateT.run_modify, StateT.run_pure, pure_bind, Id.run_pure]
    simp (disch := omega) only [pushInsn_of_eq, pushInsn_of_ne, hfresh, List.nil_append,
      List.cons_append, List.append_assoc]

variable (scaffold insn lhs rhs) in
/-- The blocks of a remainder: `-2^63 % -1` stores 0. -/
theorem buildRem_blocks (hb : Ready b) :
    DivisorChecks scaffold insn lhs rhs b (built (buildRem scaffold insn lhs rhs) b).blocks ∧
    (built (buildRem scaffold insn lhs rhs) b).blocks (b.numBlocks + 3) =
      [.store (.constInt 0) insn.result, .br (b.numBlocks + 4)] ∧
    (built (buildRem scaffold insn lhs rhs) b).blocks (b.numBlocks + 2) =
      [.iArithmeticSigned (b.numRegs + 5) .srem lhs rhs, .store (.reg (b.numRegs + 5)) insn.result,
        .br (b.numBlocks + 4)] ∧
    (built (buildRem scaffold insn lhs rhs) b).blocks (b.numBlocks + 4) = [] := by
  have hlt := hb.current_lt
  have hfresh := hb.fresh
  refine ⟨⟨?_, ?_, ?_⟩, ?_, ?_, ?_⟩
  all_goals
    simp only [built, buildRem, buildDivisorChecks, buildErrorForConstPanic, iCmpEq, iBitwiseAnd,
      iArithmeticSigned, addInsnWithResult, addInsn, addBasicBlock, condBr, positionAtEnd, store,
      callPanicConstruct, br, buildStoreInt, StateT.run_bind, StateT.run_get, StateT.run_set,
      StateT.run_modify, StateT.run_pure, pure_bind, Id.run_pure]
    simp (disch := omega) only [pushInsn_of_eq, pushInsn_of_ne, hfresh, List.nil_append,
      List.cons_append, List.append_assoc]

theorem runInsns_zeroTest (hr : s.evalInt rhs = some y) (r ifTrue ifFalse : Nat) :
    runInsns exec [.iCmpEq r rhs (.constInt 0), .condBr (.reg r) ifTrue ifFalse] s =
      some (.jump (if decide (y = 0) then ifTrue else ifFalse)
        (s.setReg r (.i1 (decide (y = 0))))) := by
  rw [runInsns_next (exec_iCmpEq hr (evalInt_constInt 0) r),
    runInsns_jump (exec_condBr (eval_setReg_self ..) ifTrue ifFalse)]

/-- The test for `-2^63` and `-1`. -/
theorem runInsns_minTest {k r : Nat} (hl : HoldsInt s k lhs x) (hr : HoldsInt s k rhs y)
    (hk : k ≤ r) (ifTrue ifFalse : Nat) :
    ∃ s', runInsns exec [.iCmpEq r lhs (.constInt (BitVec.intMin 64)),
        .iCmpEq (r + 1) rhs (.constInt (-1)), .iBitwiseAnd (r + 2) (.reg r) (.reg (r + 1)),
        .condBr (.reg (r + 2)) ifTrue ifFalse] s =
      some (.jump (if decide (x = BitVec.intMin 64) && decide (y = -1) then ifTrue else ifFalse)
        s') ∧
      s'.memory = s.memory ∧ HoldsInt s' k lhs x ∧ HoldsInt s' k rhs y := by
  have hr1 := hr.setReg hk (.i1 (decide (x = BitVec.intMin 64)))
  have hand : ∀ p q : Bool, ((s.setReg r (.i1 p)).setReg (r + 1) (.i1 q)).eval (.reg r) =
      some (.i1 p) := by
    intro p q
    rw [eval_setReg_of_ne (by omega), eval_setReg_self]
  refine ⟨((s.setReg r (.i1 (decide (x = BitVec.intMin 64)))).setReg (r + 1)
    (.i1 (decide (y = -1)))).setReg (r + 2)
    (.i1 (decide (x = BitVec.intMin 64) && decide (y = -1))), ?_, rfl,
    ((hl.setReg hk _).setReg (by omega) _).setReg (by omega) _,
    ((hr.setReg hk _).setReg (by omega) _).setReg (by omega) _⟩
  rw [runInsns_next (exec_iCmpEq hl.eval (evalInt_constInt _) r),
    runInsns_next (exec_iCmpEq hr1.eval (evalInt_constInt _) (r + 1)),
    runInsns_next (exec_iBitwiseAnd (hand _ _) (eval_setReg_self ..) (r + 2)),
    runInsns_jump (exec_condBr (eval_setReg_self ..) ifTrue ifFalse)]

theorem runInsns_signed {op : IntArithmeticSignedOp} {v : BitVec 64} (hl : s.evalInt lhs = some x)
    (hr : s.evalInt rhs = some y) (hop : op.eval x y = some v) (r addr : Nat) (insns : List Insn) :
    runInsns exec (.iArithmeticSigned r op lhs rhs :: .store (.reg r) addr :: insns) s =
      runInsns exec insns ((s.setReg r (.i64 v)).setMemory addr (.i64 v)) := by
  rw [runInsns_next (exec_iArithmeticSigned hl hr hop r),
    runInsns_next (exec_store (eval_setReg_self ..) addr)]

namespace DivisorChecks

variable {blocks' blocks : Blocks Insn}

/-- A divisor 0 panics. -/
theorem zero (h : DivisorChecks scaffold insn lhs rhs b blocks') (hext : Extends blocks' blocks)
    (hr : HoldsInt s b.numRegs rhs y) (hy : y = 0) :
    ∃ s', Star exec blocks (blockEnd b.blocks b.current) s (blockStart scaffold.onPanic) s' ∧
      s'.memory = Function.update s.memory scaffold.panicAddress
        (some (.error (packPanic .divideByZero (scaffold.lineNumber insn.pos)))) := by
  have htest := runInsns_zeroTest hr.eval b.numRegs b.numBlocks (b.numBlocks + 1)
  rw [decide_eq_true hy] at htest
  exact ⟨_, (star_jump ((seg_append h.zeroTest).mono hext) htest).trans
    (star_jump ((seg_start h.zeroDivisor).mono hext) (runInsns_panic ..)), rfl⟩

/-- Past the test for zero. -/
theorem nonzero (h : DivisorChecks scaffold insn lhs rhs b blocks') (hext : Extends blocks' blocks)
    (hl : HoldsInt s b.numRegs lhs x) (hr : HoldsInt s b.numRegs rhs y) (hy : y ≠ 0) :
    ∃ s', Star exec blocks (blockEnd b.blocks b.current) s
      (blockStart (if decide (x = BitVec.intMin 64) && decide (y = -1) then b.numBlocks + 3
        else b.numBlocks + 2)) s' ∧
      s'.memory = s.memory ∧ HoldsInt s' b.numRegs lhs x ∧ HoldsInt s' b.numRegs rhs y := by
  have htest := runInsns_zeroTest hr.eval b.numRegs b.numBlocks (b.numBlocks + 1)
  rw [decide_eq_false hy] at htest
  have hle := Nat.le_refl b.numRegs
  obtain ⟨s', hmin, hmemory, hl', hr'⟩ := runInsns_minTest (hl.setReg hle (.i1 false))
    (hr.setReg hle (.i1 false)) (show b.numRegs ≤ b.numRegs + 2 by omega) (b.numBlocks + 3)
    (b.numBlocks + 2)
  exact ⟨s', (star_jump ((seg_append h.zeroTest).mono hext) htest).trans
    (star_jump ((seg_start h.minTest).mono hext) hmin), hmemory, hl', hr'⟩

theorem overflow (h : DivisorChecks scaffold insn lhs rhs b blocks') (hext : Extends blocks' blocks)
    (hl : HoldsInt s b.numRegs lhs x) (hr : HoldsInt s b.numRegs rhs y)
    (hx : x = BitVec.intMin 64) (hy : y = -1) :
    ∃ s', Star exec blocks (blockEnd b.blocks b.current) s (blockStart (b.numBlocks + 3)) s' ∧
      s'.memory = s.memory := by
  have hne : y ≠ 0 := by
    rw [hy]
    decide
  obtain ⟨s', hstar, hmemory, _, _⟩ := h.nonzero hext hl hr hne
  rw [decide_eq_true hx, decide_eq_true hy] at hstar
  exact ⟨s', hstar, hmemory⟩

/-- Other operands reach the instruction. -/
theorem safe (h : DivisorChecks scaffold insn lhs rhs b blocks') (hext : Extends blocks' blocks)
    (hl : HoldsInt s b.numRegs lhs x) (hr : HoldsInt s b.numRegs rhs y) (hy : y ≠ 0)
    (hxy : ¬ (x = BitVec.intMin 64 ∧ y = -1)) :
    ∃ s', Star exec blocks (blockEnd b.blocks b.current) s (blockStart (b.numBlocks + 2)) s' ∧
      s'.memory = s.memory ∧ s'.evalInt lhs = some x ∧ s'.evalInt rhs = some y := by
  obtain ⟨s', hstar, hmemory, hl', hr'⟩ := h.nonzero hext hl hr hy
  have hfalse : (decide (x = BitVec.intMin 64) && decide (y = -1)) = false := by
    rw [← Bool.decide_and]
    exact decide_eq_false hxy
  rw [hfalse] at hstar
  exact ⟨s', hstar, hmemory, hl'.eval, hr'.eval⟩

end DivisorChecks

section Deliver

variable (hb : Ready b) (hl : HoldsInt s b.numRegs lhs x) (hr : HoldsInt s b.numRegs rhs y)

include hb hr in
theorem buildDiv_zero (hy : y = 0) :
    Panics scaffold insn.pos (buildDiv scaffold insn lhs rhs) b s .divideByZero :=
  fun _ hext => (buildDiv_blocks scaffold insn lhs rhs hb).1.zero hext hr hy

include hb hr in
theorem buildRem_zero (hy : y = 0) :
    Panics scaffold insn.pos (buildRem scaffold insn lhs rhs) b s .divideByZero :=
  fun _ hext => (buildRem_blocks scaffold insn lhs rhs hb).1.zero hext hr hy

include hb hl hr

theorem buildDiv_overflow (hx : x = BitVec.intMin 64) (hy : y = -1) :
    Panics scaffold insn.pos (buildDiv scaffold insn lhs rhs) b s .arithmeticOverflow := by
  intro blocks hext
  obtain ⟨hchecks, hpanic, _⟩ := buildDiv_blocks scaffold insn lhs rhs hb
  obtain ⟨s', hstar, hmemory⟩ := hchecks.overflow hext hl hr hx hy
  refine ⟨_, hstar.trans (star_jump ((seg_start hpanic).mono hext) (runInsns_panic ..)), ?_⟩
  rw [← hmemory]
  rfl

theorem buildDiv_stores (hy : y ≠ 0) (hxy : ¬ (x = BitVec.intMin 64 ∧ y = -1)) {n : Int}
    (hn : x.sdiv y = BitVec.ofInt 64 n) :
    Stores insn.result (buildDiv scaffold insn lhs rhs) b s n := by
  intro blocks hext
  obtain ⟨hchecks, _, hcontinue⟩ := buildDiv_blocks scaffold insn lhs rhs hb
  obtain ⟨s', hstar, hmemory, hl', hr'⟩ := hchecks.safe hext hl hr hy hxy
  have hop : IntArithmeticSignedOp.eval x y .sdiv = some (BitVec.ofInt 64 n) := by
    unfold IntArithmeticSignedOp.eval
    rw [if_neg fun h => h.elim hy hxy, hn]
  refine ⟨_, hstar.trans (star_block hext hcontinue (runInsns_signed hl' hr' hop _ _ [])), ?_⟩
  rw [← hmemory]
  rfl

theorem buildRem_overflow (hx : x = BitVec.intMin 64) (hy : y = -1) :
    Stores insn.result (buildRem scaffold insn lhs rhs) b s 0 := by
  intro blocks hext
  obtain ⟨hchecks, hzero, _, hjoin⟩ := buildRem_blocks scaffold insn lhs rhs hb
  obtain ⟨s', hstar, hmemory⟩ := hchecks.overflow hext hl hr hx hy
  have hend : blockEnd (built (buildRem scaffold insn lhs rhs) b).blocks
      (built (buildRem scaffold insn lhs rhs) b).current = blockStart (b.numBlocks + 4) :=
    blockEnd_of_nil hjoin
  have hrun : runInsns exec [.store (.constInt 0) insn.result, .br (b.numBlocks + 4)] s' =
      some (.jump (b.numBlocks + 4) (s'.setMemory insn.result (.i64 0))) := by
    rw [runInsns_next (exec_store rfl _), runInsns_jump (exec_br _)]
  rw [hend]
  refine ⟨_, hstar.trans (star_jump ((seg_start hzero).mono hext) hrun), ?_⟩
  rw [← hmemory]
  rfl

theorem buildRem_stores (hy : y ≠ 0) (hxy : ¬ (x = BitVec.intMin 64 ∧ y = -1)) {n : Int}
    (hn : x.srem y = BitVec.ofInt 64 n) :
    Stores insn.result (buildRem scaffold insn lhs rhs) b s n := by
  intro blocks hext
  obtain ⟨hchecks, _, hcontinue, hjoin⟩ := buildRem_blocks scaffold insn lhs rhs hb
  obtain ⟨s', hstar, hmemory, hl', hr'⟩ := hchecks.safe hext hl hr hy hxy
  have hop : IntArithmeticSignedOp.eval x y .srem = some (BitVec.ofInt 64 n) := by
    unfold IntArithmeticSignedOp.eval
    rw [if_neg fun h => h.elim hy hxy, hn]
  have hend : blockEnd (built (buildRem scaffold insn lhs rhs) b).blocks
      (built (buildRem scaffold insn lhs rhs) b).current = blockStart (b.numBlocks + 4) :=
    blockEnd_of_nil hjoin
  have hrun := (runInsns_signed hl' hr' hop (b.numRegs + 5) insn.result [.br (b.numBlocks + 4)]).trans
    (runInsns_jump (exec_br _))
  rw [hend]
  refine ⟨_, hstar.trans (star_jump ((seg_start hcontinue).mono hext) hrun), ?_⟩
  rw [← hmemory]
  rfl

end Deliver

end Division

/-! ## Operands -/

/-- Code that only appends to blocks. -/
structure Grows {α : Type} (m : BuildM α) : Prop where
  ext : ∀ b, Extends b.blocks (built m b).blocks

section Grows

variable {α β : Type}

/-- Building only adds to the blocks. -/
theorem Grows.bind {m : BuildM α} {f : α → BuildM β} (hm : Grows m) (hf : ∀ a, Grows (f a)) :
    Grows (m >>= f) :=
  ⟨fun b => (hm.ext b).trans ((hf _).ext _)⟩

theorem grows_pure (a : α) : Grows (pure a : BuildM α) := ⟨fun b => Extends.refl b.blocks⟩

theorem grows_addInsn (insn : Insn) : Grows (addInsn insn) :=
  ⟨fun b => extends_pushInsn b.blocks b.current insn⟩

theorem grows_addInsnWithResult (insn : Nat → Insn) : Grows (addInsnWithResult insn) :=
  ⟨fun b => extends_pushInsn b.blocks b.current (insn b.numRegs)⟩

theorem grows_addBasicBlock : Grows addBasicBlock := ⟨fun b => Extends.refl b.blocks⟩

theorem grows_positionAtEnd (block : Nat) : Grows (positionAtEnd block) :=
  ⟨fun b => Extends.refl b.blocks⟩

/-- The panic that ends a block. -/
theorem grows_panic {scaffold : Scaffold} {panicIndex : PanicIndex} {pos : Int} {m : BuildM α}
    (hm : Grows m) :
    Grows (do
      store (← buildErrorForConstPanic scaffold panicIndex pos) scaffold.panicAddress
      br scaffold.onPanic
      m) := by
  unfold buildErrorForConstPanic callPanicConstruct
  refine (grows_addInsnWithResult _).bind fun _ => ?_
  exact (grows_addInsn _).bind fun _ => (grows_addInsn _).bind fun _ => hm

theorem grows_buildIntrinsic (scaffold : Scaffold) (name : IntrinsicFunctionName)
    (insn : IntArithmeticInsn) (lhs rhs : Value) :
    Grows (buildIntrinsic scaffold name insn lhs rhs) := by
  unfold buildIntrinsic
  refine (grows_addInsnWithResult _).bind fun _ => ?_
  refine grows_addBasicBlock.bind fun _ => grows_addBasicBlock.bind fun _ => ?_
  refine (grows_addInsnWithResult _).bind fun _ => (grows_addInsn _).bind fun _ => ?_
  refine (grows_positionAtEnd _).bind fun _ => grows_panic ?_
  refine (grows_positionAtEnd _).bind fun _ => ?_
  exact (grows_addInsnWithResult _).bind fun _ => grows_addInsn _

theorem grows_buildDivisorChecks (scaffold : Scaffold) (insn : IntArithmeticInsn)
    (lhs rhs : Value) : Grows (buildDivisorChecks scaffold insn lhs rhs) := by
  unfold buildDivisorChecks
  refine grows_addBasicBlock.bind fun _ => grows_addBasicBlock.bind fun _ => ?_
  refine (grows_addInsnWithResult _).bind fun _ => (grows_addInsn _).bind fun _ => ?_
  refine (grows_positionAtEnd _).bind fun _ => grows_panic ?_
  refine (grows_positionAtEnd _).bind fun _ => ?_
  refine grows_addBasicBlock.bind fun _ => grows_addBasicBlock.bind fun _ => ?_
  refine (grows_addInsnWithResult _).bind fun _ => (grows_addInsnWithResult _).bind fun _ => ?_
  refine (grows_addInsnWithResult _).bind fun _ => ?_
  exact (grows_addInsn _).bind fun _ => grows_pure _

theorem grows_buildDiv (scaffold : Scaffold) (insn : IntArithmeticInsn) (lhs rhs : Value) :
    Grows (buildDiv scaffold insn lhs rhs) := by
  unfold buildDiv
  refine (grows_buildDivisorChecks scaffold insn lhs rhs).bind fun _ => ?_
  refine (grows_positionAtEnd _).bind fun _ => grows_panic ?_
  refine (grows_positionAtEnd _).bind fun _ => ?_
  exact (grows_addInsnWithResult _).bind fun _ => grows_addInsn _

theorem grows_buildRem (scaffold : Scaffold) (insn : IntArithmeticInsn) (lhs rhs : Value) :
    Grows (buildRem scaffold insn lhs rhs) := by
  unfold buildRem
  refine (grows_buildDivisorChecks scaffold insn lhs rhs).bind fun _ => ?_
  refine (grows_positionAtEnd _).bind fun _ => (grows_addInsn _).bind fun _ => ?_
  refine grows_addBasicBlock.bind fun _ => (grows_addInsn _).bind fun _ => ?_
  refine (grows_positionAtEnd _).bind fun _ => (grows_addInsnWithResult _).bind fun _ => ?_
  refine (grows_addInsn _).bind fun _ => (grows_addInsn _).bind fun _ => ?_
  exact grows_positionAtEnd _

end Grows

/-- The operand is the integer: a constant, or a register with it in memory. -/
def OperandIs (memory : Nat → Option Datum) (x : BitVec 64) : IntOperand → Prop
  | .const value _ => value = x.toInt
  | .register number _ => memory number = some (.i64 x)

/-- An operand has been loaded, if it is in memory. -/
structure Loaded (b b' : Builder) (s s' : State) (v : Value) (x : BitVec 64) : Prop where
  ready : Ready b'
  ext : Extends b.blocks b'.blocks
  star : Star exec b'.blocks (blockEnd b.blocks b.current) s (blockEnd b'.blocks b'.current) s'
  memory : s'.memory = s.memory
  holds : HoldsInt s' b'.numRegs v x
  keeps : ∀ w z, HoldsInt s b.numRegs w z → HoldsInt s' b'.numRegs w z

/-- An operand is loaded, or is a constant. -/
theorem buildInt_spec (hb : Ready b) {o : IntOperand} (ho : OperandIs s.memory x o) :
    ∃ s', Loaded b (built (buildInt o) b) s s' ((buildInt o).run b).run.1 x := by
  cases o with
  | const value semType =>
    refine ⟨s, hb, Extends.refl _, Star.refl _ _, rfl, ⟨?_, ?_⟩, fun w z h => h⟩
    · have hvalue : value = x.toInt := ho
      rw [hvalue]
      exact (evalInt_constInt _).trans (congrArg some BitVec.ofInt_toInt)
    · intro r hr
      cases hr
  | register number semType =>
    have hread : s.memory number = some (.i64 x) := ho
    have hlt := hb.current_lt
    refine ⟨s.setReg b.numRegs (.i64 x), ⟨hb.current_lt, ?_⟩, fun c => extends_pushInsn _ _ _ c, ?_, rfl,
      ⟨?_, ?_⟩, ?_⟩
    · intro n hn
      show pushInsn b.blocks b.current _ n = []
      rw [pushInsn_of_ne _ (show n ≠ b.current by have : b.numBlocks ≤ n := hn; omega)]
      exact hb.fresh n hn
    · have hrun : runInsns exec [.load b.numRegs number] s =
          some (.next (s.setReg b.numRegs (.i64 x))) :=
        runInsns_next (exec_load hread b.numRegs)
      exact star_append (pushInsn_self b.blocks b.current (.load b.numRegs number)) hrun
    · show State.evalInt _ (.reg b.numRegs) = some x
      unfold State.evalInt
      rw [eval_setReg_self]
    · intro r hr
      cases hr
      exact Nat.lt_succ_self _
    · intro w z h
      have hset := h.setReg (Nat.le_refl _) (.i64 x)
      exact ⟨hset.eval, fun r hr => Nat.lt_succ_of_lt (h.below r hr)⟩

/-- Both operands, and then the operation. -/
def withOperands (lhs rhs : IntOperand) (k : Value → Value → BuildM Unit) : BuildM Unit := do
  let lhs ← buildInt lhs
  let rhs ← buildInt rhs
  k lhs rhs

/-- Loading the operands does not change what is delivered. -/
theorem withOperands_delivers {scaffold : Scaffold} {insn : IntArithmeticInsn}
    {k : Value → Value → BuildM Unit} (hk : ∀ v w, Grows (k v w)) (hb : Ready b) {lhs rhs : IntOperand}
    (hl : OperandIs s.memory x lhs) (hr : OperandIs s.memory y rhs) {r : Except PanicIndex Int}
    (hdeliver : ∀ b' s' v w, Ready b' → HoldsInt s' b'.numRegs v x → HoldsInt s' b'.numRegs w y →
      Delivers scaffold insn (k v w) b' s' r) :
    Delivers scaffold insn (withOperands lhs rhs k) b s r := by
  obtain ⟨s1, h1⟩ := buildInt_spec hb hl
  rw [← h1.memory] at hr
  obtain ⟨s2, h2⟩ := buildInt_spec h1.ready hr
  have hmemory := h2.memory.trans h1.memory
  have hafter := hdeliver _ s2 _ _ h2.ready (h2.keeps _ _ h1.holds) h2.holds
  have hgrows := (hk ((buildInt lhs).run b).run.1
    ((buildInt rhs).run (built (buildInt lhs) b)).run.1).ext
    (built (buildInt rhs) (built (buildInt lhs) b))
  -- the loads run first, whatever comes after them
  have hstar : ∀ blocks, Extends (built (withOperands lhs rhs k) b).blocks blocks →
      Star exec blocks (blockEnd b.blocks b.current) s
        (blockEnd (built (buildInt rhs) (built (buildInt lhs) b)).blocks
          (built (buildInt rhs) (built (buildInt lhs) b)).current) s2 := by
    intro blocks hext
    have hext2 := hgrows.trans hext
    exact (h1.star.mono (h2.ext.trans hext2)).trans (h2.star.mono hext2)
  cases r with
  | ok n =>
    intro blocks hext
    obtain ⟨s', hrun, hstored⟩ := hafter blocks hext
    rw [hmemory] at hstored
    exact ⟨s', (hstar blocks hext).trans hrun, hstored⟩
  | error p =>
    intro blocks hext
    obtain ⟨s', hrun, hstored⟩ := hafter blocks hext
    rw [hmemory] at hstored
    exact ⟨s', (hstar blocks hext).trans hrun, hstored⟩

/-! ## Exact results -/

theorem toInt_range (x : BitVec 64) : Types.intMinValue ≤ x.toInt ∧ x.toInt ≤ Types.intMaxValue := by
  have hle := x.le_toInt
  have hlt := x.toInt_lt
  unfold Types.intMinValue Types.intMaxValue
  omega

/-- What an intrinsic computes, apart from overflow. -/
def exactOf (a b : Int) : IntrinsicFunctionName → Int
  | .saddWithOverflow => a + b
  | .ssubWithOverflow => a - b
  | .smulWithOverflow => a * b

/-- The flag is set if and only if the exact result does not fit. -/
theorem eval_overflow_iff (name : IntrinsicFunctionName) (x y : BitVec 64) :
    (name.eval x y).2 = true ↔ ¬ (Types.intMinValue ≤ exactOf x.toInt y.toInt name ∧
      exactOf x.toInt y.toInt name ≤ Types.intMaxValue) := by
  unfold Types.intMinValue Types.intMaxValue
  cases name with
  | saddWithOverflow =>
    simp only [IntrinsicFunctionName.eval, BitVec.saddOverflow, exactOf, Bool.or_eq_true,
      decide_eq_true_eq]
    omega
  | ssubWithOverflow =>
    simp only [IntrinsicFunctionName.eval, BitVec.ssubOverflow, exactOf, Bool.or_eq_true,
      decide_eq_true_eq]
    omega
  | smulWithOverflow =>
    simp only [IntrinsicFunctionName.eval, BitVec.smulOverflow, exactOf, Bool.or_eq_true,
      decide_eq_true_eq]
    omega

/-- Without overflow the result is exact. -/
theorem eval_exact {name : IntrinsicFunctionName} (h : (name.eval x y).2 = false) :
    name.eval x y = (BitVec.ofInt 64 (exactOf x.toInt y.toInt name), false) := by
  refine Prod.ext ?_ h
  cases name with
  | saddWithOverflow =>
    have hnot : ¬ BitVec.saddOverflow x y = true := Bool.eq_false_iff.mp h
    show x + y = BitVec.ofInt 64 (x.toInt + y.toInt)
    rw [← BitVec.toInt_add_of_not_saddOverflow hnot, BitVec.ofInt_toInt]
  | ssubWithOverflow =>
    have hnot : ¬ BitVec.ssubOverflow x y = true := Bool.eq_false_iff.mp h
    show x - y = BitVec.ofInt 64 (x.toInt - y.toInt)
    rw [← BitVec.toInt_sub_of_not_ssubOverflow hnot, BitVec.ofInt_toInt]
  | smulWithOverflow =>
    have hnot : ¬ BitVec.smulOverflow x y = true := Bool.eq_false_iff.mp h
    show x * y = BitVec.ofInt 64 (x.toInt * y.toInt)
    rw [← BitVec.toInt_mul_of_not_smulOverflow hnot, BitVec.ofInt_toInt]

/-- Division truncates, as in the language. -/
theorem sdiv_exact (h : ¬ (x = BitVec.intMin 64 ∧ y = -1)) :
    x.sdiv y = BitVec.ofInt 64 (x.toInt.tdiv y.toInt) := by
  rw [← BitVec.toInt_sdiv_of_ne_or_ne x y (Decidable.not_and_iff_not_or_not.mp h),
    BitVec.ofInt_toInt]

theorem srem_exact (x y : BitVec 64) : x.srem y = BitVec.ofInt 64 (x.toInt.tmod y.toInt) := by
  rw [← BitVec.toInt_srem, BitVec.ofInt_toInt]

theorem toInt_eq_zero_iff : y.toInt = 0 ↔ y = 0 := by
  refine ⟨fun h => BitVec.eq_of_toInt_eq h, fun h => ?_⟩
  rw [h]
  rfl

section Exact

variable {scaffold : Scaffold} {insn : IntArithmeticInsn} {lhs rhs : Value} {b : Builder} {s : State}
  {x y : BitVec 64}

theorem buildIntrinsic_delivers (hb : Ready b) (name : IntrinsicFunctionName)
    (hl : HoldsInt s b.numRegs lhs x) (hr : HoldsInt s b.numRegs rhs y) :
    Delivers scaffold insn (buildIntrinsic scaffold name insn lhs rhs) b s
      (fitsInt (exactOf x.toInt y.toInt name)) := by
  unfold fitsInt
  split
  next hfits =>
    have hfalse : (name.eval x y).2 = false := by
      rw [Bool.eq_false_iff]
      exact fun htrue => (eval_overflow_iff name x y).mp htrue hfits
    exact buildIntrinsic_stores hb hl.eval hr.eval (eval_exact hfalse)
  next hfits =>
    have htrue := (eval_overflow_iff name x y).mpr hfits
    exact buildIntrinsic_panics hb hl.eval hr.eval (Prod.ext rfl htrue)

/-- Division by 0 and `-2^63 / -1` panic. -/
theorem buildDiv_delivers (hb : Ready b) (hl : HoldsInt s b.numRegs lhs x)
    (hr : HoldsInt s b.numRegs rhs y) :
    Delivers scaffold insn (buildDiv scaffold insn lhs rhs) b s
      (exactArithmetic .div x.toInt y.toInt) := by
  unfold exactArithmetic fitsInt
  dsimp only
  split
  next hzero => exact buildDiv_zero hb hr (toInt_eq_zero_iff.mp hzero)
  next hzero =>
    have hy : y ≠ 0 := fun h => hzero (toInt_eq_zero_iff.mpr h)
    by_cases hxy : x = BitVec.intMin 64 ∧ y = -1
    · rw [if_neg]
      · exact buildDiv_overflow hb hl hr hxy.1 hxy.2
      · rw [hxy.1, hxy.2]
        decide
    · have hrange := toInt_range (x.sdiv y)
      rw [BitVec.toInt_sdiv_of_ne_or_ne x y (Decidable.not_and_iff_not_or_not.mp hxy)] at hrange
      rw [if_pos hrange]
      exact buildDiv_stores hb hl hr hy hxy (sdiv_exact hxy)

theorem buildRem_delivers (hb : Ready b) (hl : HoldsInt s b.numRegs lhs x)
    (hr : HoldsInt s b.numRegs rhs y) :
    Delivers scaffold insn (buildRem scaffold insn lhs rhs) b s
      (exactArithmetic .rem x.toInt y.toInt) := by
  unfold exactArithmetic
  dsimp only
  split
  next hzero => exact buildRem_zero hb hr (toInt_eq_zero_iff.mp hzero)
  next hzero =>
    have hy : y ≠ 0 := fun h => hzero (toInt_eq_zero_iff.mpr h)
    by_cases hxy : x = BitVec.intMin 64 ∧ y = -1
    · have hmod : x.toInt.tmod y.toInt = 0 := by
        rw [hxy.1, hxy.2]
        decide
      rw [hmod]
      exact buildRem_overflow hb hl hr hxy.1 hxy.2
    · exact buildRem_stores hb hl hr hy hxy (srem_exact x y)

end Exact

/-- The instruction that may panic does exactly what it should. -/
theorem buildArithmeticBinary_delivers (scaffold : Scaffold) (insn : IntArithmeticInsn) (hb : Ready b)
    (hl : OperandIs s.memory x insn.lhs) (hr : OperandIs s.memory y insn.rhs) :
    Delivers scaffold insn (buildArithmeticBinary scaffold insn) b s
      (exactArithmetic insn.op x.toInt y.toInt) := by
  have hop : ∀ v w, Grows (match buildBinaryIntIntrinsic insn.op with
      | some name => buildIntrinsic scaffold name insn v w
      | none =>
        if insn.op = .div then buildDiv scaffold insn v w else buildRem scaffold insn v w) := by
    intro v w
    split
    next => exact grows_buildIntrinsic ..
    next =>
      split
      next => exact grows_buildDiv ..
      next => exact grows_buildRem ..
  refine withOperands_delivers hop hb hl hr fun b' s' v w hb' hv hw => ?_
  cases hinsn : insn.op with
  | add => exact buildIntrinsic_delivers hb' .saddWithOverflow hv hw
  | sub => exact buildIntrinsic_delivers hb' .ssubWithOverflow hv hw
  | mul => exact buildIntrinsic_delivers hb' .smulWithOverflow hv hw
  | div => exact buildDiv_delivers hb' hv hw
  | rem => exact buildRem_delivers hb' hv hw

/-! ## The instruction that cannot panic -/

theorem natAbs_le_of_signed32 {a : Int} (h : (⟨SIGNED32_MIN_VALUE, SIGNED32_MAX_VALUE⟩ :
    Types.Range).Has a) : a.natAbs ≤ 2147483648 := by
  have hlower : SIGNED32_MIN_VALUE ≤ a := h.1
  have hupper : a ≤ SIGNED32_MAX_VALUE := h.2
  unfold SIGNED32_MIN_VALUE at hlower
  unfold SIGNED32_MAX_VALUE at hupper
  omega

/-- The intrinsic that says whether an operation overflows. -/
def intrinsicOf : IntArithmeticOp → IntrinsicFunctionName
  | .add => .saddWithOverflow
  | .sub => .ssubWithOverflow
  | .mul => .smulWithOverflow

theorem evalNoWrap_eq (op : IntArithmeticOp) (x y : BitVec 64) :
    op.evalNoWrap x y =
      if ((intrinsicOf op).eval x y).2 then none else some ((intrinsicOf op).eval x y).1 := by
  cases op <;> rfl

/-- A result that fits is no poison. -/
theorem evalNoWrap_fits {op : IntArithmeticOp}
    (h : Types.intMinValue ≤ exactOf x.toInt y.toInt (intrinsicOf op) ∧
      exactOf x.toInt y.toInt (intrinsicOf op) ≤ Types.intMaxValue) :
    op.evalNoWrap x y = some (BitVec.ofInt 64 (exactOf x.toInt y.toInt (intrinsicOf op))) := by
  have hfalse : ((intrinsicOf op).eval x y).2 = false := by
    rw [Bool.eq_false_iff]
    exact fun htrue => (eval_overflow_iff _ x y).mp htrue h
  rw [evalNoWrap_eq, eval_exact hfalse]
  rfl

/-- Between the bounds, the exact result fits. -/
theorem evalNoWrap_exact {op : ArithmeticBinaryOp} {r : Types.Range} (hrange : noPanicRange op = some r)
    (hx : r.Has x.toInt) (hy : r.Has y.toInt) :
    ∃ llop n, intArithmeticOps op = some llop ∧ exactArithmetic op x.toInt y.toInt = .ok n ∧
      llop.evalNoWrap x y = some (BitVec.ofInt 64 n) := by
  have hfits : ∀ n : Int, -4611686018427387904 ≤ n ∧ n ≤ 4611686018427387904 →
      Types.intMinValue ≤ n ∧ n ≤ Types.intMaxValue := by
    intro n hn
    unfold Types.intMinValue Types.intMaxValue
    omega
  cases op with
  | add =>
    cases hrange
    have hl : SIGNED32_MIN_VALUE ≤ x.toInt ∧ x.toInt ≤ UNSIGNED32_MAX_VALUE := hx
    have hr : SIGNED32_MIN_VALUE ≤ y.toInt ∧ y.toInt ≤ UNSIGNED32_MAX_VALUE := hy
    unfold SIGNED32_MIN_VALUE UNSIGNED32_MAX_VALUE at hl hr
    have hsum := hfits (x.toInt + y.toInt) (by omega)
    exact ⟨.add, x.toInt + y.toInt, rfl, if_pos hsum, evalNoWrap_fits hsum⟩
  | sub =>
    cases hrange
    have hl : SIGNED32_MIN_VALUE ≤ x.toInt ∧ x.toInt ≤ UNSIGNED32_MAX_VALUE := hx
    have hr : SIGNED32_MIN_VALUE ≤ y.toInt ∧ y.toInt ≤ UNSIGNED32_MAX_VALUE := hy
    unfold SIGNED32_MIN_VALUE UNSIGNED32_MAX_VALUE at hl hr
    have hdiff := hfits (x.toInt - y.toInt) (by omega)
    exact ⟨.sub, x.toInt - y.toInt, rfl, if_pos hdiff, evalNoWrap_fits hdiff⟩
  | mul =>
    cases hrange
    have habs : (x.toInt * y.toInt).natAbs ≤ 2147483648 * 2147483648 := by
      rw [Int.natAbs_mul]
      exact Nat.mul_le_mul (natAbs_le_of_signed32 hx) (natAbs_le_of_signed32 hy)
    have hprod := hfits (x.toInt * y.toInt) (by omega)
    exact ⟨.mul, x.toInt * y.toInt, rfl, if_pos hprod, evalNoWrap_fits hprod⟩
  | div => cases hrange
  | rem => cases hrange

/-- Operands in small ranges need no check for overflow. -/
theorem buildNoPanicArithmeticBinary_delivers (scaffold : Scaffold) (insn : IntArithmeticInsn)
    {r : Types.Range} (hrange : noPanicRange insn.op = some r) (hb : Ready b) (hx : r.Has x.toInt)
    (hy : r.Has y.toInt) (hl : OperandIs s.memory x insn.lhs) (hr : OperandIs s.memory y insn.rhs) :
    ∃ m, buildNoPanicArithmeticBinary insn = some m ∧
      Delivers scaffold insn m b s (exactArithmetic insn.op x.toInt y.toInt) := by
  obtain ⟨llop, n, hop, hexact, heval⟩ := evalNoWrap_exact hrange hx hy
  rw [hexact]
  unfold buildNoPanicArithmeticBinary
  rw [hop]
  refine ⟨_, rfl, ?_⟩
  have hgrows : ∀ v w, Grows (do
      let result ← iArithmeticNoWrap llop v w
      buildStoreInt result insn.result) :=
    fun v w => (grows_addInsnWithResult _).bind fun _ => grows_addInsn _
  refine withOperands_delivers hgrows hb hl hr fun b' s' v w hb' hv hw blocks hext => ?_
  have hblock : pushInsn (pushInsn b'.blocks b'.current (.iArithmeticNoWrap b'.numRegs llop v w))
      b'.current (.store (.reg b'.numRegs) insn.result) b'.current = b'.blocks b'.current ++
      [.iArithmeticNoWrap b'.numRegs llop v w, .store (.reg b'.numRegs) insn.result] := by
    rw [pushInsn_self, pushInsn_self, List.append_assoc]
    rfl
  have hrun : runInsns exec [.iArithmeticNoWrap b'.numRegs llop v w,
      .store (.reg b'.numRegs) insn.result] s' = some (.next _) :=
    (runInsns_next (exec_iArithmeticNoWrap hv.eval hw.eval heval b'.numRegs)).trans
      (runInsns_next (exec_store (eval_setReg_self ..) insn.result))
  exact ⟨_, (star_append hblock hrun).mono hext, rfl⟩

/-! ## Front end and back end together -/

/-- What the front end has returned does what the exact result says: a constant, an instruction
whose code delivers the result, or an error at compile time in place of a panic. -/
inductive Compiled (scaffold : Scaffold) (b : Builder) (s : State) (known : Prop) :
    Except CodeGenError ExprEffect → Except PanicIndex Int → Prop where
  | const {value : Int} {semType : Types.SemType} : HasValue (.const value semType) value →
      Compiled scaffold b s known (.ok ⟨.const value semType, none⟩) (.ok value)
  | insn (insn : IntArithmeticInsn) {m : BuildM Unit} {r : Except PanicIndex Int} :
      buildIntArithmetic scaffold insn = some m → Delivers scaffold insn m b s r →
      Compiled scaffold b s known (.ok ⟨.register insn.result (.bits Types.INT), some insn⟩) r
  | error {message : String} {pos : Int} {p : PanicIndex} : known →
      Compiled scaffold b s known (.error (.semantic message pos)) (.error p)

/-- An operand with a 64-bit integer in it that is of its type. -/
structure Holds (memory : Nat → Option Datum) (x : BitVec 64) (operand : IntOperand) : Prop where
  is : OperandIs memory x operand
  hasInt : HasInt operand.semType x.toInt

theorem Holds.hasValue {memory : Nat → Option Datum} {operand : IntOperand} (h : Holds memory x operand) :
    HasValue operand x.toInt where
  hasInt := h.hasInt
  const := fun value semType heq => by
    have his := h.is
    rw [heq] at his
    exact his

/-- The arithmetic that the compiler does is exact. -/
theorem trappedIntArithmeticEval_exact (op : ArithmeticBinaryOp) (x y : BitVec 64) :
    (∀ n, trappedIntArithmeticEval op x.toInt y.toInt = some n →
      exactArithmetic op x.toInt y.toInt = .ok n ∧
        (Types.intMinValue ≤ n ∧ n ≤ Types.intMaxValue)) ∧
    (trappedIntArithmeticEval op x.toInt y.toInt = none →
      ∃ p, exactArithmetic op x.toInt y.toInt = .error p) := by
  have hfit : ∀ n, (∀ m, fitInt n = some m → fitsInt n = .ok m ∧
      (Types.intMinValue ≤ m ∧ m ≤ Types.intMaxValue)) ∧
      (fitInt n = none → ∃ p, fitsInt n = .error p) := by
    intro n
    unfold fitInt fitsInt
    split
    next h =>
      refine ⟨fun m hm => ?_, (fun hnone => by cases hnone)⟩
      cases hm
      exact ⟨rfl, h⟩
    next => exact ⟨(fun m hm => by cases hm), fun _ => ⟨_, rfl⟩⟩
  cases op with
  | add => exact hfit _
  | sub => exact hfit _
  | mul => exact hfit _
  | div =>
    unfold trappedIntArithmeticEval exactArithmetic
    dsimp only
    split
    next => exact ⟨(fun m hm => by cases hm), fun _ => ⟨_, rfl⟩⟩
    next => exact hfit _
  | rem =>
    unfold trappedIntArithmeticEval exactArithmetic
    dsimp only
    split
    next => exact ⟨(fun m hm => by cases hm), fun _ => ⟨_, rfl⟩⟩
    next =>
      have hrange := toInt_range (x.srem y)
      rw [BitVec.toInt_srem] at hrange
      unfold fitInt
      rw [if_pos hrange]
      refine ⟨fun m hm => ?_, (fun hnone => by cases hnone)⟩
      cases hm
      exact ⟨rfl, hrange⟩

section Compiled

variable (scaffold : Scaffold) {b : Builder} (hb : Ready b) {s : State}

include hb

/-- Constants are folded, the rest is computed when the code runs. -/
theorem codeGenArithmeticBinaryExpr_compiled (op : ArithmeticBinaryOp) (pos : Int)
    {lhs rhs : IntOperand} (result : Nat) {x y : BitVec 64} (hl : Holds s.memory x lhs)
    (hr : Holds s.memory y rhs) :
    Compiled scaffold b s (Known lhs ∧ Known rhs)
      (codeGenArithmeticBinaryExpr op pos lhs rhs result)
      (exactArithmetic op x.toInt y.toInt) := by
  obtain ⟨leftVal, leftFlags, hleft, hleftVal⟩ := intOperandValue_spec hl.hasValue
  obtain ⟨rightVal, rightFlags, hright, hrightVal⟩ := intOperandValue_spec hr.hasValue
  by_cases hflags : leftFlags &&& rightFlags ≠ 0
  · have hcode : codeGenArithmeticBinaryExpr op pos lhs rhs result = (do
        let value ← intArithmeticEval pos op leftVal rightVal
        return ⟨constOperand value (leftFlags &&& rightFlags), none⟩) := by
      unfold codeGenArithmeticBinaryExpr
      rw [hleft, hright]
      exact if_pos hflags
    have hleftFlags : leftFlags ≠ 0 := fun h => hflags (by rw [h]; exact BitVec.zero_and)
    have hrightFlags : rightFlags ≠ 0 := fun h => hflags (by rw [h]; exact BitVec.and_zero)
    rw [hcode, (hleftVal hleftFlags).1, (hrightVal hrightFlags).1]
    obtain ⟨hsome, hnone⟩ := trappedIntArithmeticEval_exact op x y
    unfold intArithmeticEval
    cases heval : trappedIntArithmeticEval op x.toInt y.toInt with
    | some n =>
      obtain ⟨hexact, hrange⟩ := hsome n heval
      rw [hexact]
      exact .const (hasValue_constOperand hrange _)
    | none =>
      obtain ⟨p, hexact⟩ := hnone heval
      rw [hexact]
      exact .error ⟨(hleftVal hleftFlags).2, (hrightVal hrightFlags).2⟩
  · obtain ⟨never, hnever, hrange⟩ := intArithmeticOpNeverPanics_spec op hl.hasInt hr.hasInt
    have hcode : codeGenArithmeticBinaryExpr op pos lhs rhs result =
        .ok ⟨.register result (.bits Types.INT), some ⟨never, op, pos, lhs, rhs, result⟩⟩ := by
      unfold codeGenArithmeticBinaryExpr
      rw [hleft, hright]
      refine (if_neg hflags).trans ?_
      rw [hnever]
      rfl
    rw [hcode]
    cases never with
    | false =>
      refine .insn ⟨false, op, pos, lhs, rhs, result⟩ rfl ?_
      exact buildArithmeticBinary_delivers scaffold ⟨false, op, pos, lhs, rhs, result⟩ hb hl.is hr.is
    | true =>
      obtain ⟨r, hop, hx, hy⟩ := hrange rfl
      obtain ⟨m, hm, hdeliver⟩ := buildNoPanicArithmeticBinary_delivers
        scaffold ⟨true, op, pos, lhs, rhs, result⟩ hop hb hx hy hl.is hr.is
      exact .insn ⟨true, op, pos, lhs, rhs, result⟩ hm hdeliver

theorem codeGenNegateExpr_compiled (pos : Int) {operand : IntOperand} (result : Nat) {x : BitVec 64}
    (h : Holds s.memory x operand) :
    Compiled scaffold b s (Known operand) (codeGenNegateExpr pos operand result)
      (fitsInt (-x.toInt)) := by
  obtain ⟨value, flags, hvalue, hval⟩ := intOperandValue_spec h.hasValue
  have hrange := toInt_range x
  have hcode : codeGenNegateExpr pos operand result =
      (if flags ≠ 0 then do
        let value ← intNegateEval pos value
        return ⟨constOperand value flags, none⟩
      else
        return ⟨.register result (.bits Types.INT),
          some ⟨false, .sub, pos, .const 0 (intConst 0), operand, result⟩⟩) := by
    unfold codeGenNegateExpr
    rw [hvalue]
    rfl
  rw [hcode]
  split
  next hflags =>
    rw [(hval hflags).1]
    unfold intNegateEval fitsInt
    split
    next hmin =>
      rw [if_neg (by rw [hmin]; decide)]
      exact .error (hval hflags).2
    next hmin =>
      have hneg : Types.intMinValue ≤ -x.toInt ∧ -x.toInt ≤ Types.intMaxValue := by
        unfold Types.intMinValue at hmin hrange ⊢
        unfold Types.intMaxValue at hrange ⊢
        omega
      rw [if_pos hneg]
      exact .const (hasValue_constOperand hneg _)
  next =>
    have hzero : OperandIs s.memory 0 (.const 0 (intConst 0)) := rfl
    have hdeliver := buildArithmeticBinary_delivers scaffold
      ⟨false, .sub, pos, .const 0 (intConst 0), operand, result⟩ hb hzero h.is
    have hexact : exactArithmetic .sub (0 : BitVec 64).toInt x.toInt = fitsInt (-x.toInt) := by
      show fitsInt (0 - x.toInt) = _
      rw [Int.zero_sub]
    rw [← hexact]
    exact .insn ⟨false, .sub, pos, .const 0 (intConst 0), operand, result⟩ rfl hdeliver

end Compiled

/-- For all operands and all 64-bit integers of their types, `a op b` and `-a` are compiled to what
is exact on integers, and the code that is emitted has a meaning at every step. -/
theorem intArithmetic_exact (scaffold : Scaffold) (b : Builder) (hb : Ready b) (s : State)
    (pos : Int) (result : Nat) :
    (∀ (op : ArithmeticBinaryOp) (lhs rhs : IntOperand) (x y : BitVec 64), Holds s.memory x lhs →
      Holds s.memory y rhs → Compiled scaffold b s (Known lhs ∧ Known rhs)
        (codeGenArithmeticBinaryExpr op pos lhs rhs result)
        (exactArithmetic op x.toInt y.toInt)) ∧
    ∀ (operand : IntOperand) (x : BitVec 64), Holds s.memory x operand →
      Compiled scaffold b s (Known operand) (codeGenNegateExpr pos operand result)
        (fitsInt (-x.toInt)) := by
  refine ⟨fun op lhs rhs x y hl hr => ?_, fun operand x h => ?_⟩
  · exact codeGenArithmeticBinaryExpr_compiled scaffold hb op pos result hl hr
  · exact codeGenNegateExpr_compiled scaffold hb pos result h

/-- A function with one empty block. -/
def emptyFunction : Builder := ⟨fun _ => [], 1, 0, 0⟩

/-- The least integer in register 0 and -1 in register 1. -/
def minAndMinusOne : State :=
  ⟨fun _ => none, fun n => if n = 0 then some (.i64 (BitVec.intMin 64)) else some (.i64 (-1))⟩

theorem intArithmetic_exact_min_rem :
    exactArithmetic .rem (BitVec.intMin 64).toInt (-1 : BitVec 64).toInt = .ok 0 ∧
      Compiled ⟨0, 3, fun _ => 1⟩ emptyFunction minAndMinusOne
        (Known (.register 0 (.bits Types.INT)) ∧ Known (.register 1 (.bits Types.INT)))
        (codeGenArithmeticBinaryExpr .rem 0 (.register 0 (.bits Types.INT)) (.register 1 (.bits Types.INT)) 2)
        (exactArithmetic .rem (BitVec.intMin 64).toInt (-1 : BitVec 64).toInt) := by
  refine ⟨rfl, (intArithmetic_exact ⟨0, 3, fun _ => 1⟩ emptyFunction ⟨Nat.one_pos, fun _ _ => rfl⟩
    minAndMinusOne 0 2).1 .rem _ _ _ _ ⟨rfl, hasInt_int _⟩ ⟨rfl, hasInt_int _⟩⟩

end Nballerina.Nback
