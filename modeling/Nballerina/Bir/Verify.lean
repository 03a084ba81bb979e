/-!
# Verification of the blocks of a function (`verify.bal`)

The two rounds of depth-first search in `verifyFunctionCode`: the first counts the forward edges
into each block and looks at the marks on backward branches, the second follows which registers
are assigned on every forward path.

Mirroring notes:
- Labels and register numbers are indices; an index out of range is a panic.
- The recursion of the source has no bound of its own; here it is on `fuel`, and running out is an
  error of its own that cannot happen with more fuel than there are blocks.
- A `RegSet` is an array that several flows may share: `mergeFlows` returns the array of a single
  flow itself, and a block goes on writing to it after it has been passed to `onPanic`. So the sets
  are in `regSets` and a flow has the position of its set.
- Of an instruction there is what the two rounds look at: the labels of a branch, the fields
  `result`, `operand` and `operands` (no instruction has the field `args` of the third pattern).
- An error has its message and position; the file and the name of the function are left out, and
  so is `verifyBasicBlock`, which looks at each instruction alone.
- `processed` is not in the source: it records the order in which `verifyRegFlow` comes past the
  test that all flows of a block have arrived.
-/

namespace Nballerina.Bir

abbrev Label := Nat

abbrev Position := Int

inductive Operand where
  | register (number : Nat)
  | const
deriving DecidableEq, Repr

/-- What is special about an instruction here. -/
inductive InsnKind where
  | branch (dest : Label) (backward : Bool)
  | condBranch (ifTrue ifFalse : Label)
  | typeCondBranch (ifTrue ifFalse : Label) (ifTrueRegister ifFalseRegister : Nat)
  | typeMerge (predecessors : List Label)
  | other
deriving DecidableEq, Repr

structure Insn where
  kind : InsnKind
  pos : Position
  /-- number of the register in the field `result` -/
  result : Option Nat := none
  operand : Option Operand := none
  operands : Option (List Operand) := none
deriving DecidableEq, Repr

structure BasicBlock where
  insns : List Insn := []
  onPanic : Option Label := none
deriving DecidableEq, Repr

/-- The kinds of registers that `verifyParamRegs` tells apart. -/
inductive RegisterKind where
  | param
  | captured
  | other
deriving DecidableEq, Repr

structure Register where
  kind : RegisterKind
  pos : Position
deriving DecidableEq, Repr

structure FunctionCode where
  blocks : List BasicBlock
  registers : List Register
deriving DecidableEq, Repr

/-- How the verification ends early. -/
inductive VerifyError where
  /-- `err:Internal` -/
  | internal (message : String) (pos : Position)
  | panic
  | timeout
deriving DecidableEq, Repr

/-- The registers assigned along an edge from `origin`; `regs` is a position in `regSets`. -/
structure RegFlow where
  origin : Option Label
  regs : Nat
deriving DecidableEq, Repr

/-- The mutable fields of `VerifyCodeContext`. -/
structure VerifyState where
  fwdInDegrees : List Nat
  blocksFlows : List (List RegFlow)
  preds : List Bool
  regSets : List (List Bool) := []
  processed : List Label := []
deriving DecidableEq, Repr

/-- Code that may return an error; what it has written by then stays written. -/
abbrev VerifyM (α : Type) := ExceptT VerifyError (StateM VerifyState) α

/-- The fields of `VerifyCodeContext` that are fixed. -/
structure VerifyCodeContext where
  blocks : List BasicBlock
  funcPos : Position

section Verify

variable (cx : VerifyCodeContext)

def invalidErr {α : Type} (m : String) (pos : Option Position := none) : VerifyM α :=
  throw (.internal ("invalid BIR: " ++ m) (pos.getD cx.funcPos))

/-- An element of an array. -/
def index {α : Type} (xs : List α) (i : Nat) : VerifyM α :=
  match xs[i]? with
  | some x => pure x
  | none => throw .panic

def blockTerminator (block : BasicBlock) (predPos : Option Position) : VerifyM Insn :=
  match block.insns.getLast? with
  | some term => pure term
  | none => invalidErr cx "empty basic block" predPos

/-! ## The first round -/

/-- The edges that leave a block, in the order in which both rounds follow them; a backward
branch is marked. -/
def edges (block : BasicBlock) (term : Insn) : List (Label × Bool) :=
  block.onPanic.toList.map (fun label => (label, false)) ++
    match term.kind with
    | .branch dest backward => [(dest, backward)]
    | .condBranch ifTrue ifFalse => [(ifTrue, false), (ifFalse, false)]
    | .typeCondBranch ifTrue ifFalse _ _ => [(ifTrue, false), (ifFalse, false)]
    | .typeMerge _ => []
    | .other => []

/-- `verifyChildGraph`, over the recursive call. -/
def verifyChildGraph (visit : Label → Option Position → VerifyM Unit) (child : Label)
    (pos : Position) (backward : Bool) : VerifyM Unit := do
  let cycle ← index (← get).preds child
  if backward ≠ cycle then
    invalidErr cx (if backward then "backward branch to non-predecessor"
      else "forward branch form a cycle") (some pos)
  else if backward then
    return
  else do
    let fid ← index (← get).fwdInDegrees child
    if fid = 0 then visit child (some pos)
    else modify fun st => { st with fwdInDegrees := st.fwdInDegrees.set child (fid + 1) }

def verifyGraph : Nat → Label → Option Position → VerifyM Unit
  | 0, _, _ => throw .timeout
  | fuel + 1, current, predPos => do
    let block ← index cx.blocks current
    let term ← blockTerminator cx block predPos
    modify fun st => { st with preds := st.preds.set current true }
    (edges block term).forM fun e =>
      verifyChildGraph cx (verifyGraph fuel) e.1 term.pos e.2
    modify fun st => { st with preds := st.preds.set current false }
    modify fun st => { st with fwdInDegrees := st.fwdInDegrees.set current 1 }

/-- The loop of `verifyReachable`, from block `i` on. -/
def verifyReachableFrom (i : Nat) : List Nat → VerifyM Unit
  | [] => return
  | fid :: fwdInDegrees =>
    if fid = 0 then do
      let block ← index cx.blocks i
      match block.insns with
      | insn :: _ => invalidErr cx ("unreachable block: " ++ toString i) (some insn.pos)
      | [] => invalidErr cx ("unreachable and empty block: " ++ toString i)
    else verifyReachableFrom (i + 1) fwdInDegrees

def verifyReachable : VerifyM Unit := do
  verifyReachableFrom cx 0 (← get).fwdInDegrees

/-! ## The second round -/

/-- A new array. -/
def allocRegs (regs : List Bool) : VerifyM Nat := do
  let st ← get
  set { st with regSets := st.regSets ++ [regs] }
  return st.regSets.length

/-- `regs[number] = true`; the array is filled up with `false` as far as it has to be. -/
def setReg (regs number : Nat) : VerifyM Unit := do
  let rs ← index (← get).regSets regs
  let filled := rs ++ List.replicate (number + 1 - rs.length) false
  modify fun st => { st with regSets := st.regSets.set regs (filled.set number true) }

def verifyOperandInitialized (op : Operand) (regs : Nat) (usagePos : Position) : VerifyM Unit :=
  match op with
  | .const => return
  | .register number => do
    let rs ← index (← get).regSets regs
    if ← index rs number then return
    else invalidErr cx "operand register not initialized " (some usagePos)

/-- Whether every flow has the register. -/
def conjFlows (sets : List (List Bool)) (i : Nat) : VerifyM Bool :=
  match sets with
  | [] => return true
  | rs :: sets => do
    if ← index rs i then conjFlows sets i else return false

def mergeFlows (flows : List RegFlow) : VerifyM Nat :=
  match flows with
  | [] => throw .panic
  | [flow] => return flow.regs
  | flow :: flows => do
    let sets ← (flow :: flows).mapM fun f => do index (← get).regSets f.regs
    let numReg := (sets.headD []).length
    let result ← (List.range numReg).mapM (conjFlows sets)
    allocRegs result

def flowOriginating (flows : List RegFlow) (origin : Label) : Option RegFlow :=
  flows.find? fun flow => flow.origin = some origin

/-- The loop of `verifyTypeMergeFlow`. -/
def verifyPredecessors (flows : List RegFlow) (operands : List Operand) (pos : Position) :
    List Label → Nat → VerifyM Unit
  | [], _ => return
  | pred :: predecessors, i =>
    match flowOriginating flows pred with
    | some flow => do
      verifyOperandInitialized cx (← index operands i) flow.regs pos
      verifyPredecessors flows operands pos predecessors (i + 1)
    | none =>
      invalidErr cx ("superfluous predecessor " ++ toString pred ++ " in TypeMergeInsn") (some pos)

def verifyTypeMergeFlow (afterMerge : Bool) (flows : List RegFlow) (predecessors : List Label)
    (operands : List Operand) (pos : Position) : VerifyM Unit := do
  if afterMerge then
    invalidErr cx "TypeMergeInsn is not at the beginning of the basic block" (some pos)
  else
    let numFlows := flows.length
    if predecessors.length ≠ numFlows ∨ operands.length ≠ numFlows then
      invalidErr cx ("predecessor count(" ++ toString predecessors.length ++ ")/operand count(" ++
        toString operands.length ++ ") mismatch with incoming edge count(" ++ toString numFlows ++
        ")") (some pos)
    else verifyPredecessors cx flows operands pos predecessors 0

/-- The `match` on an instruction: only the first of the patterns that fits is looked at, so the
operands of an instruction with a result are not. -/
def verifyInsnRegs (regs : Nat) (insn : Insn) : VerifyM Unit :=
  match insn.result, insn.operand, insn.operands with
  | some number, _, _ => setReg regs number
  | none, some operand, _ => verifyOperandInitialized cx operand regs insn.pos
  | none, none, some operands =>
    operands.forM fun op => verifyOperandInitialized cx op regs insn.pos
  | none, none, none => return

/-- The loop over the instructions of a block. -/
def verifyInsnsFlow (flows : List RegFlow) (regs : Nat) : List Insn → Bool → VerifyM Unit
  | [], _ => return
  | insn :: insns, afterMerge => do
    match insn.kind with
    | .typeMerge predecessors => do
      verifyTypeMergeFlow cx afterMerge flows predecessors (insn.operands.getD []) insn.pos
      verifyInsnRegs cx regs insn
      verifyInsnsFlow flows regs insns afterMerge
    | _ => do
      verifyInsnRegs cx regs insn
      verifyInsnsFlow flows regs insns true

def cloneRegs (regs : Nat) : VerifyM Nat := do
  allocRegs (← index (← get).regSets regs)

/-- The flows that leave a block by its terminator. -/
def branchFlows (current : Label) (regs : Nat) (term : Insn) : VerifyM (List (Label × RegFlow)) :=
  match term.kind with
  | .branch dest backward => return if backward then [] else [(dest, ⟨some current, regs⟩)]
  | .condBranch ifTrue ifFalse => do
    let trueRegs ← cloneRegs regs
    return [(ifTrue, ⟨some current, trueRegs⟩), (ifFalse, ⟨some current, regs⟩)]
  | .typeCondBranch ifTrue ifFalse ifTrueRegister ifFalseRegister => do
    let trueRegs ← cloneRegs regs
    setReg trueRegs ifTrueRegister
    setReg regs ifFalseRegister
    return [(ifTrue, ⟨some current, trueRegs⟩), (ifFalse, ⟨some current, regs⟩)]
  | .typeMerge _ => return []
  | .other => return []

/-- `flows.push(viaFlow)`; returns the flows. -/
def pushFlow (current : Label) (viaFlow : RegFlow) : VerifyM (List RegFlow) := do
  let flows ← index (← get).blocksFlows current
  modify fun st => { st with blocksFlows := st.blocksFlows.set current (flows ++ [viaFlow]) }
  return flows ++ [viaFlow]

def verifyRegFlow : Nat → Label → RegFlow → Option Position → VerifyM Unit
  | 0, _, _, _ => throw .timeout
  | fuel + 1, current, viaFlow, viaPos => do
    let block ← index cx.blocks current
    let flows ← pushFlow current viaFlow
    let fid ← index (← get).fwdInDegrees current
    if fid ≠ flows.length then return
    else do
      modify fun st => { st with processed := st.processed ++ [current] }
      let regs ← mergeFlows flows
      verifyInsnsFlow cx flows regs block.insns false
      let term ← blockTerminator cx block viaPos
      block.onPanic.toList.forM fun onPanic =>
        verifyRegFlow fuel onPanic ⟨some current, regs⟩ (some term.pos)
      let flows ← branchFlows current regs term
      flows.forM fun e => verifyRegFlow fuel e.1 e.2 (some term.pos)

/-! ## Both rounds -/

/-- The loop of `verifyParamRegs`. -/
def verifyParamRegsFrom (afterParams : Bool) : List Register → VerifyM (List Bool)
  | [] => return []
  | reg :: regs =>
    match reg.kind with
    | .param => do
      if afterParams then
        invalidErr cx "param register is not at the beginning of the register list" (some reg.pos)
      else return true :: (← verifyParamRegsFrom afterParams regs)
    | .captured => return true :: (← verifyParamRegsFrom true regs)
    | .other => return false :: (← verifyParamRegsFrom true regs)

def verifyParamRegs (regs : List Register) : VerifyM (List Bool) :=
  verifyParamRegsFrom cx false regs

end Verify

/-- The state of a new `VerifyCodeContext`. -/
def VerifyState.new (blocks : List BasicBlock) : VerifyState where
  fwdInDegrees := List.replicate blocks.length 0
  blocksFlows := List.replicate blocks.length []
  preds := List.replicate blocks.length false

/-- `verifyGraph` and `verifyReachable`, from block 0. -/
def verifyBlocks (blocks : List BasicBlock) (funcPos : Position) : VerifyM Unit := do
  let cx : VerifyCodeContext := ⟨blocks, funcPos⟩
  if blocks.length = 0 then invalidErr cx "no basic blocks in function code"
  else
    verifyGraph cx (blocks.length + 1) 0 none
    verifyReachable cx

/-- `verifyFunctionCode`, as far as it looks at more than one instruction at a time. -/
def verifyFunctionCode (code : FunctionCode) (funcPos : Position) : VerifyM Unit := do
  let cx : VerifyCodeContext := ⟨code.blocks, funcPos⟩
  verifyBlocks code.blocks funcPos
  let params ← verifyParamRegs cx code.registers
  let regs ← allocRegs params
  verifyRegFlow cx (code.blocks.length + 1) 0 ⟨none, regs⟩ none

end Nballerina.Bir
