import Nballerina.CodeGen.Code

/-!
# Code for conditions

`codeGenExprForCond` and the functions of `front/expr.bal` that it calls. The code of a condition
leaves through a block for `true` and one for `false`; each is a `TypeMerger`, which remembers the
branches into it and the bindings these bring. When the right operand of `||` is generated, the
true exit of the left operand is passed down (`prevs`) and the code branches into it; with `&&` it
is the false exit. A condition that is constant has one exit only.

Mirroring notes:
- The operands of a test are terms: constants, variables, and terms in parentheses.
- `codeGenLogicalBinaryExpr` is given the generators of its operands, so that the recursion of
  `codeGenExpr` and `codeGenExprForCond` is over the condition.
- There are no captured variables: `codeGenVarRefExpr` passes `false` for `isClosure`.
- `constBasicBlock`, the block of the right side of a `const` definition, is left out.
-/

namespace Nballerina.CodeGen

open Nballerina.Lib

variable {T V : Type}

/-! ## Expressions -/

/-- An operand of a test. -/
inductive Term (V : Type) where
  | const (value : V)
  | varRef (name : String)
  | group (t : Term V)

/-- A condition. -/
inductive Cond (T V : Type) where
  | term (t : Term V)
  | group (c : Cond T V)
  | not (c : Cond T V)
  | logical (isOr : Bool) (left right : Cond T V)
  | typeTest (left : Term V) (semType : T) (negated : Bool)
  | equality (op : EqualityOp) (left right : Term V)
  | relational (op : OrderOp) (left right : Term V)

/-- A definition of the module that a name may refer to. -/
inductive ModuleDefn (T V : Type) where
  | const (value : V)
  | function (value : V) (semType : T)
  | type

/-- `ExprEffect` -/
structure ExprEffect (T V : Type) where
  block : Nat
  result : Operand T V
  binding : Option (Binding T)

/-! ## Operands that are known -/

/-- `ValueFlags` -/
structure ValueFlags where
  isConst : Bool
  singleShape : Bool
deriving DecidableEq

/-- The flags that both have. -/
def ValueFlags.and (f1 f2 : ValueFlags) : ValueFlags :=
  ⟨f1.isConst && f2.isConst, f1.singleShape && f2.singleShape⟩

variable [Values V] [DecidableEq T] [TypeOps T V]

/-- `constifyRegister` -/
def constifyRegister (reg : Register T) : Operand T V :=
  match singleShape reg.semType with
  | none => .reg reg
  | some shape => if keepsRegister shape then .reg reg else .const shape reg.semType

/-- `operandValue`: the value of the operand, if it is known, and how it is known. -/
def operandValue : Operand T V → GenM T V (Option V × ValueFlags)
  | .const value semType =>
    match singleShape semType with
    | none => return (some value, ⟨true, false⟩)
    | some shape =>
      if equal shape value then return (some value, ⟨true, true⟩)
      else throw (.panic .inconsistent)
  | operand =>
    match singleShape operand.semType with
    | none => return (none, ⟨false, false⟩)
    | some shape => return (some shape, ⟨false, true⟩)

/-- `constBooleanExprEffect` and `constExprEffect`, for a boolean -/
def constBoolean (value : Bool) (flags : ValueFlags) : Operand T V :=
  .const (ofBool value) (if flags.singleShape then singleton (ofBool value : V) else BOOLEAN)

/-- `singletonBooleanOperand` -/
def singletonBooleanOperand (value : Bool) : Operand T V :=
  .const (ofBool value) (singleton (ofBool value : V))

/-! ## Terms -/

/-- `createLocalCopy` -/
def createLocalCopy (block : Nat) (reg : CapturableRegister T) : GenM T V (Operand T V) := do
  let localCopy ← createAssignTmpRegister reg.semType
  emit block (.assign localCopy (.reg (.capturable reg)))
  return constifyRegister localCopy

/-- The end of `codeGenVarRefExpr`, for a variable of the function itself. -/
def codeGenLocalVar (block : Nat) (b : Binding T) : GenM T V (ExprEffect T V) := do
  if b.unnarrow.reg.number ∈ (← get).innerCapturedRegisters then
    let result ← createLocalCopy block (.decl b.unnarrow.reg)
    return ⟨block, result, none⟩
  else
    modify fun g => g.markAsDirectRef b.reg
    let result : Operand T V := constifyRegister b.reg
    return ⟨block, result, if result.isRegister then some b else none⟩

variable (mod : String → Option (ModuleDefn T V))

/-- `codeGenVarRefExpr`, for a name without a module prefix in a function of the module -/
def codeGenVarRefExpr (bindings : BindingChain T) (block : Nat) (name : String) :
    GenM T V (ExprEffect T V) := do
  match bindingsLookup false name bindings false with
  | some (b, _) => codeGenLocalVar block b
  | none =>
    match mod name with
    | some (.const value) => return ⟨block, .const value (singleton value), none⟩
    | some (.function value semType) => return ⟨block, .function value semType, none⟩
    | some .type => semanticErr "values of type descriptor type not yet implemented"
    | none => semanticErr "variable not defined"

/-- `codeGenExpr` on a term -/
def codeGenTerm (bindings : BindingChain T) (block : Nat) : Term V → GenM T V (ExprEffect T V)
  | .const value => return ⟨block, .const value (singleton value), none⟩
  | .varRef name => codeGenVarRefExpr mod bindings block name
  | .group t => codeGenTerm bindings block t

/-! ## Tests -/

/-- The result of a test that is known, or that of an instruction. -/
def codeGenUnlessKnown (block : Nat) (known : Option (Operand T V))
    (insn : Register T → Insn T V) : GenM T V (Operand T V) :=
  match known with
  | some operand => return operand
  | none => do
    let result ← createTmpRegister BOOLEAN
    emit block (insn result)
    return .reg result

/-- The type that a value of type `curSemType` is tested for. -/
def testedType (curSemType semType : T) : T :=
  if isSubtype semType curSemType then semType else intersect curSemType semType

/-- `finishCodeGenTypeTest` -/
def finishCodeGenTypeTest (semType : T) (operand : Operand T V) (block : Nat) (negated : Bool) :
    GenM T V (Operand T V) :=
  if isEmpty (diff operand.semType semType) then return singletonBooleanOperand !negated
  else if isEmpty (testedType operand.semType semType) then return singletonBooleanOperand negated
  else
    match operand with
    | .function _ t => return singletonBooleanOperand (isSubtype t semType != negated)
    | .const _ _ => throw (.panic .constTypeTest)
    | .reg reg => codeGenUnlessKnown block none fun result => .typeTest result reg semType negated

/-- What `codeGenEqualityExpr` computes when the operands are known. -/
def knownEquality (op : EqualityOp) (flags : ValueFlags) :
    Option V → Option V → Option (Operand T V)
  | some l, some r =>
    if op.exact then
      if flags.isConst then some (.const (ofBool (op.negated == !exactEqual l r)) BOOLEAN) else none
    else if flags = ⟨false, false⟩ then none
    else some (constBoolean (op.negated == !equal l r) flags)
  | _, _ => none

/-- `codeGenEqualityExpr` -/
def codeGenEqualityExpr (block : Nat) (op : EqualityOp) (l r : Operand T V) :
    GenM T V (Operand T V) :=
  if isEmpty (intersect l.semType r.semType) then
    semanticErr "intersection of operands is empty"
  else if !op.exact && !isAnydata l.semType && !isAnydata r.semType then
    semanticErr "type of at least one operand must be a subtype of anydata"
  else do
    let (leftValue, leftFlags) ← operandValue l
    let (rightValue, rightFlags) ← operandValue r
    codeGenUnlessKnown block (knownEquality op (leftFlags.and rightFlags) leftValue rightValue)
      fun result => .equality op result l r

/-- What `codeGenRelationalExpr` computes when the operands are known. -/
def knownRelational (op : OrderOp) (flags : ValueFlags) :
    Option V → Option V → Option (Operand T V)
  | some l, some r =>
    if flags = ⟨false, false⟩ then none else some (constBoolean (Values.compare op l r) flags)
  | _, _ => none

/-- `codeGenRelationalExpr`, after its operands -/
def codeGenRelationalExpr (block : Nat) (op : OrderOp) (l r : Operand T V) :
    GenM T V (Operand T V) :=
  if !comparable l.semType r.semType then semanticErr "operands do not belong to an ordered type"
  else do
    let (leftValue, leftFlags) ← operandValue l
    let (rightValue, rightFlags) ← operandValue r
    codeGenUnlessKnown block (knownRelational op (leftFlags.and rightFlags) leftValue rightValue)
      fun result => .compare op result l r

/-- What `codeGenExprForBoolean` requires of a result. -/
def checkBoolean (operand : Operand T V) : GenM T V Unit :=
  match operand with
  | .const value _ => if (toBool value).isSome then return () else semanticErr "expected boolean operand"
  | .function _ _ => semanticErr "expected boolean operand"
  | .reg reg => if isBoolean reg.semType then return () else semanticErr "expected boolean operand"

/-! ## Exits -/

/-- `createMergerWithBindings` -/
def createMergerWithBindings (bindings : BindingChain T) (originLabel : Nat) :
    Option (TypeMerger T) → GenM T V (TypeMerger T)
  | none => do
    let dest ← createBasicBlock
    return ⟨[⟨originLabel, bindings⟩], dest⟩
  | some merger => return ⟨⟨originLabel, bindings⟩ :: merger.origins, merger.dest⟩

/-- `codeGenConstCond` -/
def codeGenConstCond (bindings : BindingChain T) (block : Nat) (constCond : Bool) :
    Option (PrevTypeMergers T) → GenM T V (CondExprEffect T)
  | none => return .only constCond ⟨[], block⟩
  | some ⟨takenSide, merger⟩ => do
    if takenSide = constCond then
      emit block (.branch merger.dest)
      return .only constCond merger
    else
      let newMerger ← createMergerWithBindings bindings block none
      emit block (.branch newMerger.dest)
      return if constCond then .both newMerger merger else .both merger newMerger

/-- `codeGenTypeTestForCond` -/
def codeGenTypeTestForCond (bindings : BindingChain T) (block : Nat) (semType : T)
    (opBinding : Binding T) (negated : Bool) (prevs : Option (PrevTypeMergers T)) :
    GenM T V (CondExprEffect T) :=
  let curSemType := opBinding.reg.semType
  let outside := diff curSemType semType
  let inside := testedType curSemType semType
  if isEmpty outside then codeGenConstCond bindings block (!negated) prevs
  else if isEmpty inside then codeGenConstCond bindings block negated prevs
  else do
    let ifTrueType := if negated then outside else inside
    let ifTrueRegister ← createNarrowRegister ifTrueType
    let ifFalseRegister ← createNarrowRegister (if negated then inside else outside)
    let trueMerger ← createMergerWithBindings (narrow bindings opBinding ifTrueRegister) block
      (prevMerger prevs true)
    let falseMerger ← createMergerWithBindings (narrow bindings opBinding ifFalseRegister) block
      (prevMerger prevs false)
    emit block (.typeCondBranch opBinding.reg ifTrueType trueMerger.dest falseMerger.dest
      ifTrueRegister ifFalseRegister)
    return .both trueMerger falseMerger

/-- The two branches at the end of `codeGenExprForCond`. -/
def codeGenCondBranch (bindings : BindingChain T) (block : Nat) (reg : Register T)
    (prevs : Option (PrevTypeMergers T)) : GenM T V (CondExprEffect T) := do
  let trueMerger ← createMergerWithBindings bindings block (prevMerger prevs true)
  let falseMerger ← createMergerWithBindings bindings block (prevMerger prevs false)
  emit block (.condBranch reg trueMerger.dest falseMerger.dest)
  return .both trueMerger falseMerger

/-- The end of `codeGenExprForCond`, for a condition that has been evaluated to an operand. -/
def finishCodeGenExprForCond (bindings : BindingChain T) (block : Nat) (operand : Operand T V)
    (prevs : Option (PrevTypeMergers T)) : GenM T V (CondExprEffect T) := do
  let (value, flags) ← operandValue operand
  match operand, value.bind toBool with
  | .reg reg, none => codeGenCondBranch bindings block reg prevs
  | _, some value =>
    if flags.singleShape then codeGenConstCond bindings block value prevs
    else
      -- the value is known but the type is `boolean`: an exact comparison that gives the value
      let reg ← createTmpRegister BOOLEAN
      emit block (.equality ⟨true, !value⟩ reg
        (.const (ofBool value) (singleton (TypeOps.booleanCode T)))
        (.const (ofBool value) BOOLEAN))
      codeGenCondBranch bindings block reg prevs
  | _, none => semanticErr "expected boolean operand"

/-! ## The recursion -/

/-- `codeGenLogicalBinaryExpr` after its left operand -/
def codeGenLogicalRight (bindings : BindingChain T) (isOr : Bool)
    (right : BindingChain T → Nat → Option (PrevTypeMergers T) → GenM T V (CondExprEffect T))
    (rightForBoolean : Nat → GenM T V (ExprEffect T V)) (prevs : Option (PrevTypeMergers T)) :
    CondExprEffect T → GenM T V (CondExprEffect T)
  | .only constCond merger =>
    if constCond = isOr then do
      -- only to check errors on the right: its code is dropped
      let dummyBlock ← createBasicBlock
      let _ ← rightForBoolean dummyBlock
      modify fun g => g.discard dummyBlock
      return .only constCond merger
    else right bindings merger.dest prevs
  | .both trueMerger falseMerger =>
    if isOr then do
      let rhsBindings ← codeGenTypeMerge falseMerger.dest bindings falseMerger.origins
      right rhsBindings falseMerger.dest (some ⟨true, trueMerger⟩)
    else do
      let rhsBindings ← codeGenTypeMerge trueMerger.dest bindings trueMerger.origins
      right rhsBindings trueMerger.dest (some ⟨false, falseMerger⟩)

/-- `codeGenLogicalBinaryExpr`, given how its operands are generated -/
def codeGenLogicalBinaryExpr (bindings : BindingChain T) (isOr : Bool)
    (left : Option (PrevTypeMergers T) → GenM T V (CondExprEffect T))
    (right : BindingChain T → Nat → Option (PrevTypeMergers T) → GenM T V (CondExprEffect T))
    (rightForBoolean : Nat → GenM T V (ExprEffect T V)) (prevs : Option (PrevTypeMergers T)) :
    GenM T V (CondExprEffect T) := do
  let lhsEffect ← left prevs
  codeGenLogicalRight bindings isOr right rightForBoolean prevs lhsEffect

/-- `booleanEffectFromCondEffect` -/
def booleanEffectFromCondEffect : CondExprEffect T → GenM T V (ExprEffect T V)
  | .only constCond merger => return ⟨merger.dest, constBoolean constCond ⟨true, true⟩, none⟩
  | .both trueMerger falseMerger => do
    let result ← createAssignTmpRegister BOOLEAN
    let contBlock ← createBasicBlock
    emit trueMerger.dest (.assign result (singletonBooleanOperand true))
    emit trueMerger.dest (.branch contBlock)
    emit falseMerger.dest (.assign result (singletonBooleanOperand false))
    emit falseMerger.dest (.branch contBlock)
    return ⟨contBlock, .reg result, none⟩

/-- `codeGenLogicalNotExpr`, after its operand -/
def codeGenLogicalNotExpr (effect : ExprEffect T V) : GenM T V (ExprEffect T V) := do
  let (value, flags) ← operandValue effect.result
  match effect.result, value.bind toBool with
  | _, some value => return ⟨effect.block, constBoolean (!value) flags, none⟩
  | .reg reg, none =>
    let result ← createTmpRegister BOOLEAN
    emit effect.block (.booleanNot result reg)
    return ⟨effect.block, .reg result, none⟩
  | _, none => semanticErr "expected boolean operand"

/-- The test that an equality narrows a variable by: the variable and the value. -/
def narrowingCompare (op : EqualityOp) (l r : ExprEffect T V) : Option (Binding T × V) :=
  if op.exact then none
  else
    match l.binding, singleShape r.result.semType, r.binding, singleShape l.result.semType with
    | some b, some v, _, _ => some (b, v)
    | _, _, some b, some v => some (b, v)
    | _, _, _, _ => none

/-- The side of an equality that is taken when its operands are equal must be there. -/
def checkTaken (negated : Bool) : CondExprEffect T → GenM T V (CondExprEffect T)
  | .only side merger =>
    if side = negated then semanticErr "intersection of operands is empty"
    else return .only side merger
  | effect => return effect

/-- `trueMerger` and `falseMerger` -/
def CondExprEffect.exit : CondExprEffect T → Bool → Option (TypeMerger T)
  | .only side merger, b => if side = b then some merger else none
  | .both trueMerger falseMerger, b => some (if b then trueMerger else falseMerger)

/-- Exchanges the exits. -/
def CondExprEffect.flip : CondExprEffect T → CondExprEffect T
  | .only side merger => .only (!side) merger
  | .both trueMerger falseMerger => .both falseMerger trueMerger

mutual

/-- `codeGenExpr` -/
def codeGenExpr (bindings : BindingChain T) (block : Nat) : Cond T V → GenM T V (ExprEffect T V)
  | .term t => codeGenTerm mod bindings block t
  | .group c => codeGenExpr bindings block c
  | .not c => do
    let effect ← codeGenExpr bindings block c
    checkBoolean effect.result
    codeGenLogicalNotExpr effect
  | .logical isOr left right => do
    let effect ← codeGenLogicalBinaryExpr bindings isOr
      (fun prevs => codeGenExprForCond bindings block prevs left)
      (fun bindings block prevs => codeGenExprForCond bindings block prevs right)
      (fun block => do
        let effect ← codeGenExpr bindings block right
        checkBoolean effect.result
        return effect)
      none
    booleanEffectFromCondEffect effect
  | .typeTest left semType negated => do
    let l ← codeGenTerm mod bindings block left
    let result ← finishCodeGenTypeTest semType l.result l.block negated
    return ⟨l.block, result, none⟩
  | .equality op left right => do
    let l ← codeGenTerm mod bindings block left
    let r ← codeGenTerm mod bindings l.block right
    let result ← codeGenEqualityExpr r.block op l.result r.result
    return ⟨r.block, result, none⟩
  | .relational op left right => do
    let l ← codeGenTerm mod bindings block left
    let r ← codeGenTerm mod bindings l.block right
    let result ← codeGenRelationalExpr r.block op l.result r.result
    return ⟨r.block, result, none⟩

/-- `codeGenExprForCond` -/
def codeGenExprForCond (bindings : BindingChain T) (block : Nat)
    (prevs : Option (PrevTypeMergers T)) : Cond T V → GenM T V (CondExprEffect T)
  | .group c => codeGenExprForCond bindings block prevs c
  | .typeTest left semType negated => do
    let l ← codeGenTerm mod bindings block left
    match l.binding with
    | some binding => codeGenTypeTestForCond bindings l.block semType binding negated prevs
    | none =>
      let operand ← finishCodeGenTypeTest semType l.result l.block negated
      finishCodeGenExprForCond bindings l.block operand prevs
  | .logical isOr left right =>
    codeGenLogicalBinaryExpr bindings isOr
      (fun prevs => codeGenExprForCond bindings block prevs left)
      (fun bindings block prevs => codeGenExprForCond bindings block prevs right)
      (fun block => do
        let effect ← codeGenExpr bindings block right
        checkBoolean effect.result
        return effect)
      prevs
  | .equality op left right => do
    let l ← codeGenTerm mod bindings block left
    let r ← codeGenTerm mod bindings l.block right
    match narrowingCompare op l r with
    | some (binding, value) =>
      let effect ← codeGenTypeTestForCond bindings r.block (singleton value) binding op.negated prevs
      checkTaken op.negated effect
    | none =>
      let operand ← codeGenEqualityExpr r.block op l.result r.result
      finishCodeGenExprForCond bindings r.block operand prevs
  | .not c => do
    let effect ← codeGenExprForCond bindings block
      (prevs.map fun p => { p with side := !p.side }) c
    return effect.flip
  | .term t => do
    let effect ← codeGenTerm mod bindings block t
    checkBoolean effect.result
    finishCodeGenExprForCond bindings effect.block effect.result prevs
  | .relational op left right => do
    let l ← codeGenTerm mod bindings block left
    let r ← codeGenTerm mod bindings l.block right
    let operand ← codeGenRelationalExpr r.block op l.result r.result
    checkBoolean operand
    finishCodeGenExprForCond bindings r.block operand prevs

end

end Nballerina.CodeGen
