import Nballerina.CodeGen.Code
import Nballerina.Lib.BlockPaths

/-!
# Code for assignments to members

`codeGenAssignToMember` and the functions of `front/stmt.bal` and `front/expr.bal` that it calls. The
container of an lvalue is an lvalue again, with index expressions of its own, and the code of an
expression may stop in another block than it started in.

`codeGenLExpr` generates the code of its container first, but the access that follows starts in the
block where the container started, not where it stopped. So the parts of an assignment continue each
other if and only if no index within the container of the container leaves its block
(`codeGenAssignToMember_inSourceOrder_iff`): `a[check i()][j] = v` is fine, `a[check i()][j][k] = v`
is not.

Mirroring notes:
- What is asked of types are the fields of `MemberTypes`; positions are left out.
- The code of an index or value expression is generated by `ExprCode`; its contract, that it is one
  part, is `ExprCode.Lawful`. Whether an expression leaves its block does not depend on where it starts.
- The look-up errors of `codeGenVarLExpr` (an undefined name, a name that is no variable) share one message.
- `steps` is not in the source. It lists the parts in the order in which they are generated: the block
  where an expression starts and the one where it stops, and the block of an access, twice.
-/

namespace Nballerina.CodeGen

open Nballerina.Lib

variable {T V E I : Type}

/-- What assignments to members ask of constants. -/
class MemberValues (V : Type) where
  isIntConst : V → Bool
  isStringConst : V → Bool
  string : String → V

/-- What assignments to members ask of types. -/
class MemberTypes (T : Type) where
  INT : T
  STRING : T
  /-- `t:isSubtypeSimple(·, t:LIST)` -/
  isList : T → Bool
  isMapping : T → Bool
  isString : T → Bool
  isInt : T → Bool
  isEmpty : T → Bool
  listMemberTypeInnerVal : T → T → T
  mappingMemberTypeInner : T → T → T
  containsUndef : T → Bool
  /-- `t:diff(·, t:UNDEF)` -/
  withoutUndef : T → T
  /-- `t:union(·, t:NIL)` -/
  orNil : T → T
  stringConst : String → T

/-! ## Expressions and instructions -/

/-- `s:LExpr`, over the expressions of the indices. -/
inductive LExpr (E : Type) where
  | varRef (name : String)
  | memberAccess (container : LExpr E) (index : E)
  | fieldAccess (container : LExpr E) (fieldName : String)

/-- `s:MemberAccessLExpr|s:FieldAccessLExpr`, without the container. -/
inductive MemberRef (E : Type) where
  | index (index : E)
  | field (fieldName : String)

/-- The instructions of an assignment, and those (`I`) of its expressions. -/
inductive MemberInsn (T V I : Type) where
  | listGet (result : Register T) (list : Register T) (index : Operand T V) (fill : Bool)
  | mappingGet (result : Register T) (mapping : Register T) (key : Operand T V) (fill : Bool)
  | listSet (list : Register T) (index value : Operand T V)
  | mappingSet (mapping : Register T) (key value : Operand T V)
  | expr (insn : I)

/-- `CodeGenError` -/
inductive LValueError where
  | semantic (message : String)
  | unimplemented (message : String)
  /-- a cast that fails -/
  | panic

structure LValueCode (T V I : Type) where
  registers : List (Register T)
  code : BlockCode (MemberInsn T V I)
  isClosure : Bool
  /-- the captured register of each register of an outer function -/
  outerCapturedRegisters : List (CapturableRegister T × CapturableRegister T)
  steps : List (Nat × Nat)

abbrev LValueM (T V I : Type) := StateT (LValueCode T V I) (Except LValueError)

def lvalueErr {α : Type} (message : String) : LValueM T V I α := fun _ => .error (.semantic message)

def createMemberRegister (t : T) : LValueM T V I (Register T) := fun g =>
  .ok (.tmp g.registers.length t, { g with registers := g.registers ++ [.tmp g.registers.length t] })

/-- An instruction of the assignment. -/
def emitInsn (block : Nat) (insn : MemberInsn T V I) : LValueM T V I Unit := fun g =>
  .ok ((), { g with
    code := { g.code with blocks := pushInsn g.code.blocks block insn }
    steps := g.steps ++ [(block, block)] })

/-- `getCaptureRegister` -/
def getCaptureRegister [DecidableEq T] (t : T) (underlying : CapturableRegister T) :
    LValueM T V I (CapturableRegister T) := fun g =>
  match g.outerCapturedRegisters.lookup underlying with
  | some register => .ok (register, g)
  | none =>
    let register : CapturableRegister T := .captured g.registers.length t underlying
    .ok (register, { g with
      registers := g.registers ++ [.capturable register]
      outerCapturedRegisters := g.outerCapturedRegisters ++ [(underlying, register)] })

/-- `codeGenExpr`, in the bindings at the assignment: generates the code of an expression, with the
type that is expected, from the end of a block on. -/
abbrev ExprCode (T V E I : Type) := E → T → Nat → LValueM T V I (Operand T V × Nat)

section Source

variable [DecidableEq T] [MemberTypes T] [MemberValues V] (bindings : BindingChain T) (exprCode : ExprCode T V E I)

open MemberTypes MemberValues

/-! ## Indices and keys -/

/-- The code of an expression, as a step. -/
def codeGenIndexExpr (e : E) (expected : T) (block : Nat) : LValueM T V I (Operand T V × Nat) := do
  let (operand, nextBlock) ← exprCode e expected block
  modify fun g => { g with steps := g.steps ++ [(block, nextBlock)] }
  return (operand, nextBlock)

/-- `codeGenExprForInt` -/
def codeGenExprForInt (block : Nat) (e : E) : LValueM T V I (Operand T V × Nat) := do
  let (operand, nextBlock) ← codeGenIndexExpr exprCode e INT block
  let valid := match operand with
    | .const value _ => isIntConst value
    | .function _ _ => false
    | .reg r => isInt r.semType
  if valid then return (operand, nextBlock) else lvalueErr "expected an int operand"

/-- `codeGenExprForString` -/
def codeGenExprForString (block : Nat) (e : E) : LValueM T V I (Operand T V × Nat) := do
  let (operand, nextBlock) ← codeGenIndexExpr exprCode e STRING block
  let valid := match operand with
    | .const value _ => isStringConst value
    | .function _ _ => false
    | .reg r => isString r.semType
  if valid then return (operand, nextBlock) else lvalueErr "expected string operand"

/-- `singletonStringOperand` -/
def singletonStringOperand (s : String) : Operand T V := .const (string s) (stringConst s)

/-! ## Access to a member -/

/-- `MappingAccessType`: `.`, with the name of the field, `[` and `fill` -/
inductive MappingAccessType where
  | dot (fieldName : String)
  | bracket
  | fill

def codeGenMappingGet (block : Nat) (mapping : Register T) (accessType : MappingAccessType)
    (k : Operand T V) : LValueM T V I (Operand T V × Nat) := do
  let memberType := mappingMemberTypeInner mapping.semType k.semType
  if containsUndef memberType then
    match accessType with
    | .dot fieldName =>
      lvalueErr ("field access to " ++ fieldName ++ "\x7d is invalid because field may not be present")
    | .fill => do
      let result ← createMemberRegister (withoutUndef memberType)
      emitInsn block (.mappingGet result mapping k true)
      return (.reg result, block)
    | .bracket => do
      let result ← createMemberRegister (orNil (withoutUndef memberType))
      emitInsn block (.mappingGet result mapping k false)
      return (.reg result, block)
  else
    let result ← createMemberRegister memberType
    emitInsn block (.mappingGet result mapping k false)
    return (.reg result, block)

def codeGenFieldAccessExpr (nextBlock : Nat) (l : Operand T V) (fieldName : String) :
    LValueM T V I (Operand T V × Nat) :=
  match l with
  | .reg l =>
    if isMapping l.semType then
      codeGenMappingGet nextBlock l (.dot fieldName) (singletonStringOperand fieldName)
    else lvalueErr "can only apply field access to mapping"
  | _ => lvalueErr "can only apply field access to mapping"

def codeGenMemberAccessExpr (block1 : Nat) (l : Operand T V) (index : E) (fill : Bool) :
    LValueM T V I (Operand T V × Nat) :=
  match l with
  | .reg l =>
    if isList l.semType then do
      let (r, nextBlock) ← codeGenExprForInt exprCode block1 index
      let memberType := listMemberTypeInnerVal l.semType r.semType
      if MemberTypes.isEmpty memberType then lvalueErr "index out of range"
      else
        let result ← createMemberRegister memberType
        emitInsn nextBlock (.listGet result l r fill)
        return (.reg result, nextBlock)
    else if isMapping l.semType then do
      let (r, nextBlock) ← codeGenExprForString exprCode block1 index
      codeGenMappingGet nextBlock l (if fill then .fill else .bracket) r
    else if isString l.semType then fun _ => .error (.unimplemented "not implemented: member access on string")
    else lvalueErr "can only apply member access to list or mapping"
  | _ => lvalueErr "can only apply member access to list or mapping"

/-! ## Lvalues -/

/-- The case of `codeGenLExpr` for a variable. -/
def codeGenVarLExpr (startBlock : Nat) (name : String) : LValueM T V I (Register T × Nat) := do
  match bindingsLookup (← get).isClosure name bindings false with
  | none => lvalueErr "an lvalue can only refer to a variable definition"
  | some (binding, inOuterFunction) =>
    if inOuterFunction then
      match binding.reg with
      | .capturable underlying => do
        let reg ← getCaptureRegister underlying.semType underlying
        return (.capturable reg, startBlock)
      | _ => fun _ => .error .panic
    else return (binding.reg, startBlock)

/-- The end of `codeGenLExpr`. -/
def registerResult (access : LValueM T V I (Operand T V × Nat)) : LValueM T V I (Register T × Nat) := do
  match ← access with
  | (.reg reg, block) => return (reg, block)
  | _ => lvalueErr "list or mapping required"

def codeGenLExpr (startBlock : Nat) : LExpr E → LValueM T V I (Register T × Nat)
  | .varRef name => codeGenVarLExpr bindings startBlock name
  | .fieldAccess container fieldName => do
    let (containerOperand, _) ← codeGenLExpr startBlock container
    registerResult (codeGenFieldAccessExpr startBlock (.reg containerOperand) fieldName)
  | .memberAccess container index => do
    let (containerOperand, _) ← codeGenLExpr startBlock container
    registerResult (codeGenMemberAccessExpr exprCode startBlock (.reg containerOperand) index true)

def codeGenLExprMappingKey (block : Nat) (ref : MemberRef E) (mappingType : T) :
    LValueM T V I (Operand T V × Nat) :=
  match ref with
  | .field fieldName =>
    if containsUndef (mappingMemberTypeInner mappingType (stringConst fieldName)) then
      lvalueErr (fieldName ++ " must be a required key")
    else return (singletonStringOperand fieldName, block)
  | .index index => codeGenExprForString exprCode block index

/-- The case of `codeGenAssignToMember` for a list. -/
def codeGenAssignToListMember (reg : Register T) (block1 : Nat) (ref : MemberRef E) (expr : E) :
    LValueM T V I Nat :=
  match ref with
  | .field _ => lvalueErr "can only apply field access in lvalue to mapping"
  | .index index => do
    let (index, nextBlock) ← codeGenExprForInt exprCode block1 index
    let memberType := listMemberTypeInnerVal reg.semType index.semType
    if MemberTypes.isEmpty memberType then lvalueErr "index out of range"
    else
      let (operand, nextBlock) ← codeGenIndexExpr exprCode expr memberType nextBlock
      emitInsn nextBlock (.listSet reg index operand)
      return nextBlock

/-- The case of `codeGenAssignToMember` for a mapping. -/
def codeGenAssignToMappingMember (reg : Register T) (block1 : Nat) (ref : MemberRef E) (expr : E) :
    LValueM T V I Nat := do
  let (index, nextBlock) ← codeGenLExprMappingKey exprCode block1 ref reg.semType
  let memberType := withoutUndef (mappingMemberTypeInner reg.semType index.semType)
  let (operand, nextBlock) ← codeGenIndexExpr exprCode expr memberType nextBlock
  emitInsn nextBlock (.mappingSet reg index operand)
  return nextBlock

def codeGenAssignToMember (startBlock : Nat) (container : LExpr E) (ref : MemberRef E) (expr : E) :
    LValueM T V I Nat := do
  let (reg, block1) ← codeGenLExpr bindings exprCode startBlock container
  if isMapping reg.semType then codeGenAssignToMappingMember exprCode reg block1 ref expr
  else if isList reg.semType then codeGenAssignToListMember exprCode reg block1 ref expr
  else lvalueErr "member access can only be applied to mapping or list"

end Source

/-! ## The contract of expressions -/

/-- The terminators among the instructions are those of the expressions. -/
def memberTerminators (term : Terminators I) : Terminators (MemberInsn T V I) where
  isTerminator insn := match insn with
    | .expr i => term.isTerminator i
    | _ => false
  targets insn := match insn with
    | .expr i => term.targets i
    | _ => []

/-- Blocks that have not been made are empty, and the block has been made. -/
structure Ready (g : LValueCode T V I) (block : Nat) : Prop where
  made : block < g.code.count
  unmade : ∀ b, g.code.count ≤ b → g.code.blocks b = []

/-- The code of an expression is one part. Which expressions leave their block is a matter of the
expression: `opens`. -/
structure ExprCode.Lawful (term : Terminators I) (exprCode : ExprCode T V E I) (opens : E → Bool) : Prop where
  part : ∀ {e : E} {t : T} {block block' : Nat} {g g' : LValueCode T V I} {operand : Operand T V},
    Ready g block → exprCode e t block g = .ok ((operand, block'), g') →
      Part (memberTerminators term) g.code block g'.code block' ∧ g'.steps = g.steps ∧
        (opens e = true ↔ block' ≠ block)

/-! ## What the assignment should be -/

/-- The parts from `g` to `g'` continue each other from `start` to `stop`; all of them are reached, and
no block has an instruction after its terminator. -/
structure InSourceOrder (term : Terminators I) (g : LValueCode T V I) (start : Nat) (g' : LValueCode T V I)
    (stop : Nat) : Prop where
  connected : ∃ parts, g'.steps = g.steps ++ parts ∧ Connected start parts stop ∧
    ∀ part ∈ parts, Reaches (memberTerminators term) g'.code.blocks start part.1
  proper : ∀ b, Lib.Proper (memberTerminators term) (g'.code.blocks b)

/-- The indices of an lvalue. -/
def LExpr.indices : LExpr E → List E
  | .varRef _ => []
  | .fieldAccess container _ => container.indices
  | .memberAccess container index => container.indices ++ [index]

/-- The indices of the container of an lvalue. -/
def LExpr.innerIndices : LExpr E → List E
  | .varRef _ => []
  | .fieldAccess container _ => container.indices
  | .memberAccess container _ => container.indices

/-! ## Parts of the code -/

section Parts

variable {term : Terminators I} {g g' g'' : LValueCode T V I} {start mid stop : Nat}
  {parts parts' : List (Nat × Nat)}

/-- What has been generated from `g` to `g'`: the parts, which are one part if they continue each other. -/
structure Generated (term : Terminators I) (g : LValueCode T V I) (start : Nat) (g' : LValueCode T V I)
    (stop : Nat) (parts : List (Nat × Nat)) : Prop where
  steps : g'.steps = g.steps ++ parts
  count : g.code.count ≤ g'.code.count
  grows : Extends g.code.blocks g'.code.blocks
  ready : Ready g' stop
  reaches : ∀ part ∈ parts, Reaches (memberTerminators term) g'.code.blocks part.1 part.2
  part : Connected start parts stop → Part (memberTerminators term) g.code start g'.code stop
  ends : ∀ m, Connected start parts m → m = stop

theorem Ready.later (h : Ready g start) (hgen : Generated term g mid g' stop parts) : Ready g' start :=
  ⟨Nat.lt_of_lt_of_le h.made hgen.count, hgen.ready.unmade⟩

theorem Generated.refl (h : Ready g start) (hcode : g'.code = g.code) (hsteps : g'.steps = g.steps) :
    Generated term g start g' start [] where
  steps := by rw [hsteps, List.append_nil]
  count := hcode.symm ▸ Nat.le_refl _
  grows := by
    rw [hcode]
    exact Extends.refl _
  ready := by
    refine ⟨?_, ?_⟩ <;> rw [hcode]
    · exact h.made
    · exact h.unmade
  reaches part hpart := absurd hpart (by simp)
  part _ := by
    rw [hcode]
    exact Part.refl _ _
  ends m hm := hm.symm

/-- What continues, and what starts somewhere else: the parts are connected only if that is where the
first ones stopped. -/
theorem Generated.trans (h : Generated term g start g' mid parts) {start' : Nat}
    (h' : Generated term g' start' g'' stop parts')
    (hstart : start' = mid ∨ ∀ m k, Connected m parts' k → m = start') (hready : Ready g start) :
    Generated term g start g'' stop (parts ++ parts') where
  steps := by rw [h'.steps, h.steps, List.append_assoc]
  count := Nat.le_trans h.count h'.count
  grows := h.grows.trans h'.grows
  ready := h'.ready
  reaches part hpart := by
    rcases List.mem_append.mp hpart with hpart | hpart
    · exact Reaches.mono h'.grows (h.reaches part hpart)
    · exact h'.reaches part hpart
  part hconn := by
    obtain ⟨m, hm, hm'⟩ := connected_append.mp hconn
    obtain rfl := h.ends m hm
    have hsame : start' = m := by
      rcases hstart with hstart | hstart
      · exact hstart
      · exact (hstart m stop hm').symm
    subst hsame
    exact (h.part hm).trans (h'.part hm') hready.made hready.unmade
  ends k hk := by
    obtain ⟨m, hm, hm'⟩ := connected_append.mp hk
    obtain rfl := h.ends m hm
    have hsame : start' = m := by
      rcases hstart with hstart | hstart
      · exact hstart
      · exact (hstart m k hm').symm
    subst hsame
    exact h'.ends k hm'

/-- An instruction of the assignment. -/
theorem generated_push (h : Ready g start) (insn : MemberInsn T V I)
    (hinsn : (memberTerminators term).isTerminator insn = false)
    (hcode : g'.code = { g.code with blocks := pushInsn g.code.blocks start insn })
    (hsteps : g'.steps = g.steps ++ [(start, start)]) :
    Generated term g start g' start [(start, start)] where
  steps := hsteps
  count := hcode.symm ▸ Nat.le_refl _
  grows := by
    rw [hcode]
    exact extends_pushInsn _ _ _
  ready := by
    refine ⟨?_, ?_⟩ <;> rw [hcode]
    · exact h.made
    · exact (Part.push h.made hinsn).unmade h.unmade
  reaches part hpart := by
    rw [List.mem_singleton.mp hpart]
  part _ := by
    rw [hcode]
    exact Part.push h.made hinsn
  ends m hm := hm.2.symm

end Parts

/-! ## The parts of an assignment -/

theorem lvalue_bind_ok {α β : Type} {x : LValueM T V I α} {f : α → LValueM T V I β}
    {g g'' : LValueCode T V I} {b : β} (h : (x >>= f) g = .ok (b, g'')) :
    ∃ a g', x g = .ok (a, g') ∧ f a g' = .ok (b, g'') := by
  cases hx : x g with
  | error e =>
    rw [show (x >>= f) g = (x g).bind fun p => f p.1 p.2 from rfl, hx] at h
    cases h
  | ok p =>
    rw [show (x >>= f) g = (x g).bind fun p => f p.1 p.2 from rfl, hx] at h
    exact ⟨p.1, p.2, rfl, h⟩

section Assignment

variable [DecidableEq T] [MemberTypes T] [MemberValues V] {bindings : BindingChain T}
  {exprCode : ExprCode T V E I} {term : Terminators I} {opens : E → Bool} {g g' : LValueCode T V I}
  {block block' : Nat} {operand : Operand T V}

variable {e expr : E} {stop : Nat} {reg : Register T} {ref : MemberRef E}

omit [DecidableEq T] [MemberTypes T] [MemberValues V] in
theorem codeGenIndexExpr_ok (hlawful : exprCode.Lawful term opens) (hready : Ready g block) {t : T}
    (h : codeGenIndexExpr exprCode e t block g = .ok ((operand, block'), g')) :
    Generated term g block g' block' [(block, block')] ∧ (opens e = true ↔ block' ≠ block) := by
  obtain ⟨⟨operand1, block1⟩, g1, hexpr, h⟩ := lvalue_bind_ok h
  obtain ⟨hpart, hsteps, hopens⟩ := hlawful.part hready hexpr
  cases h
  refine ⟨⟨?_, hpart.count, hpart.grows hready.unmade, ⟨hpart.stop_lt hready.made, hpart.unmade hready.unmade⟩,
    fun part hmem => ?_, fun _ => hpart, fun m hm => hm.2.symm⟩, hopens⟩
  · show g1.steps ++ _ = _
    rw [hsteps]
  · rw [List.mem_singleton.mp hmem]
    exact hpart.reaches

omit [DecidableEq T] [MemberTypes T] [MemberValues V] in
/-- The check of an operand writes nothing. -/
theorem checked_ok {valid : Bool} {message : String} {a b : Operand T V × Nat}
    (h : (if valid then return a else lvalueErr message : LValueM T V I _) g = .ok (b, g')) :
    b = a ∧ g' = g := by
  cases valid with
  | true =>
    cases h
    exact ⟨rfl, rfl⟩
  | false => cases h

omit [DecidableEq T] in
theorem codeGenExprForInt_ok (hlawful : exprCode.Lawful term opens) (hready : Ready g block)
    (h : codeGenExprForInt exprCode block e g = .ok ((operand, block'), g')) :
    Generated term g block g' block' [(block, block')] ∧ (opens e = true ↔ block' ≠ block) := by
  obtain ⟨⟨operand1, block1⟩, g1, hexpr, h⟩ := lvalue_bind_ok h
  obtain ⟨heq, rfl⟩ := checked_ok h
  cases heq
  exact codeGenIndexExpr_ok hlawful hready hexpr

omit [DecidableEq T] in
theorem codeGenExprForString_ok (hlawful : exprCode.Lawful term opens) (hready : Ready g block)
    (h : codeGenExprForString exprCode block e g = .ok ((operand, block'), g')) :
    Generated term g block g' block' [(block, block')] ∧ (opens e = true ↔ block' ≠ block) := by
  obtain ⟨⟨operand1, block1⟩, g1, hexpr, h⟩ := lvalue_bind_ok h
  obtain ⟨heq, rfl⟩ := checked_ok h
  cases heq
  exact codeGenIndexExpr_ok hlawful hready hexpr

omit [DecidableEq T] [MemberTypes T] [MemberValues V] in
/-- A new register and the instruction that sets it. -/
theorem setNew_ok (hready : Ready g block) {t : T} {insn : Register T → MemberInsn T V I}
    (hinsn : ∀ result, (memberTerminators term).isTerminator (insn result) = false)
    (h : (do
      let result ← createMemberRegister t
      emitInsn block (insn result)
      return (Operand.reg result, block) : LValueM T V I _) g = .ok ((operand, block'), g')) :
    block' = block ∧ Generated term g block g' block [(block, block)] := by
  cases h
  exact ⟨rfl, generated_push hready _ (hinsn _) rfl rfl⟩

omit [DecidableEq T] [MemberValues V] in
theorem codeGenMappingGet_ok (hready : Ready g block) {mapping : Register T}
    {accessType : MappingAccessType} {k : Operand T V}
    (h : codeGenMappingGet block mapping accessType k g = .ok ((operand, block'), g')) :
    block' = block ∧ Generated term g block g' block [(block, block)] := by
  unfold codeGenMappingGet at h
  split at h
  · cases accessType with
    | dot fieldName => cases h
    | bracket => exact setNew_ok hready (fun _ => rfl) h
    | fill => exact setNew_ok hready (fun _ => rfl) h
  · exact setNew_ok hready (fun _ => rfl) h

omit [DecidableEq T] in
theorem codeGenFieldAccessExpr_ok (hready : Ready g block) {l : Operand T V} {fieldName : String}
    (h : codeGenFieldAccessExpr block l fieldName g = .ok ((operand, block'), g')) :
    block' = block ∧ Generated term g block g' block [(block, block)] := by
  unfold codeGenFieldAccessExpr at h
  cases l with
  | reg l =>
    dsimp only at h
    split at h
    · exact codeGenMappingGet_ok hready h
    · cases h
  | const value semType => cases h
  | function value semType => cases h

omit [DecidableEq T] in
/-- The access starts with its index, and its instruction is where the index stops. -/
theorem codeGenMemberAccessExpr_ok (hlawful : exprCode.Lawful term opens) (hready : Ready g block)
    {l : Operand T V} {index : E} {fill : Bool}
    (h : codeGenMemberAccessExpr exprCode block l index fill g = .ok ((operand, block'), g')) :
    Generated term g block g' block' [(block, block'), (block', block')] ∧
      (opens index = true ↔ block' ≠ block) := by
  unfold codeGenMemberAccessExpr at h
  cases l with
  | const value semType => cases h
  | function value semType => cases h
  | reg l =>
    dsimp only at h
    split at h
    · obtain ⟨⟨r, block1⟩, g1, hindex, h⟩ := lvalue_bind_ok h
      obtain ⟨hgen, hopens⟩ := codeGenExprForInt_ok hlawful hready hindex
      dsimp only at h
      split at h
      · cases h
      · obtain ⟨rfl, hset⟩ := setNew_ok hgen.ready (fun _ => rfl) h
        exact ⟨hgen.trans hset (.inl rfl) hready, hopens⟩
    · split at h
      · obtain ⟨⟨r, block1⟩, g1, hindex, h⟩ := lvalue_bind_ok h
        obtain ⟨hgen, hopens⟩ := codeGenExprForString_ok hlawful hready hindex
        obtain ⟨rfl, hget⟩ := codeGenMappingGet_ok hgen.ready h
        exact ⟨hgen.trans hget (.inl rfl) hready, hopens⟩
      · split at h <;> cases h

omit [MemberTypes T] [MemberValues V] in
theorem codeGenVarLExpr_ok (hready : Ready g block) {name : String}
    (h : codeGenVarLExpr bindings block name g = .ok ((reg, block'), g')) :
    block' = block ∧ Generated term g block g' block [] := by
  obtain ⟨g1, g2, hget, h⟩ := lvalue_bind_ok h
  cases hget
  cases hlookup : bindingsLookup g.isClosure name bindings false with
  | none =>
    rw [hlookup] at h
    cases h
  | some found =>
    obtain ⟨binding, inOuterFunction⟩ := found
    rw [hlookup] at h
    cases inOuterFunction with
    | false =>
      cases h
      exact ⟨rfl, .refl hready rfl rfl⟩
    | true =>
      dsimp only at h
      rw [if_pos rfl] at h
      cases hreg : binding.reg with
      | capturable underlying =>
        rw [hreg] at h
        obtain ⟨captured, g3, hcapture, h⟩ := lvalue_bind_ok h
        cases h
        refine ⟨rfl, ?_⟩
        unfold getCaptureRegister at hcapture
        split at hcapture <;> cases hcapture <;> exact .refl hready rfl rfl
      | narrow reg =>
        rw [hreg] at h
        cases h
      | tmp number semType =>
        rw [hreg] at h
        cases h
      | assignTmp number semType =>
        rw [hreg] at h
        cases h

omit [DecidableEq T] [MemberTypes T] [MemberValues V] in
theorem registerResult_ok {access : LValueM T V I (Operand T V × Nat)}
    (h : registerResult access g = .ok ((reg, block'), g')) :
    access g = .ok ((.reg reg, block'), g') := by
  obtain ⟨⟨operand, block1⟩, g1, haccess, h⟩ := lvalue_bind_ok h
  cases operand with
  | reg r =>
    cases h
    exact haccess
  | const value semType => cases h
  | function value semType => cases h

/-- The parts of an lvalue continue each other if no inner index leaves its block, and stop where they
started if no index at all does. -/
structure LExprParts (opens : E → Bool) (lvalue : LExpr E) (start stop : Nat) (parts : List (Nat × Nat)) :
    Prop where
  connected : Connected start parts stop ↔ ∀ i ∈ lvalue.innerIndices, opens i = false
  stays : (Connected start parts stop ∧ stop = start) ↔ ∀ i ∈ lvalue.indices, opens i = false

theorem codeGenLExpr_ok (hlawful : exprCode.Lawful term opens) :
    ∀ {lvalue : LExpr E} {g g' : LValueCode T V I} {reg : Register T} {stop : Nat}, Ready g block →
      codeGenLExpr bindings exprCode block lvalue g = .ok ((reg, stop), g') →
      ∃ parts, Generated term g block g' stop parts ∧ LExprParts opens lvalue block stop parts
  | .varRef name, g, g', reg, stop, hready, h => by
    have hvar : stop = block ∧ Generated term g block g' block [] := codeGenVarLExpr_ok hready h
    obtain ⟨rfl, hgen⟩ := hvar
    have hnone : ∀ i ∈ ([] : List E), opens i = false := fun i hi => absurd hi (by simp)
    exact ⟨[], hgen, ⟨fun _ => hnone, fun _ => rfl⟩, ⟨fun _ => hnone, fun _ => ⟨rfl, rfl⟩⟩⟩
  | .fieldAccess container fieldName, g, g', reg, stop, hready, h => by
    obtain ⟨⟨containerReg, mid⟩, g1, hcontainer, h⟩ := lvalue_bind_ok h
    obtain ⟨parts, hgen, hparts⟩ := codeGenLExpr_ok hlawful hready hcontainer
    have hfield : stop = block ∧ Generated term g1 block g' block [(block, block)] :=
      codeGenFieldAccessExpr_ok (hready.later hgen) (registerResult_ok h)
    obtain ⟨rfl, haccess⟩ := hfield
    refine ⟨_, hgen.trans haccess (.inr fun m k hm => hm.1.symm) hready, ?_⟩
    have hconn : Connected stop (parts ++ [(stop, stop)]) stop ↔
        ∀ i ∈ container.indices, opens i = false := by
      rw [← hparts.stays, connected_append]
      refine ⟨fun ⟨m, hm, hm'⟩ => ?_, fun ⟨hm, heq⟩ => ⟨mid, hm, heq.symm, rfl⟩⟩
      obtain rfl := hgen.ends m hm
      exact ⟨hm, hm'.1.symm⟩
    exact ⟨hconn, ⟨fun h => hconn.mp h.1, fun h => ⟨hconn.mpr h, rfl⟩⟩⟩
  | .memberAccess container index, g, g', reg, stop, hready, h => by
    obtain ⟨⟨containerReg, mid⟩, g1, hcontainer, h⟩ := lvalue_bind_ok h
    obtain ⟨parts, hgen, hparts⟩ := codeGenLExpr_ok hlawful hready hcontainer
    obtain ⟨haccess, hopens⟩ :=
      codeGenMemberAccessExpr_ok hlawful (hready.later hgen) (registerResult_ok h)
    refine ⟨_, hgen.trans haccess (.inr fun m k hm => hm.1.symm) hready, ?_⟩
    have hconn : Connected block (parts ++ [(block, stop), (stop, stop)]) stop ↔
        ∀ i ∈ container.indices, opens i = false := by
      rw [← hparts.stays, connected_append]
      refine ⟨fun ⟨m, hm, hm'⟩ => ?_, fun ⟨hm, heq⟩ => ⟨mid, hm, heq.symm, rfl, rfl⟩⟩
      obtain rfl := hgen.ends m hm
      exact ⟨hm, hm'.1.symm⟩
    have hstop : stop = block ↔ opens index = false := by
      rw [← Bool.not_eq_true, hopens, not_not]
    refine ⟨hconn, ?_⟩
    rw [hconn, hstop]
    show _ ↔ ∀ i ∈ container.indices ++ [index], opens i = false
    rw [List.forall_mem_append, List.forall_mem_singleton]

omit [DecidableEq T] [MemberTypes T] [MemberValues V] in
/-- The end of an assignment: the value, and the instruction that sets the member. -/
theorem setMember_ok (hlawful : exprCode.Lawful term opens) (hready : Ready g block) {t : T}
    {insn : Operand T V → MemberInsn T V I}
    (hinsn : ∀ operand, (memberTerminators term).isTerminator (insn operand) = false) (h : (do
      let (operand, nextBlock) ← codeGenIndexExpr exprCode expr t block
      emitInsn nextBlock (insn operand)
      return nextBlock : LValueM T V I _) g = .ok (stop, g')) :
    Generated term g block g' stop [(block, stop), (stop, stop)] := by
  obtain ⟨⟨operand, nextBlock⟩, g1, hvalue, h⟩ := lvalue_bind_ok h
  obtain ⟨hgen, -⟩ := codeGenIndexExpr_ok hlawful hready hvalue
  cases h
  exact hgen.trans (generated_push hgen.ready _ (hinsn _) rfl rfl) (.inl rfl) hready

omit [DecidableEq T] in
theorem codeGenAssignToListMember_ok (hlawful : exprCode.Lawful term opens) (hready : Ready g block)
    (h : codeGenAssignToListMember exprCode reg block ref expr g = .ok (stop, g')) :
    ∃ parts, Generated term g block g' stop parts ∧ Connected block parts stop := by
  cases ref with
  | field fieldName => cases h
  | index index =>
    obtain ⟨⟨r, nextBlock⟩, g1, hindex, h⟩ := lvalue_bind_ok h
    obtain ⟨hgen, -⟩ := codeGenExprForInt_ok hlawful hready hindex
    dsimp only at h
    split at h
    · cases h
    · have hset := setMember_ok hlawful hgen.ready (fun _ => rfl) h
      exact ⟨_, hgen.trans hset (.inl rfl) hready, rfl, rfl, rfl, rfl⟩

omit [DecidableEq T] in
theorem codeGenAssignToMappingMember_ok (hlawful : exprCode.Lawful term opens) (hready : Ready g block)
    (hrun : codeGenAssignToMappingMember exprCode reg block ref expr g = .ok (stop, g')) :
    ∃ parts, Generated term g block g' stop parts ∧ Connected block parts stop := by
  obtain ⟨⟨k, nextBlock⟩, g1, hkey, h⟩ := lvalue_bind_ok hrun
  clear hrun
  cases ref with
  | field fieldName =>
    unfold codeGenLExprMappingKey at hkey
    dsimp only at hkey
    split at hkey
    · cases hkey
    · cases hkey
      have hset := setMember_ok hlawful hready (fun _ => rfl) h
      exact ⟨_, hset, rfl, rfl, rfl⟩
  | index index =>
    obtain ⟨hgen, -⟩ := codeGenExprForString_ok hlawful hready hkey
    have hset := setMember_ok hlawful hgen.ready (fun _ => rfl) h
    exact ⟨_, hgen.trans hset (.inl rfl) hready, rfl, rfl, rfl, rfl⟩

/-- An assignment consists of the parts of its container and of parts that continue these. -/
theorem codeGenAssignToMember_ok (hlawful : exprCode.Lawful term opens) (hready : Ready g block)
    {container : LExpr E}
    (h : codeGenAssignToMember bindings exprCode block container ref expr g = .ok (stop, g')) :
    ∃ parts, Generated term g block g' stop parts ∧
      (Connected block parts stop ↔ ∀ i ∈ container.innerIndices, opens i = false) := by
  obtain ⟨⟨reg, block1⟩, g1, hcontainer, h⟩ := lvalue_bind_ok h
  obtain ⟨parts, hgen, hparts⟩ := codeGenLExpr_ok hlawful hready hcontainer
  have hend : ∃ parts', Generated term g1 block1 g' stop parts' ∧ Connected block1 parts' stop := by
    dsimp only at h
    split at h
    · exact codeGenAssignToMappingMember_ok hlawful hgen.ready h
    · split at h
      · exact codeGenAssignToListMember_ok hlawful hgen.ready h
      · cases h
  obtain ⟨parts', hgen', hconn⟩ := hend
  refine ⟨_, hgen.trans hgen' (.inl rfl) hready, ?_⟩
  rw [← hparts.connected, connected_append]
  refine ⟨fun ⟨m, hm, _⟩ => ?_, fun hm => ⟨block1, hm, hconn⟩⟩
  obtain rfl := hgen.ends m hm
  exact hm

/-- From an unfinished block, the code of an assignment is in source order and puts nothing after a
terminator if and only if no index within the container of its container leaves its block. -/
theorem codeGenAssignToMember_inSourceOrder_iff (hlawful : exprCode.Lawful term opens)
    (hready : Ready g block) (hunfinished : Unfinished (memberTerminators term) (g.code.blocks block))
    (hproper : ∀ b, Lib.Proper (memberTerminators term) (g.code.blocks b))
    {container : LExpr E} {ref : MemberRef E} {expr : E} {stop : Nat}
    (h : codeGenAssignToMember bindings exprCode block container ref expr g = .ok (stop, g')) :
    InSourceOrder term g block g' stop ↔ ∀ i ∈ container.innerIndices, opens i = false := by
  obtain ⟨parts, hgen, hconn⟩ := codeGenAssignToMember_ok hlawful hready h
  rw [← hconn]
  constructor
  · rintro ⟨⟨parts', hsteps, hconnected, -⟩, -⟩
    rw [hgen.steps] at hsteps
    rw [List.append_cancel_left hsteps]
    exact hconnected
  · intro hconnected
    exact ⟨⟨parts, hgen.steps, hconnected, hconnected.reaches hgen.reaches⟩,
      (hgen.part hconnected).proper hunfinished hready.unmade hproper⟩

end Assignment

/-! ## An index with `check` -/

/-- A type of lists, whose members are such lists again, and of ints. -/
inductive NestedList where
  | all
deriving DecidableEq

instance : MemberTypes NestedList where
  INT := .all
  STRING := .all
  isList _ := true
  isMapping _ := false
  isString _ := false
  isInt _ := true
  isEmpty _ := false
  listMemberTypeInnerVal _ _ := .all
  mappingMemberTypeInner _ _ := .all
  containsUndef _ := false
  withoutUndef := id
  orNil := id
  stringConst _ := .all

instance : MemberValues Unit where
  isIntConst _ := true
  isStringConst _ := false
  string _ := ()

/-- A constant, or `check f()` -/
inductive IndexExpr where
  | const
  | check
deriving DecidableEq

/-- The instructions of `check`. -/
inductive CheckInsn where
  | call (result : Nat)
  | typeCondBranch (operand : Nat) (ifTrue ifFalse : Nat)
  | ret (operand : Nat)

def checkTerminators : Terminators CheckInsn where
  isTerminator
    | .call _ => false
    | _ => true
  targets
    | .typeCondBranch _ ifTrue ifFalse => [ifTrue, ifFalse]
    | _ => []

/-- The code of `check` from the end of a block on, if `count` blocks have been made. -/
def checkBlocks (blocks : Blocks (MemberInsn NestedList Unit CheckInsn)) (block count result : Nat) :
    Blocks (MemberInsn NestedList Unit CheckInsn) :=
  let blocks := pushInsn blocks block (.expr (.call result))
  let blocks := pushInsn blocks block (.expr (.typeCondBranch result count (count + 1)))
  pushInsn blocks count (.expr (.ret result))

/-- The code of a constant index, and that of one with `check`: of the two blocks that it makes, it goes
on in the one without an error. -/
def indexCode : ExprCode NestedList Unit IndexExpr CheckInsn
  | .const, _, block => fun g => .ok ((.const () .all, block), g)
  | .check, _, block => fun g =>
    let result := g.registers.length
    .ok ((.reg (.tmp result .all), g.code.count + 1), { g with
      registers := g.registers ++ [.tmp result .all]
      code := ⟨checkBlocks g.code.blocks block g.code.count result, g.code.count + 2⟩ })

section Check

variable {blocks : Blocks (MemberInsn NestedList Unit CheckInsn)} {block count : Nat}

theorem checkBlocks_self (h : block < count) (result : Nat) : checkBlocks blocks block count result block =
    blocks block ++ ([.expr (.call result)] ++ [.expr (.typeCondBranch result count (count + 1))]) := by
  unfold checkBlocks
  rw [pushInsn_of_ne _ (Nat.ne_of_lt h), pushInsn_self, pushInsn_self, List.append_assoc]

theorem checkBlocks_error (h : block < count) (hempty : blocks count = []) (result : Nat) :
    checkBlocks blocks block count result count = [.expr (.ret result)] := by
  unfold checkBlocks
  rw [pushInsn_self, pushInsn_of_ne _ (Nat.ne_of_gt h), pushInsn_of_ne _ (Nat.ne_of_gt h), hempty]
  rfl

theorem checkBlocks_other {b : Nat} (h : b ≠ block) (h' : b ≠ count) (result : Nat) :
    checkBlocks blocks block count result b = blocks b := by
  unfold checkBlocks
  rw [pushInsn_of_ne _ h', pushInsn_of_ne _ h, pushInsn_of_ne _ h]

end Check

theorem indexCode_lawful : indexCode.Lawful checkTerminators (· = .check) where
  part {e t block block' g g' operand} hready h := by
    cases e with
    | const =>
      cases h
      exact ⟨.refl _ _, rfl, by simp⟩
    | check =>
      cases h
      have hmade := hready.made
      have hself := @checkBlocks_self g.code.blocks _ _ hmade g.registers.length
      have herr := checkBlocks_error hmade (hready.unmade _ (Nat.le_refl _)) g.registers.length
      have hok : checkBlocks g.code.blocks block g.code.count g.registers.length (g.code.count + 1) = [] := by
        rw [checkBlocks_other (by omega) (by omega)]
        exact hready.unmade _ (Nat.le_succ _)
      refine ⟨⟨Nat.le_add_right _ 2, fun b hb hbs => checkBlocks_other hbs (Nat.ne_of_lt hb) _,
        fun hunmade b hb => ?_, fun b hb hlt => ?_, ?_, ?_⟩, rfl, ?_⟩
      · have hb : g.code.count + 2 ≤ b := hb
        show checkBlocks _ _ _ _ b = []
        rw [checkBlocks_other (by omega) (by omega)]
        exact hunmade b (by omega)
      · have hlt : b < g.code.count + 2 := hlt
        show Lib.Proper _ (checkBlocks _ _ _ _ b)
        rcases Nat.lt_or_eq_of_le (Nat.lt_succ_iff.mp hlt) with hlt | rfl
        · obtain rfl : b = g.code.count := by omega
          rw [herr]
          exact fun t ht => absurd ht (by simp)
        · rw [hok]
          exact fun t ht => absurd ht (by simp)
      · -- the branch leads to the block without an error
        refine .single ⟨.expr (.typeCondBranch g.registers.length g.code.count (g.code.count + 1)), ?_, ?_⟩
        · show _ ∈ checkBlocks _ _ _ _ block
          rw [hself]
          simp
        · exact .tail _ (.head _)
      · refine .inr ⟨Nat.le_succ _, Nat.lt_succ_self _, ?_, _, _, hself, ?_⟩
        · show Unfinished _ (checkBlocks _ _ _ _ (g.code.count + 1))
          rw [hok]
          exact fun t ht => absurd ht (by simp)
        · intro t ht
          rw [List.mem_singleton.mp ht]
          rfl
      · refine ⟨fun _ => ?_, fun _ => rfl⟩
        show g.code.count + 1 ≠ block
        omega

/-- A variable `a`, and one block. -/
def startBindings : BindingChain NestedList := [.binding (.decl ⟨"a", ⟨.var, 0, .all⟩, false, fun _ => rfl⟩)]

def startCode : LValueCode NestedList Unit CheckInsn :=
  ⟨[.capturable (.decl ⟨.var, 0, .all⟩)], ⟨fun _ => [], 1⟩, false, [], []⟩

theorem ready_startCode : Ready startCode 0 := ⟨Nat.one_pos, fun _ _ => rfl⟩

/-- `a[check f()][0] = 0` -/
theorem codeGenAssignToMember_inSourceOrder_check : ∃ g' stop,
    codeGenAssignToMember startBindings indexCode 0 (.memberAccess (.varRef "a") .check) (.index .const)
      .const startCode = .ok (stop, g') ∧
    (InSourceOrder checkTerminators startCode 0 g' stop ↔
      ∀ i ∈ (LExpr.memberAccess (.varRef "a") IndexExpr.check).innerIndices, decide (i = .check) = false) := by
  have hunfinished : Unfinished (memberTerminators checkTerminators) (startCode.code.blocks 0) :=
    fun t ht => absurd ht (by simp [startCode])
  have hrun : codeGenAssignToMember startBindings indexCode 0 (.memberAccess (.varRef "a") .check)
      (.index .const) .const startCode = .ok (_, _) := rfl
  exact ⟨_, _, hrun, codeGenAssignToMember_inSourceOrder_iff indexCode_lawful ready_startCode hunfinished
    (fun _ t ht => absurd ht (by simp [startCode])) hrun⟩

/-- `a[check f()][0][0] = 0`: the block that the `check` has ended gets more instructions. -/
theorem not_inSourceOrder_check : ∃ g' stop,
    codeGenAssignToMember startBindings indexCode 0 (.memberAccess (.memberAccess (.varRef "a") .check) .const)
      (.index .const) .const startCode = .ok (stop, g') ∧
    ¬ InSourceOrder checkTerminators startCode 0 g' stop := by
  refine ⟨_, _, rfl, fun h => ?_⟩
  have hbranch := h.proper 0 (.expr (.typeCondBranch 1 1 2)) (.tail _ (.head _))
  cases hbranch

end Nballerina.CodeGen
