import Nballerina.Front.CompileError
import Nballerina.Types.BitSetOps
import Nballerina.Types.CellSem
import Nballerina.Types.MappingExact
import Nballerina.Types.SingleAtom
import Nballerina.Types.TypeQueries

/-!
# Mapping constructors

`codeGenMappingConstructor` (`front/expr.bal`) looks at each given field, whether the inherent type
allows it and whether its value has the type of the field. That no field is missing is left to the
verifier, and `verifyMappingConstruct` (`bir/verify.bal`) only compares two numbers: the fields that
are given, and the individual fields of the type.

So fields that are allowed, with values that have their types, are accepted if and only if they are not
fewer than the individual fields: at least as many other fields are given as individual ones are missing.
This is right if and only if it agrees with whether all missing fields are optional
(`mappingConstructor_right_iff`).

Mirroring notes:
- The answers of the two `Context`s and `mappingAlternatives` are parameters. The generator of the code of
  an expression gives its operand; blocks and positions are left out.
- Left out is the constructor without an expected type, whose type is made from its fields.
- `fieldPos` has the names that have been given so far.
-/

namespace Nballerina.Front

open Nballerina.Types

variable {E : Type}

/-! ## Operands and instructions -/

/-- `bir:Operand` -/
inductive ConstructorOperand where
  | const (value : SingleValue) (semType : SemType)
  | function (semType : SemType)
  | register (semType : SemType)

def ConstructorOperand.semType : ConstructorOperand → SemType
  | .const _ semType => semType
  | .function semType => semType
  | .register semType => semType

structure MappingConstructInsn where
  fieldNames : List String
  operands : List ConstructorOperand
  /-- the type of `result` -/
  resultType : SemType

/-- `s:Field` -/
structure ConstructorField (E : Type) where
  name : String
  isIdentifier : Bool
  value : E

structure MappingAlternative where
  semType : SemType
  pos : Option MappingAtomicType
  neg : List MappingAtomicType

/-- `containsUndef` (`core.bal`) -/
def containsUndef (t : SemType) : Option Bool := do
  match ← subtypeData t BT_UNDEF with
  | .bool b => some b
  | .proper _ => none

section Source

variable [BddIdentity] (queries : TypeQueries) (env : Env)
  (mappingAlternatives : SemType → List MappingAlternative)

/-! ## The inherent type -/

/-- The inner loop of `mappingAlternativeAllowsFields`: the names after `name`. -/
def skipTo (name : String) : List String → Option (List String)
  | [] => none
  | fieldName :: fieldNames =>
    if fieldName = name then some fieldNames
    else if name < fieldName then none
    else skipTo name fieldNames

/-- The outer loop of `mappingAlternativeAllowsFields`. -/
def includesNames : List String → List String → Bool
  | [], _ => true
  | name :: names, fieldNames =>
    match skipTo name fieldNames with
    | none => false
    | some fieldNames => includesNames names fieldNames

def mappingAlternativeAllowsFields (alt : MappingAlternative) (fieldNames : List String) :
    Except CompileError Bool := do
  let allowed ← match alt.pos with
    | none => pure true
    | some pos => do
      let rest ← orPanic (cellInner pos.rest)
      pure ((rest ≠ .bits UNDEF || pos.names = fieldNames) && includesNames pos.names fieldNames)
  -- the source returns `false` before it looks at the negative atoms
  if !allowed then return false
  else if alt.neg.length ≠ 0 then throw .panic
  else return true

def selectMappingInherentType (expectedType : SemType) (fields : List (ConstructorField E)) :
    Except CompileError (SemType × MappingAtomicType) := do
  let expectedMappingType ← orPanic (intersect ops expectedType (.bits MAPPING))
  if ← orPanic (queries.isEmpty expectedMappingType) then
    throw (.semantic "mapping not allowed in this context")
  else
    match ← orPanic (env.mappingAtomicType expectedMappingType) with
    | some mat => return (expectedMappingType, mat)
    | none => do
      let fieldNames := (fields.map (·.name)).mergeSort fun a b => decide (a ≤ b)
      let alts ← (mappingAlternatives expectedMappingType).filterM fun alt =>
        mappingAlternativeAllowsFields alt fieldNames
      match alts with
      | [] => throw (.semantic "no applicable inherent type for mapping constructor")
      | [alt] => do
        match ← orPanic (env.mappingAtomicType alt.semType) with
        | none => throw (.semantic "applicable type for mapping constructor is not atomic")
        | some mat => return (alt.semType, mat)
      | _ => throw (.semantic "ambiguous inherent type for mapping constructor")

/-! ## The fields -/

/-- `operandHasType` of `expr.bal`: a constant by its value. -/
def frontOperandHasType (operand : ConstructorOperand) (t : SemType) : Option Bool :=
  match operand with
  | .const value _ => containsConst t value
  | operand => queries.isSubtype operand.semType t

/-- `operandHasType` of `bir.bal`: a constant by its type, too. -/
def birOperandHasType (operand : ConstructorOperand) (t : SemType) : Option Bool :=
  queries.isSubtype operand.semType t

def mappingAtomicTypeMemberAtInnerVal (mat : MappingAtomicType) (k : String) : Option SemType :=
  cellInnerVal (mappingAtomicTypeMemberAt mat k)

variable (codeGenExpr : E → SemType → Except CompileError ConstructorOperand)

def codeGenExprForType (requiredType : SemType) (expr : E) (msg : String) :
    Except CompileError ConstructorOperand := do
  let operand ← codeGenExpr expr requiredType
  if ← orPanic (frontOperandHasType queries operand requiredType) then return operand
  else throw (.semantic msg)

/-- The checks of a name that is not among those of the type. -/
def checkFieldName (mat : MappingAtomicType) (f : ConstructorField E) : Except CompileError Unit := do
  if f.name ∈ mat.names then return ()
  else
    let rest ← orPanic (cellInner mat.rest)
    if rest = .bits UNDEF then throw (.semantic ("type does not allow field named " ++ f.name))
    else if f.isIdentifier ∧ mat.names.length > 0 then
      throw (.semantic "field name must be in double quotes since it is not an individual field in the type")
    else return ()

/-- The loop over the fields. -/
def codeGenFields (mat : MappingAtomicType) : List (ConstructorField E) → List String →
    Except CompileError (List (String × ConstructorOperand))
  | [], _ => return []
  | f :: fields, fieldPos => do
    if f.name ∈ fieldPos then throw (.semantic ("duplicate field " ++ f.name))
    else
      checkFieldName mat f
      let requiredType ← orPanic (mappingAtomicTypeMemberAtInnerVal mat f.name)
      let operand ← codeGenExprForType queries codeGenExpr requiredType f.value
        "incorrect type for mapping member"
      let given ← codeGenFields mat fields (f.name :: fieldPos)
      return (f.name, operand) :: given

def codeGenMappingConstructor (expected : SemType) (fields : List (ConstructorField E)) :
    Except CompileError MappingConstructInsn := do
  let (resultType, mat) ← selectMappingInherentType queries env mappingAlternatives expected fields
  let given ← codeGenFields queries codeGenExpr mat fields []
  return ⟨given.map (·.1), given.map (·.2), resultType⟩

/-! ## The verifier -/

/-- The loop over the operands. -/
def verifyOperands (mat : MappingAtomicType) : List (String × ConstructorOperand) → Except CompileError Unit
  | [] => return ()
  | (fieldName, operand) :: given => do
    let ty ← orPanic (mappingAtomicTypeMemberAtInnerVal mat fieldName)
    if !(← orPanic (birOperandHasType queries operand ty)) then
      throw (.internal "type of mapping constructor member is not allowed by the mapping type")
    else verifyOperands mat given

def verifyMappingConstruct (insn : MappingConstructInsn) : Except CompileError Unit := do
  let ty := insn.resultType
  if !(← orPanic (queries.isSubtype ty (.bits MAPPING))) then
    throw (.internal "inherent type of mapping construct is not a mapping")
  else
    match ← orPanic (env.mappingAtomicType ty) with
    | none => throw (.internal "inherent type of map is not atomic")
    | some mat => do
      verifyOperands queries mat (insn.fieldNames.zip insn.operands)
      if insn.operands.length < mat.names.length then
        throw (.semantic "missing record fields in mapping constructor")
      else return ()

end Source

/-! ## Lists in step -/

theorem exists_of_forall₂ {α β : Type} {R : α → β → Prop} {a : α} : ∀ {l1 : List α} {l2 : List β},
    List.Forall₂ R l1 l2 → a ∈ l1 → ∃ b ∈ l2, R a b
  | _, _, .nil, h => (List.not_mem_nil h).elim
  | _, _, .cons hR hrest, h => by
    rcases List.mem_cons.mp h with rfl | h
    · exact ⟨_, .head _, hR⟩
    · obtain ⟨b, hb, hab⟩ := exists_of_forall₂ hrest h
      exact ⟨b, .tail _ hb, hab⟩

theorem forall₂_of_exists {α β : Type} {R : α → β → Prop} : ∀ {l1 : List α},
    (∀ a ∈ l1, ∃ b, R a b) → ∃ l2, List.Forall₂ R l1 l2
  | [], _ => ⟨[], .nil⟩
  | a :: l1, h => by
    obtain ⟨b, hb⟩ := h a (.head _)
    obtain ⟨l2, hl⟩ := forall₂_of_exists fun a' ha => h a' (.tail _ ha)
    exact ⟨b :: l2, .cons hb hl⟩

/-! ## What is checked -/

section Checked

variable {mat : MappingAtomicType}

/-- The type has the field, as an individual one or by its rest. -/
def Allows (mat : MappingAtomicType) (f : ConstructorField E) : Prop :=
  f.name ∈ mat.names ∨
    ∃ rest, cellInner mat.rest = some rest ∧ rest ≠ .bits UNDEF ∧ (f.isIdentifier → mat.names = [])

/-- Each field is given once, and the type has it. -/
structure FieldsAllowed (mat : MappingAtomicType) (fields : List (ConstructorField E)) : Prop where
  once : (fields.map (·.name)).Nodup
  allowed : ∀ f ∈ fields, Allows mat f

theorem checkFieldName_ok {f : ConstructorField E} : checkFieldName mat f = .ok () ↔ Allows mat f := by
  unfold checkFieldName Allows
  by_cases hmem : f.name ∈ mat.names
  · rw [if_pos hmem]
    exact iff_of_true rfl (.inl hmem)
  · rw [if_neg hmem, check_orPanic, or_iff_right hmem]
    refine exists_congr fun rest => and_congr_right fun _ => ?_
    by_cases hrest : rest = .bits UNDEF
    · rw [if_pos hrest]
      exact iff_of_false (fun h => by cases h) (fun h => h.1 hrest)
    · rw [if_neg hrest, and_iff_right hrest]
      by_cases hquoted : f.isIdentifier = true ∧ mat.names.length > 0
      · rw [if_pos hquoted]
        refine iff_of_false (fun h => by cases h) fun h => ?_
        rw [h hquoted.1] at hquoted
        exact Nat.lt_irrefl 0 hquoted.2
      · rw [if_neg hquoted]
        refine iff_of_true rfl fun hid => ?_
        exact List.length_eq_zero_iff.mp (Nat.eq_zero_of_not_pos fun hpos => hquoted ⟨hid, hpos⟩)

variable [BddIdentity] (queries : TypeQueries)
  (codeGenExpr : E → SemType → Except CompileError ConstructorOperand)

/-- The operand that the value of a field has. -/
def FieldOperand (mat : MappingAtomicType) (f : ConstructorField E) (operand : ConstructorOperand) : Prop :=
  ∃ ty, mappingAtomicTypeMemberAtInnerVal mat f.name = some ty ∧ codeGenExpr f.value ty = .ok operand ∧
    frontOperandHasType queries operand ty = some true

/-- The value of each field has the type of the field, as both passes see it. -/
def Suitable (mat : MappingAtomicType) (fields : List (ConstructorField E)) : Prop :=
  ∀ f ∈ fields, ∃ ty operand, mappingAtomicTypeMemberAtInnerVal mat f.name = some ty ∧
    codeGenExpr f.value ty = .ok operand ∧ frontOperandHasType queries operand ty = some true ∧
      birOperandHasType queries operand ty = some true

variable {queries codeGenExpr}

theorem codeGenExprForType_ok {ty : SemType} {e : E} {msg : String} {operand : ConstructorOperand} :
    codeGenExprForType queries codeGenExpr ty e msg = .ok operand ↔
      codeGenExpr e ty = .ok operand ∧ frontOperandHasType queries operand ty = some true := by
  unfold codeGenExprForType
  rw [check_ok]
  constructor
  · intro ⟨operand', hgen, h⟩
    obtain ⟨b, hb, h⟩ := check_orPanic.mp h
    cases b with
    | false => cases h
    | true =>
      cases h
      exact ⟨hgen, hb⟩
  · intro ⟨hgen, hhas⟩
    exact ⟨operand, hgen, check_orPanic.mpr ⟨true, hhas, rfl⟩⟩

/-- What the loop over the fields gives, and when it comes through. -/
theorem codeGenFields_ok : ∀ {fields : List (ConstructorField E)} {fieldPos : List String}
    {given : List (String × ConstructorOperand)},
    codeGenFields queries codeGenExpr mat fields fieldPos = .ok given ↔
      (fields.map (·.name)).Nodup ∧ (∀ f ∈ fields, f.name ∉ fieldPos ∧ Allows mat f) ∧
        List.Forall₂ (fun f g => g.1 = f.name ∧ FieldOperand queries codeGenExpr mat f g.2) fields given
  | [], fieldPos, given => by
    constructor
    · intro h
      cases h
      exact ⟨List.nodup_nil, fun f hf => (List.not_mem_nil hf).elim, .nil⟩
    · intro ⟨_, _, h⟩
      cases h
      rfl
  | f :: fields, fieldPos, given => by
    rw [codeGenFields]
    by_cases hdup : f.name ∈ fieldPos
    · rw [if_pos hdup]
      refine iff_of_false (fun h => by cases h) fun h => ?_
      exact (h.2.1 f (.head _)).1 hdup
    rw [if_neg hdup, check_ok]
    constructor
    · intro ⟨u, hname, h⟩
      obtain ⟨ty, hty, h⟩ := check_orPanic.mp h
      obtain ⟨operand, hoperand, h⟩ := check_ok.mp h
      obtain ⟨given', hgiven, h⟩ := check_ok.mp h
      cases h
      obtain ⟨hnodup, hall, hpairs⟩ := codeGenFields_ok.mp hgiven
      rw [codeGenExprForType_ok] at hoperand
      refine ⟨List.nodup_cons.mpr ⟨?_, hnodup⟩, ?_, .cons ⟨rfl, ty, hty, hoperand⟩ hpairs⟩
      · -- a later field of this name would be in `fieldPos`
        intro hmem
        obtain ⟨f', hf', heq⟩ := List.mem_map.mp hmem
        exact (hall f' hf').1 (heq ▸ (.head _))
      · intro f' hf'
        rcases List.mem_cons.mp hf' with rfl | hf'
        · exact ⟨hdup, checkFieldName_ok.mp hname⟩
        · exact ⟨fun hmem => (hall f' hf').1 (.tail _ hmem), (hall f' hf').2⟩
    · intro ⟨hnodup, hall, hpairs⟩
      obtain ⟨hnotin, hnodup⟩ := List.nodup_cons.mp hnodup
      cases hpairs with
      | @cons _ g _ given' hg hpairs =>
        obtain ⟨hgname, ty, hty, hoperand⟩ := hg
        have hrest : codeGenFields queries codeGenExpr mat fields (f.name :: fieldPos) = .ok given' := by
          refine codeGenFields_ok.mpr ⟨hnodup, fun f' hf' => ⟨fun hmem => ?_, ?_⟩, hpairs⟩
          · rcases List.mem_cons.mp hmem with heq | hmem
            · exact hnotin (List.mem_map.mpr ⟨f', hf', heq⟩)
            · exact (hall f' (.tail _ hf')).1 hmem
          · exact (hall f' (.tail _ hf')).2
        refine ⟨(), checkFieldName_ok.mpr (hall f (.head _)).2, ?_⟩
        refine check_orPanic.mpr ⟨ty, hty, check_ok.mpr ⟨g.2, codeGenExprForType_ok.mpr hoperand, ?_⟩⟩
        refine check_ok.mpr ⟨given', hrest, ?_⟩
        rw [← hgname]
        rfl

theorem verifyOperands_ok : ∀ {given : List (String × ConstructorOperand)},
    verifyOperands queries mat given = .ok () ↔ ∀ g ∈ given, ∃ ty,
      mappingAtomicTypeMemberAtInnerVal mat g.1 = some ty ∧ birOperandHasType queries g.2 ty = some true
  | [] => iff_of_true rfl fun g hg => (List.not_mem_nil hg).elim
  | (fieldName, operand) :: given => by
    rw [verifyOperands, check_orPanic]
    constructor
    · intro ⟨ty, hty, h⟩
      obtain ⟨b, hb, h⟩ := check_orPanic.mp h
      cases b with
      | false => cases h
      | true =>
        intro g hg
        rcases List.mem_cons.mp hg with rfl | hg
        · exact ⟨ty, hty, hb⟩
        · exact verifyOperands_ok.mp h g hg
    · intro h
      obtain ⟨ty, hty, hb⟩ := h _ (.head _)
      refine ⟨ty, hty, check_orPanic.mpr ⟨true, hb, ?_⟩⟩
      exact verifyOperands_ok.mpr fun g hg => h g (.tail _ hg)

variable {env : Env} {mappingAlternatives : SemType → List MappingAlternative} {ty : SemType}

/-- The inherent type has the atomic type that the fields are checked against. -/
theorem selectMappingInherentType_ok {expected : SemType} {fields : List (ConstructorField E)}
    (h : selectMappingInherentType queries env mappingAlternatives expected fields = .ok (ty, mat)) :
    env.mappingAtomicType ty = some (some mat) := by
  unfold selectMappingInherentType at h
  obtain ⟨expectedMappingType, _, h⟩ := check_orPanic.mp h
  obtain ⟨empty, _, h⟩ := check_orPanic.mp h
  cases empty with
  | true => cases h
  | false =>
    obtain ⟨m, hm, h⟩ := check_orPanic.mp h
    cases m with
    | some mat' =>
      cases h
      exact hm
    | none =>
      obtain ⟨alts, _, h⟩ := check_ok.mp h
      rcases alts with _ | ⟨alt, _ | ⟨alt', alts⟩⟩
      · cases h
      · obtain ⟨m, hm, h⟩ := check_orPanic.mp h
        cases m with
        | none => cases h
        | some mat' =>
          cases h
          exact hm
      · cases h

theorem verifyMappingConstruct_ok (hmat : env.mappingAtomicType ty = some (some mat))
    {given : List (String × ConstructorOperand)} :
    verifyMappingConstruct queries env ⟨given.map (·.1), given.map (·.2), ty⟩ = .ok () ↔
      (∀ g ∈ given, ∃ ty, mappingAtomicTypeMemberAtInnerVal mat g.1 = some ty ∧
        birOperandHasType queries g.2 ty = some true) ∧ mat.names.length ≤ given.length := by
  have hmapping : queries.isSubtype ty (.bits MAPPING) = some true :=
    queries.isSubtype_of_isSubtypeSimple (isSubtypeSimple_of_atomicTypeOf hmat)
  have hzip : (given.map (·.1)).zip (given.map (·.2)) = given := (List.zip_of_prod rfl rfl).symm
  unfold verifyMappingConstruct
  dsimp only
  rw [hmapping, hmat, hzip, List.length_map, ← verifyOperands_ok]
  show (verifyOperands queries mat given >>= fun _ =>
    if given.length < mat.names.length then
      Except.error (CompileError.semantic "missing record fields in mapping constructor")
    else .ok ()) = _ ↔ _
  rw [check_ok]
  by_cases hlt : given.length < mat.names.length
  · rw [if_pos hlt]
    refine iff_of_false (fun ⟨_, _, h⟩ => by cases h) fun h => ?_
    exact Nat.not_le_of_lt hlt h.2
  · rw [if_neg hlt]
    exact ⟨fun ⟨_, h, _⟩ => ⟨h, Nat.le_of_not_lt hlt⟩, fun h => ⟨(), h.1, rfl⟩⟩

/-- A mapping constructor that comes through both passes. -/
def Accepted (queries : TypeQueries) (env : Env) (mappingAlternatives : SemType → List MappingAlternative)
    (codeGenExpr : E → SemType → Except CompileError ConstructorOperand) (expected : SemType)
    (fields : List (ConstructorField E)) : Prop :=
  ∃ insn, codeGenMappingConstructor queries env mappingAlternatives codeGenExpr expected fields = .ok insn ∧
    verifyMappingConstruct queries env insn = .ok ()

theorem accepted_iff {expected : SemType} {fields : List (ConstructorField E)}
    (hselect : selectMappingInherentType queries env mappingAlternatives expected fields = .ok (ty, mat)) :
    Accepted queries env mappingAlternatives codeGenExpr expected fields ↔
      FieldsAllowed mat fields ∧ Suitable queries codeGenExpr mat fields ∧
        mat.names.length ≤ fields.length := by
  have hmat := selectMappingInherentType_ok hselect
  constructor
  · intro ⟨insn, hgen, hverify⟩
    obtain ⟨selected, hselected, hgen⟩ := check_ok.mp hgen
    rw [hselect] at hselected
    cases hselected
    obtain ⟨given, hgiven, hinsn⟩ := check_ok.mp hgen
    cases hinsn
    obtain ⟨hnodup, hall, hpairs⟩ := codeGenFields_ok.mp hgiven
    obtain ⟨hbir, hle⟩ := (verifyMappingConstruct_ok hmat).mp hverify
    rw [← hpairs.length_eq] at hle
    refine ⟨⟨hnodup, fun f hf => (hall f hf).2⟩, fun f hf => ?_, hle⟩
    obtain ⟨g, hg, hname, ty, hty, hgen, hfront⟩ := exists_of_forall₂ hpairs hf
    obtain ⟨ty', hty', hbir⟩ := hbir g hg
    rw [hname, hty] at hty'
    cases hty'
    exact ⟨ty, g.2, hty, hgen, hfront, hbir⟩
  · intro ⟨hallowed, hsuitable, hle⟩
    have hoperands : ∀ f ∈ fields, ∃ g : String × ConstructorOperand,
        (g.1 = f.name ∧ FieldOperand queries codeGenExpr mat f g.2) ∧
          ∃ ty, mappingAtomicTypeMemberAtInnerVal mat g.1 = some ty ∧
            birOperandHasType queries g.2 ty = some true := by
      intro f hf
      obtain ⟨ty, operand, hty, hgen, hfront, hbir⟩ := hsuitable f hf
      exact ⟨(f.name, operand), ⟨rfl, ty, hty, hgen, hfront⟩, ty, hty, hbir⟩
    obtain ⟨given, hpairs⟩ := forall₂_of_exists hoperands
    have hgiven : codeGenFields queries codeGenExpr mat fields [] = .ok given :=
      codeGenFields_ok.mpr ⟨hallowed.once, fun f hf => ⟨List.not_mem_nil, hallowed.allowed f hf⟩,
        hpairs.imp fun _ _ h => h.1⟩
    refine ⟨⟨given.map (·.1), given.map (·.2), ty⟩, ?_, (verifyMappingConstruct_ok hmat).mpr ⟨?_, ?_⟩⟩
    · exact check_ok.mpr ⟨(ty, mat), hselect, check_ok.mpr ⟨given, hgiven, rfl⟩⟩
    · intro g hg
      obtain ⟨f, _, _, hbir⟩ := exists_of_forall₂ hpairs.flip hg
      exact hbir
    · rw [← hpairs.length_eq]
      exact hle

/-! ## Missing fields -/

/-- An individual field whose type has no `UNDEF`, so that it cannot be left out. -/
def RequiredField (mat : MappingAtomicType) (k : String) : Prop :=
  k ∈ mat.names ∧ ∃ ty, cellInner (mappingAtomicTypeMemberAt mat k) = some ty ∧ containsUndef ty = some false

def RequiredGiven (mat : MappingAtomicType) (fields : List (ConstructorField E)) : Prop :=
  ∀ k, RequiredField mat k → k ∈ fields.map (·.name)

/-- What the two passes should accept. -/
structure RightConstructor (queries : TypeQueries) (env : Env)
    (mappingAlternatives : SemType → List MappingAlternative)
    (codeGenExpr : E → SemType → Except CompileError ConstructorOperand) (expected : SemType)
    (mat : MappingAtomicType) (fields : List (ConstructorField E)) : Prop where
  onlyIf : Accepted queries env mappingAlternatives codeGenExpr expected fields →
    RequiredGiven mat fields ∧ FieldsAllowed mat fields
  accepts : RequiredGiven mat fields → FieldsAllowed mat fields → Suitable queries codeGenExpr mat fields →
    Accepted queries env mappingAlternatives codeGenExpr expected fields

/-- A mapping constructor with an inherent type is checked rightly if and only if, in case its fields are
allowed and have suitable values, they are as many as the individual fields just when no required field is
missing. -/
theorem mappingConstructor_right_iff {expected : SemType} {fields : List (ConstructorField E)}
    (hselect : selectMappingInherentType queries env mappingAlternatives expected fields = .ok (ty, mat)) :
    RightConstructor queries env mappingAlternatives codeGenExpr expected mat fields ↔
      (FieldsAllowed mat fields → Suitable queries codeGenExpr mat fields →
        (mat.names.length ≤ fields.length ↔ RequiredGiven mat fields)) := by
  have haccepted : Accepted queries env mappingAlternatives codeGenExpr expected fields ↔
      FieldsAllowed mat fields ∧ Suitable queries codeGenExpr mat fields ∧
        mat.names.length ≤ fields.length := accepted_iff hselect
  constructor
  · intro hright hallowed hsuitable
    constructor
    · intro hle
      exact (hright.onlyIf (haccepted.mpr ⟨hallowed, hsuitable, hle⟩)).1
    · intro hgiven
      exact (haccepted.mp (hright.accepts hgiven hallowed hsuitable)).2.2
  · intro hcount
    refine ⟨fun hacc => ?_, fun hgiven hallowed hsuitable => ?_⟩
    · obtain ⟨hallowed, hsuitable, hle⟩ := haccepted.mp hacc
      exact ⟨(hcount hallowed hsuitable).mp hle, hallowed⟩
    · exact haccepted.mpr ⟨hallowed, hsuitable, (hcount hallowed hsuitable).mpr hgiven⟩

end Checked

/-! ## A record with a rest -/

/-- A field of type `int`. -/
def intField (undef : BasicTypeBitSet) : SemType :=
  atomSemType BT_CELL (.typeAtom 0 (CellAtomicType.toAtomicType ⟨.bits (INT ||| undef), .limited⟩))

/-- `record {| int a; int...; |}` -/
def intRecord : MappingAtomicType := ⟨["a"], [intField 0], intField UNDEF⟩

def intRecordData : ProperSubtypeData :=
  .bddNode (.typeAtom 1 intRecord.toAtomicType) (.leaf true) (.leaf false) (.leaf false)

def intRecordType : SemType := basicSubtype BT_MAPPING intRecordData

/-- No proper subtype is empty. -/
def sampleQueries : TypeQueries := ⟨fun _ _ => false⟩

def sampleEnv : Env := ⟨[], [], [], [], 0⟩

/-- Every expression is a register of type `int`. -/
def intRegister (_ : Unit) (_ : SemType) : Except CompileError ConstructorOperand := .ok (.register (.bits INT))

theorem selectMappingInherentType_intRecord [BddIdentity] (fields : List (ConstructorField Unit)) :
    selectMappingInherentType sampleQueries sampleEnv (fun _ => []) intRecordType fields =
      .ok (intRecordType, intRecord) := by
  have hintersect : intersect ops intRecordType (.bits MAPPING) = some intRecordType := by
    refine intersect_bits (List.cons_ne_nil _ _) (List.pairwise_singleton _ _) (by decide) fun e he => ?_
    rw [List.mem_singleton.mp he]
    decide
  have hempty : sampleQueries.isEmpty intRecordType = some false := by
    show (do
      let subtypes ← unpackComplexSemType (createComplexSemType 0 [(BT_MAPPING, intRecordData)])
      return subtypes.all fun st => sampleQueries.subtypeIsEmpty st.1 st.2) = _
    rw [unpack_create 0 (List.pairwise_singleton _ _)]
    rfl
  have hmat : sampleEnv.mappingAtomicType intRecordType = some (some intRecord) :=
    atomicTypeOf_atomSemType rfl
  refine check_orPanic.mpr ⟨intRecordType, hintersect, check_orPanic.mpr ⟨false, hempty, ?_⟩⟩
  exact check_orPanic.mpr ⟨some intRecord, hmat, rfl⟩

theorem cellInner_intField (undef : BasicTypeBitSet) : cellInner (intField undef) = some (.bits (INT ||| undef)) := by
  unfold cellInner intField
  rw [CellTable.cellAtomicType_single]
  rfl

theorem mappingAtomicTypeMemberAt_intRecord (k : String) :
    mappingAtomicTypeMemberAt intRecord k = intField (if k = "a" then 0 else UNDEF) := by
  show fieldType [("a", intField 0)] (intField UNDEF) k = _
  rw [fieldType_cons, fieldType_nil]
  exact (apply_ite intField _ _ _).symm

/-- Either field takes a register of type `int`. -/
theorem suitable_intRecord [BddIdentity] (fields : List (ConstructorField Unit)) :
    Suitable sampleQueries intRegister intRecord fields := by
  intro f _
  have hinner : mappingAtomicTypeMemberAtInnerVal intRecord f.name = some (.bits INT) := by
    unfold mappingAtomicTypeMemberAtInnerVal cellInnerVal
    rw [mappingAtomicTypeMemberAt_intRecord, cellInner_intField]
    split
    next => rfl
    next => rfl
  exact ⟨.bits INT, .register (.bits INT), hinner, rfl, rfl, rfl⟩

theorem requiredField_intRecord {k : String} : RequiredField intRecord k ↔ k = "a" := by
  constructor
  · intro ⟨hmem, _⟩
    exact List.mem_singleton.mp hmem
  · intro hk
    refine ⟨List.mem_singleton.mpr hk, .bits INT, ?_, rfl⟩
    rw [mappingAtomicTypeMemberAt_intRecord, if_pos hk, cellInner_intField]
    rfl

theorem mappingConstructor_right_intRecord : let _ := BddIdentity.shared
    RightConstructor sampleQueries sampleEnv (fun _ => []) intRegister intRecordType intRecord
      [⟨"a", true, ()⟩] := by
  intro _
  refine (mappingConstructor_right_iff (selectMappingInherentType_intRecord _)).mpr fun _ _ => ?_
  refine iff_of_true (Nat.le_refl 1) fun k hk => ?_
  exact List.mem_singleton.mpr (requiredField_intRecord.mp hk)

/-- The one field that is given is as many as the one that is missing. -/
theorem not_right_intRecord : let _ := BddIdentity.shared
    selectMappingInherentType sampleQueries sampleEnv (fun _ => []) intRecordType
      [(⟨"x", false, ()⟩ : ConstructorField Unit)] = .ok (intRecordType, intRecord) ∧
    ¬ RightConstructor sampleQueries sampleEnv (fun _ => []) intRegister intRecordType intRecord
      [⟨"x", false, ()⟩] := by
  intro _
  refine ⟨selectMappingInherentType_intRecord _, fun hright => ?_⟩
  have hallowed : FieldsAllowed intRecord [(⟨"x", false, ()⟩ : ConstructorField Unit)] := by
    refine ⟨List.nodup_singleton _, fun f hf => .inr ⟨_, cellInner_intField UNDEF, ?_, ?_⟩⟩
    · intro hundef
      have hbits : INT ||| UNDEF = UNDEF := SemTypeOf.bits.inj hundef
      exact absurd hbits (by decide)
    · intro hid
      rw [List.mem_singleton.mp hf] at hid
      cases hid
  have hacc : Accepted sampleQueries sampleEnv (fun _ => []) intRegister intRecordType
      [(⟨"x", false, ()⟩ : ConstructorField Unit)] :=
    (accepted_iff (selectMappingInherentType_intRecord _)).mpr
      ⟨hallowed, suitable_intRecord _, Nat.le_refl 1⟩
  have hgiven := (hright.onlyIf hacc).1 "a" (requiredField_intRecord.mpr rfl)
  exact absurd (List.mem_singleton.mp hgiven) (by decide)

end Nballerina.Front
