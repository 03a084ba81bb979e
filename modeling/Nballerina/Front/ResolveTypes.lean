import Nballerina.Types.Define
import Nballerina.Types.EmptinessSound

/-!
# Resolving type descriptors (`resolveTypes.bal`)

The type definitions of a module may refer to each other in any order, and to themselves.
`resolveTypeDesc` walks a descriptor, follows a reference into the definition it names, and
gives the descriptors of structures and functions a `Definition` object before it walks their
members. When it comes back to such a descriptor it asks that object for its type
(`getSemType`), which allocates a recursive atom if the type is not known yet; the walk that
began first fills it in (`define`).

An array descriptor has one `Definition` for all its dimensions.

Mirroring notes:
- A type descriptor is an object: its field `defn` is assigned while it is resolved. So
  descriptors refer to each other by address (`TdId`), `Module.td` is the descriptor at an
  address, and the fields that change are in the `ResolveState`. The same holds for type and
  constant definitions, by name.
- Errors keep their message and the place they are reported at.
- A function calls the others through `Callees`, and `resolver` ties the knot with fuel, which
  bounds the depth of the calls.
- A constant expression is an interaction: what resolving it asks for, in order. The
  expression compiler, which is what runs there, can ask for other constants and, in casts and
  tests, for type descriptors, for `anydata`, and for the emptiness of types.
- `history` is not in the source: it lists what happens to recursive atoms and to definitions,
  each with the `Env` after it. Between two entries an `Env` only interns.
-/

namespace Nballerina.Front

open Nballerina.Lib Nballerina.Types

/-! ## Modules -/

/-- The address of a type descriptor. -/
abbrev TdId := Nat

/-- Where an error is reported. -/
inductive Place where
  | defn
  | td (td : TdId)
  | opPos (td : TdId) (i : Nat)
  | member (td : TdId) (name : String)
  | expr

/-- A place in a module-level definition. -/
structure Location where
  defnName : String
  place : Place

/-- `err:Semantic|err:Unimplemented` -/
inductive ResolveTypeError where
  | semantic (message : String) (loc : Location)
  | unimplemented (message : String) (loc : Location)

/-- How resolving stops without a result. -/
inductive Failure where
  | error (e : ResolveTypeError)
  | panic
  | timeout

/-- `[t:SemType, t:SingleValue]` -/
structure ResolvedConst where
  semType : SemType
  value : SingleValue

inductive BuiltinTypeName where
  | any | anydata | boolean | byte | error | float | decimal | int | null | string | function
  | handle | json | never | readonly | typedesc | xml
deriving DecidableEq, Repr

def BuiltinTypeName.toString : BuiltinTypeName → String
  | .any => "any"
  | .anydata => "anydata"
  | .boolean => "boolean"
  | .byte => "byte"
  | .error => "error"
  | .float => "float"
  | .decimal => "decimal"
  | .int => "int"
  | .null => "null"
  | .string => "string"
  | .function => "function"
  | .handle => "handle"
  | .json => "json"
  | .never => "never"
  | .readonly => "readonly"
  | .typedesc => "typedesc"
  | .xml => "xml"

/-- What resolving a constant expression asks for, and its result. -/
inductive ConstExpr where
  | done (result : ResolvedConst)
  | fail (failure : Failure)
  | const (name : String) (k : ResolvedConst → ConstExpr)
  | typeDesc (td : TdId) (k : SemType → ConstExpr)
  | anydata (k : SemType → ConstExpr)
  | ask (p : EmptyM Bool) (k : Bool → ConstExpr)

/-- A literal, as it is resolved, or a name, which may have a prefix. -/
inductive SimpleConstExpr where
  | literal (result : Except Failure ResolvedConst)
  | varRef (qualifier : Option String) (name : String)

/-- `"|" | "&"` -/
inductive BinaryTypeOp where
  | union
  | intersect
deriving DecidableEq, Repr

/-- `"!" | "(" | "?"` -/
inductive UnaryTypeOp where
  | complement
  | grouping
  | optional
deriving DecidableEq, Repr

structure FieldDesc where
  name : String
  typeDesc : TdId
  ro : Bool
  opt : Bool

/-- `TypeDesc|INCLUSIVE_RECORD_TYPE_DESC?` -/
inductive RestDesc where
  | closed
  | inclusive
  | typeDesc (td : TdId)

structure MemberDesc where
  name : String
  kind : MemberKind
  td : TdId

structure FunctionTypeParam where
  td : TdId
  isRest : Bool

/-- The parser gives an array descriptor at least one dimension. -/
abbrev Dimensions := { dimensions : List (Option SimpleConstExpr) // dimensions ≠ [] }

inductive TypeDesc where
  | builtin (name : BuiltinTypeName)
  | binary (op : BinaryTypeOp) (tds : List TdId)
  | tuple (members : List TdId) (rest : Option TdId)
  | array (member : TdId) (dimensions : Dimensions)
  | mapping (fields : Option (List FieldDesc)) (rest : RestDesc)
  | function (params : List FunctionTypeParam) (ret : Option TdId)
  | error (detail : TdId)
  | xmlSequence (constituent : TdId)
  | table (row : TdId)
  | object (members : List MemberDesc)
  | ref (qualifier : Option String) (typeName : String)
  | singleton (valueExpr : Except Failure ResolvedConst)
  | unary (op : UnaryTypeOp) (td : TdId)

inductive ModuleLevelDefn where
  | typeDefn (td : TdId)
  | constDefn (td : Option BuiltinTypeName) (expr : Option SemType → ConstExpr)
  | functionDefn (params : List FunctionTypeParam) (ret : Option TdId)

/-- `t:FunctionSignature|t:SemType|s:ResolvedConst` -/
inductive ExportedDefn where
  | function
  | semType (t : SemType)
  | const (c : ResolvedConst)

structure Module where
  td : TdId → TypeDesc
  /-- `table<s:ModuleLevelDefn> key(name)` -/
  defns : List (String × ModuleLevelDefn)
  nodup : (defns.map (·.1)).Nodup
  allowAllTypes : Bool
  /-- the exports of the module that a prefix stands for in a definition -/
  imported : String → String → Option (String → Option ExportedDefn)

def Module.defn (mod : Module) (name : String) : Option ModuleLevelDefn := mod.defns.lookup name

/-! ## The state -/

/-- What a recursive atom is allocated for. -/
inductive Owner where
  | desc (td : TdId)
  | anydata
  | json
deriving DecidableEq, Repr

inductive Event where
  | allocated (owner : Owner) (kind : DefinitionKind) (ra : Int)
  | set (kind : DefinitionKind) (ra : Int)
  /-- a descriptor that has a definition is resolved -/
  | again (td : TdId)
  /-- the definition of a descriptor is complete -/
  | finished (td : TdId)
deriving DecidableEq, Repr

structure FunctionSignature where
  paramTypes : List SemType
  returnType : SemType
  restParamType : Option SemType

/-- `ResolvedConst|false?` -/
inductive ConstState where
  | unresolved
  | evaluating
  | resolved (c : ResolvedConst)

structure ResolveState where
  tc : Context
  anydataMemo : Option SemType
  jsonMemo : Option SemType
  /-- `td.defn` -/
  defn : TdId → Option Definition
  /-- `defn.semType` of a type definition -/
  semType : String → Option SemType
  cycleDepth : String → Int
  /-- `defn.resolved` of a constant definition -/
  resolved : String → ConstState
  signature : String → Option FunctionSignature
  deferredEmptinessChecks : List (SemType × String × TdId)
  emptyNonCyclicTypeLocation : Option Location
  history : List (Event × Env)

namespace ResolveState

/-- `{ tc: t:typeContext(env) }` -/
def new (env : Env) : ResolveState where
  tc := Context.new env
  anydataMemo := none
  jsonMemo := none
  defn _ := none
  semType _ := none
  cycleDepth _ := -1
  resolved _ := .unresolved
  signature _ := none
  deferredEmptinessChecks := []
  emptyNonCyclicTypeLocation := none
  history := []

abbrev env (st : ResolveState) : Env := st.tc.env

def setEnv (st : ResolveState) (env : Env) : ResolveState := { st with tc := { st.tc with env } }

/-- `td.defn = d` -/
def setDefn (st : ResolveState) (td : TdId) (d : Definition) : ResolveState :=
  { st with defn := Function.update st.defn td (some d) }

def note (st : ResolveState) (e : Event) : ResolveState :=
  { st with history := st.history ++ [(e, st.env)] }

end ResolveState

abbrev ResolveM := StateT ResolveState (Except Failure)

def fail {α : Type} (f : Failure) : ResolveM α := fun _ => .error f

def semanticErr {α : Type} (message : String) (loc : Location) : ResolveM α :=
  fail (.error (.semantic message loc))

/-- A value that may be missing; `none` is a panic. -/
def need {α : Type} (a : Option α) : ResolveM α :=
  fun st => match a with
    | some a => .ok (a, st)
    | none => .error .panic

/-- Makes something in the `Env` of the module. -/
def inEnv {α : Type} (f : EnvM α) : ResolveM α :=
  fun st => match f st.env with
    | some (a, env) => .ok (a, st.setEnv env)
    | none => .error .panic

/-! ## Definitions -/

/-- `d.getSemType(env)` for a definition of the owner. -/
def getSemTypeFor (owner : Owner) (kind : DefinitionKind) (d : Definition) :
    ResolveM (SemType × Definition) :=
  fun st =>
    let (s, d', env) := kind.getSemType d st.env
    let st := st.setEnv env
    match d.semType, d'.recAtom with
    | none, some ra => .ok ((s, d'), st.note (.allocated owner kind ra))
    | _, _ => .ok ((s, d'), st)

/-- Calls `d.define(env, ..)`. -/
def defineWith (kind : DefinitionKind) (d : Definition)
    (define : Definition → Env → SemType × Definition × Env) : ResolveM (SemType × Definition) :=
  fun st =>
    let (s, d', env) := define d st.env
    let st := st.setEnv env
    match d.recAtom with
    | some ra => .ok ((s, d'), st.note (.set kind ra))
    | none => .ok ((s, d'), st)

/-- `td.defn = new` -/
def newDefn (td : TdId) : ResolveM Unit := fun st => .ok ((), st.setDefn td {})

/-- `defn.getSemType(env)` for the definition of a descriptor that has one. -/
def getSemTypeAgain (kind : DefinitionKind) (td : TdId) (d : Definition) : ResolveM SemType := do
  modify fun st => st.note (.again td)
  let (s, d) ← getSemTypeFor (.desc td) kind d
  modify fun st => st.setDefn td d
  return s

/-- `d.define(env, ..)` for the definition of a descriptor. -/
def defineDesc (kind : DefinitionKind) (td : TdId)
    (define : Definition → Env → SemType × Definition × Env) : ResolveM SemType := do
  let d ← need ((← get).defn td)
  let (s, d) ← defineWith kind d define
  modify fun st => st.setDefn td d
  return s

def finish (td : TdId) : ResolveM Unit := modify fun st => st.note (.finished td)

section Resolve

variable [BddIdentity]

/-! ## `anydata` and `json` -/

/-- The end of `createJson` and `createAnydata`: defines the list and the mapping of a type
that contains both. -/
def defineListAndMapping (listDef mapDef : Definition) (ty : SemType) : ResolveM Unit := do
  let (cells, rest) ← inEnv (listCells [] ty .limited)
  let _ ← defineWith .list listDef fun d env => ListDefinition.define d env cells 0 rest
  let (fields, rest) ← inEnv (mappingCells [] ty .limited)
  let _ ← defineWith .mapping mapDef fun d env => MappingDefinition.define d env fields rest

def createJson : ResolveM SemType := do
  match (← get).jsonMemo with
  | some memo => return memo
  | none =>
    let (listTy, listDef) ← getSemTypeFor .json .list {}
    let (mapTy, mapDef) ← getSemTypeFor .json .mapping {}
    let j ← need (do union ops (.bits SIMPLE_OR_STRING) (← union ops listTy mapTy))
    defineListAndMapping listDef mapDef j
    modify fun st => { st with jsonMemo := some j }
    return j

def createAnydata : ResolveM SemType := do
  match (← get).anydataMemo with
  | some memo => return memo
  | none =>
    let (mapTy, mapDef) ← getSemTypeFor .anydata .mapping {}
    let tableTy ← inEnv (tableContaining mapTy .limited)
    let (listTy, listDef) ← getSemTypeFor .anydata .list {}
    let ad ← need (do
      let data ← union ops (.bits XML) tableTy
      union ops (← union ops (.bits SIMPLE_OR_STRING) data) (← union ops listTy mapTy))
    defineListAndMapping listDef mapDef ad
    modify fun st => { st with anydataMemo := some ad }
    return ad

/-! ## Emptiness -/

/-- Asks the emptiness predicates. -/
def ask (fuel : Nat) (p : EmptyM Bool) : ResolveM Bool :=
  fun st => match (emptiness st.env).runProg fuel p st.tc with
    | .done b tc => .ok (b, { st with tc })
    | .panic => .error .panic
    | .timeout => .error .timeout

/-- `toBddSubtypes` -/
def toBddSubtypes : SemType → Option (List Bdd)
  | .bits _ => some []
  | .complex c =>
    if isSubtypeSimple (.complex c) LIST || isSubtypeSimple (.complex c) MAPPING then
      c.subtypeDataList.mapM properToBdd
    else some []

/-- The members of the atomic type of an atom. -/
def atomMembers (env : Env) (isList : Bool) : Bdd → Option (List SemType)
  | .leaf _ => none
  | .node atom _ _ _ =>
    if isList then do
      let t ← env.listAtomType atom
      (intRange 0 t.members.fixedLength).mapM (listMemberAt t.members t.rest)
    else do
      let t ← env.mappingAtomType atom
      return t.types

def isMemberNever (env : Env) (ty : SemType) : Option Bool := do
  let members ← (← toBddSubtypes ty).mapM (atomMembers env (isSubtypeSimple ty LIST))
  return members.flatten.any (· = NEVER)

/-- The loop of `isCyclic`, after the type was found empty. -/
def hasCyclicMemo (tc : Context) (ty : SemType) : Option Bool := do
  let table := if isSubtypeSimple ty LIST then MemoTable.listMemo else .mappingMemo
  return (← toBddSubtypes ty).any fun b => tc.memo (table, b) = .cyclic

def isCyclic (fuel : Nat) (ty : SemType) : ResolveM Bool := do
  if ← ask fuel (isEmpty ty) then need (hasCyclicMemo (← get).tc ty)
  else return false

/-- `td is s:BinaryTypeDesc && td.op is "&"` -/
def TypeDesc.isIntersection : TypeDesc → Bool
  | .binary op _ => op = .intersect
  | _ => false

/-- `(td is s:BinaryTypeDesc && td.op is "&") || t:isMemberNever(mod.tc, semType)` -/
def emptyByIntersection (mod : Module) (semType : SemType) (td : TdId) : ResolveM Bool := do
  if (mod.td td).isIntersection then return true
  else need (isMemberNever (← get).env semType)

def nonEmptyTypeNoDefer (fuel : Nat) (mod : Module) (semType : SemType) (modDefn : String)
    (td : TdId) : ResolveM Unit := do
  if ← ask fuel (isEmpty semType) then
    let loc : Location := ⟨modDefn, .td td⟩
    if ← emptyByIntersection mod semType td then semanticErr "intersection must not be empty" loc
    else if ← isCyclic fuel semType then semanticErr "invalid cyclic type" loc
    else modify fun st => { st with emptyNonCyclicTypeLocation := some loc }
  else return ()

def nonEmptyType (fuel : Nat) (mod : Module) (modDefn : String) (td : TdId) (semType : SemType) :
    ResolveM SemType := do
  if !(← get).env.isReady then
    modify fun st => { st with
      deferredEmptinessChecks := st.deferredEmptinessChecks ++ [(semType, modDefn, td)] }
    return semType
  else
    nonEmptyTypeNoDefer fuel mod semType modDefn td
    return semType

/-! ## Descriptors -/

/-- The functions that are called recursively, and the fuel for the emptiness predicates. -/
structure Callees where
  fuel : Nat
  /-- `resolveTypeDesc(mod, modDefn, depth, td)` -/
  typeDesc : String → Int → TdId → ResolveM SemType
  /-- `resolveConstDefn(mod, defn)` -/
  constDefn : String → ResolveM ResolvedConst

variable (c : Callees) (mod : Module)

def resolveTypeDefn (name : String) (td : TdId) (depth : Int) : ResolveM SemType := do
  match (← get).semType name with
  | some t => return t
  | none =>
    if depth = (← get).cycleDepth name then
      semanticErr ("invalid cycle detected for " ++ name) ⟨name, .defn⟩
    else
      modify fun st => { st with cycleDepth := Function.update st.cycleDepth name depth }
      let s ← c.typeDesc name depth td
      match (← get).semType name with
      | none =>
        modify fun st => { st with
          semType := Function.update st.semType name (some s)
          cycleDepth := Function.update st.cycleDepth name (-1) }
        return s
      -- this can happen with recursion: the first definition we produced is used
      | some t => return t

def resolveSubsetTypeDesc (modDefn : String) (td : TdId) : ResolveM SemType := do
  let ty ← c.typeDesc modDefn 0 td
  if ← ask c.fuel (isEmpty ty) then
    semanticErr "intersection must not be empty" ⟨modDefn, .td td⟩
  else return ty

/-- The exports that a prefix stands for. -/
def lookupPrefix (modDefn qualifier : String) (place : Place) :
    ResolveM (String → Option ExportedDefn) :=
  match mod.imported modDefn qualifier with
  | some defns => return defns
  | none => semanticErr ("no import declaration for " ++ qualifier) ⟨modDefn, place⟩

/-- A name as the length of an array. A name of anything but a constant does not get through:
the source reports an error, or fails the cast to a constant operand. -/
def resolveVarRef (modDefn : String) (qualifier : Option String) (name : String) :
    ResolveM ResolvedConst :=
  match qualifier with
  | some q => do
    match (← lookupPrefix mod modDefn q .expr) name with
    | some (.const r) => return r
    | some _ => fail .panic
    | none => semanticErr ("no public definition for " ++ q ++ ":" ++ name) ⟨modDefn, .expr⟩
  | none =>
    match mod.defn name with
    | some (.constDefn _ _) => c.constDefn name
    | _ => fail .panic

/-- A literal has been evaluated. -/
def ofLiteral (result : Except Failure ResolvedConst) : ResolveM ResolvedConst :=
  fun st => result.map fun r => (r, st)

def resolveSimpleConst (modDefn : String) : SimpleConstExpr → ResolveM ResolvedConst
  | .literal result => ofLiteral result
  | .varRef qualifier name => resolveVarRef c mod modDefn qualifier name

def resolveConstExprForInt (modDefn : String) (e : SimpleConstExpr) (msg : String) :
    ResolveM Int := do
  let r ← resolveSimpleConst c mod modDefn e
  match r.value with
  | .int value => return value
  | _ => semanticErr msg ⟨modDefn, .expr⟩

/-- The length of a dimension, if it has one. -/
def resolveLength (modDefn : String) : Option SimpleConstExpr → ResolveM (Option Int)
  | none => return none
  | some len => some <$> resolveConstExprForInt c mod modDefn len
      "array length should be a non-negative integer constant"

/-- What a dimension passes to `defineListTypeWrapped`: the members, their number and `rest`. -/
def dimensionArgs (t : SemType) : Option Int → List SemType × Int × SemType
  | none => ([], 0, t)
  | some length => ([t], length, NEVER)

/-- One dimension of an array of `t`. -/
def defineDimension (td : TdId) (t : SemType) (length : Option Int) : ResolveM SemType := do
  let (initial, fixedLength, rest) := dimensionArgs t length
  let (cells, rest) ← inEnv (listCells initial rest .limited)
  defineDesc .list td fun d env => ListDefinition.define d env cells fixedLength rest

/-- The loop of `resolveArrayTypeDesc`, over the reversed dimensions. -/
def resolveDimensions (modDefn : String) (td : TdId) :
    List (Option SimpleConstExpr) → SemType → ResolveM SemType
  | [], t => return t
  | len :: dimensions, t => do
    let length ← resolveLength c mod modDefn len
    let t ← defineDimension td t length
    resolveDimensions modDefn td dimensions t

def resolveArrayTypeDesc (modDefn : String) (depth : Int) (td : TdId) (member : TdId)
    (dimensions : Dimensions) : ResolveM SemType := do
  match (← get).defn td with
  | none =>
    newDefn td
    let t ← c.typeDesc modDefn (depth + 1) member
    let t ← resolveDimensions c mod modDefn td dimensions.1.reverse t
    finish td
    nonEmptyType c.fuel mod modDefn td t
  | some d =>
    let t ← getSemTypeAgain .list td d
    nonEmptyType c.fuel mod modDefn td t

/-- A descriptor that may be left out. -/
def resolveOptional (modDefn : String) (depth : Int) (default : SemType) :
    Option TdId → ResolveM SemType
  | some td => c.typeDesc modDefn depth td
  | none => return default

def resolveTupleTypeDesc (modDefn : String) (depth : Int) (td : TdId) (members : List TdId)
    (rest : Option TdId) : ResolveM SemType := do
  match (← get).defn td with
  | none =>
    newDefn td
    let members ← members.mapM fun x => c.typeDesc modDefn (depth + 1) x
    let rest ← resolveOptional c modDefn (depth + 1) NEVER rest
    let (cells, rest) ← inEnv (listCells members rest .limited)
    let t ← defineDesc .list td fun d env => ListDefinition.define d env cells cells.length rest
    finish td
    nonEmptyType c.fuel mod modDefn td t
  | some d =>
    let t ← getSemTypeAgain .list td d
    nonEmptyType c.fuel mod modDefn td t

/-- The loop over the members of an object; `memberNames` are those before. -/
def resolveMembers (modDefn : String) (depth : Int) (td : TdId) :
    List MemberDesc → List String → ResolveM (List Member)
  | [], _ => return []
  | memberDesc :: members, memberNames => do
    if memberDesc.name ∈ memberNames then
      semanticErr ("duplicate member " ++ memberDesc.name) ⟨modDefn, .member td memberDesc.name⟩
    else
      let valueTy ← c.typeDesc modDefn (depth + 1) memberDesc.td
      let members ← resolveMembers modDefn depth td members (memberNames ++ [memberDesc.name])
      return ⟨memberDesc.name, valueTy, memberDesc.kind⟩ :: members

/-- `ObjectDefinition.define`: without members the `mappingDefn` is left alone. -/
def defineObject (td : TdId) (members : List Member) : ResolveM SemType :=
  if members.length = 0 then return .bits OBJECT
  else do
    let (cells, rest) ← inEnv (objectCells members)
    let mappingType ←
      defineDesc .mapping td fun d env => MappingDefinition.define d env cells rest
    need (objectContaining mappingType)

def resolveObjectTypeDesc (modDefn : String) (depth : Int) (td : TdId)
    (members : List MemberDesc) : ResolveM SemType := do
  match (← get).defn td with
  | none =>
    newDefn td
    let members ← resolveMembers c modDefn depth td members []
    let t ← defineObject td members
    finish td
    nonEmptyType c.fuel mod modDefn td t
  | some d =>
    let mappingType ← getSemTypeAgain .mapping td d
    let t ← need (objectContaining mappingType)
    nonEmptyType c.fuel mod modDefn td t

/-- The loop over the fields of a record. -/
def resolveFields (modDefn : String) (depth : Int) (td : TdId) :
    List FieldDesc → ResolveM (List Field)
  | [] => return []
  | f :: fieldDescs => do
    let ty ← c.typeDesc modDefn (depth + 1) f.typeDesc
    if ty = NEVER then
      semanticErr "record field can't be never" ⟨modDefn, .td f.typeDesc⟩
    else
      let fields ← resolveFields modDefn depth td fieldDescs
      return ⟨f.name, ty, f.ro, f.opt⟩ :: fields

/-- The loop that looks for a field of the same name as one of those before. -/
def checkDuplicateFields (modDefn : String) (td : TdId) :
    List FieldDesc → List String → ResolveM Unit
  | [], _ => return ()
  | f :: fieldDescs, names =>
    if f.name ∈ names then
      semanticErr ("duplicate field " ++ f.name) ⟨modDefn, .member td f.name⟩
    else checkDuplicateFields modDefn td fieldDescs (names ++ [f.name])

def resolveRest (modDefn : String) (depth : Int) : RestDesc → ResolveM SemType
  | .typeDesc td => c.typeDesc modDefn depth td
  | .inclusive => createAnydata
  | .closed => return NEVER

/-- The fields of a record, and those of `map<T>`, which has none. -/
def resolveFieldDescs (modDefn : String) (depth : Int) (td : TdId) :
    Option (List FieldDesc) → ResolveM (List Field)
  | some fieldDescs => do
    let fields ← resolveFields c modDefn depth td fieldDescs
    checkDuplicateFields modDefn td fieldDescs []
    return fields
  | none => return []

def resolveMappingTypeDesc (modDefn : String) (depth : Int) (td : TdId)
    (fieldDescs : Option (List FieldDesc)) (rest : RestDesc) : ResolveM SemType := do
  match (← get).defn td with
  | none =>
    newDefn td
    let fields ← resolveFieldDescs c modDefn depth td fieldDescs
    let rest ← resolveRest c modDefn (depth + 1) rest
    let (cells, rest) ← inEnv (mappingCells fields rest .limited)
    let t ← defineDesc .mapping td fun d env => MappingDefinition.define d env cells rest
    finish td
    nonEmptyType c.fuel mod modDefn td t
  | some d =>
    let t ← getSemTypeAgain .mapping td d
    nonEmptyType c.fuel mod modDefn td t

/-- The loop over the parameters of a function: the last rest parameter is resolved here,
the others are kept. -/
def resolveRestParam (modDefn : String) (depth : Int) :
    List FunctionTypeParam → SemType → ResolveM SemType
  | [], rest => return rest
  | arg :: params, rest =>
    if arg.isRest then do
      let rest ← c.typeDesc modDefn depth arg.td
      resolveRestParam modDefn depth params rest
    else resolveRestParam modDefn depth params rest

def resolveFunctionTypeDesc (modDefn : String) (depth : Int) (td : TdId)
    (params : List FunctionTypeParam) (ret : Option TdId) : ResolveM SemType := do
  match (← get).defn td with
  | none =>
    newDefn td
    let rest ← resolveRestParam c modDefn (depth + 1) params NEVER
    let args ← (params.filter fun arg => !arg.isRest).mapM fun x =>
      c.typeDesc modDefn (depth + 1) x.td
    let ret ← resolveOptional c modDefn (depth + 1) (.bits NIL) ret
    let (args, _) ← inEnv (defineListTypeWrapped {} args args.length rest .none)
    let t ← defineDesc .function td fun d env => FunctionDefinition.define d env args ret
    finish td
    return t
  | some d => getSemTypeAgain .function td d

/-- An intersection that is found to be empty. -/
def isEmptyIntersection (accumType : SemType) : ResolveM Bool :=
  match accumType with
  | .bits b => return b = 0
  | .complex t => do
    if (← get).env.isReady then ask c.fuel (isEmpty (.complex t)) else return false

/-- The operator, applied to the operands so far and the next one. -/
def applyOp (op : BinaryTypeOp) (accumType next : SemType) : Option SemType :=
  match op with
  | .union => union ops accumType next
  | .intersect => intersect ops accumType next

/-- The loop over the operands of `|` or `&` after the first `i + 1`. -/
def resolveOperands (modDefn : String) (depth : Int) (td : TdId) (op : BinaryTypeOp) :
    Nat → List TdId → SemType → ResolveM SemType
  | _, [], accumType => return accumType
  | i, x :: tds, accumType => do
    let next ← c.typeDesc modDefn depth x
    let accumType ← need (applyOp op accumType next)
    if op = .intersect then
      if ← isEmptyIntersection c accumType then
        semanticErr "intersection must not be empty" ⟨modDefn, .opPos td i⟩
      else resolveOperands modDefn depth td op (i + 1) tds accumType
    else resolveOperands modDefn depth td op (i + 1) tds accumType

def resolveBinaryTypeDesc (modDefn : String) (depth : Int) (td : TdId) (op : BinaryTypeOp) :
    List TdId → ResolveM SemType
  | [] => fail .panic
  | x :: tds => do
    let accumType ← c.typeDesc modDefn depth x
    let accumType ← resolveOperands c modDefn depth td op 0 tds accumType
    nonEmptyType c.fuel mod modDefn td accumType

def resolveBuiltin (modDefn : String) (td : TdId) (name : BuiltinTypeName) : ResolveM SemType :=
  match name with
  | .any => return .bits ANY
  | .anydata => createAnydata
  | .boolean => return .bits BOOLEAN
  | .byte => return BYTE
  | .error => return .bits ERROR
  | .float => return .bits FLOAT
  | .decimal => return .bits DECIMAL
  | .int => return .bits INT
  | .null => return .bits NIL
  | .string => return .bits STRING
  | .function => return .bits FUNCTION
  | .handle => allowAll (return .bits HANDLE)
  | .json => allowAll createJson
  | .never => allowAll (return NEVER)
  | .readonly => allowAll (return VAL_READONLY)
  | .typedesc => allowAll (return .bits TYPEDESC)
  | .xml => allowAll (return .bits XML)
where
  allowAll (x : ResolveM SemType) : ResolveM SemType :=
    if mod.allowAllTypes then x
    else fail (.error (.unimplemented ("type " ++ name.toString ++ " is not implemented")
      ⟨modDefn, .td td⟩))

def resolveTypeDescRef (modDefn : String) (depth : Int) (td : TdId) (qualifier : Option String)
    (typeName : String) : ResolveM SemType :=
  match qualifier with
  | none =>
    match mod.defn typeName with
    | none => semanticErr ("reference to undefined type " ++ typeName) ⟨modDefn, .td td⟩
    | some (.typeDefn defnTd) => resolveTypeDefn c typeName defnTd depth
    | some (.constDefn _ _) => do
      let r ← c.constDefn typeName
      return r.semType
    | some (.functionDefn _ _) =>
      semanticErr ("reference to non-type " ++ typeName ++ " in type-descriptor") ⟨modDefn, .td td⟩
  | some q => do
    match (← lookupPrefix mod modDefn q (.td td)) typeName with
    | some (.semType t) =>
      if mod.allowAllTypes || !isSubtypeSimple t XML then return t
      -- falls through to the other kinds of descriptors
      else fail (.error (.unimplemented "unimplemented type descriptor" ⟨modDefn, .td td⟩))
    | some (.const r) => return r.semType
    | none => semanticErr ("no public definition of " ++ q ++ ":" ++ typeName) ⟨modDefn, .td td⟩
    | some .function =>
      semanticErr ("reference to a function " ++ q ++ ":" ++ typeName ++
        " where a type is required") ⟨modDefn, .td td⟩

/-- The descriptors that need `allowAllTypes`. -/
def unimplementedUnlessAll (modDefn : String) (td : TdId) (x : ResolveM SemType) :
    ResolveM SemType :=
  if mod.allowAllTypes then x
  else fail (.error (.unimplemented "unimplemented type descriptor" ⟨modDefn, .td td⟩))

def resolveTypeDesc (modDefn : String) (depth : Int) (td : TdId) : ResolveM SemType :=
  match mod.td td with
  | .builtin name => resolveBuiltin mod modDefn td name
  | .binary op tds => resolveBinaryTypeDesc c mod modDefn depth td op tds
  | .tuple members rest => resolveTupleTypeDesc c mod modDefn depth td members rest
  | .object members => resolveObjectTypeDesc c mod modDefn depth td members
  | .array member dimensions => resolveArrayTypeDesc c mod modDefn depth td member dimensions
  | .mapping fields rest => resolveMappingTypeDesc c mod modDefn depth td fields rest
  | .ref qualifier typeName => resolveTypeDescRef c mod modDefn depth td qualifier typeName
  | .singleton valueExpr => do
    let r ← ofLiteral valueExpr
    return r.semType
  | .unary .optional t => do
    let ty ← c.typeDesc modDefn depth t
    need (union ops ty (.bits NIL))
  | .unary .grouping t => c.typeDesc modDefn (depth + 1) t
  | .function params ret => resolveFunctionTypeDesc c modDefn depth td params ret
  | .error detail => unimplementedUnlessAll mod modDefn td do
    let t ← c.typeDesc modDefn depth detail
    need (errorDetail t)
  | .unary .complement t => unimplementedUnlessAll mod modDefn td do
    let ty ← c.typeDesc modDefn depth t
    need (complement ty)
  | .xmlSequence constituent => unimplementedUnlessAll mod modDefn td do
    let t ← c.typeDesc modDefn depth constituent
    if !isSubtypeSimple t XML then
      semanticErr "type parameter for xml is not a subtype of xml" ⟨modDefn, .td td⟩
    else need (xmlSequence t)
  | .table row => unimplementedUnlessAll mod modDefn td do
    let t ← c.typeDesc modDefn depth row
    if !isSubtypeSimple t MAPPING then
      semanticErr "type parameter for table is not a record" ⟨modDefn, .td td⟩
    else inEnv (tableContaining t .limited)

/-! ## Constants -/

/-- The type that a constant is declared with. -/
def resolveBuiltinTypeDesc : BuiltinTypeName → ResolveM SemType
  | .any => return .bits ANY
  | .anydata => createAnydata
  | .boolean => return .bits BOOLEAN
  | .byte => return BYTE
  | .int => return .bits INT
  | .float => return .bits FLOAT
  | .decimal => return .bits DECIMAL
  | .string => return .bits STRING
  | .error => return .bits ERROR
  | .function => return .bits FUNCTION
  | _ => fail .panic

/-- `resolveConstExpr`, run as an interaction. -/
def resolveConstExpr (modDefn : String) : ConstExpr → ResolveM ResolvedConst
  | .done result => return result
  | .fail failure => fail failure
  | .const name k => do
    let r ← c.constDefn name
    resolveConstExpr modDefn (k r)
  | .typeDesc td k => do
    let t ← resolveSubsetTypeDesc c modDefn td
    resolveConstExpr modDefn (k t)
  | .anydata k => do
    let t ← createAnydata
    resolveConstExpr modDefn (k t)
  | .ask p k => do
    let b ← ask c.fuel p
    resolveConstExpr modDefn (k b)

/-- The type that a constant is expected to have, if it is declared with one. -/
def resolveExpectedType : Option BuiltinTypeName → ResolveM (Option SemType)
  | none => return none
  | some td => some <$> resolveBuiltinTypeDesc td

def resolvedConstHasType (resolvedConst : ResolvedConst) : Option SemType → Option Bool
  | none => some true
  | some t => containsConst t resolvedConst.value

def resolveConstDefn (name : String) : ResolveM ResolvedConst :=
  match mod.defn name with
  | some (.constDefn td expr) => do
    match (← get).resolved name with
    | .evaluating => semanticErr ("cycle in evaluating " ++ name) ⟨name, .defn⟩
    | .resolved r => return r
    | .unresolved =>
      modify fun st => { st with resolved := Function.update st.resolved name .evaluating }
      let expectedType ← resolveExpectedType td
      let resolvedConst ← resolveConstExpr c name (expr expectedType)
      let hasType ← need (resolvedConstHasType resolvedConst expectedType)
      if !hasType then
        semanticErr ("initializer of " ++ name ++ " is not a subtype of the declared type")
          ⟨name, .defn⟩
      else
        modify fun st => { st with
          resolved := Function.update st.resolved name (.resolved resolvedConst) }
        return resolvedConst
  | _ => fail .panic

/-- The functions above, with calls nested at most `fuel` deep. -/
def resolver : Nat → Callees
  | 0 => ⟨0, fun _ _ _ => fail .timeout, fun _ => fail .timeout⟩
  | fuel + 1 =>
    let c := resolver fuel
    ⟨fuel, resolveTypeDesc c mod, resolveConstDefn c mod⟩

/-! ## Modules -/

/-- The loop over the parameters of a function definition. -/
def resolveParams (modDefn : String) :
    List FunctionTypeParam → ResolveM (List SemType × Option SemType)
  | [] => return ([], none)
  | x :: params => do
    let ty ← resolveSubsetTypeDesc c modDefn x.td
    if x.isRest then
      let (arrTy, _) ← inEnv (defineListTypeWrapped {} [] 0 ty .none)
      let (paramTypes, restParamType) ← resolveParams modDefn params
      return (arrTy :: paramTypes, restParamType <|> some ty)
    else
      let (paramTypes, restParamType) ← resolveParams modDefn params
      return (ty :: paramTypes, restParamType)

def resolveFunctionSignature (modDefn : String) (params : List FunctionTypeParam)
    (ret : Option TdId) : ResolveM FunctionSignature := do
  let (paramTypes, restParamType) ← resolveParams c modDefn params
  match ret with
  | some td => do
    let ret ← resolveSubsetTypeDesc c modDefn td
    return ⟨paramTypes, ret, restParamType⟩
  | none => return ⟨paramTypes, .bits NIL, restParamType⟩

def resolveDefn (name : String) : ModuleLevelDefn → ResolveM Unit
  | .typeDefn td => do
    let _ ← resolveTypeDefn c name td 0
  | .constDefn _ _ => do
    let _ ← c.constDefn name
  | .functionDefn params ret => do
    let signature ← resolveFunctionSignature c name params ret
    modify fun st => { st with signature := Function.update st.signature name (some signature) }

/-- The loop of `resolveTypes`. -/
def resolveDefns : List (String × ModuleLevelDefn) → ResolveM Unit
  | [] => return ()
  | (name, defn) :: defns => do
    resolveDefn c name defn
    resolveDefns defns

/-- The loop of `finishDeferredEmptinessChecks`. -/
def checkDeferred : List (SemType × String × TdId) → ResolveM Unit
  | [] => return ()
  | (semType, modDefn, td) :: checks => do
    nonEmptyTypeNoDefer c.fuel mod semType modDefn td
    checkDeferred checks

def finishDeferredEmptinessChecks : ResolveM Unit := do
  -- "type environment is not ready"
  if !(← get).env.isReady then fail .panic
  else
    checkDeferred c mod (← get).deferredEmptinessChecks
    match (← get).emptyNonCyclicTypeLocation with
    | some emptyLoc => semanticErr "intersection must not be empty" emptyLoc
    | none => return ()

def resolveTypes (fuel : Nat) : ResolveM Unit := do
  resolveDefns (resolver mod fuel) mod.defns
  finishDeferredEmptinessChecks (resolver mod fuel) mod

end Resolve

end Nballerina.Front
