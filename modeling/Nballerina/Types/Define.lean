import Nballerina.Types.Emptiness

/-!
# Types from their members

The `Definition` classes take cells; the functions here take plain types, wrap them in
cells and define a list, a mapping, a table, an object or an error detail from them
(`list.bal`, `mapping.bal`, `table.bal`, `object.bal`, `error.bal`, `xml.bal`).

Mirroring notes:
- These functions only intern: they never look at the tables of recursive atoms. So they
  are written over the `Env` alone (`EnvM`), where `none` is a panic.
- What `defineListTypeWrapped` and its like pass to `define` has a name of its own
  (`listCells`, `mappingCells`, `objectCells`), for a definition may be kept elsewhere.
- The `Definition` of an `ObjectDefinition` is its `mappingDefn`.
-/

namespace Nballerina.Types

/-! ## Constants -/

def NIL : BasicTypeBitSet := basicType BT_NIL
def BOOLEAN : BasicTypeBitSet := basicType BT_BOOLEAN
def INT : BasicTypeBitSet := basicType BT_INT
def FLOAT : BasicTypeBitSet := basicType BT_FLOAT
def DECIMAL : BasicTypeBitSet := basicType BT_DECIMAL
def ERROR : BasicTypeBitSet := basicType BT_ERROR
def TABLE : BasicTypeBitSet := basicType BT_TABLE
def FUNCTION : BasicTypeBitSet := basicType BT_FUNCTION
def TYPEDESC : BasicTypeBitSet := basicType BT_TYPEDESC
def HANDLE : BasicTypeBitSet := basicType BT_HANDLE
def XML : BasicTypeBitSet := basicType BT_XML
def OBJECT : BasicTypeBitSet := basicType BT_OBJECT
def ANY : BasicTypeBitSet := VT_MASK &&& ~~~ERROR
def SIMPLE_OR_STRING : BasicTypeBitSet := NIL ||| BOOLEAN ||| INT ||| FLOAT ||| DECIMAL ||| STRING

def widenToBasicTypes : SemType → BasicTypeBitSet
  | .bits b => b
  | .complex c => c.all ||| c.some

/-- `intWidthUnsigned(8)` -/
def BYTE : SemType := basicSubtype BT_INT (.int [⟨0, 255⟩])

def stringConst (value : String) : SemType :=
  basicSubtype BT_STRING (.string
    (if value.length = 1 then ⟨⟨true, [value]⟩, ⟨true, []⟩⟩ else ⟨⟨true, []⟩, ⟨true, [value]⟩⟩))

/-- `createBasicSemType` -/
def createBasicSemType (code : BasicTypeCode) : SubtypeData → SemType
  | .bool b => .bits (if b then basicType code else 0)
  | .proper data => basicSubtype code data

/-! ## Single values -/

inductive SingleValue where
  | nil
  | boolean (value : Bool)
  | int (value : Int)
  | float (value : FloatValue)
  | decimal (value : Rat)
  | string (value : String)
deriving DecidableEq, Repr

/-- `constBasicTypeCode` -/
def SingleValue.code : SingleValue → BasicTypeCode
  | .nil => BT_NIL
  | .boolean _ => BT_BOOLEAN
  | .int _ => BT_INT
  | .float _ => BT_FLOAT
  | .decimal _ => BT_DECIMAL
  | .string _ => BT_STRING

def EnumerableSubtype.contains {α : Type} [DecidableEq α] (t : EnumerableSubtype α) (a : α) :
    Bool :=
  if a ∈ t.values then t.allowed else !t.allowed

/-- `intSubtypeContains`, `stringSubtypeContains` and their like for proper subtype data; data
of another basic type is a panic. -/
def properContains : ProperSubtypeData → SingleValue → Option Bool
  | .int d, .int n => some (d.any fun r => r.min ≤ n ∧ n ≤ r.max)
  | .string d, .string s =>
    some (if s.length = 1 then d.char.contains s else d.nonChar.contains s)
  | .float d, .float f => some (d.contains f)
  | .decimal d, .decimal f => some (d.contains f)
  | .boolean r, .boolean b => some (r == b)
  | _, _ => none

def containsConst (t : SemType) (v : SingleValue) : Option Bool := do
  match ← subtypeData t v.code with
  | .bool b => return b
  | .proper data => properContains data v

/-! ## Definitions -/

/-- The three classes of definitions; the one of an object is a mapping. -/
inductive DefinitionKind where
  | list
  | mapping
  | function
deriving DecidableEq, Repr

namespace DefinitionKind

def code : DefinitionKind → BasicTypeCode
  | .list => BT_LIST
  | .mapping => BT_MAPPING
  | .function => BT_FUNCTION

/-- `getSemType` of each class. -/
def getSemType : DefinitionKind → Definition → Env → SemType × Definition × Env
  | .list => ListDefinition.getSemType
  | .mapping => MappingDefinition.getSemType
  | .function => FunctionDefinition.getSemType

end DefinitionKind

/-! ## Cells and structures -/

/-- Makes something in an `Env`; `none` is a panic. -/
abbrev EnvM := StateT Env Option

/-- `cellContaining` -/
def makeCell (ty : SemType) (mutability : CellMutability) : EnvM SemType :=
  fun env => some (cellContaining env ty mutability)

/-- `d.define(env, initial, fixedLength, rest)` for a `ListDefinition` -/
def defineList (d : Definition) (initial : List SemType) (fixedLength : Int) (rest : SemType) :
    EnvM (SemType × Definition) :=
  fun env =>
    let (s, d, env) := ListDefinition.define d env initial fixedLength rest
    some ((s, d), env)

/-- `d.define(env, fields, rest)` for a `MappingDefinition` -/
def defineMapping (d : Definition) (fields : List (String × SemType)) (rest : SemType) :
    EnvM (SemType × Definition) :=
  fun env =>
    let (s, d, env) := MappingDefinition.define d env fields rest
    some ((s, d), env)

section Wrapped

variable [BddIdentity]

/-- The cell of `rest`. -/
def restCell (rest : SemType) (mutability : CellMutability) : EnvM SemType := do
  let ty ← StateT.lift (union ops rest (.bits UNDEF))
  makeCell ty (if rest = NEVER then .none else mutability)

/-! ## Lists and tables -/

/-- The cells that `defineListTypeWrapped` makes of the members and of `rest`. -/
def listCells (initial : List SemType) (rest : SemType) (mutability : CellMutability) :
    EnvM (List SemType × SemType) := do
  let initialCells ← initial.mapM fun ty => makeCell ty mutability
  let restCell ← restCell rest mutability
  return (initialCells, restCell)

def defineListTypeWrapped (d : Definition) (initial : List SemType) (fixedLength : Int)
    (rest : SemType) (mutability : CellMutability) : EnvM (SemType × Definition) := do
  let (initialCells, restCell) ← listCells initial rest mutability
  defineList d initialCells fixedLength restCell

def tableContaining (mappingType : SemType) (mutability : CellMutability) : EnvM SemType := do
  let (listType, _) ← defineListTypeWrapped {} [] 0 mappingType mutability
  let data ← StateT.lift (subtypeData listType BT_LIST)
  let bdd ← StateT.lift data.toBdd
  if bdd = LIST_SUBTYPE_MAPPING then return .bits TABLE
  else return createBasicSemType BT_TABLE bdd.toSubtypeData

/-! ## Mappings and objects -/

structure Field where
  name : String
  ty : SemType
  ro : Bool
  opt : Bool

/-- The type in the cell of a field. -/
def definedFieldType (f : Field) : Option SemType :=
  if f.opt then union ops f.ty (.bits UNDEF) else some f.ty

/-- The cell of a field. -/
def fieldCell (f : Field) (mutability : CellMutability) : EnvM (String × SemType) := do
  let ty ← StateT.lift (definedFieldType f)
  let cell ← makeCell ty (if f.ro then .none else mutability)
  return (f.name, cell)

/-- The cells that `defineMappingTypeWrapped` makes of the fields and of `rest`. -/
def mappingCells (fields : List Field) (rest : SemType) (mutability : CellMutability) :
    EnvM (List (String × SemType) × SemType) := do
  let cellFields ← fields.mapM fun f => fieldCell f mutability
  let restCell ← restCell rest mutability
  return (cellFields, restCell)

def defineMappingTypeWrapped (d : Definition) (fields : List Field) (rest : SemType)
    (mutability : CellMutability) : EnvM (SemType × Definition) := do
  let (cellFields, restCell) ← mappingCells fields rest mutability
  defineMapping d cellFields restCell

/-- `"field"|"method"` -/
inductive MemberKind where
  | field
  | method
deriving DecidableEq, Repr

structure Member where
  name : String
  valueTy : SemType
  kind : MemberKind

def MEMBER_KIND_FIELD : SemType := stringConst "field"
def MEMBER_KIND_METHOD : SemType := stringConst "method"

/-- The record that stands for a member: of a method, `value` is readonly. -/
def memberRecord (valueTy : SemType) : MemberKind → EnvM SemType
  | .field => do
    let (s, _) ← defineMappingTypeWrapped {}
      [⟨"value", valueTy, false, false⟩, ⟨"kind", MEMBER_KIND_FIELD, true, false⟩] NEVER .limited
    return s
  | .method => do
    let (s, _) ← defineMappingTypeWrapped {}
      [⟨"value", valueTy, true, false⟩, ⟨"kind", MEMBER_KIND_METHOD, true, false⟩] NEVER .limited
    return s

def restMemberType : EnvM SemType := do
  let fieldMemberType ← memberRecord (.bits ANY) .field
  let methodMemberType ← memberRecord (.bits FUNCTION) .method
  let ty ← StateT.lift (union ops fieldMemberType methodMemberType)
  makeCell ty .limited

/-- `fieldMember` and `methodMember` -/
def objectMemberCell (member : Member) : EnvM (String × SemType) := do
  let ty ← memberRecord member.valueTy member.kind
  let cell ← makeCell ty .limited
  return (member.name, cell)

/-- What `ObjectDefinition.define` passes to its `mappingDefn`. -/
def objectCells (members : List Member) : EnvM (List (String × SemType) × SemType) := do
  let memberCells ← members.mapM objectMemberCell
  let rest ← restMemberType
  return (memberCells, rest)

def objectContaining (mappingType : SemType) : Option SemType := do
  let data ← subtypeData mappingType BT_MAPPING
  let bdd ← data.toBdd
  return createBasicSemType BT_OBJECT bdd.toSubtypeData

/-! ## Errors and xml -/

def errorDetail (detail : SemType) : Option SemType := do
  let data ← subtypeData detail BT_MAPPING
  let bdd ← data.toBdd
  match (bddIntersect bdd BDD_SUBTYPE_RO).toSubtypeData with
  | .bool b => return .bits (if b then ERROR else 0)
  | .proper sd =>
    if sd = .bddNode BDD_REC_ATOM_READONLY (.leaf true) (.leaf false) (.leaf false) then
      return .bits ERROR
    else return basicSubtype BT_ERROR sd

def createXmlSemType : SubtypeData → SemType
  | .bool b => if b then .bits XML else NEVER
  | .proper d => basicSubtype BT_XML d

def xmlSingleton (primitives : BitVec 64) : SemType :=
  createXmlSemType (createXmlSubtype primitives (.leaf false))

/-- `makeXmlSequence` -/
def makeXmlSequence (primitives : BitVec 64) (sequence : Bdd) : SubtypeData :=
  let atom := primitives &&& XML_PRIMITIVE_SINGLETON
  createXmlSubtype (XML_PRIMITIVE_NEVER ||| primitives)
    (bddUnion (bddAtom (.recAtom atom.toInt)) sequence)

def xmlSequence : SemType → Option SemType
  | .bits b => some (if b = 0 then xmlSingleton XML_PRIMITIVE_NEVER else .bits b)
  | .complex c => do
    match ← getComplexSubtypeData c BT_XML with
    | .bool b => return createXmlSemType (.bool b)
    | .proper (.xml primitives sequence) =>
      return createXmlSemType (makeXmlSequence primitives sequence)
    | .proper _ => none

end Wrapped

end Nballerina.Types
