import Nballerina.Types.Ops

/-!
# The environment of type definitions

An `Env` gives every atomic type an atom (`core.bal`). Types that are not
recursive are interned: the same atomic type gets the same `TypeAtom`, and a new
one gets the next free index. A recursive type gets a `RecAtom` before it is
defined, an index into one of three tables that `define` fills in later.

`Env.init` interns eight of the constants of `Ops.lean`, in the order of their
indices, so that code without an `Env` may use them.

Mirroring notes:
- A method that changes the `Env` returns the new one beside its result, and so
  does a method of a `Definition` with the definition.
- The class fields of the three `Definition` classes are the same two, so one
  structure stands for all.
- `table<TypeAtom> key(atomicType)` is a list in order of insertion; its key
  lookup is by deep equality.
- The default `rest` of `ListDefinition.define` is an argument here; it costs the
  caller a `cellContaining`.
-/

namespace Nballerina.Types

/-! ## Atomic types as records -/

/-- `{ initial, fixedLength }`: the last member of `initial` is repeated. -/
structure FixedLengthArray where
  initial : List SemType
  fixedLength : Int

structure ListAtomicType where
  members : FixedLengthArray
  rest : SemType

/-- `names` is sorted. -/
structure MappingAtomicType where
  names : List String
  types : List SemType
  rest : SemType

structure CellAtomicType where
  ty : SemType
  mutability : CellMutability

structure FunctionAtomicType where
  args : SemType
  ret : SemType

def ListAtomicType.toAtomicType (t : ListAtomicType) : AtomicType :=
  .list t.members.initial t.members.fixedLength t.rest

def MappingAtomicType.toAtomicType (t : MappingAtomicType) : AtomicType :=
  .mapping t.names t.types t.rest

def CellAtomicType.toAtomicType (t : CellAtomicType) : AtomicType := .cell t.ty t.mutability

def FunctionAtomicType.toAtomicType (t : FunctionAtomicType) : AtomicType :=
  .function t.args t.ret

/-- The cast `<ListAtomicType>`; `none` is the panic. -/
def AtomicType.toList : AtomicType → Option ListAtomicType
  | .list initial fixedLength rest => some ⟨⟨initial, fixedLength⟩, rest⟩
  | _ => none

def AtomicType.toMapping : AtomicType → Option MappingAtomicType
  | .mapping names types rest => some ⟨names, types, rest⟩
  | _ => none

def AtomicType.toCell : AtomicType → Option CellAtomicType
  | .cell ty mutability => some ⟨ty, mutability⟩
  | _ => none

def AtomicType.toFunction : AtomicType → Option FunctionAtomicType
  | .function args ret => some ⟨args, ret⟩
  | _ => none

/-! ## The tables -/

structure TypeAtom where
  index : Int
  atomicType : AtomicType

def TypeAtom.toAtom (a : TypeAtom) : Atom := .typeAtom a.index a.atomicType

structure Env where
  atomTable : List TypeAtom
  recListAtoms : List (Option ListAtomicType)
  recMappingAtoms : List (Option MappingAtomicType)
  recFunctionAtoms : List (Option FunctionAtomicType)
  /-- the number of atoms of the last three tables that are defined -/
  recAtomCount : Int

namespace Env

def isReady (env : Env) : Bool :=
  env.recAtomCount == ((env.recListAtoms.length + env.recMappingAtoms.length +
    env.recFunctionAtoms.length : Nat) : Int)

/-- The atom of an atomic type, interned if it is new. -/
def typeAtom (env : Env) (atomicType : AtomicType) : TypeAtom × Env :=
  match env.atomTable.find? fun ta => ta.atomicType = atomicType with
  | some ta => (ta, env)
  | none =>
    let result : TypeAtom := ⟨env.atomTable.length, atomicType⟩
    (result, { env with atomTable := env.atomTable ++ [result] })

def listAtom (env : Env) (atomicType : ListAtomicType) : TypeAtom × Env :=
  env.typeAtom atomicType.toAtomicType

def mappingAtom (env : Env) (atomicType : MappingAtomicType) : TypeAtom × Env :=
  env.typeAtom atomicType.toAtomicType

def functionAtom (env : Env) (atomicType : FunctionAtomicType) : TypeAtom × Env :=
  env.typeAtom atomicType.toAtomicType

def cellAtom (env : Env) (atomicType : CellAtomicType) : TypeAtom × Env :=
  env.typeAtom atomicType.toAtomicType

def recListAtom (env : Env) : Int × Env :=
  (env.recListAtoms.length, { env with recListAtoms := env.recListAtoms ++ [none] })

def recMappingAtom (env : Env) : Int × Env :=
  (env.recMappingAtoms.length, { env with recMappingAtoms := env.recMappingAtoms ++ [none] })

def recFunctionAtom (env : Env) : Int × Env :=
  (env.recFunctionAtoms.length, { env with recFunctionAtoms := env.recFunctionAtoms ++ [none] })

def setRecListAtomType (env : Env) (ra : Int) (atomicType : ListAtomicType) : Env :=
  { env with
    recListAtoms := env.recListAtoms.set ra.toNat (some atomicType)
    recAtomCount := env.recAtomCount + 1 }

def setRecMappingAtomType (env : Env) (ra : Int) (atomicType : MappingAtomicType) : Env :=
  { env with
    recMappingAtoms := env.recMappingAtoms.set ra.toNat (some atomicType)
    recAtomCount := env.recAtomCount + 1 }

def setRecFunctionAtomType (env : Env) (ra : Int) (atomicType : FunctionAtomicType) : Env :=
  { env with
    recFunctionAtoms := env.recFunctionAtoms.set ra.toNat (some atomicType)
    recAtomCount := env.recAtomCount + 1 }

/-- A member of a table of recursive atoms; a bad index or an atom that is not
defined yet is a panic. -/
def getRecAtomType {α : Type} (table : List (Option α)) (ra : Int) : Option α :=
  if 0 ≤ ra then (table[ra.toNat]?).join else none

def listAtomType (env : Env) : Atom → Option ListAtomicType
  | .recAtom ra => getRecAtomType env.recListAtoms ra
  | .typeAtom _ atomicType => atomicType.toList

def mappingAtomType (env : Env) : Atom → Option MappingAtomicType
  | .recAtom ra => getRecAtomType env.recMappingAtoms ra
  | .typeAtom _ atomicType => atomicType.toMapping

def functionAtomType (env : Env) : Atom → Option FunctionAtomicType
  | .recAtom ra => getRecAtomType env.recFunctionAtoms ra
  | .typeAtom _ atomicType => atomicType.toFunction

/-- The atomic types that `init` interns, in order. -/
def reservedAtomicTypes : List AtomicType :=
  [CELL_ATOMIC_VAL, CELL_ATOMIC_NEVER, CELL_ATOMIC_INNER, CELL_ATOMIC_INNER_MAPPING,
   LIST_ATOMIC_MAPPING, CELL_ATOMIC_INNER_MAPPING_RO, LIST_ATOMIC_MAPPING_RO,
   CELL_ATOMIC_INNER_RO]

/-- The fields of a new `Env`, before `init` runs. -/
def fresh : Env where
  atomTable := []
  recListAtoms := [some ⟨⟨[], 0⟩, CELL_SEMTYPE_INNER_RO⟩]
  recMappingAtoms := [some ⟨[], [], CELL_SEMTYPE_INNER_RO⟩]
  recFunctionAtoms := []
  recAtomCount := 2

/-- `new Env()`. -/
def init : Env :=
  reservedAtomicTypes.foldl (fun env atomicType => (env.typeAtom atomicType).2) fresh

end Env

/-! ## Definitions -/

/-- `cellAtomType`: a cell atom is never a `RecAtom`. -/
def cellAtomType : Atom → Option CellAtomicType
  | .recAtom _ => none
  | .typeAtom _ atomicType => atomicType.toCell

/-- The semtype of one atom. -/
def atomSemType (code : BasicTypeCode) (atom : Atom) : SemType :=
  basicSubtype code (.bddNode atom (.leaf true) (.leaf false) (.leaf false))

def cellContaining (env : Env) (ty : SemType) (mutability : CellMutability) : SemType × Env :=
  let (atom, env) := env.cellAtom ⟨ty, mutability⟩
  (atomSemType BT_CELL atom.toAtom, env)

/-- The fields of `ListDefinition`, `MappingDefinition` and `FunctionDefinition`. -/
structure Definition where
  /-- `rec` -/
  recAtom : Option Int := none
  semType : Option SemType := none

/-- `createSemType` of each definition. -/
def Definition.createSemType (d : Definition) (code : BasicTypeCode) (atom : Atom) :
    SemType × Definition :=
  let s := atomSemType code atom
  (s, { d with semType := some s })

/-- `getSemType`, over the table of recursive atoms of the kind. -/
def Definition.getSemType (d : Definition) (env : Env) (code : BasicTypeCode)
    (recAtom : Env → Int × Env) : SemType × Definition × Env :=
  match d.semType with
  | some s => (s, d, env)
  | none =>
    let (ra, env) := recAtom env
    let (s, d) := { d with recAtom := some ra }.createSemType code (.recAtom ra)
    (s, d, env)

def ListDefinition.getSemType (d : Definition) (env : Env) : SemType × Definition × Env :=
  d.getSemType env BT_LIST Env.recListAtom

def MappingDefinition.getSemType (d : Definition) (env : Env) : SemType × Definition × Env :=
  d.getSemType env BT_MAPPING Env.recMappingAtom

def FunctionDefinition.getSemType (d : Definition) (env : Env) : SemType × Definition × Env :=
  d.getSemType env BT_FUNCTION Env.recFunctionAtom

/-- The loop of `fixedLengthNormalize`: how many members are left when those equal
to the last one are dropped from the end, counting down from `i`. -/
def lastDistinct (initial : List SemType) (last : SemType) : Nat → Nat
  | 0 => 0
  | i + 1 => if initial[i]? = some last then lastDistinct initial last i else i + 1

def fixedLengthNormalize (array : FixedLengthArray) : FixedLengthArray :=
  if array.fixedLength = 0 then ⟨[], 0⟩
  else match array.initial.getLast? with
    | none => array
    | some last =>
      if array.initial.length - 1 = 0 then array
      else
        let i := lastDistinct array.initial last (array.initial.length - 1)
        ⟨array.initial.take (i + 1), array.fixedLength⟩

def ListDefinition.define (d : Definition) (env : Env) (initial : List SemType)
    (fixedLength : Int) (rest : SemType) : SemType × Definition × Env :=
  let atomicType : ListAtomicType := ⟨fixedLengthNormalize ⟨initial, fixedLength⟩, rest⟩
  match d.recAtom with
  | some ra =>
    let (s, d) := d.createSemType BT_LIST (.recAtom ra)
    (s, d, env.setRecListAtomType ra atomicType)
  | none =>
    if fixedLength = 0 ∧ rest = CELL_SEMTYPE_INNER then
      (.bits LIST, { d with semType := some (.bits LIST) }, env)
    else
      let (atom, env) := env.listAtom atomicType
      let (s, d) := d.createSemType BT_LIST atom.toAtom
      (s, d, env)

/-- `splitFields`: the fields sorted by name. -/
def splitFields (fields : List (String × SemType)) : List String × List SemType :=
  let sortedFields := fields.mergeSort fun f1 f2 => decide (f1.1 ≤ f2.1)
  (sortedFields.map (·.1), sortedFields.map (·.2))

def MappingDefinition.define (d : Definition) (env : Env) (fields : List (String × SemType))
    (rest : SemType) : SemType × Definition × Env :=
  let (names, types) := splitFields fields
  let atomicType : MappingAtomicType := ⟨names, types, rest⟩
  match d.recAtom with
  | some ra =>
    let (s, d) := d.createSemType BT_MAPPING (.recAtom ra)
    (s, d, env.setRecMappingAtomType ra atomicType)
  | none =>
    if fields.length = 0 ∧ rest = CELL_SEMTYPE_INNER then
      (.bits MAPPING, { d with semType := some (.bits MAPPING) }, env)
    else
      let (atom, env) := env.mappingAtom atomicType
      let (s, d) := d.createSemType BT_MAPPING atom.toAtom
      (s, d, env)

def FunctionDefinition.define (d : Definition) (env : Env) (args ret : SemType) :
    SemType × Definition × Env :=
  let atomicType : FunctionAtomicType := ⟨args, ret⟩
  match d.recAtom with
  | some ra =>
    let (s, d) := d.createSemType BT_FUNCTION (.recAtom ra)
    (s, d, env.setRecFunctionAtomType ra atomicType)
  | none =>
    let (atom, env) := env.functionAtom atomicType
    let (s, d) := d.createSemType BT_FUNCTION atom.toAtom
    (s, d, env)

end Nballerina.Types
