import Nballerina.Types.Core

/-!
# The constants and the table of operations

`core.bal` creates a number of atoms outside any `Env`, with fixed indices, so
that operations without an `Env` can use them: `ATOM_CELL_VAL` and
`ATOM_CELL_NEVER` in `cellSubtypeDataEnsureProper`, `ATOM_LIST_MAPPING` in the
complement of a table type, `ATOM_MAPPING_OBJECT` in the complement of an object
type, and the readonly types. `predefinedAtoms` lists them; what keeps an `Env`
from giving the same index to something else is the subject of `Atoms.lean`.

The second half is `ops`, the table indexed by basic type code.
-/

namespace Nballerina.Types

/-! ## Constants -/

def NEVER : SemType := .bits 0
def MAPPING : BasicTypeBitSet := basicType BT_MAPPING
def LIST : BasicTypeBitSet := basicType BT_LIST
def STRING : BasicTypeBitSet := basicType BT_STRING
def CELL : BasicTypeBitSet := basicType BT_CELL
def UNDEF : BasicTypeBitSet := basicType BT_UNDEF
def VAL : BasicTypeBitSet := VT_MASK
def INNER : BasicTypeBitSet := VAL ||| UNDEF

/-- The semtype of one cell atom. -/
def cellSemType (atom : Atom) : SemType :=
  basicSubtype BT_CELL (.bddNode atom (.leaf true) (.leaf false) (.leaf false))

def CELL_ATOMIC_VAL : AtomicType := .cell (.bits VAL) .limited
def CELL_ATOMIC_NEVER : AtomicType := .cell NEVER .limited
def CELL_ATOMIC_INNER : AtomicType := .cell (.bits INNER) .limited
def CELL_ATOMIC_INNER_MAPPING : AtomicType := .cell (.bits (MAPPING ||| UNDEF)) .limited

def ATOM_CELL_VAL : Atom := .typeAtom 0 CELL_ATOMIC_VAL
def ATOM_CELL_NEVER : Atom := .typeAtom 1 CELL_ATOMIC_NEVER
def ATOM_CELL_INNER : Atom := .typeAtom 2 CELL_ATOMIC_INNER
def ATOM_CELL_INNER_MAPPING : Atom := .typeAtom 3 CELL_ATOMIC_INNER_MAPPING

def CELL_SEMTYPE_VAL : SemType := cellSemType ATOM_CELL_VAL
def CELL_SEMTYPE_NEVER : SemType := cellSemType ATOM_CELL_NEVER
def CELL_SEMTYPE_INNER : SemType := cellSemType ATOM_CELL_INNER
def CELL_SEMTYPE_INNER_MAPPING : SemType := cellSemType ATOM_CELL_INNER_MAPPING

def LIST_ATOMIC_INNER : AtomicType := .list [] 0 CELL_SEMTYPE_INNER
def MAPPING_ATOMIC_INNER : AtomicType := .mapping [] [] CELL_SEMTYPE_INNER
def LIST_ATOMIC_MAPPING : AtomicType := .list [] 0 CELL_SEMTYPE_INNER_MAPPING

def ATOM_LIST_MAPPING : Atom := .typeAtom 4 LIST_ATOMIC_MAPPING

/-- `BDD_REC_ATOM_READONLY`: index 0 of both the list and the mapping table. -/
def BDD_REC_ATOM_READONLY : Atom := .recAtom 0

/-- Represents both `readonly & map<readonly>` and `readonly & readonly[]`. -/
def BDD_SUBTYPE_RO : Bdd := bddAtom BDD_REC_ATOM_READONLY

/-- `{ ty: union(MAPPING_RO, UNDEF), mut: CELL_MUT_NONE }`. -/
def CELL_ATOMIC_INNER_MAPPING_RO : AtomicType :=
  .cell (.complex ⟨UNDEF, MAPPING,
    [.bddNode BDD_REC_ATOM_READONLY (.leaf true) (.leaf false) (.leaf false)]⟩) .none

def ATOM_CELL_INNER_MAPPING_RO : Atom := .typeAtom 5 CELL_ATOMIC_INNER_MAPPING_RO
def CELL_SEMTYPE_INNER_MAPPING_RO : SemType := cellSemType ATOM_CELL_INNER_MAPPING_RO
def LIST_ATOMIC_MAPPING_RO : AtomicType := .list [] 0 CELL_SEMTYPE_INNER_MAPPING_RO
def ATOM_LIST_MAPPING_RO : Atom := .typeAtom 6 LIST_ATOMIC_MAPPING_RO

def XML_SUBTYPE_RO : ProperSubtypeData :=
  .xml XML_PRIMITIVE_RO_MASK (bddAtom (.recAtom XML_PRIMITIVE_RO_SINGLETON.toNat))

/-- The entries of `VAL_READONLY`. -/
def readonlySubtypes : List (BasicTypeCode × ProperSubtypeData) :=
  [(BT_LIST, .bddNode BDD_REC_ATOM_READONLY (.leaf true) (.leaf false) (.leaf false)),
   (BT_MAPPING, .bddNode BDD_REC_ATOM_READONLY (.leaf true) (.leaf false) (.leaf false)),
   (BT_TABLE, .bddNode ATOM_LIST_MAPPING_RO (.leaf true) (.leaf false) (.leaf false)),
   (BT_XML, XML_SUBTYPE_RO)]

def VAL_READONLY : SemType :=
  .complex (createComplexSemType VT_INHERENTLY_IMMUTABLE readonlySubtypes)

/-- `union(VAL_READONLY, UNDEF)`. -/
def INNER_READONLY : SemType :=
  .complex (createComplexSemType (VT_INHERENTLY_IMMUTABLE ||| UNDEF) readonlySubtypes)

def CELL_ATOMIC_INNER_RO : AtomicType := .cell INNER_READONLY .none
def ATOM_CELL_INNER_RO : Atom := .typeAtom 7 CELL_ATOMIC_INNER_RO
def CELL_SEMTYPE_INNER_RO : SemType := cellSemType ATOM_CELL_INNER_RO

def CELL_ATOMIC_OBJECT_MEMBER_KIND : AtomicType := .cell (.bits STRING) .none
def ATOM_CELL_OBJECT_MEMBER_KIND : Atom := .typeAtom 11 CELL_ATOMIC_OBJECT_MEMBER_KIND
def CELL_SEMTYPE_OBJECT_MEMBER_KIND : SemType := cellSemType ATOM_CELL_OBJECT_MEMBER_KIND

def MAPPING_ATOMIC_OBJECT_MEMBER : AtomicType :=
  .mapping ["kind", "value"] [CELL_SEMTYPE_OBJECT_MEMBER_KIND, CELL_SEMTYPE_VAL]
    CELL_SEMTYPE_NEVER
def ATOM_MAPPING_OBJECT_MEMBER : Atom := .typeAtom 9 MAPPING_ATOMIC_OBJECT_MEMBER
def MAPPING_SEMTYPE_OBJECT_MEMBER : SemType :=
  basicSubtype BT_MAPPING
    (.bddNode ATOM_MAPPING_OBJECT_MEMBER (.leaf true) (.leaf false) (.leaf false))

def CELL_ATOMIC_OBJECT_MEMBER : AtomicType := .cell MAPPING_SEMTYPE_OBJECT_MEMBER .unlimited
def ATOM_CELL_OBJECT_MEMBER : Atom := .typeAtom 10 CELL_ATOMIC_OBJECT_MEMBER
def CELL_SEMTYPE_OBJECT_MEMBER : SemType := cellSemType ATOM_CELL_OBJECT_MEMBER

def MAPPING_ATOMIC_OBJECT : AtomicType := .mapping [] [] CELL_SEMTYPE_OBJECT_MEMBER
def ATOM_MAPPING_OBJECT : Atom := .typeAtom 8 MAPPING_ATOMIC_OBJECT

/-- `(map<any|error>)[]`, the top of the data of a table type. -/
def LIST_SUBTYPE_MAPPING : Bdd := bddAtom ATOM_LIST_MAPPING

/-- The top of the data of an object type. -/
def MAPPING_SUBTYPE_OBJECT : Bdd := bddAtom ATOM_MAPPING_OBJECT

/-- The module-level `ATOM_*` constants. -/
def predefinedAtoms : List Atom :=
  [ATOM_CELL_VAL, ATOM_CELL_NEVER, ATOM_CELL_INNER, ATOM_CELL_INNER_MAPPING,
   ATOM_LIST_MAPPING, ATOM_CELL_INNER_MAPPING_RO, ATOM_LIST_MAPPING_RO, ATOM_CELL_INNER_RO,
   ATOM_MAPPING_OBJECT, ATOM_MAPPING_OBJECT_MEMBER, ATOM_CELL_OBJECT_MEMBER,
   ATOM_CELL_OBJECT_MEMBER_KIND]

/-! ## The table -/

section Table

variable [BddIdentity]

/-- A `Bdd` operation on proper subtype data; the casts to `BddNode` may fail. -/
def bddSubtypeOp (op : Bdd → Bdd → Bdd) : ProperSubtypeData → ProperSubtypeData →
    Option SubtypeData
  | .bddNode a1 l1 m1 r1, .bddNode a2 l2 m2 r2 =>
    some (op (.node a1 l1 m1 r1) (.node a2 l2 m2 r2)).toSubtypeData
  | _, _ => none

def bddSubtypeUnion := bddSubtypeOp bddUnion
def bddSubtypeIntersect := bddSubtypeOp bddIntersect
def bddSubtypeDiff := bddSubtypeOp bddDiff

def bddSubtypeComplement : ProperSubtypeData → Option SubtypeData
  | .bddNode a l m r => some (bddNodeComplement a l m r).toSubtypeData
  | _ => none

/-- The difference from a top other than everything. -/
def bddSubtypeComplementIn (top : Bdd) : ProperSubtypeData → Option SubtypeData
  | .bddNode a l m r => some (bddDiff top (.node a l m r)).toSubtypeData
  | _ => none

def errorSubtypeComplement := bddSubtypeComplementIn BDD_SUBTYPE_RO
def tableSubtypeComplement := bddSubtypeComplementIn LIST_SUBTYPE_MAPPING
def objectSubtypeComplement := bddSubtypeComplementIn MAPPING_SUBTYPE_OBJECT

/-- A cell type is never a bare bit, so that the cell is not lost. -/
def cellSubtypeDataEnsureProper : SubtypeData → SubtypeData
  | .proper d => .proper d
  | .bool b =>
    let atom := if b then ATOM_CELL_VAL else ATOM_CELL_NEVER
    .proper (.bddNode atom (.leaf true) (.leaf false) (.leaf false))

/-- The row of a basic type whose data are plain `Bdd`s. -/
def bddOps : BasicTypeOps ProperSubtypeData where
  union := bddSubtypeUnion
  intersect := bddSubtypeIntersect
  diff := some bddSubtypeDiff
  complement := bddSubtypeComplement

def cellOps : BasicTypeOps ProperSubtypeData where
  union d1 d2 := (bddSubtypeUnion d1 d2).map cellSubtypeDataEnsureProper
  intersect d1 d2 := (bddSubtypeIntersect d1 d2).map cellSubtypeDataEnsureProper
  diff := some fun d1 d2 => (bddSubtypeDiff d1 d2).map cellSubtypeDataEnsureProper
  complement d := (bddSubtypeComplement d).map cellSubtypeDataEnsureProper

/-- `ops` of `core.bal`. -/
def ops (code : BasicTypeCode) : BasicTypeOps ProperSubtypeData :=
  if code = BT_BOOLEAN then
    ⟨booleanSubtypeUnion, booleanSubtypeIntersect, some booleanSubtypeDiff,
      booleanSubtypeComplement⟩
  else if code = BT_INT then ⟨intSubtypeUnion, intSubtypeIntersect, none, intSubtypeComplement⟩
  else if code = BT_FLOAT then
    ⟨floatSubtypeUnion, floatSubtypeIntersect, none, floatSubtypeComplement⟩
  else if code = BT_DECIMAL then
    ⟨decimalSubtypeUnion, decimalSubtypeIntersect, none, decimalSubtypeComplement⟩
  else if code = BT_STRING then
    ⟨stringSubtypeUnion, stringSubtypeIntersect, none, stringSubtypeComplement⟩
  else if code = BT_ERROR then { bddOps with complement := errorSubtypeComplement }
  else if code = BT_FUNCTION then bddOps
  else if code = BT_LIST then bddOps
  else if code = BT_MAPPING then bddOps
  else if code = BT_TABLE then { bddOps with complement := tableSubtypeComplement }
  else if code = BT_XML then
    ⟨xmlSubtypeUnion, xmlSubtypeIntersect, some xmlSubtypeDiff, xmlSubtypeComplement⟩
  else if code = BT_OBJECT then { bddOps with complement := objectSubtypeComplement }
  else if code = BT_CELL then cellOps
  else .panicking

end Table

end Nballerina.Types
