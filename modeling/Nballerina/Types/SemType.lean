/-!
# Semantic types: the data model

`compiler/modules/types` represents a type by, for each basic type, the part of
that basic type it contains: all of it, none of it, or *proper subtype data*.
This file is that representation: basic type codes (`tag.bal`), bit sets and
`ComplexSemType` (`core.bal`), the subtype data of the simple basic types, and
the mutually recursive core of it all — a `Bdd` is built from atoms, an atom
carries an atomic type, an atomic type is built from semtypes, and the subtype
data of a semtype is a `Bdd` again (`bdd.bal`, `cell.bal`, `list.bal`,
`mapping.bal`, `function.bal`).

Recursion through *named* definitions does not show here: it goes through a
`recAtom`, an index into the tables of the `Env`.

Mirroring notes:
- The source's `BasicTypeBitSet` is `int:Unsigned32`, here `BitVec 32`; the
  codes are the constants of `tag.bal`, here `Fin 19`.
- `SubtypeData` is `ProperSubtypeData|boolean`; a `Bdd` is `BddNode|boolean`.
  The proper data of a Bdd-based basic type is a node, so it is stored here by
  its four fields and `SubtypeData.toBdd` / `Bdd.toSubtypeData` move between
  the two unions.
- `float` and `decimal` constants are kept by numeric value, which is what the
  source's `==` and `<` on them look at (`0.0 == -0.0`, `1.0d == 1.00d`).
- The records of the source are compared by deep equality; `DecidableEq` below
  is that comparison.
-/

namespace Nballerina.Types

/-- A basic type code, `BT_NIL .. BT_UNDEF` of `tag.bal`. -/
abbrev BasicTypeCode := Fin 19

def BT_NIL : BasicTypeCode := 0x00
def BT_BOOLEAN : BasicTypeCode := 0x01
def BT_INT : BasicTypeCode := 0x02
def BT_FLOAT : BasicTypeCode := 0x03
def BT_DECIMAL : BasicTypeCode := 0x04
def BT_STRING : BasicTypeCode := 0x05
def BT_ERROR : BasicTypeCode := 0x06
def BT_TYPEDESC : BasicTypeCode := 0x07
def BT_HANDLE : BasicTypeCode := 0x08
def BT_FUNCTION : BasicTypeCode := 0x09
def BT_FUTURE : BasicTypeCode := 0x0A
def BT_STREAM : BasicTypeCode := 0x0B
def BT_LIST : BasicTypeCode := 0x0C
def BT_MAPPING : BasicTypeCode := 0x0D
def BT_TABLE : BasicTypeCode := 0x0E
def BT_XML : BasicTypeCode := 0x0F
def BT_OBJECT : BasicTypeCode := 0x10
def BT_CELL : BasicTypeCode := 0x11
def BT_UNDEF : BasicTypeCode := 0x12

/-- A set of basic types, one bit for each code. -/
abbrev BasicTypeBitSet := BitVec 32

/-- `1 << code`. -/
def basicType (code : BasicTypeCode) : BasicTypeBitSet := 1#32 <<< code.val

/-- `VT_COUNT = BT_OBJECT + 1`: the codes from here on (`BT_CELL`, `BT_UNDEF`)
are not value types. -/
def VT_COUNT : Nat := BT_OBJECT.val + 1

def VT_MASK : BasicTypeBitSet := (1#32 <<< VT_COUNT) - 1

def VT_COUNT_INHERENTLY_IMMUTABLE : Nat := 0xA

def VT_INHERENTLY_IMMUTABLE : BasicTypeBitSet :=
  (1#32 <<< VT_COUNT_INHERENTLY_IMMUTABLE) - 1

/-- The record `ComplexSemType`, over the type `δ` of proper subtype data. -/
structure ComplexSemType (δ : Type) where
  /-- basic types contained as a whole -/
  all : BasicTypeBitSet
  /-- basic types contained in part -/
  some : BasicTypeBitSet
  /-- one entry for each bit of `some`, by increasing code -/
  subtypeDataList : List δ

/-- `BasicTypeBitSet|ComplexSemType`, over the type of proper subtype data. -/
inductive SemTypeOf (δ : Type) where
  | bits (b : BasicTypeBitSet)
  | complex (c : ComplexSemType δ)

/-- An inclusive range of ints (`int.bal`). -/
structure Range where
  min : Int
  max : Int
deriving DecidableEq, Repr

/-- A `float`, by numeric value. -/
inductive FloatValue where
  | nan
  | negInfinity
  | finite (value : Rat)
  | posInfinity
deriving DecidableEq, Repr

/-- A finite list of allowed values, or of the only disallowed ones
(`enumerable.bal`). -/
structure EnumerableSubtype (α : Type) where
  allowed : Bool
  values : List α
deriving DecidableEq, Repr

/-- Strings of length one and all others are kept apart (`string.bal`). -/
structure StringSubtype where
  char : EnumerableSubtype String
  nonChar : EnumerableSubtype String
deriving DecidableEq, Repr

/-- `CELL_MUT_NONE < CELL_MUT_LIMITED < CELL_MUT_UNLIMITED`. -/
inductive CellMutability where
  | none
  | limited
  | unlimited
deriving DecidableEq, Repr

/-- The number the source gives a mutability. -/
def CellMutability.toNat : CellMutability → Nat
  | .none => 0
  | .limited => 1
  | .unlimited => 2

mutual

/-- `RecAtom|TypeAtom`. A `RecAtom` is an int: an index into a table of the
`Env`, or, inside `error` and `xml` data, a number of its own. -/
inductive Atom where
  | recAtom (index : Int)
  | typeAtom (index : Int) (atomicType : AtomicType)

/-- `ListAtomicType|MappingAtomicType|CellAtomicType|FunctionAtomicType`. -/
inductive AtomicType where
  | list (initial : List (SemTypeOf ProperSubtypeData)) (fixedLength : Int)
      (rest : SemTypeOf ProperSubtypeData)
  | mapping (names : List String) (types : List (SemTypeOf ProperSubtypeData))
      (rest : SemTypeOf ProperSubtypeData)
  | cell (ty : SemTypeOf ProperSubtypeData) (mutability : CellMutability)
  | function (args ret : SemTypeOf ProperSubtypeData)

/-- `BddNode|boolean`. -/
inductive Bdd where
  | leaf (b : Bool)
  | node (atom : Atom) (left middle right : Bdd)

/-- Subtype data that is neither everything nor nothing. -/
inductive ProperSubtypeData where
  | string (d : StringSubtype)
  | decimal (d : EnumerableSubtype Rat)
  | float (d : EnumerableSubtype FloatValue)
  | int (d : List Range)
  | boolean (value : Bool)
  | xml (primitives : BitVec 64) (sequence : Bdd)
  | bddNode (atom : Atom) (left middle right : Bdd)

end

/-- `ProperSubtypeData|boolean`: `true` is everything, `false` is nothing. -/
inductive SubtypeDataOf (δ : Type) where
  | bool (b : Bool)
  | proper (d : δ)

abbrev SemType := SemTypeOf ProperSubtypeData
abbrev SubtypeData := SubtypeDataOf ProperSubtypeData

/-- The cast `<Bdd>` of subtype data; `none` is the panic of a failed cast. -/
def SubtypeDataOf.toBdd : SubtypeData → Option Bdd
  | .bool b => .some (.leaf b)
  | .proper (.bddNode a l m r) => .some (.node a l m r)
  | .proper _ => .none

/-- A `Bdd` used as subtype data. -/
def Bdd.toSubtypeData : Bdd → SubtypeData
  | .leaf b => .bool b
  | .node a l m r => .proper (.bddNode a l m r)

/-! ## Deep equality -/

mutual

def Atom.decEq : (a b : Atom) → Decidable (a = b)
  | .recAtom i, .recAtom j => decidable_of_iff (i = j) (by simp)
  | .typeAtom i t, .typeAtom j u =>
    match AtomicType.decEq t u with
    | isTrue h => decidable_of_iff (i = j) (by simp [h])
    | isFalse h => isFalse (by simp [h])
  | .recAtom _, .typeAtom _ _ => isFalse (by simp)
  | .typeAtom _ _, .recAtom _ => isFalse (by simp)
termination_by structural a => a

def AtomicType.decEq : (a b : AtomicType) → Decidable (a = b)
  | .list i f r, .list i' f' r' =>
    match semTypesDecEq i i', semTypeDecEq r r' with
    | isTrue h, isTrue h' => decidable_of_iff (f = f') (by simp [h, h'])
    | isFalse h, _ => isFalse (by simp [h])
    | _, isFalse h => isFalse (by simp [h])
  | .mapping n t r, .mapping n' t' r' =>
    match semTypesDecEq t t', semTypeDecEq r r' with
    | isTrue h, isTrue h' => decidable_of_iff (n = n') (by simp [h, h'])
    | isFalse h, _ => isFalse (by simp [h])
    | _, isFalse h => isFalse (by simp [h])
  | .cell t m, .cell t' m' =>
    match semTypeDecEq t t' with
    | isTrue h => decidable_of_iff (m = m') (by simp [h])
    | isFalse h => isFalse (by simp [h])
  | .function p r, .function p' r' =>
    match semTypeDecEq p p', semTypeDecEq r r' with
    | isTrue h, isTrue h' => isTrue (by simp [h, h'])
    | isFalse h, _ => isFalse (by simp [h])
    | _, isFalse h => isFalse (by simp [h])
  | .list .., .mapping .. | .list .., .cell .. | .list .., .function ..
  | .mapping .., .list .. | .mapping .., .cell .. | .mapping .., .function ..
  | .cell .., .list .. | .cell .., .mapping .. | .cell .., .function ..
  | .function .., .list .. | .function .., .mapping .. | .function .., .cell .. =>
    isFalse (by simp)
termination_by structural a => a

def semTypesDecEq : (a b : List (SemTypeOf ProperSubtypeData)) → Decidable (a = b)
  | [], [] => isTrue rfl
  | x :: xs, y :: ys =>
    match semTypeDecEq x y, semTypesDecEq xs ys with
    | isTrue h, isTrue h' => isTrue (by simp [h, h'])
    | isFalse h, _ => isFalse (by simp [h])
    | _, isFalse h => isFalse (by simp [h])
  | [], _ :: _ => isFalse (by simp)
  | _ :: _, [] => isFalse (by simp)
termination_by structural a => a

def semTypeDecEq : (a b : SemTypeOf ProperSubtypeData) → Decidable (a = b)
  | .bits i, .bits j => decidable_of_iff (i = j) (by simp)
  | .complex c, .complex c' =>
    match complexDecEq c c' with
    | isTrue h => isTrue (by simp [h])
    | isFalse h => isFalse (by simp [h])
  | .bits _, .complex _ => isFalse (by simp)
  | .complex _, .bits _ => isFalse (by simp)
termination_by structural a => a

def complexDecEq : (a b : ComplexSemType ProperSubtypeData) → Decidable (a = b)
  | ⟨a, s, l⟩, ⟨a', s', l'⟩ =>
    match dataListDecEq l l' with
    | isTrue h => decidable_of_iff (a = a' ∧ s = s') (by simp [h])
    | isFalse h => isFalse (by simp [h])
termination_by structural a => a

def dataListDecEq : (a b : List ProperSubtypeData) → Decidable (a = b)
  | [], [] => isTrue rfl
  | x :: xs, y :: ys =>
    match ProperSubtypeData.decEq x y, dataListDecEq xs ys with
    | isTrue h, isTrue h' => isTrue (by simp [h, h'])
    | isFalse h, _ => isFalse (by simp [h])
    | _, isFalse h => isFalse (by simp [h])
  | [], _ :: _ => isFalse (by simp)
  | _ :: _, [] => isFalse (by simp)
termination_by structural a => a

def Bdd.decEq : (a b : Bdd) → Decidable (a = b)
  | .leaf i, .leaf j => decidable_of_iff (i = j) (by simp)
  | .node a l m r, .node a' l' m' r' =>
    match Atom.decEq a a', Bdd.decEq l l', Bdd.decEq m m', Bdd.decEq r r' with
    | isTrue h, isTrue h1, isTrue h2, isTrue h3 => isTrue (by simp [h, h1, h2, h3])
    | isFalse h, _, _, _ => isFalse (by simp [h])
    | _, isFalse h, _, _ => isFalse (by simp [h])
    | _, _, isFalse h, _ => isFalse (by simp [h])
    | _, _, _, isFalse h => isFalse (by simp [h])
  | .leaf _, .node .. => isFalse (by simp)
  | .node .., .leaf _ => isFalse (by simp)
termination_by structural a => a

def ProperSubtypeData.decEq : (a b : ProperSubtypeData) → Decidable (a = b)
  | .string d, .string d' => decidable_of_iff (d = d') (by simp)
  | .decimal d, .decimal d' => decidable_of_iff (d = d') (by simp)
  | .float d, .float d' => decidable_of_iff (d = d') (by simp)
  | .int d, .int d' => decidable_of_iff (d = d') (by simp)
  | .boolean d, .boolean d' => decidable_of_iff (d = d') (by simp)
  | .xml p b, .xml p' b' =>
    match Bdd.decEq b b' with
    | isTrue h => decidable_of_iff (p = p') (by simp [h])
    | isFalse h => isFalse (by simp [h])
  | .bddNode a l m r, .bddNode a' l' m' r' =>
    match Atom.decEq a a', Bdd.decEq l l', Bdd.decEq m m', Bdd.decEq r r' with
    | isTrue h, isTrue h1, isTrue h2, isTrue h3 => isTrue (by simp [h, h1, h2, h3])
    | isFalse h, _, _, _ => isFalse (by simp [h])
    | _, isFalse h, _, _ => isFalse (by simp [h])
    | _, _, isFalse h, _ => isFalse (by simp [h])
    | _, _, _, isFalse h => isFalse (by simp [h])
  | .string _, .decimal _ | .string _, .float _ | .string _, .int _
  | .string _, .boolean _ | .string _, .xml .. | .string _, .bddNode ..
  | .decimal _, .string _ | .decimal _, .float _ | .decimal _, .int _
  | .decimal _, .boolean _ | .decimal _, .xml .. | .decimal _, .bddNode ..
  | .float _, .string _ | .float _, .decimal _ | .float _, .int _
  | .float _, .boolean _ | .float _, .xml .. | .float _, .bddNode ..
  | .int _, .string _ | .int _, .decimal _ | .int _, .float _
  | .int _, .boolean _ | .int _, .xml .. | .int _, .bddNode ..
  | .boolean _, .string _ | .boolean _, .decimal _ | .boolean _, .float _
  | .boolean _, .int _ | .boolean _, .xml .. | .boolean _, .bddNode ..
  | .xml .., .string _ | .xml .., .decimal _ | .xml .., .float _
  | .xml .., .int _ | .xml .., .boolean _ | .xml .., .bddNode ..
  | .bddNode .., .string _ | .bddNode .., .decimal _ | .bddNode .., .float _
  | .bddNode .., .int _ | .bddNode .., .boolean _ | .bddNode .., .xml .. =>
    isFalse (by simp)
termination_by structural a => a

end

instance : DecidableEq Atom := Atom.decEq
instance : DecidableEq AtomicType := AtomicType.decEq
instance : DecidableEq Bdd := Bdd.decEq
instance : DecidableEq ProperSubtypeData := ProperSubtypeData.decEq
instance : DecidableEq SemType := semTypeDecEq

end Nballerina.Types
