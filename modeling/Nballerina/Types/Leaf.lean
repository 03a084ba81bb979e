import Nballerina.Types.Bdd

/-!
# Subtype data of the simple basic types

`boolean.bal`, `int.bal`, `enumerable.bal`, `float.bal`, `decimal.bal`,
`string.bal` and `xml.bal`: union, intersection and complement of proper subtype
data. A result may be everything or nothing, so the operations return
`SubtypeData`; a cast that fails is a panic, `none`.

The loops of the source walk two sorted arrays with two indices; here each index
is what is left of its array.
-/

namespace Nballerina.Types

/-! ## Enumerable types -/

/-- `compareEnumerable` on a type with a decidable strict order. -/
def compareEnumerable {α : Type} [DecidableEq α] [LT α] [DecidableLT α] (v1 v2 : α) : Ordering :=
  if v1 = v2 then .eq else if v1 < v2 then .lt else .gt

/-- `compareEnumerable` on floats: NaN comes before everything else. -/
def compareFloat (v1 v2 : FloatValue) : Ordering :=
  if v1 = v2 then .eq
  else match v1, v2 with
    | .nan, _ => .lt
    | _, .nan => .gt
    | .negInfinity, _ => .lt
    | _, .negInfinity => .gt
    | .posInfinity, _ => .gt
    | _, .posInfinity => .lt
    | .finite x, .finite y => if x < y then .lt else .gt

section Enumerable

variable {α : Type} (cmp : α → α → Ordering)

def enumerableListUnion : List α → List α → List α
  | [], v2 => v2
  | s1 :: v1, [] => s1 :: v1
  | s1 :: v1, s2 :: v2 =>
    match cmp s1 s2 with
    | .eq => s1 :: enumerableListUnion v1 v2
    | .lt => s1 :: enumerableListUnion v1 (s2 :: v2)
    | .gt => s2 :: enumerableListUnion (s1 :: v1) v2
termination_by v1 v2 => v1.length + v2.length

def enumerableListIntersect : List α → List α → List α
  | [], _ => []
  | _ :: _, [] => []
  | s1 :: v1, s2 :: v2 =>
    match cmp s1 s2 with
    | .eq => s1 :: enumerableListIntersect v1 v2
    | .lt => enumerableListIntersect v1 (s2 :: v2)
    | .gt => enumerableListIntersect (s1 :: v1) v2
termination_by v1 v2 => v1.length + v2.length

def enumerableListDiff : List α → List α → List α
  | [], _ => []
  | s1 :: v1, [] => s1 :: v1
  | s1 :: v1, s2 :: v2 =>
    match cmp s1 s2 with
    | .eq => enumerableListDiff v1 v2
    | .lt => s1 :: enumerableListDiff v1 (s2 :: v2)
    | .gt => enumerableListDiff (s1 :: v1) v2
termination_by v1 v2 => v1.length + v2.length

def enumerableSubtypeUnion (t1 t2 : EnumerableSubtype α) : EnumerableSubtype α :=
  match t1.allowed, t2.allowed with
  | true, true => ⟨true, enumerableListUnion cmp t1.values t2.values⟩
  | false, false => ⟨false, enumerableListIntersect cmp t1.values t2.values⟩
  | true, false => ⟨false, enumerableListDiff cmp t2.values t1.values⟩
  | false, true => ⟨false, enumerableListDiff cmp t1.values t2.values⟩

def enumerableSubtypeIntersect (t1 t2 : EnumerableSubtype α) : EnumerableSubtype α :=
  match t1.allowed, t2.allowed with
  | true, true => ⟨true, enumerableListIntersect cmp t1.values t2.values⟩
  | false, false => ⟨false, enumerableListUnion cmp t1.values t2.values⟩
  | true, false => ⟨true, enumerableListDiff cmp t1.values t2.values⟩
  | false, true => ⟨true, enumerableListDiff cmp t2.values t1.values⟩

end Enumerable

/-- `createFloatSubtype` and `createDecimalSubtype`. -/
def createEnumerableSubtype {α : Type} (wrap : EnumerableSubtype α → ProperSubtypeData)
    (t : EnumerableSubtype α) : SubtypeData :=
  if t.values.isEmpty then .bool (!t.allowed) else .proper (wrap t)

def floatSubtypeUnion : ProperSubtypeData → ProperSubtypeData → Option SubtypeData
  | .float d1, .float d2 =>
    some (createEnumerableSubtype .float (enumerableSubtypeUnion compareFloat d1 d2))
  | _, _ => none

def floatSubtypeIntersect : ProperSubtypeData → ProperSubtypeData → Option SubtypeData
  | .float d1, .float d2 =>
    some (createEnumerableSubtype .float (enumerableSubtypeIntersect compareFloat d1 d2))
  | _, _ => none

def floatSubtypeComplement : ProperSubtypeData → Option SubtypeData
  | .float d => some (createEnumerableSubtype .float ⟨!d.allowed, d.values⟩)
  | _ => none

def decimalSubtypeUnion : ProperSubtypeData → ProperSubtypeData → Option SubtypeData
  | .decimal d1, .decimal d2 =>
    some (createEnumerableSubtype .decimal (enumerableSubtypeUnion compareEnumerable d1 d2))
  | _, _ => none

def decimalSubtypeIntersect : ProperSubtypeData → ProperSubtypeData → Option SubtypeData
  | .decimal d1, .decimal d2 =>
    some (createEnumerableSubtype .decimal (enumerableSubtypeIntersect compareEnumerable d1 d2))
  | _, _ => none

def decimalSubtypeComplement : ProperSubtypeData → Option SubtypeData
  | .decimal d => some (createEnumerableSubtype .decimal ⟨!d.allowed, d.values⟩)
  | _ => none

/-! ## Strings -/

def createStringSubtype (char nonChar : EnumerableSubtype String) : SubtypeData :=
  if char.values.isEmpty && nonChar.values.isEmpty && !char.allowed && !nonChar.allowed then
    .bool true
  else if char.values.isEmpty && nonChar.values.isEmpty && char.allowed && nonChar.allowed then
    .bool false
  else .proper (.string ⟨char, nonChar⟩)

def stringSubtypeUnion : ProperSubtypeData → ProperSubtypeData → Option SubtypeData
  | .string d1, .string d2 =>
    some (createStringSubtype (enumerableSubtypeUnion compareEnumerable d1.char d2.char)
      (enumerableSubtypeUnion compareEnumerable d1.nonChar d2.nonChar))
  | _, _ => none

def stringSubtypeIntersect : ProperSubtypeData → ProperSubtypeData → Option SubtypeData
  | .string d1, .string d2 =>
    some (createStringSubtype (enumerableSubtypeIntersect compareEnumerable d1.char d2.char)
      (enumerableSubtypeIntersect compareEnumerable d1.nonChar d2.nonChar))
  | _, _ => none

def stringSubtypeComplement : ProperSubtypeData → Option SubtypeData
  | .string ⟨char, nonChar⟩ =>
    if char.values.isEmpty && nonChar.values.isEmpty && char.allowed && nonChar.allowed then
      some (.bool true)
    else if char.values.isEmpty && nonChar.values.isEmpty && !char.allowed && !nonChar.allowed then
      some (.bool false)
    else some (createStringSubtype ⟨!char.allowed, char.values⟩ ⟨!nonChar.allowed, nonChar.values⟩)
  | _ => none

/-! ## Booleans -/

def booleanSubtypeUnion : ProperSubtypeData → ProperSubtypeData → Option SubtypeData
  | .boolean v1, .boolean v2 => some (if v1 = v2 then .proper (.boolean v1) else .bool true)
  | _, _ => none

def booleanSubtypeIntersect : ProperSubtypeData → ProperSubtypeData → Option SubtypeData
  | .boolean v1, .boolean v2 => some (if v1 = v2 then .proper (.boolean v1) else .bool false)
  | _, _ => none

def booleanSubtypeDiff : ProperSubtypeData → ProperSubtypeData → Option SubtypeData
  | .boolean v1, .boolean v2 => some (if v1 = v2 then .bool false else .proper (.boolean v1))
  | _, _ => none

def booleanSubtypeComplement : ProperSubtypeData → Option SubtypeData
  | .boolean v => some (.proper (.boolean (!v)))
  | _ => none

/-! ## Ints -/

/-- `int:MIN_VALUE`. -/
def intMinValue : Int := -9223372036854775808

/-- `int:MAX_VALUE`. -/
def intMaxValue : Int := 9223372036854775807

/-- The source's `-1|1|Range`. -/
inductive RangeCombined where
  | before
  | after
  | range (r : Range)
deriving DecidableEq, Repr

def rangeUnion (r1 r2 : Range) : RangeCombined :=
  if r1.max < r2.min ∧ r1.max + 1 ≠ r2.min then .before
  -- the second adjacency test reads `r2.min` twice, as the source does
  else if r2.max < r1.min ∧ r2.max + 1 ≠ r2.min then .after
  else .range ⟨min r1.min r2.min, max r1.max r2.max⟩

/-- `rangeUnionPush`, on the result array in reverse. -/
def rangeUnionPush : List Range → Range → List Range
  | [], next => [next]
  | last :: ranges, next =>
    match rangeUnion last next with
    | .range r => r :: ranges
    | _ => next :: last :: ranges

/-- The loop of `rangeListUnion`; `result` is in reverse. -/
def rangeListUnionLoop : List Range → List Range → List Range → List Range
  | result, [], v2 => v2.foldl rangeUnionPush result
  | result, r1 :: v1, [] => (r1 :: v1).foldl rangeUnionPush result
  | result, r1 :: v1, r2 :: v2 =>
    match rangeUnion r1 r2 with
    | .range r => rangeListUnionLoop (rangeUnionPush result r) v1 v2
    | .before => rangeListUnionLoop (rangeUnionPush result r1) v1 (r2 :: v2)
    | .after => rangeListUnionLoop (rangeUnionPush result r2) (r1 :: v1) v2
termination_by _ v1 v2 => v1.length + v2.length

def rangeListUnion (v1 v2 : List Range) : List Range :=
  (rangeListUnionLoop [] v1 v2).reverse

def rangeIntersect (r1 r2 : Range) : RangeCombined :=
  if r1.max < r2.min then .before
  else if r2.max < r1.min then .after
  else .range ⟨max r1.min r2.min, min r1.max r2.max⟩

def rangeListIntersect : List Range → List Range → List Range
  | [], _ => []
  | _ :: _, [] => []
  | r1 :: v1, r2 :: v2 =>
    match rangeIntersect r1 r2 with
    | .range r => r :: rangeListIntersect v1 v2
    | .before => rangeListIntersect v1 (r2 :: v2)
    | .after => rangeListIntersect (r1 :: v1) v2
termination_by v1 v2 => v1.length + v2.length

/-- The gaps between consecutive ranges. -/
def rangeGaps : List Range → List Range
  | r1 :: r2 :: v => ⟨r1.max + 1, r2.min - 1⟩ :: rangeGaps (r2 :: v)
  | _ => []

/-- `rangeListComplement`; the source indexes `v[0]`, so an empty list panics. -/
def rangeListComplement (v : List Range) : Option (List Range) :=
  match v.head?, v.getLast? with
  | some first, some last =>
    some ((if first.min > intMinValue then [⟨intMinValue, first.min - 1⟩] else []) ++
      rangeGaps v ++
      (if last.max < intMaxValue then [⟨last.max + 1, intMaxValue⟩] else []))
  | _, _ => none

def intSubtypeUnion : ProperSubtypeData → ProperSubtypeData → Option SubtypeData
  | .int v1, .int v2 =>
    let v := rangeListUnion v1 v2
    some (if v = [⟨intMinValue, intMaxValue⟩] then .bool true else .proper (.int v))
  | _, _ => none

def intSubtypeIntersect : ProperSubtypeData → ProperSubtypeData → Option SubtypeData
  | .int v1, .int v2 =>
    let v := rangeListIntersect v1 v2
    some (if v.isEmpty then .bool false else .proper (.int v))
  | _, _ => none

def intSubtypeComplement : ProperSubtypeData → Option SubtypeData
  | .int v => (rangeListComplement v).map fun w => .proper (.int w)
  | _ => none

/-! ## Xml -/

def XML_PRIMITIVE_NEVER : BitVec 64 := 1
def XML_PRIMITIVE_TEXT : BitVec 64 := 1 <<< 1
def XML_PRIMITIVE_ELEMENT_RO : BitVec 64 := 1 <<< 2
def XML_PRIMITIVE_PI_RO : BitVec 64 := 1 <<< 3
def XML_PRIMITIVE_COMMENT_RO : BitVec 64 := 1 <<< 4
def XML_PRIMITIVE_ELEMENT_RW : BitVec 64 := 1 <<< 5
def XML_PRIMITIVE_PI_RW : BitVec 64 := 1 <<< 6
def XML_PRIMITIVE_COMMENT_RW : BitVec 64 := 1 <<< 7

def XML_PRIMITIVE_RO_SINGLETON : BitVec 64 :=
  XML_PRIMITIVE_TEXT ||| XML_PRIMITIVE_ELEMENT_RO ||| XML_PRIMITIVE_PI_RO |||
    XML_PRIMITIVE_COMMENT_RO
def XML_PRIMITIVE_RO_MASK : BitVec 64 := XML_PRIMITIVE_NEVER ||| XML_PRIMITIVE_RO_SINGLETON
def XML_PRIMITIVE_RW_MASK : BitVec 64 :=
  XML_PRIMITIVE_ELEMENT_RW ||| XML_PRIMITIVE_PI_RW ||| XML_PRIMITIVE_COMMENT_RW
def XML_PRIMITIVE_SINGLETON : BitVec 64 := XML_PRIMITIVE_RO_SINGLETON ||| XML_PRIMITIVE_RW_MASK
def XML_PRIMITIVE_ALL_MASK : BitVec 64 := XML_PRIMITIVE_RO_MASK ||| XML_PRIMITIVE_RW_MASK

def createXmlSubtypeOrEmpty (primitives : BitVec 64) (sequence : Bdd) : SubtypeData :=
  if sequence = .leaf false ∧ primitives = 0 then .bool false
  else .proper (.xml primitives sequence)

def createXmlSubtype (primitives : BitVec 64) (sequence : Bdd) : SubtypeData :=
  let p := primitives &&& XML_PRIMITIVE_ALL_MASK
  if sequence = .leaf true ∧ p = XML_PRIMITIVE_ALL_MASK then .bool true
  else createXmlSubtypeOrEmpty p sequence

section Xml

variable [BddIdentity]

def xmlSubtypeUnion : ProperSubtypeData → ProperSubtypeData → Option SubtypeData
  | .xml p1 s1, .xml p2 s2 => some (createXmlSubtype (p1 ||| p2) (bddUnion s1 s2))
  | _, _ => none

def xmlSubtypeIntersect : ProperSubtypeData → ProperSubtypeData → Option SubtypeData
  | .xml p1 s1, .xml p2 s2 => some (createXmlSubtypeOrEmpty (p1 &&& p2) (bddIntersect s1 s2))
  | _, _ => none

def xmlSubtypeDiff : ProperSubtypeData → ProperSubtypeData → Option SubtypeData
  | .xml p1 s1, .xml p2 s2 => some (createXmlSubtypeOrEmpty (p1 &&& ~~~p2) (bddDiff s1 s2))
  | _, _ => none

/-- `XML_SUBTYPE_TOP`. -/
def xmlSubtypeTop : ProperSubtypeData := .xml XML_PRIMITIVE_ALL_MASK (.leaf true)

def xmlSubtypeComplement (d : ProperSubtypeData) : Option SubtypeData :=
  xmlSubtypeDiff xmlSubtypeTop d

end Xml

end Nballerina.Types
