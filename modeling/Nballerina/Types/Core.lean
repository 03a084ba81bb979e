import Nballerina.Types.Leaf

/-!
# Union, intersection and difference of semtypes (`core.bal`)

The three operations treat the basic types one by one: bit arithmetic decides
which basic types are contained as a whole, and for the others a merge of the
two lists of proper subtype data (`SubtypePairIterator`) calls the operation of
the basic type. They are written over an arbitrary table `ops` of these
operations; the source's own table is in `Ops.lean`.

A `none` is a panic: a cast that fails, or an operation that the table leaves at
`binOpPanic` / `unaryOpPanic`.
-/

namespace Nballerina.Types

variable {δ : Type}

/-- `BasicTypeOps`, less `isEmpty`, which needs a `Context`. -/
structure BasicTypeOps (δ : Type) where
  union : δ → δ → Option (SubtypeDataOf δ)
  intersect : δ → δ → Option (SubtypeDataOf δ)
  /-- `()` when the difference is the intersection with the complement -/
  diff : Option (δ → δ → Option (SubtypeDataOf δ))
  complement : δ → Option (SubtypeDataOf δ)

/-- A row of the table left empty: every operation panics. -/
def BasicTypeOps.panicking : BasicTypeOps δ where
  union _ _ := none
  intersect _ _ := none
  diff := none
  complement _ := none

/-- `<BasicTypeCode>lib:numberOfTrailingZeros(bits)`. -/
def lowestBasicTypeCode (bits : BasicTypeBitSet) : Option BasicTypeCode :=
  (List.finRange 19).find? fun code => bits.getLsbD code.val

/-- `unpackComplexSemType`, from the bits and the data that are left. -/
def unpackFrom : BasicTypeBitSet → List δ → Option (List (BasicTypeCode × δ))
  | _, [] => some []
  | bits, data :: dataList => do
    let code ← lowestBasicTypeCode bits
    let subtypeList ← unpackFrom (bits ^^^ basicType code) dataList
    return (code, data) :: subtypeList

def unpackComplexSemType (t : ComplexSemType δ) : Option (List (BasicTypeCode × δ)) :=
  unpackFrom t.some t.subtypeDataList

def createComplexSemType (all : BasicTypeBitSet) (subtypeList : List (BasicTypeCode × δ)) :
    ComplexSemType δ where
  all := all
  some := subtypeList.foldl (fun bits entry => bits ||| basicType entry.1) 0
  subtypeDataList := subtypeList.map (·.2)

def basicSubtype (code : BasicTypeCode) (data : δ) : SemTypeOf δ :=
  .complex (createComplexSemType 0 [(code, data)])

/-- `lib:bitCount`. -/
def bitCount (bits : BasicTypeBitSet) : Nat :=
  ((List.range 32).filter fun i => bits.getLsbD i).length

/-- `getComplexSubtypeData`; an index past the list is a panic. -/
def getComplexSubtypeData (t : ComplexSemType δ) (code : BasicTypeCode) :
    Option (SubtypeDataOf δ) :=
  let c := basicType code
  if t.all &&& c ≠ 0 then some (.bool true)
  else if t.some &&& c = 0 then some (.bool false)
  else (t.subtypeDataList[bitCount (t.some &&& (c - 1))]?).map .proper

def subtypeData (t : SemTypeOf δ) (code : BasicTypeCode) : Option (SubtypeDataOf δ) :=
  match t with
  | .bits b => some (.bool (b &&& basicType code != 0))
  | .complex c => getComplexSubtypeData c code

/-- What `SubtypePairIteratorImpl` yields, as one list: both arrays are walked by
increasing code, and a code outside `bits` is skipped. -/
def subtypePairs (bits : BasicTypeBitSet) :
    List (BasicTypeCode × δ) → List (BasicTypeCode × δ) →
      List (BasicTypeCode × Option δ × Option δ)
  | [], t2 => (t2.filter (includes ·.1)).map fun e => (e.1, none, some e.2)
  | e1 :: t1, [] => ((e1 :: t1).filter (includes ·.1)).map fun e => (e.1, some e.2, none)
  | (code1, data1) :: t1, (code2, data2) :: t2 =>
    if code1 = code2 then
      emit code1 (some data1) (some data2) (subtypePairs bits t1 t2)
    else if code1 < code2 then
      emit code1 (some data1) none (subtypePairs bits t1 ((code2, data2) :: t2))
    else
      emit code2 none (some data2) (subtypePairs bits ((code1, data1) :: t1) t2)
termination_by t1 t2 => t1.length + t2.length
where
  /-- `include` -/
  includes (code : BasicTypeCode) : Bool := bits &&& basicType code != 0
  emit (code : BasicTypeCode) (data1 data2 : Option δ)
      (rest : List (BasicTypeCode × Option δ × Option δ)) :=
    if includes code then (code, data1, data2) :: rest else rest

/-- `new SubtypePairIteratorImpl(t1, t2, bits)`. -/
def subtypePairIterator (t1 t2 : SemTypeOf δ) (bits : BasicTypeBitSet) :
    Option (List (BasicTypeCode × Option δ × Option δ)) := do
  let u1 ← unpack t1
  let u2 ← unpack t2
  return subtypePairs bits u1 u2
where
  unpack : SemTypeOf δ → Option (List (BasicTypeCode × δ))
    | .bits _ => some []
    | .complex c => unpackComplexSemType c

/-- The end of each operation: no proper data left makes a bit set. -/
def finishSemType (result : BasicTypeBitSet × List (BasicTypeCode × δ)) : SemTypeOf δ :=
  if result.2.isEmpty then .bits result.1
  else .complex (createComplexSemType result.1 result.2)

section Operations

variable (ops : BasicTypeCode → BasicTypeOps δ)

/-- The data of one code in a union. -/
def unionData (code : BasicTypeCode) : Option δ → Option δ → Option (SubtypeDataOf δ)
  | none, data2 => data2.map .proper
  | some data1, none => some (.proper data1)
  | some data1, some data2 => (ops code).union data1 data2

/-- The loop of `union`, with the accumulated `all` and `subtypes`. -/
def unionLoop : List (BasicTypeCode × Option δ × Option δ) →
    BasicTypeBitSet × List (BasicTypeCode × δ) →
      Option (BasicTypeBitSet × List (BasicTypeCode × δ))
  | [], acc => some acc
  | (code, data1, data2) :: pairs, (all, subtypes) => do
    match ← unionData ops code data1 data2 with
    | .bool true => unionLoop pairs (all ||| basicType code, subtypes)
    | .proper data => unionLoop pairs (all, subtypes ++ [(code, data)])
    -- the cast to `ProperSubtypeData` fails
    | .bool false => none

/-- `union` after the operands have been split into `all` and `some`. -/
def unionMerge (t1 t2 : SemTypeOf δ) (all1 some1 all2 some2 : BasicTypeBitSet) :
    Option (SemTypeOf δ) :=
  let all := all1 ||| all2
  let some := (some1 ||| some2) &&& ~~~all
  if some = 0 then return .bits all
  else do
    let pairs ← subtypePairIterator t1 t2 some
    let result ← unionLoop ops pairs (all, [])
    return finishSemType result

def union (t1 t2 : SemTypeOf δ) : Option (SemTypeOf δ) :=
  match t1, t2 with
  | .bits b1, .bits b2 => some (.bits (b1 ||| b2))
  | .bits b1, .complex c2 =>
    if b1 = 0 then some t2 else unionMerge ops t1 t2 b1 0 c2.all c2.some
  | .complex c1, .bits b2 =>
    if b2 = 0 then some t1 else unionMerge ops t1 t2 c1.all c1.some b2 0
  | .complex c1, .complex c2 => unionMerge ops t1 t2 c1.all c1.some c2.all c2.some

/-- The data of one code in an intersection. -/
def intersectData (code : BasicTypeCode) : Option δ → Option δ → Option (SubtypeDataOf δ)
  | none, data2 => data2.map .proper
  | some data1, none => some (.proper data1)
  | some data1, some data2 => (ops code).intersect data1 data2

def intersectLoop : List (BasicTypeCode × Option δ × Option δ) → List (BasicTypeCode × δ) →
    Option (List (BasicTypeCode × δ))
  | [], subtypes => some subtypes
  | (code, data1, data2) :: pairs, subtypes => do
    match ← intersectData ops code data1 data2 with
    | .bool false => intersectLoop pairs subtypes
    | .proper data => intersectLoop pairs (subtypes ++ [(code, data)])
    -- the cast to `ProperSubtypeData` fails
    | .bool true => none

def intersectMerge (t1 t2 : SemTypeOf δ) (all1 some1 all2 some2 : BasicTypeBitSet) :
    Option (SemTypeOf δ) :=
  let all := all1 &&& all2
  let some := ((some1 ||| all1) &&& (some2 ||| all2)) &&& ~~~all
  if some = 0 then return .bits all
  else do
    let pairs ← subtypePairIterator t1 t2 some
    let subtypes ← intersectLoop ops pairs []
    return finishSemType (all, subtypes)

def intersect (t1 t2 : SemTypeOf δ) : Option (SemTypeOf δ) :=
  match t1, t2 with
  | .bits b1, .bits b2 => some (.bits (b1 &&& b2))
  | .bits b1, .complex c2 =>
    if b1 = 0 then some t1
    else if b1 = VT_MASK then some t2
    else intersectMerge ops t1 t2 b1 0 c2.all c2.some
  | .complex c1, .bits b2 =>
    if b2 = 0 then some t2
    else if b2 = VT_MASK then some t1
    else intersectMerge ops t1 t2 c1.all c1.some b2 0
  | .complex c1, .complex c2 => intersectMerge ops t1 t2 c1.all c1.some c2.all c2.some

def subtypeDiff (code : BasicTypeCode) (d1 d2 : δ) : Option (SubtypeDataOf δ) :=
  match (ops code).diff with
  | some diff => diff d1 d2
  | none => do
    match ← (ops code).complement d2 with
    | .bool b => if b then some (.proper d1) else some (.bool false)
    | .proper d2Complement => (ops code).intersect d1 d2Complement

/-- The data of one code in a difference. -/
def diffData (code : BasicTypeCode) : Option δ → Option δ → Option (SubtypeDataOf δ)
  | none, data2 => data2.bind (ops code).complement
  | some data1, none => some (.proper data1)
  | some data1, some data2 => subtypeDiff ops code data1 data2

def diffLoop : List (BasicTypeCode × Option δ × Option δ) →
    BasicTypeBitSet × List (BasicTypeCode × δ) →
      Option (BasicTypeBitSet × List (BasicTypeCode × δ))
  | [], acc => some acc
  | (code, data1, data2) :: pairs, (all, subtypes) => do
    match ← diffData ops code data1 data2 with
    | .proper data => diffLoop pairs (all, subtypes ++ [(code, data)])
    | .bool true => diffLoop pairs (all ||| basicType code, subtypes)
    | .bool false => diffLoop pairs (all, subtypes)

def diffMerge (t1 t2 : SemTypeOf δ) (all1 some1 all2 some2 : BasicTypeBitSet) :
    Option (SemTypeOf δ) :=
  let all := all1 &&& ~~~(all2 ||| some2)
  let some := ((all1 ||| some1) &&& ~~~all2) &&& ~~~all
  if some = 0 then return .bits all
  else do
    let pairs ← subtypePairIterator t1 t2 some
    let result ← diffLoop ops pairs (all, [])
    return finishSemType result

def diff (t1 t2 : SemTypeOf δ) : Option (SemTypeOf δ) :=
  match t1, t2 with
  | .bits b1, .bits b2 => some (.bits (b1 &&& ~~~b2))
  | .bits b1, .complex c2 =>
    if b1 = 0 then some t1 else diffMerge ops t1 t2 b1 0 c2.all c2.some
  | .complex c1, .bits b2 =>
    if b2 = VT_MASK then some (.bits 0) else diffMerge ops t1 t2 c1.all c1.some b2 0
  | .complex c1, .complex c2 => diffMerge ops t1 t2 c1.all c1.some c2.all c2.some

end Operations

end Nballerina.Types
