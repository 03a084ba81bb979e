import Nballerina.Runtime.String

/-!
# Runtime mappings

Mirroring `runtime/mapping.c`, with `_bal_array_grow` of `runtime/list.c`.

A mapping has its fields in an array, in the order in which they were added, and a hash
table of indices into the array. The elements of the table are 8, 16, 32 or 64 bits wide;
the one with all bits set stands for an empty slot.

Mirroring notes:

* the keys are any type with an equality and a hash (`taggedStringEqual` and
  `_bal_string_hash`), so that this part does not depend on how strings are stored;
* `fields` is the part of `fArray.members` up to `length`; a store at an index that is
  not below `capacity` is `none`, and so is `1 << n` in an `int` from `n = 31` on;
* a loop without a bound in the source has as many rounds as the table has slots. After
  these it is where it began, so that it would not end: then the result is `none`;
* the member types and their test are parameters, and an operation that may need a filler
  value takes the one `structCreateFiller` gives it, `none` for `FILL_NONE`.
-/

namespace Nballerina.Runtime

open Nballerina.Lib

variable {K M : Type}

/-- `nFields` is the number of field types. -/
structure MappingDesc (M : Type) where
  restType : M
  fieldTypes : List M

structure MapField (K : Type) where
  key : K
  value : TaggedPtr

structure Mapping (K M : Type) where
  desc : MappingDesc M
  fields : List (MapField K)
  capacity : Nat
  table : List Nat
  tableElementShift : Nat
  tableLengthShift : Nat

/-- `1 << n` as an `int`. -/
def intShift (n : Nat) : Option Nat := if n < 31 then some (1 <<< n) else none

/-- The width of a table element. -/
def elementBits (tableElementShift : Nat) : Nat := 8 <<< (tableElementShift % 4)

/-- `(T)-1`. -/
def emptyMarker (tableElementShift : Nat) : Nat := 2 ^ elementBits tableElementShift - 1

def Mapping.matches (eq : K → K → Bool) (m : Mapping K M) (key : K) (mapIndex : Nat) :
    Option Bool := do
  let field ← m.fields[mapIndex]?
  some (eq field.key key)

/-! ## The table -/

def fetch (table : List Nat) (i tableElementShift : Nat) : Option Int := do
  let p ← table[i]?
  if p = emptyMarker tableElementShift then some (-1) else some p

def put (table : List Nat) (i n tableElementShift : Nat) : Option (List Nat) :=
  if i < table.length then some (table.set i (n % 2 ^ elementBits tableElementShift)) else none

def Mapping.lookupLoop (eq : K → K → Bool) (m : Mapping K M) (key : K) (tableIndexMax : Nat) :
    Nat → Nat → Option Int
  | 0, _ => none
  | rounds + 1, i => do
    let mapIndex ← fetch m.table i m.tableElementShift
    if mapIndex = -1 then
      some (-(i : Int) - 1)
    else if ← m.matches eq key mapIndex.toNat then
      some mapIndex
    else
      m.lookupLoop eq key tableIndexMax rounds (if i = 0 then tableIndexMax else i - 1)

/-- The index into the map if found, otherwise `-i - 1` for the index `i` of the slot at
which it should be inserted. -/
def Mapping.lookup (eq : K → K → Bool) (m : Mapping K M) (key : K) (hash : Word) :
    Option Int := do
  let tableLength ← intShift m.tableLengthShift
  let tableIndexMax := tableLength - 1
  m.lookupLoop eq key tableIndexMax tableLength (hash &&& BitVec.ofNat 64 tableIndexMax).toNat

def Mapping.lookupDistinctLoop (m : Mapping K M) (tableIndexMax : Nat) :
    Nat → Nat → Option Int
  | 0, _ => none
  | rounds + 1, i => do
    let mapIndex ← fetch m.table i m.tableElementShift
    if mapIndex = -1 then
      some (-(i : Int) - 1)
    else
      m.lookupDistinctLoop tableIndexMax rounds (if i = 0 then tableIndexMax else i - 1)

/-- The same when the key is known not to be there. -/
def Mapping.lookupDistinct (m : Mapping K M) (hash : Word) : Option Int := do
  let tableLength ← intShift m.tableLengthShift
  let tableIndexMax := tableLength - 1
  m.lookupDistinctLoop tableIndexMax tableLength (hash &&& BitVec.ofNat 64 tableIndexMax).toNat

def Mapping.insert (m : Mapping K M) (lookupIndex : Int) (insertMapIndex : Nat) :
    Option (Mapping K M) := do
  let table ← put m.table (-(lookupIndex + 1)).toNat insertMapIndex m.tableElementShift
  some { m with table := table }

/-- All slots are empty. -/
def Mapping.allocTable (m : Mapping K M) : Mapping K M :=
  { m with
    table := List.replicate (1 <<< m.tableLengthShift) (emptyMarker m.tableElementShift) }

/-- `while (capacity >= (1 << tableLengthShift)) tableLengthShift += 1;`. The shift is at most
30, so that as many rounds are enough. -/
def initLengthShift (capacity : Nat) : Nat → Nat → Option Nat
  | 0, _ => none
  | rounds + 1, tableLengthShift => do
    let length ← intShift tableLengthShift
    if capacity ≥ length then initLengthShift capacity rounds (tableLengthShift + 1)
    else some tableLengthShift

/-- `while ((8 << tableElementShift) < tableLengthShift) tableElementShift += 1;`. -/
def initElementShift (tableLengthShift : Nat) : Nat → Nat → Option Nat
  | 0, _ => none
  | rounds + 1, tableElementShift =>
    if 8 <<< tableElementShift < tableLengthShift then
      initElementShift tableLengthShift rounds (tableElementShift + 1)
    else some tableElementShift

def Mapping.initTable (m : Mapping K M) (capacity : Nat) : Option (Mapping K M) := do
  let tableLengthShift ← initLengthShift capacity 30 2
  let tableElementShift ← initElementShift tableLengthShift 3 1
  -- Keep it only 50% full
  some { m with
    tableLengthShift := tableLengthShift + 1
    tableElementShift := tableElementShift }.allocTable

def Mapping.growTable (m : Mapping K M) : Mapping K M :=
  { m with
    tableElementShift :=
      if 8 <<< m.tableElementShift < m.tableLengthShift then m.tableElementShift + 1
      else m.tableElementShift
    tableLengthShift := m.tableLengthShift + 1 }.allocTable

/-! ## The fields -/

/-- The loop of `mappingGrow`, from field `i` on. -/
def Mapping.rebuild (hash : K → Word) (m : Mapping K M) :
    Nat → List (MapField K) → Option (Mapping K M)
  | _, [] => some m
  | i, field :: fields => do
    let m ← m.insert (← m.lookupDistinct (hash field.key)) i
    m.rebuild hash (i + 1) fields

def Mapping.mappingGrow (hash : K → Word) (m : Mapping K M) : Option (Mapping K M) :=
  m.growTable.rebuild hash 0 m.fields

def Mapping.mappingPush (m : Mapping K M) (key : K) (value : TaggedPtr) (lookupIndex : Int) :
    Option (Mapping K M) := do
  let len := m.fields.length
  if len < m.capacity then
    let m' ← m.insert lookupIndex len
    some { m' with fields := m.fields ++ [⟨key, value⟩] }
  else none

/-- `ARRAY_LENGTH_MAX`. -/
def arrayLengthMax : Nat := 9223372036854775807 / 8

/-- The capacity after `_bal_array_grow`; `none` when it panics. -/
def arrayGrow (oldCapacity minCapacity : Nat) : Option Nat :=
  if oldCapacity = 0 then
    some (if minCapacity > 4 then minCapacity else 4)
  else do
    -- increase capacity by a factor of 1.5
    let extraCapacity := oldCapacity >>> 1
    let newCapacity ←
      if oldCapacity ≤ arrayLengthMax - extraCapacity then some (oldCapacity + extraCapacity)
      else if arrayLengthMax = oldCapacity then none
      else some arrayLengthMax
    some (if newCapacity < minCapacity then minCapacity else newCapacity)

/-- The beginning of `mappingGrowPush`: grow the array of fields if it is full. -/
def Mapping.growArray (m : Mapping K M) : Option (Mapping K M) :=
  if m.fields.length ≥ m.capacity then do
    let capacity ← arrayGrow m.capacity 0
    some { m with capacity := capacity }
  else some m

def Mapping.mappingGrowPush (hash : K → Word) (m : Mapping K M) (key : K) (value : TaggedPtr)
    (lookupIndex : Int) : Option (Mapping K M) := do
  let m ← m.growArray
  -- this may insert something that is equal to the empty marker, but then the table is
  -- built again
  let m ← m.mappingPush key value lookupIndex
  let half ← intShift (m.tableLengthShift - 1)
  if m.fields.length ≥ half then m.mappingGrow hash else some m

/-! ## The operations -/

def mappingConstruct (desc : MappingDesc M) (capacity : Nat) : Option (Mapping K M) :=
  Mapping.initTable ⟨desc, [], capacity, [], 0, 0⟩ capacity

def Mapping.get (eq : K → K → Bool) (hash : K → Word) (m : Mapping K M) (key : K) :
    Option TaggedPtr := do
  let i ← m.lookup eq key (hash key)
  if i < 0 then
    some taggedNil
  else
    let field ← m.fields[i.toNat]?
    some field.value

def Mapping.initMember (hash : K → Word) (m : Mapping K M) (key : K) (value : TaggedPtr) :
    Option (Mapping K M) := do
  m.mappingPush key value (← m.lookupDistinct (hash key))

/-- The code is an internal error when the mapping was given as exact. -/
def storePanicCode (isExact : Bool) (code : PanicCode) : PanicCode :=
  if isExact then .internalError else code

/-- `fArray.members[i].value = value`. -/
def Mapping.setValue (m : Mapping K M) (i : Nat) (value : TaggedPtr) : Option (Mapping K M) := do
  let field ← m.fields[i]?
  some { m with fields := m.fields.set i { field with value := value } }

/-- The panic code, `none` for `0`, and the mapping afterwards. -/
def Mapping.set (eq : K → K → Bool) (hash : K → Word)
    (memberTypeContainsTagged : M → TaggedPtr → Bool) (isExact : Bool) (m : Mapping K M) (key : K)
    (value : TaggedPtr) : Option (Option PanicCode × Mapping K M) := do
  let i ← m.lookup eq key (hash key)
  if i ≥ 0 then
    let memberType := (m.desc.fieldTypes[i.toNat]?).getD m.desc.restType
    if !memberTypeContainsTagged memberType value then
      some (some (storePanicCode isExact .mappingStore), m)
    else
      let m ← m.setValue i.toNat value
      some (none, m)
  -- if the field does not exist yet, then it can be allowed only by the rest type
  else if !memberTypeContainsTagged m.desc.restType value then
    some (some (storePanicCode isExact .mappingStore), m)
  else
    let m ← m.mappingGrowPush hash key value i
    some (none, m)

def Mapping.indexedGet (m : Mapping K M) (i : Nat) : Option TaggedPtr :=
  m.fields[i]?.map (·.value)

/-- `fieldTypes[i]` is read without looking at `nFields`: `none` when there is none. -/
def Mapping.indexedSet (memberTypeContainsTagged : M → TaggedPtr → Bool) (isExact : Bool)
    (m : Mapping K M) (i : Nat) (value : TaggedPtr) : Option (Option PanicCode × Mapping K M) := do
  let memberType ← m.desc.fieldTypes[i]?
  if !memberTypeContainsTagged memberType value then
    some (some (storePanicCode isExact .mappingStore), m)
  else
    let m ← m.setValue i value
    some (none, m)

/-- The value or a panic code, and the mapping afterwards. -/
def Mapping.fillingGet (eq : K → K → Bool) (hash : K → Word) (filler : Option TaggedPtr)
    (m : Mapping K M) (key : K) : Option (Except PanicCode TaggedPtr × Mapping K M) := do
  let i ← m.lookup eq key (hash key)
  if i ≥ 0 then
    let field ← m.fields[i.toNat]?
    some (.ok field.value, m)
  else
    match filler with
    | none => some (.error .noFiller, m)
    | some value =>
      let m ← m.mappingGrowPush hash key value i
      some (.ok value, m)

end Nballerina.Runtime
