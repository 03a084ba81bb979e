import Nballerina.Types.Env
import Nballerina.Types.Memo

/-!
# Emptiness of a semtype

`isEmpty` and what it calls: the emptiness of cells, lists, mappings, functions,
tables, objects, error and xml types (`core.bal`, `cell.bal`, `list.bal`,
`mapping.bal`, `function.bal`, `table.bal`, `object.bal`, `error.bal`, `xml.bal`).

All recursion goes through two kinds of question. The emptiness of a `Bdd` of lists,
mappings, functions or errors is memoised (`BddIsEmpty`); the emptiness of a semtype
is a plain call. Each function here returns the `Prog` of the questions it asks, and
`emptiness env` ties them together.

Mirroring notes:
- A `Conjunction?` is the list of its atoms.
- The recursive atoms are read from the `Env` the query starts in; a query interns
  cell atoms and nothing else.
- `LIST_ATOMIC_INNER` and `MAPPING_ATOMIC_INNER` are written out where they are used.
- A loop that returns from its function is a recursion over what is left to do, with
  `return false` where it falls through.
-/

namespace Nballerina.Types

open Nballerina.Lib

/-- The tables of a `Context`. -/
inductive MemoTable where
  | listMemo
  | mappingMemo
  | functionMemo
deriving DecidableEq, Repr

/-- A `BddIsEmptyPredicate` with the `Bdd` it is called with. -/
inductive BddIsEmpty where
  | list (b : Bdd)
  | mapping (b : Bdd)
  | error (b : Bdd)
  | function (b : Bdd)

/-- The table and the key that `memoSubtypeIsEmpty` is called with. -/
def BddIsEmpty.key : BddIsEmpty → MemoTable × Bdd
  | .list b => (.listMemo, b)
  | .mapping b => (.mappingMemo, b)
  | .error b => (.mappingMemo, b)
  | .function b => (.functionMemo, b)

/-- What the functions below return. -/
abbrev EmptyM (α : Type) := Prog CellAtomicType TypeAtom BddIsEmpty SemType α

/-- `isEmpty(cx, t)`, as a question. -/
def isEmpty (t : SemType) : EmptyM Bool := .call t .pure

/-- `memoSubtypeIsEmpty(cx, table, predicate, b)`, as a question. -/
def askBddIsEmpty (p : BddIsEmpty) : EmptyM Bool := .memo p .pure

/-- A value that the source gets from a cast or an index. -/
def cast {α : Type} (a : Option α) : EmptyM α := Prog.ofOption a

/-! ## Conjunctions -/

def bddEvery (predicate : List Atom → List Atom → EmptyM Bool) :
    Bdd → List Atom → List Atom → EmptyM Bool
  | .leaf b, pos, neg => if b then predicate pos neg else pure true
  | .node atom left middle right, pos, neg => do
    if ← bddEvery predicate left (atom :: pos) neg then
      if ← bddEvery predicate middle pos neg then
        bddEvery predicate right pos (atom :: neg)
      else return false
    else return false

/-- `andIfPositive`: the numbers of distinct error types are left out. -/
def andIfPositive : Atom → List Atom → List Atom
  | .recAtom i, next => if i < 0 then next else .recAtom i :: next
  | .typeAtom i t, next => .typeAtom i t :: next

def bddEveryPositive (predicate : List Atom → List Atom → EmptyM Bool) :
    Bdd → List Atom → List Atom → EmptyM Bool
  | .leaf b, pos, neg => if b then predicate pos neg else pure true
  | .node atom left middle right, pos, neg => do
    if ← bddEveryPositive predicate left (andIfPositive atom pos) neg then
      if ← bddEveryPositive predicate middle pos neg then
        bddEveryPositive predicate right pos (andIfPositive atom neg)
      else return false
    else return false

def bddPosMaybeEmpty : Bdd → Bool
  | .leaf b => b
  | .node _ _ middle right => bddPosMaybeEmpty middle || bddPosMaybeEmpty right

section Emptiness

variable [BddIdentity]

/-- The number of an xml or error atom; `<int>atom`. -/
def atomInt : Atom → Option Int
  | .recAtom i => some i
  | .typeAtom _ _ => none

/-! ## Cells -/

def isSubtypeSimple (t1 : SemType) (t2 : BasicTypeBitSet) : Bool :=
  let bits := match t1 with
    | .bits b => b
    | .complex c => c.all ||| c.some
  bits &&& ~~~t2 == 0

/-- `bddCellAtomicType(bdd, CELL_ATOMIC_VAL)`; the outer `none` is a panic. -/
def bddCellAtomicType : Bdd → Option (Option CellAtomicType)
  | .leaf b => some (if b then some ⟨.bits VAL, .limited⟩ else none)
  | .node atom left middle right =>
    if left = .leaf true ∧ middle = .leaf false ∧ right = .leaf false then
      (cellAtomType atom).map some
    else some none

/-- `<CellAtomicType>cellAtomicType(t)`. -/
def cellAtomicType : SemType → Option CellAtomicType
  | .bits b => if b = CELL then some ⟨.bits VAL, .limited⟩ else none
  | .complex c =>
    if isSubtypeSimple (.complex c) CELL then do
      let data ← getComplexSubtypeData c BT_CELL
      let bdd ← data.toBdd
      (← bddCellAtomicType bdd)
    else none

def cellInner (t : SemType) : Option SemType := (cellAtomicType t).map (·.ty)

def cellInnerVal (t : SemType) : Option SemType := do
  diff ops (← cellInner t) (.bits UNDEF)

/-- `cellContaining`, which interns the cell. -/
def cellContainingM (ty : SemType) (mutability : CellMutability) : EmptyM SemType :=
  .intern ⟨ty, mutability⟩ fun atom => .pure (atomSemType BT_CELL atom.toAtom)

def cellContainingInnerVal (t : SemType) : EmptyM SemType := do
  let cat ← cast (cellAtomicType t)
  let ty ← cast (diff ops cat.ty (.bits UNDEF))
  cellContainingM ty cat.mutability

/-- `int:min` on the numbers of the source. -/
def CellMutability.min (m1 m2 : CellMutability) : CellMutability :=
  if m1.toNat ≤ m2.toNat then m1 else m2

def intersectCellAtomicType (c1 c2 : CellAtomicType) : Option CellAtomicType := do
  let ty ← intersect ops c1.ty c2.ty
  return ⟨ty, c1.mutability.min c2.mutability⟩

def intersectMemberSemTypes (t1 t2 : SemType) : EmptyM SemType := do
  let c1 ← cast (cellAtomicType t1)
  let c2 ← cast (cellAtomicType t2)
  let c ← cast (intersectCellAtomicType c1 c2)
  cellContainingM c.ty (if c.ty = .bits UNDEF then .none else c.mutability)

/-- `cellNegListUnion`. -/
def cellNegListUnion : List Atom → SemType → Option SemType
  | [], negUnion => some negUnion
  | atom :: neg, negUnion => do
    let c ← cellAtomType atom
    let negUnion ← union ops negUnion c.ty
    cellNegListUnion neg negUnion

/-- `cellNegListUnlimitedUnion`. -/
def cellNegListUnlimitedUnion : List Atom → SemType → Option SemType
  | [], negUnion => some negUnion
  | atom :: neg, negUnion => do
    let c ← cellAtomType atom
    if c.mutability = .unlimited then
      let negUnion ← union ops negUnion c.ty
      cellNegListUnlimitedUnion neg negUnion
    else cellNegListUnlimitedUnion neg negUnion

def isSubtype (t1 t2 : SemType) : EmptyM Bool := do
  isEmpty (← cast (diff ops t1 t2))

def isSameType (t1 t2 : SemType) : EmptyM Bool := do
  if t1 = t2 then return true
  else if ← isSubtype t1 t2 then isSubtype t2 t1
  else return false

/-- The end of the two functions that look at a union of negatives. -/
def outsideInhabited (pos negUnion : SemType) : EmptyM Bool := do
  if negUnion = NEVER then return true
  else return !(← isEmpty (← cast (diff ops pos negUnion)))

def cellMutNoneInhabited (pos : SemType) (negList : List Atom) : EmptyM Bool := do
  outsideInhabited pos (← cast (cellNegListUnion negList NEVER))

def cellMutLimitedInhabited (pos : SemType) : List Atom → EmptyM Bool
  | [] => pure true
  | atom :: negList => do
    let c ← cast (cellAtomType atom)
    if c.mutability = .limited ∨ c.mutability = .unlimited then
      if ← isEmpty (← cast (diff ops pos c.ty)) then return false
      else cellMutLimitedInhabited pos negList
    else cellMutLimitedInhabited pos negList

/-- The loop of `cellMutUnlimitedInhabited`: whether some negative is `CELL_MUT_LIMITED`
and contains all values. -/
def someLimitedTop : List Atom → EmptyM Bool
  | [] => pure false
  | atom :: negList => do
    let c ← cast (cellAtomType atom)
    if c.mutability = .limited then
      if ← isSameType (.bits VAL) c.ty then return true
      else someLimitedTop negList
    else someLimitedTop negList

def cellMutUnlimitedInhabited (pos : SemType) (negList : List Atom) : EmptyM Bool := do
  if ← someLimitedTop negList then return false
  else outsideInhabited pos (← cast (cellNegListUnlimitedUnion negList NEVER))

def cellInhabited (posCell : CellAtomicType) (negList : List Atom) : EmptyM Bool := do
  if ← isEmpty posCell.ty then return false
  else match posCell.mutability with
    | .none => cellMutNoneInhabited posCell.ty negList
    | .limited => cellMutLimitedInhabited posCell.ty negList
    | .unlimited => cellMutUnlimitedInhabited posCell.ty negList

/-- The intersection of the positive atoms. -/
def combineCells : List Atom → CellAtomicType → Option CellAtomicType
  | [], combined => some combined
  | atom :: posList, combined => do
    let c ← cellAtomType atom
    combineCells posList (← intersectCellAtomicType combined c)

def cellFormulaIsEmpty (posList negList : List Atom) : EmptyM Bool := do
  let combined ← match posList with
    | [] => pure ⟨.bits VAL, .unlimited⟩
    | atom :: posList => cast (do combineCells posList (← cellAtomType atom))
  return !(← cellInhabited combined negList)

/-! ## Lists -/

def fixedArrayGet (members : FixedLengthArray) (index : Int) : Option SemType :=
  let memberLen : Int := members.initial.length
  let i := min index (memberLen - 1)
  if 0 ≤ i then members.initial[i.toNat]? else none

def listMemberAt (fixedArray : FixedLengthArray) (rest : SemType) (index : Int) :
    Option SemType :=
  if index < fixedArray.fixedLength then fixedArrayGet fixedArray index else some rest

def listMemberAtInnerVal (fixedArray : FixedLengthArray) (rest : SemType) (index : Int) :
    Option SemType := do
  cellInnerVal (← listMemberAt fixedArray rest index)

def listLengthsDisjoint (m1 : FixedLengthArray) (rest1 : SemType) (m2 : FixedLengthArray)
    (rest2 : SemType) : Option Bool := do
  if m1.fixedLength < m2.fixedLength then return decide ((← cellInnerVal rest1) = NEVER)
  else if m2.fixedLength < m1.fixedLength then
    return decide ((← cellInnerVal rest2) = NEVER)
  else return false

/-- The members of an intersection, from index `i` on. -/
def intersectMembers (m1 : FixedLengthArray) (rest1 : SemType) (m2 : FixedLengthArray)
    (rest2 : SemType) : List Nat → EmptyM (List SemType)
  | [] => pure []
  | i :: is => do
    let t1 ← cast (listMemberAt m1 rest1 i)
    let t2 ← cast (listMemberAt m2 rest2 i)
    let t ← intersectMemberSemTypes t1 t2
    return t :: (← intersectMembers m1 rest1 m2 rest2 is)

def listIntersectWith (m1 : FixedLengthArray) (rest1 : SemType) (m2 : FixedLengthArray)
    (rest2 : SemType) : EmptyM (Option ListAtomicType) := do
  if ← cast (listLengthsDisjoint m1 rest1 m2 rest2) then return none
  else
    let initial ← intersectMembers m1 rest1 m2 rest2
      (List.range (max m1.initial.length m2.initial.length))
    let rest ← intersectMemberSemTypes rest1 rest2
    return some ⟨⟨initial, max m1.fixedLength m2.fixedLength⟩, rest⟩

/-- The loop over the positive atoms; `none` is `return true`. -/
def combineLists (env : Env) : List Atom → ListAtomicType → EmptyM (Option ListAtomicType)
  | [], lt => pure (some lt)
  | d :: p, lt => do
    let next ← cast (env.listAtomType d)
    match ← listIntersectWith lt.members lt.rest next.members next.rest with
    | none => return none
    | some lt => combineLists env p lt

/-- Whether one of the types is empty. -/
def anyEmpty : List SemType → EmptyM Bool
  | [] => pure false
  | t :: types => do
    if ← isEmpty t then return true else anyEmpty types

def fixedArrayAnyEmpty (array : FixedLengthArray) : EmptyM Bool := anyEmpty array.initial

/-- `from ..< to` -/
def intRange (lo hi : Int) : List Int := (List.range (hi - lo).toNat).map fun (i : Nat) => lo + i

/-- The first loop of `listSamples`: `maxInitialLength` and `fixedLengths`. -/
def sampleLengths (env : Env) : List Atom → Nat × List Int → Option (Nat × List Int)
  | [], acc => some acc
  | atom :: tem, (maxInitialLength, fixedLengths) => do
    let lt ← env.listAtomType atom
    let m := lt.members
    let maxInitialLength := max maxInitialLength m.initial.length
    sampleLengths env tem (maxInitialLength,
      if m.fixedLength > maxInitialLength then fixedLengths ++ [m.fixedLength] else fixedLengths)

/-- The loop that appends the sorted lengths to `boundaries`, without duplicates. -/
def addBoundaries : List Int → List Int → List Int
  | [], boundaries => boundaries
  | n :: fixedLengths, boundaries =>
    addBoundaries fixedLengths (match boundaries.getLast? with
      | none => boundaries ++ [n]
      | some last => if n > last then boundaries ++ [n] else boundaries)

/-- The loop that takes `nNeg` samples from each partition. -/
def sampleIndices (nNeg : Nat) : List Int → Int → List Int → List Int × Int
  | [], lastBoundary, indices => (indices, lastBoundary)
  | b :: boundaries, lastBoundary, indices =>
    let nSamples := min (b - lastBoundary) nNeg
    sampleIndices nNeg boundaries b (indices ++ intRange (b - nSamples) b)

def listSamples (env : Env) (members : FixedLengthArray) (neg : List Atom) :
    Option (List Int) := do
  let (maxInitialLength, fixedLengths) ←
    sampleLengths env neg (members.initial.length, [members.fixedLength])
  let fixedLengths := fixedLengths.mergeSort fun a b => decide (a ≤ b)
  let boundaries := addBoundaries fixedLengths
    ((List.range maxInitialLength).map fun (i : Nat) => (i : Int) + 1)
  let nNeg := if neg.length = 0 then 1 else neg.length
  let (indices, lastBoundary) := sampleIndices nNeg boundaries 0 []
  return indices ++ (((List.range nNeg).takeWhile fun (i : Nat) =>
    decide (¬ lastBoundary > intMaxValue - i)).map fun (i : Nat) => lastBoundary + i)

/-- The loop of `listSampleTypes`, at sample number `i`. -/
def listSampleTypesLoop (members : FixedLengthArray) (rest : SemType) :
    List Int → Nat → List SemType → Nat → EmptyM (List SemType × Nat)
  | [], _, memberTypes, nRequired => pure (memberTypes, nRequired)
  | index :: indices, i, memberTypes, nRequired => do
    let t ← cellContainingInnerVal (← cast (listMemberAt members rest index))
    if ← isEmpty t then return (memberTypes, nRequired)
    else
      let nRequired := if index < members.fixedLength then i + 1 else nRequired
      listSampleTypesLoop members rest indices (i + 1) (memberTypes ++ [t]) nRequired

def listSampleTypes (members : FixedLengthArray) (rest : SemType) (indices : List Int) :
    EmptyM (List SemType × Nat) :=
  listSampleTypesLoop members rest indices 0 [] 0

section Inhabited

-- `next` is `listInhabited` for the negatives that are left
variable (next : List SemType → Nat → EmptyM Bool)

/-- The loop over shorter lists. -/
def listInhabitedShorter (indices : List Int) (memberTypes : List SemType) (nRequired : Nat)
    (negLen : Int) : List Nat → EmptyM Bool
  | [] => pure false
  | i :: is => do
    if (← cast indices[i]?) ≥ negLen then return false
    else if ← next (memberTypes.take i) nRequired then return true
    else listInhabitedShorter indices memberTypes nRequired negLen is

/-- The loop over the member that is not in the negative. -/
def listInhabitedMember (nt : ListAtomicType) (indices : List Int) (memberTypes : List SemType)
    (nRequired : Nat) : List Nat → EmptyM Bool
  | [] => pure false
  | i :: is => do
    let negType ← cast (listMemberAt nt.members nt.rest (← cast indices[i]?))
    let d ← cast (diff ops (← cast memberTypes[i]?) negType)
    if ← isEmpty d then listInhabitedMember nt indices memberTypes nRequired is
    else if ← next (memberTypes.set i d) (max nRequired (i + 1)) then return true
    else listInhabitedMember nt indices memberTypes nRequired is

end Inhabited

def listInhabited (env : Env) (indices : List Int) : List Atom → List SemType → Nat → EmptyM Bool
  | [], _, _ => pure true
  | atom :: neg, memberTypes, nRequired => do
    let nt ← cast (env.listAtomType atom)
    let next := listInhabited env indices neg
    -- the negative is always shorter than the minimum required by the positive
    let skip ← cast (if nRequired > 0 then do
        let last ← indices[nRequired - 1]?
        return decide ((← listMemberAtInnerVal nt.members nt.rest last) = NEVER)
      else some false)
    if skip then next memberTypes nRequired
    else
      let negLen := nt.members.fixedLength
      let len := memberTypes.length
      let short ← cast (if negLen > 0 ∧ len < indices.length then do
          return decide ((← indices[len]?) < negLen)
        else some false)
      if short then next memberTypes nRequired
      else
        let shorter ← if negLen > 0 then
            listInhabitedShorter next indices memberTypes nRequired negLen
              (List.range' nRequired (len - nRequired))
          else pure false
        if shorter then return true
        else listInhabitedMember next nt indices memberTypes nRequired (List.range len)

def listFormulaIsEmpty (env : Env) (pos neg : List Atom) : EmptyM Bool := do
  let combined ← match pos with
    | [] => pure (some ⟨⟨[], 0⟩, CELL_SEMTYPE_INNER⟩)
    | atom :: p => do
      match ← combineLists env p (← cast (env.listAtomType atom)) with
      | none => pure none
      | some lt => if ← fixedArrayAnyEmpty lt.members then pure none else pure (some lt)
  match combined with
  | none => return true
  | some lt =>
    let indices ← cast (listSamples env lt.members neg)
    let (memberTypes, nRequired) ← listSampleTypes lt.members lt.rest indices
    return !(← listInhabited env indices neg memberTypes nRequired)

/-! ## Mappings -/

/-- A `CellFieldPair`, with the index in the first mapping. -/
structure CellFieldPair where
  name : String
  type1 : SemType
  type2 : SemType
  index1 : Option Nat

/-- What a `MappingPairing` yields from the fields that are left, the first of which is
field `i1` of the first mapping. -/
def mappingPairs (rest1 rest2 : SemType) : Nat → List (String × SemType) →
    List (String × SemType) → List CellFieldPair
  | _, [], [] => []
  | i1, [], (name2, t2) :: fs2 => ⟨name2, rest1, t2, none⟩ :: mappingPairs rest1 rest2 i1 [] fs2
  | i1, (name1, t1) :: fs1, [] =>
    ⟨name1, t1, rest2, some i1⟩ :: mappingPairs rest1 rest2 (i1 + 1) fs1 []
  | i1, (name1, t1) :: fs1, (name2, t2) :: fs2 =>
    if name1 < name2 then
      ⟨name1, t1, rest2, some i1⟩ :: mappingPairs rest1 rest2 (i1 + 1) fs1 ((name2, t2) :: fs2)
    else if name2 < name1 then
      ⟨name2, rest1, t2, none⟩ :: mappingPairs rest1 rest2 i1 ((name1, t1) :: fs1) fs2
    else ⟨name1, t1, t2, some i1⟩ :: mappingPairs rest1 rest2 (i1 + 1) fs1 fs2
termination_by _ fs1 fs2 => fs1.length + fs2.length

/-- `new MappingPairing(m1, m2)`. -/
def mappingPairing (m1 m2 : MappingAtomicType) : List CellFieldPair :=
  mappingPairs m1.rest m2.rest 0 (m1.names.zip m1.types) (m2.names.zip m2.types)

/-- The loop of `intersectMapping`; `none` is `return ()`. -/
def intersectFields : List CellFieldPair → EmptyM (Option (List String × List SemType))
  | [] => pure (some ([], []))
  | p :: pairs => do
    let t ← intersectMemberSemTypes p.type1 p.type2
    if (← cast (cellInner p.type1)) = NEVER then return none
    else match ← intersectFields pairs with
      | none => return none
      | some (names, types) => return some (p.name :: names, t :: types)

def intersectMapping (m1 m2 : MappingAtomicType) : EmptyM (Option MappingAtomicType) := do
  match ← intersectFields (mappingPairing m1 m2) with
  | none => return none
  | some (names, types) =>
    let rest ← intersectMemberSemTypes m1.rest m2.rest
    return some ⟨names, types, rest⟩

/-- The loop over the positive atoms; `none` is `return true`. -/
def combineMappings (env : Env) : List Atom → MappingAtomicType →
    EmptyM (Option MappingAtomicType)
  | [], combined => pure (some combined)
  | atom :: p, combined => do
    match ← intersectMapping combined (← cast (env.mappingAtomType atom)) with
    | none => return none
    | some m => combineMappings env p m

/-- The loop of `insertField`: the place of `name`, from the end. -/
def insertIndex (names : List String) (name : String) : Nat → Nat
  | 0 => 0
  | i + 1 => if names[i]?.any (· < name) then i + 1 else insertIndex names name i

def insertField (m : MappingAtomicType) (name : String) (t : SemType) : MappingAtomicType :=
  let i := insertIndex m.names name m.names.length
  ⟨m.names.insertIdx i name, m.types.insertIdx i t, m.rest⟩

/-- `<CellSemType>t`: the record type allows any `some`, but no `all` and one entry. -/
def toCellSemType : SemType → Option SemType
  | .bits _ => none
  | .complex c => if c.all = 0 ∧ c.subtypeDataList.length = 1 then some (.complex c) else none

/-- The loop over the fields of the pairing; `next` is `mappingInhabited` for the
negatives that are left. -/
def mappingInhabitedField (next : MappingAtomicType → EmptyM Bool) (pos : MappingAtomicType) :
    List CellFieldPair → EmptyM Bool
  | [] => pure false
  | p :: pairs => do
    let d ← cast (do toCellSemType (← diff ops p.type1 p.type2))
    if ← isEmpty d then mappingInhabitedField next pos pairs
    else
      let mt := match p.index1 with
        | none => insertField pos p.name d
        | some i => ⟨pos.names, pos.types.set i d, pos.rest⟩
      if ← next mt then return true
      else mappingInhabitedField next pos pairs

def mappingInhabited (env : Env) : List Atom → MappingAtomicType → EmptyM Bool
  | [], _ => pure true
  | atom :: negList, pos => do
    let neg ← cast (env.mappingAtomType atom)
    if ← isEmpty (← cast (diff ops pos.rest neg.rest)) then
      mappingInhabitedField (mappingInhabited env negList) pos (mappingPairing pos neg)
    else mappingInhabited env negList pos

def mappingFormulaIsEmpty (env : Env) (posList negList : List Atom) : EmptyM Bool := do
  let combined ← match posList with
    | [] => pure (some ⟨[], [], CELL_SEMTYPE_INNER⟩)
    | atom :: p => do
      match ← combineMappings env p (← cast (env.mappingAtomType atom)) with
      | none => pure none
      | some m => if ← anyEmpty m.types then pure none else pure (some m)
  match combined with
  | none => return true
  | some m => return !(← mappingInhabited env negList m)

/-! ## Functions -/

def complement (t : SemType) : Option SemType := diff ops (.bits VAL) t

def functionUnionParams (env : Env) : List Atom → Option SemType
  | [] => some NEVER
  | atom :: pos => do
    union ops (← env.functionAtomType atom).args (← functionUnionParams env pos)

def functionIntersectRet (env : Env) : List Atom → Option SemType
  | [] => some (.bits VAL)
  | atom :: pos => do
    intersect ops (← env.functionAtomType atom).ret (← functionIntersectRet env pos)

def functionPhi (env : Env) : List Atom → SemType → SemType → EmptyM Bool
  | [], t0, t1 => do
    if ← isEmpty t0 then return true else isEmpty t1
  | atom :: pos, t0, t1 => do
    let s ← cast (env.functionAtomType atom)
    let either ← if ← isSubtype t0 s.args then pure true
      else isSubtype (← cast (functionIntersectRet env pos)) (← cast (complement t1))
    if either then
      if ← functionPhi env pos t0 (← cast (intersect ops t1 s.ret)) then
        functionPhi env pos (← cast (diff ops t0 s.args)) t1
      else return false
    else return false

def functionPathIsEmpty (env : Env) (params : SemType) (pos : List Atom) :
    List Atom → EmptyM Bool
  | [] => pure false
  | atom :: neg => do
    let t ← cast (env.functionAtomType atom)
    let found ← if ← isSubtype t.args params then
        functionPhi env pos t.args (← cast (complement t.ret))
      else pure false
    if found then return true else functionPathIsEmpty env params pos neg

def functionFormulaIsEmpty (env : Env) (pos neg : List Atom) : EmptyM Bool := do
  functionPathIsEmpty env (← cast (functionUnionParams env pos)) pos neg

/-! ## Xml -/

def xmlCollectAllPrimitives : List Atom → BitVec 64 → Option (BitVec 64)
  | [], bits => some bits
  | atom :: con, bits => do
    xmlCollectAllPrimitives con (bits &&& BitVec.ofInt 64 (← atomInt atom))

def xmlHasTotalNegative (allBits : BitVec 64) : List Atom → Option Bool
  | [] => some false
  | atom :: con => do
    if allBits &&& ~~~(BitVec.ofInt 64 (← atomInt atom)) = 0 then return true
    else xmlHasTotalNegative allBits con

def xmlFormulaIsEmpty (pos neg : List Atom) : EmptyM Bool := do
  let allPosBits ← cast (match pos with
    | [] => some 0
    | pos => xmlCollectAllPrimitives pos XML_PRIMITIVE_ALL_MASK)
  let allPosBits := allPosBits &&& XML_PRIMITIVE_ALL_MASK
  if allPosBits = 0 then return true else cast (xmlHasTotalNegative allPosBits neg)

def xmlSubtypeIsEmpty : ProperSubtypeData → EmptyM Bool
  | .xml primitives sequence =>
    if primitives ≠ 0 then pure false else bddEvery xmlFormulaIsEmpty sequence [] []
  | _ => .panic

/-! ## The table and the system -/

/-- `<Bdd>t` -/
def properToBdd : ProperSubtypeData → Option Bdd
  | .bddNode a l m r => some (.node a l m r)
  | _ => none

/-- The top of a basic type is not the top of the `Bdd`s that represent it. -/
def ensurePositive (top b : Bdd) : Bdd := if bddPosMaybeEmpty b then bddIntersect b top else b

/-- The column `isEmpty` of `ops`. -/
def subtypeIsEmpty (code : BasicTypeCode) (data : ProperSubtypeData) : EmptyM Bool :=
  if code = BT_BOOLEAN ∨ code = BT_INT ∨ code = BT_FLOAT ∨ code = BT_DECIMAL ∨
      code = BT_STRING then pure false
  else if code = BT_XML then xmlSubtypeIsEmpty data
  else do
    let b ← cast (properToBdd data)
    if code = BT_ERROR then askBddIsEmpty (.error (ensurePositive BDD_SUBTYPE_RO b))
    else if code = BT_FUNCTION then askBddIsEmpty (.function b)
    else if code = BT_LIST then askBddIsEmpty (.list b)
    else if code = BT_MAPPING ∨ code = BT_OBJECT then askBddIsEmpty (.mapping b)
    else if code = BT_TABLE then askBddIsEmpty (.list (ensurePositive LIST_SUBTYPE_MAPPING b))
    else if code = BT_CELL then bddEvery cellFormulaIsEmpty b [] []
    else .panic

/-- The loop of `isEmpty`. -/
def isEmptyLoop : List (BasicTypeCode × ProperSubtypeData) → EmptyM Bool
  | [] => pure true
  | (code, data) :: subtypeList => do
    if ← subtypeIsEmpty code data then isEmptyLoop subtypeList else return false

/-- The body of `isEmpty`. -/
def isEmptyBody : SemType → EmptyM Bool
  | .bits b => pure (b == 0)
  | .complex c =>
    if c.all ≠ 0 then pure false
    else do isEmptyLoop (← cast (unpackComplexSemType c))

/-- `listBddIsEmpty`, `mappingBddIsEmpty`, `errorBddIsEmpty`, `functionBddIsEmpty`. -/
def bddIsEmpty (env : Env) : BddIsEmpty → EmptyM Bool
  | .list b => bddEvery (listFormulaIsEmpty env) b [] []
  | .mapping b => bddEvery (mappingFormulaIsEmpty env) b [] []
  | .error b => bddEveryPositive (mappingFormulaIsEmpty env) b [] []
  | .function b => bddEvery (functionFormulaIsEmpty env) b [] []

/-- The emptiness predicates of an `Env`. -/
def emptiness (env : Env) :
    System Env CellAtomicType TypeAtom BddIsEmpty SemType (MemoTable × Bdd) where
  intern c env := env.cellAtom c
  key := BddIsEmpty.key
  predicate := bddIsEmpty env
  body := isEmptyBody

end Emptiness

end Nballerina.Types
