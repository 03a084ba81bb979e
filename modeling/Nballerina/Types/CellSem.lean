import Nballerina.Types.BddSem
import Nballerina.Types.Emptiness
import Mathlib.Logic.Equiv.Basic

/-!
# Cell types as sets

The types of the members of lists and mappings are cell types: `Bdd`s of cell atoms. A
`CellTable` says which cells have an atom, under which index, and which members a cell has;
a cell type then denotes the set of members for which its `Bdd` holds (`CellTable.den`).
The difference of cell types is exact for it (`den_diff`), as long as the types are positive
(every one here is): the complement of a cell is not a cell type.
-/

namespace Nballerina.Types

open Nballerina.Lib

/-- A right answer of `isEmpty`. -/
def EmptyRight {V : Type} (den : SemType → Set V) (t : SemType) (b : Bool) : Prop :=
  b = true ↔ den t = ∅

/-! ## The difference of two cell types -/

theorem lowestBasicTypeCode_basicType : ∀ code : BasicTypeCode,
    lowestBasicTypeCode (0 ||| basicType code) = some code := by
  decide

theorem unpack_single (all : BasicTypeBitSet) (code : BasicTypeCode) (d : ProperSubtypeData) :
    unpackComplexSemType (createComplexSemType all [(code, d)]) = some [(code, d)] := by
  show unpackFrom (0 ||| basicType code) [d] = _
  rw [unpackFrom, lowestBasicTypeCode_basicType]
  rfl

theorem includes_self : ∀ code : BasicTypeCode,
    subtypePairs.includes (basicType code) code = true := by
  decide

theorem subtypePairs_single (code : BasicTypeCode) (d1 d2 : ProperSubtypeData) :
    subtypePairs (basicType code) [(code, d1)] [(code, d2)] = [(code, some d1, some d2)] := by
  rw [subtypePairs, if_pos rfl, subtypePairs]
  unfold subtypePairs.emit
  rw [includes_self]
  rfl

theorem diffBits_cell : (0 ||| (0 ||| basicType BT_CELL)) &&& ~~~(0 : BasicTypeBitSet) &&&
    ~~~(0 &&& ~~~(0 ||| (0 ||| basicType BT_CELL))) = basicType BT_CELL ∧
    (0 : BasicTypeBitSet) &&& ~~~(0 ||| (0 ||| basicType BT_CELL)) = 0 ∧
    basicType BT_CELL ≠ 0 := by
  decide

theorem dataBits_basicSubtype : ∀ code : BasicTypeCode, (0 : BasicTypeBitSet) &&& basicType code = 0 ∧
    (0 ||| basicType code) &&& basicType code ≠ 0 ∧
    bitCount ((0 ||| basicType code) &&& (basicType code - 1)) = 0 := by
  decide

theorem subtypeData_basicSubtype (code : BasicTypeCode) (d : ProperSubtypeData) :
    subtypeData (basicSubtype code d) code = some (.proper d) := by
  obtain ⟨hall, hsome, hcount⟩ := dataBits_basicSubtype code
  show getComplexSubtypeData ⟨0, 0 ||| basicType code, [d]⟩ code = _
  unfold getComplexSubtypeData
  dsimp only
  rw [if_neg (not_not.mpr hall), if_neg hsome, hcount]
  rfl

section Cells

variable [BddIdentity]

theorem diff_cell {d1 d2 d : ProperSubtypeData}
    (h : subtypeDiff ops BT_CELL d1 d2 = some (.proper d)) :
    diff ops (basicSubtype BT_CELL d1) (basicSubtype BT_CELL d2) = some (basicSubtype BT_CELL d) := by
  obtain ⟨hsome, hall, hne⟩ := diffBits_cell
  have hpairs : subtypePairIterator (basicSubtype BT_CELL d1) (basicSubtype BT_CELL d2)
      (basicType BT_CELL) = some [(BT_CELL, some d1, some d2)] := by
    show (do
      let u1 ← unpackComplexSemType (createComplexSemType 0 [(BT_CELL, d1)])
      let u2 ← unpackComplexSemType (createComplexSemType 0 [(BT_CELL, d2)])
      return subtypePairs (basicType BT_CELL) u1 u2) = _
    rw [unpack_single, unpack_single]
    exact congrArg some (subtypePairs_single BT_CELL d1 d2)
  have hloop : diffLoop ops [(BT_CELL, some d1, some d2)] (0, []) = some (0, [(BT_CELL, d)]) := by
    have hdata : diffData ops BT_CELL (some d1) (some d2) = some (.proper d) := h
    unfold diffLoop
    rw [hdata]
    rfl
  show diffMerge ops (basicSubtype BT_CELL d1) (basicSubtype BT_CELL d2) 0 (0 ||| basicType BT_CELL)
    0 (0 ||| basicType BT_CELL) = _
  unfold diffMerge
  dsimp only
  rw [hsome, hall, if_neg hne, hpairs]
  show (do
    let result ← diffLoop ops [(BT_CELL, some d1, some d2)] (0, [])
    return finishSemType result) = _
  rw [hloop]
  rfl

/-- The cells that have an atom, each with the index of its atom and the members it has. -/
structure CellTable (V : Type) where
  has : CellAtomicType → Prop
  index : CellAtomicType → Int
  index_inj : ∀ {c c' : CellAtomicType}, has c → has c' → index c = index c' → c = c'
  mem : CellAtomicType → Set V
  /-- the cell of `ATOM_CELL_NEVER` -/
  never : has ⟨NEVER, .limited⟩ ∧ index ⟨NEVER, .limited⟩ = 1
  mem_never : ∀ {c : CellAtomicType}, c.ty = NEVER → mem c = ∅

namespace CellTable

variable {V : Type} (T : CellTable V)

/-- Whether a member belongs to an atom. -/
def val (v : V) : Atom → Prop
  | .typeAtom i _ => ∃ c, T.has c ∧ T.index c = i ∧ v ∈ T.mem c
  | .recAtom _ => False

/-- `a` is the atom of `c`, if `c` has one. -/
def Names (c : CellAtomicType) (a : TypeAtom) : Prop :=
  T.has c → a = ⟨T.index c, c.toAtomicType⟩

/-- The members of a cell type. -/
def den (t : SemType) : Set V :=
  {v | ∃ b, (subtypeData t BT_CELL).bind (·.toBdd) = some b ∧ b.holds (T.val v)}

omit [BddIdentity] in
theorem atomsByIndex (v : V) : AtomsByIndex (T.val v) := by
  intro a b h
  cases a with
  | recAtom i =>
    cases b with
    | recAtom j => exact Iff.rfl
    | typeAtom j t => exact absurd h (by show ¬ ((-1 : Int) = 0); decide)
  | typeAtom i t =>
    cases b with
    | recAtom j => exact absurd h (by show ¬ ((1 : Int) = 0); decide)
    | typeAtom j u =>
      have hij : i = j := by
        have h : i - j = 0 := h
        omega
      subst hij
      exact Iff.rfl

/-- A positive cell type: no member belongs to it without belonging to some atom. -/
def Positive (t : SemType) : Prop := ∃ a l m r, t = basicSubtype BT_CELL (.bddNode a l m r) ∧
  ¬ (Bdd.node a l m r).holds fun _ => False

/-- The type of a cell that has an atom. -/
def Single (t : SemType) : Prop := ∃ c, T.has c ∧
  t = atomSemType BT_CELL (.typeAtom (T.index c) c.toAtomicType)

omit [BddIdentity] in
theorem den_node (a : Atom) (l m r : Bdd) : T.den (basicSubtype BT_CELL (.bddNode a l m r)) =
    {v | (Bdd.node a l m r).holds (T.val v)} := by
  have hdata : (subtypeData (basicSubtype BT_CELL (.bddNode a l m r)) BT_CELL).bind (·.toBdd) =
      some (.node a l m r) := by
    rw [subtypeData_basicSubtype BT_CELL]
    rfl
  ext v
  simp only [den, hdata]
  refine ⟨fun ⟨b, hb, hv⟩ => ?_, fun hv => ⟨_, rfl, hv⟩⟩
  cases hb
  exact hv

omit [BddIdentity] in
theorem den_single {c : CellAtomicType} (hc : T.has c) :
    T.den (atomSemType BT_CELL (.typeAtom (T.index c) c.toAtomicType)) = T.mem c := by
  unfold atomSemType
  rw [den_node]
  ext v
  show (Bdd.node _ _ _ _).holds (T.val v) ↔ v ∈ T.mem c
  simp only [Bdd.holds_node, Bdd.holds_true, Bdd.holds_false, and_true, and_false, or_false]
  refine ⟨fun h => ?_, fun hv => ⟨c, hc, rfl, hv⟩⟩
  obtain ⟨c', hc', hindex, hv⟩ := h
  rw [T.index_inj hc' hc hindex] at hv
  exact hv

omit [BddIdentity] in
theorem Single.positive {T : CellTable V} {t : SemType} (h : T.Single t) : Positive t := by
  obtain ⟨c, -, rfl⟩ := h
  exact ⟨_, _, _, _, rfl, by simp⟩

/-- The difference of positive cell types. -/
theorem diff_exact {t1 t2 : SemType} (h1 : Positive t1) (h2 : Positive t2) :
    ∃ d, diff ops t1 t2 = some d ∧ toCellSemType d = some d ∧ Positive d ∧
      T.den d = T.den t1 \ T.den t2 := by
  obtain ⟨a1, l1, m1, r1, rfl, hpos1⟩ := h1
  obtain ⟨a2, l2, m2, r2, rfl, -⟩ := h2
  have hholds : ∀ v : V, (bddDiff (.node a1 l1 m1 r1) (.node a2 l2 m2 r2)).holds (T.val v) ↔
      (Bdd.node a1 l1 m1 r1).holds (T.val v) ∧ ¬ (Bdd.node a2 l2 m2 r2).holds (T.val v) :=
    fun v => holds_bddDiff (T.atomsByIndex v) _ _
  have hpos : ¬ (bddDiff (.node a1 l1 m1 r1) (.node a2 l2 m2 r2)).holds fun _ => False := by
    rw [holds_bddDiff fun _ _ _ => Iff.rfl]
    exact fun h => hpos1 h.1
  have hdiff : subtypeDiff ops BT_CELL (.bddNode a1 l1 m1 r1) (.bddNode a2 l2 m2 r2) =
      some (cellSubtypeDataEnsureProper
        (bddDiff (.node a1 l1 m1 r1) (.node a2 l2 m2 r2)).toSubtypeData) := rfl
  have hden : T.den (basicSubtype BT_CELL (.bddNode a1 l1 m1 r1)) \
      T.den (basicSubtype BT_CELL (.bddNode a2 l2 m2 r2)) =
      {v | (bddDiff (.node a1 l1 m1 r1) (.node a2 l2 m2 r2)).holds (T.val v)} := by
    rw [den_node, den_node]
    ext v
    exact (hholds v).symm
  rw [hden]
  clear hholds hden
  cases hb : bddDiff (.node a1 l1 m1 r1) (.node a2 l2 m2 r2) with
  | leaf b =>
    rw [hb] at hpos hdiff
    cases b with
    | true => exact absurd rfl hpos
    | false =>
      -- nothing is left: the type of `ATOM_CELL_NEVER`
      refine ⟨_, diff_cell hdiff, rfl, ⟨_, _, _, _, rfl, by simp⟩, ?_⟩
      have hnever := T.den_single T.never.1
      rw [T.never.2, T.mem_never rfl] at hnever
      refine Eq.trans hnever ?_
      ext v
      simp
  | node a l m r =>
    rw [hb] at hpos hdiff
    exact ⟨_, diff_cell hdiff, rfl, ⟨a, l, m, r, rfl, hpos⟩, T.den_node a l m r⟩

/-! ## Answers by looking at the table -/

/-- The atom of a cell is that of the table. -/
def intern (c : CellAtomicType) (s : Unit) : TypeAtom × Unit := (⟨T.index c, c.toAtomicType⟩, s)

omit [BddIdentity] in
theorem names_intern (c : CellAtomicType) (s : Unit) : T.Names c (T.intern c s).1 := fun _ => rfl

open Classical in
/-- `isEmpty` of a cell type, by the members it has. -/
noncomputable def isEmpty (t : SemType) (s : Unit) : Outcome Unit Bool := .done (T.den t = ∅) s

omit [BddIdentity] in
theorem emptyRight_isEmpty (t : SemType) (s : Unit) :
    ∃ b s', T.isEmpty t s = .done b s' ∧ EmptyRight T.den t b :=
  ⟨_, s, rfl, decide_eq_true_iff⟩

/-! ## Cells of single atoms -/

omit [BddIdentity] in
theorem cellAtomicType_single (i : Int) (c : CellAtomicType) :
    cellAtomicType (atomSemType BT_CELL (.typeAtom i c.toAtomicType)) = some c := by
  let d : ProperSubtypeData :=
    .bddNode (.typeAtom i c.toAtomicType) (.leaf true) (.leaf false) (.leaf false)
  have hdata : getComplexSubtypeData (createComplexSemType 0 [(BT_CELL, d)]) BT_CELL =
      some (.proper d) := subtypeData_basicSubtype BT_CELL d
  have hsimple : isSubtypeSimple (.complex (createComplexSemType 0 [(BT_CELL, d)])) CELL = true := by
    show (0 ||| (0 ||| basicType BT_CELL)) &&& ~~~CELL == 0
    decide
  show (if isSubtypeSimple (.complex (createComplexSemType 0 [(BT_CELL, d)])) CELL then do
    let data ← getComplexSubtypeData (createComplexSemType 0 [(BT_CELL, d)]) BT_CELL
    let bdd ← data.toBdd
    (← bddCellAtomicType bdd)
    else none) = some c
  rw [if_pos hsimple, hdata]
  rfl

variable {Q : SemType → Prop} {A : SemType → Bool → Prop}

omit [BddIdentity] in
/-- An interned cell is the type of one atom. -/
theorem cellContainingM_ensures {ty : SemType} {mutability : CellMutability}
    (h : T.has ⟨ty, mutability⟩) :
    (cellContainingM ty mutability).Ensures T.Names Q A fun t =>
      T.Single t ∧ T.den t = T.mem ⟨ty, mutability⟩ := by
  intro a ha
  rw [ha h]
  exact ⟨⟨_, h, rfl⟩, T.den_single h⟩

/-- Cells whose intersections have an atom, too. -/
def Meets : Prop := ∀ {c1 c2 : CellAtomicType}, T.has c1 → T.has c2 →
  ∃ c, intersectCellAtomicType c1 c2 = some c ∧
    T.has ⟨c.ty, if c.ty = .bits UNDEF then .none else c.mutability⟩ ∧
    T.mem ⟨c.ty, if c.ty = .bits UNDEF then .none else c.mutability⟩ = T.mem c1 ∩ T.mem c2

theorem intersectMemberSemTypes_ensures (hmeets : T.Meets) {t1 t2 : SemType} (h1 : T.Single t1)
    (h2 : T.Single t2) :
    (intersectMemberSemTypes t1 t2).Ensures T.Names Q A fun t =>
      T.Single t ∧ T.den t = T.den t1 ∩ T.den t2 := by
  obtain ⟨c1, hc1, rfl⟩ := h1
  obtain ⟨c2, hc2, rfl⟩ := h2
  obtain ⟨c, hc, hhas, hmem⟩ := hmeets hc1 hc2
  unfold intersectMemberSemTypes
  refine Prog.Ensures.ofOption (cellAtomicType_single _ c1) ?_
  refine Prog.Ensures.ofOption (cellAtomicType_single _ c2) ?_
  refine Prog.Ensures.ofOption hc ?_
  rw [T.den_single hc1, T.den_single hc2, ← hmem]
  exact T.cellContainingM_ensures hhas

/-- Cells that keep their members when `UNDEF` is taken out: no member is undefined. -/
def Defined : Prop := ∀ {c : CellAtomicType}, T.has c →
  ∃ ty, diff ops c.ty (.bits UNDEF) = some ty ∧ T.has ⟨ty, c.mutability⟩ ∧
    T.mem ⟨ty, c.mutability⟩ = T.mem c

theorem cellContainingInnerVal_ensures (hdefined : T.Defined) {t : SemType} (h : T.Single t) :
    (cellContainingInnerVal t).Ensures T.Names Q A fun t' => T.Single t' ∧ T.den t' = T.den t := by
  obtain ⟨c, hc, rfl⟩ := h
  obtain ⟨ty, hty, hhas, hmem⟩ := hdefined hc
  unfold cellContainingInnerVal
  refine Prog.Ensures.ofOption (cellAtomicType_single _ c) ?_
  refine Prog.Ensures.ofOption hty ?_
  rw [T.den_single hc, ← hmem]
  exact T.cellContainingM_ensures hhas

theorem cellInnerVal_single (hdefined : T.Defined) {t : SemType} (h : T.Single t) :
    ∃ ty, cellInnerVal t = some ty ∧ (ty = NEVER → T.den t = ∅) := by
  obtain ⟨c, hc, rfl⟩ := h
  obtain ⟨ty, hty, -, hmem⟩ := hdefined hc
  refine ⟨ty, ?_, fun hnever => ?_⟩
  · unfold cellInnerVal cellInner
    rw [cellAtomicType_single]
    exact hty
  · rw [T.den_single hc, ← hmem, T.mem_never hnever]

end CellTable

end Cells

/-! ## Cells of basic types

The cells whose type is a bit set. A mutable cell may hold whatever its inherent type
allows, so what tells cells apart is the inherent type; an immutable cell is what it holds. -/

/-- A member with a type within `U`. -/
structure BitMember (U : BasicTypeBitSet) where
  isMutable : Bool
  /-- the inherent type -/
  types : BasicTypeBitSet
  nonempty : types ≠ 0
  within : types &&& ~~~U = 0
  single : isMutable = false → ∃ code, types = basicType code
  /-- an absent field cannot be changed -/
  undef : isMutable = true → types ≠ UNDEF

variable {mutability : CellMutability} {b : BasicTypeBitSet}

theorem eq_undef_of_within (hne : b ≠ 0) (h : b &&& ~~~UNDEF = 0) :
    b = UNDEF := by
  have hbit : ∀ i : Nat, i < 32 → (b.getLsbD i && !UNDEF.getLsbD i) = false := by
    intro i hi
    have hi' := congrArg (·.getLsbD i) h
    simpa [hi] using hi'
  have hundef : ∀ i : Nat, i < 32 → (UNDEF.getLsbD i = true ↔ i = 18) := by decide
  have h18 : b.getLsbD 18 = true := by
    by_contra hfalse
    refine hne (BitVec.eq_of_getLsbD_eq fun i hi => ?_)
    rw [show (0 : BasicTypeBitSet).getLsbD i = false from BitVec.getLsbD_zero]
    by_cases hi18 : i = 18
    · rw [hi18, Bool.eq_false_iff]
      exact hfalse
    · have hu : UNDEF.getLsbD i = false := Bool.eq_false_iff.mpr fun h => hi18 ((hundef i hi).mp h)
      simpa [hu] using hbit i hi
  refine BitVec.eq_of_getLsbD_eq fun i hi => ?_
  by_cases hi18 : i = 18
  · rw [hi18, h18, (hundef 18 (by decide)).mpr rfl]
  · have hu : UNDEF.getLsbD i = false := Bool.eq_false_iff.mpr fun h => hi18 ((hundef i hi).mp h)
    rw [hu]
    simpa [hu] using hbit i hi

theorem and_eq_self_of_within {U : BasicTypeBitSet} (h : b &&& ~~~U = 0) : b &&& U = b := by
  have hall : b &&& (U ||| ~~~U) = b := by
    rw [BitVec.or_not_self]
    exact BitVec.and_allOnes
  rw [BitVec.and_or_distrib_left, h] at hall
  exact BitVec.or_zero.symm.trans hall

theorem within_and_iff (b b1 b2 : BasicTypeBitSet) :
    b &&& ~~~(b1 &&& b2) = 0 ↔ b &&& ~~~b1 = 0 ∧ b &&& ~~~b2 = 0 := by
  rw [BitVec.not_and, BitVec.and_or_distrib_left]
  exact BitVec.or_eq_zero_iff

/-- The bits of a type that is a bit set. -/
def SemTypeOf.toBits : SemType → BasicTypeBitSet
  | .bits b => b
  | .complex _ => 0

/-- A number for each cell of a bit set; `ATOM_CELL_NEVER` has its index. -/
def bitCellCode (c : CellAtomicType) : Int := 2 * c.ty.toBits.toNat + c.mutability.toNat

theorem eq_of_bitCellCode {c c' : CellAtomicType} (h : c.ty = .bits c.ty.toBits)
    (h' : c'.ty = .bits c'.ty.toBits) (hm : c.mutability ≠ .unlimited)
    (hm' : c'.mutability ≠ .unlimited) (hcode : bitCellCode c = bitCellCode c') : c = c' := by
  obtain ⟨ty, m⟩ := c
  obtain ⟨ty', m'⟩ := c'
  dsimp only [bitCellCode] at *
  have hlt : ∀ m : CellMutability, m ≠ .unlimited → m.toNat < 2 := by
    intro m hm
    cases m with
    | none => decide
    | limited => decide
    | unlimited => exact absurd rfl hm
  have hnat : ∀ m m' : CellMutability, m.toNat = m'.toNat → m = m' := by
    intro m m'
    cases m <;> cases m' <;> decide
  have hlt1 := hlt m hm
  have hlt2 := hlt m' hm'
  have hbits : ty.toBits = ty'.toBits := BitVec.eq_of_toNat_eq (by omega)
  rw [h, h', hbits, hnat m m' (by omega)]

/-- The cells of bit sets. The one of `ATOM_CELL_INNER` swaps its number with another to have
the index of the constant. -/
def bitCells (U : BasicTypeBitSet) : CellTable (BitMember U) where
  has c := c.ty = .bits c.ty.toBits ∧ c.mutability ≠ .unlimited ∧
    (c.ty = .bits UNDEF → c.mutability = .none)
  index c := Equiv.swap 2 (bitCellCode ⟨.bits INNER, .limited⟩) (bitCellCode c)
  index_inj := by
    intro c c' hc hc' hindex
    have hcode := (Equiv.swap 2 (bitCellCode ⟨.bits INNER, .limited⟩)).injective hindex
    exact eq_of_bitCellCode hc.1 hc'.1 hc.2.1 hc'.2.1 hcode
  mem c := {v | v.types &&& ~~~c.ty.toBits = 0 ∧ (v.isMutable = true → c.mutability = .limited)}
  never := ⟨⟨rfl, by decide, by decide⟩, rfl⟩
  mem_never := by
    intro c hc
    ext v
    refine iff_of_false (fun h => v.nonempty ?_) (Set.notMem_empty v)
    have h := h.1
    rw [hc] at h
    rw [← h]
    exact (BitVec.and_allOnes).symm

/-- `cellContaining`, with the indices of `bitCells`. -/
def bitCell (U b : BasicTypeBitSet) (mutability : CellMutability) : SemType :=
  atomSemType BT_CELL
    (.typeAtom ((bitCells U).index ⟨.bits b, mutability⟩) (.cell (.bits b) mutability))

theorem bitCells_has (U : BasicTypeBitSet) (h : mutability ≠ .unlimited)
    (hundef : b = UNDEF → mutability = .none) :
    (bitCells U).has ⟨.bits b, mutability⟩ :=
  ⟨rfl, h, fun heq => hundef (SemTypeOf.bits.inj heq)⟩

theorem single_bitCell (U : BasicTypeBitSet) (h : mutability ≠ .unlimited)
    (hundef : b = UNDEF → mutability = .none) :
    (bitCells U).Single (bitCell U b mutability) :=
  ⟨_, bitCells_has U h hundef, rfl⟩

theorem den_bitCell (U : BasicTypeBitSet) (h : mutability ≠ .unlimited)
    (hundef : b = UNDEF → mutability = .none) :
    (bitCells U).den (bitCell U b mutability) =
      {v | v.types &&& ~~~b = 0 ∧ (v.isMutable = true → mutability = .limited)} :=
  (bitCells U).den_single (bitCells_has U h hundef)

/-- The cell of `ATOM_CELL_INNER` has its index and all members. -/
theorem bitCells_inner {U : BasicTypeBitSet} (hU : ~~~INNER &&& U = 0) :
    (bitCells U).has ⟨.bits INNER, .limited⟩ ∧ (bitCells U).index ⟨.bits INNER, .limited⟩ = 2 ∧
      (bitCells U).mem ⟨.bits INNER, .limited⟩ = Set.univ := by
  refine ⟨⟨rfl, by decide, by decide⟩, Equiv.swap_apply_right 2 _, ?_⟩
  ext v
  refine iff_of_true ⟨?_, fun _ => rfl⟩ (Set.mem_univ v)
  show v.types &&& ~~~INNER = 0
  rw [← and_eq_self_of_within v.within, BitVec.and_assoc, BitVec.and_comm U, hU]
  exact BitVec.and_zero

theorem within_andNot_iff (hb : b &&& ~~~VAL = 0) (b1 : BasicTypeBitSet) :
    b &&& ~~~(b1 &&& ~~~UNDEF) = 0 ↔ b &&& ~~~b1 = 0 := by
  rw [within_and_iff]
  refine and_iff_left ?_
  rw [BitVec.not_not]
  rw [← and_eq_self_of_within hb, BitVec.and_assoc, show VAL &&& UNDEF = 0 by decide]
  exact BitVec.and_zero

theorem bitCells_defined [BddIdentity] : (bitCells VAL).Defined := by
  intro c hc
  obtain ⟨ty, m⟩ := c
  obtain ⟨hty, hm, -⟩ := hc
  dsimp only at hty hm
  generalize ty.toBits = b at hty
  subst hty
  refine ⟨.bits (b &&& ~~~UNDEF), rfl, ⟨rfl, hm, fun h => ?_⟩, ?_⟩
  · have hbits : b &&& ~~~UNDEF = UNDEF := SemTypeOf.bits.inj h
    have hundef : b &&& ~~~UNDEF &&& UNDEF = 0 := by
      rw [BitVec.and_assoc, show ~~~UNDEF &&& UNDEF = 0 by decide]
      exact BitVec.and_zero
    rw [hbits] at hundef
    exact absurd hundef (by decide)
  · ext v
    exact and_congr_left fun _ => within_andNot_iff v.within b

theorem bitCells_meets [BddIdentity] (U : BasicTypeBitSet) : (bitCells U).Meets := by
  intro c1 c2 h1 h2
  obtain ⟨ty1, m1⟩ := c1
  obtain ⟨ty2, m2⟩ := c2
  obtain ⟨hty1, hm1, -⟩ := h1
  obtain ⟨hty2, hm2, -⟩ := h2
  dsimp only at hty1 hty2 hm1 hm2
  generalize ty1.toBits = b1 at hty1
  generalize ty2.toBits = b2 at hty2
  subst hty1 hty2
  have hmin : m1.min m2 ≠ .unlimited ∧
      (m1.min m2 = .limited ↔ m1 = .limited ∧ m2 = .limited) := by
    cases m1 <;> cases m2 <;> simp_all [CellMutability.min, CellMutability.toNat]
  refine ⟨⟨.bits (b1 &&& b2), m1.min m2⟩, rfl, ⟨rfl, ?_, fun h => if_pos h⟩, ?_⟩
  · show (if (_ : SemType) = _ then CellMutability.none else _) ≠ _
    split
    next => decide
    next => exact hmin.1
  · ext v
    show (v.types &&& ~~~(b1 &&& b2) = 0 ∧ (v.isMutable = true → _)) ↔
      (v.types &&& ~~~b1 = 0 ∧ (v.isMutable = true → m1 = .limited)) ∧
        v.types &&& ~~~b2 = 0 ∧ (v.isMutable = true → m2 = .limited)
    rw [within_and_iff]
    by_cases hundef : (SemTypeOf.bits (b1 &&& b2) : SemType) = .bits UNDEF
    · -- only an absent field is left, and that is immutable
      rw [if_pos hundef]
      have hbits : b1 &&& b2 = UNDEF := SemTypeOf.bits.inj hundef
      have himm : v.types &&& ~~~b1 = 0 ∧ v.types &&& ~~~b2 = 0 → ¬ v.isMutable = true := by
        intro h hmut
        rw [← within_and_iff, hbits] at h
        exact v.undef hmut (eq_undef_of_within v.nonempty h)
      grind only
    · rw [if_neg hundef, hmin.2]
      grind only

end Nballerina.Types
