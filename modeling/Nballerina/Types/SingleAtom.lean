import Nballerina.Types.CellSem
import Nballerina.Types.Define

/-!
# Types of a single atom

A list, mapping or function type that is just one atom has an atomic type, which `listAtomicType`,
`mappingAtomicType` (`core.bal`) and `functionAtomicType` (`function.bal`) give back. They are one
function of the table of atoms (`atomicTypeOf`).

Mirroring notes:
- They take the `Env` in place of the `Context`; the outer `none` is a panic, the inner one `()`.
- Of function types no atomic type stands for all of them, so there `top` is `none`.
-/

namespace Nballerina.Types

variable {α : Type}

/-- `bddListAtomicType` and its like: the atomic type of a `Bdd` of one atom. -/
def bddAtomicType (atomType : Atom → Option α) (top : Option α) : Bdd → Option (Option α)
  | .leaf b => some (if b then top else none)
  | .node atom left middle right =>
    if left = .leaf true ∧ middle = .leaf false ∧ right = .leaf false then (atomType atom).map some
    else some none

def atomicTypeOf (code : BasicTypeCode) (atomType : Atom → Option α) (top : Option α) :
    SemType → Option (Option α)
  | .bits b => some (if b = basicType code then top else none)
  | .complex c =>
    if isSubtypeSimple (.complex c) (basicType code) then do
      let data ← getComplexSubtypeData c code
      let bdd ← data.toBdd
      bddAtomicType atomType top bdd
    else some none

def Env.listAtomicType (env : Env) : SemType → Option (Option ListAtomicType) :=
  atomicTypeOf BT_LIST env.listAtomType (some ⟨⟨[], 0⟩, CELL_SEMTYPE_INNER⟩)

def Env.mappingAtomicType (env : Env) : SemType → Option (Option MappingAtomicType) :=
  atomicTypeOf BT_MAPPING env.mappingAtomType (some ⟨[], [], CELL_SEMTYPE_INNER⟩)

def Env.functionAtomicType (env : Env) : SemType → Option (Option FunctionAtomicType) :=
  atomicTypeOf BT_FUNCTION env.functionAtomType none

theorem isSubtypeSimple_atomSemType : ∀ code : BasicTypeCode,
    ((0 : BasicTypeBitSet) ||| (0 ||| basicType code)) &&& ~~~basicType code = 0 := by
  decide

theorem andNot_self_code : ∀ code : BasicTypeCode, basicType code &&& ~~~basicType code = 0 := by
  decide

/-- The type of an atom has its atomic type. -/
theorem atomicTypeOf_atomSemType {code : BasicTypeCode} {atomType : Atom → Option α} {top : Option α}
    {atom : Atom} {t : α} (h : atomType atom = some t) :
    atomicTypeOf code atomType top (atomSemType code atom) = some (some t) := by
  let d : ProperSubtypeData := .bddNode atom (.leaf true) (.leaf false) (.leaf false)
  have hdata : getComplexSubtypeData (createComplexSemType 0 [(code, d)]) code = some (.proper d) :=
    subtypeData_basicSubtype code d
  have hsimple : isSubtypeSimple (.complex (createComplexSemType 0 [(code, d)])) (basicType code) =
      true := beq_iff_eq.mpr (isSubtypeSimple_atomSemType code)
  show (if isSubtypeSimple (.complex (createComplexSemType 0 [(code, d)])) (basicType code) then do
    let data ← getComplexSubtypeData (createComplexSemType 0 [(code, d)]) code
    let bdd ← data.toBdd
    bddAtomicType atomType top bdd
    else some none) = some (some t)
  rw [if_pos hsimple, hdata]
  show bddAtomicType atomType top (.node atom (.leaf true) (.leaf false) (.leaf false)) = _
  rw [bddAtomicType, if_pos ⟨rfl, rfl, rfl⟩, h]
  rfl

/-- A type with an atomic type is of its basic type. -/
theorem isSubtypeSimple_of_atomicTypeOf {code : BasicTypeCode} {atomType : Atom → Option α} {top : Option α}
    {s : SemType} {t : α} (h : atomicTypeOf code atomType top s = some (some t)) :
    isSubtypeSimple s (basicType code) = true := by
  cases s with
  | bits b =>
    by_cases hb : b = basicType code
    · rw [hb]
      exact beq_iff_eq.mpr (andNot_self_code code)
    · have hnone : atomicTypeOf code atomType top (.bits b) = some none := congrArg some (if_neg hb)
      rw [hnone] at h
      cases h
  | complex c =>
    cases hsimple : isSubtypeSimple (.complex c) (basicType code) with
    | true => rfl
    | false =>
      have hnone : atomicTypeOf code atomType top (.complex c) = some none :=
        if_neg (fun htrue => Bool.noConfusion (hsimple.symm.trans htrue))
      rw [hnone] at h
      cases h

end Nballerina.Types
