import Nballerina.Types.Emptiness

/-!
# Queries of a finished `Context`

What `isEmpty` and `isSubtype` (`core.bal`) answer, for the passes that only ask. The
answers about the data of one basic type, which the memo tables of the `Context` stand behind, are a
parameter; the rest is as in the source.
-/

namespace Nballerina.Types

/-- The answers of a `Context`. -/
structure TypeQueries where
  /-- `ops[code].isEmpty(cx, data)` -/
  subtypeIsEmpty : BasicTypeCode → ProperSubtypeData → Bool

namespace TypeQueries

variable (queries : TypeQueries)

def isEmpty : SemType → Option Bool
  | .bits b => some (b = 0)
  | .complex c =>
    if c.all ≠ 0 then some false
    else do
      let subtypes ← unpackComplexSemType c
      return subtypes.all fun st => queries.subtypeIsEmpty st.1 st.2

variable [BddIdentity]

def isSubtype (t1 t2 : SemType) : Option Bool := do
  queries.isEmpty (← diff ops t1 t2)

end TypeQueries

theorem diff_of_isSubtypeSimple {ops : BasicTypeCode → BasicTypeOps ProperSubtypeData} {t : SemType}
    {b : BasicTypeBitSet} (h : isSubtypeSimple t b = true) : diff ops t (.bits b) = some (.bits 0) := by
  cases t with
  | bits b1 =>
    have hzero : b1 &&& ~~~b = 0 := beq_iff_eq.mp h
    exact congrArg (fun c => some (SemTypeOf.bits c)) hzero
  | complex c =>
    have hzero : (c.all ||| c.some) &&& ~~~b = 0 := beq_iff_eq.mp h
    have hor : b ||| 0 = b := BitVec.or_zero
    have hall : c.all &&& ~~~b = 0 := by
      have hor' := hzero
      rw [BitVec.and_comm, BitVec.and_or_distrib_left] at hor'
      rw [BitVec.and_comm]
      exact (BitVec.or_eq_zero_iff.mp hor').1
    have hand : 0 &&& ~~~(c.all &&& ~~~(b ||| 0)) = 0 := BitVec.zero_and
    show (if b = VT_MASK then some (.bits 0) else diffMerge ops (.complex c) (.bits b) c.all c.some b 0) = _
    by_cases hb : b = VT_MASK
    · exact if_pos hb
    · rw [if_neg hb]
      unfold diffMerge
      dsimp only
      rw [hzero, if_pos hand, hor, hall]
      rfl

/-- The types of a basic type are its subtypes. -/
theorem TypeQueries.isSubtype_of_isSubtypeSimple [BddIdentity] (queries : TypeQueries) {t : SemType}
    {b : BasicTypeBitSet} (h : isSubtypeSimple t b = true) : queries.isSubtype t (.bits b) = some true := by
  unfold isSubtype
  rw [diff_of_isSubtypeSimple h]
  rfl

end Nballerina.Types
