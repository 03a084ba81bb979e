import Nballerina.Types.Comparable
import Nballerina.Types.Values

/-!
# The basic types of comparable types

If two types are comparable and one of them is of a basic type other than `list`, then the other has no
values of a different one, apart from nil (`eq_code_of_comparable`).
-/

namespace Nballerina.Types

open Nballerina.Lib

section Bits

variable {δ : Type} {ops : BasicTypeCode → BasicTypeOps δ} {t1 t2 t : SemTypeOf δ} {c : BasicTypeCode}

/-- The type has the basic type, or a part of it. -/
def SemTypeOf.HasCode (t : SemTypeOf δ) (c : BasicTypeCode) : Prop :=
  ∃ r, subtypeData t c = some r ∧ r ≠ .bool false

theorem hasCode_iff (ht : t.WF) : t.HasCode c ↔ (t.allBits ||| t.someBits).getLsbD c.val = true := by
  obtain ⟨r, hat, hr⟩ := atCode ht c
  rw [BitVec.getLsbD_or, Bool.or_eq_true]
  cases hat with
  | whole ha hs _ => exact iff_of_true ⟨_, hr, fun h => by cases h⟩ (Or.inl ha)
  | part ha hs _ => exact iff_of_true ⟨_, hr, fun h => by cases h⟩ (Or.inr hs)
  | nothing ha hs _ =>
    refine iff_of_false (fun ⟨r, hr', hne⟩ => ?_) ?_
    · cases hr.symm.trans hr'
      exact hne rfl
    · rw [ha, hs]
      exact not_or.mpr ⟨Bool.false_ne_true, Bool.false_ne_true⟩

theorem hasCode_bits {b : BasicTypeBitSet} :
    (SemTypeOf.bits b : SemTypeOf δ).HasCode c ↔ b.getLsbD c.val = true := by
  rw [hasCode_iff (wf_bits b)]
  show (b ||| 0).getLsbD c.val = true ↔ _
  rw [show b ||| 0 = b from BitVec.or_zero]

/-- A union has the basic types of both, if no union of data is empty. -/
theorem hasCode_unionMerge (h1 : t1.WF) (h2 : t2.WF) (hcode : t1.HasCode c ∨ t2.HasCode c)
    (hops : ∀ d1 d2, lookupCode t1.entries c = some d1 → lookupCode t2.entries c = some d2 →
      (ops c).union d1 d2 ≠ some (.bool false))
    (h : unionMerge ops t1 t2 t1.allBits t1.someBits t2.allBits t2.someBits = some t) : t.HasCode c := by
  have hdis : ∀ c : BasicTypeCode,
      ((t1.someBits ||| t2.someBits) &&& ~~~(t1.allBits ||| t2.allBits)).getLsbD c.val = true →
      (t1.allBits ||| t2.allBits).getLsbD c.val = false := by
    intro c hc
    rw [BitVec.getLsbD_and, getLsbD_not_code, Bool.and_eq_true, Bool.not_eq_true'] at hc
    exact hc.2
  obtain ⟨hwf, hdata⟩ := mergeWith_data h1 h2 hdis (mergeWith_of_unionMerge h)
  obtain ⟨hpair, hnot⟩ := hdata c
  obtain ⟨r1, hat1, hr1⟩ := atCode h1 c
  obtain ⟨r2, hat2, hr2⟩ := atCode h2 c
  simp only [IsPair, BitVec.getLsbD_and, BitVec.getLsbD_or, getLsbD_not_code, true_and] at hpair hnot
  have hwhole : t1.allBits.getLsbD c.val = true ∨ t2.allBits.getLsbD c.val = true → t.HasCode c := by
    intro hall
    have hor : (t1.allBits.getLsbD c.val || t2.allBits.getLsbD c.val) = true := Bool.or_eq_true_iff.mpr hall
    refine ⟨_, hnot fun hp => ?_, ?_⟩
    · rw [hor] at hp
      exact absurd hp.1 (by simp)
    · rw [hor]
      exact fun h => by cases h
  cases hat1 with
  | whole a1 s1 l1 => exact hwhole (Or.inl a1)
  | @part d1 a1 s1 l1 =>
    cases hat2 with
    | whole a2 s2 l2 => exact hwhole (Or.inr a2)
    | part a2 s2 l2 =>
      have hat := hpair ⟨by rw [a1, a2, s1, s2]; rfl, Or.inl (by rw [l1]; exact Option.some_ne_none _)⟩
      rw [l1, l2] at hat
      obtain ⟨r, _, hr⟩ := atCode hwf c
      refine ⟨r, hr, fun hfalse => hops _ _ l1 l2 ?_⟩
      rw [hfalse] at hr
      exact hat.symm.trans hr
    | nothing a2 s2 l2 =>
      refine ⟨.proper d1, (hpair ⟨by rw [a1, a2, s1, s2]; rfl, Or.inl (by rw [l1]; exact Option.some_ne_none _)⟩).trans ?_, fun h => by cases h⟩
      rw [l1, l2]
      rfl
  | nothing a1 s1 l1 =>
    have hright : t2.HasCode c := by
      refine hcode.resolve_left fun hleft => ?_
      obtain ⟨r, hr, hne⟩ := hleft
      cases hr1.symm.trans hr
      exact hne rfl
    cases hat2 with
    | whole a2 s2 l2 => exact hwhole (Or.inr a2)
    | @part d2 a2 s2 l2 =>
      refine ⟨.proper d2, (hpair ⟨by rw [a1, a2, s1, s2]; rfl, Or.inr (by rw [l2]; exact Option.some_ne_none _)⟩).trans ?_, fun h => by cases h⟩
      rw [l1, l2]
      rfl
    | nothing a2 s2 l2 =>
      obtain ⟨r, hr, hne⟩ := hright
      cases hr2.symm.trans hr
      exact absurd rfl hne

theorem hasCode_union (h1 : t1.WF) (h2 : t2.WF) (hcode : t1.HasCode c ∨ t2.HasCode c)
    (hops : ∀ d1 d2, lookupCode t1.entries c = some d1 → lookupCode t2.entries c = some d2 →
      (ops c).union d1 d2 ≠ some (.bool false))
    (h : union ops t1 t2 = some t) : t.HasCode c := by
  have hmerge := hasCode_unionMerge h1 h2 hcode hops (t := t)
  have hzero : ¬ (SemTypeOf.bits 0 : SemTypeOf δ).HasCode c := by
    rw [hasCode_bits]
    simp
  match t1, t2 with
  | .bits b1, .bits b2 =>
    cases h
    rw [hasCode_bits, hasCode_bits] at hcode
    rw [hasCode_bits, BitVec.getLsbD_or, Bool.or_eq_true]
    exact hcode
  | .bits b1, .complex _ =>
    simp only [Types.union] at h
    split at h
    next hb =>
      cases h
      rw [hb] at hcode
      exact hcode.resolve_left hzero
    next => exact hmerge h
  | .complex _, .bits b2 =>
    simp only [Types.union] at h
    split at h
    next hb =>
      cases h
      rw [hb] at hcode
      exact hcode.resolve_right hzero
    next => exact hmerge h
  | .complex _, .complex _ => exact hmerge h

/-- What is taken away of a type are the basic types of the bit set. -/
theorem hasCode_diff_bits {b : BasicTypeBitSet} (h1 : t1.WF) (hcode : t1.HasCode c)
    (hb : b.getLsbD c.val = false) (hmask : b ≠ VT_MASK) (h : diff ops t1 (.bits b) = some t) :
    t.HasCode c := by
  cases t1 with
  | bits b1 =>
    cases h
    rw [hasCode_bits] at hcode
    rw [hasCode_bits, BitVec.getLsbD_and, getLsbD_not_code, hcode, hb]
    rfl
  | complex c1 =>
    rw [hasCode_iff h1] at hcode
    have h : diffMerge ops (.complex c1) (.bits b) c1.all c1.some b 0 = some t := by
      simp only [Types.diff] at h
      rw [if_neg hmask] at h
      exact h
    have hmerge := mergeWith_of_diffMerge h
    rw [show b ||| 0 = b from BitVec.or_zero] at hmerge
    have hdis : ∀ c : BasicTypeCode,
        (((c1.all ||| c1.some) &&& ~~~b) &&& ~~~(c1.all &&& ~~~b)).getLsbD c.val = true →
        (c1.all &&& ~~~b).getLsbD c.val = false := by
      intro c hc
      rw [BitVec.getLsbD_and, getLsbD_not_code, Bool.and_eq_true, Bool.not_eq_true'] at hc
      exact hc.2
    obtain ⟨_, hdata⟩ := mergeWith_data h1 (wf_bits b) hdis hmerge
    obtain ⟨hpair, hnot⟩ := hdata c
    have hnone : lookupCode (SemTypeOf.bits b : SemTypeOf δ).entries c = none := rfl
    obtain ⟨_, hat, hr⟩ := atCode h1 c
    cases hat with
    | whole a1 s1 l1 =>
      refine ⟨_, hnot fun hp => ?_, ?_⟩
      · rcases hp.2.2.2 with hne | hne
        · exact hne l1
        · exact hne hnone
      · rw [BitVec.getLsbD_and, getLsbD_not_code, show c1.all.getLsbD c.val = true from a1, hb]
        exact fun h => by cases h
    | @part d1 a1 s1 l1 =>
      refine ⟨.proper d1, (hpair ⟨?_, rfl, rfl, Or.inl (by rw [l1]; exact Option.some_ne_none _)⟩).trans ?_, fun h => by cases h⟩
      · rw [BitVec.getLsbD_and, BitVec.getLsbD_and, BitVec.getLsbD_or, getLsbD_not_code,
          getLsbD_not_code, BitVec.getLsbD_and, getLsbD_not_code, show c1.all.getLsbD c.val = false from a1,
          show c1.some.getLsbD c.val = true from s1, hb]
        rfl
      · rw [l1, hnone]
        rfl
    | nothing a1 s1 l1 =>
      rw [BitVec.getLsbD_or, a1, s1] at hcode
      cases hcode

end Bits

section Comparable

variable [BddIdentity] {t1 t2 : SemType} {c1 c2 : BasicTypeCode}

/-- The union of data for which there is a value, or of ints, is not empty. -/
def UnionNotEmpty (t1 t2 : SemType) (c : BasicTypeCode) : Prop :=
  ∀ d1 d2, lookupCode t1.entries c = some d1 → lookupCode t2.entries c = some d2 →
    (ops c).union d1 d2 ≠ some (.bool false)

theorem unionNotEmpty_of_single (h1 : t1.WF) (h2 : t2.WF) {c' : BasicTypeCode} (hne : c1 ≠ c')
    (hsingle : widenToBasicTypes t1 = basicType c' ∨ widenToBasicTypes t2 = basicType c') :
    UnionNotEmpty t1 t2 c1 := by
  have hnone : ∀ {t : SemType} {d : ProperSubtypeData}, t.WF → widenToBasicTypes t = basicType c' →
      lookupCode t.entries c1 ≠ some d := by
    intro t d ht hwiden hl
    obtain ⟨_, hat, hr⟩ := atCode ht c1
    have hcode : t.HasCode c1 := by
      cases hat with
      | part a s l => exact ⟨_, hr, fun h => by cases h⟩
      | whole a s l => cases hl.symm.trans l
      | nothing a s l => cases hl.symm.trans l
    rw [hasCode_iff ht, ← widenToBasicTypes_eq, hwiden] at hcode
    have hall : ∀ c c' : BasicTypeCode, (basicType c').getLsbD c.val = true → c = c' := by decide
    exact hne (hall _ _ hcode)
  intro d1 d2 hl1 hl2 _
  rcases hsingle with hsingle | hsingle
  · exact hnone h1 hsingle hl1
  · exact hnone h2 hsingle hl2

/-- Of numbers and booleans the union has the values of both. -/
theorem unionNotEmpty_of_holds {α : Type} {structured : BasicTypeCode → ProperSubtypeData → Set α}
    (h1 : t1.Over ValidData) (h2 : t2.Over ValidData) {v : BasicValue α}
    (hv : Holds structured t1 v ∨ Holds structured t2 v)
    (hkind : (∃ b, v = .boolean b) ∨ (∃ n, v = .int n) ∨ ∃ x, v = .float x) : UnionNotEmpty t1 t2 v.code := by
  intro d1 d2 hl1 hl2 h
  have hvalid1 := valid_of_lookup h1.wf h1.valid hl1
  have hvalid2 := valid_of_lookup h2.wf h2.valid hl2
  rcases hkind with ⟨b, rfl⟩ | ⟨n, rfl⟩ | ⟨x, rfl⟩
  · obtain ⟨b1, hb1⟩ := hvalid1.1 rfl
    obtain ⟨b2, hb2⟩ := hvalid2.1 rfl
    rw [hb1, hb2] at h
    have h : (if b1 = b2 then SubtypeDataOf.proper (ProperSubtypeData.boolean b1) else .bool true) =
        .bool false := Option.some.inj h
    split at h <;> cases h
  · obtain ⟨v1, hv1, _⟩ := hvalid1.2.1 rfl
    obtain ⟨v2, hv2, _⟩ := hvalid2.2.1 rfl
    rw [hv1, hv2] at h
    have h : (if rangeListUnion v1 v2 = [⟨intMinValue, intMaxValue⟩] then SubtypeDataOf.bool true
        else .proper (ProperSubtypeData.int (rangeListUnion v1 v2))) = .bool false := Option.some.inj h
    split at h <;> cases h
  · obtain ⟨r, hr, _, hden⟩ := exactEnumerable_float.union (hvalid1.2.2.1 rfl) (hvalid2.2.2.1 rfl)
    cases (show floatSubtypeUnion d1 d2 = some (.bool false) from h).symm.trans hr
    have hlookup : ∀ {t : SemType} {d : ProperSubtypeData}, t.WF → lookupCode t.entries BT_FLOAT = some d →
        Holds structured t (.float x) → x ∈ listDen Set.univ floatData (.proper d) := by
      intro t d ht hl ⟨r, hr, hhas⟩
      obtain ⟨_, hat, hr'⟩ := atCode ht BT_FLOAT
      cases hr.symm.trans hr'
      cases hat with
      | part a s l =>
        cases hl.symm.trans l
        exact hhas
      | whole a s l => cases hl.symm.trans l
      | nothing a s l => cases hl.symm.trans l
    have hmem : x ∈ listDen Set.univ floatData (.bool false) := by
      rw [hden]
      exact hv.imp (hlookup h1.wf hl1) (hlookup h2.wf hl2)
    rw [listDen_bool] at hmem
    exact hmem

/-- **Comparable types that are not of lists have one basic type, and nil.** -/
theorem eq_code_of_comparable {env : Env} {fuel : Nat} {memo memo' : AnswerTable (SemType × SemType) Unit}
    (h1 : t1.Over ValidData) (h2 : t2.Over ValidData)
    (hcomparable : comparable env fuel t1 t2 memo = some (some (), memo')) (hcode1 : t1.HasCode c1)
    (hcode2 : t2.HasCode c2) (hnil : c1 ≠ BT_NIL ∧ c2 ≠ BT_NIL)
    (hunion1 : UnionNotEmpty t1 t2 c1) (hunion2 : UnionNotEmpty t1 t2 c2) : c1 = c2 := by
  unfold comparable at hcomparable
  cases fuel with
  | zero => cases hcomparable
  | succ fuel =>
    obtain ⟨r, hdirect, hcomparable⟩ := Option.bind_eq_some_iff.mp hcomparable
    obtain ⟨u, s, hu, hs, hsimple, hlists⟩ := comparableSimple_cases hdirect
    have huOver := SemTypeOf.Over.union closedOps_valid h1 h2 hu
    have hsOver := SemTypeOf.Over.diff closedOps_valid huOver (over_bits _ NIL) hs
    have hbit : ∀ {c : BasicTypeCode}, t1.HasCode c ∨ t2.HasCode c → UnionNotEmpty t1 t2 c → c ≠ BT_NIL →
        (widenToBasicTypes s).getLsbD c.val = true := by
      intro c hcode hunion hne
      have hnot : ∀ c : BasicTypeCode, c ≠ BT_NIL → NIL.getLsbD c.val = false := by decide
      rw [widenToBasicTypes_eq, ← hasCode_iff hsOver.wf]
      exact hasCode_diff_bits huOver.wf (hasCode_union h1.wf h2.wf hcode hunion hu) (hnot c hne) (by decide) hs
    have hbit1 := hbit (Or.inl hcode1) hunion1 hnil.1
    have hbit2 := hbit (Or.inr hcode2) hunion2 hnil.2
    cases r with
    | some r =>
      cases hcomparable
      exact eq_of_bitCount_le_one (hsimple rfl).2 hbit1 hbit2
    | none =>
      have hl := hlists rfl
      have hc1 := eq_list_of_bit (mem_of_isSubtypeSimple hl hbit1)
      have hc2 := eq_list_of_bit (mem_of_isSubtypeSimple hl hbit2)
      rw [hc1, hc2]

end Comparable

end Nballerina.Types
