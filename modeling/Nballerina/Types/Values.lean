import Nballerina.Types.Closure
import Nballerina.Types.Define
import Nballerina.Types.EnumerableExact
import Nballerina.Types.IntRanges

/-!
# Values of the basic types

What a type says of a value: the data that the type has for the basic type of the value contain it.
Of the simple basic types and `string` that is what the data list; of the others it is a parameter,
`structured`.

An intersection keeps the strings and the decimals that both types have (`Holds.intersect_string`,
`Holds.intersect_decimal`).
-/

namespace Nballerina.Types

/-- A value by its basic type. -/
inductive BasicValue (α : Type) where
  | nil
  | boolean (b : Bool)
  | int (n : Int)
  | float (x : FloatValue)
  | decimal (x : Rat)
  | string (s : String)
  | structured (code : BasicTypeCode) (a : α)

def BasicValue.code {α : Type} : BasicValue α → BasicTypeCode
  | .nil => BT_NIL
  | .boolean _ => BT_BOOLEAN
  | .int _ => BT_INT
  | .float _ => BT_FLOAT
  | .decimal _ => BT_DECIMAL
  | .string _ => BT_STRING
  | .structured code _ => code

theorem widenToBasicTypes_eq (t : SemType) : widenToBasicTypes t = t.allBits ||| t.someBits := by
  cases t with
  | bits b => exact BitVec.or_zero.symm
  | complex c => rfl

section Holds

variable {α : Type} (structured : BasicTypeCode → ProperSubtypeData → Set α)

/-- The data of the basic type of the value contain it. -/
def DataHas (r : SubtypeData) : BasicValue α → Prop
  | .nil => r = .bool true
  | .boolean b => r = .bool true ∨ r = .proper (.boolean b)
  | .int n => intSubtypeContains r n = some true
  | .float x => x ∈ listDen Set.univ floatData r
  | .decimal x => x ∈ listDen Set.univ decimalData r
  | .string s => s ∈ stringDen r
  | .structured code a => r = .bool true ∨ ∃ d, r = .proper d ∧ a ∈ structured code d

/-- The value belongs to the type. -/
def Holds (t : SemType) (v : BasicValue α) : Prop :=
  ∃ r, subtypeData t v.code = some r ∧ DataHas structured r v

theorem dataHas_true (v : BasicValue α) : DataHas structured (.bool true) v := by
  cases v with
  | nil => exact rfl
  | boolean b => exact Or.inl rfl
  | int n => exact rfl
  | float x =>
    show x ∈ listDen _ _ _
    rw [listDen_bool]
    trivial
  | decimal x =>
    show x ∈ listDen _ _ _
    rw [listDen_bool]
    trivial
  | string s =>
    show s ∈ stringDen _
    rw [stringDen_bool]
    trivial
  | structured code a => exact Or.inl rfl

theorem not_dataHas_false (v : BasicValue α) : ¬ DataHas structured (.bool false) v := by
  intro h
  cases v with
  | nil => cases h
  | boolean b =>
    rcases h with h | h
    · cases h
    · cases h
  | int n => cases h
  | float x =>
    change x ∈ listDen _ _ _ at h
    rw [listDen_bool] at h
    exact h
  | decimal x =>
    change x ∈ listDen _ _ _ at h
    rw [listDen_bool] at h
    exact h
  | string s =>
    change s ∈ stringDen _ at h
    rw [stringDen_bool] at h
    exact h
  | structured code a =>
    rcases h with h | ⟨d, h, _⟩
    · cases h
    · cases h

variable {structured}

/-- A type has the bit of the basic types of its values. -/
theorem Holds.bit {t : SemType} {v : BasicValue α} (ht : t.WF) (h : Holds structured t v) :
    (t.allBits ||| t.someBits).getLsbD v.code.val = true := by
  obtain ⟨r, hr, hhas⟩ := h
  obtain ⟨r', hat, hr'⟩ := atCode ht v.code
  cases hr.symm.trans hr'
  rw [BitVec.getLsbD_or, Bool.or_eq_true]
  cases hat with
  | whole ha _ _ => exact Or.inl ha
  | part _ hs _ => exact Or.inr hs
  | nothing _ _ _ => exact absurd hhas (not_dataHas_false structured v)

/-- Of two sets of values with one basic type the intersection has the common values, if the operation
on the data has. -/
theorem holds_intersectMerge {ops : BasicTypeCode → BasicTypeOps ProperSubtypeData} {t1 t2 t : SemType}
    (h1 : t1.WF) (h2 : t2.WF) {v : BasicValue α} (hv1 : Holds structured t1 v)
    (hv2 : Holds structured t2 v)
    (hops : ∀ d1 d2 r, lookupCode t1.entries v.code = some d1 → lookupCode t2.entries v.code = some d2 →
      DataHas structured (.proper d1) v → DataHas structured (.proper d2) v →
      (ops v.code).intersect d1 d2 = some r → DataHas structured r v)
    (h : intersectMerge ops t1 t2 t1.allBits t1.someBits t2.allBits t2.someBits = some t) :
    Holds structured t v := by
  have hdis : ∀ c : BasicTypeCode, (((t1.someBits ||| t1.allBits) &&& (t2.someBits ||| t2.allBits)) &&&
      ~~~(t1.allBits &&& t2.allBits)).getLsbD c.val = true →
      (t1.allBits &&& t2.allBits).getLsbD c.val = false := by
    intro c hc
    rw [BitVec.getLsbD_and, getLsbD_not_code, Bool.and_eq_true, Bool.not_eq_true'] at hc
    exact hc.2
  obtain ⟨_, hdata⟩ := mergeWith_data h1 h2 hdis (mergeWith_of_intersectMerge h)
  obtain ⟨hpair, hnot⟩ := hdata v.code
  obtain ⟨r1, hr1, hhas1⟩ := hv1
  obtain ⟨r2, hr2, hhas2⟩ := hv2
  obtain ⟨_, hat1, hr1'⟩ := atCode h1 v.code
  obtain ⟨_, hat2, hr2'⟩ := atCode h2 v.code
  cases hr1.symm.trans hr1'
  cases hr2.symm.trans hr2'
  simp only [IsPair, BitVec.getLsbD_and, BitVec.getLsbD_or, getLsbD_not_code, true_and] at hpair hnot
  cases hat1 with
  | whole a1 s1 l1 =>
    cases hat2 with
    | whole a2 s2 l2 =>
      refine ⟨_, hnot (fun hp => hp.2.elim (absurd l1) (absurd l2)), ?_⟩
      rw [a1, a2]
      exact dataHas_true structured v
    | part a2 s2 l2 =>
      refine ⟨.proper _, (hpair ⟨by rw [a1, a2, s1, s2]; rfl, Or.inr (by rw [l2]; exact Option.some_ne_none _)⟩).trans ?_, hhas2⟩
      rw [l1, l2]
      rfl
    | nothing => exact absurd hhas2 (not_dataHas_false structured v)
  | part a1 s1 l1 =>
    cases hat2 with
    | whole a2 s2 l2 =>
      refine ⟨.proper _, (hpair ⟨by rw [a1, a2, s1, s2]; rfl, Or.inl (by rw [l1]; exact Option.some_ne_none _)⟩).trans ?_, hhas1⟩
      rw [l1, l2]
      rfl
    | part a2 s2 l2 =>
      have hat := hpair ⟨by rw [a1, a2, s1, s2]; rfl, Or.inl (by rw [l1]; exact Option.some_ne_none _)⟩
      rw [l1, l2] at hat
      cases hr : (ops v.code).intersect _ _ with
      | some r => exact ⟨r, hat.trans hr, hops _ _ r l1 l2 hhas1 hhas2 hr⟩
      | none =>
        obtain ⟨_, _, hsome⟩ := atCode (by assumption) v.code
        cases hsome.symm.trans (hat.trans hr)
    | nothing => exact absurd hhas2 (not_dataHas_false structured v)
  | nothing => exact absurd hhas1 (not_dataHas_false structured v)

/-- `Holds` of an intersection, which has shortcuts for the type of all values. -/
theorem Holds.intersect {ops : BasicTypeCode → BasicTypeOps ProperSubtypeData} {t1 t2 t : SemType}
    (h1 : t1.WF) (h2 : t2.WF) {v : BasicValue α} (hv1 : Holds structured t1 v)
    (hv2 : Holds structured t2 v)
    (hops : ∀ d1 d2 r, lookupCode t1.entries v.code = some d1 → lookupCode t2.entries v.code = some d2 →
      DataHas structured (.proper d1) v → DataHas structured (.proper d2) v →
      (ops v.code).intersect d1 d2 = some r → DataHas structured r v)
    (h : Types.intersect ops t1 t2 = some t) : Holds structured t v := by
  have hmerge := holds_intersectMerge h1 h2 hv1 hv2 hops (t := t)
  match t1, t2 with
  | .bits b1, .bits b2 =>
    refine hmerge ?_
    show (if ((0 ||| b1) &&& (0 ||| b2)) &&& ~~~(b1 &&& b2) = 0 then _ else _) = _
    have hsome : ((0 ||| b1) &&& (0 ||| b2)) &&& ~~~(b1 &&& b2) = 0 := by simp
    rw [if_pos hsome]
    exact h
  | .bits _, .complex _ =>
    simp only [Types.intersect] at h
    split at h
    · cases h
      exact hv1
    · split at h
      · cases h
        exact hv2
      · exact hmerge h
  | .complex _, .bits _ =>
    simp only [Types.intersect] at h
    split at h
    · cases h
      exact hv2
    · split at h
      · cases h
        exact hv1
      · exact hmerge h
  | .complex _, .complex _ => exact hmerge h

end Holds

/-! ## Well-formed types -/

/-- The data of the basic types other than structures are as the operations make them. -/
def ValidData (code : BasicTypeCode) (d : ProperSubtypeData) : Prop :=
  (code = BT_BOOLEAN → ∃ b, d = .boolean b) ∧
  (code = BT_INT → ∃ v, d = .int v ∧ Normalised v) ∧
  (code = BT_FLOAT → ListValid Set.univ floatData compareFloat (.proper d)) ∧
  (code = BT_DECIMAL → ListValid Set.univ decimalData compareEnumerable (.proper d)) ∧
  (code = BT_STRING → StringValid (.proper d))

theorem exactEnumerable_float : ExactEnumerable Set.univ Set.univ (listDen Set.univ floatData)
    (listListed floatData) (ListValid Set.univ floatData compareFloat) floatSubtypeUnion
    floatSubtypeIntersect floatSubtypeComplement :=
  exactEnumerable_list (fun _ => rfl) (fun _ _ => eq_float_of_floatData) (fun _ _ => rfl)
    (fun _ _ => rfl) fun _ => rfl

theorem exactEnumerable_decimal : ExactEnumerable Set.univ Set.univ (listDen Set.univ decimalData)
    (listListed decimalData) (ListValid Set.univ decimalData compareEnumerable) decimalSubtypeUnion
    decimalSubtypeIntersect decimalSubtypeComplement :=
  exactEnumerable_list (fun _ => rfl) (fun _ _ => eq_decimal_of_decimalData) (fun _ _ => rfl)
    (fun _ _ => rfl) fun _ => rfl

/-! The union of lists of ranges is the one with 64-bit additions, if none of these overflows. -/

theorem eq_of_isBefore64 {max min adjacentTo : Int} {b : Bool}
    (h : isBefore64 max min adjacentTo = some b) : b = decide (max < min ∧ max + 1 ≠ adjacentTo) := by
  unfold isBefore64 at h
  split at h
  next hlt =>
    obtain ⟨next, hnext, rfl⟩ := Option.map_eq_some_iff.mp h
    unfold addInt at hnext
    split at hnext
    · cases hnext
      simp only [hlt, true_and]
    · cases hnext
  next hge =>
    cases h
    simp only [hge, false_and, decide_false]

theorem eq_of_rangeUnion64 {r s : Range} {c : RangeCombined} (h : rangeUnion64 r s = some c) :
    rangeUnion r s = c := by
  unfold rangeUnion64 at h
  unfold rangeUnion
  obtain ⟨before, hbefore, h⟩ := Option.bind_eq_some_iff.mp h
  rw [eq_of_isBefore64 hbefore] at h
  by_cases hb : r.max < s.min ∧ r.max + 1 ≠ s.min
  · rw [decide_eq_true hb] at h
    cases h
    exact if_pos hb
  · rw [decide_eq_false hb] at h
    obtain ⟨after, hafter, h⟩ := Option.bind_eq_some_iff.mp h
    rw [eq_of_isBefore64 hafter] at h
    rw [if_neg hb]
    by_cases ha : s.max < r.min ∧ s.max + 1 ≠ s.min
    · rw [decide_eq_true ha] at h
      cases h
      exact if_pos ha
    · rw [decide_eq_false ha] at h
      cases h
      exact if_neg ha

theorem eq_of_rangeUnionPush64 {result : List Range} {next : Range} {result' : List Range}
    (h : rangeUnionPush64 result next = some result') : rangeUnionPush result next = result' := by
  cases result with
  | nil =>
    cases h
    rfl
  | cons last ranges =>
    obtain ⟨c, hc, h⟩ := Option.bind_eq_some_iff.mp h
    simp only [rangeUnionPush, eq_of_rangeUnion64 hc]
    cases c with
    | before => exact Option.some.inj h
    | after => exact Option.some.inj h
    | range r => exact Option.some.inj h

theorem eq_of_foldlM_rangeUnionPush64 : ∀ (v : List Range) {result result' : List Range},
    v.foldlM rangeUnionPush64 result = some result' → v.foldl rangeUnionPush result = result'
  | [], _, _, h => Option.some.inj h
  | r :: v, result, result', h => by
    rw [List.foldlM_cons] at h
    obtain ⟨result1, h1, h⟩ := Option.bind_eq_some_iff.mp h
    rw [List.foldl_cons, eq_of_rangeUnionPush64 h1]
    exact eq_of_foldlM_rangeUnionPush64 v h

theorem eq_of_rangeListUnionLoop64 : ∀ (result v1 v2 : List Range) {result' : List Range},
    rangeListUnionLoop64 result v1 v2 = some result' → rangeListUnionLoop result v1 v2 = result' := by
  intro result v1 v2
  induction hn : v1.length + v2.length using Nat.strongRecOn generalizing result v1 v2 with
  | ind n ih =>
    intro result' h
    cases v1 with
    | nil =>
      rw [rangeListUnionLoop64] at h
      rw [rangeListUnionLoop]
      exact eq_of_foldlM_rangeUnionPush64 v2 h
    | cons r1 v1 =>
      cases v2 with
      | nil =>
        rw [rangeListUnionLoop64] at h
        rw [rangeListUnionLoop]
        exact eq_of_foldlM_rangeUnionPush64 (r1 :: v1) h
      | cons r2 v2 =>
        subst hn
        rw [rangeListUnionLoop64] at h
        rw [rangeListUnionLoop]
        obtain ⟨c, hc, h⟩ := Option.bind_eq_some_iff.mp h
        rw [eq_of_rangeUnion64 hc]
        cases c with
        | before =>
          obtain ⟨result1, h1, h⟩ := Option.bind_eq_some_iff.mp h
          dsimp only
          rw [eq_of_rangeUnionPush64 h1]
          exact ih _ (by simp only [List.length_cons]; omega) _ _ _ rfl h
        | after =>
          obtain ⟨result1, h1, h⟩ := Option.bind_eq_some_iff.mp h
          dsimp only
          rw [eq_of_rangeUnionPush64 h1]
          exact ih _ (by simp only [List.length_cons]; omega) _ _ _ rfl h
        | range r =>
          obtain ⟨result1, h1, h⟩ := Option.bind_eq_some_iff.mp h
          dsimp only
          rw [eq_of_rangeUnionPush64 h1]
          exact ih _ (by simp only [List.length_cons]; omega) _ _ _ rfl h

theorem normalised_rangeListUnion {v1 v2 : List Range} (h1 : Normalised v1) (h2 : Normalised v2) :
    Normalised (rangeListUnion v1 v2) := by
  obtain ⟨result, heq, hnormalised, _⟩ := merged_rangeListUnionLoop64 [] v1 v2 normalised_nil h1 h2
    (below_nil v1) (below_nil v2)
  unfold rangeListUnion
  rw [eq_of_rangeListUnionLoop64 [] v1 v2 heq]
  exact hnormalised

/-! ## The operations keep types well formed -/

theorem validData_of_int {v : List Range} (h : Normalised v) : ValidData BT_INT (.int v) :=
  ⟨nofun, fun _ => ⟨v, rfl, h⟩, nofun, nofun, nofun⟩

variable {r : SubtypeData} {d : ProperSubtypeData}

theorem validData_of_float (hr : r = .proper d) (h : ListValid Set.univ floatData compareFloat r) :
    ValidData BT_FLOAT d := by
  cases hr
  exact ⟨nofun, nofun, fun _ => h, nofun, nofun⟩

theorem validData_of_decimal (hr : r = .proper d)
    (h : ListValid Set.univ decimalData compareEnumerable r) : ValidData BT_DECIMAL d := by
  cases hr
  exact ⟨nofun, nofun, nofun, fun _ => h, nofun⟩

theorem validData_of_string (hr : r = .proper d) (h : StringValid r) : ValidData BT_STRING d := by
  cases hr
  exact ⟨nofun, nofun, nofun, nofun, fun _ => h⟩

theorem validData_of_boolean (b : Bool) : ValidData BT_BOOLEAN (.boolean b) :=
  ⟨fun _ => ⟨b, rfl⟩, nofun, nofun, nofun, nofun⟩

/-- What data there is of other basic types does not matter. -/
theorem validData_of_other {code : BasicTypeCode} (hcode : code ≠ BT_BOOLEAN ∧ code ≠ BT_INT ∧
    code ≠ BT_FLOAT ∧ code ≠ BT_DECIMAL ∧ code ≠ BT_STRING) (d : ProperSubtypeData) :
    ValidData code d :=
  ⟨fun h => absurd h hcode.1, fun h => absurd h hcode.2.1, fun h => absurd h hcode.2.2.1,
    fun h => absurd h hcode.2.2.2.1, fun h => absurd h hcode.2.2.2.2⟩

/-- The five basic types with data of their own, or another. -/
theorem code_cases (code : BasicTypeCode) : code = BT_BOOLEAN ∨ code = BT_INT ∨ code = BT_FLOAT ∨
    code = BT_DECIMAL ∨ code = BT_STRING ∨ (code ≠ BT_BOOLEAN ∧ code ≠ BT_INT ∧ code ≠ BT_FLOAT ∧
      code ≠ BT_DECIMAL ∧ code ≠ BT_STRING) := by
  tauto

section Valid

variable [BddIdentity] {α : Type} {structured : BasicTypeCode → ProperSubtypeData → Set α}
  {t1 t2 t : SemType}

theorem Holds.intersect_string (h1 : t1.Over ValidData) (h2 : t2.Over ValidData) {s : String}
    (hv1 : Holds structured t1 (.string s)) (hv2 : Holds structured t2 (.string s))
    (h : Types.intersect ops t1 t2 = some t) : Holds structured t (.string s) := by
  refine Holds.intersect h1.wf h2.wf hv1 hv2 (fun d1 d2 r hl1 hl2 hd1 hd2 hr => ?_) h
  have hvalid1 := (valid_of_lookup h1.wf h1.valid hl1).2.2.2.2 rfl
  have hvalid2 := (valid_of_lookup h2.wf h2.valid hl2).2.2.2.2 rfl
  obtain ⟨r', hr', _, hden⟩ := exactEnumerable_string.intersect hvalid1 hvalid2
  cases (show stringSubtypeIntersect d1 d2 = some r from hr).symm.trans hr'
  show s ∈ stringDen r
  rw [hden]
  exact ⟨hd1, hd2⟩

theorem Holds.intersect_decimal (h1 : t1.Over ValidData) (h2 : t2.Over ValidData) {x : Rat}
    (hv1 : Holds structured t1 (.decimal x)) (hv2 : Holds structured t2 (.decimal x))
    (h : Types.intersect ops t1 t2 = some t) : Holds structured t (.decimal x) := by
  refine Holds.intersect h1.wf h2.wf hv1 hv2 (fun d1 d2 r hl1 hl2 hd1 hd2 hr => ?_) h
  have hvalid1 := (valid_of_lookup h1.wf h1.valid hl1).2.2.2.1 rfl
  have hvalid2 := (valid_of_lookup h2.wf h2.valid hl2).2.2.2.1 rfl
  obtain ⟨r', hr', _, hden⟩ := exactEnumerable_decimal.intersect hvalid1 hvalid2
  cases (show decimalSubtypeIntersect d1 d2 = some r from hr).symm.trans hr'
  show x ∈ listDen _ _ r
  rw [hden]
  exact ⟨hd1, hd2⟩

theorem closedOps_valid : ClosedOps ValidData ops where
  union {c d1 d2 d} h1 h2 h := by
    rcases code_cases c with rfl | rfl | rfl | rfl | rfl | hother
    · obtain ⟨b1, rfl⟩ := h1.1 rfl
      obtain ⟨b2, rfl⟩ := h2.1 rfl
      have h : (if b1 = b2 then SubtypeDataOf.proper (.boolean b1) else .bool true) = .proper d :=
        Option.some.inj h
      split at h
      · cases h
        exact validData_of_boolean b1
      · cases h
    · obtain ⟨v1, rfl, hv1⟩ := h1.2.1 rfl
      obtain ⟨v2, rfl, hv2⟩ := h2.2.1 rfl
      have h : (if rangeListUnion v1 v2 = [⟨intMinValue, intMaxValue⟩] then SubtypeDataOf.bool true
          else .proper (.int (rangeListUnion v1 v2))) = .proper d := Option.some.inj h
      split at h
      · cases h
      · cases h
        exact validData_of_int (normalised_rangeListUnion hv1 hv2)
    · obtain ⟨r, hr, hvalid, _⟩ := exactEnumerable_float.union (h1.2.2.1 rfl) (h2.2.2.1 rfl)
      exact validData_of_float (Option.some.inj (hr.symm.trans h)) hvalid
    · obtain ⟨r, hr, hvalid, _⟩ := exactEnumerable_decimal.union (h1.2.2.2.1 rfl) (h2.2.2.2.1 rfl)
      exact validData_of_decimal (Option.some.inj (hr.symm.trans h)) hvalid
    · obtain ⟨r, hr, hvalid, _⟩ := exactEnumerable_string.union (h1.2.2.2.2 rfl) (h2.2.2.2.2 rfl)
      exact validData_of_string (Option.some.inj (hr.symm.trans h)) hvalid
    · exact validData_of_other hother d
  intersect {c d1 d2 d} h1 h2 h := by
    rcases code_cases c with rfl | rfl | rfl | rfl | rfl | hother
    · obtain ⟨b1, rfl⟩ := h1.1 rfl
      obtain ⟨b2, rfl⟩ := h2.1 rfl
      have h : (if b1 = b2 then SubtypeDataOf.proper (.boolean b1) else .bool false) = .proper d :=
        Option.some.inj h
      split at h
      · cases h
        exact validData_of_boolean b1
      · cases h
    · obtain ⟨v1, rfl, hv1⟩ := h1.2.1 rfl
      obtain ⟨v2, rfl, hv2⟩ := h2.2.1 rfl
      have h : (if (rangeListIntersect v1 v2).isEmpty then SubtypeDataOf.bool false
          else .proper (.int (rangeListIntersect v1 v2))) = .proper d := Option.some.inj h
      split at h
      · cases h
      · cases h
        exact validData_of_int (normalised_rangeListIntersect hv1 hv2)
    · obtain ⟨r, hr, hvalid, _⟩ := exactEnumerable_float.intersect (h1.2.2.1 rfl) (h2.2.2.1 rfl)
      exact validData_of_float (Option.some.inj (hr.symm.trans h)) hvalid
    · obtain ⟨r, hr, hvalid, _⟩ := exactEnumerable_decimal.intersect (h1.2.2.2.1 rfl) (h2.2.2.2.1 rfl)
      exact validData_of_decimal (Option.some.inj (hr.symm.trans h)) hvalid
    · obtain ⟨r, hr, hvalid, _⟩ := exactEnumerable_string.intersect (h1.2.2.2.2 rfl) (h2.2.2.2.2 rfl)
      exact validData_of_string (Option.some.inj (hr.symm.trans h)) hvalid
    · exact validData_of_other hother d
  diff {c op d1 d2 d} h1 h2 hdiff h := by
    rcases code_cases c with rfl | rfl | rfl | rfl | rfl | hother
    · obtain ⟨b1, rfl⟩ := h1.1 rfl
      obtain ⟨b2, rfl⟩ := h2.1 rfl
      obtain rfl : booleanSubtypeDiff = op := Option.some.inj hdiff
      have h : (if b1 = b2 then SubtypeDataOf.bool false else .proper (.boolean b1)) = .proper d :=
        Option.some.inj h
      split at h
      · cases h
      · cases h
        exact validData_of_boolean b1
    · cases hdiff
    · cases hdiff
    · cases hdiff
    · cases hdiff
    · exact validData_of_other hother d
  complement {c d1 d} h1 h := by
    rcases code_cases c with rfl | rfl | rfl | rfl | rfl | hother
    · obtain ⟨b, rfl⟩ := h1.1 rfl
      cases h
      exact validData_of_boolean (!b)
    · obtain ⟨v, rfl, hv⟩ := h1.2.1 rfl
      obtain ⟨w, hw, heq⟩ := Option.map_eq_some_iff.mp (show (rangeListComplement v).map
        (fun w => SubtypeDataOf.proper (.int w)) = some (.proper d) from h)
      cases heq
      have hne : v ≠ [] := by
        rintro rfl
        cases hw
      obtain ⟨w', hw', hnormalised, _⟩ := rangeListComplement_right hv hne
      cases hw.symm.trans hw'
      exact validData_of_int hnormalised
    · obtain ⟨r, hr, hvalid, _⟩ := exactEnumerable_float.complement (h1.2.2.1 rfl)
      exact validData_of_float (Option.some.inj (hr.symm.trans h)) hvalid
    · obtain ⟨r, hr, hvalid, _⟩ := exactEnumerable_decimal.complement (h1.2.2.2.1 rfl)
      exact validData_of_decimal (Option.some.inj (hr.symm.trans h)) hvalid
    · obtain ⟨r, hr, hvalid, _⟩ := exactEnumerable_string.complement (h1.2.2.2.2 rfl)
      exact validData_of_string (Option.some.inj (hr.symm.trans h)) hvalid
    · exact validData_of_other hother d

end Valid

end Nballerina.Types
