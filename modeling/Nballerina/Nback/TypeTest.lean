import Nballerina.Nback.MappingTest
import Nballerina.Types.EmptinessSound
import Nballerina.Types.ExactTypes
import Nballerina.Types.SingleAtom

/-!
# `is` and `!is` on structure values

For `x is T` and `x !is T` as a condition the front end branches on a type test
(`codeGenTypeTestForCond` in `front/expr.bal`): for `is` it tests for the intersection of the
static type with `T`, for `!is` for the difference. `buildTypeTest`, for a test that is not a
condition, negates the result instead.

What the test does at run time depends on the tested type (`buildTypeTestedValue` in
`nback/typeTest.bal`, `createListSubtypeStruct` and `createMappingSubtypeStruct` in
`nback/init.bal`). It looks at the tag alone, if that is enough for values of the static type. For
an array, a map or a closed record of basic types it compares the descriptor of the value with bit
sets. For every other type it looks the id of the *inherent type* of the value up in the list of
the construct types that are subtypes of the tested one. The tests that do not use the descriptor
succeed exactly when the inherent type is a subtype of the tested type (`Answer`). So for these
`x is T` succeeds when the inherent type is a subtype of `T`, `x !is T` when it has no value in
common with `T`, and for an inherent type that is neither both fail
(`opposite_iff_of_no_descriptor`).

Mirroring notes:
- The front end and the backend ask the emptiness predicates, so the functions here are
  programs (`EmptyM`), as those of `types` are.
- A constant condition is a branch that is known when the code is generated.
- `tid` is the index of a type in the table of the construct types of its basic type.
- The result of a test is `none` when `_bal_record_subtype_contains` reads past the fields of the
  value.
- A type that is not just a bit set is tested by `complexTypeContainsTagged`; `subtypeData` is what
  the structure for it has for the basic type of the value (`Nback/SubtypeStruct.lean`).
- The structure values are lists and mappings. The static type is one whose values are tagged.
-/

namespace Nballerina.Nback

open Nballerina.Lib Nballerina.Types Nballerina.Runtime

section Program

variable [BddIdentity]

/-- What is emitted for a condition: nothing, if it is constant, or a branch on the test of
a type. -/
inductive CondExprEffect where
  | constCond (cond : Bool)
  | typeCondBranch (semType : SemType) (ifTrueRegister ifFalseRegister : SemType)

def codeGenTypeTestForCond (curSemType semType : SemType) (negated : Bool) :
    EmptyM CondExprEffect := do
  let diff ← cast (diff ops curSemType semType)
  if ← isEmpty diff then return .constCond !negated
  else
    let intersect ←
      if ← isSubtype semType curSemType then pure semType
      else cast (intersect ops curSemType semType)
    if ← isEmpty intersect then return .constCond negated
    else if negated then return .typeCondBranch diff diff intersect
    else return .typeCondBranch intersect intersect diff

/-! ## The structures of lists and mappings -/

/-- The ids of the construct types from `tid` on that are subtypes of `ty`. -/
def precomputedTids (ty : SemType) : Nat → List SemType → EmptyM (List Nat)
  | _, [] => return []
  | tid, semType :: constructTypes => do
    if ← isSubtype semType ty then
      let tids ← precomputedTids ty (tid + 1) constructTypes
      return tid :: tids
    else precomputedTids ty (tid + 1) constructTypes

def createPrecomputedSubtypeStruct (constructTypes : List SemType) (ty : SemType) :
    EmptyM (List Nat) :=
  precomputedTids ty 0 constructTypes

/-- The structure of an array, or of a map or a closed record, of basic types. -/
inductive DescriptorStruct where
  | array (bitSet : BitSet)
  | mapping (st : MappingSubtype)

/-- `createListSubtypeStruct`, up to the precomputed structure. -/
def listDescriptorStruct (env : Env) (semType : SemType) : Option (Option DescriptorStruct) := do
  match ← env.listAtomicType semType with
  | none => some none
  | some lat =>
    match ← cellInnerVal lat.rest with
    | .bits rest => some (if lat.members.fixedLength = 0 then some (.array rest) else none)
    | .complex _ => some none

/-- `createMappingSubtypeStruct`, up to the precomputed structure. -/
def mappingDescriptorStruct (env : Env) (semType : SemType) : Option (Option DescriptorStruct) := do
  match ← env.mappingAtomicType semType with
  | none => some none
  | some mat => some ((createMappingSubtypeStruct mat).map .mapping)

def createListDescInit (contains : SemType → Nat → TaggedPtr → Bool) (atomic : ListAtomicType) :
    Option (ListDesc MemberType) := do
  let restType ← cellInnerVal atomic.rest
  let llMembers ← atomic.members.initial.mapM fun ty => (cellInner ty).map (getMemberType contains)
  some ⟨getMemberType contains restType, llMembers⟩

/-- A list or a mapping, as a test sees it. -/
inductive StructureValue (K : Type) where
  | list (desc : ListDesc MemberType)
  | mapping (p : TaggedPtr) (m : Mapping K MemberType)

variable {K : Type} (env : Env) (constructTypes : List SemType) (rt : MappingRuntime K MemberType)
  (value : StructureValue K) (tid : Nat)

def StructureValue.code : StructureValue K → BasicTypeCode
  | .list _ => BT_LIST
  | .mapping _ _ => BT_MAPPING

/-- The structure by the descriptor for the part of a type that has the value's basic type. -/
def StructureValue.descriptorStruct (semType : SemType) : Option (Option DescriptorStruct) :=
  match value with
  | .list _ => listDescriptorStruct env semType
  | .mapping _ _ => mappingDescriptorStruct env semType

/-- `_bal_array_subtype_contains`, `_bal_map_subtype_contains` or
`_bal_record_subtype_contains`. A structure for lists is not asked for mappings, nor the other way
round. -/
def DescriptorStruct.contains : DescriptorStruct → Option Bool
  | .array bitSet =>
    match value with
    | .list desc => some (balArraySubtypeContains bitSet desc)
    | .mapping _ _ => some false
  | .mapping st =>
    match value with
    | .list _ => some false
    | .mapping p m => st.contains rt.eq rt.key p m

/-- The structure that is made for a part of a type, asked for the value. -/
def structureContains (part : SemType) : EmptyM (Option Bool) := do
  match ← cast (value.descriptorStruct env part) with
  | some st => return st.contains rt value
  | none =>
    let tids ← createPrecomputedSubtypeStruct constructTypes part
    return balPrecomputedSubtypeContains tids tid

/-! ## The test of a type -/

/-- The bit set that a value of the source type is tested for, if that is enough. -/
def testTypeAsBasicBitSet (sourceType targetType : SemType) : EmptyM (Option BasicTypeBitSet) := do
  let bitSet := widenToBasicTypes targetType
  let intersect ← cast (intersect ops sourceType (.bits bitSet))
  let diff ← cast (diff ops intersect targetType)
  if ← isEmpty diff then return some bitSet else return none

/-- `complexTypeContainsTagged` of the structure for the type. -/
def typeContains (semType : SemType) : EmptyM (Option Bool) := do
  match ← cast (subtypeData semType value.code) with
  | .bool b => return some b
  | .proper data =>
    structureContains env constructTypes rt value tid (basicSubtype value.code data)

def buildTypeTestedValue (sourceType semType : SemType) : EmptyM (Option Bool) := do
  match ← testTypeAsBasicBitSet sourceType semType with
  | some bitSet => return some (bitSet.getLsbD value.code)
  | none => typeContains env constructTypes rt value tid semType

/-- The branch that the value takes at `x is T`, or at `x !is T`. -/
def condBranch (curSemType semType : SemType) (negated : Bool) : EmptyM (Option Bool) := do
  match ← codeGenTypeTestForCond curSemType semType negated with
  | .constCond cond => return some cond
  | .typeCondBranch tested _ _ =>
    buildTypeTestedValue env constructTypes rt value tid curSemType tested

end Program

/-! ## What the branches depend on -/

section Exact

variable [BddIdentity] {V : Type} {den : SemType → Set V} {R : CellAtomicType → TypeAtom → Prop}
  {Ty : SemType → Prop}

/-- The list has the ids of the subtypes, in increasing order. -/
theorem precomputedTids_ensures (hx : ExactTypes den Ty) {ty : SemType} (hty : Ty ty) :
    ∀ (constructTypes : List SemType) (tid : Nat), (∀ t ∈ constructTypes, Ty t) →
      (precomputedTids ty tid constructTypes).Ensures R Ty (EmptyRight den) fun tids =>
        tids.Pairwise (· < ·) ∧ ∀ j, j ∈ tids ↔
          ∃ (i : Nat) (t : SemType), j = tid + i ∧ constructTypes[i]? = some t ∧ den t ⊆ den ty := by
  intro constructTypes
  induction constructTypes with
  | nil =>
    intro tid _
    refine ⟨List.Pairwise.nil, fun j => iff_of_false List.not_mem_nil ?_⟩
    intro ⟨i, t, _, hi, _⟩
    cases hi
  | cons semType constructTypes ih =>
    intro tid htypes
    have ih := ih (tid + 1) fun t ht => htypes t (.tail _ ht)
    -- the ids of the first type and of the others
    have hsplit : ∀ j, (∃ (i : Nat) (t : SemType), j = tid + i ∧
        (semType :: constructTypes)[i]? = some t ∧ den t ⊆ den ty) ↔
        (j = tid ∧ den semType ⊆ den ty) ∨ ∃ (i : Nat) (t : SemType), j = tid + 1 + i ∧
          constructTypes[i]? = some t ∧ den t ⊆ den ty := by
      intro j
      refine ⟨fun ⟨i, t, hj, hi, hsub⟩ => ?_, fun h => ?_⟩
      · cases i with
        | zero =>
          obtain rfl := Option.some.inj hi
          exact .inl ⟨hj, hsub⟩
        | succ i => exact .inr ⟨i, t, by omega, hi, hsub⟩
      · rcases h with ⟨hj, hsub⟩ | ⟨i, t, hj, hi, hsub⟩
        · exact ⟨0, semType, hj, rfl, hsub⟩
        · exact ⟨i + 1, t, by omega, hi, hsub⟩
    unfold precomputedTids
    refine (isSubtype_ensures hx (htypes semType (.head _)) hty).bind fun b hb => ?_
    cases b with
    | true =>
      refine ih.bind fun tids htids => ?_
      refine ⟨List.pairwise_cons.mpr ⟨fun j hj => ?_, htids.1⟩, fun j => ?_⟩
      · obtain ⟨i, t, rfl, -⟩ := (htids.2 j).mp hj
        omega
      · rw [List.mem_cons, htids.2, hsplit]
        exact or_congr_left (and_iff_left (hb.mp rfl)).symm
    | false =>
      refine ih.imp fun tids htids => ⟨htids.1, fun j => ?_⟩
      rw [htids.2, hsplit]
      exact (or_iff_right fun h => absurd (hb.mpr h.2) (by decide)).symm

/-- The type that the branch of `x is T` or of `x !is T` tests for. -/
inductive TestedType (den : SemType → Set V) (curSemType semType : SemType) : Bool → SemType → Prop where
  | isNot {t : SemType} (h : diff ops curSemType semType = some t) :
      TestedType den curSemType semType true t
  | subtype (h : den semType ⊆ den curSemType) : TestedType den curSemType semType false semType
  | intersection {t : SemType} (h : ¬ den semType ⊆ den curSemType)
      (h' : intersect ops curSemType semType = some t) : TestedType den curSemType semType false t

variable {curSemType semType : SemType}

theorem TestedType.den_eq (hx : ExactTypes den Ty) {t : SemType} (hcur : Ty curSemType)
    (hty : Ty semType) {negated : Bool} (h : TestedType den curSemType semType negated t) : Ty t ∧
      den t = if negated then den curSemType \ den semType else den curSemType ∩ den semType := by
  cases h with
  | isNot h =>
    obtain ⟨d, hd, hQ, hden⟩ := hx.diff hcur hty
    rw [h] at hd
    cases hd
    exact ⟨hQ, hden⟩
  | subtype h => exact ⟨hty, (Set.inter_eq_right.mpr h).symm⟩
  | intersection _ h' =>
    obtain ⟨i, hi, hQ, hden⟩ := hx.intersect hcur hty
    rw [h'] at hi
    cases hi
    exact ⟨hQ, hden⟩

theorem TestedType.unique {t t' : SemType} {negated : Bool}
    (h : TestedType den curSemType semType negated t)
    (h' : TestedType den curSemType semType negated t') : t = t' := by
  cases h with
  | isNot h =>
    cases h' with
    | isNot h' => exact Option.some.inj (h.symm.trans h')
  | subtype h =>
    cases h' with
    | subtype _ => rfl
    | intersection hno _ => exact absurd h hno
  | intersection hno h =>
    cases h' with
    | subtype h' => exact absurd h' hno
    | intersection _ h' => exact Option.some.inj (h.symm.trans h')

/-- What is emitted: a constant condition when the static type is within `T` or apart from it,
otherwise a test. -/
def Emits (den : SemType → Set V) (curSemType semType : SemType) (negated : Bool)
    (e : CondExprEffect) : Prop :=
  (e = .constCond !negated ∧ den curSemType ⊆ den semType) ∨
  ¬ den curSemType ⊆ den semType ∧
    ((e = .constCond negated ∧ den curSemType ∩ den semType = ∅) ∨
      den curSemType ∩ den semType ≠ ∅ ∧
        ∃ t t1 t2, e = .typeCondBranch t t1 t2 ∧ TestedType den curSemType semType negated t)

theorem codeGenTypeTestForCond_ensures (hx : ExactTypes den Ty) (hcur : Ty curSemType)
    (hty : Ty semType) (negated : Bool) :
    (codeGenTypeTestForCond curSemType semType negated).Ensures R Ty (EmptyRight den)
      (Emits den curSemType semType negated) := by
  obtain ⟨d, hd, hdty, hdden⟩ := hx.diff hcur hty
  obtain ⟨i, hi, hity, hiden⟩ := hx.intersect hcur hty
  -- the end of the function, from the intersection on
  have hrest : ¬ den curSemType ⊆ den semType → ∀ t, Ty t →
      den t = den curSemType ∩ den semType → TestedType den curSemType semType false t →
      ((isEmpty t).bind fun b => if b = true then Prog.pure (CondExprEffect.constCond negated)
        else if negated = true then Prog.pure (.typeCondBranch d d t)
        else Prog.pure (.typeCondBranch t t d)).Ensures R Ty (EmptyRight den)
          (Emits den curSemType semType negated) := by
    intro hnot t ht hden htested
    refine (isEmpty_ensures ht).bind fun b hb => ?_
    rw [hden] at hb
    cases b with
    | true => exact .inr ⟨hnot, .inl ⟨rfl, hb.mp rfl⟩⟩
    | false =>
      have hne : den curSemType ∩ den semType ≠ ∅ := fun h => Bool.false_ne_true (hb.mpr h)
      cases negated with
      | true => exact .inr ⟨hnot, .inr ⟨hne, d, d, t, rfl, .isNot hd⟩⟩
      | false => exact .inr ⟨hnot, .inr ⟨hne, t, t, d, rfl, htested⟩⟩
  unfold codeGenTypeTestForCond
  refine Prog.Ensures.ofOption hd ((isEmpty_ensures hdty).bind fun b hb => ?_)
  rw [hdden, Set.sdiff_eq_empty] at hb
  cases b with
  | true => exact .inl ⟨rfl, hb.mp rfl⟩
  | false =>
    have hnot : ¬ den curSemType ⊆ den semType := fun h => Bool.false_ne_true (hb.mpr h)
    refine (isSubtype_ensures hx hty hcur).bind fun b hb => ?_
    cases b with
    | true =>
      have hsub := hb.mp rfl
      exact hrest hnot semType hty (Set.inter_eq_right.mpr hsub).symm (.subtype hsub)
    | false =>
      have hno : ¬ den semType ⊆ den curSemType := fun h => Bool.false_ne_true (hb.mpr h)
      exact Prog.Ensures.ofOption hi (hrest hnot i hity hiden (.intersection hno hi))

/-- A structure is found in the list for a type when its inherent type is a subtype. -/
theorem precomputed_ensures (hx : ExactTypes den Ty) {constructTypes : List SemType}
    (htypes : ∀ t ∈ constructTypes, Ty t) {tid : Nat} {inherent : SemType}
    (htid : constructTypes[tid]? = some inherent) {ty : SemType} (hty : Ty ty) :
    (createPrecomputedSubtypeStruct constructTypes ty).Ensures R Ty (EmptyRight den) fun tids =>
      ∃ b, balPrecomputedSubtypeContains tids tid = some b ∧
        (b = true ↔ den inherent ⊆ den ty) := by
  refine (precomputedTids_ensures hx hty constructTypes 0 htypes).imp fun tids htids => ?_
  refine ⟨_, tidListContains_eq htids.1 tid, ?_⟩
  rw [decide_eq_true_eq, htids.2]
  refine ⟨fun ⟨i, t, htid', hi, hsub⟩ => ?_, fun h => ⟨tid, inherent, by omega, htid, h⟩⟩
  rw [Nat.zero_add] at htid'
  rw [← htid', htid] at hi
  obtain rfl := Option.some.inj hi
  exact hsub

section Branch

variable {K : Type} {env : Env} {constructTypes : List SemType} {rt : MappingRuntime K MemberType}
  {value : StructureValue K} {tid : Nat} {code : V → BasicTypeCode}
  {curSemType semType inherent tested : SemType}

/-- What a type has of each basic type is that part of its values. -/
structure CodedTypes (den : SemType → Set V) (Ty : SemType → Prop) (code : V → BasicTypeCode) :
    Prop where
  exact : ExactTypes den Ty
  widen : ∀ {t}, Ty t → Ty (.bits (widenToBasicTypes t))
  den_bits : ∀ {b}, Ty (.bits b) → den (.bits b) = {v | b.getLsbD (code v) = true}
  den_widen : ∀ {t}, Ty t → den t ⊆ {v | (widenToBasicTypes t).getLsbD (code v) = true}
  data : ∀ {t}, Ty t → ∀ c, ∃ r, subtypeData t c = some r ∧
    (∀ b, r = .bool b → ∀ v, code v = c → (v ∈ den t ↔ b = true)) ∧
    ∀ d, r = .proper d → Ty (basicSubtype c d) ∧
      ∀ v, code v = c → (v ∈ den (basicSubtype c d) ↔ v ∈ den t)

/-- The descriptor of a value is the one made for its inherent type. -/
def StructureValue.DescOf (env : Env) (contains : SemType → Nat → TaggedPtr → Bool)
    (inherent : SemType) : StructureValue K → Prop
  | .list desc => ∃ lat, env.listAtomicType inherent = some (some lat) ∧
      createListDescInit contains lat = some desc
  | .mapping p m => utTag p = tagMapping ∧ ∃ mat, env.mappingAtomicType inherent = some (some mat) ∧
      createMappingDescInit contains mat = some m.desc

/-- What the branches rest on: the types are types of the program, and the structure has an
inherent type with values, all of the static type and of the basic type of the structure. -/
structure Tested (den : SemType → Set V) (Ty : SemType → Prop) (code : V → BasicTypeCode) (env : Env)
    (constructTypes : List SemType) (value : StructureValue K) (tid : Nat)
    (curSemType semType inherent : SemType) : Prop where
  cur : Ty curSemType
  type : Ty semType
  construct : ∀ t ∈ constructTypes, Ty t
  tid_eq : constructTypes[tid]? = some inherent
  desc : ∃ contains, value.DescOf env contains inherent
  nonempty : (den inherent).Nonempty
  subset : den inherent ⊆ den curSemType
  code_eq : ∀ v ∈ den inherent, code v = value.code
  -- the atomic types can be read
  descriptor : ∀ t, Ty t → (value.descriptorStruct env t).isSome

theorem Tested.tag (ht : Tested den Ty code env constructTypes value tid curSemType semType inherent)
    (p : TaggedPtr) (m : Mapping K MemberType) (h : value = .mapping p m) : utTag p = tagMapping := by
  obtain ⟨contains, hdesc⟩ := ht.desc
  rw [h] at hdesc
  exact hdesc.1

/-! ### What a test looks at -/

/-- The basic types of the member types in the descriptor are within the bit set, and for a record
the value has the fields, each at its position. -/
def DescriptorStruct.Fits (rt : MappingRuntime K MemberType) (value : StructureValue K) :
    DescriptorStruct → Prop
  | .array bitSet => ∃ desc, value = .list desc ∧
    ∀ ty ∈ desc.restType :: desc.memberTypes, memberTypeIsSubtypeSimple ty bitSet = true
  | .mapping st => ∃ p m, value = .mapping p m ∧ st.Fits rt m

/-- The value has fewer fields than the record, and they fit the first of it. -/
def DescriptorStruct.ReadsPast (rt : MappingRuntime K MemberType) (value : StructureValue K)
    (st : DescriptorStruct) : Prop :=
  ∃ p m fields, value = .mapping p m ∧ st = .mapping (.record fields) ∧
    fields.length = m.desc.fieldTypes.length ∧ ∃ n < fields.length, m.fields.length ≤ n ∧
      ∀ (i : Nat) (f : String × BitSet), i < n → fields[i]? = some f →
        FieldFits rt.eq m i (rt.key f.1, f.2)

omit [BddIdentity] in
theorem DescriptorStruct.contains_spec (hp : ∀ p m, value = .mapping p m → utTag p = tagMapping)
    (st : DescriptorStruct) : (st.contains rt value = some true ↔ st.Fits rt value) ∧
      (st.contains rt value = none ↔ st.ReadsPast rt value) := by
  cases st with
  | array bitSet =>
    have hpast : ¬ (DescriptorStruct.array bitSet).ReadsPast rt value :=
      fun ⟨_, _, _, _, h, _⟩ => by cases h
    cases value with
    | list desc =>
      refine ⟨?_, iff_of_false (fun h => by cases h) hpast⟩
      show some (balArraySubtypeContains bitSet desc) = some true ↔ _
      unfold balArraySubtypeContains
      rw [Option.some_inj, Bool.and_eq_true, List.all_eq_true]
      refine ⟨fun h => ⟨desc, rfl, List.forall_mem_cons.mpr ⟨h.2, h.1⟩⟩, fun ⟨desc', heq, h⟩ => ?_⟩
      cases heq
      exact (List.forall_mem_cons.mp h).symm
    | mapping p m =>
      exact ⟨iff_of_false (fun h => by cases h) fun ⟨_, h, _⟩ => (by cases h),
        iff_of_false (fun h => by cases h) hpast⟩
  | mapping st =>
    cases value with
    | list desc =>
      exact ⟨iff_of_false (fun h => by cases h) fun ⟨_, _, h, _⟩ => (by cases h),
        iff_of_false (fun h => by cases h) fun ⟨_, _, _, h, _⟩ => by cases h⟩
    | mapping p m =>
      have htag := hp p m rfl
      constructor
      · refine (contains_eq_true_iff htag st).trans ⟨fun h => ⟨p, m, rfl, h⟩, fun ⟨_, _, heq, h⟩ => ?_⟩
        cases heq
        exact h
      · show st.contains rt.eq rt.key p m = none ↔ _
        cases st with
        | map bitSet => exact iff_of_false (fun h => by cases h) fun ⟨_, _, _, _, h, _⟩ => by cases h
        | record fields =>
          show balRecordSubtypeContains _ _ p m = none ↔ _
          unfold balRecordSubtypeContains
          rw [if_neg (not_not.mpr htag), List.length_map]
          by_cases hlen : fields.length = m.desc.fieldTypes.length
          · rw [if_neg (not_not.mpr hlen), recordFieldsContain_eq_none_iff
              (by rw [List.length_map, hlen, Nat.zero_add])]
            refine ⟨fun ⟨n, hn, hpast, h⟩ => ?_, fun ⟨_, _, _, hval, hst, _, n, hn, hpast, h⟩ => ?_⟩
            · rw [List.length_map] at hn
              rw [Nat.zero_add] at hpast
              refine ⟨p, m, fields, rfl, rfl, hlen, n, hn, hpast, fun i f hi hf => ?_⟩
              have hfits := h i (rt.key f.1, f.2) hi (by rw [List.getElem?_map, hf]; rfl)
              rwa [Nat.zero_add] at hfits
            · cases hval
              cases hst
              refine ⟨n, by rwa [List.length_map], by rwa [Nat.zero_add], fun i tf hi htf => ?_⟩
              rw [List.getElem?_map, Option.map_eq_some_iff] at htf
              obtain ⟨f, hf, rfl⟩ := htf
              rw [Nat.zero_add]
              exact h i f hi hf
          · rw [if_pos hlen]
            refine iff_of_false (fun h => by cases h) fun ⟨_, _, _, hval, hst, hlen', _⟩ => ?_
            cases hval
            cases hst
            exact hlen hlen'

/-- A value is tested for `tested` by its descriptor: the tag alone is not enough, and the part of
the type that has the value's basic type is an array, a map or a closed record of basic types. -/
def ByDescriptor (den : SemType → Set V) (code : V → BasicTypeCode) (env : Env)
    (value : StructureValue K) (curSemType tested : SemType) (st : DescriptorStruct) : Prop :=
  ¬ den curSemType ∩ {v | (widenToBasicTypes tested).getLsbD (code v) = true} ⊆ den tested ∧
  ∃ d, subtypeData tested value.code = some (.proper d) ∧
    value.descriptorStruct env (basicSubtype value.code d) = some (some st)

theorem ByDescriptor.unique {st st' : DescriptorStruct}
    (h : ByDescriptor den code env value curSemType tested st)
    (h' : ByDescriptor den code env value curSemType tested st') : st = st' := by
  obtain ⟨-, d, hd, hst⟩ := h
  obtain ⟨-, d', hd', hst'⟩ := h'
  rw [hd] at hd'
  cases hd'
  rw [hst] at hst'
  cases hst'
  rfl

/-- The inherent type passes the test for a type: its descriptor fits, if that is asked, and else it
is a subtype. -/
def Passes (den : SemType → Set V) (code : V → BasicTypeCode) (env : Env)
    (rt : MappingRuntime K MemberType) (value : StructureValue K)
    (curSemType inherent tested : SemType) : Prop :=
  (∃ st, ByDescriptor den code env value curSemType tested st ∧ st.Fits rt value) ∨
    (∀ st, ¬ ByDescriptor den code env value curSemType tested st) ∧ den inherent ⊆ den tested

/-- The test for a record reads past the fields of the value. -/
def ReadsPast (den : SemType → Set V) (code : V → BasicTypeCode) (env : Env)
    (rt : MappingRuntime K MemberType) (value : StructureValue K) (curSemType tested : SemType) : Prop :=
  ∃ st, ByDescriptor den code env value curSemType tested st ∧ st.ReadsPast rt value

/-- The result of a test. -/
structure Answer (den : SemType → Set V) (code : V → BasicTypeCode) (env : Env)
    (rt : MappingRuntime K MemberType) (value : StructureValue K)
    (curSemType inherent tested : SemType) (r : Option Bool) : Prop where
  passes : r = some true ↔ Passes den code env rt value curSemType inherent tested
  readsPast : r = none ↔ ReadsPast den code env rt value curSemType tested

theorem Answer.of_descriptor (hp : ∀ p m, value = .mapping p m → utTag p = tagMapping)
    {st : DescriptorStruct} (h : ByDescriptor den code env value curSemType tested st) :
    Answer den code env rt value curSemType inherent tested (st.contains rt value) := by
  obtain ⟨htrue, hnone⟩ := DescriptorStruct.contains_spec hp st
  refine ⟨htrue.trans ⟨fun hfits => .inl ⟨st, h, hfits⟩, ?_⟩,
    hnone.trans ⟨fun hpast => ⟨st, h, hpast⟩, fun ⟨st', h', hpast⟩ => h'.unique h ▸ hpast⟩⟩
  rintro (⟨st', h', hfits⟩ | ⟨hno, _⟩)
  · exact h'.unique h ▸ hfits
  · exact absurd h (hno st)

theorem Answer.of_subtype (hno : ∀ st, ¬ ByDescriptor den code env value curSemType tested st)
    {b : Bool} (hb : b = true ↔ den inherent ⊆ den tested) :
    Answer den code env rt value curSemType inherent tested (some b) where
  passes := by
    rw [Option.some_inj, hb]
    exact ⟨fun hsub => .inr ⟨hno, hsub⟩, fun h => h.elim (fun ⟨st, hst, _⟩ => absurd hst (hno st)) And.right⟩
  readsPast := iff_of_false (fun h => by cases h) fun ⟨st, hst, _⟩ => hno st hst

/-- Whether the values of the inherent type are in a set that is told by the basic type alone. -/
theorem Tested.subset_iff (ht : Tested den Ty code env constructTypes value tid curSemType semType inherent)
    {s : Set V} {P : Prop} (h : ∀ v, code v = value.code → (v ∈ s ↔ P)) : den inherent ⊆ s ↔ P := by
  obtain ⟨v, hv⟩ := ht.nonempty
  exact ⟨fun hsub => (h v (ht.code_eq v hv)).mp (hsub hv), fun hP w hw => (h w (ht.code_eq w hw)).mpr hP⟩

theorem Tested.not_both (ht : Tested den Ty code env constructTypes value tid curSemType semType inherent)
    (hsub : den inherent ⊆ den semType) : den inherent ∩ den semType ≠ ∅ := by
  intro hempty
  rw [Set.inter_eq_left.mpr hsub] at hempty
  exact ht.nonempty.ne_empty hempty

theorem testTypeAsBasicBitSet_ensures (hx : CodedTypes den Ty code) (hcur : Ty curSemType)
    (htested : Ty tested) :
    (testTypeAsBasicBitSet curSemType tested).Ensures R Ty (EmptyRight den) fun r =>
      (den curSemType ∩ {v | (widenToBasicTypes tested).getLsbD (code v) = true} ⊆ den tested ∧
        r = some (widenToBasicTypes tested)) ∨
      ¬ den curSemType ∩ {v | (widenToBasicTypes tested).getLsbD (code v) = true} ⊆ den tested ∧
        r = none := by
  have hbits := hx.widen htested
  obtain ⟨i, hi, hity, hiden⟩ := hx.exact.intersect hcur hbits
  obtain ⟨d, hd, hdty, hdden⟩ := hx.exact.diff hity htested
  unfold testTypeAsBasicBitSet
  refine Prog.Ensures.ofOption hi (Prog.Ensures.ofOption hd ((isEmpty_ensures hdty).bind fun b hb => ?_))
  rw [hdden, Set.sdiff_eq_empty, hiden, hx.den_bits hbits] at hb
  cases b with
  | true => exact .inl ⟨hb.mp rfl, rfl⟩
  | false => exact .inr ⟨fun h => Bool.false_ne_true (hb.mpr h), rfl⟩

/-- A test gives its answer. -/
theorem buildTypeTestedValue_ensures (hx : CodedTypes den Ty code)
    (ht : Tested den Ty code env constructTypes value tid curSemType semType inherent)
    (htested : Ty tested) :
    (buildTypeTestedValue env constructTypes rt value tid curSemType tested).Ensures R Ty
      (EmptyRight den) (Answer den code env rt value curSemType inherent tested) := by
  unfold buildTypeTestedValue
  refine (testTypeAsBasicBitSet_ensures hx ht.cur htested).bind fun r hr => ?_
  rcases hr with ⟨hwithin, rfl⟩ | ⟨hwithin, rfl⟩
  · -- the tag is enough
    refine Answer.of_subtype (fun st h => h.1 hwithin) ⟨fun hbit v hv => ?_, fun hsub => ?_⟩
    · refine hwithin ⟨ht.subset hv, ?_⟩
      rw [Set.mem_ofPred_eq, ht.code_eq v hv]
      exact hbit
    · obtain ⟨v, hv⟩ := ht.nonempty
      have hbit := hx.den_widen htested (hsub hv)
      rwa [Set.mem_ofPred_eq, ht.code_eq v hv] at hbit
  · obtain ⟨data, hdata, hbool, hproper⟩ := hx.data htested value.code
    unfold typeContains
    refine Prog.Ensures.ofOption hdata ?_
    cases data with
    | bool b =>
      refine Answer.of_subtype (fun st h => ?_) (ht.subset_iff (hbool b rfl)).symm
      obtain ⟨-, d, hd, -⟩ := h
      rw [hdata] at hd
      cases hd
    | proper d =>
      obtain ⟨hpart, hden⟩ := hproper d rfl
      obtain ⟨descriptor, hdescriptor⟩ := Option.isSome_iff_exists.mp (ht.descriptor _ hpart)
      unfold structureContains
      refine Prog.Ensures.ofOption hdescriptor ?_
      cases descriptor with
      | some st => exact Answer.of_descriptor ht.tag ⟨hwithin, d, hdata, hdescriptor⟩
      | none =>
        refine (precomputed_ensures hx.exact ht.construct ht.tid_eq hpart).bind fun tids htids => ?_
        obtain ⟨b, hres, hb⟩ := htids
        have hsame : den inherent ⊆ den (basicSubtype value.code d) ↔ den inherent ⊆ den tested :=
          forall₂_congr fun v hv => hden v (ht.code_eq v hv)
        show Answer _ _ _ _ _ _ _ _ (balPrecomputedSubtypeContains tids tid)
        rw [hres]
        refine Answer.of_subtype (fun st h => ?_) (hb.trans hsame)
        obtain ⟨-, d', hd', hst⟩ := h
        rw [hdata] at hd'
        cases hd'
        rw [hdescriptor] at hst
        cases hst

/-- What a branch does: it is known when the static type is within `T` or apart from it, and
otherwise what the test answers. -/
theorem condBranch_ensures (rt : MappingRuntime K MemberType) (hx : CodedTypes den Ty code)
    (ht : Tested den Ty code env constructTypes value tid curSemType semType inherent) (negated : Bool) :
    (condBranch env constructTypes rt value tid curSemType semType negated).Ensures R Ty
      (EmptyRight den) fun r =>
      (den curSemType ⊆ den semType ∧ r = some !negated) ∨
      ¬ den curSemType ⊆ den semType ∧
        ((den curSemType ∩ den semType = ∅ ∧ r = some negated) ∨
          den curSemType ∩ den semType ≠ ∅ ∧ ∃ t, TestedType den curSemType semType negated t ∧
            Answer den code env rt value curSemType inherent t r) := by
  unfold condBranch
  refine (codeGenTypeTestForCond_ensures hx.exact ht.cur ht.type negated).bind fun e he => ?_
  rcases he with ⟨rfl, hsub⟩ | ⟨hnot, ⟨rfl, hdisj⟩ | ⟨hne, t, t1, t2, rfl, htype⟩⟩
  · exact .inl ⟨hsub, rfl⟩
  · exact .inr ⟨hnot, .inl ⟨hdisj, rfl⟩⟩
  · have hty := (htype.den_eq hx.exact ht.cur ht.type).1
    exact (buildTypeTestedValue_ensures hx ht hty).imp fun r hr =>
      .inr ⟨hnot, .inr ⟨hne, t, htype, hr⟩⟩

/-- When the branches are opposite: the static type is within `T` or apart from it, or the inherent
type passes exactly one of the tests, that for the intersection and that for the difference, and
neither reads past the fields of the value. -/
def Opposite (den : SemType → Set V) (code : V → BasicTypeCode) (env : Env)
    (rt : MappingRuntime K MemberType) (value : StructureValue K)
    (curSemType semType inherent : SemType) : Prop :=
  den curSemType ⊆ den semType ∨ den curSemType ∩ den semType = ∅ ∨
    ∃ t t', TestedType den curSemType semType false t ∧ TestedType den curSemType semType true t' ∧
      ¬ ReadsPast den code env rt value curSemType t ∧
      ¬ ReadsPast den code env rt value curSemType t' ∧
      (Passes den code env rt value curSemType inherent t ↔
        ¬ Passes den code env rt value curSemType inherent t')

/-- For tests that do not use the descriptor: the inherent type is a subtype of `T`, or has no value
in common with it. -/
theorem opposite_iff_of_no_descriptor (hx : CodedTypes den Ty code)
    (ht : Tested den Ty code env constructTypes value tid curSemType semType inherent)
    (hno : ∀ negated t, TestedType den curSemType semType negated t →
      ∀ st, ¬ ByDescriptor den code env value curSemType t st) :
    Opposite den code env rt value curSemType semType inherent ↔
      den inherent ⊆ den semType ∨ den inherent ∩ den semType = ∅ := by
  have hpasses : ∀ {negated t}, TestedType den curSemType semType negated t →
      (Passes den code env rt value curSemType inherent t ↔ den inherent ⊆ den t) := by
    intro negated t h
    exact ⟨fun hp => hp.elim (fun ⟨st, hst, _⟩ => absurd hst (hno _ _ h st)) And.right,
      fun hsub => .inr ⟨hno _ _ h, hsub⟩⟩
  have his : ∀ {t}, TestedType den curSemType semType false t →
      (Passes den code env rt value curSemType inherent t ↔ den inherent ⊆ den semType) := by
    intro t h
    rw [hpasses h, (h.den_eq hx.exact ht.cur ht.type).2, if_neg Bool.false_ne_true,
      Set.subset_inter_iff]
    exact and_iff_right ht.subset
  have hisNot : ∀ {t}, TestedType den curSemType semType true t →
      (Passes den code env rt value curSemType inherent t ↔ den inherent ∩ den semType = ∅) := by
    intro t h
    rw [hpasses h, (h.den_eq hx.exact ht.cur ht.type).2, if_pos rfl, Set.subset_sdiff,
      Set.disjoint_iff_inter_eq_empty]
    exact and_iff_right ht.subset
  constructor
  · rintro (hsub | hdisj | ⟨t, t', htype, htype', _, _, hone⟩)
    · exact .inl (ht.subset.trans hsub)
    · exact .inr (Set.subset_eq_empty (Set.inter_subset_inter_left _ ht.subset) hdisj)
    · rw [his htype, hisNot htype'] at hone
      by_cases hsub : den inherent ⊆ den semType
      · exact .inl hsub
      · exact .inr (not_not.mp fun hne => hsub (hone.mpr hne))
  · intro h
    obtain ⟨t, htype⟩ : ∃ t, TestedType den curSemType semType false t := by
      by_cases hle : den semType ⊆ den curSemType
      · exact ⟨_, .subtype hle⟩
      · obtain ⟨t, hi, -⟩ := hx.exact.intersect ht.cur ht.type
        exact ⟨t, .intersection hle hi⟩
    obtain ⟨t', hd, -⟩ := hx.exact.diff ht.cur ht.type
    have htype' : TestedType den curSemType semType true t' := .isNot hd
    refine .inr (.inr ⟨t, t', htype, htype', fun ⟨st, hst, _⟩ => hno _ _ htype st hst,
      fun ⟨st, hst, _⟩ => hno _ _ htype' st hst, ?_⟩)
    rw [his htype, hisNot htype']
    exact ⟨fun hsub => ht.not_both hsub, fun hne => h.resolve_right hne⟩

end Branch

end Exact

/-! ## Arrays -/

def intItem := cellContaining Env.init (.bits (basicType BT_INT ||| UNDEF)) .limited

def intStringItem :=
  cellContaining intItem.2 (.bits (basicType BT_INT ||| STRING ||| UNDEF)) .limited

/-- `int[]` -/
def intArray := ListDefinition.define {} intStringItem.2 [] 0 intItem.1

/-- `(int|string)[]` -/
def intStringArray := ListDefinition.define {} intArray.2.2 [] 0 intStringItem.1

/-- All lists but those of the type `int[]`. -/
def otherList [BddIdentity] : SemType := (diff ops (.bits LIST) intArray.1).getD NEVER

/-- The types made from `int[]`, of lists that are of this type and lists that are not. -/
def arrayTypes [BddIdentity] : List SemType := [NEVER, .bits LIST, intArray.1, otherList]

def arrayTypesHave [BddIdentity] (t : SemType) (isIntArray : Bool) : Bool :=
  t == .bits LIST || t == if isIntArray then intArray.1 else otherList

deriving instance DecidableEq for SubtypeDataOf

def properData : SemType → List ProperSubtypeData
  | .bits _ => []
  | .complex c => c.subtypeDataList

theorem closedTable_arrayTypes :
    let _ := BddIdentity.shared
    ClosedTable arrayTypes arrayTypesHave := by
  decide +kernel

theorem arrayTypes_widen :
    let _ := BddIdentity.shared
    ∀ t ∈ arrayTypes, .bits (widenToBasicTypes t) ∈ arrayTypes ∧
      (∀ v, arrayTypesHave (.bits (widenToBasicTypes t)) v = (widenToBasicTypes t).getLsbD BT_LIST) ∧
      ∀ v, arrayTypesHave t v = true → (widenToBasicTypes t).getLsbD BT_LIST = true := by
  decide +kernel

theorem arrayTypes_data :
    let _ := BddIdentity.shared
    ∀ t ∈ arrayTypes, ∀ c : BasicTypeCode,
      (∃ b, subtypeData t c = some (.bool b) ∧ (c = BT_LIST → ∀ v, arrayTypesHave t v = b)) ∨
        ∃ d ∈ properData t, subtypeData t c = some (.proper d) ∧ basicSubtype c d = t := by
  decide +kernel

/-- On these types the operations are exact. -/
theorem codedTypes_arrayTypes :
    let _ := BddIdentity.shared
    CodedTypes (fun t => {v | arrayTypesHave t v = true}) (· ∈ arrayTypes) fun _ => BT_LIST := by
  intro _
  refine ⟨exactTypes_of_table closedTable_arrayTypes, fun ht => (arrayTypes_widen _ ht).1, ?_,
    fun ht v => (arrayTypes_widen _ ht).2.2 v, ?_⟩
  · intro b hb
    ext v
    exact Bool.eq_iff_iff.mp ((arrayTypes_widen _ hb).2.1 v)
  · intro t ht c
    rcases arrayTypes_data t ht c with ⟨b, hb, hv⟩ | ⟨d, -, hd, hpart⟩
    · refine ⟨_, hb, fun b' heq v hc => ?_, fun d h => by cases h⟩
      cases heq
      show arrayTypesHave t v = true ↔ _
      rw [hv hc.symm]
    · refine ⟨_, hd, fun b h => by (cases h), fun d' heq => ?_⟩
      cases heq
      rw [hpart]
      exact ⟨ht, fun _ _ => Iff.rfl⟩

/-- `isEmpty` of these types. -/
def arrayTypesIsEmpty [BddIdentity] (t : SemType) (s : Unit) : Outcome Unit Bool :=
  .done (decide (∀ v, arrayTypesHave t v = false)) s

theorem arrayTypesIsEmpty_right [BddIdentity] (t : SemType) :
    EmptyRight (fun t => {v | arrayTypesHave t v = true}) t
      (decide (∀ v, arrayTypesHave t v = false)) := by
  unfold EmptyRight
  rw [decide_eq_true_iff, Set.eq_empty_iff_forall_notMem]
  exact forall_congr' fun v => (Bool.not_eq_true _).symm.to_iff

/-- What a run returns. -/
def returned {S α : Type} : Outcome S α → Option α
  | .done a _ => some a
  | _ => none

end Nballerina.Nback
