import Nballerina.Nback.MappingFields
import Nballerina.Types.Define

/-!
# Type tests of mappings by their descriptor

A type test for a closed record type whose fields are bit sets, or for a map of a bit set, is
done by `_bal_record_subtype_contains` or `_bal_map_subtype_contains` on the descriptor of the
value (`createMappingSubtypeStruct` in `nback/init.bal`). The tests compare bit sets, and the
record test also the names of the value by position. This file says what the two tests do not
look at (`UncheckedRight`): an answer `true` is wrong exactly when the inherent type of the value
is open (record test), can change a member that the tested type has as `readonly`, or allows a
table that the tested type does not (`subtypeContains_sound_iff`).

Mirroring notes:
- The structures with a function `contains` for the parts of basic types are a parameter
  (`contains`); the tests look at the bit sets alone.
- The cells are those that `defineMappingTypeWrapped` makes, with mutability none or limited.
- Descriptors of other tests (`createPrecomputedSubtypeStruct`) are `none` here; `Nback/TypeTest.lean`
  has them.
-/

namespace Nballerina.Nback

open Nballerina.Lib Nballerina.Types Nballerina.Runtime

/-! ## What the backend emits -/

def TABLE : BasicTypeBitSet := basicType BT_TABLE

/-- `getMemberType` with `addComplexTypeDefn`, which ignores the part of basic type table. -/
def getMemberType (contains : SemType → Nat → TaggedPtr → Bool) : SemType → MemberType
  | .bits b => .bitSet b
  | .complex c =>
    let someBits := c.some &&& ~~~TABLE
    .complex ⟨c.all, someBits,
      ((List.range 32).filter someBits.getLsbD).map fun code => contains (.complex c) code, by
        rw [List.length_map]
        exact List.countP_eq_length_filter.symm⟩

section Emitted

variable [BddIdentity]

def createMappingDescInit (contains : SemType → Nat → TaggedPtr → Bool)
    (mat : MappingAtomicType) : Option (MappingDesc MemberType) := do
  let fieldTypes ← mat.types.mapM fun ty => (cellInner ty).map (getMemberType contains)
  let rest ← cellInnerVal mat.rest
  some ⟨getMemberType contains rest, fieldTypes⟩

inductive MappingSubtype where
  | record (fields : List (String × BitSet))
  | map (bitSet : BitSet)

/-- The loop of `createMappingSubtypeStruct`, which ends at the first type that is no bit set. -/
def fieldBitSets : List SemType → Option (List BasicTypeBitSet)
  | [] => some []
  | ty :: types => do
    match ← cellInner ty with
    | .bits b =>
      let bitSets ← fieldBitSets types
      some (b :: bitSets)
    | .complex _ => some []

def createMappingSubtypeStruct (mat : MappingAtomicType) : Option MappingSubtype := do
  let rest ← cellInnerVal mat.rest
  if rest = .bits 0 then
    let fieldTypes ← fieldBitSets mat.types
    -- all bitsets
    if fieldTypes.length = mat.types.length then some (.record (mat.names.zip fieldTypes))
    else none
  else match rest with
    | .bits bitSet => if mat.names.length = 0 then some (.map bitSet) else none
    | .complex _ => none

end Emitted

variable {K : Type}

def MappingSubtype.contains (eq : K → K → Bool) (key : String → K) (p : TaggedPtr)
    (m : Mapping K MemberType) : MappingSubtype → Option Bool
  | .record fields => balRecordSubtypeContains eq (fields.map fun f => (key f.1, f.2)) p m
  | .map bitSet => some (balMapSubtypeContains bitSet p m)

/-! ## What is in the structures -/

theorem mapM_eq_some {α β : Type} {f : α → Option β} : ∀ {l : List α} {l' : List β},
    l.mapM f = some l' → l'.length = l.length ∧
      ∀ (i : Nat) (a : α), l[i]? = some a → ∃ b, l'[i]? = some b ∧ f a = some b
  | [], l', h => by
    obtain rfl := Option.some.inj h
    exact ⟨rfl, fun i a hi => by cases hi⟩
  | a :: l, l', h => by
    rw [List.mapM_cons, Option.bind_eq_bind, Option.bind_eq_some_iff] at h
    obtain ⟨b, hb, h⟩ := h
    obtain ⟨bs, hbs, h⟩ := Option.bind_eq_some_iff.mp h
    obtain rfl := Option.some.inj h
    obtain ⟨hlen, hget⟩ := mapM_eq_some hbs
    refine ⟨congrArg Nat.succ hlen, fun i a' hi => ?_⟩
    cases i with
    | zero =>
      obtain rfl := Option.some.inj hi
      exact ⟨b, rfl, hb⟩
    | succ i => exact hget i a' hi

/-- When all types are bit sets, the loop gives all of them. -/
theorem fieldBitSets_eq_some {types : List SemType} {bitSets : List BasicTypeBitSet}
    (h : fieldBitSets types = some bitSets) (hlen : bitSets.length = types.length) :
    ∀ (i : Nat) (t : SemType), types[i]? = some t →
      ∃ b, bitSets[i]? = some b ∧ cellInner t = some (.bits b) := by
  induction types generalizing bitSets with
  | nil => exact fun i t hi => by cases hi
  | cons ty types ih =>
    rw [fieldBitSets, Option.bind_eq_bind, Option.bind_eq_some_iff] at h
    obtain ⟨inner, hinner, h⟩ := h
    cases inner with
    | complex c =>
      obtain rfl := Option.some.inj h
      cases hlen
    | bits b =>
      dsimp only at h
      obtain ⟨bs, hbs, h⟩ := Option.bind_eq_some_iff.mp h
      obtain rfl := Option.some.inj h
      intro i t hi
      cases i with
      | zero =>
        obtain rfl := Option.some.inj hi
        exact ⟨b, rfl, hinner⟩
      | succ i => exact ih hbs (Nat.succ.inj hlen) i t hi

section Structures

variable [BddIdentity] {mat : MappingAtomicType}

/-- The descriptor has the member type of each field and of the rest. -/
theorem createMappingDescInit_eq_some {contains : SemType → Nat → TaggedPtr → Bool}
    {desc : MappingDesc MemberType} (h : createMappingDescInit contains mat = some desc) :
    desc.fieldTypes.length = mat.types.length ∧
    (∀ (i : Nat) (t : SemType), mat.types[i]? = some t → ∃ ty, cellInner t = some ty ∧
      desc.fieldTypes[i]? = some (getMemberType contains ty)) ∧
    ∃ ty, cellInnerVal mat.rest = some ty ∧ desc.restType = getMemberType contains ty := by
  unfold createMappingDescInit at h
  obtain ⟨fieldTypes, hfields, h⟩ := Option.bind_eq_some_iff.mp h
  obtain ⟨rest, hrest, h⟩ := Option.bind_eq_some_iff.mp h
  obtain rfl := Option.some.inj h
  obtain ⟨hlen, hget⟩ := mapM_eq_some hfields
  refine ⟨hlen, fun i t hi => ?_, rest, hrest, rfl⟩
  obtain ⟨ty', hi', hty'⟩ := hget i t hi
  obtain ⟨ty, hty, rfl⟩ := Option.map_eq_some_iff.mp hty'
  exact ⟨ty, hty, hi'⟩

/-- A record structure is made for a closed type whose fields are bit sets, a map structure
for a type without fields whose rest is a bit set. -/
theorem createMappingSubtypeStruct_eq_some {st : MappingSubtype}
    (h : createMappingSubtypeStruct mat = some st) :
    (∃ bitSets, st = .record (mat.names.zip bitSets) ∧ bitSets.length = mat.types.length ∧
      cellInnerVal mat.rest = some (.bits 0) ∧
      ∀ (i : Nat) (t : SemType), mat.types[i]? = some t →
        ∃ b, bitSets[i]? = some b ∧ cellInner t = some (.bits b)) ∨
    ∃ b, st = .map b ∧ cellInnerVal mat.rest = some (.bits b) ∧ mat.names = [] := by
  unfold createMappingSubtypeStruct at h
  obtain ⟨rest, hrest, h⟩ := Option.bind_eq_some_iff.mp h
  split at h
  next hnever =>
    obtain ⟨bitSets, hbits, h⟩ := Option.bind_eq_some_iff.mp h
    split at h
    next hlen =>
      obtain rfl := Option.some.inj h
      rw [hnever] at hrest
      exact Or.inl ⟨bitSets, rfl, hlen, hrest, fieldBitSets_eq_some hbits hlen⟩
    next => cases h
  next =>
    cases rest with
    | complex c => cases h
    | bits b =>
      dsimp only at h
      split at h
      next hlen =>
        obtain rfl := Option.some.inj h
        exact Or.inr ⟨b, rfl, hrest, List.eq_nil_of_length_eq_zero hlen⟩
      next => cases h

end Structures

/-! ## Member types by their bits -/

/-- The test of a bit set, basic type by basic type. -/
theorem memberTypeIsSubtypeSimple_iff (memberType : MemberType) (bitSet : BitSet) :
    memberTypeIsSubtypeSimple memberType bitSet = true ↔
      ∀ i, (memberBitSet memberType).getLsbD i = true → bitSet.getLsbD i = true := by
  unfold memberTypeIsSubtypeSimple
  rw [beq_iff_eq]
  refine ⟨fun h i hi => ?_, fun h => BitVec.eq_of_getLsbD_eq fun i hi => ?_⟩
  · have hlt : i < 32 := BitVec.lt_of_getLsbD hi
    have hbit := congrArg (·.getLsbD i) h
    simp only [BitVec.getLsbD_and, hi, BitVec.getLsbD_not, hlt, BitVec.getLsbD_zero,
      Bool.true_and, decide_true, Bool.not_eq_false'] at hbit
    exact hbit
  · rw [BitVec.getLsbD_and, BitVec.getLsbD_not, BitVec.getLsbD_zero]
    cases hm : (memberBitSet memberType).getLsbD i with
    | false => rfl
    | true => rw [h i hm, Bool.not_true, Bool.and_false, Bool.and_false]

theorem getLsbD_TABLE : ∀ code : BasicTypeCode, code ≠ BT_TABLE → TABLE.getLsbD code = false := by
  decide

/-- The bits of a member type are those of the type, except that of a part of table. -/
theorem getLsbD_getMemberType (contains : SemType → Nat → TaggedPtr → Bool) {ty : SemType}
    {code : BasicTypeCode} (h : (widenToBasicTypes ty).getLsbD code = true)
    (htable : code ≠ BT_TABLE) :
    (memberBitSet (getMemberType contains ty)).getLsbD code = true := by
  cases ty with
  | bits b => exact h
  | complex c =>
    show (c.all ||| c.some &&& ~~~TABLE).getLsbD code = true
    have h : (c.all ||| c.some).getLsbD code = true := h
    rw [BitVec.getLsbD_or, Bool.or_eq_true] at h ⊢
    rcases h with h | h
    · exact Or.inl h
    · refine Or.inr ?_
      rw [BitVec.getLsbD_and, BitVec.getLsbD_not, h, getLsbD_TABLE code htable]
      have hlt : code.val < 32 := by omega
      rw [decide_eq_true hlt]
      rfl

/-! ## The members of a mapping -/

/-- What a type of members stands for: a set of shapes, each of one basic type; the shape
`undef` stands for an absent member. -/
structure Shapes (I : Type) where
  undef : I
  code : I → BasicTypeCode
  den : SemType → Set I
  den_bits : ∀ b, den (.bits b) = {x | b.getLsbD (code x) = true}
  den_widen : ∀ t, ∀ x ∈ den t, (widenToBasicTypes t).getLsbD (code x) = true

/-- A member of a mapping with the shapes that can be stored there. One that cannot be changed
has one shape, and an absent member cannot be changed. -/
structure Member {I : Type} (S : Shapes I) where
  isMutable : Bool
  shapes : Set I
  nonempty : shapes.Nonempty
  single : isMutable = false → ∃ x, shapes = {x}
  defined : isMutable = true → shapes ≠ {S.undef}

section Members

variable {I : Type} {S : Shapes I}

/-- A member that cannot be changed. -/
def Shapes.fixed (S : Shapes I) (x : I) : Member S :=
  ⟨false, {x}, Set.singleton_nonempty x, fun _ => ⟨x, rfl⟩, fun h => by cases h⟩

def Shapes.absent (S : Shapes I) : Member S := S.fixed S.undef

/-- The members of a cell type. -/
def Shapes.cellDen (S : Shapes I) (t : SemType) : Set (Member S) :=
  {v | ∃ c, cellAtomicType t = some c ∧ v.shapes ⊆ S.den c.ty ∧
    (v.isMutable = true → c.mutability ≠ .none)}

variable {c : CellAtomicType}

theorem mem_cellDen {t : SemType} (hc : cellAtomicType t = some c) {v : Member S} : v ∈ S.cellDen t ↔
      v.shapes ⊆ S.den c.ty ∧ (v.isMutable = true → c.mutability ≠ .none) := by
  refine ⟨fun ⟨c', hc', h⟩ => ?_, fun h => ⟨c, hc, h⟩⟩
  rw [hc] at hc'
  obtain rfl := Option.some.inj hc'
  exact h

theorem fixed_mem_cellDen {t : SemType} (hc : cellAtomicType t = some c) {x : I} :
    S.fixed x ∈ S.cellDen t ↔ x ∈ S.den c.ty := by
  rw [mem_cellDen hc]
  refine ⟨fun h => h.1 rfl, fun h => ⟨?_, fun h => by cases h⟩⟩
  exact Set.singleton_subset_iff.mpr h

theorem fixed_injective {x y : I} (h : S.fixed x = S.fixed y) : x = y :=
  Set.singleton_injective (congrArg Member.shapes h)

/-- An absent member is the only one whose shapes are no others. -/
theorem eq_absent_of_subset {v : Member S} (h : v.shapes ⊆ {S.undef}) : v = S.absent := by
  have hshapes : v.shapes = {S.undef} := (v.nonempty.subset_singleton_iff).mp h
  have hmut : v.isMutable = false :=
    Bool.eq_false_iff.mpr fun h => v.defined h hshapes
  obtain ⟨isMutable, shapes, _, _, _⟩ := v
  obtain rfl : isMutable = false := hmut
  obtain rfl : shapes = {S.undef} := hshapes
  rfl

/-- All members of the cell type are absent. -/
theorem cellDen_absent_iff {t : SemType} (hc : cellAtomicType t = some c) :
    (∀ v ∈ S.cellDen t, v = S.absent) ↔ S.den c.ty ⊆ {S.undef} := by
  refine ⟨fun h x hx => ?_, fun h v hv => ?_⟩
  · exact fixed_injective (h _ ((fixed_mem_cellDen hc).mpr hx))
  · exact eq_absent_of_subset (((mem_cellDen hc).mp hv).1.trans h)

/-- What a test of bit sets leaves open between two cell types: a cell that cannot be changed,
and shapes of tables. -/
def CellFits (S : Shapes I) (t1 t2 : SemType) : Prop :=
  ∀ c1 c2, cellAtomicType t1 = some c1 → cellAtomicType t2 = some c2 →
    (c2.mutability = .none → c1.mutability = .none ∨ S.den c1.ty ⊆ {S.undef}) ∧
    ∀ x ∈ S.den c1.ty, S.code x = BT_TABLE → x ∈ S.den c2.ty

theorem cellDen_subset_iff {t1 t2 : SemType} {c1 c2 : CellAtomicType}
    (hc1 : cellAtomicType t1 = some c1) (hc2 : cellAtomicType t2 = some c2)
    (hbits : ∀ x ∈ S.den c1.ty, S.code x ≠ BT_TABLE → x ∈ S.den c2.ty) :
    S.cellDen t1 ⊆ S.cellDen t2 ↔ CellFits S t1 t2 := by
  refine ⟨fun h d1 d2 hd1 hd2 => ?_, fun h v hv => ?_⟩
  · obtain rfl := Option.some.inj (hc1.symm.trans hd1)
    obtain rfl := Option.some.inj (hc2.symm.trans hd2)
    refine ⟨fun hnone => ?_, fun x hx _ => ?_⟩
    · by_contra hnot
      rw [not_or] at hnot
      obtain ⟨x, hx, hne⟩ := Set.not_subset.mp hnot.2
      -- a member that can be changed
      let v : Member S := ⟨true, {x}, Set.singleton_nonempty x, (fun h => by cases h),
        fun _ heq => hne (Set.singleton_injective heq)⟩
      have hv : v ∈ S.cellDen t1 :=
        (mem_cellDen hc1).mpr ⟨Set.singleton_subset_iff.mpr hx, fun _ => hnot.1⟩
      exact ((mem_cellDen hc2).mp (h hv)).2 rfl hnone
    · exact (fixed_mem_cellDen hc2).mp (h ((fixed_mem_cellDen hc1).mpr hx))
  · obtain ⟨hmut, htable⟩ := h c1 c2 hc1 hc2
    obtain ⟨hshapes, hv⟩ := (mem_cellDen hc1).mp hv
    refine (mem_cellDen hc2).mpr ⟨fun x hx => ?_, fun hm hnone => ?_⟩
    · by_cases hcode : S.code x = BT_TABLE
      · exact htable x (hshapes hx) hcode
      · exact hbits x (hshapes hx) hcode
    · rcases hmut hnone with hnone1 | hundef
      · exact hv hm hnone1
      · have habsent := eq_absent_of_subset (hshapes.trans hundef)
        rw [habsent] at hm
        cases hm

end Members

/-! ## When the tests are right -/

section Test

variable [BddIdentity] {I : Type} {S : Shapes I} {inherent mat : MappingAtomicType}

/-- The types of the fields and of the rest are cells, and `cellInnerVal` takes the absent
member from that of the rest. -/
structure FieldCells (S : Shapes I) (mat : MappingAtomicType) : Prop where
  cells : mat.Over fun t => ∃ c, cellAtomicType t = some c ∧ c.mutability ≠ .unlimited
  restVal : ∀ ty c, cellInnerVal mat.rest = some ty → cellAtomicType mat.rest = some c →
    S.den ty = S.den c.ty \ {S.undef}
  absent : S.absent ∈ S.cellDen mat.rest

/-- The condition that a test checks. -/
def MappingSubtype.Fits (rt : MappingRuntime K MemberType) (m : Mapping K MemberType) :
    MappingSubtype → Prop
  | .record fields => fields.length = m.desc.fieldTypes.length ∧
    ∀ (i : Nat) (f : String × BitSet), fields[i]? = some f →
      FieldFits rt.eq m i (rt.key f.1, f.2)
  | .map bitSet => (∀ ty ∈ m.desc.fieldTypes, memberTypeIsSubtypeSimple ty bitSet = true) ∧
    memberTypeIsSubtypeSimple m.desc.restType bitSet = true

/-- What a test does not look at: for a record that the inherent type is closed, and for each
cell type that is compared what its bit set does not say. -/
def MappingSubtype.UncheckedRight (S : Shapes I) (inherent mat : MappingAtomicType) :
    MappingSubtype → Prop
  | .record _ => (∀ v ∈ S.cellDen inherent.rest, v = S.absent) ∧
    ∀ (i : Nat) (t1 t2 : SemType), inherent.types[i]? = some t1 → mat.types[i]? = some t2 →
      CellFits S t1 t2
  | .map _ => (∀ t ∈ inherent.types, CellFits S t mat.rest) ∧ CellFits S inherent.rest mat.rest

variable {m : Mapping K MemberType} {desc : MappingDesc MemberType}
  {rt : MappingRuntime K MemberType} {contains : SemType → Nat → TaggedPtr → Bool}

omit [BddIdentity] in
theorem contains_eq_true_iff {p : TaggedPtr} (hp : utTag p = tagMapping) (st : MappingSubtype) :
    st.contains rt.eq rt.key p m = some true ↔ st.Fits rt m := by
  cases st with
  | record fields =>
    show balRecordSubtypeContains _ _ p m = some true ↔ _
    unfold balRecordSubtypeContains
    rw [if_neg (not_not.mpr hp), List.length_map]
    by_cases hlen : fields.length = m.desc.fieldTypes.length
    · rw [if_neg (not_not.mpr hlen), recordFieldsContain_iff]
      refine ⟨fun h => ⟨hlen, fun i f hf => ?_⟩, fun h j tf htf => ?_⟩
      · have hfits := h i (rt.key f.1, f.2) (by rw [List.getElem?_map, hf]; rfl)
        rwa [Nat.zero_add] at hfits
      · rw [List.getElem?_map, Option.map_eq_some_iff] at htf
        obtain ⟨f, hf, rfl⟩ := htf
        rw [Nat.zero_add]
        exact h.2 j f hf
    · rw [if_pos hlen]
      exact iff_of_false (fun h => by cases h) fun h => hlen h.1
  | map bitSet =>
    show some (balMapSubtypeContains bitSet p m) = some true ↔ _
    unfold balMapSubtypeContains
    rw [if_neg (not_not.mpr hp), Option.some_inj, Bool.and_eq_true, List.all_eq_true]
    exact Iff.rfl

omit [BddIdentity] in
/-- A bit set that passes the test has all shapes of the type but tables. -/
theorem den_bits_of_simple {ty : SemType} {b : BasicTypeBitSet}
    (h : memberTypeIsSubtypeSimple (getMemberType contains ty) b = true) :
    ∀ x ∈ S.den ty, S.code x ≠ BT_TABLE → x ∈ S.den (.bits b) := by
  intro x hx htable
  rw [S.den_bits]
  exact (memberTypeIsSubtypeSimple_iff _ _).mp h _
    (getLsbD_getMemberType contains (S.den_widen ty x hx) htable)

omit [BddIdentity] in
theorem memberAt_getElem? (h : mat.Sorted) {i : Nat} {k : String} {t : SemType}
    (hk : mat.names[i]? = some k) (ht : mat.types[i]? = some t) :
    mappingAtomicTypeMemberAt mat k = t := by
  have hmem : (k, t) ∈ mat.fields :=
    List.mem_of_getElem? (List.getElem?_zip_eq_some.mpr ⟨hk, ht⟩)
  exact fieldType_of_mem h.fields.nodup hmem mat.rest

omit [BddIdentity] in
/-- The names of a closed inherent type are those of the tested record type, when the record
test says so of the value. -/
theorem names_eq_of_fits (hinherent : inherent.Sorted)
    (hclosed : ∀ v ∈ S.cellDen inherent.rest, v = S.absent)
    (hdesc : DescOf rt S.cellDen S.absent inherent desc)
    (hlife : Life rt S.cellDen S.absent inherent desc m) (hmat : mat.Sorted) {bitSets : List BitSet}
    (hbits : bitSets.length = mat.types.length)
    (hfits : (MappingSubtype.record (mat.names.zip bitSets)).Fits rt m) :
    inherent.names = mat.names := by
  obtain ⟨names, hsorted, hallowed, hkeys⟩ := hlife.hasKeys hinherent hclosed hdesc
  obtain ⟨last, hinv⟩ := hkeys.inv
  have hnodup : names.Nodup := hsorted.imp fun h => ne_of_lt h
  have hsub : ∀ name ∈ names, name ∈ inherent.names := fun name hname =>
    (hallowed name hname).mem_names hinherent hclosed
  obtain ⟨hlen, hfield⟩ := hfits
  have hzip : (mat.names.zip bitSets).length = mat.names.length := by
    rw [List.length_zip, hbits, ← hmat.length, Nat.min_self]
  have hlen' : mat.names.length = inherent.names.length := by
    rw [← hzip, hlen, hlife.desc_eq, hdesc.fieldTypes]
  -- each name of the tested type is the key at its position
  have hat : ∀ (i : Nat) (name : String), mat.names[i]? = some name →
      names[i]? = some name := by
    intro i name hi
    obtain ⟨b, hb⟩ : ∃ b, bitSets[i]? = some b := by
      have hlt : i < bitSets.length := by
        rw [hbits, ← hmat.length]
        exact (List.getElem?_eq_some_iff.mp hi).1
      exact ⟨_, List.getElem?_eq_getElem hlt⟩
    obtain ⟨member, hmember, heq⟩ :=
      (hfield i (name, b) (List.getElem?_zip_eq_some.mpr ⟨hi, hb⟩)).name
    have htext := (rt.ops.eq_iff _ _ (rt.isString_key name)
      (hkeys.keys member (List.mem_of_getElem? hmember))).mp heq
    rw [rt.text_key] at htext
    rw [← hinv.contents.order_eq, List.getElem?_map, hmember, htext]
    rfl
  have hle : names.length ≤ mat.names.length := by
    rw [hlen']
    exact (hnodup.subperm hsub).length_le
  have hnames : names = mat.names := by
    refine List.ext_getElem? fun i => ?_
    cases hi : mat.names[i]? with
    | some name => exact hat i name hi
    | none =>
      have hge := List.getElem?_eq_none_iff.mp hi
      exact List.getElem?_eq_none (by omega)
  rw [← hnames]
  have hperm : names.Perm inherent.names :=
    (hnodup.subperm hsub).perm_of_length_le (by rw [← hlen', ← hnames])
  refine List.Perm.eq_of_pairwise (fun a b _ _ hab hba => ?_) hinherent.names hsorted hperm.symm
  exact absurd hab (lt_asymm hba)

/-- Between record types with the same names, cell type by cell type. -/
theorem record_subset_iff (hinherent : FieldCells S inherent) (hmat : FieldCells S mat)
    (hclosed : ∀ v ∈ S.cellDen inherent.rest, v = S.absent) (hnames : inherent.names = mat.names)
    (hbits : ∀ (i : Nat) (t1 t2 : SemType) (c1 c2 : CellAtomicType),
      inherent.types[i]? = some t1 → mat.types[i]? = some t2 → cellAtomicType t1 = some c1 →
      cellAtomicType t2 = some c2 →
      ∀ x ∈ S.den c1.ty, S.code x ≠ BT_TABLE → x ∈ S.den c2.ty) :
    (∀ k, S.cellDen (mappingAtomicTypeMemberAt inherent k) ⊆
      S.cellDen (mappingAtomicTypeMemberAt mat k)) ↔
    ∀ (i : Nat) (t1 t2 : SemType), inherent.types[i]? = some t1 → mat.types[i]? = some t2 →
      CellFits S t1 t2 := by
  have hsorted1 := hinherent.cells.sorted
  have hsorted2 := hmat.cells.sorted
  have hiff : ∀ (i : Nat) (t1 t2 : SemType), inherent.types[i]? = some t1 →
      mat.types[i]? = some t2 → (S.cellDen t1 ⊆ S.cellDen t2 ↔ CellFits S t1 t2) := by
    intro i t1 t2 h1 h2
    obtain ⟨c1, hc1, -⟩ := hinherent.cells.types t1 (List.mem_of_getElem? h1)
    obtain ⟨c2, hc2, -⟩ := hmat.cells.types t2 (List.mem_of_getElem? h2)
    exact cellDen_subset_iff hc1 hc2 (hbits i t1 t2 c1 c2 h1 h2 hc1 hc2)
  refine ⟨fun h i t1 t2 h1 h2 => ?_, fun h k => ?_⟩
  · have hlt : i < mat.names.length := by
      rw [hsorted2.length]
      exact (List.getElem?_eq_some_iff.mp h2).1
    have hk2 := List.getElem?_eq_getElem hlt
    have hk1 : inherent.names[i]? = some mat.names[i] := by rw [hnames, hk2]
    have hsub := h mat.names[i]
    rw [memberAt_getElem? hsorted1 hk1 h1, memberAt_getElem? hsorted2 hk2 h2] at hsub
    exact (hiff i t1 t2 h1 h2).mp hsub
  · by_cases hk : k ∈ mat.names
    · obtain ⟨i, hi⟩ := List.getElem?_of_mem hk
      have hlt := (List.getElem?_eq_some_iff.mp hi).1
      have h1 : inherent.types[i]? = some _ := List.getElem?_eq_getElem (by
        rw [← hsorted1.length, hnames]
        exact hlt)
      have h2 : mat.types[i]? = some _ := List.getElem?_eq_getElem (by
        rw [← hsorted2.length]
        exact hlt)
      rw [memberAt_getElem? hsorted1 (hnames ▸ hi) h1, memberAt_getElem? hsorted2 hi h2]
      exact (hiff i _ _ h1 h2).mpr (h i _ _ h1 h2)
    · -- no other name has a member
      rw [memberAt_of_notMem hsorted1 (hnames ▸ hk), memberAt_of_notMem hsorted2 hk]
      intro v hv
      rw [hclosed v hv]
      exact hmat.absent

/-- Between a mapping type and a map type, cell type by cell type. -/
theorem map_subset_iff (hinherent : FieldCells S inherent) (hmat : FieldCells S mat)
    (hnames : mat.names = [])
    (hbits : ∀ t, t ∈ inherent.types ∨ t = inherent.rest → ∀ c1 c2, cellAtomicType t = some c1 →
      cellAtomicType mat.rest = some c2 →
      ∀ x ∈ S.den c1.ty, S.code x ≠ BT_TABLE → x ∈ S.den c2.ty) :
    (∀ k, S.cellDen (mappingAtomicTypeMemberAt inherent k) ⊆
      S.cellDen (mappingAtomicTypeMemberAt mat k)) ↔
    (∀ t ∈ inherent.types, CellFits S t mat.rest) ∧ CellFits S inherent.rest mat.rest := by
  have hsorted := hinherent.cells.sorted
  obtain ⟨c2, hc2, -⟩ := hmat.cells.rest
  have hrest : ∀ k, mappingAtomicTypeMemberAt mat k = mat.rest := by
    intro k
    refine memberAt_of_notMem hmat.cells.sorted ?_
    rw [hnames]
    exact List.not_mem_nil
  have hiff : ∀ t, t ∈ inherent.types ∨ t = inherent.rest →
      (S.cellDen t ⊆ S.cellDen mat.rest ↔ CellFits S t mat.rest) := by
    intro t ht
    obtain ⟨c1, hc1, -⟩ : ∃ c, cellAtomicType t = some c ∧ c.mutability ≠ .unlimited := by
      rcases ht with ht | rfl
      · exact hinherent.cells.types t ht
      · exact hinherent.cells.rest
    exact cellDen_subset_iff hc1 hc2 (hbits t ht c1 c2 hc1 hc2)
  refine ⟨fun h => ⟨fun t ht => ?_, ?_⟩, fun ⟨htypes, hr⟩ k => ?_⟩
  · obtain ⟨i, hi⟩ := List.getElem?_of_mem ht
    have hlt : i < inherent.names.length := by
      rw [hsorted.length]
      exact (List.getElem?_eq_some_iff.mp hi).1
    have hsub := h inherent.names[i]
    rw [hrest, memberAt_getElem? hsorted (List.getElem?_eq_getElem hlt) hi] at hsub
    exact (hiff t (Or.inl ht)).mp hsub
  · -- a name that the inherent type does not have
    obtain ⟨k, hk⟩ := (List.finite_toSet inherent.names).exists_notMem
    have hsub := h k
    rw [hrest, memberAt_of_notMem hsorted hk] at hsub
    exact (hiff _ (Or.inr rfl)).mp hsub
  · rw [hrest]
    unfold mappingAtomicTypeMemberAt
    rcases fieldType_cases inherent.fields inherent.rest k with hk | ⟨f, hf, -, hk⟩
    · rw [hk]
      exact (hiff _ (Or.inr rfl)).mpr hr
    · rw [hk]
      have hmem : f.2 ∈ inherent.types := hsorted.map_types ▸ List.mem_map_of_mem hf
      exact (hiff _ (Or.inl hmem)).mpr (htypes _ hmem)

/-- The member type of a field in the descriptor. -/
theorem fieldType_of_desc (hinit : createMappingDescInit contains inherent = some desc) {i : Nat}
    {t : SemType} {c : CellAtomicType} (ht : inherent.types[i]? = some t)
    (hc : cellAtomicType t = some c) :
    desc.fieldTypes[i]? = some (getMemberType contains c.ty) := by
  obtain ⟨-, hfield, -⟩ := createMappingDescInit_eq_some hinit
  obtain ⟨ty, hty, hdesc⟩ := hfield i t ht
  rw [cellInner, hc] at hty
  obtain rfl := Option.some.inj hty
  exact hdesc

theorem record_unchecked_iff (hinherent : FieldCells S inherent) (hmat : FieldCells S mat)
    (hne : ∃ f, inherent.Contains S.cellDen f)
    (hinit : createMappingDescInit contains inherent = some desc)
    (hdesc : DescOf rt S.cellDen S.absent inherent desc)
    (hlife : Life rt S.cellDen S.absent inherent desc m) {bitSets : List BitSet}
    (hlen : bitSets.length = mat.types.length) (hrest : cellInnerVal mat.rest = some (.bits 0))
    (hinner : ∀ (i : Nat) (t : SemType), mat.types[i]? = some t →
      ∃ b, bitSets[i]? = some b ∧ cellInner t = some (.bits b))
    (hfits : (MappingSubtype.record (mat.names.zip bitSets)).Fits rt m) :
    (∀ f, inherent.Contains S.cellDen f → mat.Contains S.cellDen f) ↔
      (MappingSubtype.record (mat.names.zip bitSets)).UncheckedRight S inherent mat := by
  -- the tested type is closed
  have hclosed' : ∀ v ∈ S.cellDen mat.rest, v = S.absent := by
    obtain ⟨c, hc, -⟩ := hmat.cells.rest
    rw [cellDen_absent_iff hc]
    intro x hx
    by_contra hne
    have hmem : x ∈ S.den (.bits 0) := by
      rw [hmat.restVal _ c hrest hc]
      exact ⟨hx, hne⟩
    rw [S.den_bits] at hmem
    have hmem : (0#32).getLsbD (S.code x) = true := hmem
    rw [BitVec.getLsbD_zero] at hmem
    cases hmem
  have hbits : ∀ (i : Nat) (t1 t2 : SemType) (c1 c2 : CellAtomicType),
      inherent.types[i]? = some t1 → mat.types[i]? = some t2 → cellAtomicType t1 = some c1 →
      cellAtomicType t2 = some c2 →
      ∀ x ∈ S.den c1.ty, S.code x ≠ BT_TABLE → x ∈ S.den c2.ty := by
    intro i t1 t2 c1 c2 h1 h2 hc1 hc2
    obtain ⟨b, hb, hty⟩ := hinner i t2 h2
    rw [cellInner, hc2] at hty
    rw [show c2.ty = .bits b from Option.some.inj hty]
    have hlt : i < mat.names.length := by
      rw [hmat.cells.sorted.length]
      exact (List.getElem?_eq_some_iff.mp h2).1
    obtain ⟨fieldType, hfield, hsimple⟩ := (hfits.2 i (mat.names[i], b)
      (List.getElem?_zip_eq_some.mpr ⟨List.getElem?_eq_getElem hlt, hb⟩)).type
    rw [hlife.desc_eq, fieldType_of_desc hinit h1 hc1] at hfield
    obtain rfl := Option.some.inj hfield
    exact den_bits_of_simple hsimple
  have hiff : (∀ v ∈ S.cellDen inherent.rest, v = S.absent) → _ := fun hclosed =>
    record_subset_iff hinherent hmat hclosed (names_eq_of_fits hinherent.cells.sorted hclosed hdesc
      hlife hmat.cells.sorted hlen hfits) hbits
  rw [contains_imp_iff hne]
  refine ⟨fun h => ?_, fun ⟨hclosed, h⟩ => (hiff hclosed).mpr h⟩
  have hsub : InherentSubtype S.cellDen inherent mat :=
    ⟨hinherent.cells.sorted, hmat.cells.sorted, hne, (contains_imp_iff hne).mpr h⟩
  have hclosed := hsub.closed hclosed'
  exact ⟨hclosed, (hiff hclosed).mp h⟩

theorem map_unchecked_iff (hinherent : FieldCells S inherent) (hmat : FieldCells S mat)
    (hne : ∃ f, inherent.Contains S.cellDen f)
    (hinit : createMappingDescInit contains inherent = some desc) (hm : m.desc = desc) {b : BitSet}
    (hrest : cellInnerVal mat.rest = some (.bits b)) (hnames : mat.names = [])
    (hfits : (MappingSubtype.map b).Fits rt m) :
    (∀ f, inherent.Contains S.cellDen f → mat.Contains S.cellDen f) ↔
      (MappingSubtype.map b).UncheckedRight S inherent mat := by
  rw [contains_imp_iff hne]
  refine map_subset_iff hinherent hmat hnames fun t ht c1 c2 hc1 hc2 x hx htable => ?_
  have hval := hmat.restVal _ c2 hrest hc2
  have hsub : S.den (.bits b) ⊆ S.den c2.ty := by
    rw [hval]
    exact Set.sdiff_subset
  rcases ht with ht | rfl
  · obtain ⟨i, hi⟩ := List.getElem?_of_mem ht
    have hfield := fieldType_of_desc hinit hi hc1
    rw [← hm] at hfield
    exact hsub (den_bits_of_simple (hfits.1 _ (List.mem_of_getElem? hfield)) x hx htable)
  · -- an absent member is allowed by every rest type
    by_cases hundef : x = S.undef
    · rw [hundef]
      exact (fixed_mem_cellDen hc2).mp hmat.absent
    · obtain ⟨-, -, ty, hty, hdesc⟩ := createMappingDescInit_eq_some hinit
      have hsimple := hfits.2
      rw [hm, hdesc] at hsimple
      refine hsub (den_bits_of_simple hsimple x ?_ htable)
      rw [hinherent.restVal _ c1 hty hc1]
      exact ⟨hx, hundef⟩

/-- The test of a mapping by its descriptor is right exactly when, for a value that fits, the
inherent type has nothing that the test does not look at: a rest type in the case of a record,
mutable members where the tested type has none, or tables. -/
theorem subtypeContains_sound_iff {contains : SemType → Nat → TaggedPtr → Bool}
    {desc : MappingDesc MemberType} {rt : MappingRuntime K MemberType} {m : Mapping K MemberType}
    {p : TaggedPtr} (hinherent : FieldCells S inherent) (hmat : FieldCells S mat)
    (hne : ∃ f, inherent.Contains S.cellDen f)
    (hinit : createMappingDescInit contains inherent = some desc)
    (hdesc : DescOf rt S.cellDen S.absent inherent desc)
    (hlife : Life rt S.cellDen S.absent inherent desc m) (hp : utTag p = tagMapping)
    {st : MappingSubtype} (hst : createMappingSubtypeStruct mat = some st) :
    (st.contains rt.eq rt.key p m = some true →
      ∀ f, inherent.Contains S.cellDen f → mat.Contains S.cellDen f) ↔
    (st.Fits rt m → st.UncheckedRight S inherent mat) := by
  rw [contains_eq_true_iff hp]
  refine imp_congr_right fun hfits => ?_
  rcases createMappingSubtypeStruct_eq_some hst with ⟨bitSets, rfl, hlen, hrest, hinner⟩ | hmap
  · exact record_unchecked_iff hinherent hmat hne hinit hdesc hlife hlen hrest hinner hfits
  · obtain ⟨b, rfl, hrest, hnames⟩ := hmap
    exact map_unchecked_iff hinherent hmat hne hinit hlife.desc_eq hrest hnames hfits

end Test

/-! ## Types of bit sets -/

/-- A shape for each basic type. -/
def codeShapes : Shapes BasicTypeCode where
  undef := BT_UNDEF
  code := id
  den t := {x | (widenToBasicTypes t).getLsbD x = true}
  den_bits _ := rfl
  den_widen _ _ h := h

theorem getLsbD_UNDEF : ∀ x : BasicTypeCode, UNDEF.getLsbD x = decide (x = BT_UNDEF) := by
  decide

theorem cellAtomicType_bitCell (b : BasicTypeBitSet) (mutability : CellMutability) :
    cellAtomicType (bitCell INNER b mutability) = some ⟨.bits b, mutability⟩ :=
  CellTable.cellAtomicType_single _ ⟨.bits b, mutability⟩

/-- A type without names of fields: `map<T>`, or `record {||}`. -/
def restOnly (b : BasicTypeBitSet) (mutability : CellMutability) : MappingAtomicType :=
  ⟨[], [], bitCell INNER b mutability⟩

theorem cellInnerVal_bitCell [BddIdentity] (b : BasicTypeBitSet) (mutability : CellMutability) :
    cellInnerVal (bitCell INNER b mutability) = some (.bits (b &&& ~~~UNDEF)) := by
  unfold cellInnerVal cellInner
  rw [cellAtomicType_bitCell]
  rfl

theorem fieldCells_restOnly [BddIdentity] {b : BasicTypeBitSet} {mutability : CellMutability}
    (hmut : mutability ≠ .unlimited) (hundef : b.getLsbD BT_UNDEF = true) :
    FieldCells codeShapes (restOnly b mutability) := by
  have hcell := cellAtomicType_bitCell b mutability
  refine ⟨⟨⟨rfl, List.Pairwise.nil⟩, fun t ht => absurd ht List.not_mem_nil, _, hcell, hmut⟩,
    fun ty c hty hc => ?_, (fixed_mem_cellDen hcell).mpr hundef⟩
  have hty : cellInnerVal (bitCell INNER b mutability) = some ty := hty
  rw [cellInnerVal_bitCell] at hty
  obtain rfl := Option.some.inj hty
  obtain rfl := Option.some.inj (hcell.symm.trans hc)
  ext x
  show (b &&& ~~~UNDEF).getLsbD x = true ↔ b.getLsbD x = true ∧ ¬ x = BT_UNDEF
  have hlt : x.val < 32 := by omega
  rw [BitVec.getLsbD_and, BitVec.getLsbD_not, getLsbD_UNDEF, decide_eq_true hlt, Bool.true_and,
    Bool.and_eq_true, Bool.not_eq_true', decide_eq_false_iff_not]

/-- `map<int>` -/
def intMap : MappingAtomicType := restOnly (basicType BT_INT ||| UNDEF) .limited

theorem intMap_contains : intMap.Contains codeShapes.cellDen
    fun _ => codeShapes.fixed BT_INT :=
  fun _ => (fixed_mem_cellDen (cellAtomicType_bitCell _ _)).mpr rfl

def intMapDesc : MappingDesc MemberType := ⟨.bitSet (basicType BT_INT), []⟩

theorem createMappingDescInit_intMap [BddIdentity] :
    createMappingDescInit (fun _ _ _ => false) intMap = some intMapDesc := by
  have hrest : cellInnerVal intMap.rest = some (.bits (basicType BT_INT)) :=
    cellInnerVal_bitCell _ _
  unfold createMappingDescInit
  rw [hrest]
  rfl

theorem intMap_allowed (name : String) :
    Allowed codeShapes.cellDen codeShapes.absent intMap name :=
  ⟨_, intMap_contains name, fun h => absurd (fixed_injective h) (by decide)⟩

theorem intMap_descOf : DescOf textRuntime codeShapes.cellDen codeShapes.absent intMap intMapDesc :=
  ⟨rfl, fun _ _ => intMap_allowed ""⟩

/-- `{x: 1}` as a `map<int>` -/
def intMapX : Mapping String MemberType :=
  (buildMappingConstruct textRuntime.hash textRuntime.key intMapDesc intMap ["x"]
    [0x2200000000000001#64]).get (by decide +kernel)

/-- `{}` as a `map<int>` -/
def intMapEmpty : Mapping String MemberType :=
  (buildMappingConstruct textRuntime.hash textRuntime.key intMapDesc intMap [] []).get
    (by decide +kernel)

theorem intMapX_life : Life textRuntime codeShapes.cellDen codeShapes.absent intMap intMapDesc
    intMapX := by
  have hm : buildMappingConstruct textRuntime.hash textRuntime.key intMapDesc intMap ["x"]
    [0x2200000000000001#64] = some intMapX := (Option.some_get _).symm
  exact Life.construct rfl (by decide) (fun name _ => intMap_allowed name) (by decide) hm

theorem intMapEmpty_life : Life textRuntime codeShapes.cellDen codeShapes.absent intMap intMapDesc
    intMapEmpty := by
  have hm : buildMappingConstruct textRuntime.hash textRuntime.key intMapDesc intMap [] [] =
    some intMapEmpty := (Option.some_get _).symm
  exact Life.construct rfl (by decide) (fun name _ => intMap_allowed name) (by decide) hm

/-- A `map<int>` is a `map<int|string>`. -/
theorem subtypeContains_sound_iff_map :
    let _ := BddIdentity.shared
    let mat := restOnly (basicType BT_INT ||| basicType BT_STRING ||| UNDEF) .limited
    let st := MappingSubtype.map (basicType BT_INT ||| basicType BT_STRING)
    createMappingSubtypeStruct mat = some st ∧
    st.contains textRuntime.eq textRuntime.key (0x0D#64 <<< 56) intMapX = some true ∧
    ∀ f, intMap.Contains codeShapes.cellDen f → mat.Contains codeShapes.cellDen f := by
  intro _ mat st
  have hst : createMappingSubtypeStruct mat = some st := by
    unfold createMappingSubtypeStruct
    show (cellInnerVal (bitCell INNER _ _)).bind _ = _
    rw [cellInnerVal_bitCell]
    rfl
  have htrue : st.contains textRuntime.eq textRuntime.key (0x0D#64 <<< 56) intMapX = some true := by
    decide +kernel
  refine ⟨hst, htrue, (subtypeContains_sound_iff (fieldCells_restOnly (by decide) (by decide))
    (fieldCells_restOnly (by decide) (by decide)) ⟨_, intMap_contains⟩ createMappingDescInit_intMap
    intMap_descOf intMapX_life (by decide) hst).mpr (fun _ => ⟨?_, ?_⟩) htrue⟩
  · exact fun t ht => absurd ht List.not_mem_nil
  · intro c1 c2 hc1 hc2
    obtain rfl := Option.some.inj ((cellAtomicType_bitCell _ _).symm.trans hc1)
    obtain rfl := Option.some.inj ((cellAtomicType_bitCell _ _).symm.trans hc2)
    refine ⟨(fun h => by cases h), fun x hx htable => ?_⟩
    obtain rfl : x = BT_TABLE := htable
    have hx : (basicType BT_INT ||| UNDEF).getLsbD BT_TABLE = true := hx
    exact absurd hx (by decide)

/-- The record test takes an empty `map<int>` for a `record {||}`. -/
theorem not_subtypeContains_sound :
    let _ := BddIdentity.shared
    let mat := restOnly UNDEF .none
    FieldCells codeShapes intMap ∧ FieldCells codeShapes mat ∧
    Life textRuntime codeShapes.cellDen codeShapes.absent intMap intMapDesc intMapEmpty ∧
    createMappingDescInit (fun _ _ _ => false) intMap = some intMapDesc ∧
    createMappingSubtypeStruct mat = some (.record []) ∧
    (MappingSubtype.record []).contains textRuntime.eq textRuntime.key (0x0D#64 <<< 56)
      intMapEmpty = some true ∧
    ¬ ∀ f, intMap.Contains codeShapes.cellDen f → mat.Contains codeShapes.cellDen f := by
  intro _ mat
  refine ⟨fieldCells_restOnly (by decide) (by decide), fieldCells_restOnly (by decide) (by decide),
    intMapEmpty_life, createMappingDescInit_intMap, ?_, by decide +kernel, fun h => ?_⟩
  · unfold createMappingSubtypeStruct
    show (cellInnerVal (bitCell INNER _ _)).bind _ = _
    rw [cellInnerVal_bitCell]
    rfl
  · have hmem := h _ intMap_contains "x"
    have hmem : UNDEF.getLsbD BT_INT = true :=
      (fixed_mem_cellDen (cellAtomicType_bitCell UNDEF .none)).mp hmem
    exact absurd hmem (by decide)

end Nballerina.Nback
