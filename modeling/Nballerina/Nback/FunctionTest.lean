import Nballerina.Nback.MappingTest
import Nballerina.Types.Values
import Nballerina.Front.FunctionSignature

/-!
# Type tests of functions by their descriptor

A type test for a function type whose parameters and result are bit sets is done by
`_bal_function_subtype_contains` (`runtime/function.c`) on the descriptor of the value. The result of the function
must have no basic type that the tested type has not, for which it does not matter whether it has all or a
part of one. The parameters are tested the other way around with the same bits: so a parameter that takes a
part of a basic type passes for all of it, and the answer `true` is wrong
(`functionSubtypeContains_sound_iff`).

Mirroring notes:
- The type id and the uniform function of a descriptor are left out; no test looks at them.
- Structures of other tests (`createPrecomputedSubtypeStruct`) are `none` here, as is an index out of range.
-/

namespace Nballerina.Nback

open Nballerina.Lib Nballerina.Types Nballerina.Runtime Nballerina.Front

/-! ## What the backend emits -/

def requiredParamCount (signature : FunctionSignature) : Nat :=
  if signature.restParamType = none then signature.paramTypes.length else signature.paramTypes.length - 1

/-- `FunctionDesc` -/
structure FunctionDesc where
  returnType : MemberType
  restType : MemberType
  nRequiredParams : Nat
  paramTypes : List MemberType

def createFunctionDescInit (contains : SemType → Nat → TaggedPtr → Bool) (signature : FunctionSignature) :
    Option FunctionDesc := do
  let restParamTy := getMemberType contains (signature.restParamType.getD NEVER)
  let nRequiredParams := requiredParamCount signature
  let paramTys ← (List.range nRequiredParams).mapM fun i =>
    signature.paramTypes[i]?.map (getMemberType contains)
  return ⟨getMemberType contains signature.returnType, restParamTy, nRequiredParams, paramTys⟩

/-- `EasyFunctionSubtype` -/
structure FunctionSubtype where
  returnBitSet : BasicTypeBitSet
  nRequiredParams : Nat
  paramBitSets : List BasicTypeBitSet

/-- `paramTy is t:BasicTypeBitSet` -/
def bitSetOf : SemType → Option BasicTypeBitSet
  | .bits b => some b
  | .complex _ => none

/-- `createFunctionSubtypeStructInner` -/
def createFunctionSubtypeStruct (signature : FunctionSignature) : Option FunctionSubtype := do
  let nRequiredParams := requiredParamCount signature
  let returnType ← bitSetOf signature.returnType
  if signature.restParamType ≠ none ∨ nRequiredParams > 0xFFFFFFFF then none
  else
    let requiredParamBitSets := (signature.paramTypes.take nRequiredParams).filterMap bitSetOf
    if requiredParamBitSets.length ≠ nRequiredParams then none
    else some ⟨returnType, nRequiredParams, requiredParamBitSets⟩

/-! ## The test -/

def memberTypeIsSupertypeSimple (memberType : MemberType) (bitSet : BasicTypeBitSet) : Bool :=
  bitSet &&& ~~~memberBitSet memberType == 0#32

def tagFunction : Nat := 0x09

/-- The type of the argument at a position, which can be one of the rest. -/
def FunctionDesc.argTypeAt (fdp : FunctionDesc) (i : Nat) : Option MemberType :=
  if i < fdp.nRequiredParams then fdp.paramTypes[i]? else some fdp.restType

/-- The loop over the parameters. -/
def functionParamsContain (fstp : FunctionSubtype) (fdp : FunctionDesc) : List Nat → Option Bool
  | [] => some true
  | i :: rest => do
    let paramType ← fdp.argTypeAt i
    let paramBitSet ← fstp.paramBitSets[i]?
    if !memberTypeIsSupertypeSimple paramType paramBitSet then some false
    else functionParamsContain fstp fdp rest

/-- `_bal_function_subtype_contains`, where `p` points to a function with the descriptor. -/
def balFunctionSubtypeContains (fstp : FunctionSubtype) (fdp : FunctionDesc) (p : TaggedPtr) : Option Bool :=
  if utTag p ≠ tagFunction then some false
  else
    let maxRequiredParams := max fstp.nRequiredParams fdp.nRequiredParams
    if !memberTypeIsSubtypeSimple fdp.returnType fstp.returnBitSet ∨ maxRequiredParams > fstp.nRequiredParams then
      some false
    else functionParamsContain fstp fdp (List.range maxRequiredParams)

/-! ## What the test compares -/

/-- The condition that the test checks. -/
structure FunctionSubtype.Fits (fstp : FunctionSubtype) (fdp : FunctionDesc) : Prop where
  result : memberTypeIsSubtypeSimple fdp.returnType fstp.returnBitSet = true
  required : fdp.nRequiredParams ≤ fstp.nRequiredParams
  params : ∀ i < fstp.nRequiredParams, ∃ paramType paramBitSet, fdp.argTypeAt i = some paramType ∧
    fstp.paramBitSets[i]? = some paramBitSet ∧ memberTypeIsSupertypeSimple paramType paramBitSet = true

theorem memberTypeIsSupertypeSimple_iff (memberType : MemberType) (bitSet : BasicTypeBitSet) :
    memberTypeIsSupertypeSimple memberType bitSet = true ↔
      ∀ i, bitSet.getLsbD i = true → (memberBitSet memberType).getLsbD i = true :=
  memberTypeIsSubtypeSimple_iff (.bitSet bitSet) (memberBitSet memberType)

theorem functionParamsContain_iff {fstp : FunctionSubtype} {fdp : FunctionDesc} (indices : List Nat) :
    functionParamsContain fstp fdp indices = some true ↔
      ∀ i ∈ indices, ∃ paramType paramBitSet, fdp.argTypeAt i = some paramType ∧
        fstp.paramBitSets[i]? = some paramBitSet ∧ memberTypeIsSupertypeSimple paramType paramBitSet = true := by
  induction indices with
  | nil => exact iff_of_true rfl fun _ h => absurd h List.not_mem_nil
  | cons i rest ih =>
    rw [List.forall_mem_cons, ← ih]
    constructor
    · intro h
      obtain ⟨paramType, htype, h⟩ := Option.bind_eq_some_iff.mp h
      obtain ⟨paramBitSet, hbits, h⟩ := Option.bind_eq_some_iff.mp h
      split at h
      next => cases h
      next hsuper =>
        rw [Bool.not_eq_true', Bool.not_eq_false] at hsuper
        exact ⟨⟨paramType, paramBitSet, htype, hbits, hsuper⟩, h⟩
    · rintro ⟨⟨paramType, paramBitSet, htype, hbits, hsuper⟩, hrest⟩
      unfold functionParamsContain
      rw [htype, hbits]
      dsimp only [Option.bind_eq_bind, Option.bind_some]
      rw [hsuper]
      exact hrest

theorem functionSubtypeContains_iff {fstp : FunctionSubtype} {fdp : FunctionDesc} {p : TaggedPtr}
    (hp : utTag p = tagFunction) :
    balFunctionSubtypeContains fstp fdp p = some true ↔ fstp.Fits fdp := by
  unfold balFunctionSubtypeContains
  rw [if_neg (not_not.mpr hp)]
  dsimp only
  by_cases hresult : memberTypeIsSubtypeSimple fdp.returnType fstp.returnBitSet = true
  · by_cases hrequired : fdp.nRequiredParams ≤ fstp.nRequiredParams
    · rw [max_eq_left hrequired, if_neg (by rw [hresult]; simp), functionParamsContain_iff]
      refine ⟨fun h => ⟨hresult, hrequired, fun i hi => h i (List.mem_range.mpr hi)⟩,
        fun h i hi => h.params i (List.mem_range.mp hi)⟩
    · rw [if_pos (.inr (by omega))]
      exact iff_of_false (by simp) fun h => hrequired h.required
  · rw [if_pos (.inl (by simpa using hresult))]
    exact iff_of_false (by simp) fun h => hresult h.result

/-! ## Subtypes of functions -/

section Subtype

variable {α : Type} (structured : BasicTypeCode → ProperSubtypeData → Set α)

def Included (t u : SemType) : Prop := ∀ v, Types.Holds structured t v → Types.Holds structured u v

/-- The type of the argument at a position, which can be one of the rest. -/
def argTypeAt (signature : FunctionSignature) (i : Nat) : Option SemType :=
  if i < requiredParamCount signature then signature.paramTypes[i]?
  else some (signature.restParamType.getD NEVER)

/-- A function of the one signature is one of the other. -/
structure SignatureSubtype (f t : FunctionSignature) : Prop where
  required : requiredParamCount f ≤ requiredParamCount t
  params : ∀ i < requiredParamCount t, ∀ u v, argTypeAt f i = some u → argTypeAt t i = some v →
    Included structured v u
  rest : Included structured (t.restParamType.getD NEVER) (f.restParamType.getD NEVER)
  result : Included structured f.returnType t.returnType

/-- What the test does not look at: whether a part of a basic type is all of it that the tested type lets in, and
tables in the result. -/
structure PartsRight (f t : FunctionSignature) : Prop where
  params : ∀ i < requiredParamCount t, ∀ c b, argTypeAt f i = some (.complex c) →
    argTypeAt t i = some (.bits b) → ∀ code : BasicTypeCode, b.getLsbD code = true → c.some.getLsbD code = true →
      ∀ v : BasicValue α, v.code = code → Types.Holds structured (.complex c) v
  tables : ∀ v : BasicValue α, v.code = BT_TABLE → Types.Holds structured f.returnType v →
    Types.Holds structured t.returnType v

variable {structured}

theorem holds_of_all {t : SemType} (ht : t.WF) {v : BasicValue α} (h : t.allBits.getLsbD v.code = true) :
    Types.Holds structured t v := by
  obtain ⟨r, hat, hr⟩ := atCode ht v.code
  cases hat with
  | whole => exact ⟨_, hr, dataHas_true structured v⟩
  | part ha => rw [h] at ha; cases ha
  | nothing ha => rw [h] at ha; cases ha

theorem holds_bits {b : BasicTypeBitSet} {v : BasicValue α} :
    Types.Holds structured (.bits b) v ↔ b.getLsbD v.code = true := by
  have hwf : (SemTypeOf.bits b : SemType).WF := trivial
  refine ⟨fun h => ?_, fun h => holds_of_all hwf h⟩
  have hbit := h.bit hwf
  rw [show (SemTypeOf.bits b : SemType).allBits ||| (SemTypeOf.bits b : SemType).someBits = b from
    BitVec.or_zero] at hbit
  exact hbit

/-- The bits of a member type are among those of the type. -/
theorem getLsbD_of_getMemberType {contains : SemType → Nat → TaggedPtr → Bool} {t : SemType} {i : Nat}
    (h : (memberBitSet (getMemberType contains t)).getLsbD i = true) :
    (widenToBasicTypes t).getLsbD i = true := by
  cases t with
  | bits b => exact h
  | complex c =>
    have h : (c.all ||| c.some &&& ~~~TABLE).getLsbD i = true := h
    show (c.all ||| c.some).getLsbD i = true
    rw [BitVec.getLsbD_or, Bool.or_eq_true] at h ⊢
    rw [BitVec.getLsbD_and, Bool.and_eq_true] at h
    exact h.imp_right And.left

/-! ## What is in the structures -/

theorem filterMap_getElem? {β γ : Type} {g : β → Option γ} : ∀ {l : List β},
    (l.filterMap g).length = l.length →
      ∀ (i : Nat) (a : β), l[i]? = some a → ∃ b, (l.filterMap g)[i]? = some b ∧ g a = some b
  | [], _, i, a, hi => by cases hi
  | a :: l, hlen, i, a', hi => by
    cases hg : g a with
    | none =>
      rw [List.filterMap_cons_none hg, List.length_cons] at hlen
      have hle := List.length_filterMap_le g l
      omega
    | some b =>
      rw [List.filterMap_cons_some hg, List.length_cons, List.length_cons] at hlen
      rw [List.filterMap_cons_some hg]
      cases i with
      | zero =>
        obtain rfl := Option.some.inj hi
        exact ⟨b, rfl, hg⟩
      | succ i => exact filterMap_getElem? (Nat.succ.inj hlen) i a' hi

/-- The descriptor has the member type of the result and of each argument. -/
theorem createFunctionDescInit_eq_some {contains : SemType → Nat → TaggedPtr → Bool} {f : FunctionSignature}
    {fdp : FunctionDesc} (h : createFunctionDescInit contains f = some fdp) :
    fdp.returnType = getMemberType contains f.returnType ∧ fdp.nRequiredParams = requiredParamCount f ∧
      ∀ i, ∃ u, argTypeAt f i = some u ∧ fdp.argTypeAt i = some (getMemberType contains u) := by
  unfold createFunctionDescInit at h
  dsimp only [Option.bind_eq_bind, Option.pure_def] at h
  obtain ⟨paramTys, hparams, h⟩ := Option.bind_eq_some_iff.mp h
  obtain rfl := Option.some.inj h
  obtain ⟨_, hget⟩ := mapM_eq_some hparams
  refine ⟨rfl, rfl, fun i => ?_⟩
  unfold argTypeAt FunctionDesc.argTypeAt
  dsimp only
  by_cases hi : i < requiredParamCount f
  · rw [if_pos hi, if_pos hi]
    obtain ⟨memberType, hmem, hu⟩ := hget i i (List.getElem?_range hi)
    obtain ⟨u, hfu, rfl⟩ := Option.map_eq_some_iff.mp hu
    exact ⟨u, hfu, hmem⟩
  · rw [if_neg hi, if_neg hi]
    exact ⟨_, rfl, rfl⟩

/-- A structure is made for a type without a rest whose result and parameters are bit sets. -/
theorem createFunctionSubtypeStruct_eq_some {t : FunctionSignature} {fstp : FunctionSubtype}
    (h : createFunctionSubtypeStruct t = some fstp) :
    t.returnType = .bits fstp.returnBitSet ∧ fstp.nRequiredParams = requiredParamCount t ∧
      t.restParamType = none ∧ ∀ i < requiredParamCount t, ∃ b, fstp.paramBitSets[i]? = some b ∧
        argTypeAt t i = some (.bits b) := by
  unfold createFunctionSubtypeStruct at h
  dsimp only [Option.bind_eq_bind] at h
  obtain ⟨returnType, hreturn, h⟩ := Option.bind_eq_some_iff.mp h
  have hbits : ∀ {u : SemType} {b : BasicTypeBitSet}, bitSetOf u = some b → u = .bits b := by
    intro u b hu
    cases u with
    | bits b' => rw [Option.some.inj hu]
    | complex c => cases hu
  split at h
  next => cases h
  next hrest =>
    rw [not_or, not_not] at hrest
    have hcount : requiredParamCount t = t.paramTypes.length := if_pos hrest.1
    split at h
    next => cases h
    next hlen =>
      obtain rfl := Option.some.inj h
      refine ⟨hbits hreturn, rfl, hrest.1, fun i hi => ?_⟩
      rw [not_not, hcount, List.take_length] at hlen
      obtain ⟨u, hu⟩ : ∃ u, t.paramTypes[i]? = some u :=
        ⟨_, List.getElem?_eq_getElem (hcount ▸ hi)⟩
      obtain ⟨b, hb, hub⟩ := filterMap_getElem? hlen i u hu
      refine ⟨b, ?_, ?_⟩
      · dsimp only
        rw [hcount, List.take_length]
        exact hb
      · unfold argTypeAt
        rw [if_pos hi, hu, hbits hub]

section Sound

variable {contains : SemType → Nat → TaggedPtr → Bool} {f t : FunctionSignature} {fdp : FunctionDesc}
  {fstp : FunctionSubtype} {p : TaggedPtr}

/-- What passes the tests of bits has a subtype, if what they do not look at is right. -/
theorem FunctionSubtype.Fits.signatureSubtype (hdesc : createFunctionDescInit contains f = some fdp)
    (hsub : createFunctionSubtypeStruct t = some fstp) (hreturn : f.returnType.WF)
    (hparams : ∀ i u, argTypeAt f i = some u → u.WF) (hfits : fstp.Fits fdp)
    (hparts : PartsRight structured f t) : SignatureSubtype structured f t := by
  obtain ⟨hdescReturn, hdescRequired, hdescArg⟩ := createFunctionDescInit_eq_some hdesc
  obtain ⟨hsubReturn, hsubRequired, hsubRest, hsubParam⟩ := createFunctionSubtypeStruct_eq_some hsub
  refine ⟨?_, ?_, ?_, ?_⟩
  · rw [← hdescRequired, ← hsubRequired]
    exact hfits.required
  · intro i hi u v hu hv w hw
    obtain ⟨b, hb, hvb⟩ := hsubParam i hi
    obtain rfl := Option.some.inj (hv.symm.trans hvb)
    obtain ⟨u', hu', hdescU⟩ := hdescArg i
    obtain rfl := Option.some.inj (hu.symm.trans hu')
    obtain ⟨paramType, paramBitSet, htype, hset, hsuper⟩ := hfits.params i (hsubRequired ▸ hi)
    obtain rfl := Option.some.inj (hdescU.symm.trans htype)
    obtain rfl := Option.some.inj (hb.symm.trans hset)
    have hwb := holds_bits.mp hw
    have hwu := getLsbD_of_getMemberType ((memberTypeIsSupertypeSimple_iff _ _).mp hsuper _ hwb)
    cases u with
    | bits a => exact holds_bits.mpr hwu
    | complex c =>
      have hwu : (c.all ||| c.some).getLsbD w.code = true := hwu
      rw [BitVec.getLsbD_or, Bool.or_eq_true] at hwu
      rcases hwu with hall | hsome
      · exact holds_of_all (hparams i _ hu) hall
      · exact hparts.params i hi c b hu hv w.code hwb hsome w rfl
  · intro w hw
    rw [hsubRest] at hw
    cases (holds_bits.mp hw).symm.trans BitVec.getLsbD_zero
  · intro w hw
    by_cases htable : w.code = BT_TABLE
    · exact hparts.tables w htable hw
    · rw [hsubReturn]
      refine holds_bits.mpr ((memberTypeIsSubtypeSimple_iff _ _).mp hfits.result _ ?_)
      rw [hdescReturn]
      refine getLsbD_getMemberType contains ?_ htable
      rw [widenToBasicTypes_eq]
      exact hw.bit hreturn

/-- An answer `true` of the test is right if and only if what the test does not look at is right, or the
tests of bits fail. -/
theorem functionSubtypeContains_sound_iff (hp : utTag p = tagFunction)
    (hdesc : createFunctionDescInit contains f = some fdp)
    (hsub : createFunctionSubtypeStruct t = some fstp) (hreturn : f.returnType.WF)
    (hparams : ∀ i u, argTypeAt f i = some u → u.WF) :
    (balFunctionSubtypeContains fstp fdp p = some true → SignatureSubtype structured f t) ↔
      (fstp.Fits fdp → PartsRight structured f t) := by
  rw [functionSubtypeContains_iff hp]
  constructor
  · intro h hfits
    have hsubtype := h hfits
    refine ⟨fun i hi c b hu hv code hb _ v hcode => ?_, fun v _ hv => hsubtype.result v hv⟩
    refine hsubtype.params i hi _ _ hu hv v (holds_bits.mpr ?_)
    rw [hcode]
    exact hb
  · intro h hfits
    exact hfits.signatureSubtype hdesc hsub hreturn hparams (h hfits)

end Sound

end Subtype

/-! ## Functions of `1|2` -/

def oneOrTwo : SemType := basicSubtype BT_INT (.int [⟨1, 2⟩])

/-- `function(1|2)` -/
def ofOneOrTwo : FunctionSignature :=
  { paramTypes := [oneOrTwo], returnType := .bits (basicType BT_NIL), restParamType := none }

/-- `function(int)` -/
def ofInt : FunctionSignature :=
  { paramTypes := [.bits (basicType BT_INT)], returnType := .bits (basicType BT_NIL), restParamType := none }

/-- `function(int|string, (int|string)...)` -/
def ofIntOrString : FunctionSignature :=
  { paramTypes := [.bits (basicType BT_INT ||| STRING), .bits LIST], returnType := .bits (basicType BT_NIL),
    restParamType := some (.bits (basicType BT_INT ||| STRING)) }

theorem requiredParamCount_ofIntOrString : requiredParamCount ofIntOrString = 1 :=
  if_neg (Option.some_ne_none _)

theorem argTypeAt_ofIntOrString {i : Nat} {u : SemType} (hu : argTypeAt ofIntOrString i = some u) :
    ∃ b, u = .bits b := by
  unfold argTypeAt at hu
  rw [requiredParamCount_ofIntOrString] at hu
  split at hu
  next hi =>
    obtain rfl : i = 0 := by omega
    exact ⟨_, (Option.some.inj hu).symm⟩
  next => exact ⟨_, (Option.some.inj hu).symm⟩

/-- A `function(int|string, (int|string)...)` is a `function(int)`. -/
theorem functionSubtypeContains_sound_ofInt :
    let fstp : FunctionSubtype := ⟨basicType BT_NIL, 1, [basicType BT_INT]⟩
    let fdp : FunctionDesc := ⟨.bitSet (basicType BT_NIL), .bitSet (basicType BT_INT ||| STRING), 1,
      [.bitSet (basicType BT_INT ||| STRING)]⟩
    balFunctionSubtypeContains fstp fdp (0x09#64 <<< 56) = some true ∧
      SignatureSubtype (fun _ _ => (∅ : Set Unit)) ofIntOrString ofInt := by
  intro fstp fdp
  have htrue : balFunctionSubtypeContains fstp fdp (0x09#64 <<< 56) = some true := by decide +kernel
  have hdesc : createFunctionDescInit (fun _ _ _ => false) ofIntOrString = some fdp := by
    unfold createFunctionDescInit
    rw [requiredParamCount_ofIntOrString]
    rfl
  have hsub : createFunctionSubtypeStruct ofInt = some fstp := rfl
  have hreturn : SemTypeOf.WF ofIntOrString.returnType := trivial
  refine ⟨htrue, (functionSubtypeContains_sound_iff rfl hdesc hsub hreturn fun i u hu => ?_).mpr
    (fun _ => ⟨fun i _ c b hu => ?_, fun v _ hv => hv⟩) htrue⟩
  · obtain ⟨b, rfl⟩ := argTypeAt_ofIntOrString hu
    trivial
  · obtain ⟨b, hb⟩ := argTypeAt_ofIntOrString hu
    cases hb

/-- The test takes a `function(1|2)` for a `function(int)`, to which `3` can be passed. -/
theorem not_functionSubtypeContains_sound :
    ∃ fdp fstp, createFunctionDescInit (fun _ _ _ => false) ofOneOrTwo = some fdp ∧
      createFunctionSubtypeStruct ofInt = some fstp ∧
      balFunctionSubtypeContains fstp fdp (0x09#64 <<< 56) = some true ∧
      ¬ SignatureSubtype (fun _ _ => (∅ : Set Unit)) ofOneOrTwo ofInt := by
  refine ⟨_, _, rfl, rfl, by decide +kernel, fun h => ?_⟩
  have hthree : Types.Holds (fun _ _ => (∅ : Set Unit)) (.bits (basicType BT_INT)) (.int 3) := holds_bits.mpr (by decide)
  obtain ⟨r, hr, hhas⟩ := h.params 0 (by decide) oneOrTwo _ rfl rfl _ hthree
  rw [show subtypeData oneOrTwo (BasicValue.int 3 : BasicValue Unit).code = some (.proper (.int [⟨1, 2⟩])) from
    rfl] at hr
  obtain rfl := Option.some.inj hr
  have hhas : intSubtypeContains (.proper (.int [⟨1, 2⟩])) 3 = some true := hhas
  exact absurd hhas (by decide)

end Nballerina.Nback
