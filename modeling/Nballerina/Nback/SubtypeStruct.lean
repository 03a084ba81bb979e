import Nballerina.Comm.DecimalText
import Nballerina.Nback.MappingTest
import Nballerina.Runtime.SubtypeContains
import Nballerina.Types.MappingMember
import Nballerina.Types.NormalForm

/-!
# The structures of subtypes (`nback`)

Mirroring `split` of `types/core.bal` and, of `nback/init.bal`, `addComplexTypeDefn`, `createSubtypeStruct` and the
functions that it calls for the simple basic types and `string`.

The structure for a type is what `complexTypeContainsTagged` looks at. The test is right for every value of one of
these basic types, if the texts of the decimals that the type lists can be encoded (`Tests`).

Mirroring notes:

* what the compiler emits for a value is a parameter (`Constants`). The words of a decimal are those of
  `Comm.toLeDpd`, from the text that `toString` gives;
* the structures of lists, mappings and functions are a parameter, `createStructured`. The other basic types have
  none, which is a panic;
* a structure that has been made before for an equal type is used again; it is the same.
-/

namespace Nballerina.Nback

open Nballerina.Lib Nballerina.Types Nballerina.Comm Nballerina.Runtime

/-! ## Splitting a type -/

structure SplitSemType where
  all : BasicTypeBitSet
  some : List (BasicTypeCode × SemType)

def split (t : SemType) : Option SplitSemType :=
  match t with
  | .bits b => some { all := b, some := [] }
  | .complex c => do
    let subtypeList ← unpackComplexSemType c
    return { all := c.all, some := subtypeList.map fun (code, sd) => (code, basicSubtype code sd) }

/-! ## The structures -/

/-- The constants of the program. -/
structure Constants where
  constFloat : FloatValue → Lib.Word
  /-- `toString` of a decimal -/
  decimalText : Rat → DecimalText
  getInitString : String → TaggedPtr

section Create

variable (k : Constants) (createStructured : BasicTypeCode → SemType → UniformSubtype)

def Constants.getInitDecimal (d : Rat) : Option DecQuad := toLeDpd (k.decimalText d).chars

def createBooleanSubtypeStruct (semType : SemType) : Option UniformSubtype :=
  match subtypeData semType BT_BOOLEAN with
  | some (.proper (.boolean value)) => some (.boolean value)
  | _ => none

def createIntSubtypeStruct (semType : SemType) : Option UniformSubtype :=
  match subtypeData semType BT_INT with
  | some (.proper (.int ranges)) => if ranges.length = 0 then none else some (.int ranges)
  | _ => none

def createFloatSubtypeStruct (semType : SemType) : Option UniformSubtype :=
  match subtypeData semType BT_FLOAT with
  | some (.proper (.float sub)) =>
    if sub.values.length = 0 then none else some (.float (sub.values.map k.constFloat) sub.allowed)
  | _ => none

def createDecimalSubtypeStruct (semType : SemType) : Option UniformSubtype :=
  match subtypeData semType BT_DECIMAL with
  | some (.proper (.decimal sub)) =>
    if sub.values.length = 0 then none
    else (sub.values.mapM k.getInitDecimal).map fun decimals => .decimal decimals sub.allowed
  | _ => none

def createStringSubtypeStruct (semType : SemType) : Option UniformSubtype :=
  match subtypeData semType BT_STRING with
  | some (.proper (.string sub)) =>
    let strs := (sub.char.values ++ sub.nonChar.values).mergeSort fun a b => decide (a ≤ b)
    some (.string (strs.map k.getInitString) sub.char.allowed sub.nonChar.allowed)
  | _ => none

def createSubtypeStruct (typeCode : BasicTypeCode) (semType : SemType) : Option UniformSubtype :=
  if typeCode = BT_BOOLEAN then createBooleanSubtypeStruct semType
  else if typeCode = BT_INT then createIntSubtypeStruct semType
  else if typeCode = BT_FLOAT then createFloatSubtypeStruct k semType
  else if typeCode = BT_DECIMAL then createDecimalSubtypeStruct k semType
  else if typeCode = BT_STRING then createStringSubtypeStruct k semType
  else if typeCode = BT_LIST ∨ typeCode = BT_MAPPING ∨ typeCode = BT_FUNCTION then
    some (createStructured typeCode semType)
  else none

/-- Tables are left out. -/
def addComplexTypeDefn (semType : SemType) : Option ComplexTypeStruct := do
  let splitType ← split semType
  let emitted := splitType.some.filter fun e => e.1 ≠ BT_TABLE
  let subtypes ← emitted.mapM fun e => createSubtypeStruct k createStructured e.1 e.2
  return {
    all := splitType.all
    some := emitted.foldl (fun someBits e => someBits ||| basicType e.1) 0
    subtypes }

end Create

/-! ## Finding the subtype -/

theorem getLsbD_foldl_iff {δ : Type} (L : List (BasicTypeCode × δ)) (i : Nat) :
    (L.foldl (fun bits e => bits ||| basicType e.1) (0 : BasicTypeBitSet)).getLsbD i = true ↔ ∃ e ∈ L, e.1.val = i := by
  have hzero : (0 : BasicTypeBitSet).getLsbD i ≠ true := by
    rw [show (0 : BasicTypeBitSet) = 0#32 from rfl, BitVec.getLsbD_zero]
    exact Bool.false_ne_true
  rw [getLsbD_foldl_basicType]
  exact or_iff_right hzero

/-- The subtype of a code stands at the number of codes before it. -/
theorem popcountBelow_eq {δ : Type} {L : List (BasicTypeCode × δ)} (hs : SortedCodes L) {i : Nat}
    {e : BasicTypeCode × δ} (he : L[i]? = some e) :
    popcountBelow (L.foldl (fun bits e => bits ||| basicType e.1) 0) e.1.val = i := by
  obtain ⟨hi, rfl⟩ := List.getElem?_eq_some_iff.mp he
  have hlt : ∀ {j k : Nat} (hj : j < L.length) (hk : k < L.length), j < k → L[j].1.val < L[k].1.val :=
    fun hj hk hjk => Fin.lt_def.mp (List.pairwise_iff_getElem.mp hs _ _ hj hk hjk)
  have hperm : ((List.range L[i].1.val).filter
      (L.foldl (fun bits e => bits ||| basicType e.1) 0 : BasicTypeBitSet).getLsbD).Perm
        ((L.take i).map fun e => e.1.val) := by
    have hnodup : ((L.take i).map fun e => e.1.val).Nodup := by
      refine List.pairwise_map.mpr ((hs.sublist (List.take_sublist i L)).imp fun h => ?_)
      exact Nat.ne_of_lt h
    refine (List.perm_ext_iff_of_nodup (List.nodup_range.filter _) hnodup).mpr fun n => ?_
    rw [List.mem_filter, List.mem_range, getLsbD_foldl_iff, List.mem_map]
    constructor
    · rintro ⟨hn, e, hmem, rfl⟩
      obtain ⟨j, hj, rfl⟩ := List.getElem_of_mem hmem
      refine ⟨L[j], ?_, rfl⟩
      have hji : j < i := by
        by_contra hle
        rcases Nat.lt_or_ge i j with hij | hij
        · exact absurd (hlt hi hj hij) (Nat.lt_asymm hn)
        · have heq : i = j := by omega
          subst heq
          exact absurd hn (Nat.lt_irrefl _)
      exact List.mem_take_iff_getElem.mpr ⟨j, by omega, rfl⟩
    · rintro ⟨e, hmem, rfl⟩
      obtain ⟨j, hj, rfl⟩ := List.mem_take_iff_getElem.mp hmem
      exact ⟨hlt (by omega) hi (by omega), _, List.getElem_mem _, rfl⟩
  have hlength := hperm.length_eq
  rw [List.length_map, List.length_take, Nat.min_eq_left (Nat.le_of_lt hi)] at hlength
  rw [popcountBelow, List.countP_eq_length_filter, hlength]

section Emitted

variable {k : Constants} {createStructured : BasicTypeCode → SemType → UniformSubtype} {t : SemType}
  {ctp : ComplexTypeStruct}

/-- The entries of the type that a structure is made for. -/
def emittedEntries (t : SemType) : List (BasicTypeCode × ProperSubtypeData) := t.entries.filter fun e => e.1 ≠ BT_TABLE

theorem split_eq (ht : t.WF) :
    split t = some ⟨t.allBits, t.entries.map fun e => (e.1, basicSubtype e.1 e.2)⟩ := by
  have hunpack := (rep_of_wf ht).unpack
  cases t with
  | bits b => rfl
  | complex c =>
    rw [split, show unpackComplexSemType c = some (SemTypeOf.complex c).entries from hunpack]
    rfl

/-- What a structure consists of: a subtype for each entry. -/
theorem addComplexTypeDefn_eq_some (ht : t.WF) (h : addComplexTypeDefn k createStructured t = some ctp) :
    ctp.all = t.allBits ∧
      ctp.some = (emittedEntries t).foldl (fun bits e => bits ||| basicType e.1) 0 ∧
      ∀ (i : Nat) (e : BasicTypeCode × ProperSubtypeData), (emittedEntries t)[i]? = some e →
        ∃ vp, ctp.subtypes[i]? = some vp ∧
          createSubtypeStruct k createStructured e.1 (basicSubtype e.1 e.2) = some vp := by
  rw [addComplexTypeDefn, split_eq ht, Option.bind_eq_bind, Option.bind_some, Option.bind_eq_bind,
    Option.bind_eq_some_iff] at h
  obtain ⟨subtypes, hsubtypes, h⟩ := h
  have hfilter : (t.entries.map fun e => (e.1, basicSubtype e.1 e.2)).filter (fun e => decide (e.1 ≠ BT_TABLE)) =
      (emittedEntries t).map fun e => (e.1, basicSubtype e.1 e.2) := List.filter_map ..
  obtain rfl := Option.some.inj h
  rw [hfilter] at hsubtypes ⊢
  refine ⟨rfl, List.foldl_map, fun i e he => ?_⟩
  obtain ⟨vp, hvp, hcreate⟩ := (mapM_eq_some hsubtypes).2 i _ (List.getElem?_map.trans (congrArg _ he))
  exact ⟨vp, hvp, hcreate⟩

variable (k createStructured) in
/-- There is a structure if there is one for each entry. -/
theorem exists_addComplexTypeDefn (ht : t.WF)
    (h : ∀ e ∈ emittedEntries t, ∃ vp, createSubtypeStruct k createStructured e.1 (basicSubtype e.1 e.2) = some vp) :
    ∃ ctp, addComplexTypeDefn k createStructured t = some ctp := by
  have hfilter : (t.entries.map fun e => (e.1, basicSubtype e.1 e.2)).filter (fun e => decide (e.1 ≠ BT_TABLE)) =
      (emittedEntries t).map fun e => (e.1, basicSubtype e.1 e.2) := List.filter_map ..
  obtain ⟨subtypes, hsubtypes, -⟩ := exists_mapM (f := fun e => createSubtypeStruct k createStructured e.1 e.2)
    (P := fun _ _ => True) (l := (emittedEntries t).map fun e => (e.1, basicSubtype e.1 e.2)) fun e he => by
      obtain ⟨e', he', rfl⟩ := List.mem_map.mp he
      obtain ⟨vp, hvp⟩ := h e' he'
      exact ⟨vp, hvp, trivial⟩
  rw [addComplexTypeDefn, split_eq ht, Option.bind_eq_bind, Option.bind_some, hfilter]
  dsimp only
  rw [hsubtypes]
  exact ⟨_, rfl⟩

/-- The bits of a structure, for the code of a value. -/
theorem emitted_getLsbD (ht : t.WF) {code : BasicTypeCode} (hcode : code ≠ BT_TABLE) :
    ((emittedEntries t).foldl (fun bits e => bits ||| basicType e.1) (0 : BasicTypeBitSet)).getLsbD code.val = true ↔
      ∃ d, lookupCode t.entries code = some d := by
  rw [getLsbD_foldl_iff]
  constructor
  · rintro ⟨e, he, heq⟩
    have hsame : e.1 = code := Fin.ext heq
    subst hsame
    exact ⟨e.2, (lookupCode_eq_some (rep_of_wf ht).sorted).mpr (List.mem_filter.mp he).1⟩
  · rintro ⟨d, hd⟩
    refine ⟨(code, d), List.mem_filter.mpr ⟨(lookupCode_eq_some (rep_of_wf ht).sorted).mp hd, ?_⟩, rfl⟩
    exact decide_eq_true hcode

/-- The test of a value asks the subtype of its basic type, if the type has only some of the values. -/
theorem containsTagged_eq {decQuadCompare : DecQuad → DecQuad → CompareClass} {m : Mem} (ht : t.WF)
    (h : addComplexTypeDefn k createStructured t = some ctp) {code : BasicTypeCode} (hcode : code ≠ BT_TABLE)
    {tp : TaggedPtr} (htag : utTag tp = code.val) {r : SubtypeData} (hr : subtypeData t code = some r) :
    (∃ b, r = .bool b ∧ ctp.containsTagged decQuadCompare m tp = some b) ∨
      ∃ d vp, r = .proper d ∧ lookupCode t.entries code = some d ∧
        createSubtypeStruct k createStructured code (basicSubtype code d) = some vp ∧
          ctp.containsTagged decQuadCompare m tp = vp.contains decQuadCompare m tp := by
  obtain ⟨hall, hsome, hsubtypes⟩ := addComplexTypeDefn_eq_some ht h
  obtain ⟨r', hat, hr'⟩ := atCode ht code
  cases hr.symm.trans hr'
  have hbit := emitted_getLsbD ht hcode
  unfold ComplexTypeStruct.containsTagged
  rw [hall, hsome, htag]
  cases hat with
  | whole a s l =>
    rw [if_pos a]
    exact Or.inl ⟨true, rfl, rfl⟩
  | nothing a s l =>
    have hnot : ((emittedEntries t).foldl (fun bits e => bits ||| basicType e.1)
        (0 : BasicTypeBitSet)).getLsbD code.val = false := by
      refine Bool.eq_false_of_not_eq_true fun hset => ?_
      obtain ⟨d, hd⟩ := hbit.mp hset
      rw [l] at hd
      cases hd
    rw [if_neg (by rw [a]; exact Bool.false_ne_true), hnot, Bool.not_false, if_pos rfl]
    exact Or.inl ⟨false, rfl, rfl⟩
  | @part d a s l =>
    have hmem : (code, d) ∈ emittedEntries t :=
      List.mem_filter.mpr ⟨(lookupCode_eq_some (rep_of_wf ht).sorted).mp l, decide_eq_true hcode⟩
    obtain ⟨i, hi⟩ := List.getElem?_of_mem hmem
    obtain ⟨vp, hvp, hcreate⟩ := hsubtypes i _ hi
    have hsorted : SortedCodes (emittedEntries t) := (rep_of_wf ht).sorted.sublist List.filter_sublist
    rw [if_neg (by rw [a]; exact Bool.false_ne_true), hbit.mpr ⟨d, l⟩, Bool.not_true,
      if_neg Bool.false_ne_true, popcountBelow_eq hsorted hi, hvp]
    exact Or.inr ⟨d, vp, rfl, l, hcreate, rfl⟩

end Emitted

/-! ## What the structures find -/

/-- The floats and the decimals of the language. -/
def languageValues : Universe := ⟨Set.range floatValue, {x | ∃ dq, IsNumber dq x}⟩

def namedFloats (t : SemType) : Set FloatValue := {x | ∃ r, subtypeData t BT_FLOAT = some r ∧ x ∈ listListed floatData r}

def namedDecimals (t : SemType) : Set Rat :=
  {x | ∃ r, subtypeData t BT_DECIMAL = some r ∧ x ∈ listListed decimalData r}

def namedStrings (t : SemType) : Set String := {s | ∃ r, subtypeData t BT_STRING = some r ∧ s ∈ stringListed r}

/-- The constants for the values that a type names are right, those in memory linked into a heap. -/
structure Constants.Right (k : Constants) (h : Heap) (t : SemType) : Prop where
  constFloat : ∀ {x}, x ∈ namedFloats t → floatValue (k.constFloat x) = x
  decimalText : ∀ {x}, x ∈ namedDecimals t → (k.decimalText x).value = x
  getInitString : ∀ {s}, s ∈ namedStrings t → Represents h (k.getInitString s) s.toList

/-- Data that a list is made of. -/
theorem listValid_proper {α : Type} {U : Set α} {unwrap : ProperSubtypeData → Option (EnumerableSubtype α)}
    {cmp : α → α → Ordering} {d : ProperSubtypeData} (h : ListValid U unwrap cmp (.proper d)) :
    ∃ sub, unwrap d = some sub ∧ sub.Valid cmp U ∧ sub.values ≠ [] := by
  obtain ⟨sub, hsub, hvalid, hne⟩ := h
  refine ⟨sub, hsub, hvalid, fun hnil => ?_⟩
  obtain ⟨b, hb⟩ := hne hnil
  cases hb

theorem mem_listDen_iff {α : Type} {unwrap : ProperSubtypeData → Option (EnumerableSubtype α)} {d : ProperSubtypeData}
    {sub : EnumerableSubtype α} (h : unwrap d = some sub) (x : α) :
    x ∈ listDen Set.univ unwrap (.proper d) ↔ (x ∈ sub.values ↔ sub.allowed = true) := by
  rw [listDen_eq (show listOf unwrap (.proper d) = some sub from h), Set.univ_inter]
  exact EnumerableSubtype.mem_den

section Finds

variable {α : Type} (structured : BasicTypeCode → ProperSubtypeData → Set α) (k : Constants)
  (createStructured : BasicTypeCode → SemType → UniformSubtype) (decQuadCompare : DecQuad → DecQuad → CompareClass)
  (h : Heap)

/-- The structure for data of a basic type finds out, whenever the program runs, which of its values the data have. -/
def FindsData (code : BasicTypeCode) (d : ProperSubtypeData) (vp : UniformSubtype) : Prop :=
  ∀ {h' : Heap} {tp : TaggedPtr} {v : BasicValue α}, h.Extends h' → Denotes h' tp v → v.code = code →
    Finds (vp.contains decQuadCompare h'.mem tp) (DataHas structured (.proper d) v)

/-- Data of a basic type get a structure, which finds their values. -/
def HasRightStruct (code : BasicTypeCode) (d : ProperSubtypeData) : Prop :=
  ∃ vp, createSubtypeStruct k createStructured code (basicSubtype code d) = some vp ∧
    FindsData structured decQuadCompare h code d vp

variable {structured k createStructured decQuadCompare h} {d : ProperSubtypeData} {t : SemType}

theorem boolean_right (hd : NormalData languageValues BT_BOOLEAN d) :
    HasRightStruct structured k createStructured decQuadCompare h BT_BOOLEAN d := by
  obtain ⟨value, rfl⟩ := hd.boolean rfl
  refine ⟨.boolean value, ?_, fun {h' tp v} _ hv hcode => ?_⟩
  · rw [createSubtypeStruct, if_pos rfl, createBooleanSubtypeStruct, subtypeData_basicSubtype]
  · cases hv with
    | boolean b =>
      refine (boolean_contains_finds decQuadCompare h'.mem value b).congr ?_
      refine ⟨fun heq => Or.inr (by rw [heq]), fun hhas => ?_⟩
      rcases hhas with hhas | hhas
      · cases hhas
      · cases hhas
        rfl
    | _ => cases hcode

theorem int_right (hd : NormalData languageValues BT_INT d) :
    HasRightStruct structured k createStructured decQuadCompare h BT_INT d := by
  obtain ⟨ranges, rfl, hnormalised, hne, -⟩ := hd.int rfl
  have hranges : ranges.Pairwise fun r s => r.max < s.min := by
    refine hnormalised.apart.imp fun hapart => ?_
    unfold Range.Apart at hapart
    omega
  refine ⟨.int ranges, ?_, fun {h' tp v} _ hv hcode => ?_⟩
  · rw [createSubtypeStruct, if_neg (by decide), if_pos rfl, createIntSubtypeStruct, subtypeData_basicSubtype]
    exact if_neg (mt List.length_eq_zero_iff.mp hne)
  · cases hv with
    | int _ => exact (int_contains_finds hne hranges).congr (intSubtypeContains_iff ranges _).symm
    | _ => cases hcode

theorem float_right (hk : k.Right h t) (hdata : subtypeData t BT_FLOAT = some (.proper d))
    (hd : NormalData languageValues BT_FLOAT d) :
    HasRightStruct structured k createStructured decQuadCompare h BT_FLOAT d := by
  obtain ⟨sub, hsub, hvalid, hne⟩ := listValid_proper (hd.float rfl)
  have hfloats : List.Forall₂ (fun w x => floatValue w = x) (sub.values.map k.constFloat) sub.values :=
    List.forall₂_map_left_iff.mpr (List.forall₂_same.mpr fun x hx => hk.constFloat ⟨_, hdata, sub, hsub, hx⟩)
  refine ⟨.float (sub.values.map k.constFloat) sub.allowed, ?_, fun {h' tp v} _ hv hcode => ?_⟩
  · rw [eq_float_of_floatData hsub, createSubtypeStruct, if_neg (by decide), if_neg (by decide), if_pos rfl,
      createFloatSubtypeStruct, subtypeData_basicSubtype]
    exact if_neg (mt List.length_eq_zero_iff.mp hne)
  · cases hv with
    | float _ =>
      exact (float_contains_finds hfloats hne hvalid.sorted sub.allowed).congr (mem_listDen_iff hsub _).symm
    | _ => cases hcode

variable (k createStructured) in
/-- What of a decimal type depends on the words of its decimals. -/
theorem decimal_struct (hd : NormalData languageValues BT_DECIMAL d) :
    ∃ sub, decimalData d = some sub ∧ sub.Valid compareEnumerable languageValues.decimals ∧
      createSubtypeStruct k createStructured BT_DECIMAL (basicSubtype BT_DECIMAL d) =
        (sub.values.mapM k.getInitDecimal).map fun decimals => .decimal decimals sub.allowed := by
  obtain ⟨sub, hsub, hvalid, hne⟩ := listValid_proper (hd.decimal rfl)
  refine ⟨sub, hsub, hvalid, ?_⟩
  rw [eq_decimal_of_decimalData hsub, createSubtypeStruct, if_neg (by decide), if_neg (by decide),
    if_neg (by decide), if_pos rfl, createDecimalSubtypeStruct, subtypeData_basicSubtype]
  exact if_neg (mt List.length_eq_zero_iff.mp hne)

/-- The words of a decimal whose text can be encoded. -/
theorem getInitDecimal_isNumber {x : Rat} (htext : (k.decimalText x).value = x)
    (hencodable : (k.decimalText x).Encodable) : ∃ dq, k.getInitDecimal x = some dq ∧ IsNumber dq x := by
  have hright := (toLeDpd_encodes_iff (k.decimalText x)).mpr hencodable
  obtain ⟨d', hbind, hvalue⟩ := Option.map_eq_some_iff.mp hright
  obtain ⟨words, hwords, hdecode⟩ := Option.bind_eq_some_iff.mp hbind
  refine ⟨words, hwords, ?_⟩
  rw [IsNumber, hdecode, Option.map_some, hvalue, htext]

theorem decimal_right (hcompare : ComparesDecimals decQuadCompare) (hk : k.Right h t)
    (hencodable : ∀ x ∈ namedDecimals t, (k.decimalText x).Encodable)
    (hdata : subtypeData t BT_DECIMAL = some (.proper d)) (hd : NormalData languageValues BT_DECIMAL d) :
    HasRightStruct structured k createStructured decQuadCompare h BT_DECIMAL d := by
  obtain ⟨sub, hsub, hvalid, hcreate⟩ := decimal_struct k createStructured hd
  obtain ⟨decimals, hdecimals, hnumbers⟩ := exists_mapM (P := fun x dq => IsNumber dq x) (l := sub.values) fun x hx =>
    have hnamed : x ∈ namedDecimals t := ⟨_, hdata, sub, hsub, hx⟩
    getInitDecimal_isNumber (hk.decimalText hnamed) (hencodable x hnamed)
  have hsorted : sub.values.Pairwise (· ≤ ·) := hvalid.sorted.imp fun hlt => le_of_lt (compareEnumerable_lt.mp hlt)
  rw [hdecimals] at hcreate
  refine ⟨.decimal decimals sub.allowed, hcreate, fun {h' tp v} _ hv hcode => ?_⟩
  cases hv with
  | decimal _ hx =>
    exact (decimal_contains_finds hcompare hnumbers.flip hsorted sub.allowed hx).congr (mem_listDen_iff hsub _).symm
  | _ => cases hcode

/-- Which strings the two parts of a type have between them. -/
theorem mem_stringDen_iff {sub : StringSubtype} (hvalid : sub.Valid) (s : List Char) :
    String.ofList s ∈ sub.den ↔ (String.ofList s ∈ sub.char.values ∨ String.ofList s ∈ sub.nonChar.values ↔
      (if s.length = 1 then sub.char.allowed else sub.nonChar.allowed) = true) := by
  have hlength : String.ofList s ∈ Chars ↔ s.length = 1 := by
    show (String.ofList s).length = 1 ↔ _
    rw [String.length_ofList]
  have hchar : String.ofList s ∈ sub.char.values → s.length = 1 := fun hin => hlength.mp (hvalid.char.within _ hin)
  have hnonChar : String.ofList s ∈ sub.nonChar.values → s.length ≠ 1 := fun hin hone =>
    hvalid.nonChar.within _ hin (hlength.mpr hone)
  rw [StringSubtype.den]
  simp only [Set.mem_union, Set.mem_inter_iff, Set.mem_compl_iff, EnumerableSubtype.mem_den, hlength]
  by_cases hone : s.length = 1
  · simp only [hone, if_true, not_true, false_and, or_false, true_and]
    rw [or_iff_left fun hin => hnonChar hin hone]
  · simp only [hone, if_false, not_false_iff, false_and, false_or, true_and]
    rw [or_iff_right fun hin => hone (hchar hin)]

/-- The strings are sorted once more, as the characters may be anywhere among the others. -/
theorem string_right (hk : k.Right h t) (hdata : subtypeData t BT_STRING = some (.proper d))
    (hd : NormalData languageValues BT_STRING d) :
    HasRightStruct structured k createStructured decQuadCompare h BT_STRING d := by
  obtain ⟨sub, hsub, hvalid, -⟩ := hd.string rfl
  obtain rfl : d = .string sub := by
    cases d with
    | string _ =>
      cases hsub
      rfl
    | _ => cases hsub
  have hmem : ∀ str, str ∈ (sub.char.values ++ sub.nonChar.values).mergeSort (fun a b => decide (a ≤ b)) ↔
      str ∈ sub.char.values ∨ str ∈ sub.nonChar.values := fun str => List.mem_mergeSort.trans List.mem_append
  generalize hstrs : (sub.char.values ++ sub.nonChar.values).mergeSort (fun a b => decide (a ≤ b)) = strs at hmem
  have hsorted : (strs.map String.toList).Pairwise (· ≤ ·) := by
    rw [← hstrs]
    refine List.pairwise_map.mpr ((List.pairwise_mergeSort (fun a b c hab hbc => ?_) (fun a b => ?_) _).imp ?_)
    · exact decide_eq_true (le_trans (of_decide_eq_true hab) (of_decide_eq_true hbc))
    · rw [Bool.or_eq_true, decide_eq_true_iff, decide_eq_true_iff]
      exact le_total a b
    · intro a b hab
      exact String.le_iff_toList_le.mp (of_decide_eq_true hab)
  refine ⟨.string (strs.map k.getInitString) sub.char.allowed sub.nonChar.allowed, ?_,
    fun {h' tp v} hextends hv hcode => ?_⟩
  · rw [createSubtypeStruct, if_neg (by decide), if_neg (by decide), if_neg (by decide), if_neg (by decide),
      if_pos rfl, createStringSubtypeStruct, subtypeData_basicSubtype, ← hstrs]
  · have hrepresents : List.Forall₂ (Represents h') (strs.map k.getInitString) (strs.map String.toList) := by
      refine List.forall₂_map_left_iff.mpr (List.forall₂_map_right_iff.mpr (List.forall₂_same.mpr fun str hstr => ?_))
      exact (hk.getInitString ⟨_, hdata, sub, rfl, (hmem str).mp hstr⟩).extends hextends
    cases hv with
    | @string _ s hs =>
      refine (string_contains_finds hrepresents hsorted _ _ hs).congr ?_
      show _ ↔ String.ofList s ∈ stringDen (.proper (.string sub))
      have hlist : s ∈ strs.map String.toList ↔ String.ofList s ∈ strs := by
        refine ⟨fun hin => ?_, fun hin => List.mem_map.mpr ⟨_, hin, String.toList_ofList⟩⟩
        obtain ⟨str, hstr, rfl⟩ := List.mem_map.mp hin
        rwa [String.ofList_toList]
      rw [hlist, hmem, stringDen_eq (show stringOf (.proper (.string sub)) = some sub from rfl),
        mem_stringDen_iff hvalid]
    | _ => cases hcode

end Finds

/-! ## The test -/

section Tests

variable {α : Type} (structured : BasicTypeCode → ProperSubtypeData → Set α)

/-- Whenever the program runs, the test finds out whether a value belongs to the type. -/
def Tests (decQuadCompare : DecQuad → DecQuad → CompareClass) (h : Heap) (t : SemType) (ctp : ComplexTypeStruct) :
    Prop :=
  ∀ {h' : Heap} {tp : TaggedPtr} {v : BasicValue α}, h.Extends h' → Denotes h' tp v →
    Finds (ctp.containsTagged decQuadCompare h'.mem tp) (Types.Holds structured t v)

/-- A basic type of which a part can be tested at all, or is left out. -/
def HasStruct (code : BasicTypeCode) : Prop :=
  code ≤ BT_STRING ∨ code = BT_LIST ∨ code = BT_MAPPING ∨ code = BT_FUNCTION ∨ code = BT_TABLE

variable {structured} {k : Constants} {createStructured : BasicTypeCode → SemType → UniformSubtype}
  {decQuadCompare : DecQuad → DecQuad → CompareClass} {h : Heap} {t : SemType}

theorem holds_iff {v : BasicValue α} {r : SubtypeData} (hr : subtypeData t v.code = some r) :
    Types.Holds structured t v ↔ DataHas structured r v := by
  refine ⟨fun ⟨r', hr', hhas⟩ => ?_, fun hhas => ⟨r, hr, hhas⟩⟩
  rw [hr, Option.some.injEq] at hr'
  rwa [hr']

theorem subtypeData_of_lookup (ht : t.WF) {code : BasicTypeCode} {d : ProperSubtypeData}
    (hlookup : lookupCode t.entries code = some d) : subtypeData t code = some (.proper d) := by
  obtain ⟨r, hat, hr⟩ := atCode ht code
  rw [hr]
  cases hat with
  | whole _ _ l | nothing _ _ l =>
    rw [hlookup] at l
    cases l
  | part _ _ l =>
    rw [hlookup, Option.some.injEq] at l
    rw [l]

theorem code_cases_le : ∀ code : BasicTypeCode, code ≤ BT_STRING → code ≠ BT_NIL →
    code = BT_BOOLEAN ∨ code = BT_INT ∨ code = BT_FLOAT ∨ code = BT_DECIMAL ∨ code = BT_STRING := by
  decide

/-- The test that is emitted for a type is right, for every value and at any time, if the texts of the decimals that
the type names can be encoded. -/
theorem complexTypeDefn_tests [BddIdentity] (hbuilt : Built languageValues t)
    (hcodes : ∀ e ∈ t.entries, HasStruct e.1) (hk : k.Right h t) (hcompare : ComparesDecimals decQuadCompare)
    (hencodable : ∀ x ∈ namedDecimals t, (k.decimalText x).Encodable) :
    ∃ ctp, addComplexTypeDefn k createStructured t = some ctp ∧ Tests structured decQuadCompare h t ctp := by
  have ht := hbuilt.inNormalForm
  have hright : ∀ {code d}, code ≤ BT_STRING → lookupCode t.entries code = some d →
      HasRightStruct structured k createStructured decQuadCompare h code d := by
    intro code d hle hlookup
    have hdata := subtypeData_of_lookup ht.data.wf hlookup
    have hd : NormalData languageValues code d := valid_of_lookup ht.data.wf ht.data.valid hlookup
    rcases code_cases_le code hle hd.notNil with rfl | rfl | rfl | rfl | rfl
    · exact boolean_right hd
    · exact int_right hd
    · exact float_right hk hdata hd
    · exact decimal_right hcompare hk hencodable hdata hd
    · exact string_right hk hdata hd
  have hlookup : ∀ {e}, e ∈ t.entries → lookupCode t.entries e.1 = some e.2 :=
    fun he => (lookupCode_eq_some (rep_of_wf ht.data.wf).sorted).mpr he
  obtain ⟨ctp, hctp⟩ := exists_addComplexTypeDefn k createStructured ht.data.wf
    fun e he => by
      obtain ⟨he, hne⟩ := List.mem_filter.mp he
      rcases hcodes e he with hle | hother
      · obtain ⟨vp, hvp, -⟩ := hright hle (hlookup he)
        exact ⟨vp, hvp⟩
      · have hstructured : createSubtypeStruct k createStructured e.1 (basicSubtype e.1 e.2) =
            some (createStructured e.1 (basicSubtype e.1 e.2)) := by
          have hcode : e.1 = BT_LIST ∨ e.1 = BT_MAPPING ∨ e.1 = BT_FUNCTION := by
            rcases hother with hcode | hcode | hcode | hcode
            · exact Or.inl hcode
            · exact Or.inr (Or.inl hcode)
            · exact Or.inr (Or.inr hcode)
            · exact absurd hcode (of_decide_eq_true hne)
          have hnot : ∀ {c : BasicTypeCode}, c ≤ BT_STRING → e.1 ≠ c := by
            rintro c hc rfl
            rcases hcode with hcode | hcode | hcode <;> exact absurd (hcode ▸ hc) (by decide)
          rw [createSubtypeStruct, if_neg (hnot (by decide)), if_neg (hnot (by decide)), if_neg (hnot (by decide)),
            if_neg (hnot (by decide)), if_neg (hnot (by decide)), if_pos hcode]
        exact ⟨_, hstructured⟩
  refine ⟨ctp, hctp, fun {h' tp v} hextends hv => ?_⟩
  have hcode : v.code ≠ BT_TABLE := fun heq => absurd (heq ▸ hv.code_le : BT_TABLE ≤ BT_STRING) (by decide)
  obtain ⟨r, -, hr⟩ := atCode ht.data.wf v.code
  rcases containsTagged_eq (m := h'.mem) ht.data.wf hctp hcode hv.utTag_eq hr with
    ⟨b, rfl, htest⟩ | ⟨d, vp, rfl, hlookup, hcreate, htest⟩
  · refine ⟨b, htest, ?_⟩
    rw [holds_iff hr]
    cases b with
    | true => exact iff_of_true rfl (dataHas_true structured v)
    | false => exact iff_of_false Bool.false_ne_true (not_dataHas_false structured v)
  · obtain ⟨vp', hcreate', hfinds⟩ := hright hv.code_le hlookup
    rw [hcreate, Option.some.injEq] at hcreate'
    subst hcreate'
    rw [htest]
    exact (hfinds hextends hv rfl).congr (holds_iff hr).symm

end Tests

/-! ## A decimal -/

/-- The constants of a program with the decimal `-0.5`. -/
def minusHalfConstants : Constants where
  constFloat _ := 0#64
  decimalText _ := minusHalf
  getInitString _ := 0#64

theorem minusHalf_value : minusHalf.value = -1 / 2 := by
  unfold DecimalText.value
  rw [show minusHalf.coefficient = 5 from rfl, show minusHalf.exponent = -1 from rfl,
    show minusHalf.negative = true from rfl]
  norm_num

theorem minusHalf_mem : (-1 / 2 : Rat) ∈ languageValues.decimals := by
  have hright := (toLeDpd_encodes_iff minusHalf).mpr (by decide)
  obtain ⟨d, hbind, hvalue⟩ := Option.map_eq_some_iff.mp hright
  obtain ⟨words, -, hdecode⟩ := Option.bind_eq_some_iff.mp hbind
  exact ⟨words, by rw [IsNumber, hdecode, Option.map_some, hvalue, minusHalf_value]⟩

theorem minusHalfConstants_right :
    minusHalfConstants.Right ⟨fun _ => 0#8, []⟩ (decimalConst (-1 / 2)) where
  constFloat := by
    rintro x ⟨r, hr, hx⟩
    cases (show subtypeData (decimalConst (-1 / 2)) BT_FLOAT = some (.bool false) from rfl).symm.trans hr
    rw [listListed_bool] at hx
    exact absurd hx (Set.notMem_empty x)
  decimalText := by
    rintro x ⟨r, hr, sub, hsub, hx⟩
    cases (subtypeData_basicSubtype _ _).symm.trans hr
    cases hsub
    rw [List.mem_singleton.mp hx]
    exact minusHalf_value
  getInitString := by
    rintro s ⟨r, hr, hs⟩
    cases (show subtypeData (decimalConst (-1 / 2)) BT_STRING = some (.bool false) from rfl).symm.trans hr
    rw [stringListed_bool] at hs
    exact absurd hs (Set.notMem_empty s)

theorem complexTypeDefn_tests_minusHalf : let _ := BddIdentity.shared
    ∃ ctp, addComplexTypeDefn minusHalfConstants (fun _ _ => .boolean false) (decimalConst (-1 / 2)) = some ctp ∧
      Tests noStructures compareNumbers ⟨fun _ => 0#8, []⟩ (decimalConst (-1 / 2)) ctp := by
  let _ := BddIdentity.shared
  have hbuilt : Built languageValues (decimalConst (-1 / 2)) := .decimal minusHalf_mem
  have hcodes : ∀ e ∈ (decimalConst (-1 / 2)).entries, HasStruct e.1 := by
    intro e he
    rw [decimalConst, entries_basicSubtype, List.mem_singleton] at he
    rw [he]
    exact Or.inl (by decide)
  have hencodable : minusHalf.Encodable := by decide
  exact complexTypeDefn_tests hbuilt hcodes minusHalfConstants_right comparesDecimals_compareNumbers
    fun _ _ => hencodable

end Nballerina.Nback
