import Nballerina.Types.BitSetOps
import Nballerina.Types.CellSem
import Nballerina.Types.ListAllRanges
import Nballerina.Types.Values

/-!
# Normal forms of types

The comment at `ComplexSemType` (`core.bal`) says what a complex type looks like: `all` and `some` have no bit in
common, and there is one entry, in the order of the codes, for each bit of `some`. The operations also never make one
without entries, and the data of `boolean`, `int`, `string`, `float` and `decimal` that they make are neither nothing
nor everything. So two types without structures are the same if and only if they have the same values
(`built_eq_iff`).

The exception are lists that name every value there is: no operation compares a list with all characters, floats or
decimals (`not_normal_allChars`).

Mirroring notes:
- What floats and decimals there are is a parameter (`Universe`).
- `intWidthSigned` and `intWidthUnsigned` make ranges, as `intRange` (`intRangeSemType` here) does.
- What else the constructors of structures make are types of one basic type, whose data are not looked at here.
-/

namespace Nballerina.Types

/-! ## Lists of ranges with the same ints -/

theorem Normalised.head_le {r : Range} {v : List Range} (h : Normalised (r :: v)) {n : Int}
    (hn : rangesHave (r :: v) n) : r.min ≤ n := by
  obtain ⟨s, hs, hsn⟩ := hn
  rcases List.mem_cons.mp hs with rfl | hs
  · exact hsn.1
  · exact Int.le_trans (h.min_le s hs).2 hsn.1

theorem Normalised.head_max_le {r s : Range} {v w : List Range} (h : Normalised (r :: v))
    (hmin : s.min = r.min) (hsub : ∀ n, rangesHave (s :: w) n → rangesHave (r :: v) n) : s.max ≤ r.max := by
  by_contra hgt
  have hne := (h.fits r (.head _)).nonempty
  -- the int after the end of `r` is in no range
  have hnext : rangesHave (r :: v) (r.max + 1) := by
    refine hsub _ ((rangesHave_cons s w _).mpr (.inl ⟨?_, ?_⟩))
    · omega
    · omega
  rcases (rangesHave_cons r v _).mp hnext with hr | ⟨t, ht, htn⟩
  · have hle := hr.2
    omega
  · have hlt := (h.min_le t ht).1
    have hle := htn.1
    omega

/-- A normalised list is told by its ints. -/
theorem Normalised.eq_of_rangesHave : ∀ {v w : List Range}, Normalised v → Normalised w →
    (∀ n, rangesHave v n ↔ rangesHave w n) → v = w
  | [], [], _, _, _ => rfl
  | [], s :: w, _, hw, h => by
    have hfits := hw.fits s (.head _)
    exact absurd ((h s.min).mpr ⟨s, .head _, le_refl _, hfits.nonempty⟩) (by simp)
  | r :: v, [], hv, _, h => by
    have hfits := hv.fits r (.head _)
    exact absurd ((h r.min).mp ⟨r, .head _, le_refl _, hfits.nonempty⟩) (by simp)
  | r :: v, s :: w, hv, hw, h => by
    have hrfits := hv.fits r (.head _)
    have hsfits := hw.fits s (.head _)
    have hmin : r.min = s.min := by
      have h1 := hw.head_le ((h r.min).mp ⟨r, .head _, le_refl _, hrfits.nonempty⟩)
      have h2 := hv.head_le ((h s.min).mpr ⟨s, .head _, le_refl _, hsfits.nonempty⟩)
      omega
    have hmax : r.max = s.max := by
      have h1 := hv.head_max_le hmin.symm fun n hn => (h n).mpr hn
      have h2 := hw.head_max_le hmin fun n hn => (h n).mp hn
      omega
    obtain rfl : r = s := by
      obtain ⟨rmin, rmax⟩ := r
      obtain ⟨smin, smax⟩ := s
      cases hmin
      cases hmax
      rfl
    have htail : ∀ n, rangesHave v n ↔ rangesHave w n := by
      intro n
      constructor
      · intro hn
        rcases (rangesHave_cons r w n).mp ((h n).mp ((rangesHave_cons r v n).mpr (.inr hn))) with hr | hn'
        · exact absurd hn (hv.not_has_tail hr)
        · exact hn'
      · intro hn
        rcases (rangesHave_cons r v n).mp ((h n).mpr ((rangesHave_cons r w n).mpr (.inr hn))) with hr | hn'
        · exact absurd hn (hw.not_has_tail hr)
        · exact hn'
    rw [Normalised.eq_of_rangesHave (normalised_cons.mp hv).2.2 (normalised_cons.mp hw).2.2 htail]

def allInts : List Range := [⟨intMinValue, intMaxValue⟩]

theorem normalised_allInts : Normalised allInts := normalised_singleton (le_refl _) (by decide) (le_refl _)

theorem rangesHave_allInts (n : Int) : rangesHave allInts n ↔ intMinValue ≤ n ∧ n ≤ intMaxValue := by
  unfold allInts
  rw [rangesHave_cons, rangesHave_nil, or_false]
  rfl

/-! ## Data in normal form -/

/-- The floats and the decimals that there are. -/
structure Universe where
  floats : Set FloatValue
  decimals : Set Rat

/-- The value is one of its basic type. -/
def Universe.Has {α : Type} (U : Universe) : BasicValue α → Prop
  | .nil | .boolean _ | .string _ => True
  | .int n => intMinValue ≤ n ∧ n ≤ intMaxValue
  | .float x => x ∈ U.floats
  | .decimal x => x ∈ U.decimals
  | .structured code _ => BT_STRING < code

/-- Data of a basic type as the operations make them, neither nothing nor everything. -/
structure NormalData (U : Universe) (code : BasicTypeCode) (d : ProperSubtypeData) : Prop where
  notNil : code ≠ BT_NIL
  boolean : code = BT_BOOLEAN → ∃ b, d = .boolean b
  int : code = BT_INT → ∃ v, d = .int v ∧ Normalised v ∧ v ≠ [] ∧ v ≠ allInts
  float : code = BT_FLOAT → ListValid U.floats floatData compareFloat (.proper d)
  decimal : code = BT_DECIMAL → ListValid U.decimals decimalData compareEnumerable (.proper d)
  string : code = BT_STRING → StringValid (.proper d)

/-- The lists of two data of a basic type name all its values between them; of `string`, all characters. -/
def AllListed (U : Universe) (code : BasicTypeCode) (r r' : SubtypeData) : Prop :=
  (code = BT_FLOAT ∧ U.floats ⊆ listListed floatData r ∪ listListed floatData r') ∨
    (code = BT_DECIMAL ∧ U.decimals ⊆ listListed decimalData r ∪ listListed decimalData r') ∨
    (code = BT_STRING ∧ Chars ⊆ stringListed r ∪ stringListed r')

theorem exactEnumerable_floats (U : Set FloatValue) : ExactEnumerable U U (listDen U floatData)
    (listListed floatData) (ListValid U floatData compareFloat) floatSubtypeUnion floatSubtypeIntersect
    floatSubtypeComplement :=
  exactEnumerable_list (fun _ => rfl) (fun _ _ => eq_float_of_floatData) (fun _ _ => rfl)
    (fun _ _ => rfl) fun _ => rfl

theorem exactEnumerable_decimals (U : Set Rat) : ExactEnumerable U U (listDen U decimalData)
    (listListed decimalData) (ListValid U decimalData compareEnumerable) decimalSubtypeUnion
    decimalSubtypeIntersect decimalSubtypeComplement :=
  exactEnumerable_list (fun _ => rfl) (fun _ _ => eq_decimal_of_decimalData) (fun _ _ => rfl)
    (fun _ _ => rfl) fun _ => rfl

section Closed

variable {U : Universe}

theorem normalData_boolean (b : Bool) :
    NormalData U BT_BOOLEAN (.boolean b) where
  notNil := by decide
  boolean _ := ⟨b, rfl⟩
  int heq := by cases heq
  float heq := by cases heq
  decimal heq := by cases heq
  string heq := by cases heq

theorem normalData_int {v : List Range} (h : Normalised v) (hne : v ≠ []) (hall : v ≠ allInts) :
    NormalData U BT_INT (.int v) where
  notNil := by decide
  boolean heq := by cases heq
  int _ := ⟨v, rfl, h, hne, hall⟩
  float heq := by cases heq
  decimal heq := by cases heq
  string heq := by cases heq

variable {d : ProperSubtypeData}

theorem normalData_float (h : ListValid U.floats floatData compareFloat (.proper d)) :
    NormalData U BT_FLOAT d where
  notNil := by decide
  boolean heq := by cases heq
  int heq := by cases heq
  float _ := h
  decimal heq := by cases heq
  string heq := by cases heq

theorem normalData_decimal (h : ListValid U.decimals decimalData compareEnumerable (.proper d)) :
    NormalData U BT_DECIMAL d where
  notNil := by decide
  boolean heq := by cases heq
  int heq := by cases heq
  float heq := by cases heq
  decimal _ := h
  string heq := by cases heq

theorem normalData_string (h : StringValid (.proper d)) :
    NormalData U BT_STRING d where
  notNil := by decide
  boolean heq := by cases heq
  int heq := by cases heq
  float heq := by cases heq
  decimal heq := by cases heq
  string _ := h

/-- Nothing is asked of the structured types. -/
theorem normalData_structured {code : BasicTypeCode} (h : BT_STRING < code) (d : ProperSubtypeData) :
    NormalData U code d := by
  have hne : ∀ {c : BasicTypeCode}, c ≤ BT_STRING → code ≠ c := fun hle heq => absurd (heq ▸ h) (not_lt.mpr hle)
  exact ⟨hne (by decide), fun heq => absurd heq (hne (by decide)), fun heq => absurd heq (hne (by decide)),
    fun heq => absurd heq (hne (by decide)), fun heq => absurd heq (hne (by decide)),
    fun heq => absurd heq (hne (by decide))⟩

/-- A code has data of its own, or it is `nil` or of a structure. -/
theorem code_cases_nil (code : BasicTypeCode) : code = BT_BOOLEAN ∨ code = BT_INT ∨ code = BT_FLOAT ∨
    code = BT_DECIMAL ∨ code = BT_STRING ∨ code = BT_NIL ∨ BT_STRING < code := by
  revert code
  decide

/-- A union of normalised ranges is normalised. -/
theorem normalData_intUnion {v1 v2 : List Range} (h1 : Normalised v1) (hne : v1 ≠ []) (h2 : Normalised v2)
    (hall : rangeListUnion v1 v2 ≠ allInts) : NormalData U BT_INT (.int (rangeListUnion v1 v2)) := by
  obtain ⟨v, hv, _, hhave⟩ := rangeListUnion64_right v1 v2 h1 h2
  have heq : rangeListUnion v1 v2 = v := by
    obtain ⟨result, hresult, rfl⟩ := Option.map_eq_some_iff.mp hv
    unfold rangeListUnion
    rw [eq_of_rangeListUnionLoop64 [] v1 v2 hresult]
  refine normalData_int (normalised_rangeListUnion h1 h2) (fun hnil => ?_) hall
  obtain ⟨r, rest, rfl⟩ := List.exists_cons_of_ne_nil hne
  have hr : rangesHave v r.min := (hhave r.min).mpr
    (.inl ⟨r, .head _, le_refl _, (h1.fits r (.head _)).nonempty⟩)
  rw [← heq, hnil] at hr
  exact absurd hr (by simp)

theorem normalData_intIntersect {v1 v2 : List Range} (h1 : Normalised v1) (hall : v1 ≠ allInts)
    (h2 : Normalised v2) (hne : rangeListIntersect v1 v2 ≠ []) :
    NormalData U BT_INT (.int (rangeListIntersect v1 v2)) := by
  refine normalData_int (normalised_rangeListIntersect h1 h2) hne fun heq => hall ?_
  refine h1.eq_of_rangesHave normalised_allInts fun n => ?_
  rw [rangesHave_allInts]
  refine ⟨h1.in64, fun hn => ?_⟩
  rw [← rangesHave_allInts, ← heq] at hn
  exact (has_of_rangeListIntersect hn).1

theorem normalData_intComplement {v w : List Range} (h : Normalised v) (hne : v ≠ []) (hall : v ≠ allInts)
    (hw : rangeListComplement v = some w) : NormalData U BT_INT (.int w) := by
  obtain ⟨w', hw', hnormalised, hhave⟩ := rangeListComplement_right h hne
  cases hw.symm.trans hw'
  refine normalData_int hnormalised (fun hnil => hall ?_) fun heq => hne ?_
  · refine h.eq_of_rangesHave normalised_allInts fun n => ?_
    rw [rangesHave_allInts]
    refine ⟨h.in64, fun hn => ?_⟩
    by_contra hnot
    have hin := (hhave n).mpr ⟨hn, hnot⟩
    rw [hnil] at hin
    exact absurd hin (by simp)
  · refine h.eq_of_rangesHave normalised_nil fun n => ?_
    refine ⟨fun hn => ?_, fun hn => absurd hn (by simp)⟩
    have hin : rangesHave w n := by
      rw [heq, rangesHave_allInts]
      exact h.in64 hn
    exact absurd hn ((hhave n).mp hin).2

variable [BddIdentity]

/-- The operations of each basic type keep its data normal. -/
theorem closedOps_normal : ClosedOps (NormalData U) ops where
  union {c d1 d2 d} h1 h2 h := by
    rcases code_cases_nil c with rfl | rfl | rfl | rfl | rfl | rfl | hother
    · obtain ⟨b1, rfl⟩ := h1.boolean rfl
      obtain ⟨b2, rfl⟩ := h2.boolean rfl
      have h : (if b1 = b2 then SubtypeDataOf.proper (.boolean b1) else .bool true) = .proper d :=
        Option.some.inj h
      split at h
      · cases h
        exact normalData_boolean b1
      · cases h
    · obtain ⟨v1, rfl, hv1, hne1, _⟩ := h1.int rfl
      obtain ⟨v2, rfl, hv2, _, _⟩ := h2.int rfl
      have h : (if rangeListUnion v1 v2 = allInts then SubtypeDataOf.bool true
          else .proper (.int (rangeListUnion v1 v2))) = .proper d := Option.some.inj h
      split at h
      next => cases h
      next hall =>
        cases h
        exact normalData_intUnion hv1 hne1 hv2 hall
    · obtain ⟨r, hr, hvalid, _⟩ := (exactEnumerable_floats U.floats).union (h1.float rfl) (h2.float rfl)
      cases hr.symm.trans h
      exact normalData_float hvalid
    · obtain ⟨r, hr, hvalid, _⟩ := (exactEnumerable_decimals U.decimals).union (h1.decimal rfl) (h2.decimal rfl)
      cases hr.symm.trans h
      exact normalData_decimal hvalid
    · obtain ⟨r, hr, hvalid, _⟩ := exactEnumerable_string.union (h1.string rfl) (h2.string rfl)
      cases hr.symm.trans h
      exact normalData_string hvalid
    · exact absurd rfl h1.notNil
    · exact normalData_structured hother d
  intersect {c d1 d2 d} h1 h2 h := by
    rcases code_cases_nil c with rfl | rfl | rfl | rfl | rfl | rfl | hother
    · obtain ⟨b1, rfl⟩ := h1.boolean rfl
      obtain ⟨b2, rfl⟩ := h2.boolean rfl
      have h : (if b1 = b2 then SubtypeDataOf.proper (.boolean b1) else .bool false) = .proper d :=
        Option.some.inj h
      split at h
      · cases h
        exact normalData_boolean b1
      · cases h
    · obtain ⟨v1, rfl, hv1, _, hall1⟩ := h1.int rfl
      obtain ⟨v2, rfl, hv2, _, _⟩ := h2.int rfl
      have h : (if (rangeListIntersect v1 v2).isEmpty then SubtypeDataOf.bool false
          else .proper (.int (rangeListIntersect v1 v2))) = .proper d := Option.some.inj h
      split at h
      next => cases h
      next hne =>
        cases h
        exact normalData_intIntersect hv1 hall1 hv2 fun hnil => hne (by rw [hnil]; rfl)
    · obtain ⟨r, hr, hvalid, _⟩ := (exactEnumerable_floats U.floats).intersect (h1.float rfl) (h2.float rfl)
      cases hr.symm.trans h
      exact normalData_float hvalid
    · obtain ⟨r, hr, hvalid, _⟩ :=
        (exactEnumerable_decimals U.decimals).intersect (h1.decimal rfl) (h2.decimal rfl)
      cases hr.symm.trans h
      exact normalData_decimal hvalid
    · obtain ⟨r, hr, hvalid, _⟩ := exactEnumerable_string.intersect (h1.string rfl) (h2.string rfl)
      cases hr.symm.trans h
      exact normalData_string hvalid
    · exact absurd rfl h1.notNil
    · exact normalData_structured hother d
  diff {c op d1 d2 d} h1 h2 hdiff h := by
    rcases code_cases_nil c with rfl | rfl | rfl | rfl | rfl | rfl | hother
    · obtain ⟨b1, rfl⟩ := h1.boolean rfl
      obtain ⟨b2, rfl⟩ := h2.boolean rfl
      obtain rfl : booleanSubtypeDiff = op := Option.some.inj hdiff
      have h : (if b1 = b2 then SubtypeDataOf.bool false else .proper (.boolean b1)) = .proper d :=
        Option.some.inj h
      split at h
      · cases h
      · cases h
        exact normalData_boolean b1
    · cases hdiff
    · cases hdiff
    · cases hdiff
    · cases hdiff
    · exact absurd rfl h1.notNil
    · exact normalData_structured hother d
  complement {c d1 d} h1 h := by
    rcases code_cases_nil c with rfl | rfl | rfl | rfl | rfl | rfl | hother
    · obtain ⟨b, rfl⟩ := h1.boolean rfl
      cases h
      exact normalData_boolean (!b)
    · obtain ⟨v, rfl, hv, hne, hall⟩ := h1.int rfl
      obtain ⟨w, hw, heq⟩ := Option.map_eq_some_iff.mp (show (rangeListComplement v).map
        (fun w => SubtypeDataOf.proper (.int w)) = some (.proper d) from h)
      cases heq
      exact normalData_intComplement hv hne hall hw
    · obtain ⟨r, hr, hvalid, _⟩ := (exactEnumerable_floats U.floats).complement (h1.float rfl)
      cases hr.symm.trans h
      exact normalData_float hvalid
    · obtain ⟨r, hr, hvalid, _⟩ := (exactEnumerable_decimals U.decimals).complement (h1.decimal rfl)
      cases hr.symm.trans h
      exact normalData_decimal hvalid
    · obtain ⟨r, hr, hvalid, _⟩ := exactEnumerable_string.complement (h1.string rfl)
      cases hr.symm.trans h
      exact normalData_string hvalid
    · exact absurd rfl h1.notNil
    · exact normalData_structured hother d

end Closed

/-! ## Data with the same values -/

section Same

variable {α : Type} {structured : BasicTypeCode → ProperSubtypeData → Set α} {U : Universe}
  {code : BasicTypeCode} {r r' : SubtypeData}

theorem dataHas_bool (b : Bool) (v : BasicValue α) : DataHas structured (.bool b) v ↔ b = true := by
  cases b with
  | true => exact iff_of_true (dataHas_true structured v) rfl
  | false => exact iff_of_false (not_dataHas_false structured v) Bool.false_ne_true

/-- Data that are everything, nothing or in normal form. -/
def NormalSub (U : Universe) (code : BasicTypeCode) (r : SubtypeData) : Prop :=
  ∀ d, r = .proper d → NormalData U code d

/-- The values of the basic type that are in the one are those in the other. -/
def SameData (structured : BasicTypeCode → ProperSubtypeData → Set α) (U : Universe) (code : BasicTypeCode)
    (r r' : SubtypeData) : Prop :=
  ∀ v : BasicValue α, U.Has v → v.code = code → (DataHas structured r v ↔ DataHas structured r' v)

theorem eq_of_sameData_bool {b b' : Bool} {v : BasicValue α}
    (h : DataHas structured (.bool b) v ↔ DataHas structured (.bool b') v) :
    SubtypeDataOf.bool b = (SubtypeDataOf.bool b' : SubtypeData) := by
  rw [dataHas_bool, dataHas_bool] at h
  rw [Bool.eq_iff_iff.mpr h]

theorem eq_of_sameData_boolean (h : NormalSub U BT_BOOLEAN r) (h' : NormalSub U BT_BOOLEAN r')
    (hsame : SameData structured U BT_BOOLEAN r r') : r = r' := by
  have htrue := hsame (.boolean true) trivial rfl
  have hfalse := hsame (.boolean false) trivial rfl
  simp only [DataHas] at htrue hfalse
  have hcases : ∀ {q : SubtypeData}, NormalSub U BT_BOOLEAN q → (∃ b, q = .bool b) ∨ ∃ b, q = .proper (.boolean b) := by
    intro q hq
    cases q with
    | bool b => exact .inl ⟨b, rfl⟩
    | proper d =>
      obtain ⟨b, rfl⟩ := (hq d rfl).boolean rfl
      exact .inr ⟨b, rfl⟩
  rcases hcases h with ⟨b, rfl⟩ | ⟨b, rfl⟩
  · rcases hcases h' with ⟨b', rfl⟩ | ⟨b', rfl⟩
    · cases b <;> cases b' <;> simp at htrue ⊢
    · cases b <;> cases b' <;> simp at htrue hfalse
  · rcases hcases h' with ⟨b', rfl⟩ | ⟨b', rfl⟩
    · cases b <;> cases b' <;> simp at htrue hfalse
    · cases b <;> cases b' <;> simp at htrue ⊢

/-- The ranges of data of `int`. -/
def rangesOf : SubtypeData → List Range
  | .bool true => allInts
  | .proper (.int v) => v
  | _ => []

theorem dataHas_int {n : Int} (h : NormalSub U BT_INT r) (hn : intMinValue ≤ n ∧ n ≤ intMaxValue) :
    DataHas structured r (.int n) ↔ rangesHave (rangesOf r) n := by
  cases r with
  | bool b =>
    rw [dataHas_bool]
    cases b with
    | true => exact iff_of_true rfl ((rangesHave_allInts n).mpr hn)
    | false => exact iff_of_false Bool.false_ne_true (by simp [rangesOf])
  | proper d =>
    obtain ⟨v, rfl, _⟩ := (h d rfl).int rfl
    exact intSubtypeContains_iff v n

theorem normalised_rangesOf (h : NormalSub U BT_INT r) : Normalised (rangesOf r) := by
  cases r with
  | bool b =>
    cases b with
    | true => exact normalised_allInts
    | false => exact normalised_nil
  | proper d =>
    obtain ⟨v, rfl, hv, _⟩ := (h d rfl).int rfl
    exact hv

/-- Normalised ranges are determined by their ints. -/
theorem eq_of_sameData_int (h : NormalSub U BT_INT r) (h' : NormalSub U BT_INT r')
    (hsame : SameData structured U BT_INT r r') : r = r' := by
  have hranges : rangesOf r = rangesOf r' := by
    have hone := normalised_rangesOf h
    have hother := normalised_rangesOf h'
    refine hone.eq_of_rangesHave hother fun n => ?_
    by_cases hn : intMinValue ≤ n ∧ n ≤ intMaxValue
    · have hv := hsame (.int n) hn rfl
      rwa [dataHas_int h hn, dataHas_int h' hn] at hv
    · exact iff_of_false (fun hin => hn (hone.in64 hin)) fun hin => hn (hother.in64 hin)
  have hcases : ∀ {q : SubtypeData}, NormalSub U BT_INT q → q = .bool true ∨ q = .bool false ∨
      ∃ v, q = .proper (.int v) ∧ v ≠ [] ∧ v ≠ allInts := by
    intro q hq
    cases q with
    | bool b =>
      cases b with
      | true => exact .inl rfl
      | false => exact .inr (.inl rfl)
    | proper d =>
      obtain ⟨v, rfl, _, hne, hall⟩ := (hq d rfl).int rfl
      exact .inr (.inr ⟨v, rfl, hne, hall⟩)
  have hne : allInts ≠ [] := List.cons_ne_nil _ _
  rcases hcases h with rfl | rfl | ⟨v, rfl, hv, hvall⟩
  · rcases hcases h' with rfl | rfl | ⟨w, rfl, hw, hwall⟩
    · rfl
    · exact absurd hranges hne
    · exact absurd hranges.symm hwall
  · rcases hcases h' with rfl | rfl | ⟨w, rfl, hw, hwall⟩
    · exact absurd hranges.symm hne
    · rfl
    · exact absurd hranges.symm hw
  · rcases hcases h' with rfl | rfl | ⟨w, rfl, hw, hwall⟩
    · exact absurd hranges hvall
    · exact absurd hranges hv
    · rw [show v = w from hranges]

theorem listDen_eq_inter {β : Type} {S : Set β} {unwrap : ProperSubtypeData → Option (EnumerableSubtype β)}
    {q : SubtypeData} {x : β} (hx : x ∈ S) : x ∈ listDen S unwrap q ↔ x ∈ listDen Set.univ unwrap q :=
  and_congr_left fun _ => iff_of_true hx trivial

theorem listValid_sub {β : Type} {S : Set β} {unwrap : ProperSubtypeData → Option (EnumerableSubtype β)}
    {cmp : β → β → Ordering} (h : ∀ d, r = .proper d → ListValid S unwrap cmp (.proper d)) :
    ListValid S unwrap cmp r := by
  cases r with
  | bool b => exact listValid_bool b
  | proper d => exact h d rfl

/-- Data in normal form are told by their values, if the lists do not name all. -/
theorem eq_of_sameData [Nonempty α] (h : NormalSub U code r) (h' : NormalSub U code r')
    (hplain : ∀ d, r = .proper d → code ≤ BT_STRING) (hplain' : ∀ d, r' = .proper d → code ≤ BT_STRING)
    (hlisted : ¬ AllListed U code r r') (hsame : SameData structured U code r r') : r = r' := by
  rcases code_cases_nil code with rfl | rfl | rfl | rfl | rfl | hnil | hother
  · exact eq_of_sameData_boolean h h' hsame
  · exact eq_of_sameData_int h h' hsame
  · refine ((exactEnumerable_floats U.floats).canonical (listValid_sub fun d hd => (h d hd).float rfl)
      (listValid_sub fun d hd => (h' d hd).float rfl) fun hall => hlisted (.inl ⟨rfl, hall⟩)).mp ?_
    ext x
    by_cases hx : x ∈ U.floats
    · rw [listDen_eq_inter hx, listDen_eq_inter hx]
      exact hsame (.float x) hx rfl
    · exact iff_of_false (fun hin => hx hin.1) fun hin => hx hin.1
  · refine ((exactEnumerable_decimals U.decimals).canonical (listValid_sub fun d hd => (h d hd).decimal rfl)
      (listValid_sub fun d hd => (h' d hd).decimal rfl) fun hall => hlisted (.inr (.inl ⟨rfl, hall⟩))).mp ?_
    ext x
    by_cases hx : x ∈ U.decimals
    · rw [listDen_eq_inter hx, listDen_eq_inter hx]
      exact hsame (.decimal x) hx rfl
    · exact iff_of_false (fun hin => hx hin.1) fun hin => hx hin.1
  · have hvalid : ∀ {q : SubtypeData}, NormalSub U BT_STRING q → StringValid q := by
      intro q hq
      cases q with
      | bool b => exact stringValid_bool b
      | proper d => exact (hq d rfl).string rfl
    refine (exactEnumerable_string.canonical (hvalid h) (hvalid h')
      fun hall => hlisted (.inr (.inr ⟨rfl, hall⟩))).mp ?_
    ext x
    exact hsame (.string x) trivial rfl
  · cases r with
    | proper d => exact absurd hnil (h d rfl).notNil
    | bool b =>
      cases r' with
      | proper d => exact absurd hnil (h' d rfl).notNil
      | bool b' => exact eq_of_sameData_bool (hsame .nil trivial hnil.symm)
  · cases r with
    | proper d => exact absurd (hplain d rfl) (not_le.mpr hother)
    | bool b =>
      cases r' with
      | proper d => exact absurd (hplain' d rfl) (not_le.mpr hother)
      | bool b' => exact eq_of_sameData_bool (hsame (.structured code (Classical.arbitrary α)) hother rfl)

end Same

/-! ## Types with the same data -/

/-- A complex type has an entry, and all bits are those of basic types. -/
structure SemTypeOf.Proper {δ : Type} (t : SemTypeOf δ) : Prop where
  some_ne : ∀ c, t = .complex c → c.some ≠ 0
  all_lt : ∀ i, t.allBits.getLsbD i = true → i < 19

section Determined

variable {δ : Type} {t u : SemTypeOf δ}

/-- The data and the bits of a type are determined by `subtypeData`. -/
theorem lookupCode_of_subtypeData (ht : t.WF) (hu : u.WF) (h : ∀ c, subtypeData t c = subtypeData u c)
    (c : BasicTypeCode) : lookupCode t.entries c = lookupCode u.entries c ∧
      t.allBits.getLsbD c.val = u.allBits.getLsbD c.val := by
  obtain ⟨r, hat, hr⟩ := atCode ht c
  obtain ⟨r', hat', hr'⟩ := atCode hu c
  obtain rfl : r = r' := Option.some.inj (hr.symm.trans ((h c).trans hr'))
  cases hat with
  | whole ha _ hl =>
    cases hat' with
    | whole ha' _ hl' => exact ⟨hl.trans hl'.symm, ha.trans ha'.symm⟩
  | part ha _ hl =>
    cases hat' with
    | part ha' _ hl' => exact ⟨hl.trans hl'.symm, ha.trans ha'.symm⟩
  | nothing ha _ hl =>
    cases hat' with
    | nothing ha' _ hl' => exact ⟨hl.trans hl'.symm, ha.trans ha'.symm⟩

/-- A type is told by its data. -/
theorem eq_of_subtypeData (ht : t.WF) (hu : u.WF) (htp : t.Proper) (hup : u.Proper)
    (h : ∀ c, subtypeData t c = subtypeData u c) : t = u := by
  have hat := lookupCode_of_subtypeData ht hu h
  have hall : t.allBits = u.allBits := by
    refine BitVec.eq_of_getLsbD_eq fun i _ => ?_
    by_cases hi : i < 19
    · exact (hat ⟨i, hi⟩).2
    · rw [Bool.eq_false_iff.mpr fun hb => hi (htp.all_lt i hb), Bool.eq_false_iff.mpr fun hb => hi (hup.all_lt i hb)]
  have hsome : t.someBits = u.someBits := by
    have hlt : ∀ {s : SemTypeOf δ} (_ : s.WF) (i : Nat), s.someBits.getLsbD i = true → i < 19 := by
      intro s hs i hb
      cases s with
      | bits b => exact absurd hb (by rw [show (SemTypeOf.bits b).someBits = (0#32) from rfl]; simp)
      | complex c => exact hs.codes i hb
    refine BitVec.eq_of_getLsbD_eq fun i _ => ?_
    by_cases hi : i < 19
    · refine Bool.eq_iff_iff.mpr (not_iff_not.mp ?_)
      rw [Bool.not_eq_true, Bool.not_eq_true, ← lookupCode_entries_eq_none ht ⟨i, hi⟩,
        ← lookupCode_entries_eq_none hu ⟨i, hi⟩, (hat ⟨i, hi⟩).1]
    · rw [Bool.eq_false_iff.mpr fun hb => hi (hlt ht i hb), Bool.eq_false_iff.mpr fun hb => hi (hlt hu i hb)]
  have hentries : t.entries = u.entries := by
    have hsorted := (rep_of_wf ht).sorted
    have hsorted' := (rep_of_wf hu).sorted
    have : Std.Irrefl fun e e' : BasicTypeCode × δ => e.1 < e'.1 := ⟨fun e => lt_irrefl e.1⟩
    have : Std.Antisymm fun e e' : BasicTypeCode × δ => e.1 < e'.1 :=
      ⟨fun e e' h1 h2 => absurd (h1.trans h2) (lt_irrefl _)⟩
    refine List.Pairwise.eq_of_mem_iff hsorted hsorted' fun e => ?_
    rw [← lookupCode_eq_some hsorted, ← lookupCode_eq_some hsorted', (hat e.1).1]
  cases t with
  | bits b =>
    cases u with
    | bits b' => exact congrArg SemTypeOf.bits hall
    | complex c => exact absurd hsome.symm (hup.some_ne c rfl)
  | complex c =>
    cases u with
    | bits b => exact absurd hsome (htp.some_ne c rfl)
    | complex c' =>
      have hdata : c.subtypeDataList = c'.subtypeDataList := by
        have hlist := congrArg (List.map Prod.snd) hentries
        rwa [SemTypeOf.entries, SemTypeOf.entries, List.map_snd_zip (le_of_eq ht.length),
          List.map_snd_zip (le_of_eq hu.length)] at hlist
      obtain ⟨all, some, list⟩ := c
      obtain ⟨all', some', list'⟩ := c'
      cases (show all = all' from hall)
      cases (show some = some' from hsome)
      cases (show list = list' from hdata)
      rfl

end Determined

/-! ## The operations make complex types with entries only -/

section Merge

variable {δ : Type} {t1 t2 t : SemTypeOf δ} {f : BasicTypeCode → Option δ → Option δ → Option (SubtypeDataOf δ)}
  {ops : BasicTypeCode → BasicTypeOps δ}

/-- The loop of a merge only adds bits of codes. -/
theorem mergeLoop_all : ∀ (pairs : List (BasicTypeCode × Option δ × Option δ))
    {acc result : BasicTypeBitSet × List (BasicTypeCode × δ)}, mergeLoop f pairs acc = some result →
      ∀ i, result.1.getLsbD i = true → acc.1.getLsbD i = true ∨ i < 19
  | [], _, _, h, i, hi => by
    cases h
    exact .inl hi
  | p :: pairs, acc, result, h, i, hi => by
    obtain ⟨r, hr, h⟩ := Option.bind_eq_some_iff.mp h
    cases r with
    | proper d => exact mergeLoop_all pairs h i hi
    | bool b =>
      cases b with
      | false => exact mergeLoop_all pairs h i hi
      | true =>
        rcases mergeLoop_all pairs h i hi with hacc | hlt
        · rw [BitVec.getLsbD_or, Bool.or_eq_true] at hacc
          rcases hacc with hacc | hcode
          · exact .inl hacc
          · rw [basicType_eq_twoPow, BitVec.getLsbD_twoPow, Bool.and_eq_true, decide_eq_true_eq,
              decide_eq_true_eq] at hcode
            exact .inr (hcode.2 ▸ p.1.isLt)
        · exact .inr hlt

theorem proper_bits {b : BasicTypeBitSet} (h : ∀ i, b.getLsbD i = true → i < 19) :
    (SemTypeOf.bits b : SemTypeOf δ).Proper :=
  ⟨(fun _ hc => by cases hc), h⟩

/-- A type with no part is a bit set. -/
theorem proper_finishSemType {result : BasicTypeBitSet × List (BasicTypeCode × δ)}
    (h : ∀ i, result.1.getLsbD i = true → i < 19) : (finishSemType result).Proper := by
  unfold finishSemType
  split
  next => exact proper_bits h
  next hne =>
    refine ⟨fun c hc hzero => hne ?_, h⟩
    cases hc
    cases hlist : result.2 with
    | nil => rfl
    | cons e L =>
      have hbit := (getLsbD_foldl_basicType (e :: L) 0 e.1.val).mpr (.inr ⟨e, .head _, rfl⟩)
      rw [← hlist] at hbit
      rw [show (result.2.foldl (fun bits e => bits ||| basicType e.1) 0) = 0 from hzero] at hbit
      exact absurd hbit (by simp)

theorem proper_mergeWith {all some : BasicTypeBitSet} (hall : ∀ i, all.getLsbD i = true → i < 19)
    (h : mergeWith f t1 t2 all some = .some t) : t.Proper := by
  unfold mergeWith at h
  split at h
  next =>
    cases h
    exact proper_bits hall
  next =>
    obtain ⟨pairs, _, h⟩ := Option.bind_eq_some_iff.mp h
    obtain ⟨result, hloop, h⟩ := Option.bind_eq_some_iff.mp h
    cases h
    exact proper_finishSemType fun i hi => (mergeLoop_all pairs hloop i hi).elim (hall i) id

theorem proper_union (h1 : t1.Proper) (h2 : t2.Proper) (h : union ops t1 t2 = some t) : t.Proper := by
  have hall : ∀ i, (t1.allBits ||| t2.allBits).getLsbD i = true → i < 19 := by
    intro i hi
    rw [BitVec.getLsbD_or, Bool.or_eq_true] at hi
    exact hi.elim (h1.all_lt i) (h2.all_lt i)
  cases t1 with
  | bits b1 =>
    cases t2 with
    | bits b2 =>
      cases h
      exact proper_bits hall
    | complex c2 =>
      simp only [union] at h
      split at h
      · cases h
        exact h2
      · exact proper_mergeWith hall (mergeWith_of_unionMerge h)
  | complex c1 =>
    cases t2 with
    | bits b2 =>
      simp only [union] at h
      split at h
      · cases h
        exact h1
      · exact proper_mergeWith hall (mergeWith_of_unionMerge h)
    | complex c2 => exact proper_mergeWith hall (mergeWith_of_unionMerge h)

theorem proper_intersect (h1 : t1.Proper) (h2 : t2.Proper) (h : intersect ops t1 t2 = some t) : t.Proper := by
  have hall : ∀ i, (t1.allBits &&& t2.allBits).getLsbD i = true → i < 19 := by
    intro i hi
    rw [BitVec.getLsbD_and, Bool.and_eq_true] at hi
    exact h1.all_lt i hi.1
  cases t1 with
  | bits b1 =>
    cases t2 with
    | bits b2 =>
      cases h
      exact proper_bits hall
    | complex c2 =>
      simp only [intersect] at h
      split at h
      · cases h
        exact h1
      · split at h
        · cases h
          exact h2
        · exact proper_mergeWith hall (mergeWith_of_intersectMerge h)
  | complex c1 =>
    cases t2 with
    | bits b2 =>
      simp only [intersect] at h
      split at h
      · cases h
        exact h2
      · split at h
        · cases h
          exact h1
        · exact proper_mergeWith hall (mergeWith_of_intersectMerge h)
    | complex c2 => exact proper_mergeWith hall (mergeWith_of_intersectMerge h)

theorem proper_diff (h1 : t1.Proper) (h : diff ops t1 t2 = some t) : t.Proper := by
  have hall : ∀ (b : BasicTypeBitSet) i, (t1.allBits &&& b).getLsbD i = true → i < 19 := by
    intro b i hi
    rw [BitVec.getLsbD_and, Bool.and_eq_true] at hi
    exact h1.all_lt i hi.1
  cases t1 with
  | bits b1 =>
    cases t2 with
    | bits b2 =>
      cases h
      exact proper_bits (hall _)
    | complex c2 =>
      simp only [diff] at h
      split at h
      · cases h
        exact h1
      · exact proper_mergeWith (hall _) (mergeWith_of_diffMerge h)
  | complex c1 =>
    cases t2 with
    | bits b2 =>
      simp only [diff] at h
      split at h
      · cases h
        exact proper_bits fun i hi => by simp at hi
      · exact proper_mergeWith (hall _) (mergeWith_of_diffMerge h)
    | complex c2 => exact proper_mergeWith (hall _) (mergeWith_of_diffMerge h)

theorem proper_createComplexSemType {all : BasicTypeBitSet} {L : List (BasicTypeCode × δ)} (hne : L ≠ [])
    (hall : ∀ i, all.getLsbD i = true → i < 19) :
    (SemTypeOf.complex (createComplexSemType all L)).Proper := by
  have h : (finishSemType (all, L)).Proper := proper_finishSemType hall
  rwa [finishSemType, if_neg fun hnil => hne (List.isEmpty_iff.mp hnil)] at h

end Merge

/-! ## The types that are built -/

def booleanConst (value : Bool) : SemType := basicSubtype BT_BOOLEAN (.boolean value)

def floatConst (value : FloatValue) : SemType := basicSubtype BT_FLOAT (.float ⟨true, [value]⟩)

def decimalConst (value : Rat) : SemType := basicSubtype BT_DECIMAL (.decimal ⟨true, [value]⟩)

def stringChar : SemType := basicSubtype BT_STRING (.string ⟨⟨false, []⟩, ⟨true, []⟩⟩)

def intRangeSemType (min max : Int) : SemType :=
  if min = intMinValue ∧ max = intMaxValue then .bits INT else basicSubtype BT_INT (.int [⟨min, max⟩])

/-! ## The constructors make data in normal form -/

section Constructors

variable {U : Universe}

theorem listValid_single {β : Type} {S : Set β} {unwrap : ProperSubtypeData → Option (EnumerableSubtype β)}
    {cmp : β → β → Ordering} {d : ProperSubtypeData} {x : β} (hd : unwrap d = some ⟨true, [x]⟩) (hx : x ∈ S) :
    ListValid S unwrap cmp (.proper d) := by
  refine ⟨⟨true, [x]⟩, hd, ⟨List.pairwise_singleton _ _, fun y hy => ?_⟩, fun hnil => absurd hnil (by simp)⟩
  rwa [List.mem_singleton.mp hy]

theorem stringValid_stringConst (value : String) : StringValid (.proper (.string
    (if value.length = 1 then ⟨⟨true, [value]⟩, ⟨true, []⟩⟩ else ⟨⟨true, []⟩, ⟨true, [value]⟩⟩))) := by
  have hnone : ∀ S : Set String, EnumerableSubtype.Valid compareEnumerable S ⟨true, []⟩ :=
    fun S => ⟨List.Pairwise.nil, fun y hy => absurd hy List.not_mem_nil⟩
  have hone : ∀ S : Set String, value ∈ S → EnumerableSubtype.Valid compareEnumerable S ⟨true, [value]⟩ := by
    intro S hS
    refine ⟨List.pairwise_singleton _ _, fun y hy => ?_⟩
    rwa [List.mem_singleton.mp hy]
  split
  next hlen => exact ⟨_, rfl, ⟨hone _ hlen, hnone _⟩, fun hnil => absurd hnil (by simp)⟩
  next hlen => exact ⟨_, rfl, ⟨hnone _, hone _ hlen⟩, fun _ hnil => absurd hnil (by simp)⟩

theorem stringValid_stringChar : StringValid (.proper (.string ⟨⟨false, []⟩, ⟨true, []⟩⟩)) :=
  ⟨_, rfl, ⟨⟨List.Pairwise.nil, fun y hy => absurd hy List.not_mem_nil⟩,
    ⟨List.Pairwise.nil, fun y hy => absurd hy List.not_mem_nil⟩⟩, fun _ _ hflag => absurd hflag (by simp)⟩

theorem normalData_range {min max : Int} (hmin : intMinValue ≤ min) (hle : min ≤ max) (hmax : max ≤ intMaxValue)
    (hnot : ¬ (min = intMinValue ∧ max = intMaxValue)) : NormalData U BT_INT (.int [⟨min, max⟩]) := by
  refine normalData_int (normalised_singleton hmin hle hmax) (List.cons_ne_nil _ _) fun hall => hnot ?_
  cases hall
  exact ⟨rfl, rfl⟩

theorem lt_of_basicType {code : BasicTypeCode} {i : Nat} (h : (basicType code).getLsbD i = true) : i < 19 := by
  rw [basicType_eq_twoPow, BitVec.getLsbD_twoPow, Bool.and_eq_true, decide_eq_true_eq, decide_eq_true_eq] at h
  exact h.2 ▸ code.isLt

theorem code_of_basicType {code code' : BasicTypeCode} (h : (basicType code).getLsbD code'.val = true) :
    code' = code := by
  rw [basicType_eq_twoPow, BitVec.getLsbD_twoPow, Bool.and_eq_true, decide_eq_true_eq, decide_eq_true_eq] at h
  exact Fin.ext h.2.symm

/-- A type in normal form. -/
structure SemTypeOf.InNormalForm (U : Universe) (t : SemType) : Prop where
  data : t.Over (NormalData U)
  proper : t.Proper

theorem inNormalForm_bits {b : BasicTypeBitSet} (h : ∀ i, b.getLsbD i = true → i < 19) :
    SemTypeOf.InNormalForm U (.bits b) := ⟨over_bits _ b, proper_bits h⟩

theorem inNormalForm_basicSubtype {code : BasicTypeCode} {d : ProperSubtypeData} (h : NormalData U code d) :
    SemTypeOf.InNormalForm U (basicSubtype code d) :=
  ⟨over_basicSubtype h, proper_createComplexSemType (List.cons_ne_nil _ _) fun i hi => by simp at hi⟩

theorem inNormalForm_readonly : SemTypeOf.InNormalForm U VAL_READONLY := by
  have hsorted : SortedCodes readonlySubtypes := by
    show List.Pairwise _ _
    decide
  have hcodes : ∀ e ∈ readonlySubtypes, BT_STRING < e.1 ∧ VT_INHERENTLY_IMMUTABLE.getLsbD e.1.val = false := by
    decide
  have hwf := createComplexSemType_wf hsorted fun e he => (hcodes e he).2
  refine ⟨⟨hwf, fun e he => ?_⟩, proper_createComplexSemType (List.cons_ne_nil _ _) fun i hi => ?_⟩
  · have hentries : SemTypeOf.entries VAL_READONLY = readonlySubtypes := by
      show (codesOf (createComplexSemType _ readonlySubtypes).some).zip (readonlySubtypes.map (·.2)) = _
      rw [codesOf_createComplexSemType _ hsorted]
      rfl
    rw [hentries] at he
    exact normalData_structured (hcodes e he).1 e.2
  · have hlt : ∀ k : Fin 32, VT_INHERENTLY_IMMUTABLE.getLsbD k = true → k.val < 19 := by decide
    exact hlt ⟨i, BitVec.lt_of_getLsbD hi⟩ hi

variable [BddIdentity]

/-- The types that the constructors and the operations make. -/
inductive Built (U : Universe) : SemType → Prop where
  | bits {b : BasicTypeBitSet} (h : ∀ i, b.getLsbD i = true → i < 19) : Built U (.bits b)
  | boolean (value : Bool) : Built U (booleanConst value)
  | int {value : Int} (hmin : intMinValue ≤ value) (hmax : value ≤ intMaxValue) : Built U (intConst value)
  | intRange {min max : Int} (hmin : intMinValue ≤ min) (h : min ≤ max) (hmax : max ≤ intMaxValue) :
      Built U (intRangeSemType min max)
  | float {value : FloatValue} (h : value ∈ U.floats) : Built U (floatConst value)
  | decimal {value : Rat} (h : value ∈ U.decimals) : Built U (decimalConst value)
  | string (value : String) : Built U (stringConst value)
  | stringChar : Built U stringChar
  | structured {code : BasicTypeCode} (h : BT_STRING < code) (d : ProperSubtypeData) :
      Built U (basicSubtype code d)
  | readonly : Built U VAL_READONLY
  | union {t1 t2 t : SemType} (h1 : Built U t1) (h2 : Built U t2) (h : union ops t1 t2 = some t) : Built U t
  | intersect {t1 t2 t : SemType} (h1 : Built U t1) (h2 : Built U t2) (h : intersect ops t1 t2 = some t) :
      Built U t
  | diff {t1 t2 t : SemType} (h1 : Built U t1) (h2 : Built U t2) (h : diff ops t1 t2 = some t) : Built U t

/-- Every constructor and operation gives a normal form. -/
theorem Built.inNormalForm {t : SemType} (h : Built U t) : t.InNormalForm U := by
  induction h with
  | bits h => exact inNormalForm_bits h
  | boolean value => exact inNormalForm_basicSubtype (normalData_boolean value)
  | int hmin hmax =>
    refine inNormalForm_basicSubtype (normalData_range hmin (le_refl _) hmax fun hboth => ?_)
    have h := hboth.1.symm.trans hboth.2
    exact absurd h (by decide)
  | intRange hmin hle hmax =>
    unfold intRangeSemType
    split
    next => exact inNormalForm_bits fun i hi => lt_of_basicType hi
    next hnot => exact inNormalForm_basicSubtype (normalData_range hmin hle hmax hnot)
  | float h => exact inNormalForm_basicSubtype (normalData_float (listValid_single rfl h))
  | decimal h => exact inNormalForm_basicSubtype (normalData_decimal (listValid_single rfl h))
  | string value => exact inNormalForm_basicSubtype (normalData_string (stringValid_stringConst value))
  | stringChar => exact inNormalForm_basicSubtype (normalData_string stringValid_stringChar)
  | structured h d => exact inNormalForm_basicSubtype (normalData_structured h d)
  | readonly => exact inNormalForm_readonly
  | union _ _ h ih1 ih2 =>
    exact ⟨SemTypeOf.Over.union closedOps_normal ih1.data ih2.data h, proper_union ih1.proper ih2.proper h⟩
  | intersect _ _ h ih1 ih2 =>
    exact ⟨SemTypeOf.Over.intersect closedOps_normal ih1.data ih2.data h,
      proper_intersect ih1.proper ih2.proper h⟩
  | diff _ _ h ih1 ih2 =>
    exact ⟨SemTypeOf.Over.diff closedOps_normal ih1.data ih2.data h, proper_diff ih1.proper h⟩

end Constructors

/-! ## Types with the same values -/

/-- A value of the basic type is in the data. -/
def SomeData {α : Type} (structured : BasicTypeCode → ProperSubtypeData → Set α) (U : Universe)
    (code : BasicTypeCode) (r : SubtypeData) : Prop :=
  ∃ v : BasicValue α, U.Has v ∧ v.code = code ∧ DataHas structured r v

/-- A value of the basic type is not in the data. -/
def NotAllData {α : Type} (structured : BasicTypeCode → ProperSubtypeData → Set α) (U : Universe)
    (code : BasicTypeCode) (r : SubtypeData) : Prop :=
  ∃ v : BasicValue α, U.Has v ∧ v.code = code ∧ ¬ DataHas structured r v

/-- What the comment at `ComplexSemType` says; of the entries of a simple basic type or of `string` also that they
are neither nothing nor all. -/
structure SemTypeOf.Invariant {α : Type} (structured : BasicTypeCode → ProperSubtypeData → Set α) (U : Universe)
    (t : SemType) : Prop where
  wf : t.WF
  some_ne : ∀ c, t = .complex c → c.some ≠ 0
  part : ∀ code d, (code, d) ∈ t.entries → code ≤ BT_STRING → ¬ AllListed U code (.proper d) (.proper d) →
    SomeData structured U code (.proper d) ∧ NotAllData structured U code (.proper d)

/-- The type has no structures other than all of a basic type. -/
def SemTypeOf.Plain (t : SemType) : Prop := ∀ e ∈ t.entries, e.1 ≤ BT_STRING

section Values

variable {α : Type} {structured : BasicTypeCode → ProperSubtypeData → Set α} {U : Universe} {t u : SemType}
  {code : BasicTypeCode} {r r' : SubtypeData}

/-- The data of a normal form are normal. -/
theorem normalSub_of_subtypeData (h : t.InNormalForm U) (hr : subtypeData t code = some r) :
    NormalSub U code r := by
  intro d hd
  obtain ⟨r', hat, hr'⟩ := atCode h.data.wf code
  cases hr.symm.trans hr'
  cases hat with
  | whole _ _ _ => cases hd
  | part _ _ hl =>
    cases hd
    exact valid_of_lookup h.data.wf h.data.valid hl
  | nothing _ _ _ => cases hd

theorem mem_entries_of_subtypeData (h : t.WF) {d : ProperSubtypeData} (hr : subtypeData t code = some (.proper d)) :
    (code, d) ∈ t.entries := by
  obtain ⟨r', hat, hr'⟩ := atCode h code
  cases hr.symm.trans hr'
  cases hat with
  | part _ _ hl => exact (lookupCode_eq_some (rep_of_wf h).sorted).mp hl

theorem listed_bool_subset (b : Bool) (d : ProperSubtypeData) (h : AllListed U code (.proper d) (.bool b)) :
    AllListed U code (.proper d) (.proper d) := by
  have hstring : stringListed (.bool b) = ∅ := by
    refine Set.eq_empty_of_forall_notMem fun v hv => ?_
    obtain ⟨q, hq, hmem⟩ := hv
    cases hq
    rcases hmem with hmem | hmem
    · cases hmem
    · cases hmem
  rcases h with ⟨heq, h⟩ | ⟨heq, h⟩ | ⟨heq, h⟩
  · rw [listListed_bool, Set.union_empty] at h
    exact .inl ⟨heq, h.trans Set.subset_union_left⟩
  · rw [listListed_bool, Set.union_empty] at h
    exact .inr (.inl ⟨heq, h.trans Set.subset_union_left⟩)
  · rw [hstring, Set.union_empty] at h
    exact .inr (.inr ⟨heq, h.trans Set.subset_union_left⟩)

/-- Data in normal form are not the same as nothing or everything. -/
theorem not_sameData_bool [Nonempty α] (b : Bool) {d : ProperSubtypeData} (h : NormalData U code d)
    (hplain : code ≤ BT_STRING) (hlisted : ¬ AllListed U code (.proper d) (.proper d)) :
    ¬ SameData structured U code (.proper d) (.bool b) := by
  intro hsame
  have hnormal : NormalSub U code (.proper d) := by
    intro d' hd'
    cases hd'
    exact h
  have heq := eq_of_sameData hnormal (fun d' hd' => by cases hd') (fun _ _ => hplain) (fun d' hd' => by cases hd')
    (fun hall => hlisted (listed_bool_subset b d hall)) hsame
  cases heq

/-- A normal form meets the invariant of the exact operations. -/
theorem InNormalForm.invariant [Nonempty α] (h : t.InNormalForm U) : t.Invariant structured U where
  wf := h.data.wf
  some_ne := h.proper.some_ne
  part := by
    intro code d hmem hplain hlisted
    have hdata : NormalData U code d := h.data.valid _ hmem
    constructor
    · by_contra hnone
      have hsame : SameData structured U code (.proper d) (.bool false) := by
        intro v hv hcode
        rw [dataHas_bool]
        exact iff_of_false (fun hin => hnone ⟨v, hv, hcode, hin⟩) Bool.false_ne_true
      exact not_sameData_bool false hdata hplain hlisted hsame
    · by_contra hall
      have hsame : SameData structured U code (.proper d) (.bool true) := by
        intro v hv hcode
        rw [dataHas_bool]
        exact iff_of_true (by_contra fun hnot => hall ⟨v, hv, hcode, hnot⟩) rfl
      exact not_sameData_bool true hdata hplain hlisted hsame

/-- Types with the same values have the same values of each basic type. -/
theorem sameData_of_holds (hr : subtypeData t code = some r) (hr' : subtypeData u code = some r')
    (h : ∀ v : BasicValue α, U.Has v → (Holds structured t v ↔ Holds structured u v)) :
    SameData structured U code r r' := by
  intro v hv hcode
  have hiff : ∀ {s : SemType} {q : SubtypeData}, subtypeData s code = some q →
      (Holds structured s v ↔ DataHas structured q v) := by
    intro s q hq
    unfold Holds
    rw [hcode, hq]
    constructor
    · rintro ⟨q', hq', hhas⟩
      cases hq'
      exact hhas
    · exact fun hhas => ⟨q, rfl, hhas⟩
  rw [← hiff hr, ← hiff hr']
  exact h v hv

/-- Types in normal form without structures are told by their values. -/
theorem InNormalForm.eq_of_holds [Nonempty α] (ht : t.InNormalForm U) (hu : u.InNormalForm U) (htp : t.Plain)
    (hup : u.Plain) (hlisted : ∀ code r r', subtypeData t code = some r → subtypeData u code = some r' →
      ¬ AllListed U code r r')
    (h : ∀ v : BasicValue α, U.Has v → (Holds structured t v ↔ Holds structured u v)) : t = u := by
  refine eq_of_subtypeData ht.data.wf hu.data.wf ht.proper hu.proper fun code => ?_
  obtain ⟨r, _, hr⟩ := atCode ht.data.wf code
  obtain ⟨r', _, hr'⟩ := atCode hu.data.wf code
  have hplain : ∀ {s : SemType} {q : SubtypeData}, s.InNormalForm U → s.Plain → subtypeData s code = some q →
      ∀ d, q = .proper d → code ≤ BT_STRING := by
    intro s q hs hsp hq d hd
    cases hd
    exact hsp _ (mem_entries_of_subtypeData hs.data.wf hq)
  have hsame := sameData_of_holds hr hr' h
  rw [hr, hr', eq_of_sameData (normalSub_of_subtypeData ht hr) (normalSub_of_subtypeData hu hr')
    (hplain ht htp hr) (hplain hu hup hr') (hlisted code r r' hr hr') hsame]

variable [BddIdentity]

/-- What is built has the shape that the comment at `ComplexSemType` says, and without structures it is told by its
values, as far as no lists name every float, every decimal or every character. -/
theorem built_eq_iff [Nonempty α] (ht : Built U t) :
    t.Invariant structured U ∧ ∀ u, Built U u → t.Plain → u.Plain →
      (∀ code r r', subtypeData t code = some r → subtypeData u code = some r' → ¬ AllListed U code r r') →
      (t = u ↔ ∀ v : BasicValue α, U.Has v → (Holds structured t v ↔ Holds structured u v)) := by
  refine ⟨InNormalForm.invariant ht.inNormalForm, fun u hu htp hup hlisted => ⟨fun heq => ?_, fun h => ?_⟩⟩
  · rw [heq]
    exact fun v _ => Iff.rfl
  · exact InNormalForm.eq_of_holds ht.inNormalForm hu.inNormalForm htp hup hlisted h

end Values

/-- The floats and decimals are all that there are here, and there are no structures. -/
def allValues : Universe := ⟨Set.univ, Set.univ⟩

def noStructures : BasicTypeCode → ProperSubtypeData → Set Unit := fun _ _ => ∅

/-- `true|1..3` and `true|1..10` -/
def trueOrUpTo (max : Int) : SemType :=
  .complex (createComplexSemType 0 [(BT_BOOLEAN, .boolean true), (BT_INT, .int [⟨1, max⟩])])

theorem not_allListed_trueOrUpTo (code : BasicTypeCode) (r r' : SubtypeData)
    (hr : subtypeData (trueOrUpTo 3) code = some r)
    (hr' : subtypeData (trueOrUpTo 3) code = some r') : ¬ AllListed allValues code r r' := by
  intro hall
  have hfalse : ∀ {r}, subtypeData (trueOrUpTo 3) code = some (.bool false) →
      subtypeData (trueOrUpTo 3) code = some r → r = .bool false :=
    fun h hr => Option.some.inj (hr.symm.trans h)
  rcases hall with ⟨rfl, hall⟩ | ⟨rfl, hall⟩ | ⟨rfl, hall⟩
  · rw [hfalse rfl hr, hfalse rfl hr', listListed_bool, Set.union_empty] at hall
    exact hall (Set.mem_univ FloatValue.nan)
  · rw [hfalse rfl hr, hfalse rfl hr', listListed_bool, Set.union_empty] at hall
    exact hall (Set.mem_univ 0)
  · rw [hfalse rfl hr, hfalse rfl hr', stringListed_bool, Set.union_empty] at hall
    exact hall (show "a" ∈ Chars from rfl)

/-- `true|1..3`, made as a union and as the difference of `true|1..10` and `4..10`. -/
theorem built_eq_iff_trueOrUpTo : let _ := BddIdentity.shared
    Built allValues (trueOrUpTo 3) ∧ (trueOrUpTo 3).Invariant noStructures allValues ∧
      ∃ u, diff ops (trueOrUpTo 10) (intRangeSemType 4 10) = some u ∧ (trueOrUpTo 3 = u ↔
        ∀ v : BasicValue Unit, allValues.Has v →
          (Holds noStructures (trueOrUpTo 3) v ↔ Holds noStructures u v)) := by
  let _ := BddIdentity.shared
  have hrange : ∀ min max : Int, intMinValue ≤ min → min ≤ max → max ≤ intMaxValue →
      Built allValues (intRangeSemType min max) := fun _ _ => .intRange
  have h3 : Built allValues (trueOrUpTo 3) := .union (.boolean true)
    (hrange 1 3 (by decide) (by decide) (by decide)) (by decide +kernel)
  have h10 : Built allValues (trueOrUpTo 10) := .union (.boolean true)
    (hrange 1 10 (by decide) (by decide) (by decide)) (by decide +kernel)
  have hdiff : diff ops (trueOrUpTo 10) (intRangeSemType 4 10) = some (trueOrUpTo 3) := by
    decide +kernel
  have hu : Built allValues (trueOrUpTo 3) :=
    .diff h10 (hrange 4 10 (by decide) (by decide) (by decide)) hdiff
  have hplain : (trueOrUpTo 3).Plain := by
    intro e he
    rcases List.mem_cons.mp (show e ∈ [_, _] from he) with rfl | he
    · exact le_of_lt (by decide)
    · rw [List.mem_singleton.mp he]
      exact le_of_lt (by decide)
  exact ⟨h3, (built_eq_iff h3).1, _, hdiff, (built_eq_iff h3).2 _ hu hplain hplain
    not_allListed_trueOrUpTo⟩

/-! ## All characters by name -/

theorem allBits_basicSubtype (code : BasicTypeCode) (d : ProperSubtypeData) :
    (basicSubtype code d).allBits = 0#32 := rfl

theorem someBits_basicSubtype (code : BasicTypeCode) (d : ProperSubtypeData) :
    (basicSubtype code d).someBits = basicType code := BitVec.zero_or

section AllChars

variable [BddIdentity] {U : Universe}

omit [BddIdentity] in
theorem enumerableListUnion_eq {v1 v2 v : List String} (h1 : SortedBy compareEnumerable v1)
    (h2 : SortedBy compareEnumerable v2) (h : SortedBy compareEnumerable v)
    (hmem : ∀ x, x ∈ v ↔ x ∈ v1 ∨ x ∈ v2) : enumerableListUnion compareEnumerable v1 v2 = v := by
  refine (sortedBy_enumerableListUnion v1 v2 h1 h2).eq_of_mem_iff h fun x => ?_
  rw [mem_enumerableListUnion, hmem]

/-- The union of two listed string types. -/
theorem union_listed {char1 char2 char nonChar1 nonChar2 nonChar : EnumerableSubtype String}
    (hchar : enumerableSubtypeUnion compareEnumerable char1 char2 = char)
    (hnonChar : enumerableSubtypeUnion compareEnumerable nonChar1 nonChar2 = nonChar) (hne : char.values ≠ []) :
    union ops (basicSubtype BT_STRING (.string ⟨char1, nonChar1⟩))
      (basicSubtype BT_STRING (.string ⟨char2, nonChar2⟩)) = some (basicSubtype BT_STRING (.string ⟨char, nonChar⟩)) := by
  refine union_basicSubtype ?_
  show some (createStringSubtype (enumerableSubtypeUnion compareEnumerable char1 char2)
    (enumerableSubtypeUnion compareEnumerable nonChar1 nonChar2)) = _
  have hempty : char.values.isEmpty = false := Bool.eq_false_iff.mpr fun hnil => hne (List.isEmpty_iff.mp hnil)
  rw [hchar, hnonChar, createStringSubtype, hempty]
  rfl

theorem built_char {c : String} (h : c ∈ Chars) :
    Built U (basicSubtype BT_STRING (.string ⟨⟨true, [c]⟩, ⟨true, []⟩⟩)) := by
  have hone := Built.string (U := U) c
  rwa [stringConst, if_pos (show c.length = 1 from h)] at hone

/-- The union of single characters. -/
theorem built_chars : ∀ {chars : List String}, chars ≠ [] → SortedBy compareEnumerable chars →
    (∀ s ∈ chars, s ∈ Chars) → Built U (basicSubtype BT_STRING (.string ⟨⟨true, chars⟩, ⟨true, []⟩⟩))
  | [], hne, _, _ => absurd rfl hne
  | [c], _, _, hmem => built_char (hmem c (.head _))
  | c :: c' :: rest, _, hsorted, hmem => by
    have hrest : SortedBy compareEnumerable (c' :: rest) := List.Pairwise.of_cons hsorted
    have hbuilt := built_chars (List.cons_ne_nil c' rest) hrest fun s hs => hmem s (.tail c hs)
    refine (built_char (hmem c (.head _))).union hbuilt (union_listed ?_ ?_ (List.cons_ne_nil _ _))
    · have hlist := enumerableListUnion_eq (List.pairwise_singleton _ c) hrest hsorted fun x => by
        rw [List.mem_cons, List.mem_singleton]
      exact congrArg (EnumerableSubtype.mk true) hlist
    · have hnil : enumerableListUnion compareEnumerable ([] : List String) [] = [] :=
        enumerableListUnion_eq List.Pairwise.nil List.Pairwise.nil List.Pairwise.nil fun x => by simp
      exact congrArg (EnumerableSubtype.mk true) hnil

theorem built_listedStrings {chars : List String} (hne : chars ≠ []) (hsorted : SortedBy compareEnumerable chars)
    (hmem : ∀ s ∈ chars, s ∈ Chars) : Built U (basicSubtype BT_STRING (.string (listedStrings chars))) := by
  have hother : Built U (basicSubtype BT_STRING (.string ⟨⟨true, []⟩, ⟨false, []⟩⟩)) := by
    have hstring : Built U (.bits STRING) := .bits fun i hi => lt_of_basicType hi
    have hcomplement : (ops BT_STRING).complement (.string ⟨⟨false, []⟩, ⟨true, []⟩⟩) =
        some (.proper (.string ⟨⟨true, []⟩, ⟨false, []⟩⟩)) := rfl
    exact hstring.diff .stringChar (diff_basicSubtype_all hcomplement)
  have hchar : enumerableListUnion compareEnumerable chars [] = chars :=
    enumerableListUnion_eq hsorted List.Pairwise.nil hsorted fun x => by
      rw [or_iff_left List.not_mem_nil]
  have hnil : enumerableListDiff compareEnumerable ([] : List String) [] = [] :=
    List.sublist_nil.mp (enumerableListDiff_sublist _ _)
  exact (built_chars hne hsorted hmem).union hother (union_listed (congrArg (EnumerableSubtype.mk true) hchar)
    (congrArg (EnumerableSubtype.mk false) hnil) hne)

/-- A type that denotes every string, and is neither in normal form nor `string`. -/
theorem not_normal_listedStrings {chars : List String} (hsorted : SortedBy compareEnumerable chars)
    (hmem : ∀ s, s ∈ chars ↔ s ∈ Chars) :
    Built U (basicSubtype BT_STRING (.string (listedStrings chars))) ∧
      ¬ NotAllData noStructures U BT_STRING (.proper (.string (listedStrings chars))) ∧
      (basicSubtype BT_STRING (.string (listedStrings chars)) : SemType) ≠ .bits STRING ∧
      ∀ v : BasicValue Unit, U.Has v →
        (Holds noStructures (basicSubtype BT_STRING (.string (listedStrings chars))) v ↔
          Holds noStructures (.bits STRING) v) := by
  have hall : ∀ s : String, s ∈ stringDen (.proper (.string (listedStrings chars))) := by
    intro s
    rw [stringDen_eq rfl]
    by_cases hs : s ∈ Chars
    · exact .inl ⟨hs, iff_of_true ((hmem s).mpr hs) rfl⟩
    · exact .inr ⟨hs, iff_of_false List.not_mem_nil Bool.noConfusion⟩
  have hdata : ∀ v : BasicValue Unit, U.Has v → v.code = BT_STRING →
      DataHas noStructures (.proper (.string (listedStrings chars))) v := by
    intro v hv hcode
    cases v with
    | string s => exact hall s
    | structured code a => exact absurd (show BT_STRING < code from hv) (by rw [show code = _ from hcode]; exact lt_irrefl _)
    | _ => cases hcode
  refine ⟨built_listedStrings (List.ne_nil_of_mem ((hmem "a").mpr rfl)) hsorted fun s => (hmem s).mp, ?_, ?_, ?_⟩
  · rintro ⟨v, hv, hcode, hnot⟩
    exact hnot (hdata v hv hcode)
  · intro heq
    cases heq
  · intro v hv
    by_cases hcode : v.code = BT_STRING
    · refine iff_of_true ⟨_, ?_, hdata v hv hcode⟩ ⟨.bool true, ?_, dataHas_true _ v⟩
      · rw [hcode, subtypeData_basicSubtype]
      · rw [hcode]
        rfl
    · refine iff_of_false (fun hin => hcode ?_) fun hin => hcode ?_
      · refine code_of_basicType ?_
        have hbit := hin.bit (over_basicSubtype (normalData_string
          (stringSubtypeUnion_listedStrings hsorted hmem).1 : NormalData U _ _)).wf
        rwa [allBits_basicSubtype, someBits_basicSubtype, BitVec.zero_or] at hbit
      · refine code_of_basicType ?_
        have hwf : SemTypeOf.WF (.bits STRING : SemType) := trivial
        have hbit := hin.bit hwf
        rwa [show (SemTypeOf.bits STRING : SemType).someBits = 0#32 from rfl, BitVec.or_zero] at hbit

end AllChars

/-- A string type that lists all characters denotes every string, and it is not `string`. -/
theorem not_normal_allChars : let _ := BddIdentity.shared
    Built allValues (basicSubtype BT_STRING (.string (listedStrings allChars))) ∧
      ¬ NotAllData noStructures allValues BT_STRING (.proper (.string (listedStrings allChars))) ∧
      (basicSubtype BT_STRING (.string (listedStrings allChars)) : SemType) ≠ .bits STRING ∧
      ∀ v : BasicValue Unit, allValues.Has v →
        (Holds noStructures (basicSubtype BT_STRING (.string (listedStrings allChars))) v ↔
          Holds noStructures (.bits STRING) v) := by
  let _ := BddIdentity.shared
  exact not_normal_listedStrings sortedBy_allChars fun _ => ⟨mem_chars_of_mem_allChars, mem_allChars⟩

end Nballerina.Types
