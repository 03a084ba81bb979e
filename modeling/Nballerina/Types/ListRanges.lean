import Nballerina.Types.CombineRanges
import Nballerina.Types.ListMember

/-!
# Ranges of list members

`listAtomicTypeAllMemberTypesInnerVal` (`list.bal`) splits the indices of a list atom into ranges
with one member type each: one range for each initial member, the last of them up to the fixed
length, and one for the rest unless it is `never`.

`listAtomicApplicableMemberTypesInnerVal` selects from them the types that apply to an index type.
It does find them (`applicableTypes_exact`), but then returns all the member types; that is what
was asked for exactly if each type of the atom is also the type of some index of the index type
(`listAtomicApplicableMemberTypesInnerVal_exact_iff`).

Mirroring notes:
- `none` is a panic; for the lists of ranges that occur here there is none.
-/

namespace Nballerina.Types

section Source

variable [BddIdentity]

/-- The ranges of `initialLength` members. -/
def initialRanges (initialLength : Nat) (fixedLength : Int) : List Range :=
  let ranges := (List.range initialLength).map fun (i : Nat) => (⟨i, i⟩ : Range)
  if initialLength ≠ 0 ∧ initialLength < fixedLength then
    ranges.set (initialLength - 1) ⟨initialLength - 1, fixedLength - 1⟩
  else ranges

def listAtomicTypeAllMemberTypesInnerVal (atomicType : ListAtomicType) :
    Option (List Range × List SemType) := do
  let initial ← atomicType.members.initial.mapM cellInner
  let fixedLength := atomicType.members.fixedLength
  let ranges := initialRanges initial.length fixedLength
  let rest ← cellInnerVal atomicType.rest
  if rest ≠ NEVER then some (ranges ++ [⟨fixedLength, intMaxValue⟩], initial ++ [rest])
  else some (ranges, initial)

/-- The loop over the combined ranges. -/
def applicableTypes (memberTypes : List SemType) :
    List CombinedRange → List SemType → Option (List SemType)
  | [], applicable => some applicable
  | ⟨_, some i1, some _⟩ :: combined, applicable => do
    let ty ← memberTypes[i1]?
    if applicable.length = 0 ∨ applicable.getLast? ≠ some ty then
      applicableTypes memberTypes combined (applicable ++ [ty])
    else applicableTypes memberTypes combined applicable
  | _ :: combined, applicable => applicableTypes memberTypes combined applicable

def listAtomicApplicableMemberTypesInnerVal (atomic : ListAtomicType) (indexType : IntKey) :
    Option (List SemType) := do
  let (ranges, memberTypes) ← listAtomicTypeAllMemberTypesInnerVal atomic
  match indexType with
  | .all => some memberTypes
  | .ranges key =>
    -- the list that is built here is not the one that is returned
    let _applicable ← applicableTypes memberTypes (combineRanges ranges key) []
    some memberTypes

end Source

/-! ## The ranges of an atom -/

/-- The cells of a list atom have inner types. -/
structure ListAtomicType.Typed [BddIdentity] (lt : ListAtomicType) : Prop where
  valid : lt.members.Valid
  initial : ∀ c ∈ lt.members.initial, ∃ ty, cellInner c = some ty
  rest : ∃ ty, cellInnerVal lt.rest = some ty

/-- The type of the members at an index, if lists of the atom can have one there. -/
def ListAtomicType.TypeAt [BddIdentity] (lt : ListAtomicType) (i : Int) (ty : SemType) : Prop :=
  0 ≤ i ∧ i ≤ intMaxValue ∧ ∃ c, listMemberAt lt.members lt.rest i = some c ∧
    (i < lt.members.fixedLength ∧ cellInner c = some ty ∨
      lt.members.fixedLength ≤ i ∧ cellInnerVal c = some ty ∧ ty ≠ NEVER)

/-- The ranges split the indices of the atom, each with its type. -/
structure AllMemberTypes [BddIdentity] (lt : ListAtomicType) (ranges : List Range)
    (types : List SemType) : Prop where
  sorted : SortedRanges ranges
  nonneg : ∀ r ∈ ranges, 0 ≤ r.min
  length : types.length = ranges.length
  cell : ∀ (k : Nat) (r : Range), ranges[k]? = some r → ∃ c ty, types[k]? = some ty ∧
    (∀ i, r.Has i → listMemberAt lt.members lt.rest i = some c) ∧
      (r.max < lt.members.fixedLength ∧ cellInner c = some ty ∨
        lt.members.fixedLength ≤ r.min ∧ cellInnerVal c = some ty ∧ ty ≠ NEVER)
  covers : ∀ i ty, lt.TypeAt i ty → rangesHave ranges i

/-- The range of an initial member. -/
theorem getElem?_initialRanges {n : Nat} {fixedLength : Int} {k : Nat} (hk : k < n) :
    (initialRanges n fixedLength)[k]? =
      some ⟨k, if k + 1 = n ∧ (n : Int) < fixedLength then fixedLength - 1 else k⟩ := by
  have hplain : ((List.range n).map fun (i : Nat) => (⟨i, i⟩ : Range))[k]? = some ⟨k, k⟩ := by
    rw [List.getElem?_map, List.getElem?_range hk]
    rfl
  unfold initialRanges
  dsimp only
  by_cases hlast : k + 1 = n ∧ (n : Int) < fixedLength
  · rw [if_pos ⟨by omega, hlast.2⟩, if_pos hlast, show n - 1 = k by omega,
      List.getElem?_set_self (by rw [List.length_map, List.length_range]; exact hk),
      show (n : Int) - 1 = k by omega]
  · rw [if_neg hlast]
    split
    next hset => rw [List.getElem?_set_ne (by omega), hplain]
    next => exact hplain

theorem length_initialRanges (n : Nat) (fixedLength : Int) : (initialRanges n fixedLength).length = n := by
  unfold initialRanges
  dsimp only
  split
  · rw [List.length_set, List.length_map, List.length_range]
  · rw [List.length_map, List.length_range]

variable {members : FixedLengthArray}

/-- The member at an index in the range of initial member `k` is that member. -/
theorem listMemberAt_initialRange (h : members.Valid) (rest : SemType) {k : Nat} {c : SemType}
    (hc : members.initial[k]? = some c) {i : Int} (hi : (k : Int) ≤ i)
    (hle : i ≤ if k + 1 = members.initial.length ∧ (members.initial.length : Int) < members.fixedLength
      then members.fixedLength - 1 else k) :
    i < members.fixedLength ∧ listMemberAt members rest i = some c := by
  have hk := (List.getElem?_eq_some_iff.mp hc).1
  have hlength := h.length
  have hlt : i < members.fixedLength := by
    split at hle
    · omega
    · omega
  have hindex : (min i ((members.initial.length : Int) - 1)).toNat = k := by
    split at hle
    · omega
    · omega
  refine ⟨hlt, ?_⟩
  unfold listMemberAt
  rw [if_pos hlt]
  unfold fixedArrayGet
  dsimp only
  rw [if_pos (by omega), hindex]
  exact hc

/-- Every index below the fixed length is in the range of an initial member. -/
theorem exists_initialRange (h : members.Valid) {i : Int} (hi : 0 ≤ i) (hlt : i < members.fixedLength) :
    rangesHave (initialRanges members.initial.length members.fixedLength) i := by
  have hlength := h.length
  have hpos : 0 < members.initial.length := by
    refine List.length_pos_iff.mpr fun hnil => ?_
    have := h.empty.mpr hnil
    omega
  let k := (min i ((members.initial.length : Int) - 1)).toNat
  have hk : k < members.initial.length := by omega
  refine ⟨_, List.mem_of_getElem? (getElem?_initialRanges hk), ?_, ?_⟩
  · show (k : Int) ≤ i
    omega
  · show i ≤ if k + 1 = members.initial.length ∧ _ then _ else _
    split
    · omega
    · omega

theorem mapM_cellInner {cells : List SemType} (h : ∀ c ∈ cells, ∃ ty, cellInner c = some ty) :
    ∃ types, cells.mapM cellInner = some types ∧ types.length = cells.length ∧
      ∀ (k : Nat) c, cells[k]? = some c → ∃ ty, types[k]? = some ty ∧ cellInner c = some ty := by
  induction cells with
  | nil => exact ⟨[], rfl, rfl, fun k c hc => by simp at hc⟩
  | cons c cells ih =>
    obtain ⟨ty, hty⟩ := h c (.head _)
    obtain ⟨types, htypes, hlength, hget⟩ := ih fun c' hc' => h c' (.tail _ hc')
    refine ⟨ty :: types, ?_, by rw [List.length_cons, List.length_cons, hlength], fun k c' hc' => ?_⟩
    · rw [List.mapM_cons, hty, htypes]
      rfl
    · cases k with
      | zero =>
        cases hc'
        exact ⟨ty, rfl, hty⟩
      | succ k => exact hget k c' hc'

/-- The ranges of the initial members. -/
theorem sortedRanges_initialRanges (h : members.Valid) :
    SortedRanges (initialRanges members.initial.length members.fixedLength) ∧
      ∀ r ∈ initialRanges members.initial.length members.fixedLength,
        0 ≤ r.min ∧ r.max < members.fixedLength := by
  have hlength := h.length
  have hint := h.int
  have hget : ∀ (k : Nat) r, (initialRanges members.initial.length members.fixedLength)[k]? = some r →
      k < members.initial.length ∧ r = ⟨k, if k + 1 = members.initial.length ∧
        (members.initial.length : Int) < members.fixedLength then members.fixedLength - 1 else k⟩ := by
    intro k r hr
    have hk := (List.getElem?_eq_some_iff.mp hr).1
    rw [length_initialRanges] at hk
    rw [getElem?_initialRanges hk] at hr
    exact ⟨hk, (Option.some.inj hr).symm⟩
  have hbounds : ∀ r ∈ initialRanges members.initial.length members.fixedLength,
      0 ≤ r.min ∧ r.min ≤ r.max ∧ r.max < members.fixedLength := by
    intro r hr
    obtain ⟨k, hk⟩ := List.mem_iff_getElem?.mp hr
    obtain ⟨hlt, rfl⟩ := hget k r hk
    refine ⟨Int.natCast_nonneg k, ?_, ?_⟩
    · dsimp only
      split
      · omega
      · omega
    · dsimp only
      split
      · omega
      · omega
  refine ⟨⟨fun r hr => ?_, ?_⟩, fun r hr => ⟨(hbounds r hr).1, (hbounds r hr).2.2⟩⟩
  · obtain ⟨hnonneg, hle, hlt⟩ := hbounds r hr
    refine ⟨?_, hle, by omega⟩
    show (-9223372036854775808 : Int) ≤ r.min
    omega
  · rw [List.pairwise_iff_getElem]
    intro i j hi hj hij
    obtain ⟨hlti, hri⟩ := hget i _ (List.getElem?_eq_getElem hi)
    obtain ⟨hltj, hrj⟩ := hget j _ (List.getElem?_eq_getElem hj)
    rw [hri, hrj]
    show (if _ then _ else _) < (j : Int)
    rw [if_neg (by omega)]
    omega

section Ranges

variable [BddIdentity]

variable {lt : ListAtomicType}

theorem listAtomicTypeAllMemberTypesInnerVal_spec (h : lt.Typed) :
    ∃ ranges types, listAtomicTypeAllMemberTypesInnerVal lt = some (ranges, types) ∧
      AllMemberTypes lt ranges types := by
  obtain ⟨types, htypes, hlength, hget⟩ := mapM_cellInner h.initial
  obtain ⟨rest, hrest⟩ := h.rest
  have hnonneg := h.valid.nonneg
  have hint := h.valid.int
  obtain ⟨hsorted, hbounds⟩ := sortedRanges_initialRanges h.valid
  -- the ranges of the initial members, which both results start with
  have hinitial : ∀ (k : Nat) (r : Range),
      (initialRanges types.length lt.members.fixedLength)[k]? = some r → ∃ c ty, types[k]? = some ty ∧
        (∀ i, r.Has i → listMemberAt lt.members lt.rest i = some c) ∧
          (r.max < lt.members.fixedLength ∧ cellInner c = some ty ∨
            lt.members.fixedLength ≤ r.min ∧ cellInnerVal c = some ty ∧ ty ≠ NEVER) := by
    intro k r hr
    rw [hlength] at hr
    have hk := (List.getElem?_eq_some_iff.mp hr).1
    rw [length_initialRanges] at hk
    have hc := List.getElem?_eq_getElem hk
    obtain ⟨ty, hty, hinner⟩ := hget k _ hc
    have hlt := (hbounds r (List.mem_of_getElem? hr)).2
    rw [getElem?_initialRanges hk] at hr
    cases hr
    exact ⟨_, ty, hty, fun i hi => (listMemberAt_initialRange h.valid lt.rest hc hi.1 hi.2).2,
      .inl ⟨hlt, hinner⟩⟩
  have hbelow : ∀ i ty, lt.TypeAt i ty → i < lt.members.fixedLength →
      rangesHave (initialRanges types.length lt.members.fixedLength) i := by
    intro i ty hi hlt
    rw [hlength]
    exact exists_initialRange h.valid hi.1 hlt
  unfold listAtomicTypeAllMemberTypesInnerVal
  rw [htypes, hrest]
  show ∃ ranges ts, (if rest ≠ NEVER then _ else _) = some (ranges, ts) ∧ _
  by_cases hnever : rest = NEVER
  · rw [if_neg (not_not.mpr hnever)]
    refine ⟨_, _, rfl, ?_, fun r hr => ?_, ?_, hinitial, fun i ty hi => hbelow i ty hi ?_⟩
    · rw [hlength]
      exact hsorted
    · rw [hlength] at hr
      exact (hbounds r hr).1
    · rw [length_initialRanges]
    · obtain ⟨_, _, c, hc, hcase⟩ := hi
      rcases hcase with ⟨hlt, _⟩ | ⟨hle, hinner, hne⟩
      · exact hlt
      · unfold listMemberAt at hc
        rw [if_neg (by omega)] at hc
        cases hc
        rw [hrest] at hinner
        cases hinner
        exact absurd hnever hne
  · rw [if_pos hnever]
    refine ⟨_, _, rfl, ⟨fun r hr => ?_, ?_⟩, fun r hr => ?_, ?_, fun k r hr => ?_, fun i ty hi => ?_⟩
    · rcases List.mem_append.mp hr with hr | hr
      · rw [hlength] at hr
        exact hsorted.fits r hr
      · rw [List.mem_singleton.mp hr]
        refine ⟨?_, hint, Int.le_refl _⟩
        show (-9223372036854775808 : Int) ≤ lt.members.fixedLength
        omega
    · rw [hlength]
      refine List.pairwise_append.mpr ⟨hsorted.sorted, List.pairwise_singleton _ _, fun r hr s hs => ?_⟩
      rw [List.mem_singleton.mp hs]
      exact (hbounds r hr).2
    · rcases List.mem_append.mp hr with hr | hr
      · rw [hlength] at hr
        exact (hbounds r hr).1
      · rw [List.mem_singleton.mp hr]
        exact hnonneg
    · rw [List.length_append, List.length_append, length_initialRanges]
      rfl
    · by_cases hk : k < types.length
      · rw [List.getElem?_append_left (by rw [length_initialRanges]; exact hk)] at hr
        rw [List.getElem?_append_left hk]
        exact hinitial k r hr
      · have hend := (List.getElem?_eq_some_iff.mp hr).1
        rw [List.length_append, length_initialRanges, List.length_singleton] at hend
        have heq : k = types.length := by omega
        rw [heq] at hr ⊢
        rw [List.getElem?_append_right (by rw [length_initialRanges]), length_initialRanges,
          Nat.sub_self] at hr
        cases hr
        rw [List.getElem?_append_right (Nat.le_refl _), Nat.sub_self]
        refine ⟨lt.rest, rest, rfl, fun i hi => ?_, .inr ⟨Int.le_refl _, hrest, hnever⟩⟩
        have hge : lt.members.fixedLength ≤ i := hi.1
        unfold listMemberAt
        rw [if_neg (by omega)]
    · rw [rangesHave_append]
      by_cases hlt : i < lt.members.fixedLength
      · exact .inl (hbelow i ty hi hlt)
      · refine .inr ⟨_, List.mem_singleton_self _, ?_, hi.2.1⟩
        show lt.members.fixedLength ≤ i
        omega

/-- The type of an index is that of its range. -/
theorem AllMemberTypes.typeAt_iff {ranges : List Range} {types : List SemType}
    (h : AllMemberTypes lt ranges types) {i : Int} {ty : SemType} :
    lt.TypeAt i ty ↔ ∃ (k : Nat) (r : Range), ranges[k]? = some r ∧ r.Has i ∧ types[k]? = some ty := by
  constructor
  · intro hi
    obtain ⟨r, hr, hhas⟩ := h.covers i ty hi
    obtain ⟨k, hk⟩ := List.mem_iff_getElem?.mp hr
    obtain ⟨c, ty', hty', hcell, hcase⟩ := h.cell k r hk
    obtain ⟨_, _, c', hc', hcase'⟩ := hi
    rw [hcell i hhas] at hc'
    cases hc'
    have heq : ty = ty' := by
      unfold Range.Has at hhas
      rcases hcase with ⟨hlt, hin⟩ | ⟨hle, hin, _⟩
      · rcases hcase' with ⟨_, hin'⟩ | ⟨hle', _⟩
        · exact Option.some.inj (hin'.symm.trans hin)
        · omega
      · rcases hcase' with ⟨hlt', _⟩ | ⟨_, hin', _⟩
        · omega
        · exact Option.some.inj (hin'.symm.trans hin)
    exact ⟨k, r, hk, hhas, heq ▸ hty'⟩
  · rintro ⟨k, r, hk, hhas, hty⟩
    obtain ⟨c, ty', hty', hcell, hcase⟩ := h.cell k r hk
    rw [hty] at hty'
    cases hty'
    have hmem := List.mem_of_getElem? hk
    have hnonneg := h.nonneg r hmem
    have hupper := (h.sorted.fits r hmem).upper
    have hbounds : r.min ≤ i ∧ i ≤ r.max := hhas
    refine ⟨by omega, by omega, c, hcell i hhas, ?_⟩
    rcases hcase with ⟨hlt, hin⟩ | ⟨hle, hin⟩
    · exact .inl ⟨by omega, hin⟩
    · exact .inr ⟨by omega, hin⟩

/-! ## The types that apply to an index type -/

omit [BddIdentity] in
/-- The loop collects the types of the entries with both indices. -/
theorem applicableTypes_spec {memberTypes : List SemType} : ∀ (combined : List CombinedRange)
    (applicable : List SemType),
    (∀ e ∈ combined, ∀ i, e.index1 = some i → i < memberTypes.length) →
    ∃ types, applicableTypes memberTypes combined applicable = some types ∧
      ∀ ty, ty ∈ types ↔ ty ∈ applicable ∨
        ∃ e ∈ combined, ∃ i, e.index1 = some i ∧ e.index2 ≠ none ∧ memberTypes[i]? = some ty
  | [], applicable, _ => ⟨applicable, rfl, fun ty => by simp⟩
  | e :: combined, applicable, hindex => by
    have htail : ∀ e ∈ combined, ∀ i, e.index1 = some i → i < memberTypes.length := fun e' he' =>
      hindex e' (.tail _ he')
    obtain ⟨range, index1, index2⟩ := e
    -- an entry without one of the indices adds nothing
    have hskip : (index1 = none ∨ index2 = none) →
        applicableTypes memberTypes (⟨range, index1, index2⟩ :: combined) applicable =
          applicableTypes memberTypes combined applicable →
        ∃ types, applicableTypes memberTypes (⟨range, index1, index2⟩ :: combined) applicable =
          some types ∧ ∀ ty, ty ∈ types ↔ ty ∈ applicable ∨
            ∃ e ∈ (⟨range, index1, index2⟩ : CombinedRange) :: combined, ∃ i, e.index1 = some i ∧
              e.index2 ≠ none ∧ memberTypes[i]? = some ty := by
      intro hnone heq
      obtain ⟨types, htypes, hmem⟩ := applicableTypes_spec combined applicable htail
      refine ⟨types, heq.trans htypes, fun ty => (hmem ty).trans (or_congr_right ?_)⟩
      refine ⟨fun ⟨e, he, h⟩ => ⟨e, .tail _ he, h⟩, fun ⟨e, he, i, hi, h2, hty⟩ => ?_⟩
      rcases List.mem_cons.mp he with rfl | he
      · rcases hnone with hnone | hnone
        · exact absurd (hnone.symm.trans hi) (by simp)
        · exact absurd hnone h2
      · exact ⟨e, he, i, hi, h2, hty⟩
    cases index1 with
    | none => exact hskip (.inl rfl) (by cases index2 <;> rfl)
    | some i1 =>
      cases index2 with
      | none => exact hskip (.inr rfl) rfl
      | some i2 =>
        have hi := hindex _ List.mem_cons_self i1 rfl
        have hget := List.getElem?_eq_getElem hi
        -- either way the type is among those that are kept
        obtain ⟨next, hnext, hmemNext⟩ : ∃ next, applicableTypes memberTypes
            (⟨range, some i1, some i2⟩ :: combined) applicable =
              applicableTypes memberTypes combined next ∧
            ∀ ty, ty ∈ next ↔ ty ∈ applicable ∨ ty = memberTypes[i1] := by
          by_cases hnew : applicable.length = 0 ∨ applicable.getLast? ≠ some memberTypes[i1]
          · refine ⟨applicable ++ [memberTypes[i1]], ?_, fun ty => by simp⟩
            show (do
              let ty ← memberTypes[i1]?
              if applicable.length = 0 ∨ applicable.getLast? ≠ some ty then
                applicableTypes memberTypes combined (applicable ++ [ty])
              else applicableTypes memberTypes combined applicable) = _
            rw [hget]
            exact if_pos hnew
          · rw [not_or, not_not] at hnew
            refine ⟨applicable, ?_, fun ty => ⟨.inl, fun h => h.elim id fun heq => ?_⟩⟩
            · show (do
                let ty ← memberTypes[i1]?
                if applicable.length = 0 ∨ applicable.getLast? ≠ some ty then
                  applicableTypes memberTypes combined (applicable ++ [ty])
                else applicableTypes memberTypes combined applicable) = _
              rw [hget]
              exact if_neg (by rw [not_or, not_not]; exact hnew)
            · rw [heq]
              exact List.mem_of_getLast? hnew.2
        obtain ⟨types, htypes, hmem⟩ := applicableTypes_spec combined next htail
        refine ⟨types, hnext.trans htypes, fun ty => ?_⟩
        rw [hmem, hmemNext, or_assoc]
        refine or_congr_right ⟨fun h => ?_, fun ⟨e, he, i, hi', h2, hty⟩ => ?_⟩
        · rcases h with rfl | ⟨e, he, h⟩
          · exact ⟨_, .head _, i1, rfl, by simp, hget⟩
          · exact ⟨e, .tail _ he, h⟩
        · rcases List.mem_cons.mp he with rfl | he
          · cases hi'
            rw [hget] at hty
            exact .inl (Option.some.inj hty).symm
          · exact .inr ⟨e, he, i, hi', h2, hty⟩

/-- The types that the loop finds are those of the indices in the key. -/
theorem applicableTypes_exact {ranges : List Range} {types : List SemType}
    (h : AllMemberTypes lt ranges types) {key : List Range} (hkey : Normalised key) :
    ∃ applicable, applicableTypes types (combineRanges ranges key) [] = some applicable ∧
      ∀ ty, ty ∈ applicable ↔ ∃ i, rangesHave key i ∧ lt.TypeAt i ty := by
  have href := combineRanges_refines h.sorted hkey.sortedRanges
  have hindex : ∀ e ∈ combineRanges ranges key, ∀ i, e.index1 = some i → i < types.length := by
    intro e he i hi
    have hright := href.index1 e he
    rw [hi] at hright
    obtain ⟨r, hr, _⟩ := hright
    rw [h.length]
    exact (List.getElem?_eq_some_iff.mp hr).1
  obtain ⟨applicable, happ, hmem⟩ := applicableTypes_spec (combineRanges ranges key) [] hindex
  refine ⟨applicable, happ, fun ty => (hmem ty).trans ⟨fun hty => ?_, fun ⟨n, hn, hty⟩ => .inr ?_⟩⟩
  · obtain ⟨e, he, i, hi, h2, hget⟩ := hty.resolve_left List.not_mem_nil
    obtain ⟨i2, hi2⟩ := Option.ne_none_iff_exists'.mp h2
    have hright1 := href.index1 e he
    have hright2 := href.index2 e he
    rw [hi] at hright1
    rw [hi2] at hright2
    obtain ⟨r, hr, hmin, hmax⟩ := hright1
    obtain ⟨s, hs, hmin', hmax'⟩ := hright2
    -- the first int of the entry is in both ranges
    have hne := (href.fits e he).nonempty
    refine ⟨e.range.min, ⟨s, List.mem_of_getElem? hs, hmin', by omega⟩,
      h.typeAt_iff.mpr ⟨i, r, hr, ⟨hmin, by omega⟩, hget⟩⟩
  · obtain ⟨k, r, hr, hhas, hget⟩ := h.typeAt_iff.mp hty
    have hmemr := List.mem_of_getElem? hr
    have hlower : intMinValue ≤ n := by
      have := (h.sorted.fits r hmemr).lower
      unfold Range.Has at hhas
      omega
    obtain ⟨e, he, hin⟩ := href.covers n hlower (.inl ⟨r, hmemr, hhas⟩)
    have hright2 := href.index2 e he
    refine ⟨e, he, k, (href.index1 e he).eq_some h.sorted hr hhas hin, fun hnone => ?_, hget⟩
    rw [hnone] at hright2
    exact hright2 n hin hn

/-- The function returns the types of all indices. -/
theorem listAtomicApplicableMemberTypesInnerVal_all {atomic : ListAtomicType} (h : atomic.Typed)
    {indexType : IntKey} (hindex : indexType.Valid) :
    ∃ types, listAtomicApplicableMemberTypesInnerVal atomic indexType = some types ∧
      ∀ ty, ty ∈ types ↔ ∃ i, atomic.TypeAt i ty := by
  obtain ⟨ranges, types, hresult, hall⟩ := listAtomicTypeAllMemberTypesInnerVal_spec h
  refine ⟨types, ?_, fun ty => ⟨fun hty => ?_, fun ⟨i, hi⟩ => ?_⟩⟩
  · unfold listAtomicApplicableMemberTypesInnerVal
    rw [hresult]
    cases indexType with
    | all => rfl
    | ranges key =>
      obtain ⟨applicable, happ, _⟩ := applicableTypes_exact hall (hindex.normalised key rfl)
      show (do
        let _applicable ← applicableTypes types (combineRanges ranges key) []
        some types) = _
      rw [happ]
      rfl
  · obtain ⟨k, hk⟩ := List.mem_iff_getElem?.mp hty
    have hlt : k < ranges.length := hall.length ▸ (List.getElem?_eq_some_iff.mp hk).1
    have hr := List.getElem?_eq_getElem hlt
    have hfits := (hall.sorted.fits _ (List.mem_of_getElem? hr)).nonempty
    exact ⟨ranges[k].min, hall.typeAt_iff.mpr ⟨k, _, hr, ⟨Int.le_refl _, hfits⟩, hk⟩⟩
  · obtain ⟨k, _, _, _, hk⟩ := hall.typeAt_iff.mp hi
    exact List.mem_of_getElem? hk

/-- So it is right exactly if no member type applies only to indices outside the index type. -/
theorem listAtomicApplicableMemberTypesInnerVal_exact_iff {atomic : ListAtomicType}
    (h : atomic.Typed) {indexType : IntKey} (hindex : indexType.Valid) :
    (∃ types, listAtomicApplicableMemberTypesInnerVal atomic indexType = some types ∧
        ∀ ty, ty ∈ types ↔ ∃ i, indexType.Has i ∧ atomic.TypeAt i ty) ↔
      ∀ i ty, atomic.TypeAt i ty → ∃ j, indexType.Has j ∧ atomic.TypeAt j ty := by
  obtain ⟨types, hreturns, hmem⟩ := listAtomicApplicableMemberTypesInnerVal_all h hindex
  constructor
  · rintro ⟨types', htypes', hexact⟩ i ty hi
    rw [hreturns] at htypes'
    cases htypes'
    exact (hexact ty).mp ((hmem ty).mpr ⟨i, hi⟩)
  · intro hcond
    refine ⟨types, hreturns, fun ty => (hmem ty).trans ⟨fun ⟨i, hi⟩ => hcond i ty hi, ?_⟩⟩
    rintro ⟨i, _, hi⟩
    exact ⟨i, hi⟩

/-! ## A type that does not apply -/

/-- The tuples of an int and a string. -/
def intString : ListAtomicType :=
  ⟨⟨[cellOf 0 (.bits INT), cellOf 1 (.bits STRING)], 2⟩, cellOf 2 (.bits UNDEF)⟩

omit [BddIdentity] in
theorem cellInner_bits (i : Nat) (b : BasicTypeBitSet) : cellInner (cellOf i (.bits b)) = some (.bits b) :=
  cellInner_cellOf i (.bits b)

theorem typed_intString : intString.Typed where
  valid := by
    refine ⟨iff_of_false (by decide) (List.cons_ne_nil _ _), Int.le_refl _, ?_⟩
    show (2 : Int) ≤ 9223372036854775807
    omega
  initial c hc := by
    rcases List.mem_cons.mp hc with rfl | hc
    · exact ⟨_, cellInner_bits 0 INT⟩
    · rw [List.mem_singleton.mp hc]
      exact ⟨_, cellInner_bits 1 STRING⟩
  rest := by
    refine ⟨NEVER, ?_⟩
    unfold cellInnerVal intString
    rw [cellInner_bits]
    rfl

theorem typeAt_intString {i : Int} {ty : SemType} (h : intString.TypeAt i ty) :
    i = 0 ∧ ty = .bits INT ∨ i = 1 ∧ ty = .bits STRING := by
  obtain ⟨hnonneg, _, c, hc, hcase⟩ := h
  rcases hcase with ⟨hlt, hinner⟩ | ⟨hle, hinner, hne⟩
  · have hlt' : i < 2 := hlt
    obtain rfl | rfl : i = 0 ∨ i = 1 := by omega
    · cases hc
      rw [cellInner_bits] at hinner
      exact .inl ⟨rfl, (Option.some.inj hinner).symm⟩
    · cases hc
      rw [cellInner_bits] at hinner
      exact .inr ⟨rfl, (Option.some.inj hinner).symm⟩
  · have hle' : 2 ≤ i := hle
    unfold listMemberAt at hc
    rw [if_neg (by show ¬ i < 2; omega)] at hc
    cases hc
    unfold cellInnerVal at hinner
    rw [show cellInner intString.rest = some (.bits UNDEF) from cellInner_bits 2 UNDEF] at hinner
    exact absurd (Option.some.inj hinner).symm hne

end Ranges

theorem valid_intKey {r : Range} (h : r.Fits) : (IntKey.ranges [r]).Valid where
  normalised v hv := by
    cases hv
    exact normalised_cons.mpr ⟨h, fun s hs => absurd hs List.not_mem_nil, normalised_nil⟩
  nonempty v hv := by
    cases hv
    exact List.cons_ne_nil _ _

/-- For the indices 0 and 1 both types apply. -/
theorem listAtomicApplicableMemberTypesInnerVal_exact_both :
    let _ := BddIdentity.shared
    ∃ types, listAtomicApplicableMemberTypesInnerVal intString (.ranges [⟨0, 1⟩]) = some types ∧
      ∀ ty, ty ∈ types ↔ ∃ i, (IntKey.ranges [⟨0, 1⟩]).Has i ∧ intString.TypeAt i ty := by
  intro _
  have hkey : (IntKey.ranges [⟨0, 1⟩]).Valid := valid_intKey ⟨by decide, by decide, by decide⟩
  refine (listAtomicApplicableMemberTypesInnerVal_exact_iff typed_intString hkey).mpr fun i ty hi => ?_
  refine ⟨i, ⟨_, List.mem_singleton_self _, ?_⟩, hi⟩
  unfold Range.Has
  dsimp only
  rcases typeAt_intString hi with ⟨rfl, _⟩ | ⟨rfl, _⟩
  · omega
  · omega

/-- For the index 0 the function returns the type `string` of the index 1 too. -/
theorem not_exact_first_member :
    let _ := BddIdentity.shared
    ¬ ∃ types, listAtomicApplicableMemberTypesInnerVal intString (.ranges [⟨0, 0⟩]) = some types ∧
      ∀ ty, ty ∈ types ↔ ∃ i, (IntKey.ranges [⟨0, 0⟩]).Has i ∧ intString.TypeAt i ty := by
  intro _
  rintro ⟨types, htypes, hexact⟩
  have hkey : (IntKey.ranges [⟨0, 0⟩]).Valid := valid_intKey ⟨by decide, by decide, by decide⟩
  obtain ⟨types', htypes', hmem'⟩ := listAtomicApplicableMemberTypesInnerVal_all typed_intString hkey
  rw [htypes] at htypes'
  cases htypes'
  have hsecond : intString.TypeAt 1 (.bits STRING) :=
    ⟨by decide, by decide, _, rfl, .inl ⟨by decide, cellInner_bits 1 STRING⟩⟩
  have hmem : SemTypeOf.bits STRING ∈ types := (hmem' _).mpr ⟨1, hsecond⟩
  obtain ⟨i, ⟨r, hr, hhas⟩, hi⟩ := (hexact _).mp hmem
  rw [List.mem_singleton.mp hr] at hhas
  rcases typeAt_intString hi with ⟨_, hty⟩ | ⟨rfl, _⟩
  · cases hty
  · exact absurd hhas.2 (by decide)

end Nballerina.Types
