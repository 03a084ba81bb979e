import Nballerina.Types.ListRanges

/-!
# The ranges of all members of a list type

`listAllMemberTypesInner` (`core.bal`) gives the member types of a list type, range by range. The
ranges come from the positive atoms on the paths of the `Bdd`, each path refining them further; the
type of a range is the one that `listMemberTypeInnerVal` gives to its first index.

A path without a positive atom has no ranges, although its lists have members. So a member is in
the type of its range exactly as far as the positive atoms of some path reach its index (`RangesCovered`)
and no intersection of member types loses a common value
(`listAllMemberTypesInner_contains_iff`).

Mirroring notes:
- An index is an `int`, so at most `int:MAX_VALUE`.
- Lists are taken by their values, as in `ListMember`.
-/

namespace Nballerina.Types

variable {V : Type}

def intConst (value : Int) : SemType := basicSubtype BT_INT (.int [⟨value, value⟩])

section Source

variable [BddIdentity]

def bddListAllRanges (env : Env) : Bdd → List Range → Option (List Range)
  | .leaf b, accum => some (if b then accum else [])
  | .node atom left middle right, accum => do
    let (atomRanges, _) ← listAtomicTypeAllMemberTypesInnerVal (← env.listAtomType atom)
    let l ← bddListAllRanges env left (distinctRanges atomRanges accum)
    let m ← bddListAllRanges env middle accum
    let r ← bddListAllRanges env right accum
    some (distinctRanges l (distinctRanges m r))

/-- The loop of `listAllMemberTypesInner`. -/
def rangeMemberTypes (env : Env) (t : SemType) : List Range → Option (List Range × List SemType)
  | [] => some ([], [])
  | r :: allRanges => do
    let m ← listMemberTypeInnerVal env t (intConst r.min)
    let (ranges, types) ← rangeMemberTypes env t allRanges
    if m ≠ NEVER then some (r :: ranges, m :: types) else some (ranges, types)

def listAllMemberTypesInner (env : Env) (t : SemType) : Option (List Range × List SemType) :=
  match t with
  | .bits b => some (if b &&& LIST ≠ 0 then ([⟨0, intMaxValue⟩], [.bits VAL]) else ([], []))
  | .complex c => do
    let data ← getComplexSubtypeData c BT_LIST
    let bdd ← data.toBdd
    rangeMemberTypes env t (← bddListAllRanges env bdd [])

end Source

/-! ## Splitting -/

/-- The range does not cross a boundary of the list: it is inside or outside of each of its ranges. -/
def Range.Splits (r : Range) (v : List Range) : Prop :=
  ∀ s ∈ v, (s.min ≤ r.min ∧ r.max ≤ s.max) ∨ ∀ n, r.Has n → ¬ s.Has n

variable {v w : List Range}

theorem splits_of_indexRight (hv : SortedRanges v) {r : Range} {index : Option Nat}
    (h : IndexRight v r index) : r.Splits v := by
  intro s hs
  cases index with
  | none => exact .inr fun n hn hhas => h n hn ⟨s, hs, hhas⟩
  | some i =>
    obtain ⟨s', hs', hmin, hmax⟩ := h
    obtain ⟨j, hj⟩ := List.mem_iff_getElem?.mp hs
    rcases Nat.lt_trichotomy i j with hlt | heq | hlt
    · refine .inr fun n hn hhas => ?_
      have := hv.lt_of_getElem? hlt hs' hj
      unfold Range.Has at hn hhas
      omega
    · rw [heq, hj] at hs'
      cases hs'
      exact .inl ⟨hmin, hmax⟩
    · refine .inr fun n hn hhas => ?_
      have := hv.lt_of_getElem? hlt hj hs'
      unfold Range.Has at hn hhas
      omega

/-- A range that does not cross the ranges of a refinement does not cross those that it refines. -/
theorem Range.Splits.trans {r : Range} (h : r.Splits v) (hrefines : ∀ e ∈ v, e.Splits w)
    (hcovers : ∀ n, rangesHave w n → rangesHave v n) :
    r.Splits w := by
  intro s hs
  by_cases hmeets : ∃ n, r.Has n ∧ s.Has n
  · obtain ⟨n, hn, hhas⟩ := hmeets
    obtain ⟨e, he, hen⟩ := hcovers n ⟨s, hs, hhas⟩
    rcases h e he with ⟨hmin, hmax⟩ | hout
    · rcases hrefines e he s hs with ⟨hmin', hmax'⟩ | hout
      · exact .inl ⟨by omega, by omega⟩
      · exact absurd hhas (hout n hen)
    · exact absurd hen (hout n hn)
  · exact .inr fun n hn hhas => hmeets ⟨n, hn, hhas⟩

/-- Sorted, with no negative index. -/
structure IndexRanges (v : List Range) : Prop extends SortedRanges v where
  nonneg : ∀ r ∈ v, 0 ≤ r.min

theorem indexRanges_nil : IndexRanges [] where
  fits _ hr := absurd hr List.not_mem_nil
  sorted := List.Pairwise.nil
  nonneg _ hr := absurd hr List.not_mem_nil

/-- `distinctRanges` has the ints of both lists and crosses no boundary of either. -/
theorem distinctRanges_spec (hv : IndexRanges v) (hw : IndexRanges w) :
    IndexRanges (distinctRanges v w) ∧
      (∀ n, rangesHave (distinctRanges v w) n ↔ rangesHave v n ∨ rangesHave w n) ∧
      ∀ r ∈ distinctRanges v w, r.Splits v ∧ r.Splits w := by
  have href := combineRanges_refines hv.toSortedRanges hw.toSortedRanges
  -- an entry is inside a range of one of the lists
  have hinside : ∀ e ∈ combineRanges v w,
      ∃ s, (s ∈ v ∨ s ∈ w) ∧ s.min ≤ e.range.min ∧ e.range.max ≤ s.max := by
    intro e he
    have h1 := href.index1 e he
    have h2 := href.index2 e he
    rcases href.inside e he with hne | hne
    · obtain ⟨i, hi⟩ := Option.ne_none_iff_exists'.mp hne
      rw [hi] at h1
      obtain ⟨s, hs, hbounds⟩ := h1
      exact ⟨s, .inl (List.mem_of_getElem? hs), hbounds⟩
    · obtain ⟨i, hi⟩ := Option.ne_none_iff_exists'.mp hne
      rw [hi] at h2
      obtain ⟨s, hs, hbounds⟩ := h2
      exact ⟨s, .inr (List.mem_of_getElem? hs), hbounds⟩
  have hof : ∀ r ∈ distinctRanges v w, ∃ e ∈ combineRanges v w, e.range = r := fun r hr =>
    List.mem_map.mp hr
  refine ⟨⟨⟨fun r hr => ?_, ?_⟩, fun r hr => ?_⟩, fun n => ⟨fun hn => ?_, fun hn => ?_⟩,
    fun r hr => ?_⟩
  · obtain ⟨e, he, rfl⟩ := hof r hr
    exact href.fits e he
  · exact List.pairwise_map.mpr href.sorted
  · obtain ⟨e, he, rfl⟩ := hof r hr
    obtain ⟨s, hs, hmin, _⟩ := hinside e he
    have : 0 ≤ s.min := hs.elim (hv.nonneg s) (hw.nonneg s)
    omega
  · obtain ⟨r, hr, hhas⟩ := hn
    obtain ⟨e, he, rfl⟩ := hof r hr
    obtain ⟨s, hs, hmin, hmax⟩ := hinside e he
    have hsn : s.Has n := by
      unfold Range.Has at hhas ⊢
      omega
    exact hs.imp (fun hs => ⟨s, hs, hsn⟩) fun hs => ⟨s, hs, hsn⟩
  · have hlower : intMinValue ≤ n := by
      rcases hn with ⟨s, hs, hhas⟩ | ⟨s, hs, hhas⟩
      · have := (hv.fits s hs).lower
        unfold Range.Has at hhas
        omega
      · have := (hw.fits s hs).lower
        unfold Range.Has at hhas
        omega
    obtain ⟨e, he, hhas⟩ := href.covers n hlower hn
    exact ⟨e.range, List.mem_map.mpr ⟨e, he, rfl⟩, hhas⟩
  · obtain ⟨e, he, rfl⟩ := hof r hr
    exact ⟨splits_of_indexRight hv.toSortedRanges (href.index1 e he),
      splits_of_indexRight hw.toSortedRanges (href.index2 e he)⟩

/-- What crosses no boundary of the two lists together crosses none of either. -/
theorem Range.Splits.both {r : Range} (hv : IndexRanges v) (hw : IndexRanges w)
    (h : r.Splits (distinctRanges v w)) : r.Splits v ∧ r.Splits w := by
  obtain ⟨_, hhave, hsplits⟩ := distinctRanges_spec hv hw
  exact ⟨h.trans (fun e he => (hsplits e he).1) fun n hn => (hhave n).mpr (.inl hn),
    h.trans (fun e he => (hsplits e he).2) fun n hn => (hhave n).mpr (.inr hn)⟩

/-! ## The type at a single index -/

section Single

variable [BddIdentity]

/-- A single index is in the key for one `i` at most. -/
theorem unionContained_single (k : Nat) (fixedArray : FixedLengthArray) :
    ∀ (is : List Nat) (m : SemType), is.Nodup →
      unionContained [⟨k, k⟩] fixedArray is m =
        if k ∈ is then (fixedArrayGet fixedArray k).bind (unionInner m) else some m
  | [], m, _ => rfl
  | i :: is, m, hnodup => by
    obtain ⟨hnot, htail⟩ := List.nodup_cons.mp hnodup
    unfold unionContained
    by_cases hik : i = k
    · have hcontains : intSubtypeContains (.proper (.int [⟨(k : Int), k⟩])) i = some true := by
        rw [intSubtypeContains_iff, hik]
        exact ⟨_, List.mem_singleton_self _, Int.le_refl _, Int.le_refl _⟩
      rw [hcontains, hik, if_pos (.head _)]
      show (do unionContained _ fixedArray is (← unionInner m (← fixedArrayGet fixedArray k))) = _
      cases fixedArrayGet fixedArray k with
      | none => rfl
      | some c =>
        show (do unionContained _ fixedArray is (← unionInner m c)) = unionInner m c
        cases unionInner m c with
        | none => rfl
        | some m' =>
          show unionContained _ fixedArray is m' = some m'
          rw [unionContained_single k fixedArray is m' htail, if_neg (hik ▸ hnot)]
    · have hcontains : intSubtypeContains (.proper (.int [⟨(k : Int), k⟩])) i = some false := by
        have hnothas : ¬ rangesHave [⟨(k : Int), k⟩] i := by
          rintro ⟨r, hr, hhas⟩
          rw [List.mem_singleton.mp hr] at hhas
          unfold Range.Has at hhas
          dsimp only at hhas
          omega
        rw [← intSubtypeContains_iff] at hnothas
        cases hb : intSubtypeContains (.proper (.int [⟨(k : Int), k⟩])) i with
        | none => cases hb
        | some b =>
          cases b with
          | true => exact absurd hb hnothas
          | false => rfl
      rw [hcontains]
      show unionContained _ fixedArray is m = _
      rw [unionContained_single k fixedArray is m htail]
      have hmem : (k ∈ i :: is) ↔ k ∈ is := by
        rw [List.mem_cons]
        exact ⟨fun h => h.resolve_left fun heq => hik heq.symm, .inr⟩
      by_cases hin : k ∈ is
      · rw [if_pos hin, if_pos (hmem.mpr hin)]
      · rw [if_neg hin, if_neg (fun h => hin (hmem.mp h))]

omit [BddIdentity] in
theorem intSubtypeOverlapRange_single (k lo hi : Int) :
    intSubtypeOverlapRange [⟨k, k⟩] ⟨lo, hi⟩ = decide (lo ≤ k ∧ k ≤ hi) := by
  have hlist : rangeListIntersect [⟨k, k⟩] [⟨lo, hi⟩] = if lo ≤ k ∧ k ≤ hi then
      [⟨max k lo, min k hi⟩] else [] := by
    unfold rangeListIntersect
    rcases rangeIntersect_cases ⟨k, k⟩ ⟨lo, hi⟩ with ⟨hlt, hcase⟩ | ⟨hlt, hcase⟩ | ⟨hmeets, hcase⟩
    · rw [hcase, if_neg (fun h => by dsimp only at hlt; omega)]
      exact rangeListIntersect.eq_1 _
    · rw [hcase, if_neg (fun h => by dsimp only at hlt; omega)]
      exact rangeListIntersect.eq_2 _ _
    · unfold Range.Meets at hmeets
      rw [hcase, if_pos ⟨hmeets.2, hmeets.1⟩]
      exact congrArg _ (rangeListIntersect.eq_1 _)
  unfold intSubtypeOverlapRange intSubtypeIntersect
  dsimp only
  rw [hlist]
  by_cases hin : lo ≤ k ∧ k ≤ hi
  · rw [if_pos hin, decide_eq_true hin]
    rfl
  · rw [if_neg hin, decide_eq_false hin]
    rfl

variable {env : Env} {m t ty : SemType} {types : List SemType} {lt : ListAtomicType}
  {c : ComplexSemType ProperSubtypeData}

/-- An atom gives to a single index the type of its cell there. -/
theorem listAtomicMemberTypeInner_single (h : lt.members.Valid) (k : Nat) :
    listAtomicMemberTypeInner lt (.ranges [⟨k, k⟩]) =
      (listMemberAt lt.members lt.rest k).bind (unionInner NEVER) := by
  have hlength := h.length
  have hmax : intSubtypeMax [⟨(k : Int), k⟩] = some k := rfl
  unfold listAtomicMemberTypeInner listAtomicMemberTypeAtInner fixedMemberType listMemberAt
  dsimp only
  rw [hmax]
  by_cases hzero : lt.members.fixedLength = 0
  · rw [if_neg (not_not.mpr hzero), if_neg (by omega)]
    show (if lt.members.fixedLength = 0 then _ else _) = _
    rw [if_pos hzero]
    rfl
  · rw [if_pos hzero, unionContained_single k lt.members _ NEVER List.nodup_range,
      intSubtypeOverlapRange_single]
    by_cases hlt : (k : Int) < lt.members.fixedLength
    · -- a fixed member: an initial one, or one that repeats the last of them
      rw [if_pos hlt]
      have hlast : ∀ m, (if lt.members.fixedLength = 0 then unionInner m lt.rest
          else if (k : Int) > lt.members.fixedLength - 1 then unionInner m lt.rest else some m) =
            some m := by
        intro m
        rw [if_neg hzero, if_neg (by omega)]
      by_cases hinit : k < lt.members.initial.length
      · rw [if_pos (List.mem_range.mpr hinit)]
        cases (fixedArrayGet lt.members k).bind (unionInner NEVER) with
        | none => rfl
        | some m =>
          show (do
            let m ← (if decide _ = true then _ else some m : Option SemType)
            _) = _
          rw [if_neg (by rw [decide_eq_true_iff]; omega)]
          exact hlast m
      · have hsame : fixedArrayGet lt.members (lt.members.fixedLength - 1) =
            fixedArrayGet lt.members k := by
          unfold fixedArrayGet
          dsimp only
          rw [show min (lt.members.fixedLength - 1) ((lt.members.initial.length : Int) - 1) =
            min (k : Int) ((lt.members.initial.length : Int) - 1) by omega]
        rw [if_neg (fun hmem => hinit (List.mem_range.mp hmem))]
        show (do
          let m ← (if decide _ = true then _ else some NEVER : Option SemType)
          _) = _
        rw [if_pos (by rw [decide_eq_true_iff]; omega), hsame]
        cases hget : fixedArrayGet lt.members k with
        | none => rfl
        | some c =>
          show (do
            let m ← unionInner NEVER c
            _) = unionInner NEVER c
          cases unionInner NEVER c with
          | none => rfl
          | some m => exact hlast m
    · rw [if_neg hlt, if_neg (fun hmem => by
        have := List.mem_range.mp hmem
        omega)]
      show (do
        let m ← (if decide _ = true then _ else some NEVER : Option SemType)
        _) = _
      rw [if_neg (by rw [decide_eq_true_iff]; omega)]
      show (if lt.members.fixedLength = 0 then _ else if (k : Int) > lt.members.fixedLength - 1 then
        unionInner NEVER lt.rest else _) = _
      rw [if_neg hzero, if_pos (by omega)]
      rfl

/-- The values of the inner types in `Q`, as they are computed for a single index. -/
def SingleVal (Q : SemType → Prop) (m : SemType) : Prop :=
  ∃ ty u, Q ty ∧ union ops NEVER ty = some u ∧ diff ops u (.bits UNDEF) = some m

variable {den : SemType → Set V} {Q W : SemType → Prop}

theorem singleVal_type (hx : ListMemberTypes den Q W) {u : SemType} (hQ : Q ty)
    (hu : union ops NEVER ty = some u) (hm : diff ops u (.bits UNDEF) = some m) :
    W m ∧ den m = den ty \ den (.bits UNDEF) := by
  obtain ⟨u', hu', hQu, hdenu⟩ := hx.inner_union hx.inner_never hQ
  rw [hu] at hu'
  cases hu'
  obtain ⟨m', hm', hW, hden⟩ := hx.diff_undef hQu
  rw [hm] at hm'
  cases hm'
  refine ⟨hW, ?_⟩
  rw [hden, hdenu, hx.den_never, Set.empty_union]

theorem SingleVal.type (hx : ListMemberTypes den Q W) (m : SemType) (h : SingleVal Q m) : W m := by
  obtain ⟨ty, u, hQ, hu, hm⟩ := h
  exact (singleVal_type hx hQ hu hm).1

/-- The type that an atom gives to a single index. -/
theorem listAtomicMemberTypeInnerVal_single (hx : ListMemberTypes den Q W) (hover : lt.Over (CellOf Q))
    (k : Nat) :
    ∃ c ty m, listMemberAt lt.members lt.rest k = some c ∧ cellInner c = some ty ∧
      listAtomicMemberTypeInnerVal lt (.ranges [⟨k, k⟩]) = some m ∧ SingleVal Q m ∧ W m ∧
      den m = den ty \ den (.bits UNDEF) := by
  obtain ⟨c, hc, ty, hty, hQ⟩ := hover.memberAt (Int.natCast_nonneg k)
  obtain ⟨u, hu, hQu, _⟩ := hx.inner_union hx.inner_never hQ
  obtain ⟨m, hm, _⟩ := hx.diff_undef hQu
  obtain ⟨hW, hden⟩ := singleVal_type hx hQ hu hm
  refine ⟨c, ty, m, hc, hty, ?_, ⟨ty, u, hQ, hu, hm⟩, hW, hden⟩
  have hinner : unionInner NEVER c = some u := by
    unfold unionInner
    rw [hty]
    exact hu
  unfold listAtomicMemberTypeInnerVal
  rw [listAtomicMemberTypeInner_single hover.valid k, hc]
  show (do diff ops (← unionInner NEVER c) (.bits UNDEF)) = _
  rw [hinner]
  exact hm

/-! ## The ranges of a `Bdd` -/

theorem typed_of_over (hx : ListMemberTypes den Q W) (h : lt.Over (CellOf Q)) :
    lt.Typed where
  valid := h.valid
  initial c hc := by
    obtain ⟨ty, hty, _⟩ := h.initial c hc
    exact ⟨ty, hty⟩
  rest := by
    obtain ⟨ty, hty, hQ⟩ := h.rest
    obtain ⟨m, hm, _⟩ := hx.diff_undef hQ
    refine ⟨m, ?_⟩
    unfold cellInnerVal
    rw [hty]
    exact hm

/-- The atom gives a type to the index. -/
def Env.HasMemberAt (env : Env) (i : Int) (atom : Atom) : Prop :=
  ∃ lt ty, env.listAtomType atom = some lt ∧ lt.TypeAt i ty

omit [BddIdentity] in
/-- Some path to `true` takes an atom with `P` positively, or `accum` holds already. -/
def Bdd.PosHas (P : Atom → Prop) : Bdd → Prop → Prop
  | .leaf b, accum => b = true ∧ accum
  | .node atom left middle right, accum =>
    left.PosHas P (P atom ∨ accum) ∨ middle.PosHas P accum ∨ right.PosHas P accum

theorem indexRanges_atom (hx : ListMemberTypes den Q W) {atom : Atom}
    (hover : ∃ lt, env.listAtomType atom = some lt ∧ lt.Over (CellOf Q)) :
    ∃ lt ranges types, env.listAtomType atom = some lt ∧ lt.Over (CellOf Q) ∧
      listAtomicTypeAllMemberTypesInnerVal lt = some (ranges, types) ∧
      AllMemberTypes lt ranges types ∧ IndexRanges ranges ∧
      ∀ i, rangesHave ranges i ↔ env.HasMemberAt i atom := by
  obtain ⟨lt, hlt, hltOver⟩ := hover
  obtain ⟨ranges, types, hall, hspec⟩ := listAtomicTypeAllMemberTypesInnerVal_spec (typed_of_over hx hltOver)
  refine ⟨lt, ranges, types, hlt, hltOver, hall, hspec, ⟨hspec.sorted, hspec.nonneg⟩, fun i => ?_⟩
  constructor
  · rintro ⟨r, hr, hhas⟩
    obtain ⟨k, hk⟩ := List.mem_iff_getElem?.mp hr
    obtain ⟨_, ty, hty, _⟩ := hspec.cell k r hk
    exact ⟨lt, ty, hlt, hspec.typeAt_iff.mpr ⟨k, r, hk, hhas, hty⟩⟩
  · rintro ⟨lt', ty, hlt', hi⟩
    rw [hlt] at hlt'
    cases hlt'
    exact hspec.covers i ty hi

/-- The ranges that are found are those of the positive atoms. -/
theorem bddListAllRanges_spec (hx : ListMemberTypes den Q W) (env : Env) :
    ∀ (b : Bdd) (accum : List Range),
      b.Over (fun atom => ∃ lt, env.listAtomType atom = some lt ∧ lt.Over (CellOf Q)) →
      IndexRanges accum → ∃ ranges, bddListAllRanges env b accum = some ranges ∧ IndexRanges ranges ∧
        ∀ i, rangesHave ranges i ↔ b.PosHas (env.HasMemberAt i) (rangesHave accum i)
  | .leaf b, accum, _, haccum => by
    cases b with
    | true => exact ⟨accum, rfl, haccum, fun i => (and_iff_right rfl).symm⟩
    | false =>
      refine ⟨[], rfl, indexRanges_nil, fun i => iff_of_false (by simp) fun h => ?_⟩
      cases h.1
  | .node atom left middle right, accum, hover, haccum => by
    obtain ⟨hatom, hl, hm, hr⟩ := hover
    obtain ⟨lt, atomRanges, types, hlt, _, hall, _, hindex, hhave⟩ := indexRanges_atom hx hatom
    obtain ⟨hnew, hnewHave, _⟩ := distinctRanges_spec hindex haccum
    obtain ⟨l, hleft, hlRanges, hlHave⟩ := bddListAllRanges_spec hx env left _ hl hnew
    obtain ⟨m, hmiddle, hmRanges, hmHave⟩ := bddListAllRanges_spec hx env middle accum hm haccum
    obtain ⟨r, hright, hrRanges, hrHave⟩ := bddListAllRanges_spec hx env right accum hr haccum
    obtain ⟨hmr, hmrHave, _⟩ := distinctRanges_spec hmRanges hrRanges
    obtain ⟨hres, hresHave, _⟩ := distinctRanges_spec hlRanges hmr
    refine ⟨_, ?_, hres, fun i => ?_⟩
    · unfold bddListAllRanges
      simp only [hlt, hall, hleft, hmiddle, hright, Option.bind_eq_bind, Option.bind_some]
    · have hstart : (rangesHave (distinctRanges atomRanges accum) i) =
          (env.HasMemberAt i atom ∨ rangesHave accum i) := by
        rw [propext (hnewHave i), propext (hhave i)]
      rw [hresHave, hmrHave, hlHave, hmHave, hrHave, hstart]
      rfl

/-! ## The type of a range -/

theorem bddListAllRanges_node {atom : Atom} {left middle right : Bdd}
    {accum ranges atomRanges : List Range} (hlt : env.listAtomType atom = some lt)
    (hall : listAtomicTypeAllMemberTypesInnerVal lt = some (atomRanges, types))
    (h : bddListAllRanges env (.node atom left middle right) accum = some ranges) :
    ∃ l m r, bddListAllRanges env left (distinctRanges atomRanges accum) = some l ∧
      bddListAllRanges env middle accum = some m ∧ bddListAllRanges env right accum = some r ∧
      ranges = distinctRanges l (distinctRanges m r) := by
  unfold bddListAllRanges at h
  simp only [hlt, hall, Option.bind_eq_bind, Option.bind_some] at h
  obtain ⟨l, hl, h⟩ := Option.bind_eq_some_iff.mp h
  obtain ⟨m, hm, h⟩ := Option.bind_eq_some_iff.mp h
  obtain ⟨r, hr, h⟩ := Option.bind_eq_some_iff.mp h
  exact ⟨l, m, r, hl, hm, hr, (Option.some.inj h).symm⟩

/-- The atom of a list gives a type to the index of a member. -/
theorem exists_typeAt (hx : ListMemberTypes den Q W) (hover : lt.Over (CellOf Q)) {l : List V} {i : Nat}
    {v : V} (hcontains : lt.Contains (cellDen den) l) (hi : (i : Int) ≤ intMaxValue)
    (hv : l[i]? = some v) (hval : v ∈ den (.bits VAL)) :
    ∃ c ty, listMemberAt lt.members lt.rest i = some c ∧ cellInner c = some ty ∧ v ∈ den ty ∧
      ∃ ty', lt.TypeAt i ty' := by
  obtain ⟨c, hc, ty, hty, hQ⟩ := hover.memberAt (Int.natCast_nonneg i)
  obtain ⟨ty', hty', hvty⟩ := hcontains.2 i v c hv hc
  rw [hty] at hty'
  cases hty'
  refine ⟨c, ty, hc, hty, hvty, ?_⟩
  by_cases hlt : (i : Int) < lt.members.fixedLength
  · exact ⟨ty, Int.natCast_nonneg i, hi, c, hc, .inl ⟨hlt, hty⟩⟩
  · obtain ⟨d, hd, _, hden⟩ := hx.diff_undef hQ
    refine ⟨d, Int.natCast_nonneg i, hi, c, hc, .inr ⟨by omega, ?_, fun hnever => ?_⟩⟩
    · unfold cellInnerVal
      rw [hty]
      exact hd
    · have hmem : v ∈ den d := by
        rw [hden]
        exact ⟨hvty, Set.disjoint_left.mp hx.defined hval⟩
      rw [hnever, hx.den_never] at hmem
      exact hmem

/-- A member of a list is in the type that an atom of the list gives to the first index of a range
around it, if the range crosses no boundary of the atom. -/
theorem mem_atom_of_splits (hx : ListMemberTypes den Q W) (hover : lt.Over (CellOf Q))
    {atomRanges : List Range} (hspec : AllMemberTypes lt atomRanges types) {l : List V} {i : Nat}
    {v : V} (hcontains : lt.Contains (cellDen den) l) (hi : (i : Int) ≤ intMaxValue)
    (hv : l[i]? = some v) (hval : v ∈ den (.bits VAL)) {r : Range} (hr : r.Has i) {k : Nat}
    (hk : r.min = k) (hm : listAtomicMemberTypeInnerVal lt (.ranges [⟨k, k⟩]) = some m)
    (hsplits : r.Splits atomRanges) : v ∈ den m := by
  obtain ⟨c, ty, m', hc, hty, hm', _, _, hden⟩ := listAtomicMemberTypeInnerVal_single hx hover k
  rw [hm] at hm'
  cases hm'
  obtain ⟨c', ty', hc', hty', hvty, ty0, hat⟩ := exists_typeAt hx hover hcontains hi hv hval
  obtain ⟨s, hs, hhas⟩ := hspec.covers i ty0 hat
  rcases hsplits s hs with ⟨hmin, hmax⟩ | hout
  · -- the range is inside that of the atom, which has one cell
    obtain ⟨j, hj⟩ := List.mem_iff_getElem?.mp hs
    obtain ⟨c0, _, _, hcell, _⟩ := hspec.cell j s hj
    have hfirst : s.Has k := by
      unfold Range.Has at hr hhas ⊢
      omega
    have hsame : c = c' := by
      have h1 := (hcell k hfirst).symm.trans hc
      have h2 := (hcell i hhas).symm.trans hc'
      exact (Option.some.inj h1).symm.trans (Option.some.inj h2)
    rw [hsame, hty'] at hty
    cases hty
    rw [hden]
    exact ⟨hvty, Set.disjoint_left.mp hx.defined hval⟩
  · exact absurd hhas (hout i hr)

/-- The type at a single index is computed, whatever has been accumulated. -/
theorem exists_bddMemberType_single (hx : ListMemberTypes den Q W) (k : Nat) {b : Bdd}
    (hover : b.Over fun atom => ∃ lt, env.listAtomType atom = some lt ∧ lt.Over (CellOf Q))
    {accum : SemType} (haccum : Accumulated (SingleVal Q) (.bits VAL) accum) :
    ∃ ty, bddMemberType (env.listAtomMemberType (.ranges [⟨k, k⟩])) b accum = some ty ∧ W ty := by
  have hatoms : ∀ atom, (∃ lt, env.listAtomType atom = some lt ∧ lt.Over (CellOf Q)) →
      ∃ ty, env.listAtomMemberType (.ranges [⟨k, k⟩]) atom = some ty ∧ SingleVal Q ty := by
    intro atom ⟨lt, hlt, hltOver⟩
    obtain ⟨_, _, m, _, _, hm, hsingle, _⟩ := listAtomicMemberTypeInnerVal_single hx hltOver k
    refine ⟨m, ?_, hsingle⟩
    unfold Env.listAtomMemberType
    rw [hlt]
    exact hm
  exact exists_bddMemberType hx.toLossyTypes (SingleVal.type hx) hx.val hatoms b accum hover haccum

/-- Along the path of a list: if the range crosses no boundary that the path knows, then the member
is in the type that the path gives to the first index. -/
theorem bddMemberType_of_splits (hx : ListMemberTypes den Q W)
    (hkeeps : KeepsCommon den (SingleVal Q) (.bits VAL)) {env : Env} {l : List V} {i : Nat} {v : V}
    (hi : (i : Int) ≤ intMaxValue) (hv : l[i]? = some v) (hval : v ∈ den (.bits VAL)) {r : Range}
    (hr : r.Has i) {k : Nat} (hk : r.min = k) :
    ∀ (b : Bdd) (accum : List Range) (accumTy : SemType) (ranges : List Range) (ty : SemType),
      b.Over (fun atom => ∃ lt, env.listAtomType atom = some lt ∧ lt.Over (CellOf Q)) →
      IndexRanges accum → Accumulated (SingleVal Q) (.bits VAL) accumTy →
      bddListAllRanges env b accum = some ranges →
      bddMemberType (env.listAtomMemberType (.ranges [⟨k, k⟩])) b accumTy = some ty →
      b.holds (env.ListContains (cellDen den) l) → r.Splits ranges →
      (r.Splits accum → v ∈ den accumTy) → v ∈ den ty
  | .leaf b, accum, accumTy, ranges, ty, _, _, _, hranges, hty, hholds, hsplits, hacc => by
    cases b with
    | true =>
      cases hranges
      cases hty
      exact hacc hsplits
    | false => exact absurd hholds (by simp)
  | .node atom left middle right, accum, accumTy, ranges, ty, hover, haccum, haccTy, hranges, hty,
      hholds, hsplits, hacc => by
    obtain ⟨hatom, hl, hm, hr'⟩ := hover
    obtain ⟨lt, atomRanges, types, hlt, hltOver, hall, hspec, hindex, _⟩ := indexRanges_atom hx hatom
    obtain ⟨_, _, m, _, _, hmty, hsingle, hWm, _⟩ := listAtomicMemberTypeInnerVal_single hx hltOver k
    have hatomTy : env.listAtomMemberType (.ranges [⟨k, k⟩]) atom = some m := by
      unfold Env.listAtomMemberType
      rw [hlt]
      exact hmty
    -- what the three parts give
    obtain ⟨lr, mr, rr, hlr, hmr, hrr, hres⟩ := bddListAllRanges_node hlt hall hranges
    obtain ⟨s, hs, _, _⟩ := hx.intersect hWm
      (haccTy.type hx.toLossyTypes (SingleVal.type hx) hx.val)
    obtain ⟨tl, htl, hWl⟩ := exists_bddMemberType_single hx k hl (haccTy.step hsingle hs)
    obtain ⟨tm, htm, hWm'⟩ := exists_bddMemberType_single hx k hm haccTy
    obtain ⟨tr, htr, hWr⟩ := exists_bddMemberType_single hx k hr' haccTy
    obtain ⟨u, hu, hWu, hdenu⟩ := hx.union hWm' hWr
    obtain ⟨t, ht, _, hdent⟩ := hx.union hWl hWu
    rw [bddMemberType_node hatomTy hs htl htm htr hu, ht] at hty
    cases hty
    rw [hdent, hdenu]
    -- the range crosses no boundary of any part
    have hnew := (distinctRanges_spec hindex haccum).1
    have hranges' : ∀ {b accum ranges}, b.Over (fun atom => ∃ lt, env.listAtomType atom = some lt ∧
        lt.Over (CellOf Q)) → IndexRanges accum → bddListAllRanges env b accum = some ranges →
        IndexRanges ranges := by
      intro b accum ranges hb hacc hsome
      obtain ⟨ranges', hsome', hindex', _⟩ := bddListAllRanges_spec hx env b accum hb hacc
      rw [hsome] at hsome'
      cases hsome'
      exact hindex'
    have hlIndex := hranges' hl hnew hlr
    have hmIndex := hranges' hm haccum hmr
    have hrIndex := hranges' hr' haccum hrr
    rw [hres] at hsplits
    obtain ⟨hsplitL, hsplitMR⟩ := hsplits.both hlIndex (distinctRanges_spec hmIndex hrIndex).1
    obtain ⟨hsplitM, hsplitR⟩ := hsplitMR.both hmIndex hrIndex
    rcases (Bdd.holds_node atom left middle right).mp hholds with ⟨hat, h⟩ | h | ⟨_, h⟩
    · refine .inl (bddMemberType_of_splits hx hkeeps hi hv hval hr hk left _ s lr tl hl hnew
        (haccTy.step hsingle hs) hlr htl h hsplitL fun hsplit => ?_)
      obtain ⟨hsplitAtom, hsplitAcc⟩ := hsplit.both hindex haccum
      obtain ⟨lt', hlt', hcontains⟩ := hat
      rw [hlt] at hlt'
      cases hlt'
      exact hkeeps haccTy hsingle hs
        ⟨mem_atom_of_splits hx hltOver hspec hcontains hi hv hval hr hk hmty hsplitAtom, hacc hsplitAcc⟩
    · exact .inr (.inl (bddMemberType_of_splits hx hkeeps hi hv hval hr hk middle accum accumTy mr
        tm hm haccum haccTy hmr htm h hsplitM hacc))
    · exact .inr (.inr (bddMemberType_of_splits hx hkeeps hi hv hval hr hk right accum accumTy rr
        tr hr' haccum haccTy hrr htr h hsplitR hacc))

/-! ## All members -/

/-- The types of the ranges that are kept. -/
theorem rangeMemberTypes_spec {env : Env} {t : SemType} : ∀ (allRanges : List Range),
    (∀ r ∈ allRanges, ∃ m, listMemberTypeInnerVal env t (intConst r.min) = some m) →
    ∃ ranges types, rangeMemberTypes env t allRanges = some (ranges, types) ∧
      ranges.Sublist allRanges ∧ ∀ r m, (∃ k : Nat, ranges[k]? = some r ∧ types[k]? = some m) ↔
        r ∈ allRanges ∧ listMemberTypeInnerVal env t (intConst r.min) = some m ∧ m ≠ NEVER
  | [], _ => ⟨[], [], rfl, List.Sublist.refl _, fun r m => by simp⟩
  | r0 :: allRanges, h => by
    obtain ⟨m0, hm0⟩ := h r0 (.head _)
    obtain ⟨ranges, types, hrest, hsub, hspec⟩ := rangeMemberTypes_spec allRanges fun r hr =>
      h r (.tail _ hr)
    have hstep : rangeMemberTypes env t (r0 :: allRanges) =
        if m0 ≠ NEVER then some (r0 :: ranges, m0 :: types) else some (ranges, types) := by
      unfold rangeMemberTypes
      rw [hm0, hrest]
      rfl
    rw [hstep]
    by_cases hne : m0 ≠ NEVER
    · rw [if_pos hne]
      refine ⟨_, _, rfl, hsub.cons_cons r0, fun r m => ⟨fun ⟨k, hk, hk'⟩ => ?_, fun ⟨hr, hm, hm'⟩ => ?_⟩⟩
      · cases k with
        | zero =>
          cases hk
          cases hk'
          exact ⟨.head _, hm0, hne⟩
        | succ k =>
          obtain ⟨hr, hm⟩ := (hspec r m).mp ⟨k, hk, hk'⟩
          exact ⟨.tail _ hr, hm⟩
      · rcases List.mem_cons.mp hr with rfl | hr
        · rw [hm0] at hm
          cases hm
          exact ⟨0, rfl, rfl⟩
        · obtain ⟨k, hk, hk'⟩ := (hspec r m).mpr ⟨hr, hm, hm'⟩
          exact ⟨k + 1, hk, hk'⟩
    · rw [if_neg hne]
      refine ⟨_, _, rfl, hsub.cons r0, fun r m => (hspec r m).trans ⟨fun ⟨hr, hm⟩ =>
        ⟨.tail _ hr, hm⟩, fun ⟨hr, hm, hm'⟩ => ⟨?_, hm, hm'⟩⟩⟩
      rcases List.mem_cons.mp hr with rfl | hr
      · rw [hm0] at hm
        cases hm
        exact absurd hm' hne
      · exact hr

/-- Every member of every list of the type is in the type of a range with its index. -/
def AllMembersIn (den : SemType → Set V) (env : Env) (t : SemType) : Prop :=
  ∃ ranges types, listAllMemberTypesInner env t = some (ranges, types) ∧
    ∀ (l : List V) (i : Nat) (v : V), ListOf den env t l → (i : Int) ≤ intMaxValue →
      l[i]? = some v → ∃ (k : Nat) (r : Range) (ty : SemType), ranges[k]? = some r ∧ r.Has i ∧
        types[k]? = some ty ∧ v ∈ den ty

/-- Each index at which a list of the type has a member is reached by a positive atom on some path. A
bit set has no paths to look at. -/
def RangesCovered (den : SemType → Set V) (env : Env) (t : SemType) : Prop :=
  ∀ c b, t = .complex c → listBdd t = some b → ∀ (l : List V) (i : Nat), ListOf den env t l →
    (i : Int) ≤ intMaxValue → i < l.length → b.PosHas (env.HasMemberAt i) False

omit [BddIdentity] in
theorem intSubtype_intConst (n : Int) : intSubtype (intConst n) = some (some (.ranges [⟨n, n⟩])) := by
  unfold intSubtype intConst
  rw [subtypeData_basicSubtype]
  rfl

/-- The type at the first index of a range. -/
theorem listMemberTypeInnerVal_intConst {b : Bdd} (hb : listBdd (.complex c) = some b) (n : Int) :
    listMemberTypeInnerVal env (.complex c) (intConst n) =
      bddMemberType (env.listAtomMemberType (.ranges [⟨n, n⟩])) b (.bits VAL) := by
  obtain ⟨data, hdata, hbdd⟩ := Option.bind_eq_some_iff.mp ((listBdd_complex c).symm.trans hb)
  unfold listMemberTypeInnerVal
  rw [intSubtype_intConst]
  show (do
    let data ← getComplexSubtypeData c BT_LIST
    let bdd ← data.toBdd
    bddListMemberTypeInnerVal env bdd (.ranges [⟨n, n⟩]) (.bits VAL)) = _
  rw [hdata]
  show (do
    let bdd ← data.toBdd
    bddListMemberTypeInnerVal env bdd (.ranges [⟨n, n⟩]) (.bits VAL)) = _
  rw [hbdd]
  rfl

theorem listAllMemberTypesInner_complex {b : Bdd} (hb : listBdd (.complex c) = some b) :
    listAllMemberTypesInner env (.complex c) =
      (bddListAllRanges env b []).bind (rangeMemberTypes env (.complex c)) := by
  obtain ⟨data, hdata, hbdd⟩ := Option.bind_eq_some_iff.mp ((listBdd_complex c).symm.trans hb)
  unfold listAllMemberTypesInner
  dsimp only
  rw [hdata]
  show (do
    let bdd ← data.toBdd
    rangeMemberTypes env (.complex c) (← bddListAllRanges env bdd [])) = _
  rw [hbdd]
  rfl

/-- What `listAllMemberTypesInner` returns for a `Bdd`: the ranges of its positive atoms, each with
the type of its first index. -/
theorem listAllMemberTypesInner_spec (hx : ListMemberTypes den Q W) {b : Bdd}
    (hb : listBdd (.complex c) = some b)
    (hover : b.Over fun atom => ∃ lt, env.listAtomType atom = some lt ∧ lt.Over (CellOf Q)) :
    ∃ allRanges ranges types, bddListAllRanges env b [] = some allRanges ∧ IndexRanges allRanges ∧
      (∀ i, rangesHave allRanges i ↔ b.PosHas (env.HasMemberAt i) False) ∧
      listAllMemberTypesInner env (.complex c) = some (ranges, types) ∧ SortedRanges ranges ∧
      ∀ r m, (∃ k : Nat, ranges[k]? = some r ∧ types[k]? = some m) ↔ r ∈ allRanges ∧
        bddMemberType (env.listAtomMemberType (.ranges [⟨r.min, r.min⟩])) b (.bits VAL) = some m ∧
        m ≠ NEVER := by
  obtain ⟨allRanges, hall, hindex, hhave⟩ := bddListAllRanges_spec hx env b [] hover indexRanges_nil
  have hmember : ∀ r ∈ allRanges, ∃ m,
      listMemberTypeInnerVal env (.complex c) (intConst r.min) = some m := by
    intro r hr
    obtain ⟨k, hk⟩ := Int.eq_ofNat_of_zero_le (hindex.nonneg r hr)
    obtain ⟨ty, hty, _⟩ := exists_bddMemberType_single hx k hover Accumulated.start
    refine ⟨ty, ?_⟩
    rw [listMemberTypeInnerVal_intConst hb, hk]
    exact hty
  obtain ⟨ranges, types, hres, hsub, hspec⟩ := rangeMemberTypes_spec allRanges hmember
  refine ⟨allRanges, ranges, types, hall, hindex, fun i => ?_, ?_,
    ⟨fun r hr => hindex.fits r (hsub.subset hr), hindex.sorted.sublist hsub⟩, fun r m => ?_⟩
  · rw [hhave, show rangesHave [] i = False from propext (rangesHave_nil i)]
  · rw [listAllMemberTypesInner_complex hb, hall]
    exact hres
  · rw [hspec, listMemberTypeInnerVal_intConst hb]

/-- The ranges are sorted. -/
theorem listAllMemberTypesInner_sorted (hx : ListMemberTypes den Q W) (ht : ListTypeOver Q env t)
    {ranges : List Range} (h : listAllMemberTypesInner env t = some (ranges, types)) :
    SortedRanges ranges := by
  obtain ⟨b, hb, hover⟩ := ht
  cases t with
  | bits bits =>
    have hres : (if bits &&& LIST ≠ 0 then ([⟨0, intMaxValue⟩], [.bits VAL]) else ([], [])) =
        (ranges, types) := Option.some.inj h
    by_cases hbit : bits &&& LIST ≠ 0
    · rw [if_pos hbit] at hres
      cases hres
      refine ⟨fun r hr => ?_, List.pairwise_singleton _ _⟩
      rw [List.mem_singleton.mp hr]
      exact ⟨by decide, by decide, by decide⟩
    · rw [if_neg hbit] at hres
      cases hres
      exact indexRanges_nil.toSortedRanges
  | complex c =>
    obtain ⟨_, ranges', types', _, _, _, hres, hsorted, _⟩ := listAllMemberTypesInner_spec hx hb hover
    rw [h] at hres
    cases hres
    exact hsorted

/-- A member can only be found at an index that is covered. -/
theorem covered_of_allMembersIn (hx : ListMemberTypes den Q W) (ht : ListTypeOver Q env t)
    (h : AllMembersIn den env t) : RangesCovered den env t := by
  intro c b hc hb l i hl hi hlt
  obtain ⟨b', hb', hover⟩ := ht
  rw [hb] at hb'
  cases hb'
  rw [hc] at hb h
  obtain ⟨allRanges, ranges, types, _, _, hhave, hres, _, hspec⟩ := listAllMemberTypesInner_spec hx hb hover
  obtain ⟨ranges', types', hres', hmem⟩ := h
  rw [hres] at hres'
  cases hres'
  obtain ⟨k, r, ty, hr, hhas, hty, _⟩ := hmem l i l[i] (hc ▸ hl) hi (List.getElem?_eq_getElem hlt)
  have hin := ((hspec r ty).mp ⟨k, hr, hty⟩).1
  exact (hhave i).mp ⟨r, hin, hhas⟩

/-- If the index is covered and no intersection loses a common value, then the member is found. -/
theorem allMembersIn_of_covered (hx : ListMemberTypes den Q W)
    (hkeeps : KeepsCommon den (SingleVal Q) (.bits VAL)) (ht : ListTypeOver Q env t)
    (h : RangesCovered den env t) : AllMembersIn den env t := by
  obtain ⟨b, hb, hover⟩ := ht
  cases t with
  | bits bits =>
    by_cases hbit : bits &&& LIST ≠ 0
    · refine ⟨[⟨0, intMaxValue⟩], [.bits VAL], congrArg some (if_pos hbit), fun l i v hl hi hv => ?_⟩
      exact ⟨0, _, _, rfl, ⟨Int.natCast_nonneg i, hi⟩, rfl, hl.values v (List.mem_of_getElem? hv)⟩
    · refine ⟨[], [], congrArg some (if_neg hbit), fun l i v hl hi hv => ?_⟩
      obtain ⟨b', hb', hholds⟩ := hl.holds
      cases hb'
      exact absurd (bne_iff_ne.mp hholds) hbit
  | complex c =>
    obtain ⟨allRanges, ranges, types, hall, hindex, hhave, hres, _, hspec⟩ :=
      listAllMemberTypesInner_spec hx hb hover
    refine ⟨ranges, types, hres, fun l i v hl hi hv => ?_⟩
    have hlt := (List.getElem?_eq_some_iff.mp hv).1
    obtain ⟨r, hr, hhas⟩ := (hhave i).mpr (h c b rfl hb l i hl hi hlt)
    obtain ⟨k, hk⟩ := Int.eq_ofNat_of_zero_le (hindex.nonneg r hr)
    obtain ⟨ty, hty, _⟩ := exists_bddMemberType_single hx k hover Accumulated.start
    obtain ⟨b', hb', hholds⟩ := hl.holds
    rw [hb] at hb'
    cases hb'
    have hval := hl.values v (List.mem_of_getElem? hv)
    have hself : r.Splits allRanges := by
      intro s hs
      obtain ⟨i1, h1⟩ := List.mem_iff_getElem?.mp hr
      exact splits_of_indexRight hindex.toSortedRanges
        (show IndexRight allRanges r (some i1) from ⟨r, h1, Int.le_refl _, Int.le_refl _⟩) s hs
    have hmem : v ∈ den ty := bddMemberType_of_splits hx hkeeps hi hv hval hhas hk b [] (.bits VAL)
      allRanges ty hover indexRanges_nil Accumulated.start hall hty hholds hself fun _ => hval
    have hne : ty ≠ NEVER := by
      intro hnever
      rw [hnever, hx.den_never] at hmem
      exact hmem
    obtain ⟨j, hj, hj'⟩ := (hspec r ty).mpr ⟨hr, by rw [hk]; exact hty, hne⟩
    exact ⟨j, r, ty, hj, hhas, hj', hmem⟩

/-! ## A path that loses a member -/

/-- `atom` is that of an array whose members, at a single index, have the type `m`. -/
def IsSingleAtom (den : SemType → Set V) (Q : SemType → Prop) (i : Nat) (atom : Atom) (m : SemType) :
    Prop :=
  ∃ ty u, Q ty ∧ union ops NEVER ty = some u ∧ diff ops u (.bits UNDEF) = some m ∧
    den m ⊆ den ty ∧ atom = arrayAtom i ty

theorem listAtomMemberType_single {i k : Nat} {u : SemType} (hu : union ops NEVER ty = some u)
    (hm : diff ops u (.bits UNDEF) = some m) :
    env.listAtomMemberType (.ranges [⟨k, k⟩]) (arrayAtom i ty) = some m := by
  show (do
    let inner ← (do
      let m ← some NEVER
      if (0 : Int) = 0 then unionInner m (cellOf i ty) else _ : Option SemType)
    diff ops inner (.bits UNDEF)) = _
  have hinner : unionInner NEVER (cellOf i ty) = some u := by
    unfold unionInner
    rw [cellInner_cellOf]
    exact hu
  show (do
    let inner ← unionInner NEVER (cellOf i ty)
    diff ops inner (.bits UNDEF)) = _
  rw [hinner]
  exact hm

/-- An array atom has a member at every index. -/
theorem hasMemberAt_arrayAtom (hx : ListMemberTypes den Q W) {i : Nat} (hQ : Q ty) {v : V}
    (hv : v ∈ den ty) (hval : v ∈ den (.bits VAL)) {j : Nat} (hj : (j : Int) ≤ intMaxValue) :
    env.HasMemberAt j (arrayAtom i ty) := by
  have hcontains : (⟨⟨[], 0⟩, cellOf i ty⟩ : ListAtomicType).Contains (cellDen den)
      (List.replicate (j + 1) v) := by
    have hall : ∀ w ∈ List.replicate (j + 1) v, w ∈ den ty := by
      intro w hw
      rw [List.eq_of_mem_replicate hw]
      exact hv
    have harray : env.ListContains (cellDen den) (List.replicate (j + 1) v) (arrayAtom i ty) :=
      listContains_arrayAtom hall
    obtain ⟨lt, hlt, hcontains⟩ := harray
    rw [listAtomType_arrayAtom] at hlt
    cases hlt
    exact hcontains
  have hget : (List.replicate (j + 1) v)[j]? = some v := by
    rw [List.getElem?_replicate, if_pos (Nat.lt_succ_self j)]
  obtain ⟨_, _, _, _, _, ty', hat⟩ := exists_typeAt hx (over_array hQ) hcontains hj hget hval
  exact ⟨_, ty', listAtomType_arrayAtom env i ty, hat⟩

omit [BddIdentity] in
theorem posHas_bddAll {P : Atom → Prop} : ∀ (atoms : List Atom) (accum : Prop),
    (accum ∨ atoms ≠ []) → (∀ atom ∈ atoms, P atom) → (bddAll atoms (.leaf true)).PosHas P accum
  | [], _, h, _ => ⟨rfl, h.resolve_right fun hne => hne rfl⟩
  | atom :: atoms, _, _, hP =>
    .inl (posHas_bddAll atoms _ (.inl (.inl (hP atom (.head _))))
      fun a ha => hP a (.tail _ ha))

/-- If a value gets lost on a path, then there is a covered list type with a list that has it. -/
theorem keepsCommon_of_allMembersIn (hx : ListMemberTypes den Q W)
    (hsound : ∀ t, ListTypeOver Q env t → RangesCovered den env t → AllMembersIn den env t) :
    KeepsCommon den (SingleVal Q) (.bits VAL) := by
  intro accum m s haccum hm hs v hv
  have hP : ∀ {i atom m}, IsSingleAtom den Q i atom m →
      env.listAtomMemberType (.ranges [⟨(0 : Nat), (0 : Nat)⟩]) atom = some m := by
    intro i atom m ⟨ty, u, _, hu, hdiff, _, hatom⟩
    rw [hatom]
    exact listAtomMemberType_single hu hdiff
  have hatom : ∀ (i : Nat) m, SingleVal Q m → ∃ atom, IsSingleAtom den Q i atom m := by
    intro i m ⟨ty, u, hQ, hu, hdiff⟩
    refine ⟨arrayAtom i ty, ty, u, hQ, hu, hdiff, ?_, rfl⟩
    rw [(singleVal_type hx hQ hu hdiff).2]
    exact Set.sdiff_subset
  have harray : ∀ {i atom m}, IsSingleAtom den Q i atom m → HoldsMembers den Q i atom m := by
    intro i atom m ⟨ty, _, hQ, _, _, hle, heq⟩
    exact ⟨ty, hQ, hle, heq⟩
  obtain ⟨atoms, t, hne, hatoms, hover, hlist, ht, hden⟩ :=
    exists_path_list hx (SingleVal.type hx) hP hatom harray haccum hm hs hv
  have hval := hlist.values v (List.mem_singleton_self v)
  have hcovered : RangesCovered den env (listType (bddAll atoms (.leaf true))) := by
    intro c b _ hb l j _ hj _
    rw [listBdd_listType] at hb
    cases hb
    refine posHas_bddAll atoms False (.inr hne) fun atom ha => ?_
    obtain ⟨i, m', hP', hvm⟩ := hatoms atom ha
    obtain ⟨ty, hQ, hle, heq⟩ := harray hP'
    rw [heq]
    exact hasMemberAt_arrayAtom hx hQ (hle hvm) hval hj
  have hmembers := hsound _ hover hcovered
  -- the type is given by a `Bdd`, so the member is in the type of index 0
  cases atoms with
  | nil => exact absurd rfl hne
  | cons atom atoms =>
    obtain ⟨b, hb, hbOver⟩ := hover
    obtain ⟨c, hc⟩ : ∃ c, listType (bddAll (atom :: atoms) (.leaf true)) = .complex c := ⟨_, rfl⟩
    have hbdd := listBdd_listType (bddAll (atom :: atoms) (.leaf true))
    rw [hb] at hbdd
    cases hbdd
    rw [hc] at hb hmembers hlist
    obtain ⟨allRanges, ranges, types, _, hindex, _, hres, _, hspec⟩ :=
      listAllMemberTypesInner_spec hx hb hbOver
    obtain ⟨ranges', types', hres', hmem⟩ := hmembers
    rw [hres] at hres'
    cases hres'
    obtain ⟨k, r, ty, hr, hhas, hty, hvty⟩ := hmem [v] 0 v hlist (by decide) rfl
    obtain ⟨hin, hmty, _⟩ := (hspec r ty).mp ⟨k, hr, hty⟩
    have hzero : r.min = 0 := by
      have := hindex.nonneg r hin
      unfold Range.Has at hhas
      omega
    rw [hzero] at hmty
    have heq : t = ty := Option.some.inj (ht.symm.trans hmty)
    rw [← heq, hden] at hvty
    exact hvty

end Single

end Nballerina.Types
