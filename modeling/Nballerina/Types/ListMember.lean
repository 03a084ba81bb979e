import Nballerina.Types.Define
import Nballerina.Types.ExactTypes
import Nballerina.Types.MemberType

/-!
# Types of list members

`listMemberTypeInnerVal` (`core.bal`, `list.bal`) gives the type of the members that the lists of a
type have at the indices of an int type. An atom contributes the types of its initial members whose
index is in the key type, the last of them if the key type overlaps the indices up to the fixed
length that repeat it, and the rest type if the key type goes beyond the fixed length.

`listMemberTypeInnerVal_sound_iff`: for the list types with member types in a given class, every
member at such an index belongs to the result if and only if the intersections that the code makes of
these types lose no common value. Intersecting int types does (`not_sound_two_ranges`).

Mirroring notes:
- `none` is a panic, which does not happen here.
- A list is a finite sequence of values. It belongs to an atom if it has the fixed length and each
  member belongs to the inner type of its cell, which is for read-only lists: a negative atom leaves
  out fewer of the writable ones (see `cellDen`).
-/

namespace Nballerina.Types

variable {V : Type}

/-- `IntSubtype|true`. -/
inductive IntKey where
  | all
  | ranges (v : List Range)
deriving DecidableEq, Repr

/-- `intSubtype(t)`; the inner `none` is `false`. -/
def intSubtype (t : SemType) : Option (Option IntKey) := do
  match ← subtypeData t BT_INT with
  | .bool true => some (some .all)
  | .bool false => some none
  | .proper (.int v) => some (some (.ranges v))
  | .proper _ => none

def intSubtypeOverlapRange (subtype : List Range) (range : Range) : Bool :=
  match intSubtypeIntersect (.int subtype) (.int [range]) with
  | some (.bool false) => false
  | _ => true

def intSubtypeMax (subtype : List Range) : Option Int := subtype.getLast?.map (·.max)

section Source

variable [BddIdentity]

/-- `m = union(m, cellInner(t))`. -/
def unionInner (m t : SemType) : Option SemType := do union ops m (← cellInner t)

/-- The first loop of `listAtomicMemberTypeAtInner`. -/
def unionContained (key : List Range) (fixedArray : FixedLengthArray) :
    List Nat → SemType → Option SemType
  | [], m => some m
  | i :: is, m => do
    if ← intSubtypeContains (.proper (.int key)) i then
      unionContained key fixedArray is (← unionInner m (← fixedArrayGet fixedArray i))
    else unionContained key fixedArray is m

/-- What the fixed members contribute. -/
def fixedMemberType (key : List Range) (fixedArray : FixedLengthArray) : Option SemType :=
  let initLen := fixedArray.initial.length
  let fixedLen := fixedArray.fixedLength
  if fixedLen ≠ 0 then do
    let m ← unionContained key fixedArray (List.range initLen) NEVER
    if intSubtypeOverlapRange key ⟨initLen, fixedLen - 1⟩ then
      unionInner m (← fixedArrayGet fixedArray (fixedLen - 1))
    else some m
  else some NEVER

def listAtomicMemberTypeAtInner (fixedArray : FixedLengthArray) (rest : SemType) :
    IntKey → Option SemType
  | .ranges key => do
    let fixedLen := fixedArray.fixedLength
    let m ← fixedMemberType key fixedArray
    if fixedLen = 0 then unionInner m rest
    else if (← intSubtypeMax key) > fixedLen - 1 then unionInner m rest
    else some m
  | .all => do
    let m ← cellInner rest
    if fixedArray.fixedLength > 0 then fixedArray.initial.foldlM unionInner m
    else some m

def listAtomicMemberTypeInner (atomic : ListAtomicType) (key : IntKey) : Option SemType :=
  listAtomicMemberTypeAtInner atomic.members atomic.rest key

def listAtomicMemberTypeInnerVal (atomic : ListAtomicType) (key : IntKey) : Option SemType := do
  diff ops (← listAtomicMemberTypeInner atomic key) (.bits UNDEF)

def Env.listAtomMemberType (env : Env) (key : IntKey) (atom : Atom) : Option SemType := do
  listAtomicMemberTypeInnerVal (← env.listAtomType atom) key

def bddListMemberTypeInnerVal (env : Env) (b : Bdd) (key : IntKey) (accum : SemType) :
    Option SemType :=
  bddMemberType (env.listAtomMemberType key) b accum

def listMemberTypeInnerVal (env : Env) (t k : SemType) : Option SemType :=
  match t with
  | .bits b => some (if b &&& LIST ≠ 0 then .bits VAL else NEVER)
  | .complex c => do
    match ← intSubtype k with
    | none => some NEVER
    | some key =>
      let data ← getComplexSubtypeData c BT_LIST
      let bdd ← data.toBdd
      bddListMemberTypeInnerVal env bdd key (.bits VAL)

end Source

/-! ## Lists and keys -/

def IntKey.Has : IntKey → Int → Prop
  | .all, _ => True
  | .ranges v, i => rangesHave v i

structure IntKey.Valid (key : IntKey) : Prop where
  normalised : ∀ v, key = .ranges v → Normalised v
  nonempty : ∀ v, key = .ranges v → v ≠ []

/-- `k` is a type with an int part. -/
def ValidKey (k : SemType) : Prop := ∃ r, intSubtype k = some r ∧ ∀ key, r = some key → key.Valid

/-- The int belongs to the type. -/
def InKey (k : SemType) (i : Int) : Prop := ∃ key, intSubtype k = some (some key) ∧ key.Has i

def listBdd (t : SemType) : Option Bdd := (subtypeData t BT_LIST).bind (·.toBdd)

/-- A list of values that belongs to the type. -/
structure ListOf (den : SemType → Set V) (env : Env) (t : SemType) (l : List V) : Prop where
  values : ∀ v ∈ l, v ∈ den (.bits VAL)
  holds : ∃ b, listBdd t = some b ∧ b.holds (env.ListContains (cellDen den) l)

/-- A list type with member types in `Q`. -/
def ListTypeOver (Q : SemType → Prop) (env : Env) (t : SemType) : Prop :=
  ∃ b, listBdd t = some b ∧ b.Over fun atom => ∃ lt, env.listAtomType atom = some lt ∧
    lt.Over (CellOf Q)

/-- The result contains every value that a list of the type can hold at an index of the key type. -/
def MemberTypeSound [BddIdentity] (den : SemType → Set V) (env : Env) (t k : SemType) : Prop :=
  ∃ ty, listMemberTypeInnerVal env t k = some ty ∧ ∀ (l : List V) (i : Nat) (v : V),
    ListOf den env t l → InKey k i → l[i]? = some v → v ∈ den ty

/-- The types of list members: `Q` are inner types, which may contain `UNDEF`, and `W` those without
it. -/
structure ListMemberTypes [BddIdentity] (den : SemType → Set V) (Q W : SemType → Prop) : Prop
    extends LossyTypes den W where
  inner_never : Q NEVER
  inner_union : ∀ {t1 t2 : SemType}, Q t1 → Q t2 →
    ∃ t, Types.union ops t1 t2 = some t ∧ Q t ∧ den t = den t1 ∪ den t2
  diff_undef : ∀ {t : SemType}, Q t →
    ∃ d, diff ops t (.bits UNDEF) = some d ∧ W d ∧ den d = den t \ den (.bits UNDEF)
  val : W (.bits VAL)
  defined : Disjoint (den (.bits VAL)) (den (.bits UNDEF))

/-- The types without `UNDEF` of the types in `Q`. -/
def InnerVal [BddIdentity] (Q : SemType → Prop) (m : SemType) : Prop :=
  ∃ ty, Q ty ∧ diff ops ty (.bits UNDEF) = some m

/-! ## Keys that overlap a range -/

variable {v : List Range}

/-- The merge finds a range that overlaps, if there is one. -/
theorem rangeListIntersect_ne_nil (h : Normalised v) {r : Range} {i : Int} (hv : rangesHave v i)
    (hr : r.Has i) : rangeListIntersect v [r] ≠ [] := by
  induction v with
  | nil => exact absurd hv (by simp)
  | cons s v ih =>
    obtain ⟨hfits, hapart, htail⟩ := normalised_cons.mp h
    unfold rangeListIntersect
    rcases rangeIntersect_cases s r with ⟨hlt, hcase⟩ | ⟨hlt, hcase⟩ | ⟨_, hcase⟩
    · rw [hcase]
      have hnot : ¬ s.Has i := by
        unfold Range.Has at hr ⊢
        omega
      exact ih htail ((rangesHave_cons s v i).mp hv |>.resolve_left hnot)
    · obtain ⟨s', hs', hhas⟩ := hv
      have hle : s.min ≤ s'.min := by
        rcases List.mem_cons.mp hs' with heq | hs'
        · rw [heq]
        · have := hapart s' hs'
          have := hfits.nonempty
          unfold Range.Apart at *
          omega
      unfold Range.Has at hr hhas
      omega
    · rw [hcase]
      exact List.cons_ne_nil _ _

theorem intSubtypeOverlapRange_of_has (h : Normalised v) {r : Range} {i : Int} (hv : rangesHave v i)
    (hr : r.Has i) : intSubtypeOverlapRange v r = true := by
  have hne : (rangeListIntersect v [r]).isEmpty = false := by
    rw [List.isEmpty_eq_false_iff]
    exact rangeListIntersect_ne_nil h hv hr
  have hresult : intSubtypeIntersect (.int v) (.int [r]) =
      some (.proper (.int (rangeListIntersect v [r]))) := by
    show some (if (rangeListIntersect v [r]).isEmpty then _ else _) = _
    rw [hne]
    rfl
  unfold intSubtypeOverlapRange
  rw [hresult]

/-- No int of a key is above its maximum. -/
theorem intSubtypeMax_spec (h : Normalised v) (hne : v ≠ []) :
    ∃ n, intSubtypeMax v = some n ∧ ∀ i, rangesHave v i → i ≤ n := by
  refine ⟨(v.getLast hne).max, ?_, fun i hi => ?_⟩
  · unfold intSubtypeMax
    rw [List.getLast?_eq_some_getLast hne]
    rfl
  · obtain ⟨r, hr, hhas⟩ := hi
    rcases List.pairwise_append.mp (List.dropLast_append_getLast hne ▸ h.apart) with ⟨_, _, happ⟩
    rw [← List.dropLast_append_getLast hne] at hr
    rcases List.mem_append.mp hr with hr | hr
    · have hapart := happ r hr _ (List.mem_singleton_self _)
      have := (h.fits _ (List.getLast_mem hne)).nonempty
      unfold Range.Apart at hapart
      unfold Range.Has at hhas
      omega
    · rw [List.mem_singleton.mp hr] at hhas
      exact hhas.2

/-! ## One atom -/

section Atom

variable [BddIdentity] {den : SemType → Set V} {Q W : SemType → Prop}

theorem unionInner_spec (hx : ListMemberTypes den Q W) {m c : SemType} (hm : Q m) (hc : CellOf Q c) :
    ∃ t, unionInner m c = some t ∧ Q t ∧ den t = den m ∪ cellDen den c := by
  obtain ⟨ty, hty, hQ⟩ := hc
  obtain ⟨t, ht, hQt, hden⟩ := hx.inner_union hm hQ
  refine ⟨t, ?_, hQt, ?_⟩
  · unfold unionInner
    rw [hty]
    exact ht
  · rw [hden]
    refine congrArg _ (Set.ext fun v => ⟨fun hv => ⟨ty, hty, hv⟩, fun ⟨ty', hty', hv⟩ => ?_⟩)
    rw [hty] at hty'
    cases hty'
    exact hv

/-- The initial members with an index in the key. -/
theorem unionContained_spec (hx : ListMemberTypes den Q W) (key : List Range)
    {fixedArray : FixedLengthArray} (hover : ∀ c ∈ fixedArray.initial, CellOf Q c) :
    ∀ (is : List Nat) (m : SemType), (∀ i ∈ is, i < fixedArray.initial.length) → Q m →
      ∃ t, unionContained key fixedArray is m = some t ∧ Q t ∧ den m ⊆ den t ∧
        ∀ i ∈ is, rangesHave key i → ∀ c, fixedArray.initial[i]? = some c → cellDen den c ⊆ den t
  | [], m, _, hm => ⟨m, rfl, hm, subset_rfl, fun i hi => absurd hi List.not_mem_nil⟩
  | i :: is, m, his, hm => by
    have hi := his i (.head _)
    have hget : fixedArrayGet fixedArray i = some (fixedArray.initial.get ⟨i, hi⟩) := by
      unfold fixedArrayGet
      dsimp only
      rw [if_pos (by omega), show (min (i : Int) (fixedArray.initial.length - 1)).toNat = i by omega,
        List.getElem?_eq_getElem hi]
      rfl
    have htail : ∀ j ∈ is, j < fixedArray.initial.length := fun j hj =>
      his j (.tail _ hj)
    unfold unionContained
    cases hcontains : intSubtypeContains (.proper (.int key)) i with
    | none => cases hcontains
    | some b =>
      cases b with
      | true =>
        obtain ⟨m', hm', hQ, hden⟩ := unionInner_spec hx hm (hover _ (List.get_mem _ ⟨i, hi⟩))
        obtain ⟨t, ht, hQt, hle, hmem⟩ := unionContained_spec hx key hover is m' htail hQ
        refine ⟨t, ?_, hQt, ?_, fun j hj hkey c hc => ?_⟩
        · show (do unionContained key fixedArray is (← unionInner m (← fixedArrayGet fixedArray i))) = _
          rw [hget]
          show (do unionContained key fixedArray is (← unionInner m _)) = _
          rw [hm']
          exact ht
        · rw [hden] at hle
          exact Set.subset_union_left.trans hle
        · rcases List.mem_cons.mp hj with rfl | hj
          · rw [List.getElem?_eq_getElem hi] at hc
            cases hc
            rw [hden] at hle
            exact Set.subset_union_right.trans hle
          · exact hmem j hj hkey c hc
      | false =>
        obtain ⟨t, ht, hQt, hle, hmem⟩ := unionContained_spec hx key hover is m htail hm
        refine ⟨t, ht, hQt, hle, fun j hj hkey c hc => ?_⟩
        rcases List.mem_cons.mp hj with rfl | hj
        · rw [(intSubtypeContains_iff key _).mpr hkey] at hcontains
          cases hcontains
        · exact hmem j hj hkey c hc

/-- The members before the fixed length. -/
theorem fixedMemberType_spec (hx : ListMemberTypes den Q W) {key : List Range} (hkey : Normalised key)
    {fixedArray : FixedLengthArray} (hvalid : fixedArray.Valid)
    (hover : ∀ c ∈ fixedArray.initial, CellOf Q c) :
    ∃ m, fixedMemberType key fixedArray = some m ∧ Q m ∧
      ∀ i : Int, 0 ≤ i → i < fixedArray.fixedLength → rangesHave key i →
        ∀ c, fixedArrayGet fixedArray i = some c → cellDen den c ⊆ den m := by
  have hlength := hvalid.length
  unfold fixedMemberType
  dsimp only
  by_cases hzero : fixedArray.fixedLength = 0
  · rw [if_neg (not_not.mpr hzero)]
    exact ⟨NEVER, rfl, hx.inner_never, fun i hi hlt => by omega⟩
  · rw [if_pos hzero]
    have hne : fixedArray.initial ≠ [] := fun h => hzero (hvalid.empty.mpr h)
    have hpos : 0 < fixedArray.initial.length := List.length_pos_iff.mpr hne
    obtain ⟨m, hm, hQ, _, hmem⟩ := unionContained_spec hx key hover
      (List.range fixedArray.initial.length) NEVER (fun i hi => List.mem_range.mp hi) hx.inner_never
    -- an index of an initial member
    have hfirst : ∀ i : Int, 0 ≤ i → i < fixedArray.initial.length → rangesHave key i →
        ∀ c, fixedArrayGet fixedArray i = some c → cellDen den c ⊆ den m := by
      intro i hi hlt hhas c hc
      unfold fixedArrayGet at hc
      dsimp only at hc
      rw [if_pos (by omega)] at hc
      refine hmem i.toNat (List.mem_range.mpr (by omega)) ?_ c ?_
      · rw [Int.toNat_of_nonneg hi]
        exact hhas
      · rw [show i.toNat = (min i ((fixedArray.initial.length : Int) - 1)).toNat by omega]
        exact hc
    rw [hm]
    show ∃ m', (if intSubtypeOverlapRange key _ then _ else some m) = some m' ∧ _
    by_cases hoverlap : intSubtypeOverlapRange key
        ⟨fixedArray.initial.length, fixedArray.fixedLength - 1⟩ = true
    · rw [if_pos hoverlap]
      obtain ⟨c, hc, hin⟩ : ∃ c, fixedArrayGet fixedArray (fixedArray.fixedLength - 1) = some c ∧
          c ∈ fixedArray.initial := by
        unfold fixedArrayGet
        dsimp only
        rw [if_pos (by omega), List.getElem?_eq_getElem (by omega)]
        exact ⟨_, rfl, List.getElem_mem _⟩
      obtain ⟨m', hm', hQ', hden⟩ := unionInner_spec hx hQ (hover c hin)
      refine ⟨m', ?_, hQ', fun i hi hlt hhas c' hc' => ?_⟩
      · rw [hc]
        exact hm'
      · rw [hden]
        by_cases hinit : i < fixedArray.initial.length
        · exact (hfirst i hi hinit hhas c' hc').trans Set.subset_union_left
        · have heq : fixedArrayGet fixedArray i =
              fixedArrayGet fixedArray (fixedArray.fixedLength - 1) := by
            unfold fixedArrayGet
            dsimp only
            rw [show min i ((fixedArray.initial.length : Int) - 1) =
              min (fixedArray.fixedLength - 1) ((fixedArray.initial.length : Int) - 1) by omega]
          rw [heq, hc] at hc'
          cases hc'
          exact Set.subset_union_right
    · rw [if_neg hoverlap]
      refine ⟨m, rfl, hQ, fun i hi hlt hhas c hc => ?_⟩
      by_cases hinit : i < fixedArray.initial.length
      · exact hfirst i hi hinit hhas c hc
      · have hrange : Range.Has ⟨fixedArray.initial.length, fixedArray.fixedLength - 1⟩ i := by
          unfold Range.Has
          dsimp only
          omega
        exact absurd (intSubtypeOverlapRange_of_has hkey hhas hrange) hoverlap

/-- All initial members. -/
theorem foldlM_unionInner_spec (hx : ListMemberTypes den Q W) : ∀ (cells : List SemType) (m : SemType),
    (∀ c ∈ cells, CellOf Q c) → Q m → ∃ t, cells.foldlM unionInner m = some t ∧ Q t ∧
      den m ⊆ den t ∧ ∀ c ∈ cells, cellDen den c ⊆ den t
  | [], m, _, hm => ⟨m, rfl, hm, subset_rfl, fun c hc => absurd hc List.not_mem_nil⟩
  | c :: cells, m, hover, hm => by
    obtain ⟨m', hm', hQ, hden⟩ := unionInner_spec hx hm (hover c (.head _))
    obtain ⟨t, ht, hQt, hle, hmem⟩ := foldlM_unionInner_spec hx cells m'
      (fun c' hc' => hover c' (.tail _ hc')) hQ
    rw [hden] at hle
    refine ⟨t, ?_, hQt, Set.subset_union_left.trans hle, fun c' hc' => ?_⟩
    · rw [List.foldlM_cons, hm']
      exact ht
    · rcases List.mem_cons.mp hc' with rfl | hc'
      · exact Set.subset_union_right.trans hle
      · exact hmem c' hc'

/-- The type that an atom gives to the keys has the members of all its lists at these keys. -/
theorem listAtomicMemberTypeAtInner_spec (hx : ListMemberTypes den Q W) {lt : ListAtomicType}
    (hover : lt.Over (CellOf Q)) {key : IntKey} (hkey : key.Valid) :
    ∃ m, listAtomicMemberTypeInner lt key = some m ∧ Q m ∧
      ∀ i : Int, 0 ≤ i → key.Has i → ∀ c, listMemberAt lt.members lt.rest i = some c →
        cellDen den c ⊆ den m := by
  obtain ⟨rest, hrest, hQrest⟩ := hover.rest
  have hnonneg := hover.valid.nonneg
  unfold listAtomicMemberTypeInner listAtomicMemberTypeAtInner
  cases key with
  | ranges key =>
    have hnormal := hkey.normalised key rfl
    obtain ⟨m, hm, hQ, hmem⟩ := fixedMemberType_spec hx hnormal hover.valid hover.initial
    obtain ⟨m', hm', hQ', hden⟩ := unionInner_spec hx hQ hover.rest
    obtain ⟨n, hn, hmax⟩ := intSubtypeMax_spec hnormal (hkey.nonempty key rfl)
    have hboth : ∀ i : Int, 0 ≤ i → rangesHave key i → ∀ c,
        listMemberAt lt.members lt.rest i = some c → cellDen den c ⊆ den m' := by
      intro i hi hhas c hc
      rw [hden]
      unfold listMemberAt at hc
      split at hc
      next hlt => exact (hmem i hi hlt hhas c hc).trans Set.subset_union_left
      next =>
        cases hc
        exact Set.subset_union_right
    dsimp only
    rw [hm]
    show ∃ m, (if lt.members.fixedLength = 0 then _ else _) = some m ∧ _
    by_cases hzero : lt.members.fixedLength = 0
    · rw [if_pos hzero]
      exact ⟨m', hm', hQ', hboth⟩
    · rw [if_neg hzero, hn]
      show ∃ m, (if n > lt.members.fixedLength - 1 then _ else _) = some m ∧ _
      by_cases hlast : n > lt.members.fixedLength - 1
      · rw [if_pos hlast]
        exact ⟨m', hm', hQ', hboth⟩
      · rw [if_neg hlast]
        refine ⟨m, rfl, hQ, fun i hi hhas c hc => ?_⟩
        have hle := hmax i hhas
        unfold listMemberAt at hc
        rw [if_pos (by omega)] at hc
        exact hmem i hi (by omega) hhas c hc
  | all =>
    dsimp only
    rw [hrest]
    show ∃ m, (if lt.members.fixedLength > 0 then _ else _) = some m ∧ _
    have hcell : cellDen den lt.rest ⊆ den rest := by
      intro v hv
      obtain ⟨ty, hty, hv⟩ := hv
      rw [hrest] at hty
      cases hty
      exact hv
    by_cases hpos : lt.members.fixedLength > 0
    · rw [if_pos hpos]
      obtain ⟨m, hm, hQ, hle, hmem⟩ :=
        foldlM_unionInner_spec hx lt.members.initial rest hover.initial hQrest
      refine ⟨m, hm, hQ, fun i hi _ c hc => ?_⟩
      obtain ⟨c', hc', hcases⟩ := exists_listMemberAt hover.valid lt.rest hi
      rw [hc] at hc'
      cases hc'
      rcases hcases with ⟨_, hin⟩ | ⟨_, heq⟩
      · exact hmem c hin
      · rw [heq]
        exact hcell.trans hle
    · rw [if_neg hpos]
      refine ⟨rest, rfl, hQrest, fun i hi _ c hc => ?_⟩
      unfold listMemberAt at hc
      rw [if_neg (by omega)] at hc
      cases hc
      exact hcell

/-- The same for the values among them. -/
theorem listAtomicMemberTypeInnerVal_spec (hx : ListMemberTypes den Q W) {lt : ListAtomicType}
    (hover : lt.Over (CellOf Q)) {key : IntKey} (hkey : key.Valid) :
    ∃ m, listAtomicMemberTypeInnerVal lt key = some m ∧ InnerVal Q m ∧
      ∀ (l : List V) (i : Nat) (v : V), lt.Contains (cellDen den) l → key.Has i → l[i]? = some v →
        v ∈ den (.bits VAL) → v ∈ den m := by
  obtain ⟨ty, hty, hQ, hmem⟩ := listAtomicMemberTypeAtInner_spec hx hover hkey
  obtain ⟨m, hm, _, hden⟩ := hx.diff_undef hQ
  refine ⟨m, ?_, ⟨ty, hQ, hm⟩, fun l i v hcontains hhas hv hval => ?_⟩
  · unfold listAtomicMemberTypeInnerVal
    rw [hty]
    exact hm
  · obtain ⟨c, hc, _⟩ := hover.memberAt (Int.natCast_nonneg i)
    rw [hden]
    exact ⟨hmem i (Int.natCast_nonneg i) hhas c hc (hcontains.2 i v c hv hc),
      Set.disjoint_left.mp hx.defined hval⟩

end Atom

/-! ## Every path -/

section Sound

variable [BddIdentity] {den : SemType → Set V} {Q W : SemType → Prop}

omit [BddIdentity] in
theorem listBdd_complex (c : ComplexSemType ProperSubtypeData) :
    listBdd (.complex c) = (getComplexSubtypeData c BT_LIST).bind (·.toBdd) := rfl

theorem innerVal_type (hx : ListMemberTypes den Q W) (m : SemType) (h : InnerVal Q m) : W m := by
  obtain ⟨ty, hQ, hdiff⟩ := h
  obtain ⟨d, hd, hW, _⟩ := hx.diff_undef hQ
  rw [hdiff] at hd
  cases hd
  exact hW

variable {env : Env}

/-- If the intersections lose nothing, then the type has all members. -/
theorem memberTypeSound_of_keepsCommon (hx : ListMemberTypes den Q W)
    (hkeeps : KeepsCommon den (InnerVal Q) (.bits VAL)) {t k : SemType} (ht : ListTypeOver Q env t)
    (hk : ValidKey k) : MemberTypeSound den env t k := by
  obtain ⟨b, hb, hover⟩ := ht
  obtain ⟨r, hr, hkey⟩ := hk
  have hinner : ∀ m, InnerVal Q m → W m := innerVal_type hx
  unfold MemberTypeSound listMemberTypeInnerVal
  cases t with
  | bits bits =>
    refine ⟨_, rfl, fun l i v hl _ hv => ?_⟩
    have hval := hl.values v (List.mem_of_getElem? hv)
    obtain ⟨b', hb', hholds⟩ := hl.holds
    cases hb'
    have hbit : bits &&& LIST ≠ 0 := bne_iff_ne.mp hholds
    rw [if_pos hbit]
    exact hval
  | complex c =>
    rw [hr]
    cases r with
    | none =>
      refine ⟨NEVER, rfl, fun l i v _ hin => ?_⟩
      obtain ⟨key, hsome, _⟩ := hin
      rw [hr] at hsome
      cases hsome
    | some key =>
      obtain ⟨data, hdata, hbdd⟩ := Option.bind_eq_some_iff.mp ((listBdd_complex c).symm.trans hb)
      have hvalid := hkey key rfl
      have hatoms : ∀ atom, (∃ lt, env.listAtomType atom = some lt ∧ lt.Over (CellOf Q)) →
          ∃ ty, env.listAtomMemberType key atom = some ty ∧ InnerVal Q ty := by
        intro atom ⟨lt, hlt, hltOver⟩
        obtain ⟨m, hm, hQ, _⟩ := listAtomicMemberTypeInnerVal_spec hx hltOver hvalid
        refine ⟨m, ?_, hQ⟩
        unfold Env.listAtomMemberType
        rw [hlt]
        exact hm
      obtain ⟨ty, hty, _, hmem⟩ := bddMemberType_sound hx.toLossyTypes hinner hx.val hkeeps hatoms b
        (.bits VAL) hover Accumulated.start
      refine ⟨ty, ?_, fun l i v hl hin hv => ?_⟩
      · show (do
          let data ← getComplexSubtypeData c BT_LIST
          let bdd ← data.toBdd
          bddListMemberTypeInnerVal env bdd key (.bits VAL)) = _
        rw [hdata]
        show (do
          let bdd ← data.toBdd
          bddListMemberTypeInnerVal env bdd key (.bits VAL)) = _
        rw [hbdd]
        exact hty
      · obtain ⟨b', hb', hholds⟩ := hl.holds
        rw [hb] at hb'
        cases hb'
        have hval := hl.values v (List.mem_of_getElem? hv)
        refine hmem l v hholds hval fun atom ty' hatom hcontains hty' => ?_
        obtain ⟨lt, hlt, hltOver⟩ := hatom
        obtain ⟨m, hm, _, hmember⟩ := listAtomicMemberTypeInnerVal_spec hx hltOver hvalid
        obtain ⟨lt', hlt', hltContains⟩ := hcontains
        rw [hlt] at hlt'
        cases hlt'
        obtain ⟨key', hkey', hhas⟩ := hin
        rw [hr] at hkey'
        cases hkey'
        unfold Env.listAtomMemberType at hty'
        rw [hlt] at hty'
        have heq : listAtomicMemberTypeInnerVal lt key = some ty' := hty'
        rw [hm] at heq
        cases heq
        exact hmember l i v hltContains hhas hv hval

/-! ## A path that loses a member -/

/-- The atom of the lists of any length with members of a type. -/
def arrayAtom (i : Nat) (ty : SemType) : Atom := .typeAtom i (.list [] 0 (cellOf i ty))

omit [BddIdentity] in
theorem listAtomType_arrayAtom (env : Env) (i : Nat) (ty : SemType) :
    env.listAtomType (arrayAtom i ty) = some ⟨⟨[], 0⟩, cellOf i ty⟩ := rfl

omit [BddIdentity] in
theorem over_array {i : Nat} {ty : SemType} (h : Q ty) :
    (⟨⟨[], 0⟩, cellOf i ty⟩ : ListAtomicType).Over (CellOf Q) where
  valid := ⟨iff_of_true rfl rfl, le_refl _, by show (0 : Int) ≤ 9223372036854775807; omega⟩
  initial c hc := absurd hc List.not_mem_nil
  rest := ⟨ty, cellInner_cellOf i ty, h⟩

theorem listAtomMemberType_arrayAtom {i : Nat} {ty m : SemType} (h : diff ops ty (.bits UNDEF) = some m) :
    env.listAtomMemberType .all (arrayAtom i ty) = some m := by
  show (do
    let inner ← (do
      let m ← cellInner (cellOf i ty)
      if (0 : Int) > 0 then _ else some m : Option SemType)
    diff ops inner (.bits UNDEF)) = _
  rw [cellInner_cellOf]
  exact h

omit [BddIdentity] in
theorem listContains_arrayAtom {i : Nat} {ty : SemType} {l : List V} (h : ∀ v ∈ l, v ∈ den ty) :
    env.ListContains (cellDen den) l (arrayAtom i ty) := by
  refine ⟨_, listAtomType_arrayAtom env i ty, Int.natCast_nonneg _, fun j v c hv hc => ?_⟩
  unfold listMemberAt at hc
  rw [if_neg (by show ¬ ((j : Int) < 0); omega)] at hc
  cases hc
  exact ⟨ty, cellInner_cellOf i ty, h v (List.mem_of_getElem? hv)⟩

/-- The list type of a `Bdd`. -/
def listType : Bdd → SemType
  | .leaf b => .bits (if b then LIST else 0)
  | .node atom left middle right => basicSubtype BT_LIST (.bddNode atom left middle right)

omit [BddIdentity] in
theorem listBdd_listType : ∀ b : Bdd, listBdd (listType b) = some b
  | .leaf true => rfl
  | .leaf false => rfl
  | .node atom left middle right => by
    unfold listBdd listType
    rw [subtypeData_basicSubtype]
    rfl

theorem listMemberTypeInnerVal_listType (env : Env) : ∀ b : Bdd,
    listMemberTypeInnerVal env (listType b) (.bits INT) =
      bddMemberType (env.listAtomMemberType .all) b (.bits VAL)
  | .leaf true => rfl
  | .leaf false => rfl
  | .node atom left middle right => by
    let d : ProperSubtypeData := .bddNode atom left middle right
    have hdata : getComplexSubtypeData (createComplexSemType 0 [(BT_LIST, d)]) BT_LIST =
        some (.proper d) := subtypeData_basicSubtype BT_LIST d
    show (do
      let data ← getComplexSubtypeData (createComplexSemType 0 [(BT_LIST, d)]) BT_LIST
      let bdd ← data.toBdd
      bddListMemberTypeInnerVal env bdd .all (.bits VAL)) = _
    rw [hdata]
    rfl

omit [BddIdentity] in
theorem validKey_int : ValidKey (.bits INT) := by
  refine ⟨some .all, rfl, fun key hkey => ?_⟩
  cases hkey
  exact ⟨fun v hv => (by cases hv), fun v hv => (by cases hv)⟩

/-- `atom` is that of an array with members whose values are those of `m`. -/
def IsArrayAtom (den : SemType → Set V) (Q : SemType → Prop) (i : Nat) (atom : Atom) (m : SemType) :
    Prop :=
  ∃ ty, Q ty ∧ diff ops ty (.bits UNDEF) = some m ∧ den m ⊆ den ty ∧ atom = arrayAtom i ty

/-- `atom` is that of an array whose members have the values of `m`. -/
def HoldsMembers (den : SemType → Set V) (Q : SemType → Prop) (i : Nat) (atom : Atom) (m : SemType) :
    Prop :=
  ∃ ty, Q ty ∧ den m ⊆ den ty ∧ atom = arrayAtom i ty

/-- For every intersection on a path there is a list type with that path, which has the list of each
common value. -/
theorem exists_path_list (hx : ListMemberTypes den Q W) {M : SemType → Prop} (hM : ∀ t, M t → W t)
    {key : IntKey} {P : Nat → Atom → SemType → Prop}
    (hP : ∀ {i atom m}, P i atom m → env.listAtomMemberType key atom = some m)
    (hatom : ∀ i m, M m → ∃ atom, P i atom m)
    (harray : ∀ {i atom m}, P i atom m → HoldsMembers den Q i atom m) {accum m s : SemType}
    (haccum : Accumulated M (.bits VAL) accum) (hm : M m) (hs : intersect ops m accum = some s) {v : V}
    (hv : v ∈ den m ∩ den accum) :
    ∃ (atoms : List Atom) (t : SemType), atoms ≠ [] ∧
      (∀ atom ∈ atoms, ∃ i m, P i atom m ∧ v ∈ den m) ∧
      ListTypeOver Q env (listType (bddAll atoms (.leaf true))) ∧
      ListOf den env (listType (bddAll atoms (.leaf true))) [v] ∧
      bddMemberType (env.listAtomMemberType key) (bddAll atoms (.leaf true)) (.bits VAL) = some t ∧
      den t = den s := by
  obtain ⟨atoms, hatoms, hle, htype⟩ := exists_bddAll (P := P) hx.toLossyTypes hM hP hatom hx.val haccum
  -- the arrays of what has been accumulated, and then those of `m`
  obtain ⟨last, hlast⟩ := hatom atoms.length m hm
  have hWs : W s := (haccum.step hm hs).type hx.toLossyTypes hM hx.val
  have hleaf : bddMemberType (env.listAtomMemberType key) (.leaf true) s = some s := rfl
  obtain ⟨t1, ht1, hW1, hden1⟩ := bddMemberType_only hx.toLossyTypes (hP hlast) hs hleaf hWs
  obtain ⟨t2, ht2, _, hden2⟩ := htype _ t1 ht1 hW1
  have hall : ∀ atom ∈ atoms ++ [last], ∃ i m, P i atom m ∧ v ∈ den m := by
    intro atom ha
    rcases List.mem_append.mp ha with ha | ha
    · obtain ⟨i, hi⟩ := List.mem_iff_getElem?.mp ha
      obtain ⟨m', hP', _, hle'⟩ := hatoms i atom hi
      exact ⟨i, m', hP', hle' hv.2⟩
    · rw [List.mem_singleton.mp ha]
      exact ⟨_, m, hlast, hv.1⟩
  have hover : ∀ atom ∈ atoms ++ [last], ∃ lt, env.listAtomType atom = some lt ∧
      lt.Over (CellOf Q) := by
    intro atom ha
    obtain ⟨i, m', hP', _⟩ := hall atom ha
    obtain ⟨ty, hQ, _, heq⟩ := harray hP'
    rw [heq]
    exact ⟨_, listAtomType_arrayAtom env i ty, over_array hQ⟩
  have hcontains : ∀ atom ∈ atoms ++ [last], env.ListContains (cellDen den) [v] atom := by
    intro atom ha
    obtain ⟨i, m', hP', hvm⟩ := hall atom ha
    obtain ⟨ty, _, hle', heq⟩ := harray hP'
    rw [heq]
    refine listContains_arrayAtom fun w hw => ?_
    rw [List.mem_singleton.mp hw]
    exact hle' hvm
  refine ⟨atoms ++ [last], t2, List.append_ne_nil_of_right_ne_nil _ (List.cons_ne_nil _ _), hall,
    ⟨_, listBdd_listType _, over_bddAll hover trivial⟩,
    ⟨fun w hw => ?_, _, listBdd_listType _, (holds_bddAll _ _).mpr ⟨hcontains, rfl⟩⟩, ?_,
    hden2.trans hden1⟩
  · rw [List.mem_singleton.mp hw]
    exact hle hv.2
  · rw [bddAll_snoc]
    exact ht2

/-- If a value gets lost on a path, then there is a list type with a list that has it. -/
theorem keepsCommon_of_memberTypeSound (hx : ListMemberTypes den Q W)
    (hsound : ∀ t k, ListTypeOver Q env t → ValidKey k → MemberTypeSound den env t k) :
    KeepsCommon den (InnerVal Q) (.bits VAL) := by
  intro accum m s haccum hm hs v hv
  have hP : ∀ {i atom m}, IsArrayAtom den Q i atom m →
      env.listAtomMemberType .all atom = some m := by
    intro i atom m ⟨ty, _, hdiff, _, hatom⟩
    rw [hatom]
    exact listAtomMemberType_arrayAtom hdiff
  have hatom : ∀ (i : Nat) m, InnerVal Q m → ∃ atom, IsArrayAtom den Q i atom m := by
    intro i m ⟨ty, hQ, hdiff⟩
    obtain ⟨d, hd, _, hden⟩ := hx.diff_undef hQ
    rw [hdiff] at hd
    cases hd
    refine ⟨arrayAtom i ty, ty, hQ, hdiff, ?_, rfl⟩
    rw [hden]
    exact Set.sdiff_subset
  have harray : ∀ {i atom m}, IsArrayAtom den Q i atom m → HoldsMembers den Q i atom m := by
    intro i atom m ⟨ty, hQ, _, hle, heq⟩
    exact ⟨ty, hQ, hle, heq⟩
  obtain ⟨atoms, t, _, _, hover, hlist, ht, hden⟩ :=
    exists_path_list hx (innerVal_type hx) hP hatom harray haccum hm hs hv
  obtain ⟨ty, hty, hmem⟩ := hsound _ _ hover validKey_int
  rw [listMemberTypeInnerVal_listType] at hty
  have heq : t = ty := Option.some.inj (ht.symm.trans hty)
  have hres := hmem [v] 0 v hlist ⟨.all, rfl, trivial⟩ rfl
  rw [← heq, hden] at hres
  exact hres

/-- Every member of every list is in the type that is computed, for all list types with member types
in `Q`, exactly if no intersection of these types loses a common value. -/
theorem listMemberTypeInnerVal_sound_iff (hx : ListMemberTypes den Q W) :
    (∀ env t k, ListTypeOver Q env t → ValidKey k → MemberTypeSound den env t k) ↔
      KeepsCommon den (InnerVal Q) (.bits VAL) :=
  ⟨fun h => keepsCommon_of_memberTypeSound hx (h Env.init),
    fun h _ _ _ ht hk => memberTypeSound_of_keepsCommon hx h ht hk⟩

end Sound

/-! ## Bit sets lose nothing -/

theorem listMemberTypes_of_code [BddIdentity] {den : SemType → Set V} (code : V → BasicTypeCode)
    (hden : ∀ b, den (.bits b) = {v | b.getLsbD (code v).val = true}) :
    ListMemberTypes den IsBits IsBits where
  toLossyTypes := (exactTypes_of_code code hden).lossy
  inner_never := (exactTypes_of_code code hden).never
  inner_union := (exactTypes_of_code code hden).union
  diff_undef h := (exactTypes_of_code code hden).diff h (isBits UNDEF)
  val := isBits VAL
  defined := by
    have hbits : ∀ c : BasicTypeCode, VAL.getLsbD c.val = true → UNDEF.getLsbD c.val ≠ true := by decide
    rw [hden, hden]
    exact Set.disjoint_left.mpr fun v hval => hbits (code v) hval

theorem listMemberTypes_bits [BddIdentity] : ListMemberTypes bitsDen IsBits IsBits :=
  listMemberTypes_of_code id fun _ => rfl

/-- Lists with members whose types are bit sets. -/
theorem listMemberTypeInnerVal_sound_bits :
    let _ := BddIdentity.shared
    ∀ env t k, ListTypeOver IsBits env t → ValidKey k → MemberTypeSound bitsDen env t k := by
  intro _
  exact (listMemberTypeInnerVal_sound_iff listMemberTypes_bits).mpr
    (exactTypes_bits.keepsCommon (innerVal_type listMemberTypes_bits) (isBits VAL))

/-! ## Ints that are lost -/

/-- The ints of a type. -/
def intsDen (t : SemType) : Set Int :=
  {n | ∃ d, subtypeData t BT_INT = some d ∧ intSubtypeContains d n = some true}

def ints (ranges : List Range) : SemType := basicSubtype BT_INT (.int ranges)

/-- The rest type of a list of such ints. -/
def intsOrUndef (ranges : List Range) : SemType :=
  .complex (createComplexSemType UNDEF [(BT_INT, .int ranges)])

theorem mem_intsDen_ints {ranges : List Range} {n : Int} :
    n ∈ intsDen (ints ranges) ↔ rangesHave ranges n := by
  rw [← intSubtypeContains_iff]
  unfold ints
  refine ⟨fun ⟨d, hd, hn⟩ => ?_, fun hn => ⟨_, subtypeData_basicSubtype BT_INT _, hn⟩⟩
  rw [subtypeData_basicSubtype] at hd
  cases hd
  exact hn

theorem undef_no_ints : UNDEF &&& basicType BT_INT = 0 := by
  decide

theorem mem_intsDen_intsOrUndef {ranges : List Range} {n : Int} (h : rangesHave ranges n) :
    n ∈ intsDen (intsOrUndef ranges) := by
  obtain ⟨_, hsome, hcount⟩ := dataBits_basicSubtype BT_INT
  refine ⟨.proper (.int ranges), ?_, (intSubtypeContains_iff ranges n).mpr h⟩
  show getComplexSubtypeData (ComplexSemType.mk UNDEF (0 ||| basicType BT_INT)
    [ProperSubtypeData.int ranges]) BT_INT = _
  unfold getComplexSubtypeData
  dsimp only
  rw [if_neg (not_not.mpr undef_no_ints), if_neg hsome, hcount]
  rfl

theorem subtypePairs_left (code : BasicTypeCode) (d : ProperSubtypeData) :
    subtypePairs (basicType code) [(code, d)] [] = [(code, some d, none)] := by
  rw [subtypePairs]
  simp only [List.filter_cons, includes_self]
  rfl

theorem diffBits_undef : ((UNDEF ||| (0 ||| basicType BT_INT)) &&& ~~~UNDEF) &&&
      ~~~(UNDEF &&& ~~~(UNDEF ||| 0)) = basicType BT_INT ∧
    UNDEF &&& ~~~(UNDEF ||| 0) = 0 ∧ basicType BT_INT ≠ 0 ∧ UNDEF ≠ VT_MASK := by
  decide

theorem intersectBits_int : ((0 ||| basicType BT_INT ||| 0) &&& (0 ||| basicType BT_INT ||| 0)) &&&
      ~~~((0 : BasicTypeBitSet) &&& 0) = basicType BT_INT ∧
    (0 : BasicTypeBitSet) &&& 0 = 0 ∧ basicType BT_INT ≠ 0 := by
  decide

section Lost

variable [BddIdentity]

theorem diff_intsOrUndef (ranges : List Range) :
    diff ops (intsOrUndef ranges) (.bits UNDEF) = some (ints ranges) := by
  obtain ⟨hsome, hall, hne, hmask⟩ := diffBits_undef
  have hpairs : subtypePairIterator (intsOrUndef ranges) (.bits UNDEF) (basicType BT_INT) =
      some [(BT_INT, some (.int ranges), none)] := by
    show (do
      let u1 ← unpackComplexSemType
        (createComplexSemType UNDEF [(BT_INT, ProperSubtypeData.int ranges)])
      return subtypePairs (basicType BT_INT) u1 []) = _
    rw [unpack_single]
    exact congrArg some (subtypePairs_left BT_INT _)
  show (if UNDEF = VT_MASK then some (SemTypeOf.bits 0) else
    diffMerge ops (intsOrUndef ranges) (.bits UNDEF) UNDEF (0 ||| basicType BT_INT) UNDEF 0) = _
  rw [if_neg hmask]
  unfold diffMerge
  dsimp only
  rw [hsome, hall, if_neg hne, hpairs]
  rfl

/-- Two types of ints are intersected by the loop over their only pair of data. -/
theorem intersect_ints_loop {v v' : List Range} {subtypes : List (BasicTypeCode × ProperSubtypeData)}
    (h : intersectLoop ops [(BT_INT, some (.int v), some (.int v'))] [] = some subtypes) :
    intersect ops (ints v) (ints v') = some (finishSemType (0, subtypes)) := by
  obtain ⟨hsome, hall, hne⟩ := intersectBits_int
  have hpairs : subtypePairIterator (ints v) (ints v') (basicType BT_INT) =
      some [(BT_INT, some (.int v), some (.int v'))] := by
    show (do
      let u1 ← unpackComplexSemType (createComplexSemType 0 [(BT_INT, ProperSubtypeData.int v)])
      let u2 ← unpackComplexSemType (createComplexSemType 0 [(BT_INT, ProperSubtypeData.int v')])
      return subtypePairs (basicType BT_INT) u1 u2) = _
    rw [unpack_single, unpack_single]
    exact congrArg some (subtypePairs_single BT_INT _ _)
  show intersectMerge ops (ints v) (ints v') 0 (0 ||| basicType BT_INT) 0
    (0 ||| basicType BT_INT) = _
  unfold intersectMerge
  dsimp only
  rw [hsome, hall, if_neg hne, hpairs]
  show (do
    let subtypes ← intersectLoop ops [(BT_INT, some (.int v), some (.int v'))] []
    return finishSemType (0, subtypes)) = _
  rw [h]
  rfl

theorem intersect_ints {v v' w : List Range} {r : Range} (h : rangeListIntersect v v' = r :: w) :
    intersect ops (ints v) (ints v') = some (ints (r :: w)) := by
  have hdata : intersectData ops BT_INT (some (.int v)) (some (.int v')) =
      some (.proper (.int (r :: w))) := by
    show intSubtypeIntersect (.int v) (.int v') = _
    unfold intSubtypeIntersect
    dsimp only
    rw [h]
    rfl
  have hloop : intersectLoop ops [(BT_INT, some (.int v), some (.int v'))] [] =
      some [(BT_INT, .int (r :: w))] := by
    unfold intersectLoop
    rw [hdata]
    rfl
  exact intersect_ints_loop hloop

end Lost

/-- The lists of ints `1..10` that are lists of ints `1..3 | 5..7`. -/
def twoRanges : SemType :=
  listType (bddAll [arrayAtom 0 (intsOrUndef [⟨1, 10⟩]), arrayAtom 1 (intsOrUndef [⟨1, 3⟩, ⟨5, 7⟩])]
    (.leaf true))

/-- The list `[6]` is one of them, but 6 is not in the type of the members. -/
theorem not_sound_two_ranges :
    let _ := BddIdentity.shared
    ListOf intsDen Env.init twoRanges [6] ∧
      ∃ ty, listMemberTypeInnerVal Env.init twoRanges (.bits INT) = some ty ∧ 6 ∉ intsDen ty := by
  intro _
  refine ⟨⟨fun v _ => ⟨.bool true, rfl, rfl⟩, _, listBdd_listType _,
    (holds_bddAll _ _).mpr ⟨fun atom ha => ?_, rfl⟩⟩, ?_⟩
  · have hsix : ∀ {i : Nat} {ranges : List Range}, rangesHave ranges 6 →
        Env.init.ListContains (cellDen intsDen) [6] (arrayAtom i (intsOrUndef ranges)) := by
      intro i ranges h
      refine listContains_arrayAtom fun v hv => ?_
      rw [List.mem_singleton.mp hv]
      exact mem_intsDen_intsOrUndef h
    rcases List.mem_cons.mp ha with heq | ha
    · rw [heq]
      exact hsix (by simp [Range.Has])
    · rw [List.mem_singleton.mp ha]
      exact hsix (by simp [Range.Has])
  · have hranges : rangeListIntersect [⟨1, 3⟩, ⟨5, 7⟩] [⟨1, 10⟩] = [⟨1, 3⟩] := by
      simp [rangeListIntersect, rangeIntersect]
    have hfirst : Env.init.listAtomMemberType .all (arrayAtom 0 (intsOrUndef [⟨1, 10⟩])) =
        some (ints [⟨1, 10⟩]) := listAtomMemberType_arrayAtom (diff_intsOrUndef _)
    have hsecond : Env.init.listAtomMemberType .all (arrayAtom 1 (intsOrUndef [⟨1, 3⟩, ⟨5, 7⟩])) =
        some (ints [⟨1, 3⟩, ⟨5, 7⟩]) := listAtomMemberType_arrayAtom (diff_intsOrUndef _)
    refine ⟨ints [⟨1, 3⟩], ?_, fun h => ?_⟩
    · have hleaf : ∀ accum, bddMemberType (Env.init.listAtomMemberType .all) (.leaf true) accum =
          some accum := fun _ => rfl
      have hnever : ∀ accum, bddMemberType (Env.init.listAtomMemberType .all) (.leaf false) accum =
          some NEVER := fun _ => rfl
      have hboth : union ops NEVER NEVER = some NEVER := rfl
      have hnode : ∀ (atom : Atom) (left : Bdd) (accum ty s : SemType) (ranges : List Range),
          Env.init.listAtomMemberType .all atom = some ty → intersect ops ty accum = some s →
          bddMemberType (Env.init.listAtomMemberType .all) left s = some (ints ranges) →
          bddMemberType (Env.init.listAtomMemberType .all)
            (.node atom left (.leaf false) (.leaf false)) accum = some (ints ranges) := by
        intro atom left accum ty s ranges hty hs hl
        exact bddMemberType_node hty hs hl (hnever _) (hnever _) hboth
      unfold twoRanges
      rw [listMemberTypeInnerVal_listType]
      exact hnode _ _ _ _ _ _ hfirst rfl
        (hnode _ _ _ _ _ _ hsecond (intersect_ints hranges) (hleaf _))
    · have := mem_intsDen_ints.mp h
      simp [Range.Has] at this

end Nballerina.Types
