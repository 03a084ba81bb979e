import Nballerina.Lib.StrictSearch
import Nballerina.Types.ListAllRanges

/-!
# Comparable types

`comparable` (`core.bal`) says whether the values of two types can be compared with `<`: all of one
basic type, apart from nil, or lists whose members are comparable at every common index. Lists are
looked at range by range, with a table for the pairs of types met; a pair that leads back to itself is
taken not to be comparable.

The answer `true` is right for types whose list types are all covered
(`listAllMemberTypesInner_contains_iff`, the third part): the members at a common index then are in
member types that have been compared. A list type with a path that has no positive atom contributes no
ranges, and so is comparable with everything (`not_allMembersIn_negative`).

Mirroring notes:
- `comparable` up to the call of `comparableNillableList` is `direct`, the loop of the latter `expand`;
  an answer is `some ()` for true and `none` for false.
- The pairs of member types are listed before the first is compared; none of them is missing.
-/

namespace Nballerina.Types

open Nballerina.Lib

section Source

variable [BddIdentity]

/-- The member types at the entries that are in both lists of ranges. -/
def comparablePairs (memberTypes1 memberTypes2 : List SemType) :
    List CombinedRange → Option (List (SemType × SemType))
  | [] => some []
  | ⟨_, some i1, some i2⟩ :: combined => do
    let pair := (← memberTypes1[i1]?, ← memberTypes2[i2]?)
    let pairs ← comparablePairs memberTypes1 memberTypes2 combined
    some (pair :: pairs)
  | _ :: combined => comparablePairs memberTypes1 memberTypes2 combined

/-- `comparable`, without the table; `none` is a call of `comparableNillableList`. -/
def comparableSimple (t : SemType × SemType) : Option (Option (Option Unit)) := do
  let semType ← diff ops (← union ops t.1 t.2) (.bits NIL)
  if isSubtypeSimple semType SIMPLE_OR_STRING then
    let nOrderings := bitCount (widenToBasicTypes semType)
    some (some (if nOrderings ≤ 1 then some () else none))
  else if isSubtypeSimple semType LIST then some none
  else some (some none)

/-- The body of `comparableNillableList`. -/
def comparableNillableList (env : Env) (t : SemType × SemType) :
    Option (SearchStep (SemType × SemType) Unit) := do
  let (ranges1, memberTypes1) ← listAllMemberTypesInner env t.1
  let (ranges2, memberTypes2) ← listAllMemberTypesInner env t.2
  let pairs ← comparablePairs memberTypes1 memberTypes2 (combineRanges ranges1 ranges2)
  some (.all pairs fun _ => ())

def comparableSearch (env : Env) : StrictSearch (SemType × SemType) Unit where
  direct := comparableSimple
  expand := comparableNillableList env

/-- `comparable(cx, t1, t2)`, with the table `cx.comparableMemo`. -/
def comparable (env : Env) (fuel : Nat) (t1 t2 : SemType)
    (comparableMemo : AnswerTable (SemType × SemType) Unit) :
    Option (Option Unit × AnswerTable (SemType × SemType) Unit) :=
  (comparableSearch env).eval fuel (t1, t2) comparableMemo

end Source

/-! ## Comparable values -/

variable {V : Type}

/-- Values have a basic type, and lists have members. -/
structure ListValues (V : Type) where
  code : V → BasicTypeCode
  members : V → List V

/-- Nil is comparable with everything, other simple values and strings with those of their basic type,
lists with lists whose members are comparable as far as both go. -/
inductive ListValues.Comparable (vals : ListValues V) : V → V → Prop
  | nilLeft {v w : V} : vals.code v = BT_NIL → Comparable vals v w
  | nilRight {v w : V} : vals.code w = BT_NIL → Comparable vals v w
  | same {v w : V} : vals.code v = vals.code w → SIMPLE_OR_STRING.getLsbD (vals.code v).val = true →
      Comparable vals v w
  | list {v w : V} : vals.code v = BT_LIST → vals.code w = BT_LIST →
      (∀ (i : Nat) a b, (vals.members v)[i]? = some a → (vals.members w)[i]? = some b →
        Comparable vals a b) → Comparable vals v w

/-- What is asked of types `T` and their values: `union` and `diff` do not lose a basic type, a list
that belongs to a type does so by its members, and member types are in `T`. -/
structure ComparableTypes [BddIdentity] (vals : ListValues V) (den : SemType → Set V) (env : Env)
    (T : SemType → Prop) : Prop where
  bits : ∀ t1 t2 u s, T t1 → T t2 → union ops t1 t2 = some u → diff ops u (.bits NIL) = some s →
    ∀ v ∈ den t1 ∪ den t2, vals.code v ≠ BT_NIL →
      (widenToBasicTypes s).getLsbD (vals.code v).val = true
  list : ∀ t, T t → ∀ v ∈ den t, vals.code v = BT_LIST →
    ListOf den env t (vals.members v) ∧ ((vals.members v).length : Int) ≤ intMaxValue + 1
  members : ∀ t ranges types, T t → listAllMemberTypesInner env t = some (ranges, types) →
    ∀ ty ∈ types, T ty

section Sound

variable [BddIdentity] {vals : ListValues V} {den : SemType → Set V} {env : Env}
  {Q W T : SemType → Prop}

omit [BddIdentity] in
theorem mem_comparablePairs {memberTypes1 memberTypes2 : List SemType} :
    ∀ (combined : List CombinedRange) (pairs : List (SemType × SemType)),
      comparablePairs memberTypes1 memberTypes2 combined = some pairs →
      ∀ e ∈ combined, ∀ i1 i2 ty1 ty2, e.index1 = some i1 → e.index2 = some i2 →
        memberTypes1[i1]? = some ty1 → memberTypes2[i2]? = some ty2 → (ty1, ty2) ∈ pairs
  | [], pairs, _, e, he => absurd he List.not_mem_nil
  | ⟨range, index1, index2⟩ :: combined, pairs, h, e, he => by
    intro i1 i2 ty1 ty2 hi1 hi2 hty1 hty2
    -- an entry without one of the indices adds nothing
    have hskip : comparablePairs memberTypes1 memberTypes2 combined = some pairs →
        e ≠ ⟨range, index1, index2⟩ → (ty1, ty2) ∈ pairs := by
      intro hrest hne
      exact mem_comparablePairs combined pairs hrest e ((List.mem_cons.mp he).resolve_left hne)
        i1 i2 ty1 ty2 hi1 hi2 hty1 hty2
    cases index1 with
    | none =>
      refine hskip (by cases index2 <;> exact h) fun heq => ?_
      rw [heq] at hi1
      cases hi1
    | some j1 =>
      cases index2 with
      | none =>
        refine hskip h fun heq => ?_
        rw [heq] at hi2
        cases hi2
      | some j2 =>
        unfold comparablePairs at h
        obtain ⟨a1, ha1, h⟩ := Option.bind_eq_some_iff.mp h
        obtain ⟨a2, ha2, h⟩ := Option.bind_eq_some_iff.mp h
        obtain ⟨rest, hrest, h⟩ := Option.bind_eq_some_iff.mp h
        cases h
        rcases List.mem_cons.mp he with heq | he
        · rw [heq] at hi1 hi2
          cases hi1
          cases hi2
          rw [ha1] at hty1
          rw [ha2] at hty2
          cases hty1
          cases hty2
          exact .head _
        · exact .tail _ (mem_comparablePairs combined rest hrest e he i1 i2 ty1 ty2
            hi1 hi2 hty1 hty2)

omit [BddIdentity] in
/-- At most one bit is set. -/
theorem eq_of_bitCount_le_one {b : BasicTypeBitSet} (h : bitCount b ≤ 1) {c c' : BasicTypeCode}
    (hc : b.getLsbD c.val = true) (hc' : b.getLsbD c'.val = true) : c = c' := by
  have hmem : ∀ {i : BasicTypeCode}, b.getLsbD i.val = true →
      i.val ∈ (List.range 32).filter fun i => b.getLsbD i := by
    intro i hi
    exact List.mem_filter.mpr ⟨List.mem_range.mpr (by omega), hi⟩
  unfold bitCount at h
  generalize (List.range 32).filter (fun i => b.getLsbD i) = l at h hmem
  rcases l with _ | ⟨n, _ | ⟨m, l⟩⟩
  · exact absurd (hmem hc) List.not_mem_nil
  · have h1 := List.mem_singleton.mp (hmem hc)
    have h2 := List.mem_singleton.mp (hmem hc')
    exact Fin.ext (h1.trans h2.symm)
  · rw [List.length_cons, List.length_cons] at h
    omega

omit [BddIdentity] in
/-- The basic types of a simple subtype. -/
theorem mem_of_isSubtypeSimple {t : SemType} {b : BasicTypeBitSet} (h : isSubtypeSimple t b = true)
    {c : BasicTypeCode} (hc : (widenToBasicTypes t).getLsbD c.val = true) : b.getLsbD c.val = true := by
  have hzero : widenToBasicTypes t &&& ~~~b = 0 := by
    cases t with
    | bits => exact beq_iff_eq.mp h
    | complex => exact beq_iff_eq.mp h
  by_contra hnot
  have hbit : (widenToBasicTypes t &&& ~~~b).getLsbD c.val = true := by
    rw [BitVec.getLsbD_and, BitVec.getLsbD_not, hc, Bool.eq_false_iff.mpr hnot]
    have hlt : c.val < 32 := by omega
    simp [hlt]
  rw [hzero] at hbit
  simp at hbit

variable {p : SemType × SemType}

/-- What the check of two types looks at. -/
theorem comparableSimple_cases {r : Option (Option Unit)} (h : comparableSimple p = some r) :
    ∃ u s, union ops p.1 p.2 = some u ∧ diff ops u (.bits NIL) = some s ∧
      (r = some (some ()) → isSubtypeSimple s SIMPLE_OR_STRING = true ∧
        bitCount (widenToBasicTypes s) ≤ 1) ∧
      (r = none → isSubtypeSimple s LIST = true) := by
  unfold comparableSimple at h
  obtain ⟨u, hu, h⟩ := Option.bind_eq_some_iff.mp h
  obtain ⟨s, hs, h⟩ := Option.bind_eq_some_iff.mp h
  refine ⟨u, s, hu, hs, ?_⟩
  dsimp only at h
  split at h
  next hsimple =>
    by_cases hcount : bitCount (widenToBasicTypes s) ≤ 1
    · rw [if_pos hcount] at h
      cases h
      exact ⟨fun _ => ⟨hsimple, hcount⟩, fun hr => (by cases hr)⟩
    · rw [if_neg hcount] at h
      cases h
      exact ⟨fun hr => (by cases hr), fun hr => (by cases hr)⟩
  next =>
    split at h
    next hlist =>
      cases h
      exact ⟨fun hr => (by cases hr), fun _ => hlist⟩
    next =>
      cases h
      exact ⟨fun hr => (by cases hr), fun hr => (by cases hr)⟩

omit [BddIdentity] in
theorem eq_list_of_bit {c : BasicTypeCode} (h : LIST.getLsbD c.val = true) : c = BT_LIST := by
  have hall : ∀ c : BasicTypeCode, LIST.getLsbD c.val = true → c = BT_LIST := by decide
  exact hall c h

/-- The member types at a common index of two lists have been compared. -/
theorem exists_pair (hx : ListMemberTypes den Q W) (hkeeps : KeepsCommon den (SingleVal Q) (.bits VAL))
    (hlists : ∀ t, T t → ListTypeOver Q env t ∧ RangesCovered den env t) (h1 : T p.1) (h2 : T p.2)
    {pairs : List (SemType × SemType)} {combine : List Unit → Unit}
    (hexpand : comparableNillableList env p = some (.all pairs combine)) {l l' : List V}
    (hl : ListOf den env p.1 l) (hl' : ListOf den env p.2 l') {i : Nat} (hi : (i : Int) ≤ intMaxValue)
    {a b : V} (ha : l[i]? = some a) (hb : l'[i]? = some b) :
    ∃ ranges1 types1 ranges2 types2 ty1 ty2,
      listAllMemberTypesInner env p.1 = some (ranges1, types1) ∧
      listAllMemberTypesInner env p.2 = some (ranges2, types2) ∧ ty1 ∈ types1 ∧ ty2 ∈ types2 ∧
      (ty1, ty2) ∈ pairs ∧ a ∈ den ty1 ∧ b ∈ den ty2 := by
  unfold comparableNillableList at hexpand
  obtain ⟨⟨ranges1, types1⟩, hall1, hexpand⟩ := Option.bind_eq_some_iff.mp hexpand
  obtain ⟨⟨ranges2, types2⟩, hall2, hexpand⟩ := Option.bind_eq_some_iff.mp hexpand
  obtain ⟨pairs', hpairs, hexpand⟩ := Option.bind_eq_some_iff.mp hexpand
  cases hexpand
  have hmember : ∀ {t ranges types}, T t → listAllMemberTypesInner env t = some (ranges, types) →
      ∀ {l : List V} {v : V}, ListOf den env t l → l[i]? = some v →
        ∃ (k : Nat) (r : Range) (ty : SemType), ranges[k]? = some r ∧ r.Has i ∧ types[k]? = some ty ∧
          v ∈ den ty := by
    intro t ranges types ht hall l v hl hv
    obtain ⟨hover, hcovered⟩ := hlists t ht
    obtain ⟨ranges', types', hall', hmem⟩ := allMembersIn_of_covered hx hkeeps hover hcovered
    rw [hall] at hall'
    cases hall'
    exact hmem l i v hl hi hv
  obtain ⟨k1, r1, ty1, hr1, hhas1, hty1, hmem1⟩ := hmember h1 hall1 hl ha
  obtain ⟨k2, r2, ty2, hr2, hhas2, hty2, hmem2⟩ := hmember h2 hall2 hl' hb
  -- the entry with the index names both ranges
  have hsorted1 := listAllMemberTypesInner_sorted hx (hlists _ h1).1 hall1
  have hsorted2 := listAllMemberTypesInner_sorted hx (hlists _ h2).1 hall2
  have href := combineRanges_refines hsorted1 hsorted2
  have hlower : intMinValue ≤ (i : Int) := by
    show (-9223372036854775808 : Int) ≤ i
    omega
  obtain ⟨e, he, hin⟩ := href.covers i hlower (.inl ⟨r1, List.mem_of_getElem? hr1, hhas1⟩)
  have hi1 := (href.index1 e he).eq_some hsorted1 hr1 hhas1 hin
  have hi2 := (href.index2 e he).eq_some hsorted2 hr2 hhas2 hin
  exact ⟨ranges1, types1, ranges2, types2, ty1, ty2, hall1, hall2, List.mem_of_getElem? hty1,
    List.mem_of_getElem? hty2,
    mem_comparablePairs _ _ hpairs e he k1 k2 ty1 ty2 hi1 hi2 hty1 hty2, hmem1, hmem2⟩

/-- A derivation of `true` shows that the values are comparable. -/
theorem comparable_of_derives (hx : ListMemberTypes den Q W)
    (hkeeps : KeepsCommon den (SingleVal Q) (.bits VAL)) (hT : ComparableTypes vals den env T)
    (hlists : ∀ t, T t → ListTypeOver Q env t ∧ RangesCovered den env t) {u : Unit}
    (h : (comparableSearch env).Derives p u) :
    T p.1 → T p.2 → ∀ v ∈ den p.1, ∀ w ∈ den p.2, vals.Comparable v w := by
  induction h with
  | @direct p u hdirect =>
    intro h1 h2 v hv w hw
    by_cases hnilv : vals.code v = BT_NIL
    · exact .nilLeft hnilv
    by_cases hnilw : vals.code w = BT_NIL
    · exact .nilRight hnilw
    obtain ⟨u, s, hu, hs, hsimple, _⟩ := comparableSimple_cases hdirect
    obtain ⟨hsub, hcount⟩ := hsimple rfl
    have hbitv := hT.bits p.1 p.2 u s h1 h2 hu hs v (.inl hv) hnilv
    have hbitw := hT.bits p.1 p.2 u s h1 h2 hu hs w (.inr hw) hnilw
    exact .same (eq_of_bitCount_le_one hcount hbitv hbitw) (mem_of_isSubtypeSimple hsub hbitv)
  | @answer p u _ hexpand =>
    obtain ⟨_, _, hexpand⟩ := Option.bind_eq_some_iff.mp hexpand
    obtain ⟨_, _, hexpand⟩ := Option.bind_eq_some_iff.mp hexpand
    obtain ⟨_, _, hexpand⟩ := Option.bind_eq_some_iff.mp hexpand
    cases hexpand
  | @all p pairs combine as hdirect hexpand hlength _ ih =>
    intro h1 h2 v hv w hw
    by_cases hnilv : vals.code v = BT_NIL
    · exact .nilLeft hnilv
    by_cases hnilw : vals.code w = BT_NIL
    · exact .nilRight hnilw
    obtain ⟨u, s, hu, hs, _, hlist⟩ := comparableSimple_cases hdirect
    have hcode : ∀ x ∈ den p.1 ∪ den p.2, vals.code x ≠ BT_NIL → vals.code x = BT_LIST := by
      intro x hx' hnil
      exact eq_list_of_bit (mem_of_isSubtypeSimple (hlist rfl) (hT.bits p.1 p.2 u s h1 h2 hu hs x hx' hnil))
    have hlv := hcode v (.inl hv) hnilv
    have hlw := hcode w (.inr hw) hnilw
    obtain ⟨hofv, hlenv⟩ := hT.list p.1 h1 v hv hlv
    obtain ⟨hofw, _⟩ := hT.list p.2 h2 w hw hlw
    refine .list hlv hlw fun i a b ha hb => ?_
    have hi : (i : Int) ≤ intMaxValue := by
      have := (List.getElem?_eq_some_iff.mp ha).1
      omega
    obtain ⟨ranges1, types1, ranges2, types2, ty1, ty2, hall1, hall2, hmem1, hmem2, hpair, hda, hdb⟩ :=
      exists_pair hx hkeeps hlists h1 h2 hexpand hofv hofw hi ha hb
    obtain ⟨j, hj⟩ := List.mem_iff_getElem?.mp hpair
    have hlt := (List.getElem?_eq_some_iff.mp hj).1
    rw [← hlength] at hlt
    exact ih j _ _ hj (List.getElem?_eq_getElem hlt) (hT.members p.1 _ _ h1 hall1 ty1 hmem1)
      (hT.members p.2 _ _ h2 hall2 ty2 hmem2) a hda b hdb

omit [BddIdentity] in
/-- Lists are comparable by their members. -/
theorem ListValues.Comparable.members {v w : V} (h : vals.Comparable v w) (hv : vals.code v = BT_LIST)
    (hw : vals.code w = BT_LIST) {i : Nat} {a b : V} (ha : (vals.members v)[i]? = some a)
    (hb : (vals.members w)[i]? = some b) : vals.Comparable a b := by
  have hnil : BT_LIST ≠ BT_NIL := by decide
  have hlist : ¬ SIMPLE_OR_STRING.getLsbD BT_LIST.val = true := by decide
  cases h with
  | nilLeft h => exact absurd (hv.symm.trans h) hnil
  | nilRight h => exact absurd (hw.symm.trans h) hnil
  | same _ h =>
    rw [hv] at h
    exact absurd h hlist
  | list _ _ h => exact h i a b ha hb

/-- Every member is in the type of a range with its index only if the type is covered; it is so for all
covered types exactly if no intersection of member types loses a common value. Then, whatever was
compared before, two types are comparable only if the members of their lists are, at every common index. -/
theorem listAllMemberTypesInner_contains_iff (hx : ListMemberTypes den Q W) :
    (∀ env t, ListTypeOver Q env t → AllMembersIn den env t → RangesCovered den env t) ∧
    ((∀ env t, ListTypeOver Q env t → RangesCovered den env t → AllMembersIn den env t) ↔
      KeepsCommon den (SingleVal Q) (.bits VAL)) ∧
    (KeepsCommon den (SingleVal Q) (.bits VAL) → ∀ (vals : ListValues V) (env : Env) (T : SemType → Prop),
      ComparableTypes vals den env T → (∀ t, T t → ListTypeOver Q env t ∧ RangesCovered den env t) →
      ∀ memo, StrictSearch.Reachable (comparableSearch env) memo → ∀ fuel t1 t2 memo', T t1 → T t2 →
      comparable env fuel t1 t2 memo = some (some (), memo') →
      ∀ v ∈ den t1, ∀ w ∈ den t2, vals.code v = BT_LIST → vals.code w = BT_LIST →
      ∀ (i : Nat) a b, (vals.members v)[i]? = some a → (vals.members w)[i]? = some b →
        vals.Comparable a b) := by
  refine ⟨fun env t => covered_of_allMembersIn hx,
    ⟨fun h => keepsCommon_of_allMembersIn hx (h Env.init), fun hkeeps env t =>
      allMembersIn_of_covered hx hkeeps⟩, ?_⟩
  intro hkeeps vals env T hT hlists memo hmemo fuel t1 t2 memo' h1 h2 hrun v hv w hw hlv hlw i a b ha hb
  have hder : (comparableSearch env).Derives (t1, t2) () :=
    (StrictSearch.eval_right hmemo hrun ()).mp rfl
  have hcomparable := comparable_of_derives hx hkeeps hT hlists hder h1 h2 v hv w hw
  exact hcomparable.members hlv hlw ha hb

end Sound

/-! ## Arrays of ints -/

/-- Values up to their basic types, with lists of them. -/
inductive Item where
  | basic (code : BasicTypeCode)
  | list (members : List Item)

def Item.values : ListValues Item where
  code
    | .basic code => code
    | .list _ => BT_LIST
  members
    | .basic _ => []
    | .list members => members

def intArrayAtom : Atom := arrayAtom 0 (.bits INT)

def intArrayType : SemType := listType (.node intArrayAtom (.leaf true) (.leaf false) (.leaf false))

/-- A bit set has the values of its basic types; the other types are read as arrays of ints. -/
def itemDen : SemType → Set Item
  | .bits b => {v | b.getLsbD (Item.values.code v).val = true}
  | .complex _ => {v | ∃ members : List Item, v = .list members ∧
      (members.length : Int) ≤ intMaxValue + 1 ∧ ∀ a ∈ members, Item.values.code a = BT_INT}

/-! ### The operations on them -/

theorem combineRanges_left : combineRanges [⟨0, intMaxValue⟩] [] = [⟨⟨0, intMaxValue⟩, some 0, none⟩] := by
  unfold combineRanges
  rw [combineRangesLoop]
  simp [Cursor.skip, skipBefore, Cursor.nextBoundary, nextBoundary, intMaxValue, intMinValue, combinedAt,
    Cursor.within, lastBefore]
  rw [combineRangesLoop]
  simp [Cursor.skip, skipBefore, Cursor.nextBoundary, nextBoundary, intMaxValue, combinedAt, Cursor.within,
    lastBefore]

theorem combineRanges_both : combineRanges [⟨0, intMaxValue⟩] [⟨0, intMaxValue⟩] =
    [⟨⟨0, intMaxValue⟩, some 0, some 0⟩] := by
  unfold combineRanges
  rw [combineRangesLoop]
  simp [Cursor.skip, skipBefore, Cursor.nextBoundary, nextBoundary, intMaxValue, intMinValue, combinedAt,
    Cursor.within, lastBefore]
  rw [combineRangesLoop]
  simp [Cursor.skip, skipBefore, Cursor.nextBoundary, nextBoundary, intMaxValue, combinedAt, Cursor.within,
    lastBefore]

theorem distinctRanges_nil : distinctRanges [] [] = [] := by
  unfold distinctRanges combineRanges
  rw [combineRangesLoop]
  rfl

theorem unionBits_list : ((0 ||| basicType BT_LIST) ||| (0 ||| basicType BT_LIST)) &&&
      ~~~((0 : BasicTypeBitSet) ||| 0) = basicType BT_LIST ∧
    (0 : BasicTypeBitSet) ||| 0 = 0 ∧ basicType BT_LIST ≠ 0 := by
  decide

theorem diffBits_nil : ((0 ||| (0 ||| basicType BT_LIST)) &&& ~~~NIL) &&&
      ~~~((0 : BasicTypeBitSet) &&& ~~~(NIL ||| 0)) = basicType BT_LIST ∧
    (0 : BasicTypeBitSet) &&& ~~~(NIL ||| 0) = 0 ∧ basicType BT_LIST ≠ 0 ∧ NIL ≠ VT_MASK := by
  decide

/-- The basic types of a union of arrays and `int`. -/
theorem unionBits_int : (0 ||| basicType BT_LIST ||| 0) &&& ~~~(0 ||| INT) = basicType BT_LIST ∧
    (0 ||| (0 ||| basicType BT_LIST)) &&& ~~~(INT ||| 0) = basicType BT_LIST ∧
    INT ||| 0 = INT ∧ 0 ||| INT = INT ∧ basicType BT_LIST ≠ 0 ∧ INT ≠ 0 := by
  decide

theorem diffBits_int : ((INT ||| (0 ||| basicType BT_LIST)) &&& ~~~NIL) &&&
      ~~~(INT &&& ~~~(NIL ||| 0)) = basicType BT_LIST ∧ INT &&& ~~~(NIL ||| 0) = INT := by
  decide

theorem subtypePairIterator_list (all b : BasicTypeBitSet) (d : ProperSubtypeData) :
    subtypePairIterator (.complex (createComplexSemType all [(BT_LIST, d)])) (.bits b)
      (basicType BT_LIST) = some [(BT_LIST, some d, none)] := by
  show (do
    let u1 ← unpackComplexSemType (createComplexSemType all [(BT_LIST, d)])
    return subtypePairs (basicType BT_LIST) u1 []) = _
  rw [unpack_single]
  exact congrArg some (subtypePairs_left BT_LIST d)

theorem subtypePairs_right (code : BasicTypeCode) (d : ProperSubtypeData) :
    subtypePairs (basicType code) [] [(code, d)] = [(code, none, some d)] := by
  rw [subtypePairs]
  simp only [List.filter_cons, includes_self]
  rfl

section Operations

variable [BddIdentity]

theorem union_list {d1 d2 d : ProperSubtypeData} (h : (ops BT_LIST).union d1 d2 = some (.proper d)) :
    union ops (basicSubtype BT_LIST d1) (basicSubtype BT_LIST d2) = some (basicSubtype BT_LIST d) := by
  obtain ⟨hsome, hall, hne⟩ := unionBits_list
  have hpairs : subtypePairIterator (basicSubtype BT_LIST d1) (basicSubtype BT_LIST d2)
      (basicType BT_LIST) = some [(BT_LIST, some d1, some d2)] := by
    show (do
      let u1 ← unpackComplexSemType (createComplexSemType 0 [(BT_LIST, d1)])
      let u2 ← unpackComplexSemType (createComplexSemType 0 [(BT_LIST, d2)])
      return subtypePairs (basicType BT_LIST) u1 u2) = _
    rw [unpack_single, unpack_single]
    exact congrArg some (subtypePairs_single BT_LIST d1 d2)
  have hloop : unionLoop ops [(BT_LIST, some d1, some d2)] (0, []) = some (0, [(BT_LIST, d)]) := by
    have hdata : unionData ops BT_LIST (some d1) (some d2) = some (.proper d) := h
    unfold unionLoop
    rw [hdata]
    rfl
  show unionMerge ops (basicSubtype BT_LIST d1) (basicSubtype BT_LIST d2) 0 (0 ||| basicType BT_LIST)
    0 (0 ||| basicType BT_LIST) = _
  unfold unionMerge
  dsimp only
  rw [hsome, hall, if_neg hne, hpairs]
  show (do
    let result ← unionLoop ops [(BT_LIST, some d1, some d2)] (0, [])
    return finishSemType result) = _
  rw [hloop]
  rfl

theorem diff_list_nil (d : ProperSubtypeData) :
    diff ops (basicSubtype BT_LIST d) (.bits NIL) = some (basicSubtype BT_LIST d) := by
  obtain ⟨hsome, hall, hne, hmask⟩ := diffBits_nil
  show (if NIL = VT_MASK then some (SemTypeOf.bits 0) else
    diffMerge ops (.complex (createComplexSemType 0 [(BT_LIST, d)])) (.bits NIL) 0
      (0 ||| basicType BT_LIST) NIL 0) = _
  rw [if_neg hmask]
  unfold diffMerge
  dsimp only
  rw [hsome, hall, if_neg hne, subtypePairIterator_list]
  rfl

theorem union_list_int (d : ProperSubtypeData) :
    union ops (basicSubtype BT_LIST d) (.bits INT) =
      some (.complex (createComplexSemType INT [(BT_LIST, d)])) := by
  obtain ⟨hsome, _, _, hall, hne, hint⟩ := unionBits_int
  show (if INT = 0 then some (basicSubtype BT_LIST d) else
    unionMerge ops (basicSubtype BT_LIST d) (.bits INT) 0 (0 ||| basicType BT_LIST) INT 0) = _
  rw [if_neg hint]
  unfold unionMerge
  dsimp only
  rw [hsome, hall, if_neg hne]
  have hpairs := subtypePairIterator_list 0 INT d
  unfold basicSubtype
  rw [hpairs]
  rfl

theorem union_int_list (d : ProperSubtypeData) :
    union ops (.bits INT) (basicSubtype BT_LIST d) =
      some (.complex (createComplexSemType INT [(BT_LIST, d)])) := by
  obtain ⟨_, hsome, hall, _, hne, hint⟩ := unionBits_int
  show (if INT = 0 then some (basicSubtype BT_LIST d) else
    unionMerge ops (.bits INT) (basicSubtype BT_LIST d) INT 0 0 (0 ||| basicType BT_LIST)) = _
  rw [if_neg hint]
  unfold unionMerge
  dsimp only
  rw [hsome, hall, if_neg hne]
  have hpairs : subtypePairIterator (.bits INT) (basicSubtype BT_LIST d) (basicType BT_LIST) =
      some [(BT_LIST, none, some d)] := by
    show (do
      let u2 ← unpackComplexSemType (createComplexSemType 0 [(BT_LIST, d)])
      return subtypePairs (basicType BT_LIST) [] u2) = _
    rw [unpack_single]
    exact congrArg some (subtypePairs_right BT_LIST d)
  rw [hpairs]
  rfl

theorem diff_list_int_nil (d : ProperSubtypeData) :
    diff ops (.complex (createComplexSemType INT [(BT_LIST, d)])) (.bits NIL) =
      some (.complex (createComplexSemType INT [(BT_LIST, d)])) := by
  obtain ⟨hsome, hall⟩ := diffBits_int
  obtain ⟨_, _, _, _, hne, _⟩ := unionBits_int
  show (if NIL = VT_MASK then some (SemTypeOf.bits 0) else
    diffMerge ops (.complex (createComplexSemType INT [(BT_LIST, d)])) (.bits NIL) INT
      (0 ||| basicType BT_LIST) NIL 0) = _
  rw [if_neg (by decide)]
  unfold diffMerge
  dsimp only
  rw [hsome, hall, if_neg hne, subtypePairIterator_list]
  rfl

end Operations

/-- The types that are compared. -/
def IntArrayOrInt (t : SemType) : Prop := t = intArrayType ∨ t = .bits INT

theorem itemDen_bits (b : BasicTypeBitSet) :
    itemDen (.bits b) = {v | b.getLsbD (Item.values.code v).val = true} := rfl

theorem code_of_mem_intArray {v : Item} (h : v ∈ itemDen intArrayType) : Item.values.code v = BT_LIST := by
  obtain ⟨members, rfl, _⟩ := h
  rfl

section Arrays

variable [BddIdentity]

theorem listMemberTypes_item : ListMemberTypes itemDen IsBits IsBits :=
  listMemberTypes_of_code Item.values.code itemDen_bits

theorem over_intArray {env : Env} {t : SemType} (h : IntArrayOrInt t) :
    ListTypeOver IsBits env t ∧ RangesCovered itemDen env t := by
  rcases h with rfl | rfl
  · refine ⟨⟨_, listBdd_listType _, ⟨_, listAtomType_arrayAtom env 0 _, over_array (isBits INT)⟩, trivial,
      trivial, trivial⟩, fun c b _ hb l i _ hi _ => ?_⟩
    rw [show listBdd intArrayType = _ from listBdd_listType _] at hb
    cases hb
    have hint : Item.basic BT_INT ∈ itemDen (.bits INT) := show INT.getLsbD BT_INT.val = true by decide
    have hval : Item.basic BT_INT ∈ itemDen (.bits VAL) := show VAL.getLsbD BT_INT.val = true by decide
    exact .inl ⟨rfl, .inl (hasMemberAt_arrayAtom listMemberTypes_item (isBits INT) hint hval hi)⟩
  · exact ⟨⟨_, rfl, trivial⟩, fun c b hc => (by cases hc)⟩

theorem atomRanges_intArray : listAtomicTypeAllMemberTypesInnerVal ⟨⟨[], 0⟩, cellOf 0 (.bits INT)⟩ =
    some ([⟨0, intMaxValue⟩], [.bits INT]) := by
  have hcell : cellInner (cellOf 0 (.bits INT)) = some (.bits INT) := cellInner_bits 0 INT
  unfold listAtomicTypeAllMemberTypesInnerVal cellInnerVal
  dsimp only
  rw [hcell]
  rfl

/-- One range, with the type `int`. -/
theorem listAllMemberTypesInner_intArray (env : Env) :
    listAllMemberTypesInner env intArrayType = some ([⟨0, intMaxValue⟩], [.bits INT]) := by
  have hfirst : distinctRanges [⟨0, intMaxValue⟩] [] = [⟨0, intMaxValue⟩] := by
    unfold distinctRanges
    rw [combineRanges_left]
    rfl
  have hranges : bddListAllRanges env (.node intArrayAtom (.leaf true) (.leaf false) (.leaf false)) [] =
      some [⟨0, intMaxValue⟩] := by
    show (do
      let (atomRanges, _) ← listAtomicTypeAllMemberTypesInnerVal ⟨⟨[], 0⟩, cellOf 0 (.bits INT)⟩
      let l ← some (distinctRanges atomRanges [])
      let m ← some []
      let r ← some []
      some (distinctRanges l (distinctRanges m r))) = _
    rw [atomRanges_intArray]
    show some (distinctRanges (distinctRanges [⟨0, intMaxValue⟩] []) (distinctRanges [] [])) = _
    rw [hfirst, distinctRanges_nil, hfirst]
  have hb : listBdd (.complex (createComplexSemType 0 [(BT_LIST, ProperSubtypeData.bddNode intArrayAtom
      (.leaf true) (.leaf false) (.leaf false))])) =
      some (.node intArrayAtom (.leaf true) (.leaf false) (.leaf false)) :=
    listBdd_listType (.node intArrayAtom (.leaf true) (.leaf false) (.leaf false))
  have hmember : listMemberTypeInnerVal env intArrayType (intConst 0) = some (.bits INT) := by
    refine (listMemberTypeInnerVal_intConst hb 0).trans ?_
    have hsingle : env.listAtomMemberType (.ranges [⟨(0 : Nat), (0 : Nat)⟩]) intArrayAtom =
        some (.bits INT) := listAtomMemberType_single rfl rfl
    have hleaf : ∀ accum, bddMemberType (env.listAtomMemberType (.ranges [⟨(0 : Nat), (0 : Nat)⟩]))
        (.leaf true) accum = some accum := fun _ => rfl
    have hnever : ∀ accum, bddMemberType (env.listAtomMemberType (.ranges [⟨(0 : Nat), (0 : Nat)⟩]))
        (.leaf false) accum = some NEVER := fun _ => rfl
    have hboth : union ops NEVER NEVER = some NEVER := rfl
    have hval : intersect ops (.bits INT) (.bits VAL) = some (.bits INT) := rfl
    exact (bddMemberType_node hsingle hval (hleaf _) (hnever _) (hnever _) hboth).trans rfl
  refine (listAllMemberTypesInner_complex hb).trans ?_
  rw [hranges]
  show rangeMemberTypes env intArrayType [⟨0, intMaxValue⟩] = _
  unfold rangeMemberTypes
  rw [hmember]
  rfl

theorem comparableTypes_intArray (hunion : union ops intArrayType intArrayType = some intArrayType) (env : Env) :
    ComparableTypes Item.values itemDen env IntArrayOrInt where
  bits t1 t2 u s h1 h2 hu hs v hv _ := by
    have hint : ∀ {v : Item}, v ∈ itemDen (.bits INT) → Item.values.code v = BT_INT := by
      intro v hv
      have hall : ∀ c : BasicTypeCode, INT.getLsbD c.val = true → c = BT_INT := by decide
      exact hall _ hv
    have hdiff : diff ops intArrayType (.bits NIL) = some intArrayType := diff_list_nil _
    have hmixed : ∀ {c : BasicTypeCode}, c = BT_LIST ∨ c = BT_INT →
        (INT ||| (0 ||| basicType BT_LIST)).getLsbD c.val = true := by
      rintro c (rfl | rfl)
      · decide
      · decide
    rcases h1 with rfl | rfl
    · rcases h2 with rfl | rfl
      · rw [hunion] at hu
        cases hu
        rw [hdiff] at hs
        cases hs
        rw [hv.elim code_of_mem_intArray code_of_mem_intArray]
        decide
      · rw [show union ops intArrayType (.bits INT) = _ from union_list_int _] at hu
        cases hu
        rw [diff_list_int_nil] at hs
        cases hs
        exact hmixed (hv.imp code_of_mem_intArray hint)
    · rcases h2 with rfl | rfl
      · rw [show union ops (.bits INT) intArrayType = _ from union_int_list _] at hu
        cases hu
        rw [diff_list_int_nil] at hs
        cases hs
        exact hmixed (hv.symm.imp code_of_mem_intArray hint)
      · cases hu
        cases hs
        rw [hv.elim hint hint]
        decide
  list t h v hv hcode := by
    rcases h with rfl | rfl
    · obtain ⟨members, rfl, hlength, hmembers⟩ := hv
      refine ⟨⟨fun a ha => ?_, _, listBdd_listType _, .inl ⟨?_, rfl⟩⟩, hlength⟩
      · have hcode := hmembers a ha
        show VAL.getLsbD (Item.values.code a).val = true
        rw [hcode]
        decide
      · refine listContains_arrayAtom fun a ha => ?_
        show INT.getLsbD (Item.values.code a).val = true
        rw [hmembers a ha]
        decide
    · have hnot : ¬ INT.getLsbD BT_LIST.val = true := by decide
      refine absurd ?_ hnot
      rw [← hcode]
      exact hv
  members t ranges types h hall ty hty := by
    rcases h with rfl | rfl
    · rw [listAllMemberTypesInner_intArray] at hall
      cases hall
      exact .inr (List.mem_singleton.mp hty)
    · have hnone : listAllMemberTypesInner env (.bits INT) = some ([], []) := rfl
      rw [hnone] at hall
      cases hall
      exact absurd hty List.not_mem_nil

end Arrays

/-- Arrays of ints are comparable with each other. -/
theorem comparable_intArray :
    let _ := BddIdentity.shared
    ∃ memo', comparable Env.init 2 intArrayType intArrayType (fun _ => none) = some (some (), memo') := by
  intro _
  have hunion : union ops intArrayType intArrayType = some intArrayType := union_list rfl
  have hdiff : diff ops intArrayType (.bits NIL) = some intArrayType := diff_list_nil _
  have hdirect : comparableSimple (intArrayType, intArrayType) = some none := by
    unfold comparableSimple
    dsimp only
    rw [hunion]
    show (do
      let semType ← diff ops intArrayType (.bits NIL)
      _) = _
    rw [hdiff]
    rfl
  have hexpand : comparableNillableList Env.init (intArrayType, intArrayType) =
      some (.all [(.bits INT, .bits INT)] fun _ => ()) := by
    unfold comparableNillableList
    dsimp only
    rw [listAllMemberTypesInner_intArray]
    show (do
      let pairs ← comparablePairs [.bits INT] [.bits INT]
        (combineRanges [⟨0, intMaxValue⟩] [⟨0, intMaxValue⟩])
      some (SearchStep.all pairs fun _ => ())) = _
    rw [combineRanges_both]
    rfl
  refine ⟨Function.update (Function.update (fun _ => none) (intArrayType, intArrayType) (some none))
    (intArrayType, intArrayType) (some (some ())), ?_⟩
  exact StrictSearch.eval_new hdirect rfl hexpand rfl

/-- The members of two arrays of ints. -/
theorem listAllMemberTypesInner_contains_intArray :
    let _ := BddIdentity.shared
    AllMembersIn itemDen Env.init intArrayType ∧
    ∃ memo', comparable Env.init 2 intArrayType intArrayType (fun _ => none) = some (some (), memo') ∧
      ∀ v ∈ itemDen intArrayType, ∀ w ∈ itemDen intArrayType, Item.values.code v = BT_LIST →
      Item.values.code w = BT_LIST → ∀ (i : Nat) a b, (Item.values.members v)[i]? = some a →
      (Item.values.members w)[i]? = some b → Item.values.Comparable a b := by
  intro _
  obtain ⟨_, hiff, hcomparable⟩ := listAllMemberTypesInner_contains_iff listMemberTypes_item
  have hexact : ExactTypes itemDen IsBits := exactTypes_of_code Item.values.code itemDen_bits
  have hkeeps : KeepsCommon itemDen (SingleVal IsBits) (.bits VAL) :=
    hexact.keepsCommon (SingleVal.type listMemberTypes_item) (isBits VAL)
  obtain ⟨hover, hcovered⟩ := over_intArray (.inl rfl) (t := intArrayType)
  obtain ⟨memo', hrun⟩ := comparable_intArray
  exact ⟨hiff.mpr hkeeps _ _ hover hcovered, memo', hrun,
    hcomparable hkeeps Item.values Env.init IntArrayOrInt
      (comparableTypes_intArray (union_list rfl) Env.init) (fun _ => over_intArray) _ .empty 2 intArrayType
      intArrayType memo' (.inl rfl) (.inl rfl) hrun⟩

/-- The lists that are not arrays of ints. -/
def notIntArray : SemType := listType (.node intArrayAtom (.leaf false) (.leaf false) (.leaf true))

/-- Their only path has no positive atom, and so no range has the index 0, where there can be a string. -/
theorem not_allMembersIn_negative :
    let _ := BddIdentity.shared
    ListOf bitsDen Env.init notIntArray [BT_STRING] ∧ ¬ AllMembersIn bitsDen Env.init notIntArray := by
  intro _
  have hb : listBdd notIntArray = some (.node intArrayAtom (.leaf false) (.leaf false) (.leaf true)) :=
    listBdd_listType _
  have hlist : ListOf bitsDen Env.init notIntArray [BT_STRING] := by
    refine ⟨fun v hv => ?_, _, hb, .inr (.inr ⟨fun hcontains => ?_, rfl⟩)⟩
    · rw [List.mem_singleton.mp hv]
      show VAL.getLsbD BT_STRING.val = true
      decide
    · obtain ⟨lt, hlt, _, hmembers⟩ := hcontains
      rw [show Env.init.listAtomType intArrayAtom = _ from listAtomType_arrayAtom _ _ _] at hlt
      cases hlt
      obtain ⟨ty, hty, hmem⟩ := hmembers 0 BT_STRING (cellOf 0 (.bits INT)) rfl rfl
      rw [cellInner_bits] at hty
      cases hty
      have hnot : ¬ INT.getLsbD BT_STRING.val = true := by decide
      exact hnot hmem
  have hranges : bddListAllRanges Env.init (.node intArrayAtom (.leaf false) (.leaf false) (.leaf true))
      [] = some [] := by
    show (do
      let (_, _) ← listAtomicTypeAllMemberTypesInnerVal ⟨⟨[], 0⟩, cellOf 0 (.bits INT)⟩
      some (distinctRanges [] (distinctRanges [] []))) = _
    rw [atomRanges_intArray, distinctRanges_nil]
    exact congrArg some distinctRanges_nil
  have hall : listAllMemberTypesInner Env.init notIntArray = some ([], []) := by
    refine (listAllMemberTypesInner_complex hb).trans ?_
    rw [hranges]
    rfl
  refine ⟨hlist, fun ⟨ranges, types, h, hmembers⟩ => ?_⟩
  rw [hall] at h
  cases h
  obtain ⟨k, r, ty, hr, _⟩ := hmembers [BT_STRING] 0 BT_STRING hlist (by decide) rfl
  cases hr

end Nballerina.Types
