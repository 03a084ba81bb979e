import Nballerina.Types.CoreExact
import Mathlib.Data.String.Basic
import Mathlib.Algebra.Order.Ring.Unbundled.Rat
import Mathlib.Data.Prod.Lex
import Mathlib.Data.Set.Finite.Basic

/-!
# Sets of values that are listed

A subtype of `string`, `float` or `decimal` is a sorted list of the values that are allowed, or of
the only ones that are not (`enumerable.bal`); a string subtype has one such list for the strings of
one character and one for the others. Union, intersection and complement turn into unions,
intersections and differences of the lists, which are merged in one pass.

`enumerableOps_exact`: the operations compute the sets, keep the lists sorted without duplicates,
and what is everything or nothing is found out, as long as the lists do not name every value there
is. There are only so many characters, floats and decimals, and no operation looks whether a list
has them all (`stringSubtypeUnion_all_chars`).
-/

namespace Nballerina.Types

open Std (TransCmp LawfulEqCmp OrientedCmp ReflCmp)

/-! ## Orders -/

section Order

variable {α : Type} [LinearOrder α]

theorem compareEnumerable_lt {a b : α} : compareEnumerable a b = .lt ↔ a < b := by
  unfold compareEnumerable
  split
  next h => simp [h]
  next => split <;> simp [*]

theorem compareEnumerable_gt {a b : α} : compareEnumerable a b = .gt ↔ b < a := by
  unfold compareEnumerable
  split
  next h => simp [h]
  next hne =>
    split
    next h => simp [h.le]
    next h => simpa using lt_of_le_of_ne (not_lt.mp h) (Ne.symm hne)

theorem compareEnumerable_eq {a b : α} : compareEnumerable a b = .eq ↔ a = b := by
  unfold compareEnumerable
  split
  next h => simp [h]
  next h => split <;> simp [h]

theorem isLE_compareEnumerable {a b : α} : (compareEnumerable a b).isLE ↔ a ≤ b := by
  rw [← not_lt, ← compareEnumerable_gt]
  cases compareEnumerable a b <;> simp

instance : TransCmp (compareEnumerable (α := α)) where
  eq_swap {a b} := by
    rcases lt_trichotomy a b with h | h | h
    · rw [compareEnumerable_lt.mpr h, compareEnumerable_gt.mpr h]
      rfl
    · rw [compareEnumerable_eq.mpr h, compareEnumerable_eq.mpr h.symm]
      rfl
    · rw [compareEnumerable_gt.mpr h, compareEnumerable_lt.mpr h]
      rfl
  isLE_trans h h' := by
    rw [isLE_compareEnumerable] at h h' ⊢
    exact h.trans h'

instance : LawfulEqCmp (compareEnumerable (α := α)) where
  compare_self := compareEnumerable_eq.mpr rfl
  eq_of_compare := compareEnumerable_eq.mp

end Order

/-- Where a float stands: its kind, then its value. -/
def FloatValue.key : FloatValue → Lex (Nat × Rat)
  | .nan => toLex (0, 0)
  | .negInfinity => toLex (1, 0)
  | .finite x => toLex (2, x)
  | .posInfinity => toLex (3, 0)

theorem compareFloat_key (a b : FloatValue) :
    compareFloat a b = compareEnumerable a.key b.key := by
  cases a <;> cases b <;>
    simp [compareFloat, compareEnumerable, FloatValue.key, Prod.Lex.toLex_lt_toLex]

theorem FloatValue.key_injective : Function.Injective FloatValue.key := by
  intro a b h
  cases a <;> cases b <;> simp_all [FloatValue.key]

instance : TransCmp compareFloat where
  eq_swap {a b} := by
    rw [compareFloat_key, compareFloat_key]
    exact OrientedCmp.eq_swap
  isLE_trans h h' := by
    rw [compareFloat_key] at h h' ⊢
    exact TransCmp.isLE_trans h h'

instance : LawfulEqCmp compareFloat where
  compare_self := by
    intro a
    rw [compareFloat_key]
    exact ReflCmp.compare_self
  eq_of_compare h := by
    rw [compareFloat_key] at h
    exact FloatValue.key_injective (LawfulEqCmp.eq_of_compare h)

/-! ## Lists -/

section Lists

variable {α : Type} {cmp : α → α → Ordering}

/-- Sorted, without duplicates. -/
def SortedBy (cmp : α → α → Ordering) (values : List α) : Prop :=
  values.Pairwise fun a b => cmp a b = .lt

variable [LawfulEqCmp cmp]

theorem mem_enumerableListUnion (v1 v2 : List α) (x : α) :
    x ∈ enumerableListUnion cmp v1 v2 ↔ x ∈ v1 ∨ x ∈ v2 := by
  fun_induction enumerableListUnion cmp v1 v2 with
  | case1 v2 => simp
  | case2 s1 v1 => simp
  | case3 s1 v1 s2 v2 heq ih =>
    have hs : s1 = s2 := LawfulEqCmp.eq_of_compare heq
    rw [List.mem_cons, ih, hs, List.mem_cons, List.mem_cons]
    grind
  | case4 s1 v1 s2 v2 _ ih =>
    rw [List.mem_cons, ih, List.mem_cons (l := v1)]
    grind
  | case5 s1 v1 s2 v2 _ ih =>
    rw [List.mem_cons, ih, List.mem_cons (l := v2)]
    grind

theorem not_lt_self (a : α) : cmp a a ≠ .lt := by
  intro hlt
  have heq : cmp a a = .eq := ReflCmp.compare_self
  rw [heq] at hlt
  cases hlt

variable [TransCmp cmp]

variable {v : List α}

omit [LawfulEqCmp cmp] in
/-- What comes before the head comes before the list. -/
theorem SortedBy.lt_of_lt_head {s1 s2 x : α} (h : SortedBy cmp (s2 :: v)) (hlt : cmp s1 s2 = .lt)
    (hx : x ∈ s2 :: v) : cmp s1 x = .lt := by
  rcases List.mem_cons.mp hx with rfl | hx
  · exact hlt
  · exact TransCmp.lt_trans hlt ((List.pairwise_cons.mp h).1 x hx)

theorem SortedBy.notMem_of_lt_head {s1 s2 : α} (h : SortedBy cmp (s2 :: v)) (hlt : cmp s1 s2 = .lt) :
    s1 ∉ s2 :: v := by
  intro hmem
  exact not_lt_self s1 (h.lt_of_lt_head hlt hmem)

omit [TransCmp cmp] in
theorem SortedBy.notMem_tail {s : α} (h : SortedBy cmp (s :: v)) : s ∉ v := by
  intro hmem
  exact not_lt_self s ((List.pairwise_cons.mp h).1 s hmem)

theorem sortedBy_enumerableListUnion (v1 v2 : List α) (h1 : SortedBy cmp v1)
    (h2 : SortedBy cmp v2) : SortedBy cmp (enumerableListUnion cmp v1 v2) := by
  fun_induction enumerableListUnion cmp v1 v2 with
  | case1 v2 => exact h2
  | case2 s1 v1 => exact h1
  | case3 s1 v1 s2 v2 heq ih =>
    have hs : s1 = s2 := LawfulEqCmp.eq_of_compare heq
    refine List.pairwise_cons.mpr ⟨fun x hx => ?_, ih h1.of_cons h2.of_cons⟩
    rcases (mem_enumerableListUnion v1 v2 x).mp hx with hx | hx
    · exact (List.pairwise_cons.mp h1).1 x hx
    · rw [hs]
      exact (List.pairwise_cons.mp h2).1 x hx
  | case4 s1 v1 s2 v2 hlt ih =>
    refine List.pairwise_cons.mpr ⟨fun x hx => ?_, ih h1.of_cons h2⟩
    rcases (mem_enumerableListUnion v1 (s2 :: v2) x).mp hx with hx | hx
    · exact (List.pairwise_cons.mp h1).1 x hx
    · exact h2.lt_of_lt_head hlt hx
  | case5 s1 v1 s2 v2 hgt ih =>
    refine List.pairwise_cons.mpr ⟨fun x hx => ?_, ih h1 h2.of_cons⟩
    rcases (mem_enumerableListUnion (s1 :: v1) v2 x).mp hx with hx | hx
    · exact h1.lt_of_lt_head (OrientedCmp.gt_iff_lt.mp hgt) hx
    · exact (List.pairwise_cons.mp h2).1 x hx

omit [LawfulEqCmp cmp] [TransCmp cmp] in
theorem enumerableListIntersect_sublist (v1 v2 : List α) :
    (enumerableListIntersect cmp v1 v2).Sublist v1 := by
  fun_induction enumerableListIntersect cmp v1 v2 with
  | case1 => exact List.Sublist.refl _
  | case2 => exact List.nil_sublist _
  | case3 _ _ _ _ _ ih => exact ih.cons_cons _
  | case4 _ _ _ _ _ ih => exact ih.cons _
  | case5 _ _ _ _ _ ih => exact ih

theorem mem_enumerableListIntersect (v1 v2 : List α) (h1 : SortedBy cmp v1) (h2 : SortedBy cmp v2)
    (x : α) : x ∈ enumerableListIntersect cmp v1 v2 ↔ x ∈ v1 ∧ x ∈ v2 := by
  fun_induction enumerableListIntersect cmp v1 v2 with
  | case1 => simp
  | case2 => simp
  | case3 s1 v1 s2 v2 heq ih =>
    have hs : s1 = s2 := LawfulEqCmp.eq_of_compare heq
    have hnot1 := h1.notMem_tail
    have hnot2 := h2.notMem_tail
    rw [List.mem_cons, ih h1.of_cons h2.of_cons, List.mem_cons, List.mem_cons, ← hs]
    grind
  | case4 s1 v1 s2 v2 hlt ih =>
    have hnot := h2.notMem_of_lt_head hlt
    rw [ih h1.of_cons h2]
    grind
  | case5 s1 v1 s2 v2 hgt ih =>
    have hnot := h1.notMem_of_lt_head (OrientedCmp.gt_iff_lt.mp hgt)
    rw [ih h1 h2.of_cons]
    grind

omit [LawfulEqCmp cmp] [TransCmp cmp] in
theorem enumerableListDiff_sublist (v1 v2 : List α) :
    (enumerableListDiff cmp v1 v2).Sublist v1 := by
  fun_induction enumerableListDiff cmp v1 v2 with
  | case1 => exact List.Sublist.refl _
  | case2 => exact List.Sublist.refl _
  | case3 _ _ _ _ _ ih => exact ih.cons _
  | case4 _ _ _ _ _ ih => exact ih.cons_cons _
  | case5 _ _ _ _ _ ih => exact ih

theorem mem_enumerableListDiff (v1 v2 : List α) (h1 : SortedBy cmp v1) (h2 : SortedBy cmp v2)
    (x : α) : x ∈ enumerableListDiff cmp v1 v2 ↔ x ∈ v1 ∧ x ∉ v2 := by
  fun_induction enumerableListDiff cmp v1 v2 with
  | case1 => simp
  | case2 => simp
  | case3 s1 v1 s2 v2 heq ih =>
    have hs : s1 = s2 := LawfulEqCmp.eq_of_compare heq
    have hnot1 := h1.notMem_tail
    rw [ih h1.of_cons h2.of_cons, List.mem_cons, List.mem_cons, ← hs]
    grind
  | case4 s1 v1 s2 v2 hlt ih =>
    have hnot := h2.notMem_of_lt_head hlt
    rw [List.mem_cons, ih h1.of_cons h2]
    grind
  | case5 s1 v1 s2 v2 hgt ih =>
    have hnot := h1.notMem_of_lt_head (OrientedCmp.gt_iff_lt.mp hgt)
    rw [ih h1 h2.of_cons]
    grind

omit [TransCmp cmp] in
theorem SortedBy.nodup (h : SortedBy cmp v) : v.Nodup := by
  refine h.imp fun {a b} hlt heq => ?_
  rw [heq] at hlt
  exact not_lt_self b hlt

/-- A sorted list is determined by its members. -/
theorem SortedBy.eq_of_mem_iff {v1 v2 : List α} (h1 : SortedBy cmp v1) (h2 : SortedBy cmp v2)
    (hmem : ∀ x, x ∈ v1 ↔ x ∈ v2) : v1 = v2 := by
  refine List.Perm.eq_of_pairwise (fun a b _ _ hab hba => ?_) h1 h2
    ((List.perm_ext_iff_of_nodup h1.nodup h2.nodup).mpr hmem)
  exact absurd (TransCmp.lt_trans hab hba) (not_lt_self a)

end Lists

/-! ## One list -/

section Subtype

variable {α : Type} {cmp : α → α → Ordering} {U : Set α} {t1 t2 : EnumerableSubtype α}

/-- The values that are allowed. -/
def EnumerableSubtype.den (t : EnumerableSubtype α) : Set α :=
  {v | v ∈ t.values ↔ t.allowed = true}

/-- The values are sorted and belong to the basic type. -/
structure EnumerableSubtype.Valid (cmp : α → α → Ordering) (U : Set α) (t : EnumerableSubtype α) :
    Prop where
  sorted : SortedBy cmp t.values
  within : ∀ v ∈ t.values, v ∈ U

theorem EnumerableSubtype.mem_den {t : EnumerableSubtype α} {v : α} :
    v ∈ t.den ↔ (v ∈ t.values ↔ t.allowed = true) := Iff.rfl

theorem EnumerableSubtype.Valid.complement {t : EnumerableSubtype α} (h : t.Valid cmp U) :
    (⟨!t.allowed, t.values⟩ : EnumerableSubtype α).Valid cmp U := ⟨h.sorted, h.within⟩

theorem den_complement (t : EnumerableSubtype α) :
    (⟨!t.allowed, t.values⟩ : EnumerableSubtype α).den = t.denᶜ := by
  ext v
  rw [Set.mem_compl_iff, EnumerableSubtype.mem_den, EnumerableSubtype.mem_den]
  cases t.allowed <;> simp

variable [LawfulEqCmp cmp] [TransCmp cmp]

theorem enumerableSubtypeUnion_exact (h1 : t1.Valid cmp U) (h2 : t2.Valid cmp U) :
    (enumerableSubtypeUnion cmp t1 t2).Valid cmp U ∧
      (enumerableSubtypeUnion cmp t1 t2).den = t1.den ∪ t2.den := by
  obtain ⟨a1, v1⟩ := t1
  obtain ⟨a2, v2⟩ := t2
  have hinter := mem_enumerableListIntersect v1 v2 h1.sorted h2.sorted
  have hdiff1 := mem_enumerableListDiff v1 v2 h1.sorted h2.sorted
  have hdiff2 := mem_enumerableListDiff v2 v1 h2.sorted h1.sorted
  cases a1 with
  | true =>
    cases a2 with
    | true =>
      refine ⟨⟨sortedBy_enumerableListUnion v1 v2 h1.sorted h2.sorted, fun v hv => ?_⟩, ?_⟩
      · rcases (mem_enumerableListUnion v1 v2 v).mp hv with hv | hv
        · exact h1.within v hv
        · exact h2.within v hv
      · ext v
        simp [EnumerableSubtype.den, enumerableSubtypeUnion, mem_enumerableListUnion]
    | false =>
      have hsub : (enumerableListDiff cmp v2 v1).Sublist v2 := enumerableListDiff_sublist v2 v1
      refine ⟨⟨h2.sorted.sublist hsub, fun v hv => h2.within v (hsub.subset hv)⟩, ?_⟩
      ext v
      simp [EnumerableSubtype.den, enumerableSubtypeUnion, hdiff2]
      tauto
  | false =>
    cases a2 with
    | true =>
      have hsub : (enumerableListDiff cmp v1 v2).Sublist v1 := enumerableListDiff_sublist v1 v2
      refine ⟨⟨h1.sorted.sublist hsub, fun v hv => h1.within v (hsub.subset hv)⟩, ?_⟩
      ext v
      simp [EnumerableSubtype.den, enumerableSubtypeUnion, hdiff1]
      tauto
    | false =>
      have hsub : (enumerableListIntersect cmp v1 v2).Sublist v1 :=
        enumerableListIntersect_sublist v1 v2
      refine ⟨⟨h1.sorted.sublist hsub, fun v hv => h1.within v (hsub.subset hv)⟩, ?_⟩
      ext v
      simp [EnumerableSubtype.den, enumerableSubtypeUnion, hinter]
      tauto

omit [LawfulEqCmp cmp] [TransCmp cmp] in
/-- An intersection is what the union of the complements leaves. -/
theorem enumerableSubtypeIntersect_eq (t1 t2 : EnumerableSubtype α) :
    enumerableSubtypeIntersect cmp t1 t2 =
      ⟨!(enumerableSubtypeUnion cmp ⟨!t1.allowed, t1.values⟩ ⟨!t2.allowed, t2.values⟩).allowed,
        (enumerableSubtypeUnion cmp ⟨!t1.allowed, t1.values⟩ ⟨!t2.allowed, t2.values⟩).values⟩ := by
  obtain ⟨a1, v1⟩ := t1
  obtain ⟨a2, v2⟩ := t2
  cases a1 <;> cases a2 <;> rfl

theorem enumerableSubtypeIntersect_exact (h1 : t1.Valid cmp U) (h2 : t2.Valid cmp U) :
    (enumerableSubtypeIntersect cmp t1 t2).Valid cmp U ∧
      (enumerableSubtypeIntersect cmp t1 t2).den = t1.den ∩ t2.den := by
  obtain ⟨hvalid, hden⟩ := enumerableSubtypeUnion_exact h1.complement h2.complement
  rw [enumerableSubtypeIntersect_eq]
  refine ⟨hvalid.complement, ?_⟩
  rw [den_complement, hden, den_complement, den_complement, Set.compl_union, compl_compl, compl_compl]

/-- What is listed and whether it is allowed can be told from the set, if some value is listed in
neither. -/
theorem enumerableSubtype_canonical (h1 : t1.Valid cmp U) (h2 : t2.Valid cmp U)
    (hunlisted : ∃ w ∈ U, w ∉ t1.values ∧ w ∉ t2.values) (hden : U ∩ t1.den = U ∩ t2.den) :
    t1 = t2 := by
  have hiff : ∀ v ∈ U, (v ∈ t1.values ↔ t1.allowed = true) ↔ (v ∈ t2.values ↔ t2.allowed = true) := by
    intro v hv
    have := Set.ext_iff.mp hden v
    simpa [hv, EnumerableSubtype.mem_den] using this
  obtain ⟨w, hw, hw1, hw2⟩ := hunlisted
  have hallowed : t1.allowed = t2.allowed := by
    have := hiff w hw
    simp only [hw1, hw2, false_iff, Bool.not_eq_true] at this
    cases h1 : t1.allowed <;> cases h2 : t2.allowed <;> simp [h1, h2] at this ⊢
  have hvalues : t1.values = t2.values := by
    refine h1.sorted.eq_of_mem_iff h2.sorted fun v => ?_
    by_cases hv : v ∈ U
    · have := hiff v hv
      rw [hallowed] at this
      by_cases ha : t2.allowed = true
      · simpa [ha] using this
      · simp only [ha, iff_false, Bool.false_eq_true] at this
        exact not_iff_not.mp this
    · exact iff_of_false (fun hmem => hv (h1.within v hmem)) fun hmem => hv (h2.within v hmem)
  obtain ⟨a1, v1⟩ := t1
  obtain ⟨a2, v2⟩ := t2
  cases hallowed
  cases hvalues
  rfl

end Subtype

/-! ## Subtype data -/

/-- The operations on data of a basic type with the values `U`: they compute the sets, and unless
every value of `E` is listed, data that denote the same set are the same data. In particular
nothing is `false` and everything is `true`. -/
structure ExactEnumerable {α : Type} (U E : Set α) (den listed : SubtypeData → Set α)
    (valid : SubtypeData → Prop)
    (union intersect : ProperSubtypeData → ProperSubtypeData → Option SubtypeData)
    (complement : ProperSubtypeData → Option SubtypeData) : Prop where
  union : ∀ {d1 d2}, valid (.proper d1) → valid (.proper d2) →
    ∃ r, union d1 d2 = some r ∧ valid r ∧ den r = den (.proper d1) ∪ den (.proper d2)
  intersect : ∀ {d1 d2}, valid (.proper d1) → valid (.proper d2) →
    ∃ r, intersect d1 d2 = some r ∧ valid r ∧ den r = den (.proper d1) ∩ den (.proper d2)
  complement : ∀ {d}, valid (.proper d) →
    ∃ r, complement d = some r ∧ valid r ∧ den r = U \ den (.proper d)
  canonical : ∀ {r r'}, valid r → valid r' → ¬ E ⊆ listed r ∪ listed r' → (den r = den r' ↔ r = r')
  nothing : ∀ {r}, valid r → ¬ E ⊆ listed r → (den r = ∅ ↔ r = .bool false)
  everything : ∀ {r}, valid r → ¬ E ⊆ listed r → (den r = U ↔ r = .bool true)

section One

variable {α : Type} {cmp : α → α → Ordering} (U : Set α)
  (unwrap : ProperSubtypeData → Option (EnumerableSubtype α))

/-- The list of the data; `true` and `false` have an empty one. -/
def listOf : SubtypeData → Option (EnumerableSubtype α)
  | .bool b => some ⟨!b, []⟩
  | .proper d => unwrap d

def listDen (r : SubtypeData) : Set α := {v | v ∈ U ∧ ∃ t, listOf unwrap r = some t ∧ v ∈ t.den}

def listListed (r : SubtypeData) : Set α := {v | ∃ t, listOf unwrap r = some t ∧ v ∈ t.values}

/-- A proper list is not empty. -/
def ListValid (cmp : α → α → Ordering) (r : SubtypeData) : Prop :=
  ∃ t, listOf unwrap r = some t ∧ t.Valid cmp U ∧ (t.values = [] → ∃ b, r = .bool b)

variable {U} {unwrap}

theorem listDen_eq {r : SubtypeData} {t : EnumerableSubtype α} (h : listOf unwrap r = some t) :
    listDen U unwrap r = U ∩ t.den := by
  ext v
  refine and_congr_right fun _ => ⟨fun ⟨t', ht', hv⟩ => ?_, fun hv => ⟨t, h, hv⟩⟩
  rw [h] at ht'
  cases ht'
  exact hv

variable {wrap : EnumerableSubtype α → ProperSubtypeData}

theorem listOf_create (hwrap : ∀ t, unwrap (wrap t) = some t) (t : EnumerableSubtype α) :
    listOf unwrap (createEnumerableSubtype wrap t) = some t := by
  obtain ⟨allowed, values⟩ := t
  cases values with
  | nil => cases allowed <;> rfl
  | cons v values => exact hwrap _

theorem listValid_create (hwrap : ∀ t, unwrap (wrap t) = some t) {t : EnumerableSubtype α}
    (h : t.Valid cmp U) :
    ListValid U unwrap cmp (createEnumerableSubtype wrap t) := by
  refine ⟨t, listOf_create hwrap t, h, fun hnil => ⟨!t.allowed, ?_⟩⟩
  unfold createEnumerableSubtype
  rw [hnil]
  rfl

theorem listValid_bool (b : Bool) : ListValid U unwrap cmp (.bool b) :=
  ⟨_, rfl, ⟨List.Pairwise.nil, fun _ hv => absurd hv List.not_mem_nil⟩, fun _ => ⟨b, rfl⟩⟩

theorem listDen_bool (b : Bool) : listDen U unwrap (.bool b) = if b then U else ∅ := by
  rw [listDen_eq rfl]
  ext v
  cases b <;> simp [EnumerableSubtype.den]

theorem listListed_bool (b : Bool) : listListed unwrap (.bool b) = ∅ := by
  refine Set.eq_empty_of_forall_notMem fun v hv => ?_
  obtain ⟨t, ht, hv⟩ := hv
  cases ht
  cases hv

variable [LawfulEqCmp cmp] [TransCmp cmp]

theorem list_canonical (hunwrap : ∀ d t, unwrap d = some t → d = wrap t) {r r' : SubtypeData}
    (h : ListValid U unwrap cmp r) (h' : ListValid U unwrap cmp r')
    (hunlisted : ¬ U ⊆ listListed unwrap r ∪ listListed unwrap r')
    (hden : listDen U unwrap r = listDen U unwrap r') : r = r' := by
  obtain ⟨t, ht, hvalid, hnil⟩ := h
  obtain ⟨t', ht', hvalid', hnil'⟩ := h'
  rw [listDen_eq ht, listDen_eq ht'] at hden
  obtain ⟨w, hw, hnot⟩ := Set.not_subset.mp hunlisted
  have heq : t = t' := enumerableSubtype_canonical hvalid hvalid'
    ⟨w, hw, fun hmem => hnot (Or.inl ⟨t, ht, hmem⟩), fun hmem => hnot (Or.inr ⟨t', ht', hmem⟩)⟩ hden
  rw [← heq] at ht' hnil'
  cases r with
  | bool b =>
    cases ht
    obtain ⟨b', hb'⟩ := hnil' rfl
    rw [hb'] at ht' ⊢
    have hflag := congrArg EnumerableSubtype.allowed (Option.some.inj ht')
    cases b <;> cases b' <;> simp at hflag ⊢
  | proper d =>
    cases r' with
    | bool b' =>
      have hempty : t.values = [] := congrArg EnumerableSubtype.values (Option.some.inj ht').symm
      obtain ⟨b, hb⟩ := hnil hempty
      cases hb
    | proper d' => rw [hunwrap d t ht, hunwrap d' t ht']

/-- Data that is one list. -/
theorem exactEnumerable_list (hwrap : ∀ t, unwrap (wrap t) = some t)
    (hunwrap : ∀ d t, unwrap d = some t → d = wrap t)
    {union intersect : ProperSubtypeData → ProperSubtypeData → Option SubtypeData}
    {complement : ProperSubtypeData → Option SubtypeData} (hunion : ∀ t1 t2, union (wrap t1) (wrap t2) =
      some (createEnumerableSubtype wrap (enumerableSubtypeUnion cmp t1 t2)))
    (hintersect : ∀ t1 t2, intersect (wrap t1) (wrap t2) =
      some (createEnumerableSubtype wrap (enumerableSubtypeIntersect cmp t1 t2)))
    (hcomplement : ∀ t, complement (wrap t) =
      some (createEnumerableSubtype wrap ⟨!t.allowed, t.values⟩)) :
    ExactEnumerable U U (listDen U unwrap) (listListed unwrap) (ListValid U unwrap cmp) union intersect
      complement where
  union := by
    intro d1 d2 h1 h2
    obtain ⟨t1, ht1, hvalid1, _⟩ := h1
    obtain ⟨t2, ht2, hvalid2, _⟩ := h2
    obtain ⟨hvalid, hden⟩ := enumerableSubtypeUnion_exact hvalid1 hvalid2
    refine ⟨_, ?_, listValid_create hwrap hvalid, ?_⟩
    · rw [hunwrap d1 t1 ht1, hunwrap d2 t2 ht2]
      exact hunion t1 t2
    · rw [listDen_eq (listOf_create hwrap _), listDen_eq ht1, listDen_eq ht2, hden,
        Set.inter_union_distrib_left]
  intersect := by
    intro d1 d2 h1 h2
    obtain ⟨t1, ht1, hvalid1, _⟩ := h1
    obtain ⟨t2, ht2, hvalid2, _⟩ := h2
    obtain ⟨hvalid, hden⟩ := enumerableSubtypeIntersect_exact hvalid1 hvalid2
    refine ⟨_, ?_, listValid_create hwrap hvalid, ?_⟩
    · rw [hunwrap d1 t1 ht1, hunwrap d2 t2 ht2]
      exact hintersect t1 t2
    · rw [listDen_eq (listOf_create hwrap _), listDen_eq ht1, listDen_eq ht2, hden,
        Set.inter_inter_distrib_left]
  complement := by
    intro d h
    obtain ⟨t, ht, hvalid, _⟩ := h
    refine ⟨_, ?_, listValid_create hwrap hvalid.complement, ?_⟩
    · rw [hunwrap d t ht]
      exact hcomplement t
    · rw [listDen_eq (listOf_create hwrap _), listDen_eq ht, den_complement, Set.sdiff_self_inter,
        Set.sdiff_eq]
  canonical h h' hunlisted := ⟨list_canonical hunwrap h h' hunlisted, fun heq => by rw [heq]⟩
  nothing := by
    intro r h hunlisted
    refine ⟨fun hden => ?_, fun heq => ?_⟩
    · refine list_canonical hunwrap h (listValid_bool false) ?_ (hden.trans (listDen_bool false).symm)
      rw [listListed_bool, Set.union_empty]
      exact hunlisted
    · rw [heq, listDen_bool]
      rfl
  everything := by
    intro r h hunlisted
    refine ⟨fun hden => ?_, fun heq => ?_⟩
    · refine list_canonical hunwrap h (listValid_bool true) ?_ (hden.trans (listDen_bool true).symm)
      rw [listListed_bool, Set.union_empty]
      exact hunlisted
    · rw [heq, listDen_bool]
      rfl

end One

/-! ## Strings -/

/-- The strings of one character. -/
def Chars : Set String := {s | s.length = 1}

def StringSubtype.den (d : StringSubtype) : Set String :=
  Chars ∩ d.char.den ∪ Charsᶜ ∩ d.nonChar.den

structure StringSubtype.Valid (d : StringSubtype) : Prop where
  char : d.char.Valid compareEnumerable Chars
  nonChar : d.nonChar.Valid compareEnumerable Charsᶜ

/-- The lists of the data; `true` and `false` have empty ones. -/
def stringOf : SubtypeData → Option StringSubtype
  | .bool b => some ⟨⟨!b, []⟩, ⟨!b, []⟩⟩
  | .proper (.string d) => some d
  | _ => none

def stringDen (r : SubtypeData) : Set String := {v | ∃ d, stringOf r = some d ∧ v ∈ d.den}

def stringListed (r : SubtypeData) : Set String :=
  {v | ∃ d, stringOf r = some d ∧ (v ∈ d.char.values ∨ v ∈ d.nonChar.values)}

/-- Proper data does not have two empty lists with one flag. -/
def StringValid (r : SubtypeData) : Prop :=
  ∃ d, stringOf r = some d ∧ d.Valid ∧
    (d.char.values = [] → d.nonChar.values = [] → d.char.allowed = d.nonChar.allowed →
      ∃ b, r = .bool b)

theorem stringDen_eq {r : SubtypeData} {d : StringSubtype} (h : stringOf r = some d) :
    stringDen r = d.den := by
  ext v
  refine ⟨fun ⟨d', hd', hv⟩ => ?_, fun hv => ⟨d, h, hv⟩⟩
  rw [h] at hd'
  cases hd'
  exact hv

variable {d : ProperSubtypeData}

theorem eq_string_of_stringOf {t : StringSubtype} (h : stringOf (.proper d) = some t) :
    d = .string t := by
  cases d with
  | string t' =>
    cases h
    rfl
  | _ => cases h

theorem stringOf_create (char nonChar : EnumerableSubtype String) :
    stringOf (createStringSubtype char nonChar) = some ⟨char, nonChar⟩ := by
  obtain ⟨a1, v1⟩ := char
  obtain ⟨a2, v2⟩ := nonChar
  cases v1 <;> cases v2 <;> cases a1 <;> cases a2 <;> rfl

theorem stringValid_create {char nonChar : EnumerableSubtype String}
    (hchar : char.Valid compareEnumerable Chars) (hnonChar : nonChar.Valid compareEnumerable Charsᶜ) :
    StringValid (createStringSubtype char nonChar) := by
  refine ⟨⟨char, nonChar⟩, stringOf_create char nonChar, ⟨hchar, hnonChar⟩, fun h1 h2 hflag => ?_⟩
  obtain ⟨a1, v1⟩ := char
  obtain ⟨a2, v2⟩ := nonChar
  cases h1
  cases h2
  cases hflag
  cases a1
  · exact ⟨true, rfl⟩
  · exact ⟨false, rfl⟩

/-- The shortcuts of the complement are what `createStringSubtype` does anyway. -/
theorem stringSubtypeComplement_eq (d : StringSubtype) :
    stringSubtypeComplement (.string d) = some (createStringSubtype ⟨!d.char.allowed, d.char.values⟩
      ⟨!d.nonChar.allowed, d.nonChar.values⟩) := by
  obtain ⟨⟨a1, v1⟩, ⟨a2, v2⟩⟩ := d
  cases v1 <;> cases v2 <;> cases a1 <;> cases a2 <;> rfl

theorem den_union_den (a b c d : Set String) :
    Chars ∩ (a ∪ b) ∪ Charsᶜ ∩ (c ∪ d) = (Chars ∩ a ∪ Charsᶜ ∩ c) ∪ (Chars ∩ b ∪ Charsᶜ ∩ d) := by
  ext v
  simp only [Set.mem_union, Set.mem_inter_iff]
  tauto

theorem den_inter_den (a b c d : Set String) :
    Chars ∩ (a ∩ b) ∪ Charsᶜ ∩ (c ∩ d) = (Chars ∩ a ∪ Charsᶜ ∩ c) ∩ (Chars ∩ b ∪ Charsᶜ ∩ d) := by
  ext v
  simp only [Set.mem_union, Set.mem_inter_iff, Set.mem_compl_iff]
  tauto

theorem compl_den (a c : Set String) :
    Chars ∩ aᶜ ∪ Charsᶜ ∩ cᶜ = Set.univ \ (Chars ∩ a ∪ Charsᶜ ∩ c) := by
  ext v
  simp only [Set.mem_union, Set.mem_inter_iff, Set.mem_compl_iff, Set.mem_sdiff, Set.mem_univ,
    true_and]
  tauto

/-- There are strings of every length, so no list has all the longer ones. -/
theorem exists_notMem_nonChar (values : List String) : ∃ s ∈ Charsᶜ, s ∉ values := by
  have hinf : Set.Infinite (Charsᶜ) := by
    refine Set.infinite_of_injective_forall_mem
      (f := fun n : Nat => String.ofList (List.replicate (n + 2) 'a')) (fun n m h => ?_) fun n => ?_
    · have := congrArg String.length h
      simpa using this
    · simp [Chars]
  obtain ⟨s, hs, hnot⟩ := hinf.exists_notMem_finset values.toFinset
  exact ⟨s, hs, fun hmem => hnot (List.mem_toFinset.mpr hmem)⟩

theorem inter_den_of_stringDen {d d' : StringSubtype} (h : d.den = d'.den) :
    Chars ∩ d.char.den = Chars ∩ d'.char.den ∧
      Charsᶜ ∩ d.nonChar.den = Charsᶜ ∩ d'.nonChar.den := by
  have hiff := Set.ext_iff.mp h
  refine ⟨?_, ?_⟩
  · ext v
    have := hiff v
    simp only [StringSubtype.den, Set.mem_union, Set.mem_inter_iff, Set.mem_compl_iff] at this ⊢
    tauto
  · ext v
    have := hiff v
    simp only [StringSubtype.den, Set.mem_union, Set.mem_inter_iff, Set.mem_compl_iff] at this ⊢
    tauto

theorem string_canonical {r r' : SubtypeData} (h : StringValid r) (h' : StringValid r')
    (hunlisted : ¬ Chars ⊆ stringListed r ∪ stringListed r') (hden : stringDen r = stringDen r') :
    r = r' := by
  obtain ⟨d, hd, hvalid, hnil⟩ := h
  obtain ⟨d', hd', hvalid', hnil'⟩ := h'
  rw [stringDen_eq hd, stringDen_eq hd'] at hden
  obtain ⟨hdenChar, hdenNonChar⟩ := inter_den_of_stringDen hden
  obtain ⟨w, hw, hnot⟩ := Set.not_subset.mp hunlisted
  have hchar : d.char = d'.char := enumerableSubtype_canonical hvalid.char hvalid'.char
    ⟨w, hw, fun hmem => hnot (Or.inl ⟨d, hd, Or.inl hmem⟩),
      fun hmem => hnot (Or.inr ⟨d', hd', Or.inl hmem⟩)⟩ hdenChar
  have hnonChar : d.nonChar = d'.nonChar := by
    obtain ⟨v, hv, hv'⟩ := exists_notMem_nonChar (d.nonChar.values ++ d'.nonChar.values)
    refine enumerableSubtype_canonical hvalid.nonChar hvalid'.nonChar
      ⟨v, hv, fun hmem => hv' (List.mem_append_left _ hmem),
        fun hmem => hv' (List.mem_append_right _ hmem)⟩ hdenNonChar
  obtain ⟨char, nonChar⟩ := d
  obtain ⟨char', nonChar'⟩ := d'
  cases hchar
  cases hnonChar
  cases r with
  | bool b =>
    cases hd
    obtain ⟨b', hb'⟩ := hnil' rfl rfl rfl
    rw [hb'] at hd' ⊢
    have hflag := congrArg (fun d => d.char.allowed) (Option.some.inj hd')
    cases b <;> cases b' <;> simp at hflag ⊢
  | proper p =>
    cases r' with
    | bool b' =>
      cases hd'
      obtain ⟨b, hb⟩ := hnil rfl rfl rfl
      cases hb
    | proper p' => rw [eq_string_of_stringOf hd, eq_string_of_stringOf hd']

theorem stringValid_bool (b : Bool) : StringValid (.bool b) :=
  ⟨_, rfl, ⟨⟨List.Pairwise.nil, fun _ hv => absurd hv List.not_mem_nil⟩,
    ⟨List.Pairwise.nil, fun _ hv => absurd hv List.not_mem_nil⟩⟩, fun _ _ _ => ⟨b, rfl⟩⟩

theorem stringDen_bool (b : Bool) : stringDen (.bool b) = if b then Set.univ else ∅ := by
  rw [stringDen_eq rfl]
  ext v
  cases b <;> simp [StringSubtype.den, EnumerableSubtype.den]

theorem stringListed_bool (b : Bool) : stringListed (.bool b) = ∅ := by
  refine Set.eq_empty_of_forall_notMem fun v hv => ?_
  obtain ⟨d, hd, hv⟩ := hv
  cases hd
  rcases hv with hv | hv <;> cases hv

theorem exactEnumerable_string :
    ExactEnumerable Set.univ Chars stringDen stringListed StringValid stringSubtypeUnion
      stringSubtypeIntersect stringSubtypeComplement where
  union := by
    intro d1 d2 h1 h2
    obtain ⟨t1, ht1, hvalid1, _⟩ := h1
    obtain ⟨t2, ht2, hvalid2, _⟩ := h2
    obtain ⟨hchar, hdenChar⟩ := enumerableSubtypeUnion_exact hvalid1.char hvalid2.char
    obtain ⟨hnonChar, hdenNonChar⟩ := enumerableSubtypeUnion_exact hvalid1.nonChar hvalid2.nonChar
    refine ⟨_, ?_, stringValid_create hchar hnonChar, ?_⟩
    · rw [eq_string_of_stringOf ht1, eq_string_of_stringOf ht2]
      rfl
    · rw [stringDen_eq (stringOf_create _ _), stringDen_eq ht1, stringDen_eq ht2]
      unfold StringSubtype.den
      rw [hdenChar, hdenNonChar, den_union_den]
  intersect := by
    intro d1 d2 h1 h2
    obtain ⟨t1, ht1, hvalid1, _⟩ := h1
    obtain ⟨t2, ht2, hvalid2, _⟩ := h2
    obtain ⟨hchar, hdenChar⟩ := enumerableSubtypeIntersect_exact hvalid1.char hvalid2.char
    obtain ⟨hnonChar, hdenNonChar⟩ :=
      enumerableSubtypeIntersect_exact hvalid1.nonChar hvalid2.nonChar
    refine ⟨_, ?_, stringValid_create hchar hnonChar, ?_⟩
    · rw [eq_string_of_stringOf ht1, eq_string_of_stringOf ht2]
      rfl
    · rw [stringDen_eq (stringOf_create _ _), stringDen_eq ht1, stringDen_eq ht2]
      unfold StringSubtype.den
      rw [hdenChar, hdenNonChar, den_inter_den]
  complement := by
    intro d h
    obtain ⟨t, ht, hvalid, _⟩ := h
    refine ⟨_, ?_, stringValid_create hvalid.char.complement hvalid.nonChar.complement, ?_⟩
    · rw [eq_string_of_stringOf ht]
      exact stringSubtypeComplement_eq t
    · rw [stringDen_eq (stringOf_create _ _), stringDen_eq ht]
      unfold StringSubtype.den
      rw [den_complement, den_complement, compl_den]
  canonical h h' hunlisted := ⟨string_canonical h h' hunlisted, fun heq => by rw [heq]⟩
  nothing := by
    intro r h hunlisted
    refine ⟨fun hden => ?_, fun heq => ?_⟩
    · refine string_canonical h (stringValid_bool false) ?_ (hden.trans (stringDen_bool false).symm)
      rw [stringListed_bool, Set.union_empty]
      exact hunlisted
    · rw [heq, stringDen_bool]
      rfl
  everything := by
    intro r h hunlisted
    refine ⟨fun hden => ?_, fun heq => ?_⟩
    · refine string_canonical h (stringValid_bool true) ?_ (hden.trans (stringDen_bool true).symm)
      rw [stringListed_bool, Set.union_empty]
      exact hunlisted
    · rw [heq, stringDen_bool]
      rfl

/-! ## Floats and decimals -/

def floatData : ProperSubtypeData → Option (EnumerableSubtype FloatValue)
  | .float d => some d
  | _ => none

def decimalData : ProperSubtypeData → Option (EnumerableSubtype Rat)
  | .decimal d => some d
  | _ => none

theorem eq_float_of_floatData {t : EnumerableSubtype FloatValue} (h : floatData d = some t) :
    d = .float t := by
  cases d with
  | float t' =>
    cases h
    rfl
  | _ => cases h

theorem eq_decimal_of_decimalData {t : EnumerableSubtype Rat} (h : decimalData d = some t) :
    d = .decimal t := by
  cases d with
  | decimal t' =>
    cases h
    rfl
  | _ => cases h

/-- The operations compute unions, intersections and complements and keep the lists sorted without
duplicates; and as long as the lists of two data do not have every character, every value of `float`
or every value of `decimal` between them, the data are the same if the sets are. -/
theorem enumerableOps_exact :
    ExactEnumerable Set.univ Chars stringDen stringListed StringValid stringSubtypeUnion
        stringSubtypeIntersect stringSubtypeComplement ∧
      (∀ U : Set FloatValue, ExactEnumerable U U (listDen U floatData) (listListed floatData)
        (ListValid U floatData compareFloat) floatSubtypeUnion floatSubtypeIntersect
        floatSubtypeComplement) ∧
      (∀ U : Set Rat, ExactEnumerable U U (listDen U decimalData) (listListed decimalData)
        (ListValid U decimalData compareEnumerable) decimalSubtypeUnion decimalSubtypeIntersect
        decimalSubtypeComplement) := by
  refine ⟨exactEnumerable_string, fun U => ?_, fun U => ?_⟩
  · exact exactEnumerable_list (fun _ => rfl) (fun d t => eq_float_of_floatData) (fun _ _ => rfl)
      (fun _ _ => rfl) fun _ => rfl
  · exact exactEnumerable_list (fun _ => rfl) (fun d t => eq_decimal_of_decimalData) (fun _ _ => rfl)
      (fun _ _ => rfl) fun _ => rfl

/-- Every string of one character, in order. -/
def allChars : List String :=
  (List.finRange Char.numCodePoints).map fun n => String.singleton (Char.ofOrdinal n)

/-- Some characters by name, and every other string. -/
def listedStrings (chars : List String) : StringSubtype := ⟨⟨true, chars⟩, ⟨false, []⟩⟩

theorem mem_allChars {s : String} (h : s ∈ Chars) : s ∈ allChars := by
  have hlen : s.toList.length = 1 := by
    rw [String.length_toList]
    exact h
  obtain ⟨c, hc⟩ := List.length_eq_one_iff.mp hlen
  refine List.mem_map.mpr ⟨c.ordinal, List.mem_finRange _, ?_⟩
  rw [Char.ofOrdinal_ordinal, String.singleton_eq_ofList, ← hc, String.ofList_toList]

theorem sortedBy_allChars : SortedBy compareEnumerable allChars := by
  unfold SortedBy allChars
  rw [List.pairwise_map]
  refine (List.pairwise_lt_finRange _).imp fun {n m} hlt => ?_
  rw [compareEnumerable_lt, String.lt_iff, String.toList_singleton, String.toList_singleton]
  exact List.Lex.rel (Char.lt_iff_ofOrdinal_lt.mp hlt)

theorem mem_chars_of_mem_allChars {s : String} (h : s ∈ allChars) : s ∈ Chars := by
  unfold allChars at h
  rw [List.mem_map] at h
  obtain ⟨n, _, hn⟩ := h
  rw [← hn]
  exact String.length_singleton

theorem stringSubtypeUnion_listedStrings {chars : List String} (hsorted : SortedBy compareEnumerable chars)
    (hmem : ∀ s, s ∈ chars ↔ s ∈ Chars) : StringValid (.proper (.string (listedStrings chars))) ∧
      ∃ r, stringSubtypeUnion (.string (listedStrings chars)) (.string (listedStrings chars)) = some r ∧
        stringDen r = Set.univ ∧ r ≠ .bool true := by
  have hvalid : (listedStrings chars).Valid :=
    ⟨⟨hsorted, fun _ hv => (hmem _).mp hv⟩,
      List.Pairwise.nil, fun _ hv => absurd hv List.not_mem_nil⟩
  have hall : (listedStrings chars).den = Set.univ := by
    refine Set.eq_univ_of_forall fun v => ?_
    by_cases hv : v ∈ Chars
    · exact Or.inl ⟨hv, iff_of_true ((hmem v).mpr hv) rfl⟩
    · exact Or.inr ⟨hv, iff_of_false List.not_mem_nil Bool.noConfusion⟩
  have h : StringValid (.proper (.string (listedStrings chars))) :=
    ⟨_, rfl, hvalid, fun _ _ heq => Bool.noConfusion heq⟩
  refine ⟨h, ?_⟩
  obtain ⟨r, hr, _, hden⟩ := exactEnumerable_string.union h h
  refine ⟨r, hr, ?_, fun heq => ?_⟩
  · rw [hden, stringDen_eq rfl, hall, Set.union_univ]
  · cases hr
    have hof := stringOf_create (enumerableSubtypeUnion compareEnumerable (listedStrings chars).char
      (listedStrings chars).char) (enumerableSubtypeUnion compareEnumerable
      (listedStrings chars).nonChar (listedStrings chars).nonChar)
    rw [heq] at hof
    have hflag := congrArg (fun d => d.char.allowed) (Option.some.inj hof)
    cases hflag

/-- The union is every string, and it is not `true`. -/
theorem stringSubtypeUnion_all_chars : StringValid (.proper (.string (listedStrings allChars))) ∧
    ∃ r, stringSubtypeUnion (.string (listedStrings allChars)) (.string (listedStrings allChars)) =
        some r ∧ stringDen r = Set.univ ∧ r ≠ .bool true :=
  stringSubtypeUnion_listedStrings sortedBy_allChars
    fun _ => ⟨mem_chars_of_mem_allChars, mem_allChars⟩

end Nballerina.Types
