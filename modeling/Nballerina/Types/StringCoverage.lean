import Nballerina.Types.EnumerableExact

/-!
# Which field names a string type covers

`stringSubtypeListCoverage` (`string.bal`) takes a string subtype and the sorted names of a record's
fields. It is to return the positions of the names that belong to the subtype, and whether every
string of the subtype is one of the names; if so, the rest type of the record does not matter.

`stringSubtypeListCoverage_right_iff` says when it does. A component that excludes the strings of its
list (`allowed` is false) finds names only if the list is empty; the positions of the characters come
before those of the other names; and whether everything is covered is told by comparing two counts,
which can agree by chance.
-/

namespace Nballerina.Types

open Std (TransCmp LawfulEqCmp OrientedCmp ReflCmp)

structure StringSubtypeListCoverage where
  isSubtype : Bool
  indices : List Nat
deriving DecidableEq, Repr

/-- `stringListIntersect`, with `i` the position of what is left of `values`; the positions that it
pushes. -/
def stringListIntersect (i : Nat) : List String → List String → List Nat
  | [], _ => []
  | _ :: _, [] => []
  | s :: values, t :: target =>
    match compareEnumerable s t with
    | .eq => i :: stringListIntersect (i + 1) values target
    | .lt => stringListIntersect (i + 1) values (t :: target)
    | .gt => stringListIntersect i (s :: values) target
termination_by values target => values.length + target.length

/-- A loop over `values` that pushes the positions where `p` holds. -/
def indicesWhere (p : String → Bool) (i : Nat) : List String → List Nat
  | [] => []
  | s :: values => if p s then i :: indicesWhere p (i + 1) values else indicesWhere p (i + 1) values

/-- What one component contributes to the positions; `kind` tells its strings from the others. -/
def componentIndices (kind : String → Bool) (t : EnumerableSubtype String) (values : List String) :
    List Nat :=
  if t.allowed then stringListIntersect 0 values t.values
  else if t.values.isEmpty then indicesWhere kind 0 values
  else []

/-- What one component contributes to `stringConsts`. -/
def componentConsts (t : EnumerableSubtype String) : Nat :=
  if t.allowed then t.values.length else 0

def stringSubtypeListCoverage (subtype : StringSubtype) (values : List String) :
    StringSubtypeListCoverage :=
  let indices := componentIndices (fun s => s.length == 1) subtype.char values ++
    componentIndices (fun s => s.length != 1) subtype.nonChar values
  let stringConsts := componentConsts subtype.char + componentConsts subtype.nonChar
  ⟨stringConsts == indices.length, indices⟩

/-! ## Positions -/

section Positions

variable {p : String → Bool} {values : List String}

theorem mem_indicesWhere {i j : Nat} :
    j ∈ indicesWhere p i values ↔ i ≤ j ∧ ∃ s, values[j - i]? = some s ∧ p s := by
  induction values generalizing i with
  | nil => simp [indicesWhere]
  | cons s values ih =>
    have hstep : j ∈ indicesWhere p (i + 1) values ↔
        i < j ∧ ∃ s', (s :: values)[j - i]? = some s' ∧ p s' := by
      rw [ih]
      refine and_congr_right fun hle => ?_
      rw [show j - i = j - (i + 1) + 1 by omega, List.getElem?_cons_succ]
    unfold indicesWhere
    split
    next hp =>
      rw [List.mem_cons, hstep]
      refine ⟨fun h => ?_, fun ⟨hle, h⟩ => ?_⟩
      · rcases h with rfl | ⟨hlt, h⟩
        · exact ⟨le_refl _, s, by simp, hp⟩
        · exact ⟨hlt.le, h⟩
      · rcases hle.eq_or_lt with heq | hlt
        · exact .inl heq.symm
        · exact .inr ⟨hlt, h⟩
    next hp =>
      rw [hstep]
      refine ⟨fun ⟨hlt, h⟩ => ⟨hlt.le, h⟩, fun ⟨hle, s', hs', hp'⟩ => ⟨?_, s', hs', hp'⟩⟩
      rcases hle.eq_or_lt with heq | hlt
      · rw [heq, Nat.sub_self] at hs'
        cases hs'
        exact absurd hp' hp
      · exact hlt

theorem indicesWhere_sorted (i : Nat) : (indicesWhere p i values).Pairwise (· < ·) := by
  induction values generalizing i with
  | nil => exact List.Pairwise.nil
  | cons s values ih =>
    unfold indicesWhere
    split
    next => exact List.pairwise_cons.mpr ⟨fun j hj => (mem_indicesWhere.mp hj).1, ih (i + 1)⟩
    next => exact ih (i + 1)

theorem length_indicesWhere (i : Nat) :
    (indicesWhere p i values).length = (values.filter p).length := by
  induction values generalizing i with
  | nil => rfl
  | cons s values ih =>
    unfold indicesWhere
    split
    next hp => rw [List.length_cons, ih, List.filter_cons_of_pos hp, List.length_cons]
    next hp => rw [ih, List.filter_cons_of_neg hp]

theorem indicesWhere_congr {q : String → Bool} (h : ∀ s ∈ values, p s = q s) (i : Nat) :
    indicesWhere p i values = indicesWhere q i values := by
  induction values generalizing i with
  | nil => rfl
  | cons s values ih =>
    unfold indicesWhere
    rw [h s (.head _), ih fun s' hs' => h s' (.tail _ hs')]

/-- Two sorted lists are merged to find the positions of the common strings. -/
theorem stringListIntersect_eq (i : Nat) (values target : List String)
    (h : SortedBy compareEnumerable values) (h' : SortedBy compareEnumerable target) :
    stringListIntersect i values target = indicesWhere (fun s => decide (s ∈ target)) i values := by
  fun_induction stringListIntersect i values target with
  | case1 => rfl
  | case2 i s values =>
    rw [indicesWhere_congr (q := fun _ => false) fun _ _ => by simp]
    clear h h'
    induction (s :: values) generalizing i with
    | nil => rfl
    | cons s values ih => exact ih (i + 1)
  | case3 i s values t target heq ih =>
    have hst : s = t := LawfulEqCmp.eq_of_compare heq
    have hpos : decide (s ∈ t :: target) = true := by
      rw [hst]
      simp
    conv => rhs; unfold indicesWhere
    rw [if_pos hpos, ih h.of_cons h'.of_cons]
    refine congrArg _ (indicesWhere_congr (fun s' hs' => ?_) _)
    have hne : s' ≠ t := by
      intro heq'
      rw [heq', ← hst] at hs'
      exact h.notMem_tail hs'
    simp [hne]
  | case4 i s values t target hlt ih =>
    have hneg : ¬ decide (s ∈ t :: target) = true := by
      rw [decide_eq_true_eq]
      exact h'.notMem_of_lt_head hlt
    conv => rhs; unfold indicesWhere
    rw [if_neg hneg, ih h.of_cons h']
  | case5 i s values t target hgt ih =>
    rw [ih h h'.of_cons]
    refine indicesWhere_congr (fun s' hs' => ?_) _
    have hne : s' ≠ t := by
      intro heq'
      rw [heq'] at hs'
      exact h.notMem_of_lt_head (OrientedCmp.gt_iff_lt.mp hgt) hs'
    simp [hne]

end Positions

/-! ## One component -/

/-- The strings that the component lists as allowed and that are no names. -/
def unnamed (t : EnumerableSubtype String) (names : List String) : Nat :=
  if t.allowed then (t.values.filter fun s => decide (s ∉ names)).length else 0

/-- The names of the component's kind that it lets in because it does not exclude them. -/
def admitted (kind : String → Bool) (t : EnumerableSubtype String) (names : List String) : Nat :=
  if t.allowed then 0 else (names.filter fun s => kind s && decide (s ∉ t.values)).length

/-- The names that the component lets in are found. -/
def Found (K : Set String) (t : EnumerableSubtype String) (names : List String) : Prop :=
  ∀ s ∈ names, s ∈ K → s ∈ t.den → t.allowed = true ∨ t.values = []

section Component

variable {kind : String → Bool} {K : Set String} {t : EnumerableSubtype String} {names : List String}

theorem componentIndices_sorted (hnames : SortedBy compareEnumerable names)
    (ht : t.Valid compareEnumerable K) : (componentIndices kind t names).Pairwise (· < ·) := by
  unfold componentIndices
  split
  next =>
    rw [stringListIntersect_eq 0 names t.values hnames ht.sorted]
    exact indicesWhere_sorted 0
  next =>
    split
    next => exact indicesWhere_sorted 0
    next => exact List.Pairwise.nil

/-- A position is that of a name of the component. -/
theorem componentIndices_sound (hkind : ∀ s, kind s = true ↔ s ∈ K)
    (hnames : SortedBy compareEnumerable names) (ht : t.Valid compareEnumerable K) {j : Nat}
    (h : j ∈ componentIndices kind t names) :
    (t.allowed = true ∨ t.values = []) ∧ ∃ s, names[j]? = some s ∧ s ∈ K ∧ s ∈ t.den := by
  unfold componentIndices at h
  split at h
  next hallowed =>
    rw [stringListIntersect_eq 0 names t.values hnames ht.sorted] at h
    obtain ⟨_, s, hs, hmem⟩ := mem_indicesWhere.mp h
    rw [decide_eq_true_eq] at hmem
    exact ⟨.inl hallowed, s, hs, ht.within s hmem, iff_of_true hmem hallowed⟩
  next hallowed =>
    split at h
    next hnil =>
      rw [List.isEmpty_iff] at hnil
      obtain ⟨_, s, hs, hk⟩ := mem_indicesWhere.mp h
      refine ⟨.inr hnil, s, hs, (hkind s).mp hk, iff_of_false ?_ hallowed⟩
      rw [hnil]
      exact List.not_mem_nil
    next => cases h

theorem componentIndices_complete (hkind : ∀ s, kind s = true ↔ s ∈ K)
    (hnames : SortedBy compareEnumerable names) (ht : t.Valid compareEnumerable K) {j : Nat}
    {s : String} (hs : names[j]? = some s) (hk : s ∈ K) (hden : s ∈ t.den)
    (hfound : t.allowed = true ∨ t.values = []) : j ∈ componentIndices kind t names := by
  unfold componentIndices
  split
  next hallowed =>
    rw [stringListIntersect_eq 0 names t.values hnames ht.sorted]
    exact mem_indicesWhere.mpr ⟨Nat.zero_le _, s, hs, decide_eq_true (hden.mpr hallowed)⟩
  next hallowed =>
    have hnil : t.values = [] := hfound.resolve_left hallowed
    rw [if_pos (List.isEmpty_iff.mpr hnil)]
    exact mem_indicesWhere.mpr ⟨Nat.zero_le _, s, hs, (hkind s).mpr hk⟩

/-- The counts that are compared differ by what is listed but not named and what is named but not
listed. -/
theorem componentConsts_add_admitted (hkind : ∀ s, kind s = true ↔ s ∈ K)
    (hnames : SortedBy compareEnumerable names) (ht : t.Valid compareEnumerable K)
    (hfound : Found K t names) : componentConsts t + admitted kind t names =
      (componentIndices kind t names).length + unnamed t names := by
  unfold componentConsts admitted unnamed
  cases hallowed : t.allowed with
  | true =>
    rw [if_pos rfl, if_pos rfl, if_pos rfl]
    unfold componentIndices
    rw [if_pos hallowed, stringListIntersect_eq 0 names t.values hnames ht.sorted, length_indicesWhere]
    have hperm : (names.filter fun s => decide (s ∈ t.values)).Perm
        (t.values.filter fun s => decide (s ∈ names)) := by
      refine (List.perm_ext_iff_of_nodup (hnames.nodup.filter _) (ht.sorted.nodup.filter _)).mpr
        fun s => ?_
      rw [List.mem_filter, List.mem_filter, decide_eq_true_eq, decide_eq_true_eq]
      exact and_comm
    rw [hperm.length_eq, Nat.add_zero]
    have hsplit := List.length_eq_length_filter_add (l := t.values) fun s => decide (s ∈ names)
    simpa using hsplit
  | false =>
    have hflag : ¬ false = true := Bool.false_ne_true
    rw [if_neg hflag, if_neg hflag, if_neg hflag, Nat.zero_add, Nat.add_zero]
    unfold componentIndices
    rw [hallowed, if_neg hflag]
    by_cases hnil : t.values = []
    · rw [if_pos (List.isEmpty_iff.mpr hnil), length_indicesWhere, hnil]
      refine congrArg _ (List.filter_congr fun s _ => ?_)
      simp
    · have hnone : (names.filter fun s => kind s && decide (s ∉ t.values)) = [] := by
        refine List.filter_eq_nil_iff.mpr fun s hs hin => ?_
        rw [Bool.and_eq_true, decide_eq_true_eq, hkind] at hin
        rcases hfound s hs hin.1 (iff_of_false hin.2 (hallowed ▸ hflag)) with h | h
        · rw [hallowed] at h
          cases h
        · exact hnil h
      have hempty : ¬ t.values.isEmpty = true := fun h => hnil (List.isEmpty_iff.mp h)
      simp only [hnone, if_neg hempty, List.length_nil]

theorem unnamed_eq_zero_iff (hallowed : t.allowed = true) (ht : t.Valid compareEnumerable K) :
    unnamed t names = 0 ↔ ∀ s ∈ K, s ∈ t.den → s ∈ names := by
  unfold unnamed
  rw [if_pos hallowed, List.length_eq_zero_iff, List.filter_eq_nil_iff]
  refine ⟨fun h s _ hden => ?_, fun h s hs hnot => ?_⟩
  · have := h s (hden.mpr hallowed)
    simpa using this
  · rw [decide_eq_true_eq] at hnot
    exact hnot (h s (ht.within s hs) (iff_of_true hs hallowed))

theorem den_subset_iff_of_not_allowed (hallowed : ¬ t.allowed = true) :
    (∀ s ∈ K, s ∈ t.den → s ∈ names) ↔ ∀ s ∈ K, s ∈ t.values ∨ s ∈ names := by
  refine forall₂_congr fun s _ => ?_
  rw [EnumerableSubtype.mem_den]
  tauto

end Component

/-! ## Both components -/

/-- The coverage is that of the subtype and the names. -/
structure StringSubtypeListCoverage.Right (c : StringSubtypeListCoverage) (subtype : StringSubtype)
    (names : List String) : Prop where
  isSubtype : c.isSubtype = true ↔ ∀ s ∈ subtype.den, s ∈ names
  increasing : c.indices.Pairwise (· < ·)
  mem_indices : ∀ i, i ∈ c.indices ↔ ∃ s, names[i]? = some s ∧ s ∈ subtype.den

def isChar (s : String) : Bool := s.length == 1

def isNonChar (s : String) : Bool := s.length != 1

/-- The strings that are listed as allowed are named, and so is every character that is not excluded
by name. -/
def Exhausted (subtype : StringSubtype) (names : List String) : Prop :=
  subtype.nonChar.allowed = true ∧ unnamed subtype.nonChar names = 0 ∧
    ∀ s ∈ Chars, s ∈ subtype.char.values ∨ s ∈ names

/-- If a component excludes strings, then what is listed as allowed but not named does not happen to
be as many strings as the names that the excluding components let in. -/
def Counted (subtype : StringSubtype) (names : List String) : Prop :=
  ¬ (subtype.char.allowed = true ∧ subtype.nonChar.allowed = true) →
    (Exhausted subtype names → admitted isChar subtype.char names = 0) ∧
    (¬ Exhausted subtype names → unnamed subtype.char names + unnamed subtype.nonChar names ≠
      admitted isChar subtype.char names + admitted isNonChar subtype.nonChar names)

/-- What the subtype and the names have to satisfy.

`found`: a component that excludes a list that is not empty lets no name in. `ordered`: no
character that is let in comes after another name that is let in. -/
structure Coverable (subtype : StringSubtype) (names : List String) : Prop where
  found : Found Chars subtype.char names ∧ Found Charsᶜ subtype.nonChar names
  ordered : ∀ s ∈ names, ∀ s' ∈ names, s ∈ Chars → s' ∉ Chars → s ∈ subtype.den → s' ∈ subtype.den →
    s < s'
  counted : Counted subtype names

section Both

variable {subtype : StringSubtype} {names : List String}

theorem mem_den_char {s : String} (h : s ∈ Chars) : s ∈ subtype.den ↔ s ∈ subtype.char.den := by
  simp [StringSubtype.den, h]

theorem mem_den_nonChar {s : String} (h : s ∉ Chars) : s ∈ subtype.den ↔ s ∈ subtype.nonChar.den := by
  simp [StringSubtype.den, h]

theorem isChar_iff (s : String) : isChar s = true ↔ s ∈ Chars := by
  unfold isChar
  rw [beq_iff_eq]
  rfl

theorem isNonChar_iff (s : String) : isNonChar s = true ↔ s ∈ Charsᶜ := by
  unfold isNonChar
  rw [bne_iff_ne]
  rfl

theorem den_subset_iff : (∀ s ∈ subtype.den, s ∈ names) ↔
    (∀ s ∈ Chars, s ∈ subtype.char.den → s ∈ names) ∧
      ∀ s ∈ Charsᶜ, s ∈ subtype.nonChar.den → s ∈ names := by
  refine ⟨fun h => ⟨fun s hs hden => ?_, fun s hs hden => ?_⟩, fun h s hden => ?_⟩
  · exact h s ((mem_den_char hs).mpr hden)
  · exact h s ((mem_den_nonChar hs).mpr hden)
  · by_cases hs : s ∈ Chars
    · exact h.1 s hs ((mem_den_char hs).mp hden)
    · exact h.2 s hs ((mem_den_nonChar hs).mp hden)

/-- Finitely many names do not have all the strings that are no characters. -/
theorem not_nonChar_subset (hallowed : ¬ subtype.nonChar.allowed = true) :
    ¬ ∀ s ∈ Charsᶜ, s ∈ subtype.nonChar.den → s ∈ names := by
  intro h
  obtain ⟨s, hs, hnot⟩ := exists_notMem_nonChar (subtype.nonChar.values ++ names)
  rw [List.mem_append, not_or] at hnot
  exact hnot.2 (h s hs (iff_of_false hnot.1 hallowed))

theorem isSubtype_iff (hnames : SortedBy compareEnumerable names) (hsub : subtype.Valid)
    (hfound : Found Chars subtype.char names ∧ Found Charsᶜ subtype.nonChar names) :
    (stringSubtypeListCoverage subtype names).isSubtype = true ↔
      unnamed subtype.char names + unnamed subtype.nonChar names =
        admitted isChar subtype.char names + admitted isNonChar subtype.nonChar names := by
  have hchar := componentConsts_add_admitted isChar_iff hnames hsub.char hfound.1
  have hnonChar := componentConsts_add_admitted isNonChar_iff hnames hsub.nonChar hfound.2
  show (componentConsts subtype.char + componentConsts subtype.nonChar ==
    (componentIndices isChar subtype.char names ++
      componentIndices isNonChar subtype.nonChar names).length) = true ↔ _
  rw [beq_iff_eq, List.length_append]
  omega

/-- Given that the names are found, the flag is right exactly if the counts are. -/
theorem isSubtype_right_iff (hnames : SortedBy compareEnumerable names) (hsub : subtype.Valid)
    (hfound : Found Chars subtype.char names ∧ Found Charsᶜ subtype.nonChar names) :
    ((stringSubtypeListCoverage subtype names).isSubtype = true ↔ ∀ s ∈ subtype.den, s ∈ names) ↔
      Counted subtype names := by
  rw [isSubtype_iff hnames hsub hfound, den_subset_iff]
  unfold Counted
  by_cases hnonChar : subtype.nonChar.allowed = true
  · have hadmitted : admitted isNonChar subtype.nonChar names = 0 := if_pos hnonChar
    rw [← unnamed_eq_zero_iff hnonChar hsub.nonChar, hadmitted, Nat.add_zero]
    by_cases hchar : subtype.char.allowed = true
    · have hadmitted' : admitted isChar subtype.char names = 0 := if_pos hchar
      rw [← unnamed_eq_zero_iff hchar hsub.char, hadmitted']
      refine iff_of_true ?_ fun h => absurd ⟨hchar, hnonChar⟩ h
      omega
    · have hunnamed : unnamed subtype.char names = 0 := if_neg hchar
      rw [den_subset_iff_of_not_allowed hchar, hunnamed, Nat.zero_add]
      have hexcludes : ¬ (subtype.char.allowed = true ∧ subtype.nonChar.allowed = true) :=
        fun h => hchar h.1
      rw [imp_iff_right hexcludes]
      by_cases hexhausted : Exhausted subtype names
      · have hnamed := hexhausted.2.1
        refine ⟨fun h => ⟨fun _ => ?_, fun hnot => absurd hexhausted hnot⟩, fun h => ?_⟩
        · exact (h.mpr ⟨hexhausted.2.2, hnamed⟩).symm.trans hnamed
        · exact iff_of_true (hnamed.trans (h.1 hexhausted).symm) ⟨hexhausted.2.2, hnamed⟩
      · refine ⟨fun h => ⟨fun hnot => absurd hnot hexhausted, fun _ heq => ?_⟩, fun h => ?_⟩
        · exact hexhausted ⟨hnonChar, (h.mp heq).2, (h.mp heq).1⟩
        · exact iff_of_false (h.2 hexhausted) fun h' => hexhausted ⟨hnonChar, h'.2, h'.1⟩
  · have hexcludes : ¬ (subtype.char.allowed = true ∧ subtype.nonChar.allowed = true) :=
      fun h => hnonChar h.2
    have hexhausted : ¬ Exhausted subtype names := fun h => hnonChar h.1
    rw [imp_iff_right hexcludes]
    refine ⟨fun h => ⟨fun hnot => absurd hnot hexhausted, fun _ heq => ?_⟩, fun h => ?_⟩
    · exact not_nonChar_subset hnonChar (h.mp heq).2
    · exact iff_of_false (h.2 hexhausted) fun h' => not_nonChar_subset hnonChar h'.2

theorem mem_coverage_indices {i : Nat} : i ∈ (stringSubtypeListCoverage subtype names).indices ↔
    i ∈ componentIndices isChar subtype.char names ∨
      i ∈ componentIndices isNonChar subtype.nonChar names := List.mem_append

/-- The positions are right if the names are found. -/
theorem mem_indices_iff (hnames : SortedBy compareEnumerable names) (hsub : subtype.Valid)
    (hfound : Found Chars subtype.char names ∧ Found Charsᶜ subtype.nonChar names) (i : Nat) :
    i ∈ (stringSubtypeListCoverage subtype names).indices ↔
      ∃ s, names[i]? = some s ∧ s ∈ subtype.den := by
  rw [mem_coverage_indices]
  refine ⟨fun h => ?_, fun ⟨s, hs, hden⟩ => ?_⟩
  · rcases h with h | h
    · obtain ⟨_, s, hs, hk, hden⟩ := componentIndices_sound isChar_iff hnames hsub.char h
      exact ⟨s, hs, (mem_den_char hk).mpr hden⟩
    · obtain ⟨_, s, hs, hk, hden⟩ := componentIndices_sound isNonChar_iff hnames hsub.nonChar h
      exact ⟨s, hs, (mem_den_nonChar hk).mpr hden⟩
  · have hmem : s ∈ names := List.mem_of_getElem? hs
    by_cases hk : s ∈ Chars
    · rw [mem_den_char hk] at hden
      exact .inl (componentIndices_complete isChar_iff hnames hsub.char hs hk hden
        (hfound.1 s hmem hk hden))
    · rw [mem_den_nonChar hk] at hden
      exact .inr (componentIndices_complete isNonChar_iff hnames hsub.nonChar hs hk hden
        (hfound.2 s hmem hk hden))

/-- A position of a name is contributed by the component of the name. -/
theorem mem_component_of_mem_indices (hnames : SortedBy compareEnumerable names)
    (hsub : subtype.Valid) {i : Nat} {s : String} (hs : names[i]? = some s)
    (h : i ∈ (stringSubtypeListCoverage subtype names).indices) :
    (s ∈ Chars → i ∈ componentIndices isChar subtype.char names) ∧
      (s ∉ Chars → i ∈ componentIndices isNonChar subtype.nonChar names) := by
  rcases mem_coverage_indices.mp h with h | h
  · obtain ⟨_, s', hs', hk, _⟩ := componentIndices_sound isChar_iff hnames hsub.char h
    rw [hs] at hs'
    cases hs'
    exact ⟨fun _ => h, fun hnot => absurd hk hnot⟩
  · obtain ⟨_, s', hs', hk, _⟩ := componentIndices_sound isNonChar_iff hnames hsub.nonChar h
    rw [hs] at hs'
    cases hs'
    exact ⟨fun hk' => absurd hk' hk, fun _ => h⟩

theorem found_of_right (hnames : SortedBy compareEnumerable names) (hsub : subtype.Valid)
    (h : ∀ i, i ∈ (stringSubtypeListCoverage subtype names).indices ↔
      ∃ s, names[i]? = some s ∧ s ∈ subtype.den) :
    Found Chars subtype.char names ∧ Found Charsᶜ subtype.nonChar names := by
  refine ⟨fun s hmem hk hden => ?_, fun s hmem hk hden => ?_⟩
  · obtain ⟨i, hs⟩ := List.mem_iff_getElem?.mp hmem
    have hi := (h i).mpr ⟨s, hs, (mem_den_char hk).mpr hden⟩
    have hcomponent := (mem_component_of_mem_indices hnames hsub hs hi).1 hk
    exact (componentIndices_sound isChar_iff hnames hsub.char hcomponent).1
  · obtain ⟨i, hs⟩ := List.mem_iff_getElem?.mp hmem
    have hi := (h i).mpr ⟨s, hs, (mem_den_nonChar hk).mpr hden⟩
    have hcomponent := (mem_component_of_mem_indices hnames hsub hs hi).2 hk
    exact (componentIndices_sound isNonChar_iff hnames hsub.nonChar hcomponent).1

/-- Positions and names are in the same order. -/
theorem lt_iff_of_getElem? (hnames : SortedBy compareEnumerable names) {i j : Nat} {s s' : String}
    (hs : names[i]? = some s) (hs' : names[j]? = some s') : i < j ↔ s < s' := by
  have hlt : ∀ {i j : Nat} {s s' : String}, names[i]? = some s → names[j]? = some s' → i < j →
      s < s' := by
    intro i j s s' hs hs' hij
    obtain ⟨hi, rfl⟩ := List.getElem?_eq_some_iff.mp hs
    obtain ⟨hj, rfl⟩ := List.getElem?_eq_some_iff.mp hs'
    exact compareEnumerable_lt.mp (List.pairwise_iff_getElem.mp hnames i j hi hj hij)
  refine ⟨hlt hs hs', fun h => ?_⟩
  rcases Nat.lt_trichotomy i j with hij | hij | hij
  · exact hij
  · rw [hij, hs'] at hs
    cases hs
    exact absurd h (lt_irrefl _)
  · exact absurd h (lt_asymm (hlt hs' hs hij))

theorem increasing_iff (hnames : SortedBy compareEnumerable names) (hsub : subtype.Valid)
    (hfound : Found Chars subtype.char names ∧ Found Charsᶜ subtype.nonChar names) :
    (stringSubtypeListCoverage subtype names).indices.Pairwise (· < ·) ↔
      ∀ s ∈ names, ∀ s' ∈ names, s ∈ Chars → s' ∉ Chars → s ∈ subtype.den → s' ∈ subtype.den →
        s < s' := by
  show (componentIndices isChar subtype.char names ++
    componentIndices isNonChar subtype.nonChar names).Pairwise (· < ·) ↔ _
  rw [List.pairwise_append]
  refine ⟨fun ⟨_, _, h⟩ s hmem s' hmem' hk hk' hden hden' => ?_, fun h => ?_⟩
  · obtain ⟨i, hs⟩ := List.mem_iff_getElem?.mp hmem
    obtain ⟨j, hs'⟩ := List.mem_iff_getElem?.mp hmem'
    have hi := (mem_indices_iff hnames hsub hfound i).mpr ⟨s, hs, hden⟩
    have hj := (mem_indices_iff hnames hsub hfound j).mpr ⟨s', hs', hden'⟩
    exact (lt_iff_of_getElem? hnames hs hs').mp
      (h i ((mem_component_of_mem_indices hnames hsub hs hi).1 hk) j
        ((mem_component_of_mem_indices hnames hsub hs' hj).2 hk'))
  · refine ⟨componentIndices_sorted hnames hsub.char, componentIndices_sorted hnames hsub.nonChar,
      fun i hi j hj => ?_⟩
    obtain ⟨_, s, hs, hk, hden⟩ := componentIndices_sound isChar_iff hnames hsub.char hi
    obtain ⟨_, s', hs', hk', hden'⟩ := componentIndices_sound isNonChar_iff hnames hsub.nonChar hj
    exact (lt_iff_of_getElem? hnames hs hs').mpr (h s (List.mem_of_getElem? hs) s'
      (List.mem_of_getElem? hs') hk hk' ((mem_den_char hk).mpr hden) ((mem_den_nonChar hk').mpr hden'))

end Both

/-- The coverage is right exactly for the subtypes and names that are `Coverable`. -/
theorem stringSubtypeListCoverage_right_iff {subtype : StringSubtype} {names : List String}
    (hsub : subtype.Valid) (hnames : SortedBy compareEnumerable names) :
    (stringSubtypeListCoverage subtype names).Right subtype names ↔ Coverable subtype names := by
  refine ⟨fun h => ?_, fun h => ?_⟩
  · have hfound := found_of_right hnames hsub h.mem_indices
    exact ⟨hfound, (increasing_iff hnames hsub hfound).mp h.increasing,
      (isSubtype_right_iff hnames hsub hfound).mp h.isSubtype⟩
  · exact ⟨(isSubtype_right_iff hnames hsub h.found).mpr h.counted,
      (increasing_iff hnames hsub h.found).mpr h.ordered, mem_indices_iff hnames hsub h.found⟩

/-- The strings `a` and `bb`, for a record with the fields `a`, `bb` and `c`. -/
theorem stringSubtypeListCoverage_right_two :
    (stringSubtypeListCoverage ⟨⟨true, ["a"]⟩, ⟨true, ["bb"]⟩⟩ ["a", "bb", "c"]).Right
      ⟨⟨true, ["a"]⟩, ⟨true, ["bb"]⟩⟩ ["a", "bb", "c"] := by
  have hsub : StringSubtype.Valid ⟨⟨true, ["a"]⟩, ⟨true, ["bb"]⟩⟩ := by
    refine ⟨⟨List.pairwise_singleton _ _, fun v hv => ?_⟩,
      ⟨List.pairwise_singleton _ _, fun v hv => ?_⟩⟩
    · rw [List.mem_singleton.mp hv]
      rfl
    · rw [List.mem_singleton.mp hv]
      intro h
      cases h
  have hnames : SortedBy compareEnumerable ["a", "bb", "c"] := by
    unfold SortedBy
    decide
  refine (stringSubtypeListCoverage_right_iff hsub hnames).mpr ⟨⟨?_, ?_⟩, ?_, ?_⟩
  · exact fun _ _ _ _ => .inl rfl
  · exact fun _ _ _ _ => .inl rfl
  · intro s _ s' _ hk hk' hden hden'
    rw [List.mem_singleton.mp (((mem_den_char hk).mp hden).mpr rfl),
      List.mem_singleton.mp (((mem_den_nonChar hk').mp hden').mpr rfl)]
    decide
  · exact fun h => absurd ⟨rfl, rfl⟩ h

/-- Every string but `x`, for a record with the field `y`: nothing is found, and the subtype is taken
to be covered. -/
theorem stringSubtypeListCoverage_not_right :
    StringSubtype.Valid ⟨⟨false, ["x"]⟩, ⟨false, []⟩⟩ ∧
      ¬ (stringSubtypeListCoverage ⟨⟨false, ["x"]⟩, ⟨false, []⟩⟩ ["y"]).Right
        ⟨⟨false, ["x"]⟩, ⟨false, []⟩⟩ ["y"] := by
  refine ⟨⟨⟨List.pairwise_singleton _ _, fun v hv => ?_⟩, List.Pairwise.nil, fun v hv => ?_⟩,
    fun h => ?_⟩
  · rw [List.mem_singleton.mp hv]
    rfl
  · cases hv
  · have hmem : "zz" ∈ StringSubtype.den ⟨⟨false, ["x"]⟩, ⟨false, []⟩⟩ :=
      .inr ⟨fun h => (by cases h), iff_of_false List.not_mem_nil Bool.false_ne_true⟩
    have hnamed := h.isSubtype.mp rfl "zz" hmem
    exact absurd (List.mem_singleton.mp hnamed) (by decide)

end Nballerina.Types
