import Nballerina.Types.CellSem
import Mathlib.Data.String.Basic
import Mathlib.Data.Set.Finite.Basic

/-!
# Emptiness of mapping types is exact

`mappingFormulaIsEmpty` looks at the finitely many names of the atoms it is given and at one
difference of rest types. This file shows that nothing is lost by that: when `intersect`,
`diff` and `isEmpty` are exact on the types of members, it answers whether some assignment
of a member to *every* name belongs to all positive atoms and to no negative one
(`mappingFormulaIsEmpty_exact`).

An absent field is a member with the value `undef`, so a mapping is a total function from
names to members. The two ideas are
- the pairing of two atoms visits each name of either once and gives it the types that the
  atoms have there (`mem_mappingPairing`), and
- a negative whose rest type does not cover the positive's can be avoided at a name that
  nobody mentions, of which there are enough for all negatives (`avoid_at_fresh`).
-/

namespace Nballerina.Types

open Nballerina.Lib

/-! ## The type of a name -/

/-- The fields, each with its type. -/
def MappingAtomicType.fields (m : MappingAtomicType) : List (String × SemType) :=
  m.names.zip m.types

/-- The type of a name among `fields`, with `rest` for all others. -/
def fieldType (fields : List (String × SemType)) (rest : SemType) (k : String) : SemType :=
  (fields.lookup k).getD rest

def mappingAtomicTypeMemberAt (m : MappingAtomicType) (k : String) : SemType :=
  fieldType m.fields m.rest k

theorem fieldType_nil (rest : SemType) (k : String) : fieldType [] rest k = rest := rfl

theorem fieldType_cons (field : String × SemType) (fields : List (String × SemType))
    (rest : SemType) (k : String) : fieldType (field :: fields) rest k =
      if k = field.1 then field.2 else fieldType fields rest k := by
  unfold fieldType
  rw [List.lookup_cons]
  by_cases h : k = field.1
  · rw [if_pos h, show (k == field.1) = true from beq_iff_eq.mpr h]
    rfl
  · rw [if_neg h, show (k == field.1) = false from beq_eq_false_iff_ne.mpr h]

theorem fieldType_of_notMem {fields : List (String × SemType)} {k : String} (rest : SemType)
    (h : k ∉ fields.map (·.1)) : fieldType fields rest k = rest := by
  induction fields with
  | nil => rfl
  | cons field fields ih =>
    rw [List.map_cons, List.mem_cons, not_or] at h
    rw [fieldType_cons, if_neg h.1, ih h.2]

theorem fieldType_of_mem {fields : List (String × SemType)} (h : (fields.map (·.1)).Nodup)
    {field : String × SemType} (hmem : field ∈ fields) (rest : SemType) :
    fieldType fields rest field.1 = field.2 := by
  induction fields with
  | nil => exact absurd hmem List.not_mem_nil
  | cons f fields ih =>
    rw [List.map_cons, List.nodup_cons] at h
    rw [fieldType_cons]
    rcases List.mem_cons.mp hmem with rfl | hmem
    · rw [if_pos rfl]
    · rw [if_neg, ih h.2 hmem]
      intro heq
      exact h.1 (heq ▸ List.mem_map_of_mem hmem)

/-- Fields with increasing names. -/
abbrev SortedFields (fields : List (String × SemType)) : Prop :=
  fields.Pairwise fun f g => f.1 < g.1

theorem SortedFields.nodup {fields : List (String × SemType)} (h : SortedFields fields) :
    (fields.map (·.1)).Nodup := by
  rw [List.nodup_iff_pairwise_ne, List.pairwise_map]
  exact h.imp fun hlt => ne_of_lt hlt

/-- The names of an atom are sorted and distinct, one for each type. -/
structure MappingAtomicType.Sorted (m : MappingAtomicType) : Prop where
  length : m.names.length = m.types.length
  names : m.names.Pairwise (· < ·)

variable {name : String} {m : MappingAtomicType}

theorem MappingAtomicType.Sorted.map_fields (h : m.Sorted) :
    m.fields.map (·.1) = m.names := by
  unfold fields
  rw [List.map_fst_zip (by rw [h.length])]

theorem MappingAtomicType.Sorted.map_types (h : m.Sorted) :
    m.fields.map (·.2) = m.types := by
  unfold fields
  rw [List.map_snd_zip (by rw [h.length])]

theorem MappingAtomicType.Sorted.fields {m : MappingAtomicType} (h : m.Sorted) :
    SortedFields m.fields := by
  have hpair : (m.fields.map (·.1)).Pairwise (· < ·) := by
    rw [h.map_fields]
    exact h.names
  rw [List.pairwise_map] at hpair
  exact hpair

/-! ## The pairing of two atoms -/

section Pairing

variable {rest1 rest2 : SemType}

/-- The names that a pairing visits are those of the two atoms. -/
theorem mem_names_mappingPairs (i : Nat) (fs1 fs2 : List (String × SemType)) (k : String) :
    k ∈ (mappingPairs rest1 rest2 i fs1 fs2).map (·.name) ↔
      k ∈ fs1.map (·.1) ∨ k ∈ fs2.map (·.1) := by
  fun_induction mappingPairs rest1 rest2 i fs1 fs2 with
  | case1 => simp
  | case2 i name2 t2 fs2 ih => simp [ih]
  | case3 i name1 t1 fs1 ih => simp [ih]
  | case4 i name1 t1 fs1 name2 t2 fs2 hlt ih =>
    simp only [List.map_cons, List.mem_cons, or_assoc] at ih ⊢
    rw [ih]
  | case5 i name1 t1 fs1 name2 t2 fs2 hlt hgt ih =>
    simp only [List.map_cons, List.mem_cons, or_assoc] at ih ⊢
    rw [ih]
    grind only
  | case6 i name1 t1 fs1 name2 t2 fs2 hlt hgt ih =>
    have heq : name1 = name2 := le_antisymm (not_lt.mp hgt) (not_lt.mp hlt)
    subst heq
    simp only [List.map_cons, List.mem_cons, ih]
    grind only

/-- What the pairing of two lists of fields says of a name; the first field of the first
list has the index `i`. -/
structure PairAt (rest1 rest2 : SemType) (i : Nat) (fs1 fs2 : List (String × SemType))
    (p : CellFieldPair) : Prop where
  type1 : p.type1 = fieldType fs1 rest1 p.name
  type2 : p.type2 = fieldType fs2 rest2 p.name
  index1 : (p.index1 = none ∧ p.name ∉ fs1.map (·.1)) ∨
    ∃ j, p.index1 = some (i + j) ∧ (fs1.map (·.1))[j]? = some p.name

variable {p : CellFieldPair} {field : String × SemType} {fs1 fs2 : List (String × SemType)}

theorem PairAt.cons_left {i : Nat} (hlt : field.1 < p.name) (h : PairAt rest1 rest2 (i + 1) fs1 fs2 p) :
    PairAt rest1 rest2 i (field :: fs1) fs2 p where
  type1 := by rw [fieldType_cons, if_neg (ne_of_gt hlt), h.type1]
  type2 := h.type2
  index1 := by
    rcases h.index1 with ⟨hnone, hnot⟩ | ⟨j, hj, hname⟩
    · refine .inl ⟨hnone, ?_⟩
      rw [List.map_cons, List.mem_cons, not_or]
      exact ⟨ne_of_gt hlt, hnot⟩
    · refine .inr ⟨j + 1, by rw [hj, Nat.add_right_comm, Nat.add_assoc], ?_⟩
      rw [List.map_cons, List.getElem?_cons_succ, hname]

theorem PairAt.cons_right {i : Nat} (hlt : field.1 < p.name) (h : PairAt rest1 rest2 i fs1 fs2 p) :
    PairAt rest1 rest2 i fs1 (field :: fs2) p where
  type1 := h.type1
  type2 := by rw [fieldType_cons, if_neg (ne_of_gt hlt), h.type2]
  index1 := h.index1

/-- All names of a pairing are greater than one that is smaller than those of the atoms. -/
theorem lt_of_mem_mappingPairs {i : Nat} {name : String} (h1 : ∀ f ∈ fs1, name < f.1)
    (h2 : ∀ f ∈ fs2, name < f.1) (hp : p ∈ mappingPairs rest1 rest2 i fs1 fs2) : name < p.name := by
  have hname := (mem_names_mappingPairs i fs1 fs2 p.name).mp (List.mem_map_of_mem hp)
  rcases hname with hname | hname
  · obtain ⟨f, hf, heq⟩ := List.mem_map.mp hname
    exact heq ▸ h1 f hf
  · obtain ⟨f, hf, heq⟩ := List.mem_map.mp hname
    exact heq ▸ h2 f hf

theorem notMem_names_of_lt {fs : List (String × SemType)} {name : String}
    (h : ∀ f ∈ fs, name < f.1) : name ∉ fs.map (·.1) := by
  intro hmem
  obtain ⟨f, hf, heq⟩ := List.mem_map.mp hmem
  exact absurd (h f hf) (by rw [heq]; exact lt_irrefl name)

theorem lt_fields_of_lt_head {fs : List (String × SemType)} {name : String} (hlt : name < field.1)
    (h : SortedFields (field :: fs)) :
    ∀ f ∈ field :: fs, name < f.1 := by
  intro f hf
  rcases List.mem_cons.mp hf with rfl | hf
  · exact hlt
  · exact lt_trans hlt ((List.pairwise_cons.mp h).1 f hf)

/-- The pairing gives each name the types it has in the two atoms, in increasing order. -/
theorem mappingPairs_spec (i : Nat) (fs1 fs2 : List (String × SemType)) (h1 : SortedFields fs1)
    (h2 : SortedFields fs2) :
    (∀ p ∈ mappingPairs rest1 rest2 i fs1 fs2, PairAt rest1 rest2 i fs1 fs2 p) ∧
      (mappingPairs rest1 rest2 i fs1 fs2).Pairwise fun p q => p.name < q.name := by
  fun_induction mappingPairs rest1 rest2 i fs1 fs2 with
  | case1 => exact ⟨fun p hp => absurd hp List.not_mem_nil, List.Pairwise.nil⟩
  | case2 i name2 t2 fs2 ih =>
    obtain ⟨hlt2, h2⟩ := List.pairwise_cons.mp h2
    obtain ⟨ihpair, ihsorted⟩ := ih h1 h2
    have hgt : ∀ p ∈ mappingPairs rest1 rest2 i [] fs2, name2 < p.name := fun p hp =>
      lt_of_mem_mappingPairs (fun f hf => absurd hf List.not_mem_nil) hlt2 hp
    refine ⟨fun p hp => ?_, List.pairwise_cons.mpr ⟨hgt, ihsorted⟩⟩
    rcases List.mem_cons.mp hp with rfl | hp
    · exact ⟨rfl, by rw [fieldType_cons, if_pos rfl], .inl ⟨rfl, List.not_mem_nil⟩⟩
    · exact (ihpair p hp).cons_right (hgt p hp)
  | case3 i name1 t1 fs1 ih =>
    obtain ⟨hlt1, h1⟩ := List.pairwise_cons.mp h1
    obtain ⟨ihpair, ihsorted⟩ := ih h1 h2
    have hgt : ∀ p ∈ mappingPairs rest1 rest2 (i + 1) fs1 [], name1 < p.name := fun p hp =>
      lt_of_mem_mappingPairs hlt1 (fun f hf => absurd hf List.not_mem_nil) hp
    refine ⟨fun p hp => ?_, List.pairwise_cons.mpr ⟨hgt, ihsorted⟩⟩
    rcases List.mem_cons.mp hp with rfl | hp
    · exact ⟨by rw [fieldType_cons, if_pos rfl], rfl, .inr ⟨0, rfl, rfl⟩⟩
    · exact (ihpair p hp).cons_left (hgt p hp)
  | case4 i name1 t1 fs1 name2 t2 fs2 hlt ih =>
    obtain ⟨hlt1, h1⟩ := List.pairwise_cons.mp h1
    obtain ⟨ihpair, ihsorted⟩ := ih h1 h2
    have hlt2 := lt_fields_of_lt_head hlt h2
    have hgt : ∀ p ∈ mappingPairs rest1 rest2 (i + 1) fs1 ((name2, t2) :: fs2), name1 < p.name :=
      fun p hp => lt_of_mem_mappingPairs hlt1 hlt2 hp
    refine ⟨fun p hp => ?_, List.pairwise_cons.mpr ⟨hgt, ihsorted⟩⟩
    rcases List.mem_cons.mp hp with rfl | hp
    · refine ⟨by rw [fieldType_cons, if_pos rfl], ?_, .inr ⟨0, rfl, rfl⟩⟩
      exact (fieldType_of_notMem rest2 (notMem_names_of_lt hlt2)).symm
    · exact (ihpair p hp).cons_left (hgt p hp)
  | case5 i name1 t1 fs1 name2 t2 fs2 hlt hgt ih =>
    obtain ⟨hlt2, h2⟩ := List.pairwise_cons.mp h2
    obtain ⟨ihpair, ihsorted⟩ := ih h1 h2
    have hlt1 := lt_fields_of_lt_head hgt h1
    have hgt : ∀ p ∈ mappingPairs rest1 rest2 i ((name1, t1) :: fs1) fs2, name2 < p.name :=
      fun p hp => lt_of_mem_mappingPairs hlt1 hlt2 hp
    refine ⟨fun p hp => ?_, List.pairwise_cons.mpr ⟨hgt, ihsorted⟩⟩
    rcases List.mem_cons.mp hp with rfl | hp
    · refine ⟨?_, by rw [fieldType_cons, if_pos rfl], .inl ⟨rfl, notMem_names_of_lt hlt1⟩⟩
      exact (fieldType_of_notMem rest1 (notMem_names_of_lt hlt1)).symm
    · exact (ihpair p hp).cons_right (hgt p hp)
  | case6 i name1 t1 fs1 name2 t2 fs2 hlt hgt ih =>
    have heq : name1 = name2 := le_antisymm (not_lt.mp hgt) (not_lt.mp hlt)
    subst heq
    obtain ⟨hlt1, h1⟩ := List.pairwise_cons.mp h1
    obtain ⟨hlt2, h2⟩ := List.pairwise_cons.mp h2
    obtain ⟨ihpair, ihsorted⟩ := ih h1 h2
    have hgt : ∀ p ∈ mappingPairs rest1 rest2 (i + 1) fs1 fs2, name1 < p.name :=
      fun p hp => lt_of_mem_mappingPairs hlt1 hlt2 hp
    refine ⟨fun p hp => ?_, List.pairwise_cons.mpr ⟨hgt, ihsorted⟩⟩
    rcases List.mem_cons.mp hp with rfl | hp
    · exact ⟨by rw [fieldType_cons, if_pos rfl], by rw [fieldType_cons, if_pos rfl],
        .inr ⟨0, rfl, rfl⟩⟩
    · exact ((ihpair p hp).cons_left (hgt p hp)).cons_right (hgt p hp)

/-- The pairing of two atoms: each name of either comes once, with its types in both. -/
theorem mem_mappingPairing {m1 m2 : MappingAtomicType} (h1 : m1.Sorted) (h2 : m2.Sorted)
    (hp : p ∈ mappingPairing m1 m2) :
    PairAt m1.rest m2.rest 0 m1.fields m2.fields p :=
  (mappingPairs_spec 0 _ _ h1.fields h2.fields).1 p hp

theorem exists_mem_mappingPairing {m1 m2 : MappingAtomicType} (h1 : m1.Sorted) (h2 : m2.Sorted)
    {k : String} (hk : k ∈ m1.names ∨ k ∈ m2.names) : ∃ p ∈ mappingPairing m1 m2, p.name = k := by
  rw [← h1.map_fields, ← h2.map_fields] at hk
  exact List.mem_map.mp ((mem_names_mappingPairs 0 _ _ k).mpr hk)

/-- A name that neither atom has takes both rest types. -/
theorem memberAt_of_notMem {m : MappingAtomicType} (h : m.Sorted) {k : String}
    (hk : k ∉ m.names) : mappingAtomicTypeMemberAt m k = m.rest := by
  rw [← h.map_fields] at hk
  exact fieldType_of_notMem m.rest hk

end Pairing

/-! ## Replacing and inserting a field -/

theorem fieldType_set (rest d : SemType) : ∀ (names : List String) (types : List SemType)
    (i : Nat) (name : String), names.Nodup → names.length = types.length →
    names[i]? = some name → ∀ k, fieldType (names.zip (types.set i d)) rest k =
      if k = name then d else fieldType (names.zip types) rest k
  | [], _, i, name, _, _, hi, _ => by cases hi
  | _ :: _, [], _, _, _, hlen, _, _ => by cases hlen
  | n :: names, t :: types, 0, name, hnodup, hlen, hi, k => by
    cases hi
    rw [List.set_cons_zero, List.zip_cons_cons, List.zip_cons_cons, fieldType_cons, fieldType_cons]
    split
    next => rfl
    next => rfl
  | n :: names, t :: types, i + 1, name, hnodup, hlen, hi, k => by
    rw [List.nodup_cons] at hnodup
    rw [List.getElem?_cons_succ] at hi
    rw [List.set_cons_succ, List.zip_cons_cons, List.zip_cons_cons, fieldType_cons, fieldType_cons,
      fieldType_set rest d names types i name hnodup.2 (Nat.succ.inj hlen) hi]
    by_cases hk : k = n
    · have hname : k ≠ name := fun heq => hnodup.1 (by
        rw [← hk, heq]
        exact List.mem_of_getElem? hi)
      rw [if_pos hk, if_neg hname, if_pos hk]
    · rw [if_neg hk, if_neg hk]

theorem fieldType_append_cons {l1 : List (String × SemType)} (h : name ∉ l1.map (·.1))
    (t rest : SemType) (l2 : List (String × SemType)) (k : String) :
    fieldType (l1 ++ (name, t) :: l2) rest k =
      if k = name then t else fieldType (l1 ++ l2) rest k := by
  induction l1 with
  | nil => exact fieldType_cons (name, t) l2 rest k
  | cons field l1 ih =>
    rw [List.map_cons, List.mem_cons, not_or] at h
    rw [List.cons_append, List.cons_append, fieldType_cons, fieldType_cons, ih h.2]
    by_cases hk : k = field.1
    · have hname : k ≠ name := fun heq => h.1 (heq.symm.trans hk)
      rw [if_pos hk, if_neg hname, if_pos hk]
    · rw [if_neg hk, if_neg hk]

/-- `insertIndex` stops right after the last smaller name. -/
theorem insertIndex_spec (names : List String) (name : String) : ∀ n, n ≤ names.length →
    insertIndex names name n ≤ n ∧
    (∀ j, insertIndex names name n ≤ j → j < n → ∀ x, names[j]? = some x → ¬ x < name) ∧
    (∀ x, 0 < insertIndex names name n → names[insertIndex names name n - 1]? = some x → x < name)
  | 0, _ => ⟨Nat.le_refl 0, fun j _ hj => absurd hj (Nat.not_lt_zero j),
      fun _ h => absurd h (Nat.lt_irrefl 0)⟩
  | n + 1, hn => by
    unfold insertIndex
    split
    next h =>
      refine ⟨Nat.le_refl _, fun j hj hlt => absurd hlt (by omega), fun x _ hx => ?_⟩
      rw [Nat.add_sub_cancel] at hx
      rw [hx] at h
      exact of_decide_eq_true h
    next h =>
      obtain ⟨hle, hge, hlt⟩ := insertIndex_spec names name n (by omega)
      refine ⟨by omega, fun j hj hjn x hx => ?_, hlt⟩
      by_cases hjn' : j = n
      · subst hjn'
        rw [hx] at h
        exact fun hxlt => h (decide_eq_true hxlt)
      · exact hge j hj (by omega) x hx

/-- The names around the place of a new name. -/
theorem insertIndex_split {names : List String} (h : names.Pairwise (· < ·)) (hnot : name ∉ names) :
    (∀ x ∈ names.take (insertIndex names name names.length), x < name) ∧
    ∀ x ∈ names.drop (insertIndex names name names.length), name < x := by
  obtain ⟨hle, hge, hlt⟩ := insertIndex_spec names name names.length (Nat.le_refl _)
  generalize insertIndex names name names.length = i at *
  refine ⟨fun x hx => ?_, fun x hx => ?_⟩
  · -- everything before the place is at most the name just before it
    obtain ⟨j, hj, hget⟩ := List.mem_iff_getElem.mp hx
    rw [List.length_take, Nat.lt_min] at hj
    rw [List.getElem_take] at hget
    have hpos : 0 < i := by omega
    have hlast := hlt _ hpos (List.getElem?_eq_getElem (by omega))
    rcases Nat.lt_or_ge j (i - 1) with hji | hji
    · rw [← hget]
      exact lt_trans (List.pairwise_iff_getElem.mp h j (i - 1) hj.2 (by omega) hji) hlast
    · have hji : j = i - 1 := by omega
      subst hji
      rw [← hget]
      exact hlast
  · obtain ⟨j, hj, hget⟩ := List.mem_iff_getElem.mp hx
    rw [List.length_drop] at hj
    rw [List.getElem_drop] at hget
    have hnlt := hge (i + j) (by omega) (by omega) x (by
      rw [← hget]
      exact List.getElem?_eq_getElem (by omega))
    refine lt_of_le_of_ne (not_lt.mp hnlt) fun heq => hnot ?_
    rw [heq]
    exact List.mem_of_mem_drop hx

theorem insertIdx_eq_take_drop {α : Type} (x : α) : ∀ {l : List α} {i : Nat}, i ≤ l.length →
    l.insertIdx i x = l.take i ++ x :: l.drop i
  | _, 0, _ => rfl
  | [], i + 1, h => absurd h (Nat.not_succ_le_zero i)
  | a :: l, i + 1, h => by
    rw [List.insertIdx_succ_cons, insertIdx_eq_take_drop x (Nat.le_of_succ_le_succ h)]
    rfl

/-- A new field: the names stay sorted, and only the new name has a new type. -/
theorem insertField_spec (h : m.Sorted) (hnot : name ∉ m.names) (t : SemType) :
    (insertField m name t).Sorted ∧
      ∀ k, mappingAtomicTypeMemberAt (insertField m name t) k =
        if k = name then t else mappingAtomicTypeMemberAt m k := by
  obtain ⟨hbefore, hafter⟩ := insertIndex_split h.names hnot
  have hle := (insertIndex_spec m.names name m.names.length (Nat.le_refl _)).1
  unfold insertField mappingAtomicTypeMemberAt MappingAtomicType.fields
  generalize insertIndex m.names name m.names.length = i at *
  have hle' : i ≤ m.types.length := h.length ▸ hle
  dsimp only
  rw [insertIdx_eq_take_drop name hle, insertIdx_eq_take_drop t hle']
  refine ⟨⟨?_, ?_⟩, fun k => ?_⟩
  · simp [h.length]
  · have hpair := h.names
    rw [← List.take_append_drop i m.names, List.pairwise_append] at hpair
    refine List.pairwise_append.mpr ⟨hpair.1, List.pairwise_cons.mpr ⟨hafter, hpair.2.1⟩, ?_⟩
    intro x hx y hy
    rcases List.mem_cons.mp hy with rfl | hy
    · exact hbefore x hx
    · exact hpair.2.2 x hx y hy
  · have hzip : m.names.zip m.types =
        (m.names.take i).zip (m.types.take i) ++ (m.names.drop i).zip (m.types.drop i) := by
      rw [← List.zip_append (by simp [h.length]), List.take_append_drop, List.take_append_drop]
    rw [List.zip_append (by simp [h.length]), List.zip_cons_cons, fieldType_append_cons, ← hzip]
    rw [List.map_fst_zip (by simp [h.length])]
    exact fun hmem => hnot (List.mem_of_mem_take hmem)

/-- A new type for a field. -/
theorem setField_spec (h : m.Sorted) {i : Nat} (hi : m.names[i]? = some name) (t : SemType) :
    MappingAtomicType.Sorted ⟨m.names, m.types.set i t, m.rest⟩ ∧
      ∀ k, mappingAtomicTypeMemberAt ⟨m.names, m.types.set i t, m.rest⟩ k =
        if k = name then t else mappingAtomicTypeMemberAt m k := by
  refine ⟨⟨by rw [List.length_set, h.length], h.names⟩, fun k => ?_⟩
  have hnodup : m.names.Nodup := by
    rw [← h.map_fields]
    exact h.fields.nodup
  exact fieldType_set m.rest t m.names m.types i name hnodup h.length hi k

/-! ## Mappings as assignments -/

theorem fieldType_cases (fields : List (String × SemType)) (rest : SemType) (k : String) :
    fieldType fields rest k = rest ∨ ∃ f ∈ fields, f.1 = k ∧ fieldType fields rest k = f.2 := by
  induction fields with
  | nil => exact .inl rfl
  | cons field fields ih =>
    rw [fieldType_cons]
    by_cases hk : k = field.1
    · rw [if_pos hk]
      exact .inr ⟨field, .head _, hk.symm, rfl⟩
    · rw [if_neg hk]
      rcases ih with h | ⟨f, hf, hname, h⟩
      · exact .inl h
      · exact .inr ⟨f, .tail _ hf, hname, h⟩

/-- An atom all of whose types are in `S`. -/
structure MappingAtomicType.Over (S : SemType → Prop) (m : MappingAtomicType) : Prop where
  sorted : m.Sorted
  types : ∀ t ∈ m.types, S t
  rest : S m.rest

theorem MappingAtomicType.Over.memberAt {S : SemType → Prop} (h : m.Over S) (k : String) :
    S (mappingAtomicTypeMemberAt m k) := by
  unfold mappingAtomicTypeMemberAt
  rcases fieldType_cases m.fields m.rest k with hrest | ⟨f, hf, -, hf'⟩
  · rw [hrest]
    exact h.rest
  · rw [hf']
    exact h.types f.2 (h.sorted.map_types ▸ List.mem_map_of_mem hf)

theorem MappingAtomicType.Over.imp {S T : SemType → Prop} (h : m.Over S) (hST : ∀ t, S t → T t) :
    m.Over T :=
  ⟨h.sorted, fun t ht => hST t (h.types t ht), hST _ h.rest⟩

variable {V : Type}

/-- The assignment gives every name a member of its type. -/
def MappingAtomicType.Contains (den : SemType → Set V) (m : MappingAtomicType) (f : String → V) :
    Prop := ∀ k, f k ∈ den (mappingAtomicTypeMemberAt m k)

/-- What is assumed of the operations on the types of fields. `Cell` is a set of cell types
on which `diff` is exact, `Atomic` a part of it with the types of single cell atoms, on which
`intersectMemberSemTypes` is exact too; `R c v` says that `v` is an atom for the cell `c`. -/
structure ExactFields [BddIdentity] (den : SemType → Set V)
    (R : CellAtomicType → TypeAtom → Prop) (Cell Atomic : SemType → Prop) : Prop where
  cell : ∀ {t : SemType}, Atomic t → Cell t
  /-- every member belongs to the type that `MAPPING_ATOMIC_INNER` has for it -/
  top : Atomic CELL_SEMTYPE_INNER ∧ den CELL_SEMTYPE_INNER = Set.univ
  inner : ∀ {t : SemType}, Atomic t → ∃ ty, cellInner t = some ty ∧ (ty = NEVER → den t = ∅)
  diff : ∀ {t1 t2 : SemType}, Cell t1 → Cell t2 → ∃ d, diff ops t1 t2 = some d ∧
    toCellSemType d = some d ∧ Cell d ∧ den d = den t1 \ den t2
  intersect : ∀ {t1 t2 : SemType}, Atomic t1 → Atomic t2 →
    (intersectMemberSemTypes t1 t2).Ensures R Cell (EmptyRight den)
      fun t => Atomic t ∧ den t = den t1 ∩ den t2

/-- The types of single cells have exact operations, if intersections of cells have atoms. -/
theorem CellTable.exactFields [BddIdentity] (T : CellTable V) (hmeets : T.Meets)
    (hinner : T.has ⟨.bits INNER, .limited⟩ ∧ T.index ⟨.bits INNER, .limited⟩ = 2 ∧
      T.mem ⟨.bits INNER, .limited⟩ = Set.univ) :
    ExactFields T.den T.Names Positive T.Single where
  cell := Single.positive
  top := by
    obtain ⟨hhas, hindex, hmem⟩ := hinner
    have hden := T.den_single hhas
    rw [hindex, hmem] at hden
    exact ⟨⟨_, hhas, by rw [hindex]; rfl⟩, hden⟩
  inner := by
    intro t ht
    obtain ⟨c, hc, rfl⟩ := ht
    refine ⟨c.ty, ?_, fun hnever => ?_⟩
    · unfold cellInner
      rw [cellAtomicType_single]
      rfl
    · rw [T.den_single hc, T.mem_never hnever]
  diff h1 h2 := T.diff_exact h1 h2
  intersect h1 h2 := T.intersectMemberSemTypes_ensures hmeets h1 h2

section Exact

variable {den : SemType → Set V} {R : CellAtomicType → TypeAtom → Prop}
  {Cell Atomic : SemType → Prop} [BddIdentity]

/-! ## The intersection of the positive atoms -/

/-- The loop of `intersectMapping`, over pairs with atomic types. -/
theorem intersectFields_ensures (hx : ExactFields den R Cell Atomic) :
    ∀ (pairs : List CellFieldPair), (∀ p ∈ pairs, Atomic p.type1 ∧ Atomic p.type2) →
      (intersectFields pairs).Ensures R Cell (EmptyRight den) fun r =>
        r.elim (∃ p ∈ pairs, den p.type1 = ∅) fun fields =>
          fields.1 = pairs.map (·.name) ∧ List.Forall₂
            (fun p t => Atomic t ∧ den t = den p.type1 ∩ den p.type2) pairs fields.2
  | [], _ => ⟨rfl, List.Forall₂.nil⟩
  | p :: pairs, h => by
    obtain ⟨h1, h2⟩ := h p (.head _)
    refine (hx.intersect h1 h2).bind fun t ht => ?_
    obtain ⟨ty, hty, hnever⟩ := hx.inner h1
    refine Prog.Ensures.ofOption hty ?_
    split
    next h => exact ⟨p, .head _, hnever h⟩
    next =>
      refine (intersectFields_ensures hx pairs fun q hq => h q (.tail _ hq)).bind
        fun r hr => ?_
      cases r with
      | none =>
        obtain ⟨q, hq, hempty⟩ := hr
        exact ⟨q, .tail _ hq, hempty⟩
      | some fields =>
        refine ⟨?_, List.Forall₂.cons ht hr.2⟩
        rw [hr.1, List.map_cons]

omit [BddIdentity] in
/-- Types given to the names of pairs, one by one. -/
theorem fieldType_zip_of_forall₂ {P : CellFieldPair → SemType → Prop} {pairs : List CellFieldPair}
    {types : List SemType} (h : List.Forall₂ P pairs types) (rest : SemType) {k : String}
    (hk : k ∈ pairs.map (·.name)) :
    ∃ p ∈ pairs, p.name = k ∧ P p (fieldType ((pairs.map (·.name)).zip types) rest k) := by
  induction h with
  | nil => exact absurd hk List.not_mem_nil
  | @cons p t pairs types hpt _ ih =>
    rw [List.map_cons, List.zip_cons_cons, fieldType_cons]
    by_cases hname : k = p.name
    · rw [if_pos hname]
      exact ⟨p, .head _, hname.symm, hpt⟩
    · rw [if_neg hname]
      rw [List.map_cons, List.mem_cons] at hk
      obtain ⟨q, hq, hqk, hP⟩ := ih (hk.resolve_left hname)
      exact ⟨q, .tail _ hq, hqk, hP⟩

omit [BddIdentity] in
theorem forall_of_forall₂ {α β : Type} {P : α → β → Prop} {Q : β → Prop} {l1 : List α}
    {l2 : List β} (h : List.Forall₂ P l1 l2) (hPQ : ∀ a b, P a b → Q b) : ∀ b ∈ l2, Q b := by
  induction h with
  | nil => exact fun b hb => absurd hb List.not_mem_nil
  | @cons a b l1 l2 hab _ ih =>
    intro c hc
    rcases List.mem_cons.mp hc with rfl | hc
    · exact hPQ a c hab
    · exact ih c hc

theorem intersectMapping_ensures (hx : ExactFields den R Cell Atomic) {m1 m2 : MappingAtomicType}
    (h1 : m1.Over Atomic) (h2 : m2.Over Atomic) :
    (intersectMapping m1 m2).Ensures R Cell (EmptyRight den) fun r =>
      r.elim (∀ f, ¬ (m1.Contains den f ∧ m2.Contains den f)) fun m => m.Over Atomic ∧
        den m.rest = den m1.rest ∩ den m2.rest ∧
        ∀ f, m.Contains den f ↔ m1.Contains den f ∧ m2.Contains den f := by
  have hpair : ∀ p ∈ mappingPairing m1 m2, p.type1 = mappingAtomicTypeMemberAt m1 p.name ∧
      p.type2 = mappingAtomicTypeMemberAt m2 p.name := fun p hp =>
    have h := mem_mappingPairing h1.sorted h2.sorted hp
    ⟨h.type1, h.type2⟩
  refine (intersectFields_ensures hx (mappingPairing m1 m2) fun p hp => ?_).bind fun r hr => ?_
  · obtain ⟨ht1, ht2⟩ := hpair p hp
    rw [ht1, ht2]
    exact ⟨h1.memberAt p.name, h2.memberAt p.name⟩
  cases r with
  | none =>
    obtain ⟨p, hp, hempty⟩ := hr
    intro f hf
    have hmem := hf.1 p.name
    rw [← (hpair p hp).1, hempty] at hmem
    exact hmem
  | some fields =>
    obtain ⟨hnames, htypes⟩ := hr
    refine (hx.intersect h1.rest h2.rest).bind fun rest hrest => ?_
    have hsorted : MappingAtomicType.Sorted ⟨fields.1, fields.2, rest⟩ := by
      refine ⟨?_, ?_⟩
      · rw [hnames, List.length_map]
        exact htypes.length_eq
      · rw [hnames, List.pairwise_map]
        exact (mappingPairs_spec 0 _ _ h1.sorted.fields h2.sorted.fields).2
    have hmember : ∀ k, den (mappingAtomicTypeMemberAt ⟨fields.1, fields.2, rest⟩ k) =
        den (mappingAtomicTypeMemberAt m1 k) ∩ den (mappingAtomicTypeMemberAt m2 k) := by
      intro k
      by_cases hk : k ∈ fields.1
      · rw [hnames] at hk
        obtain ⟨p, hp, hpk, -, hden⟩ := fieldType_zip_of_forall₂ htypes rest hk
        unfold mappingAtomicTypeMemberAt MappingAtomicType.fields
        rw [hnames, hden, (hpair p hp).1, (hpair p hp).2, hpk]
        rfl
      · have hk' : k ∉ m1.names ∧ k ∉ m2.names := by
          rw [← not_or]
          intro hmem
          obtain ⟨p, hp, hpk⟩ := exists_mem_mappingPairing h1.sorted h2.sorted hmem
          rw [hnames] at hk
          exact hk (hpk ▸ List.mem_map_of_mem hp)
        rw [memberAt_of_notMem hsorted hk, memberAt_of_notMem h1.sorted hk'.1,
          memberAt_of_notMem h2.sorted hk'.2]
        exact hrest.2
    refine ⟨⟨hsorted, fun t ht => ?_, hrest.1⟩, hrest.2, fun f => ?_⟩
    · exact forall_of_forall₂ htypes (fun p t h => h.1) t ht
    · unfold MappingAtomicType.Contains
      rw [← forall_and]
      refine forall_congr' fun k => ?_
      rw [hmember k]
      exact Set.mem_inter_iff _ _ _

/-- An atom of the environment contains the assignment. -/
def Env.MappingContains (den : SemType → Set V) (env : Env) (f : String → V) (atom : Atom) :
    Prop := ∃ m, env.mappingAtomType atom = some m ∧ m.Contains den f

variable {undef : V} {env : Env} {m pos : MappingAtomicType}

omit [BddIdentity] in
theorem Env.mappingContains_iff {atom : Atom} (h : env.mappingAtomType atom = some m) (f : String → V) :
    env.MappingContains den f atom ↔ m.Contains den f := by
  refine ⟨fun hf => ?_, fun hf => ⟨m, h, hf⟩⟩
  obtain ⟨m', hm', hf⟩ := hf
  rw [h] at hm'
  cases hm'
  exact hf

/-- What is asked of the atoms: known, with sorted names and types in `S`, and an absent
field allowed wherever no name is given. -/
def Env.MappingsOver (den : SemType → Set V) (undef : V) (S : SemType → Prop) (env : Env)
    (atoms : List Atom) : Prop :=
  ∀ atom ∈ atoms, ∃ m, env.mappingAtomType atom = some m ∧ m.Over S ∧ undef ∈ den m.rest

theorem combineMappings_ensures (hx : ExactFields den R Cell Atomic) {env : Env} {undef : V} :
    ∀ (atoms : List Atom) (combined : MappingAtomicType), env.MappingsOver den undef Atomic atoms →
      combined.Over Atomic → undef ∈ den combined.rest →
      (combineMappings env atoms combined).Ensures R Cell (EmptyRight den) fun r =>
        r.elim (∀ f, ¬ (combined.Contains den f ∧ ∀ atom ∈ atoms, env.MappingContains den f atom))
          fun m => m.Over Atomic ∧ undef ∈ den m.rest ∧ ∀ f, m.Contains den f ↔
            combined.Contains den f ∧ ∀ atom ∈ atoms, env.MappingContains den f atom
  | [], combined, _, hover, hundef => by
    refine ⟨hover, hundef, fun f => ?_⟩
    simp
  | atom :: atoms, combined, h, hover, hundef => by
    obtain ⟨next, hnext, hnextOver, hnextUndef⟩ := h atom (.head _)
    refine Prog.Ensures.ofOption hnext ?_
    refine (intersectMapping_ensures hx hover hnextOver).bind fun r hr => ?_
    have hcons : ∀ f, (∀ a ∈ atom :: atoms, env.MappingContains den f a) ↔
        next.Contains den f ∧ ∀ a ∈ atoms, env.MappingContains den f a := fun f => by
      rw [List.forall_mem_cons, Env.mappingContains_iff hnext]
    cases r with
    | none =>
      intro f hf
      exact hr f ⟨hf.1, ((hcons f).mp hf.2).1⟩
    | some m =>
      obtain ⟨hm, hrest, hcontains⟩ := hr
      have hmUndef : undef ∈ den m.rest := hrest ▸ ⟨hundef, hnextUndef⟩
      refine (combineMappings_ensures hx atoms m
        (fun a ha => h a (.tail _ ha)) hm hmUndef).imp fun r hr => ?_
      have hassoc : ∀ f, (m.Contains den f ∧ ∀ a ∈ atoms, env.MappingContains den f a) ↔
          combined.Contains den f ∧ ∀ a ∈ atom :: atoms, env.MappingContains den f a := fun f => by
        rw [hcontains, hcons, and_assoc]
      cases r with
      | none => exact fun f hf => hr f ((hassoc f).mpr hf)
      | some m' => exact ⟨hr.1, hr.2.1, fun f => (hr.2.2 f).trans (hassoc f)⟩

omit [BddIdentity] in
theorem anyEmpty_ensures : ∀ (types : List SemType), (∀ t ∈ types, Cell t) →
    (anyEmpty types).Ensures R Cell (EmptyRight den) fun r =>
      r = true ↔ ∃ t ∈ types, den t = ∅
  | [], _ => by
    show false = true ↔ _
    simp
  | t :: types, h => by
    refine ⟨h t (.head _), fun b hb => ?_⟩
    cases b with
    | true => exact iff_of_true rfl ⟨t, .head _, hb.mp rfl⟩
    | false =>
      refine (anyEmpty_ensures types fun u hu => h u (.tail _ hu)).imp fun r hr => ?_
      have ht : den t ≠ ∅ := fun hempty => absurd (hb.mpr hempty) (by decide)
      rw [hr, List.exists_mem_cons_iff]
      simp [ht]

/-! ## Avoiding the negative atoms -/

/-- Some assignment belongs to `pos` and to no atom of `negs`. -/
def Avoidable (den : SemType → Set V) (env : Env) (pos : MappingAtomicType) (negs : List Atom) :
    Prop := ∃ f, pos.Contains den f ∧ ∀ atom ∈ negs, ¬ env.MappingContains den f atom

/-- The same with an assignment that is outside `neg` at the name `k`. -/
def AvoidableAt (den : SemType → Set V) (env : Env) (pos neg : MappingAtomicType)
    (negs : List Atom) (k : String) : Prop :=
  ∃ f, pos.Contains den f ∧ f k ∉ den (mappingAtomicTypeMemberAt neg k) ∧
    ∀ atom ∈ negs, ¬ env.MappingContains den f atom

omit [BddIdentity] in
/-- A name that no atom mentions and at which no negative is avoided yet. -/
theorem exists_fresh {f : String → V} (names : List String) :
    ∀ (negs : List Atom), env.MappingsOver den undef Cell negs →
      (∀ atom ∈ negs, ¬ env.MappingContains den f atom) →
      ∃ k, k ∉ names ∧ ∀ v, ∀ atom ∈ negs, ¬ env.MappingContains den (Function.update f k v) atom := by
  intro negs hnegs havoid
  -- one name for each negative at which it is avoided
  have hwitness : ∃ used : List String, ∀ k, k ∉ used → ∀ v, ∀ atom ∈ negs,
      ¬ env.MappingContains den (Function.update f k v) atom := by
    induction negs with
    | nil => exact ⟨[], fun k _ v atom hatom => absurd hatom List.not_mem_nil⟩
    | cons neg negs ih =>
      obtain ⟨used, hused⟩ := ih (fun a ha => hnegs a (.tail _ ha))
        (fun a ha => havoid a (.tail _ ha))
      obtain ⟨m, hm, -, -⟩ := hnegs neg (.head _)
      have hneg := havoid neg (.head _)
      rw [Env.mappingContains_iff hm] at hneg
      obtain ⟨j, hj⟩ := not_forall.mp hneg
      refine ⟨j :: used, fun k hk v atom hatom => ?_⟩
      rw [List.mem_cons, not_or] at hk
      rcases List.mem_cons.mp hatom with rfl | hatom
      · rw [Env.mappingContains_iff hm]
        intro hcontains
        have hjk := hcontains j
        rw [Function.update_of_ne (Ne.symm hk.1)] at hjk
        exact hj hjk
      · exact hused k hk.2 v atom hatom
  obtain ⟨used, hused⟩ := hwitness
  obtain ⟨k, hk⟩ := (List.finite_toSet (names ++ used)).exists_notMem
  rw [Set.mem_ofPred_eq, List.mem_append, not_or] at hk
  exact ⟨k, hk.1, hused k hk.2⟩

omit [BddIdentity] in
/-- A negative whose rest type does not cover the positive's costs nothing. -/
theorem avoid_at_fresh (hpos : pos.Over Cell) {neg : Atom} {negs : List Atom}
    (hnegs : env.MappingsOver den undef Cell (neg :: negs)) (hm : env.mappingAtomType neg = some m)
    {v : V} (hv : v ∈ den pos.rest \ den m.rest) :
    Avoidable den env pos (neg :: negs) ↔ Avoidable den env pos negs := by
  refine ⟨fun ⟨f, hf, havoid⟩ => ⟨f, hf, fun a ha => havoid a (.tail _ ha)⟩, ?_⟩
  intro ⟨f, hf, havoid⟩
  obtain ⟨m', hm', hover, -⟩ := hnegs neg (.head _)
  rw [hm] at hm'
  cases hm'
  obtain ⟨k, hk, hfresh⟩ := exists_fresh (pos.names ++ m.names) negs
    (fun a ha => hnegs a (.tail _ ha)) havoid
  rw [List.mem_append, not_or] at hk
  refine ⟨Function.update f k v, fun j => ?_, fun atom hatom => ?_⟩
  · by_cases hj : j = k
    · subst hj
      rw [Function.update_self, memberAt_of_notMem hpos.sorted hk.1]
      exact hv.1
    · rw [Function.update_of_ne hj]
      exact hf j
  · rcases List.mem_cons.mp hatom with rfl | hatom
    · rw [Env.mappingContains_iff hm]
      intro hcontains
      have hmem := hcontains k
      rw [Function.update_self, memberAt_of_notMem hover.sorted hk.2] at hmem
      exact hv.2 hmem
    · exact hfresh v atom hatom

omit [BddIdentity] in
/-- The mapping that the loop goes on with: `pos` with `d` for one name. -/
theorem replaceField_spec (hpos : pos.Over Cell) {rest2 : SemType} {fs2 : List (String × SemType)}
    {p : CellFieldPair} (hp : PairAt pos.rest rest2 0 pos.fields fs2 p) {d : SemType} (hd : Cell d)
    {mt : MappingAtomicType} (hmt : mt = p.index1.elim (insertField pos p.name d)
      fun i => ⟨pos.names, pos.types.set i d, pos.rest⟩) :
    mt.Over Cell ∧ ∀ k, mappingAtomicTypeMemberAt mt k =
      if k = p.name then d else mappingAtomicTypeMemberAt pos k := by
  rcases hp.index1 with ⟨hnone, hnot⟩ | ⟨j, hj, hname⟩
  · rw [hpos.sorted.map_fields] at hnot
    rw [hnone] at hmt
    subst hmt
    obtain ⟨hsorted, hmember⟩ := insertField_spec hpos.sorted hnot d
    refine ⟨⟨hsorted, fun t ht => ?_, hpos.rest⟩, hmember⟩
    rcases List.eq_or_mem_of_mem_insertIdx ht with rfl | ht
    · exact hd
    · exact hpos.types t ht
  · rw [hpos.sorted.map_fields] at hname
    rw [hj, Nat.zero_add] at hmt
    subst hmt
    obtain ⟨hsorted, hmember⟩ := setField_spec hpos.sorted hname d
    refine ⟨⟨hsorted, fun t ht => ?_, hpos.rest⟩, hmember⟩
    rcases List.mem_or_eq_of_mem_set ht with ht | rfl
    · exact hpos.types t ht
    · exact hd

omit [BddIdentity] in
theorem replace_contains {mt : MappingAtomicType} {name : String} {d : SemType}
    (hmember : ∀ k, mappingAtomicTypeMemberAt mt k =
      if k = name then d else mappingAtomicTypeMemberAt pos k)
    (hsub : den d ⊆ den (mappingAtomicTypeMemberAt pos name)) (f : String → V) :
    mt.Contains den f ↔ pos.Contains den f ∧ f name ∈ den d := by
  refine ⟨fun h => ⟨fun k => ?_, ?_⟩, fun h k => ?_⟩
  · have hk := h k
    rw [hmember k] at hk
    split at hk
    next heq => exact heq ▸ hsub (heq ▸ hk)
    next => exact hk
  · have hk := h name
    rwa [hmember name, if_pos rfl] at hk
  · rw [hmember k]
    split
    next heq => exact heq ▸ h.2
    next => exact h.1 k

/-- The loop over the fields: the name at which `neg` is avoided. -/
theorem mappingInhabitedField_ensures (hx : ExactFields den R Cell Atomic) {env : Env}
    {negs : List Atom} {next : MappingAtomicType → EmptyM Bool}
    (hnext : ∀ mt : MappingAtomicType, mt.Over Cell →
      (∀ k, (den (mappingAtomicTypeMemberAt mt k)).Nonempty) →
      (next mt).Ensures R Cell (EmptyRight den) fun r => r = true ↔ Avoidable den env mt negs)
    {pos neg : MappingAtomicType} (hpos : pos.Over Cell) (hneg : neg.Over Cell)
    (hne : ∀ k, (den (mappingAtomicTypeMemberAt pos k)).Nonempty) :
    ∀ (pairs : List CellFieldPair), (∀ p ∈ pairs, p ∈ mappingPairing pos neg) →
      (mappingInhabitedField next pos pairs).Ensures R Cell (EmptyRight den) fun r => r = true ↔
        ∃ p ∈ pairs, AvoidableAt den env pos neg negs p.name
  | [], _ => by
    show false = true ↔ _
    simp
  | p :: pairs, hpairs => by
    have ih := mappingInhabitedField_ensures hx hnext hpos hneg hne pairs
      fun q hq => hpairs q (.tail _ hq)
    have hp := mem_mappingPairing hpos.sorted hneg.sorted (hpairs p (.head _))
    have ht1 : p.type1 = mappingAtomicTypeMemberAt pos p.name := hp.type1
    have ht2 : p.type2 = mappingAtomicTypeMemberAt neg p.name := hp.type2
    have hcell1 : Cell p.type1 := ht1 ▸ hpos.memberAt p.name
    have hcell2 : Cell p.type2 := ht2 ▸ hneg.memberAt p.name
    obtain ⟨d, hdiff, hcast, hd, hden⟩ := hx.diff hcell1 hcell2
    have hd' : (do toCellSemType (← diff ops p.type1 p.type2)) = some d := by
      rw [hdiff]
      exact hcast
    refine Prog.Ensures.ofOption hd' ⟨hd, fun b hb => ?_⟩
    cases b with
    | true =>
      -- nothing of the positive's type is outside the negative's
      refine ih.imp fun r hr => ?_
      have hempty := hb.mp rfl
      rw [hr, List.exists_mem_cons_iff]
      refine (or_iff_right ?_).symm
      intro ⟨f, hf, hnot, _⟩
      have hmem : f p.name ∈ den d := by
        rw [hden, ht1, ht2]
        exact ⟨hf p.name, hnot⟩
      rw [hempty] at hmem
      exact hmem
    | false =>
      have hdne : (den d).Nonempty := Set.nonempty_iff_ne_empty.mpr fun hempty =>
        absurd (hb.mpr hempty) (by decide)
      have hgo : ∀ mt : MappingAtomicType, mt = p.index1.elim (insertField pos p.name d)
            (fun i => ⟨pos.names, pos.types.set i d, pos.rest⟩) →
          ((next mt).bind fun r => if r then .pure true else
            mappingInhabitedField next pos pairs).Ensures R Cell (EmptyRight den)
            fun r => r = true ↔ ∃ q ∈ p :: pairs, AvoidableAt den env pos neg negs q.name := by
        intro mt hmt
        obtain ⟨hover, hmember⟩ := replaceField_spec hpos hp hd hmt
        have hmtne : ∀ k, (den (mappingAtomicTypeMemberAt mt k)).Nonempty := fun k => by
          rw [hmember k]
          split
          · exact hdne
          · exact hne k
        have hcontains : ∀ f, mt.Contains den f ↔ pos.Contains den f ∧
            f p.name ∉ den (mappingAtomicTypeMemberAt neg p.name) := fun f => by
          rw [replace_contains hmember (fun v hv => by rw [hden, ht1] at hv; exact hv.1), hden, ht1,
            ht2]
          exact and_congr_right fun hf => and_iff_right (hf p.name)
        refine (hnext mt hover hmtne).bind fun r hr => ?_
        cases r with
        | true =>
          obtain ⟨f, hf, havoid⟩ := hr.mp rfl
          obtain ⟨hfpos, hfneg⟩ := (hcontains f).mp hf
          exact iff_of_true rfl ⟨p, .head _, f, hfpos, hfneg, havoid⟩
        | false =>
          refine ih.imp fun r' hr' => ?_
          rw [hr', List.exists_mem_cons_iff]
          refine (or_iff_right ?_).symm
          intro ⟨f, hfpos, hfneg, havoid⟩
          exact absurd (hr.mpr ⟨f, (hcontains f).mpr ⟨hfpos, hfneg⟩, havoid⟩) (by decide)
      cases hindex : p.index1 with
      | none => exact hgo _ (by rw [hindex]; rfl)
      | some i => exact hgo _ (by rw [hindex]; rfl)

theorem mappingInhabited_ensures (hx : ExactFields den R Cell Atomic) {env : Env} {undef : V} :
    ∀ (negs : List Atom) (pos : MappingAtomicType), env.MappingsOver den undef Cell negs →
      pos.Over Cell → (∀ k, (den (mappingAtomicTypeMemberAt pos k)).Nonempty) →
      (mappingInhabited env negs pos).Ensures R Cell (EmptyRight den) fun r =>
        r = true ↔ Avoidable den env pos negs
  | [], pos, _, _, hne => by
    refine iff_of_true rfl ⟨fun k => (hne k).some, fun k => (hne k).some_mem, ?_⟩
    exact fun atom hatom => absurd hatom List.not_mem_nil
  | neg :: negs, pos, hnegs, hpos, hne => by
    have hnegs' : env.MappingsOver den undef Cell negs := fun a ha =>
      hnegs a (.tail _ ha)
    obtain ⟨m, hm, hmover, -⟩ := hnegs neg (.head _)
    obtain ⟨d, hdiff, -, hd, hden⟩ := hx.diff hpos.rest hmover.rest
    refine Prog.Ensures.ofOption hm (Prog.Ensures.ofOption hdiff ⟨hd, fun b hb => ?_⟩)
    cases b with
    | false =>
      -- the rest types differ: a fresh name avoids this negative
      have hdne : (den d).Nonempty := Set.nonempty_iff_ne_empty.mpr fun hempty =>
        absurd (hb.mpr hempty) (by decide)
      obtain ⟨v, hv⟩ := hdne
      rw [hden] at hv
      refine (mappingInhabited_ensures hx negs pos hnegs' hpos hne).imp fun r hr => ?_
      rw [hr, avoid_at_fresh hpos hnegs hm hv]
    | true =>
      refine (mappingInhabitedField_ensures hx
        (fun mt => mappingInhabited_ensures hx negs mt hnegs') hpos hmover hne
        (mappingPairing pos m) fun p hp => hp).imp fun r hr => ?_
      rw [hr]
      refine ⟨fun ⟨p, hp, f, hf, hfneg, havoid⟩ => ⟨f, hf, fun atom hatom => ?_⟩, ?_⟩
      · rcases List.mem_cons.mp hatom with rfl | hatom
        · rw [Env.mappingContains_iff hm]
          exact fun hcontains => hfneg (hcontains p.name)
        · exact havoid atom hatom
      · intro ⟨f, hf, havoid⟩
        have hneg := havoid neg (.head _)
        rw [Env.mappingContains_iff hm] at hneg
        obtain ⟨k, hk⟩ := not_forall.mp hneg
        by_cases hnames : k ∈ pos.names ∨ k ∈ m.names
        · obtain ⟨p, hp, rfl⟩ := exists_mem_mappingPairing hpos.sorted hmover.sorted hnames
          exact ⟨p, hp, f, hf, hk, fun atom hatom => havoid atom (.tail _ hatom)⟩
        · -- elsewhere the rest types decide, and the positive's is covered
          rw [not_or] at hnames
          have hfk := hf k
          rw [memberAt_of_notMem hmover.sorted hnames.2] at hk
          rw [memberAt_of_notMem hpos.sorted hnames.1] at hfk
          have hmem : f k ∈ den d := hden ▸ ⟨hfk, hk⟩
          rw [hb.mp rfl] at hmem
          exact absurd hmem (Set.notMem_empty _)

omit [BddIdentity] in
/-- Every name has an inhabited type: the fields by what was checked, the others because an
absent field is allowed. -/
theorem nonempty_memberAt (hm : m.Over Atomic) (hundef : undef ∈ den m.rest)
    (hne : ¬ ∃ t ∈ m.types, den t = ∅) (k : String) :
    (den (mappingAtomicTypeMemberAt m k)).Nonempty := by
  unfold mappingAtomicTypeMemberAt
  rcases fieldType_cases m.fields m.rest k with hrest | ⟨f, hf, -, hf'⟩
  · rw [hrest]
    exact ⟨undef, hundef⟩
  · rw [hf', Set.nonempty_iff_ne_empty]
    exact fun hempty => hne ⟨f.2, hm.sorted.map_types ▸ List.mem_map_of_mem hf, hempty⟩

theorem mappingFormulaIsEmpty_ensures (hx : ExactFields den R Cell Atomic) {posList negList : List Atom}
    (hpos : env.MappingsOver den undef Atomic posList) (hneg : env.MappingsOver den undef Cell negList) :
    (mappingFormulaIsEmpty env posList negList).Ensures R Cell (EmptyRight den) fun r =>
      r = true ↔ ¬ ∃ f : String → V, (∀ atom ∈ posList, env.MappingContains den f atom) ∧
        ∀ atom ∈ negList, ¬ env.MappingContains den f atom := by
  -- the rest of the function, from a combined positive whose types are inhabited
  have hrest : ∀ m : MappingAtomicType, m.Over Cell →
      (∀ k, (den (mappingAtomicTypeMemberAt m k)).Nonempty) →
      (∀ f, m.Contains den f ↔ ∀ atom ∈ posList, env.MappingContains den f atom) →
      ((mappingInhabited env negList m).bind fun r => .pure !r).Ensures R Cell (EmptyRight den)
        fun r => r = true ↔ ¬ ∃ f : String → V,
          (∀ atom ∈ posList, env.MappingContains den f atom) ∧
          ∀ atom ∈ negList, ¬ env.MappingContains den f atom := by
    intro m hm hne hcontains
    refine (mappingInhabited_ensures hx negList m hneg hm hne).bind fun r hr => ?_
    have hiff : Avoidable den env m negList ↔ ∃ f : String → V,
        (∀ atom ∈ posList, env.MappingContains den f atom) ∧
        ∀ atom ∈ negList, ¬ env.MappingContains den f atom :=
      exists_congr fun f => and_congr_left fun _ => hcontains f
    show (!r) = true ↔ _
    rw [← hiff, ← hr, Bool.not_eq_true', Bool.not_eq_true]
  cases posList with
  | nil =>
    refine hrest ⟨[], [], CELL_SEMTYPE_INNER⟩ ⟨⟨rfl, List.Pairwise.nil⟩, ?_, hx.cell hx.top.1⟩
      (fun k => ?_) fun f => ?_
    · exact fun t ht => absurd ht List.not_mem_nil
    · show (den CELL_SEMTYPE_INNER).Nonempty
      rw [hx.top.2]
      exact ⟨undef, Set.mem_univ _⟩
    · refine iff_of_true (fun k => ?_) fun atom hatom => absurd hatom List.not_mem_nil
      show f k ∈ den CELL_SEMTYPE_INNER
      rw [hx.top.2]
      exact Set.mem_univ _
  | cons atom atoms =>
    obtain ⟨m, hm, hmover, hundef⟩ := hpos atom (.head _)
    have hcons : ∀ f, (∀ a ∈ atom :: atoms, env.MappingContains den f a) ↔
        m.Contains den f ∧ ∀ a ∈ atoms, env.MappingContains den f a := fun f => by
      rw [List.forall_mem_cons, Env.mappingContains_iff hm]
    unfold mappingFormulaIsEmpty
    refine Prog.Ensures.ofOption hm ?_
    refine (combineMappings_ensures hx atoms m (fun a ha => hpos a (.tail _ ha))
      hmover hundef).bind fun r hr => ?_
    cases r with
    | none => exact iff_of_true rfl fun ⟨f, hf, _⟩ => hr f ((hcons f).mp hf)
    | some c =>
      obtain ⟨hc, hcundef, hcontains⟩ := hr
      refine (anyEmpty_ensures c.types fun t ht => hx.cell (hc.types t ht)).bind fun r hr => ?_
      cases r with
      | true =>
        obtain ⟨t, ht, hempty⟩ := hr.mp rfl
        refine iff_of_true rfl fun ⟨f, hf, _⟩ => ?_
        obtain ⟨field, hfield, rfl⟩ := List.mem_map.mp (hc.sorted.map_types.symm ▸ ht)
        have hmem := (hcontains f).mpr ((hcons f).mp hf) field.1
        unfold mappingAtomicTypeMemberAt at hmem
        rw [fieldType_of_mem hc.sorted.fields.nodup hfield, hempty] at hmem
        exact hmem
      | false =>
        have hne : ¬ ∃ t ∈ c.types, den t = ∅ := fun h => absurd (hr.mpr h) (by decide)
        exact hrest c (hc.imp fun t => hx.cell) (nonempty_memberAt hc hcundef hne)
          fun f => (hcontains f).trans (hcons f).symm

/-- The emptiness of a conjunction of mapping atoms is decided exactly, whatever state the
environment and the memo tables are in: if the operations on the types of fields are exact
(`hx`), interning gives an atom for the cell (`hintern`) and `isEmpty` answers rightly
(`hcall`), then `mappingFormulaIsEmpty` returns, and returns `true` exactly when no assignment
of members to names belongs to all positive atoms and to no negative one. -/
theorem mappingFormulaIsEmpty_exact {S : Type} (hx : ExactFields den R Cell Atomic)
    {intern : CellAtomicType → S → TypeAtom × S} {memo : BddIsEmpty → S → Outcome S Bool}
    {call : SemType → S → Outcome S Bool} (hintern : ∀ c s, R c (intern c s).1)
    (hcall : ∀ t s, Cell t → ∃ b s', call t s = .done b s' ∧ EmptyRight den t b) {env : Env}
    {undef : V} {posList negList : List Atom} (hpos : env.MappingsOver den undef Atomic posList)
    (hneg : env.MappingsOver den undef Cell negList) (s : S) :
    ∃ r s', (mappingFormulaIsEmpty env posList negList).exec intern memo call s = .done r s' ∧
      (r = true ↔ ¬ ∃ f : String → V, (∀ atom ∈ posList, env.MappingContains den f atom) ∧
        ∀ atom ∈ negList, ¬ env.MappingContains den f atom) :=
  (mappingFormulaIsEmpty_ensures hx hpos hneg).exec hintern hcall s

end Exact

/-- `map<int>` and `record {| int x; int|string...; |}` without `record {| int x; |}` and
`record {| int x; int...; |}`. -/
theorem mappingFormulaIsEmpty_exact_map_record :
    let _ := BddIdentity.shared
    let T := bitCells INNER
    let env := Env.init
    let INT := basicType BT_INT
    let record := fun i m b => Atom.typeAtom i (.mapping ["x"] [bitCell INNER INT .limited] (bitCell INNER b m))
    let pos := [Atom.typeAtom 12 (.mapping [] [] (bitCell INNER (INT ||| UNDEF) .limited)),
      record 13 .limited (INT ||| STRING ||| UNDEF)]
    let neg := [record 14 .none UNDEF, record 15 .limited (INT ||| UNDEF)]
    ∃ r s', (mappingFormulaIsEmpty env pos neg).exec
        T.intern (fun _ _ => .panic) T.isEmpty () = .done r s' ∧
      (r = true ↔ ¬ ∃ f : String → BitMember INNER,
        (∀ atom ∈ pos, env.MappingContains T.den f atom) ∧
        ∀ atom ∈ neg, ¬ env.MappingContains T.den f atom) := by
  intro _ T env INT record pos neg
  let undef : BitMember INNER := ⟨false, UNDEF, by decide, by decide, fun _ => ⟨BT_UNDEF, rfl⟩, by decide⟩
  have hmem : ∀ b m, m ≠ CellMutability.unlimited → (b = UNDEF → m = .none) →
      UNDEF &&& ~~~b = 0 → undef ∈ T.den (bitCell INNER b m) := fun b m hm hundef hb => by
    rw [den_bitCell INNER hm hundef]
    exact ⟨hb, fun h => by cases h⟩
  -- the records
  have hrecord : ∀ i m b, m ≠ CellMutability.unlimited → (b = UNDEF → m = .none) →
      UNDEF &&& ~~~b = 0 → ∃ mat, env.mappingAtomType (record i m b) = some mat ∧ mat.Over T.Single ∧ undef ∈ T.den mat.rest := by
    intro i m b hm hundef hb
    refine ⟨_, rfl, ⟨⟨rfl, List.pairwise_singleton _ _⟩, fun t ht => ?_, ?_⟩, hmem b m hm hundef hb⟩
    · rw [List.mem_singleton] at ht
      rw [ht]
      exact single_bitCell INNER (by decide) (by decide)
    · exact single_bitCell INNER hm hundef
  have hpos : env.MappingsOver T.den undef T.Single pos := by
    intro atom hatom
    rcases List.mem_cons.mp hatom with rfl | hatom
    · refine ⟨_, rfl, ⟨⟨rfl, List.Pairwise.nil⟩, fun t ht => absurd ht List.not_mem_nil, ?_⟩, ?_⟩
      · exact single_bitCell INNER (by decide) (by decide)
      · exact hmem _ _ (by decide) (by decide) (by decide)
    · rw [List.mem_singleton.mp hatom]
      exact hrecord _ _ _ (by decide) (by decide) (by decide)
  have hneg : env.MappingsOver T.den undef CellTable.Positive neg := by
    intro atom hatom
    have hsingle : ∃ mat, env.mappingAtomType atom = some mat ∧ mat.Over T.Single ∧
        undef ∈ T.den mat.rest := by
      rcases List.mem_cons.mp hatom with rfl | hatom
      · exact hrecord _ _ _ (by decide) (fun _ => rfl) (by decide)
      · rw [List.mem_singleton.mp hatom]
        exact hrecord _ _ _ (by decide) (by decide) (by decide)
    obtain ⟨mat, hmat, hover, hundef⟩ := hsingle
    exact ⟨mat, hmat, ⟨hover.sorted, fun t ht => (hover.types t ht).positive, hover.rest.positive⟩, hundef⟩
  have hx := T.exactFields (bitCells_meets INNER) (bitCells_inner (by decide))
  exact mappingFormulaIsEmpty_exact hx T.names_intern
    (fun t s _ => T.emptyRight_isEmpty t s) hpos hneg ()

end Nballerina.Types
