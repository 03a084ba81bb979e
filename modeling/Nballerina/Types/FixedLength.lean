import Nballerina.Types.RecAtoms
import Nballerina.Types.Shapes

/-!
# The member lists of list types

"`fixedLength` must be `0` if and only if `initial` is empty and the `fixedLength` must be at least
`initial.length()`", says the comment at `FixedLengthArray` (`list.bal`), and `fixedLengthNormalize` drops
members at the end that repeat the last one (`FixedLengthArray.Normal`).

What `define` stores reads the same at every index (`listMemberAt_fixedLengthNormalize`). It is normal if and only
if the length is 0 or from some index below it on all members are the same (`LengthFits`). The function does not
check that; a caller that takes the length from the number of members need not either, one that takes it from
elsewhere does.
-/

namespace Nballerina.Types

/-! ## Normal member lists -/

structure FixedLengthArray.Normal (array : FixedLengthArray) : Prop where
  zero_iff : array.fixedLength = 0 ↔ array.initial = []
  length_le : (array.initial.length : Int) ≤ array.fixedLength
  /-- the last two members differ -/
  last_ne : ∀ i, array.initial.length = i + 2 → array.initial[i]? ≠ array.initial[i + 1]?

/-- Below the length there is an index from which on all members are the same. -/
def LengthFits (initial : List SemType) (fixedLength : Int) : Prop :=
  fixedLength = 0 ∨ ∃ k : Nat, k < initial.length ∧ (k : Int) < fixedLength ∧
    ∀ i, k ≤ i → i < initial.length → initial[i]? = initial.getLast?

/-- How many members `fixedLengthNormalize` leaves when the length is not zero. -/
def distinctLength (initial : List SemType) : Nat :=
  match initial.getLast? with
  | none => 0
  | some last => lastDistinct initial last (initial.length - 1) + 1

theorem fixedLengthNormalize_zero (initial : List SemType) :
    fixedLengthNormalize ⟨initial, 0⟩ = ⟨[], 0⟩ := rfl

variable {initial : List SemType}

/-- The branches of `fixedLengthNormalize` with another length are one. -/
theorem fixedLengthNormalize_eq {fixedLength : Int} (h : fixedLength ≠ 0) :
    fixedLengthNormalize ⟨initial, fixedLength⟩ =
      ⟨initial.take (distinctLength initial), fixedLength⟩ := by
  unfold fixedLengthNormalize distinctLength
  dsimp only
  rw [if_neg h]
  cases hlast : initial.getLast? with
  | none =>
    rw [List.getLast?_eq_none_iff] at hlast
    rw [hlast]
    rfl
  | some last =>
    dsimp only
    by_cases hone : initial.length - 1 = 0
    · rw [if_pos hone, hone]
      have hlen : initial.length ≤ 1 := by omega
      rw [show lastDistinct initial last 0 + 1 = 1 from rfl, List.take_of_length_le hlen]
    · rw [if_neg hone]

/-- From the last of the members that are left on, all are the same. -/
theorem distinctLength_spec (h : initial ≠ []) :
    0 < distinctLength initial ∧ distinctLength initial ≤ initial.length ∧
      ∀ i, distinctLength initial - 1 ≤ i → i < initial.length → initial[i]? = initial.getLast? := by
  obtain ⟨last, hlast⟩ : ∃ last, initial.getLast? = some last := ⟨_, List.getLast?_eq_some_getLast h⟩
  have hpos := List.length_pos_of_ne_nil h
  unfold distinctLength
  rw [hlast]
  dsimp only
  obtain ⟨hle, hsame⟩ := lastDistinct_spec initial last (initial.length - 1)
  refine ⟨Nat.succ_pos _, by omega, fun i hi hlt => ?_⟩
  by_cases hend : i < initial.length - 1
  · exact hsame i (by omega) hend
  · rw [List.getLast?_eq_getElem?] at hlast
    rw [show i = initial.length - 1 by omega, hlast]

/-- The member before differs from the last one. -/
theorem lastDistinct_ne (l : List SemType) (last : SemType) : ∀ n i, lastDistinct l last n = i + 1 →
    l[i]? ≠ some last
  | 0, i, h => by cases h
  | n + 1, i, h => by
    unfold lastDistinct at h
    split at h
    next => exact lastDistinct_ne l last n i h
    next hne =>
      obtain rfl : n = i := by omega
      exact hne

/-- No fewer members would do. -/
theorem distinctLength_le {k : Nat} (hk : k < initial.length)
    (h : ∀ i, k ≤ i → i < initial.length → initial[i]? = initial.getLast?) :
    distinctLength initial ≤ k + 1 := by
  have hne : initial ≠ [] := List.ne_nil_of_length_pos (by omega)
  obtain ⟨last, hlast⟩ : ∃ last, initial.getLast? = some last := ⟨_, List.getLast?_eq_some_getLast hne⟩
  unfold distinctLength
  rw [hlast]
  dsimp only
  by_contra hgt
  obtain ⟨hle, _⟩ := lastDistinct_spec initial last (initial.length - 1)
  have hbefore := lastDistinct_ne initial last (initial.length - 1)
    (lastDistinct initial last (initial.length - 1) - 1) (by omega)
  refine hbefore ?_
  rw [← hlast]
  exact h _ (by omega) (by omega)

theorem normal_fixedLengthNormalize_iff (initial : List SemType) (fixedLength : Int) :
    (fixedLengthNormalize ⟨initial, fixedLength⟩).Normal ↔ LengthFits initial fixedLength := by
  by_cases hzero : fixedLength = 0
  · subst hzero
    rw [fixedLengthNormalize_zero]
    refine iff_of_true ⟨Iff.intro (fun _ => rfl) (fun _ => rfl), le_refl _, fun i h => ?_⟩ (Or.inl rfl)
    cases h
  · rw [fixedLengthNormalize_eq hzero]
    by_cases hnil : initial = []
    · subst hnil
      refine iff_of_false (fun h => hzero (h.zero_iff.mpr rfl)) ?_
      rintro (h | ⟨k, hk, _⟩)
      · exact hzero h
      · cases hk
    obtain ⟨hpos, hle, hsame⟩ := distinctLength_spec hnil
    have hlen : (initial.take (distinctLength initial)).length = distinctLength initial :=
      List.length_take_of_le hle
    constructor
    · intro h
      have hfits := h.length_le
      dsimp only at hfits
      rw [hlen] at hfits
      exact Or.inr ⟨distinctLength initial - 1, by omega, by omega, hsame⟩
    · rintro (h | ⟨k, hk, hlt, hall⟩)
      · exact absurd h hzero
      have hmin := distinctLength_le hk hall
      refine ⟨?_, ?_, ?_⟩
      · refine iff_of_false hzero fun h => ?_
        dsimp only at h
        rw [h] at hlen
        exact absurd hlen.symm (by rw [List.length_nil]; omega)
      · dsimp only
        rw [hlen]
        omega
      · intro i hi
        dsimp only at hi ⊢
        rw [hlen] at hi
        rw [List.getElem?_take_of_lt (by omega), List.getElem?_take_of_lt (by omega),
          hsame (i + 1) (by omega) (by omega)]
        obtain ⟨last, hlast⟩ : ∃ last, initial.getLast? = some last := ⟨_, List.getLast?_eq_some_getLast hnil⟩
        rw [hlast]
        unfold distinctLength at hi
        rw [hlast] at hi
        exact lastDistinct_ne initial last (initial.length - 1) i (by dsimp only at hi; omega)

/-! ## Members at an index -/

/-- Normalising changes no member. -/
theorem listMemberAt_fixedLengthNormalize (initial : List SemType) (fixedLength : Int) (rest : SemType) {i : Int}
    (hi : 0 ≤ i) : listMemberAt (fixedLengthNormalize ⟨initial, fixedLength⟩) rest i =
      listMemberAt ⟨initial, fixedLength⟩ rest i := by
  by_cases hzero : fixedLength = 0
  · subst hzero
    rw [fixedLengthNormalize_zero]
    unfold listMemberAt
    dsimp only
    rw [if_neg (by omega), if_neg (by omega)]
  · rw [fixedLengthNormalize_eq hzero]
    unfold listMemberAt fixedArrayGet
    dsimp only
    by_cases hlt : i < fixedLength
    · rw [if_pos hlt, if_pos hlt]
      by_cases hnil : initial = []
      · subst hnil
        rfl
      obtain ⟨hpos, hle, hsame⟩ := distinctLength_spec hnil
      rw [List.length_take_of_le hle, if_pos (by omega), if_pos (by omega), List.getElem?_take_of_lt (by omega)]
      by_cases hbefore : i ≤ ((distinctLength initial : Nat) : Int) - 1
      · rw [show (min i (((distinctLength initial : Nat) : Int) - 1)).toNat = i.toNat by omega,
          show (min i (((initial.length : Nat) : Int) - 1)).toNat = i.toNat by omega]
      · rw [hsame _ (by omega) (by omega), hsame _ (by omega) (by omega)]
    · rw [if_neg hlt, if_neg hlt]

/-! ## What an `Env` stores -/

structure Env.ListsNormal (env : Env) : Prop where
  interned : ∀ ta ∈ env.atomTable, ∀ l, ta.atomicType.toList = some l → l.members.Normal
  recursive : ∀ l, some l ∈ env.recListAtoms → l.members.Normal

/-- Interning keeps the lists normal if and only if what is interned is normal. -/
theorem Env.ListsNormal.typeAtom_iff {env : Env} (h : env.ListsNormal) (t : AtomicType) :
    (env.typeAtom t).2.ListsNormal ↔ ∀ l, t.toList = some l → l.members.Normal := by
  constructor
  · intro h' l hl
    have hfind := env.find?_typeAtom_self t
    have hself := List.find?_some hfind
    have hself := of_decide_eq_true hself
    exact h'.interned _ (List.mem_of_find?_eq_some hfind) l (by rw [hself]; exact hl)
  · intro ht
    unfold Env.typeAtom
    split
    next => exact h
    next =>
      refine ⟨fun ta hta l hl => ?_, h.recursive⟩
      rcases List.mem_append.mp hta with hta | hta
      · exact h.interned ta hta l hl
      · obtain rfl := List.mem_singleton.mp hta
        exact ht l hl

/-- The recursive atom of the definition is one of the table. -/
def Definition.InTable (d : Definition) (env : Env) : Prop :=
  ∀ ra, d.recAtom = some ra → 0 ≤ ra ∧ ra.toNat < env.recListAtoms.length

section Define

variable {d : Definition} {env : Env} {initial : List SemType} {fixedLength : Int} {rest : SemType}

variable (initial fixedLength rest) in
/-- The atomic type that `define` stores, if it does not make the type of all lists. -/
theorem define_stores (hd : d.InTable env) :
    ((ListDefinition.define d env initial fixedLength rest).1 = .bits LIST ∧ fixedLength = 0 ∧
      rest = CELL_SEMTYPE_INNER) ∨
    ∃ atom, (ListDefinition.define d env initial fixedLength rest).1 = atomSemType BT_LIST atom ∧
      (ListDefinition.define d env initial fixedLength rest).2.2.listAtomType atom =
        some ⟨fixedLengthNormalize ⟨initial, fixedLength⟩, rest⟩ := by
  cases hrec : d.recAtom with
  | some ra =>
    obtain ⟨hnonneg, hlt⟩ := hd ra hrec
    refine Or.inr ⟨.recAtom ra, ?_, ?_⟩
    · simp only [ListDefinition.define, hrec, Definition.createSemType]
    · simp only [ListDefinition.define, hrec, Definition.createSemType]
      unfold Env.listAtomType Env.setRecListAtomType Env.getRecAtomType
      dsimp only
      rw [if_pos hnonneg, List.getElem?_set_self hlt]
      rfl
  | none =>
    simp only [ListDefinition.define, hrec, Definition.createSemType]
    split
    next hall => exact Or.inl ⟨rfl, hall⟩
    next => exact Or.inr ⟨_, rfl, by rw [Env.listAtom, typeAtom_toAtom]; rfl⟩

/-- `define` keeps the lists normal if the length fits. -/
theorem Env.ListsNormal.define (h : env.ListsNormal) (hfits : LengthFits initial fixedLength) :
    (ListDefinition.define d env initial fixedLength rest).2.2.ListsNormal := by
  have hnormal := (normal_fixedLengthNormalize_iff initial fixedLength).mpr hfits
  cases hrec : d.recAtom with
  | some ra =>
    simp only [ListDefinition.define, hrec, Definition.createSemType]
    refine ⟨h.interned, fun l hl => ?_⟩
    rcases List.mem_or_eq_of_mem_set hl with hl | hl
    · exact h.recursive l hl
    · cases hl
      exact hnormal
  | none =>
    simp only [ListDefinition.define, hrec, Definition.createSemType]
    split
    next => exact h
    next =>
      refine (h.typeAtom_iff _).mpr fun l hl => ?_
      cases hl
      exact hnormal

/-- `define` keeps the lists normal exactly if the length fits. -/
theorem Env.ListsNormal.define_iff (h : env.ListsNormal) (hd : d.InTable env) :
    (ListDefinition.define d env initial fixedLength rest).2.2.ListsNormal ↔
      LengthFits initial fixedLength := by
  refine ⟨fun h' => ?_, h.define⟩
  rw [← normal_fixedLengthNormalize_iff]
  cases hrec : d.recAtom with
  | some ra =>
    obtain ⟨hnonneg, hlt⟩ := hd ra hrec
    simp only [ListDefinition.define, hrec, Definition.createSemType] at h'
    exact h'.recursive ⟨_, rest⟩ (List.mem_of_getElem? (List.getElem?_set_self hlt))
  | none =>
    simp only [ListDefinition.define, hrec, Definition.createSemType] at h'
    split at h'
    next hall =>
      rw [hall.1]
      exact (normal_fixedLengthNormalize_iff initial 0).mpr (Or.inl rfl)
    next => exact (h.typeAtom_iff _).mp h' ⟨_, rest⟩ rfl

end Define

end Nballerina.Types
