import Nballerina.Lib.SortedSearch
import Nballerina.Runtime.Mapping

/-!
# Member types and type tests

Mirroring the part of `runtime/balrt.h` on `MemberType` and `ComplexType`, `runtime/structure.c`
and the type tests of `runtime/mapping.c` and `runtime/list.c`.

A member type of a descriptor is a bit set or points to a complex type: the basic types of
which it has all values (`all`), those of which it has some (`some`), and for each of the
latter a subtype with a function `contains`.

Mirroring notes:

* a `UniformSubtype` is its function `contains`, with the structure it belongs to already
  given;
* a pointer to a `ComplexType` is even, so that `memberType & 1` tells the two constructors of
  `MemberType` apart;
* there is one subtype for each bit of `some`, which the structure has as a field.
-/

namespace Nballerina.Runtime

open Nballerina.Lib

abbrev BitSet := BitVec 32

/-- `getTag(p) & UT_MASK`. -/
def utTag (p : TaggedPtr) : Nat := ((p >>> 56) &&& 0x1F#64).toNat

def tagMapping : Nat := 0x0D

/-- `__builtin_popcount(bits & ((1 << n) - 1))`. -/
def popcountBelow (bits : BitSet) (n : Nat) : Nat := (List.range n).countP bits.getLsbD

structure ComplexType where
  all : BitSet
  some : BitSet
  subtypes : List (TaggedPtr → Bool)
  length_subtypes : subtypes.length = popcountBelow some 32

inductive MemberType where
  | bitSet (bitSet : BitSet)
  | complex (ctp : ComplexType)

theorem utTag_lt (p : TaggedPtr) : utTag p < 32 := by
  have hle : (p >>> 56 &&& 0x1F#64).toNat ≤ 0x1F := Nat.and_le_right
  exact Nat.lt_succ_of_le hle

theorem popcountBelow_lt {bits : BitSet} {n : Nat} (hn : n < 32) (h : bits.getLsbD n = true) :
    popcountBelow bits n < popcountBelow bits 32 := by
  have hsucc : popcountBelow bits (n + 1) = popcountBelow bits n + 1 := by
    unfold popcountBelow
    rw [List.range_succ, List.countP_append, List.countP_singleton, if_pos h]
  have hle : popcountBelow bits (n + 1) ≤ popcountBelow bits 32 :=
    (List.range_sublist.mpr hn).countP_le
  omega

def complexTypeContainsTagged (ctp : ComplexType) (p : TaggedPtr) : Bool :=
  if ctp.all.getLsbD (utTag p) then true
  else if h : ctp.some.getLsbD (utTag p) = true then
    ctp.subtypes.get ⟨popcountBelow ctp.some (utTag p), by
      rw [ctp.length_subtypes]
      exact popcountBelow_lt (utTag_lt p) h⟩ p
  else false

def memberTypeContainsTagged : MemberType → TaggedPtr → Bool
  | .bitSet bitSet, p => bitSet.getLsbD (utTag p)
  | .complex ctp, p => complexTypeContainsTagged ctp p

def memberBitSet : MemberType → BitSet
  | .bitSet bitSet => bitSet
  | .complex ctp => ctp.all ||| ctp.some

def memberTypeIsSubtypeSimple (memberType : MemberType) (bitSet : BitSet) : Bool :=
  memberBitSet memberType &&& ~~~bitSet == 0#32

/-! ## Type tests of mappings -/

variable {K : Type}

/-- The loop of `_bal_record_subtype_contains`, from field `i` on. -/
def recordFieldsContain (eq : K → K → Bool) (m : Mapping K MemberType) :
    Nat → List (K × BitSet) → Option Bool
  | _, [] => some true
  | i, tf :: fields => do
    let member ← m.fields[i]?
    if !eq tf.1 member.key then some false
    else
      let fieldType ← m.desc.fieldTypes[i]?
      if !memberTypeIsSubtypeSimple fieldType tf.2 then some false
      else recordFieldsContain eq m (i + 1) fields

/-- `p` points to the mapping. -/
def balRecordSubtypeContains (eq : K → K → Bool) (fields : List (K × BitSet)) (p : TaggedPtr)
    (m : Mapping K MemberType) : Option Bool :=
  if utTag p ≠ tagMapping then some false
  -- a subtype must be a closed record type with the same number of fields
  else if fields.length ≠ m.desc.fieldTypes.length then some false
  else recordFieldsContain eq m 0 fields

def balMapSubtypeContains (bitSet : BitSet) (p : TaggedPtr) (m : Mapping K MemberType) : Bool :=
  if utTag p ≠ tagMapping then false
  else m.desc.fieldTypes.all (memberTypeIsSubtypeSimple · bitSet) &&
    memberTypeIsSubtypeSimple m.desc.restType bitSet

/-- The field of the value at index `i` has the name and a type within the bit set. -/
structure FieldFits (eq : K → K → Bool) (m : Mapping K MemberType) (i : Nat) (tf : K × BitSet) :
    Prop where
  name : ∃ member, m.fields[i]? = some member ∧ eq tf.1 member.key = true
  type : ∃ fieldType, m.desc.fieldTypes[i]? = some fieldType ∧
    memberTypeIsSubtypeSimple fieldType tf.2 = true

variable {eq : K → K → Bool} {m : Mapping K MemberType}

theorem recordFieldsContain_cons {i : Nat} {tf : K × BitSet} {fields : List (K × BitSet)} :
    recordFieldsContain eq m i (tf :: fields) = some true ↔
      FieldFits eq m i tf ∧ recordFieldsContain eq m (i + 1) fields = some true := by
  rw [recordFieldsContain]
  refine ⟨fun h => ?_, fun ⟨⟨⟨member, hmember, heq⟩, ⟨ty, hty, hsub⟩⟩, h⟩ => ?_⟩
  · rw [Option.bind_eq_bind, Option.bind_eq_some_iff] at h
    obtain ⟨member, hmember, h⟩ := h
    split at h
    next => cases h
    next heq =>
      obtain ⟨ty, hty, h⟩ := Option.bind_eq_some_iff.mp h
      split at h
      next => cases h
      next hsub =>
        rw [Bool.not_eq_true', Bool.not_eq_false] at heq hsub
        exact ⟨⟨⟨member, hmember, heq⟩, ⟨ty, hty, hsub⟩⟩, h⟩
  · rw [hmember, hty, Option.bind_eq_bind, Option.bind_some, heq]
    rw [Option.bind_eq_bind, Option.bind_some, hsub]
    exact h

theorem recordFieldsContain_iff (fields : List (K × BitSet)) (i : Nat) :
    recordFieldsContain eq m i fields = some true ↔
      ∀ (j : Nat) (tf : K × BitSet), fields[j]? = some tf → FieldFits eq m (i + j) tf := by
  induction fields generalizing i with
  | nil => exact iff_of_true rfl fun j tf h => by cases h
  | cons tf fields ih =>
    rw [recordFieldsContain_cons, ih (i + 1)]
    refine ⟨fun ⟨h0, h⟩ j tf' hj => ?_, fun h => ⟨h 0 tf rfl, fun j tf' hj => ?_⟩⟩
    · cases j with
      | zero =>
        obtain rfl := Option.some.inj hj
        exact h0
      | succ j =>
        rw [Nat.add_comm j 1, ← Nat.add_assoc]
        exact h j tf' hj
    · rw [Nat.add_assoc, Nat.add_comm 1 j]
      exact h (j + 1) tf' hj

/-- The value has not enough fields, and those that it has fit. -/
theorem recordFieldsContain_eq_none_iff {fields : List (K × BitSet)} {i : Nat}
    (hlen : i + fields.length ≤ m.desc.fieldTypes.length) :
    recordFieldsContain eq m i fields = none ↔ ∃ n < fields.length, m.fields.length ≤ i + n ∧
      ∀ (j : Nat) (tf : K × BitSet), j < n → fields[j]? = some tf → FieldFits eq m (i + j) tf := by
  induction fields generalizing i with
  | nil => exact iff_of_false (fun h => by cases h) fun ⟨n, hn, _⟩ => Nat.not_lt_zero n hn
  | cons tf fields ih =>
    rw [List.length_cons] at hlen
    have htype : m.desc.fieldTypes[i]? = some m.desc.fieldTypes[i] := List.getElem?_eq_getElem (by omega)
    unfold recordFieldsContain
    by_cases hi : i < m.fields.length
    · rw [List.getElem?_eq_getElem hi, htype]
      dsimp only [Option.bind_eq_bind, Option.bind_some]
      -- a field that does not fit ends the loop
      have hstops : ¬ FieldFits eq m i tf → ¬ ∃ n < (tf :: fields).length, m.fields.length ≤ i + n ∧
          ∀ (j : Nat) (tf' : K × BitSet), j < n → (tf :: fields)[j]? = some tf' →
            FieldFits eq m (i + j) tf' :=
        fun hnot ⟨n, _, hn, h⟩ => hnot (h 0 tf (by omega) rfl)
      split
      next hname =>
        refine iff_of_false (fun h => by cases h) (hstops fun ⟨⟨member, hmember, heq⟩, _⟩ => ?_)
        rw [List.getElem?_eq_getElem hi] at hmember
        cases hmember
        rw [heq] at hname
        cases hname
      next hname =>
        split
        next hsub =>
          refine iff_of_false (fun h => by cases h) (hstops fun ⟨_, ⟨ty, hty, hsub'⟩⟩ => ?_)
          rw [htype] at hty
          cases hty
          rw [hsub'] at hsub
          cases hsub
        next hsub =>
          rw [Bool.not_eq_true', Bool.not_eq_false] at hname hsub
          have hfits : FieldFits eq m i tf :=
            ⟨⟨_, List.getElem?_eq_getElem hi, hname⟩, ⟨_, htype, hsub⟩⟩
          rw [ih (by omega)]
          constructor
          · rintro ⟨n, hn, hpast, h⟩
            refine ⟨n + 1, by rw [List.length_cons]; omega, by omega, fun j tf' hj htf' => ?_⟩
            cases j with
            | zero => exact Option.some.inj htf' ▸ hfits
            | succ j =>
              have hrest := h j tf' (by omega) htf'
              rwa [Nat.add_right_comm, Nat.add_assoc] at hrest
          · rintro ⟨n, hn, hpast, h⟩
            rw [List.length_cons] at hn
            refine ⟨n - 1, by omega, by omega, fun j tf' hj htf' => ?_⟩
            have hrest := h (j + 1) tf' (by omega) htf'
            rwa [← Nat.add_assoc, Nat.add_right_comm] at hrest
    · rw [List.getElem?_eq_none (by omega)]
      refine iff_of_true rfl ⟨0, Nat.succ_pos _, by omega, fun j tf' hj => absurd hj (Nat.not_lt_zero j)⟩

/-! ## Type tests of lists -/

/-- `nMemberTypes` is the number of member types. -/
structure ListDesc (M : Type) where
  restType : M
  memberTypes : List M

def balArraySubtypeContains (bitSet : BitSet) (desc : ListDesc MemberType) : Bool :=
  desc.memberTypes.all (memberTypeIsSubtypeSimple · bitSet) &&
    memberTypeIsSubtypeSimple desc.restType bitSet

/-! ## Precomputed subtypes -/

/-- `tid == *mid` and `tid < *mid`. -/
def tidOrdering (tid mid : Nat) : Ordering := if tid = mid then .eq else if tid < mid then .lt else .gt

/-- Binary search for `tid`. -/
def tidListContains (tids : List Nat) (tid : Nat) : Option Bool :=
  sortedSearch (tidOrdering tid) tids 0 tids.length

/-- `_bal_precomputed_subtype_contains` for a value whose descriptor has the `tid`. -/
def balPrecomputedSubtypeContains (tids : List Nat) (tid : Nat) : Option Bool :=
  tidListContains tids tid

theorem tidOrdering_comparesTo (tid mid : Nat) : ComparesTo (tidOrdering tid) tid mid mid :=
  .of_ite rfl Iff.rfl Iff.rfl

theorem tidListContains_eq_of_le {tids : List Nat} (hsorted : tids.Pairwise (· ≤ ·)) (tid : Nat) :
    tidListContains tids tid = some (decide (tid ∈ tids)) :=
  sortedSearch_eq (List.forall₂_same.mpr fun mid _ => tidOrdering_comparesTo tid mid) hsorted

theorem tidListContains_eq {tids : List Nat} (hsorted : tids.Pairwise (· < ·)) (tid : Nat) :
    tidListContains tids tid = some (decide (tid ∈ tids)) :=
  tidListContains_eq_of_le (hsorted.imp Nat.le_of_lt) tid

end Nballerina.Runtime
