import Nballerina.Types.CellSem
import Mathlib

/-!
# Types as sets

What cells, functions and the members of lists and mappings are proved of is relative to the types
they are made of: if on these types union, intersection and difference are the operations on sets
and `isEmpty` answers rightly, then so do the functions that are built on them. `ExactTypes` is
that assumption, for a meaning `den` of types and a set `Q` of types that the operations do not
leave.

`exactTypes_bits` is an instance, the bit sets as sets of basic types; `exactTypes_of_table` is for
finitely many types that the operations do not leave.
-/

namespace Nballerina.Types

open Nballerina.Lib

variable {V : Type}

/-- The operations are exact on the types of `Q`, which they do not leave. -/
structure ExactTypes [BddIdentity] (den : SemType → Set V) (Q : SemType → Prop) : Prop where
  never : Q NEVER
  den_never : den NEVER = ∅
  union : ∀ {t1 t2 : SemType}, Q t1 → Q t2 →
    ∃ t, union ops t1 t2 = some t ∧ Q t ∧ den t = den t1 ∪ den t2
  intersect : ∀ {t1 t2 : SemType}, Q t1 → Q t2 →
    ∃ t, intersect ops t1 t2 = some t ∧ Q t ∧ den t = den t1 ∩ den t2
  diff : ∀ {t1 t2 : SemType}, Q t1 → Q t2 →
    ∃ t, diff ops t1 t2 = some t ∧ Q t ∧ den t = den t1 \ den t2

section Questions

variable [BddIdentity] {den : SemType → Set V} {Q : SemType → Prop}
  {R : CellAtomicType → TypeAtom → Prop}

omit [BddIdentity] in
theorem isEmpty_ensures {t : SemType} (h : Q t) :
    (isEmpty t).Ensures R Q (EmptyRight den) fun r => r = true ↔ den t = ∅ :=
  ⟨h, fun _ hb => hb⟩

/-- `isSubtype` is inclusion. -/
theorem isSubtype_ensures (hx : ExactTypes den Q) {t1 t2 : SemType} (h1 : Q t1) (h2 : Q t2) :
    (isSubtype t1 t2).Ensures R Q (EmptyRight den) fun r => r = true ↔ den t1 ⊆ den t2 := by
  obtain ⟨d, hd, hQ, hden⟩ := hx.diff h1 h2
  refine Prog.Ensures.ofOption hd ((isEmpty_ensures hQ).imp fun r hr => ?_)
  rw [hr, hden, Set.sdiff_eq_empty]

end Questions

/-! ## Finitely many types -/

section Table

variable [BddIdentity]

/-- The operations stay within the types of a list, and do what they do on sets with the values that
a table gives to these. -/
def ClosedTable (L : List SemType) (has : SemType → V → Bool) : Prop :=
  NEVER ∈ L ∧ (∀ v, has NEVER v = false) ∧ ∀ t1 ∈ L, ∀ t2 ∈ L,
    (∃ t ∈ L, union ops t1 t2 = some t ∧ ∀ v, has t v = (has t1 v || has t2 v)) ∧
    (∃ t ∈ L, intersect ops t1 t2 = some t ∧ ∀ v, has t v = (has t1 v && has t2 v)) ∧
    ∃ t ∈ L, diff ops t1 t2 = some t ∧ ∀ v, has t v = (has t1 v && !has t2 v)

instance [Fintype V] (L : List SemType) (has : SemType → V → Bool) :
    Decidable (ClosedTable L has) := by
  unfold ClosedTable
  infer_instance

theorem exactTypes_of_table {L : List SemType} {has : SemType → V → Bool} (h : ClosedTable L has) :
    ExactTypes (fun t => {v | has t v = true}) (· ∈ L) where
  never := h.1
  den_never := Set.eq_empty_of_forall_notMem fun v hv => Bool.false_ne_true ((h.2.1 v).symm.trans hv)
  union h1 h2 := by
    obtain ⟨t, ht, hres, hden⟩ := (h.2.2 _ h1 _ h2).1
    refine ⟨t, hres, ht, Set.ext fun v => ?_⟩
    rw [Set.mem_ofPred_eq, hden, Bool.or_eq_true]
    rfl
  intersect h1 h2 := by
    obtain ⟨t, ht, hres, hden⟩ := (h.2.2 _ h1 _ h2).2.1
    refine ⟨t, hres, ht, Set.ext fun v => ?_⟩
    rw [Set.mem_ofPred_eq, hden, Bool.and_eq_true]
    rfl
  diff h1 h2 := by
    obtain ⟨t, ht, hres, hden⟩ := (h.2.2 _ h1 _ h2).2.2
    refine ⟨t, hres, ht, Set.ext fun v => ?_⟩
    rw [Set.mem_ofPred_eq, hden, Bool.and_eq_true, Bool.not_eq_true', ← Bool.not_eq_true]
    rfl

end Table

/-! ## Bit sets -/

/-- The basic types of a bit set. -/
def bitsDen : SemType → Set BasicTypeCode
  | .bits b => {c | b.getLsbD c.val = true}
  | .complex _ => ∅

def IsBits (t : SemType) : Prop := ∃ b, t = .bits b

theorem isBits (b : BasicTypeBitSet) : IsBits (.bits b) := ⟨b, rfl⟩

/-- The same for any values that have a basic type. -/
theorem exactTypes_of_code [BddIdentity] {den : SemType → Set V} (code : V → BasicTypeCode)
    (hden : ∀ b, den (.bits b) = {v | b.getLsbD (code v).val = true}) : ExactTypes den IsBits where
  never := isBits 0
  den_never := by
    rw [NEVER, hden]
    ext v
    simp
  union := by
    intro t1 t2 h1 h2
    obtain ⟨b1, rfl⟩ := h1
    obtain ⟨b2, rfl⟩ := h2
    refine ⟨.bits (b1 ||| b2), rfl, isBits _, ?_⟩
    rw [hden, hden, hden]
    ext v
    simp
  intersect := by
    intro t1 t2 h1 h2
    obtain ⟨b1, rfl⟩ := h1
    obtain ⟨b2, rfl⟩ := h2
    refine ⟨.bits (b1 &&& b2), rfl, isBits _, ?_⟩
    rw [hden, hden, hden]
    ext v
    simp
  diff := by
    intro t1 t2 h1 h2
    obtain ⟨b1, rfl⟩ := h1
    obtain ⟨b2, rfl⟩ := h2
    refine ⟨.bits (b1 &&& ~~~b2), rfl, isBits _, ?_⟩
    rw [hden, hden, hden]
    ext v
    have hlt : (code v).val < 32 := by omega
    simp [hlt]

theorem exactTypes_bits [BddIdentity] : ExactTypes bitsDen IsBits :=
  exactTypes_of_code id fun _ => rfl

/-- `isEmpty` of a bit set. -/
def bitsIsEmpty (t : SemType) (s : Unit) : Outcome Unit Bool :=
  match t with
  | .bits b => .done (decide (∀ c : BasicTypeCode, b.getLsbD c.val = false)) s
  | .complex _ => .done true s

theorem emptyRight_bitsIsEmpty (t : SemType) (s : Unit) :
    ∃ b s', bitsIsEmpty t s = .done b s' ∧ EmptyRight bitsDen t b := by
  cases t with
  | bits b =>
    refine ⟨_, s, rfl, ?_⟩
    unfold EmptyRight
    rw [decide_eq_true_iff, Set.eq_empty_iff_forall_notMem]
    exact forall_congr' fun c => (Bool.not_eq_true _).symm.to_iff
  | complex c => exact ⟨true, s, rfl, iff_of_true rfl rfl⟩

end Nballerina.Types
