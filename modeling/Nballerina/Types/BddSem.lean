import Nballerina.Types.Bdd

/-!
# What a Bdd means

A `Bdd` is a formula over its atoms: `holds v b` evaluates it when `v` says which atoms
hold. The operations are the boolean ones for every `v` that does not tell apart atoms that
`atomCmp` does not tell apart (`AtomsByIndex`), since a node of either operand may stand for
the other's.

Each operation is treated through its equation (`bddUnion_eq`, ...), by induction on the
number of nodes.
-/

namespace Nballerina.Types

/-- The formula of a `Bdd`: left takes the atom, right its negation, the middle neither. -/
def Bdd.holds (v : Atom → Prop) : Bdd → Prop
  | .leaf b => b = true
  | .node a l m r => (v a ∧ l.holds v) ∨ m.holds v ∨ (¬ v a ∧ r.holds v)

/-- `v` looks at no more of an atom than `atomCmp` does. -/
def AtomsByIndex (v : Atom → Prop) : Prop := ∀ a b, atomCmp a b = 0 → (v a ↔ v b)

namespace Bdd

variable {v : Atom → Prop}

@[simp] theorem holds_true (v : Atom → Prop) : (leaf true).holds v ↔ True := by
  simp [holds]

@[simp] theorem holds_false (v : Atom → Prop) : (leaf false).holds v ↔ False := by
  simp [holds]

@[simp] theorem holds_node (a : Atom) (l m r : Bdd) :
    (node a l m r).holds v ↔ (v a ∧ l.holds v) ∨ m.holds v ∨ (¬ v a ∧ r.holds v) := Iff.rfl

@[simp] theorem holds_bddAtom (a : Atom) : (bddAtom a).holds v ↔ v a := by
  simp [bddAtom]

end Bdd

open Bdd

variable {v : Atom → Prop}

/-- `bddCreate` leaves out an atom that makes no difference. -/
theorem holds_bddCreateBody {union : Bdd → Bdd → Bdd} {a : Atom} {l m r : Bdd}
    (hunion : (union l m).holds v ↔ l.holds v ∨ m.holds v) :
    (bddCreateBody union a l m r).holds v ↔ (node a l m r).holds v := by
  unfold bddCreateBody
  split
  next hm =>
    subst hm
    simp
  next =>
    split
    next hr =>
      subst hr
      rw [hunion, holds_node]
      by_cases ha : v a
      · simp [ha]
      · simp [ha, or_comm]
    next => exact Iff.rfl

section Operations

variable [BddIdentity]

theorem holds_bddUnion (hv : AtomsByIndex v) (b1 b2 : Bdd) :
    (bddUnion b1 b2).holds v ↔ b1.holds v ∨ b2.holds v := by
  induction hn : b1.size + b2.size using Nat.strongRecOn generalizing b1 b2 with
  | ind n ih =>
    have hunion : ∀ c1 c2 : Bdd, c1.size + c2.size < n →
        ((bddUnion c1 c2).holds v ↔ c1.holds v ∨ c2.holds v) :=
      fun c1 c2 hc => ih _ hc c1 c2 rfl
    rw [bddUnion_eq]
    unfold bddUnionBody
    split
    next hsame =>
      rw [BddIdentity.eq_of_same hsame, or_self]
    next =>
      cases b1 with
      | leaf b => cases b <;> simp
      | node a1 l1 m1 r1 =>
        cases b2 with
        | leaf b => cases b <;> simp
        | node a2 l2 m2 r2 =>
          rw [size_node, size_node] at hn
          dsimp only
          split
          next =>
            have hsize := size_bddUnion_le m1 (node a2 l2 m2 r2)
            rw [size_node] at hsize
            rw [holds_bddCreateBody (hunion _ _ (by omega)), holds_node,
              hunion m1 _ (by rw [size_node]; omega), holds_node a1]
            clear ih hn
            grind only
          next =>
            split
            next =>
              have hsize := size_bddUnion_le (node a1 l1 m1 r1) m2
              rw [size_node] at hsize
              rw [holds_bddCreateBody (hunion _ _ (by omega)), holds_node,
                hunion _ m2 (by rw [size_node]; omega), holds_node a2]
              clear ih hn
              grind only
            next hlt hgt =>
              have ha : v a1 ↔ v a2 := hv a1 a2 (by omega)
              have hl := size_bddUnion_le l1 l2
              have hm := size_bddUnion_le m1 m2
              rw [holds_bddCreateBody (hunion _ _ (by omega)), holds_node,
                hunion l1 l2 (by omega), hunion m1 m2 (by omega), hunion r1 r2 (by omega),
                holds_node, holds_node, ← ha]
              clear ih hn
              grind only

theorem holds_bddCreate (hv : AtomsByIndex v) (a : Atom) (l m r : Bdd) :
    (bddCreate a l m r).holds v ↔ (node a l m r).holds v :=
  holds_bddCreateBody (holds_bddUnion hv l m)

theorem holds_bddIntersect (hv : AtomsByIndex v) (b1 b2 : Bdd) :
    (bddIntersect b1 b2).holds v ↔ b1.holds v ∧ b2.holds v := by
  induction hn : b1.size + b2.size using Nat.strongRecOn generalizing b1 b2 with
  | ind n ih =>
    have hinter : ∀ c1 c2 : Bdd, c1.size + c2.size < n →
        ((bddIntersect c1 c2).holds v ↔ c1.holds v ∧ c2.holds v) :=
      fun c1 c2 hc => ih _ hc c1 c2 rfl
    rw [bddIntersect_eq]
    unfold bddIntersectBody
    split
    next hsame =>
      rw [BddIdentity.eq_of_same hsame, and_self]
    next =>
      cases b1 with
      | leaf b => cases b <;> simp
      | node a1 l1 m1 r1 =>
        cases b2 with
        | leaf b => cases b <;> simp
        | node a2 l2 m2 r2 =>
          rw [size_node, size_node] at hn
          dsimp only
          split
          next =>
            rw [holds_bddCreate hv, holds_node, hinter l1 _ (by rw [size_node]; omega),
              hinter m1 _ (by rw [size_node]; omega), hinter r1 _ (by rw [size_node]; omega),
              holds_node a1]
            clear ih hn
            grind only
          next =>
            split
            next =>
              rw [holds_bddCreate hv, holds_node, hinter _ l2 (by rw [size_node]; omega),
                hinter _ m2 (by rw [size_node]; omega), hinter _ r2 (by rw [size_node]; omega),
                holds_node a2]
              clear ih hn
              grind only
            next hlt hgt =>
              have ha : v a1 ↔ v a2 := hv a1 a2 (by omega)
              have hl1 := size_bddUnion_le l1 m1
              have hl2 := size_bddUnion_le l2 m2
              have hr1 := size_bddUnion_le r1 m1
              have hr2 := size_bddUnion_le r2 m2
              rw [holds_bddCreate hv, holds_node, hinter _ _ (by omega), hinter _ _ (by omega),
                holds_bddUnion hv, holds_bddUnion hv, holds_bddUnion hv, holds_bddUnion hv,
                holds_false, holds_node, holds_node, ← ha]
              clear ih hn
              grind only

theorem holds_bddComplement (hv : AtomsByIndex v) (b : Bdd) :
    (bddComplement b).holds v ↔ ¬ b.holds v := by
  induction hn : b.size using Nat.strongRecOn generalizing b with
  | ind n ih =>
    have hcompl : ∀ c : Bdd, c.size < n → ((bddComplement c).holds v ↔ ¬ c.holds v) :=
      fun c hc => ih _ hc c rfl
    rw [bddComplement_eq]
    cases b with
    | leaf b => cases b <;> simp [bddComplementBody]
    | node a l m r =>
      rw [size_node] at hn
      have hlm := size_bddUnion_le l m
      have hrm := size_bddUnion_le r m
      have hlr := size_bddUnion_le l r
      simp only [bddComplementBody, bddNodeComplementBody]
      -- whichever child is `false`, each of the three parts is one or two complements
      split
      next hr =>
        subst hr
        rw [holds_bddCreate hv, holds_node, hcompl _ (by omega), hcompl m (by omega),
          holds_bddUnion hv, holds_node, holds_false]
        clear ih hn
        grind only
      next =>
        split
        next hl =>
          subst hl
          rw [holds_bddCreate hv, holds_node, hcompl m (by omega), hcompl _ (by omega),
            holds_bddUnion hv, holds_node, holds_false]
          clear ih hn
          grind only
        next =>
          split
          next hm =>
            subst hm
            rw [holds_bddCreate hv, holds_node, hcompl l (by omega), hcompl _ (by omega),
              hcompl r (by omega), holds_bddUnion hv, holds_node, holds_false]
            clear ih hn
            grind only
          next =>
            rw [holds_bddCreate hv, holds_node, hcompl _ (by omega), hcompl _ (by omega),
              holds_bddUnion hv, holds_bddUnion hv, holds_node, holds_false]
            clear ih hn
            grind only

theorem holds_bddDiff (hv : AtomsByIndex v) (b1 b2 : Bdd) :
    (bddDiff b1 b2).holds v ↔ b1.holds v ∧ ¬ b2.holds v := by
  induction hn : b1.size + b2.size using Nat.strongRecOn generalizing b1 b2 with
  | ind n ih =>
    have hdiff : ∀ c1 c2 : Bdd, c1.size + c2.size < n →
        ((bddDiff c1 c2).holds v ↔ c1.holds v ∧ ¬ c2.holds v) :=
      fun c1 c2 hc => ih _ hc c1 c2 rfl
    rw [bddDiff_eq]
    unfold bddDiffBody
    split
    next hsame =>
      rw [BddIdentity.eq_of_same hsame]
      simp
    next =>
      cases b2 with
      | leaf b => cases b <;> simp
      | node a2 l2 m2 r2 =>
        cases b1 with
        | leaf b =>
          cases b
          · simp
          · simp only [if_true, holds_bddComplement hv, holds_true, true_and]
        | node a1 l1 m1 r1 =>
          rw [size_node, size_node] at hn
          have hl1 := size_bddUnion_le l1 m1
          have hr1 := size_bddUnion_le r1 m1
          have hl2 := size_bddUnion_le l2 m2
          have hr2 := size_bddUnion_le r2 m2
          dsimp only
          split
          next =>
            rw [holds_bddCreate hv, holds_node, hdiff _ _ (by rw [size_node]; omega),
              hdiff _ _ (by rw [size_node]; omega), holds_bddUnion hv, holds_bddUnion hv,
              holds_false, holds_node a1]
            clear ih hn
            grind only
          next =>
            split
            next =>
              rw [holds_bddCreate hv, holds_node, hdiff _ _ (by rw [size_node]; omega),
                hdiff _ _ (by rw [size_node]; omega), holds_bddUnion hv, holds_bddUnion hv,
                holds_false, holds_node a2]
              clear ih hn
              grind only
            next hlt hgt =>
              have ha : v a1 ↔ v a2 := hv a1 a2 (by omega)
              rw [holds_bddCreate hv, holds_node, hdiff _ _ (by omega), hdiff _ _ (by omega),
                holds_bddUnion hv, holds_bddUnion hv, holds_bddUnion hv, holds_bddUnion hv,
                holds_false, holds_node, holds_node, ← ha]
              clear ih hn
              grind only

end Operations

end Nballerina.Types
