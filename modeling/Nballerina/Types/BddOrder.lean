import Mathlib.Data.Set.Finite.Lattice
import Mathlib.Data.Finite.Prod
import Nballerina.Types.Bdd

/-!
# The atom order, and what it bounds

`OrderedOver P b` says in one predicate what every construction of a `Bdd`
keeps: the atoms of `b` satisfy `P` and strictly increase along each path. The
four operations preserve it (`OrderedOver.union` and its siblings) for an
arbitrary `P`, so the same lemmas give "the atoms come from the operands" and
"the order is kept".

The consequence that matters for termination is `finite_orderedOver`: over
finitely many atoms there are finitely many such `Bdd`s, whatever the operations
do. It does not need different atoms to compare differently.
-/

namespace Nballerina.Types

/-- `a1` comes strictly before `a2`. -/
def atomLt (a1 a2 : Atom) : Prop := atomCmp a1 a2 < 0

theorem atomLt_irrefl (a : Atom) : ¬ atomLt a a := by
  cases a <;> simp [atomLt, atomCmp]

theorem atomLt_trans {a b c : Atom} (h1 : atomLt a b) (h2 : atomLt b c) : atomLt a c := by
  cases a <;> cases b <;> cases c <;> simp_all [atomLt, atomCmp] <;> omega

theorem atomCmp_swap (a b : Atom) : atomCmp b a = - atomCmp a b := by
  cases a <;> cases b <;> simp [atomCmp]

theorem atomLt_of_cmp_pos {a b : Atom} (h : atomCmp a b > 0) : atomLt b a := by
  rw [atomLt, atomCmp_swap]
  omega

/-- Atoms that compare equal have the same atoms after them. -/
theorem atomLt_of_cmp_eq {a b c : Atom} (h : ¬ atomCmp a b < 0) (h' : ¬ atomCmp a b > 0)
    (hbc : atomLt b c) : atomLt a c := by
  cases a <;> cases b <;> cases c <;> simp_all [atomLt, atomCmp] <;> omega

/-- The atoms of the `Bdd` satisfy `P` and strictly increase along each path. -/
def Bdd.OrderedOver : (Atom → Prop) → Bdd → Prop
  | _, .leaf _ => True
  | P, .node a l m r =>
    P a ∧ l.OrderedOver (fun x => P x ∧ atomLt a x) ∧
      m.OrderedOver (fun x => P x ∧ atomLt a x) ∧ r.OrderedOver (fun x => P x ∧ atomLt a x)

namespace Bdd

variable {P Q : Atom → Prop} {b b1 b2 l m r : Bdd} {a : Atom}

@[simp] theorem orderedOver_leaf (P : Atom → Prop) (b : Bool) : (leaf b).OrderedOver P :=
  trivial

@[simp] theorem orderedOver_node : (node a l m r).OrderedOver P ↔
    P a ∧ l.OrderedOver (fun x => P x ∧ atomLt a x) ∧
      m.OrderedOver (fun x => P x ∧ atomLt a x) ∧
      r.OrderedOver (fun x => P x ∧ atomLt a x) := Iff.rfl

theorem OrderedOver.mono : ∀ {b : Bdd} {P Q : Atom → Prop}, (∀ x, P x → Q x) →
    b.OrderedOver P → b.OrderedOver Q
  | .leaf _, _, _, _, _ => trivial
  | .node a l m r, P, Q, h, hb => by
    have h' : ∀ x, P x ∧ atomLt a x → Q x ∧ atomLt a x := fun x hx => ⟨h x hx.1, hx.2⟩
    exact ⟨h a hb.1, hb.2.1.mono h', hb.2.2.1.mono h', hb.2.2.2.mono h'⟩

theorem OrderedOver.forget (h : b.OrderedOver (fun x => P x ∧ Q x)) : b.OrderedOver P :=
  h.mono fun _ hx => hx.1

/-- A whole operand whose root comes after `a` has only atoms after `a`. -/
theorem OrderedOver.after {a2 : Atom} (ha : atomLt a a2) (h : (node a2 l m r).OrderedOver P) :
    (node a2 l m r).OrderedOver (fun x => P x ∧ atomLt a x) := by
  have h' : ∀ x, P x ∧ atomLt a2 x → (P x ∧ atomLt a x) ∧ atomLt a2 x :=
    fun x hx => ⟨⟨hx.1, atomLt_trans ha hx.2⟩, hx.2⟩
  exact ⟨⟨h.1, ha⟩, h.2.1.mono h', h.2.2.1.mono h', h.2.2.2.mono h'⟩

/-- The parts of an operand whose root compares equal to `a` come after `a`. -/
theorem OrderedOver.after_eq {a2 : Atom} (h1 : ¬ atomCmp a a2 < 0) (h2 : ¬ atomCmp a a2 > 0)
    (h : b.OrderedOver (fun x => P x ∧ atomLt a2 x)) :
    b.OrderedOver (fun x => P x ∧ atomLt a x) :=
  h.mono fun _ hx => ⟨hx.1, atomLt_of_cmp_eq h1 h2 hx.2⟩

section Operations

variable [BddIdentity]

omit [BddIdentity] in
theorem OrderedOver.create {union : Bdd → Bdd → Bdd} (ha : P a)
    (hl : l.OrderedOver (fun x => P x ∧ atomLt a x))
    (hm : m.OrderedOver (fun x => P x ∧ atomLt a x))
    (hr : r.OrderedOver (fun x => P x ∧ atomLt a x))
    (hu : (union l m).OrderedOver (fun x => P x ∧ atomLt a x)) :
    (bddCreateBody union a l m r).OrderedOver P := by
  unfold bddCreateBody
  split
  · trivial
  · split
    · exact hu.forget
    · exact ⟨ha, hl, hm, hr⟩

/-- Fuel induction behind `OrderedOver.union`. -/
theorem orderedOver_bddUnionAux : ∀ (fuel : Nat) {P : Atom → Prop} {b1 b2 : Bdd},
    b1.OrderedOver P → b2.OrderedOver P → (bddUnionAux fuel b1 b2).OrderedOver P
  | 0, _, _, _, h1, _ => h1
  | fuel + 1, P, b1, b2, h1, h2 => by
    unfold bddUnionAux bddUnionBody
    split
    · exact h1
    · cases b1 with
      | leaf b => cases b <;> simp [h2]
      | node a1 l1 m1 r1 =>
        cases b2 with
        | leaf b => cases b <;> simp_all
        | node a2 l2 m2 r2 =>
          have ih {Q : Atom → Prop} {c1 c2 : Bdd} (h : c1.OrderedOver Q) (h' : c2.OrderedOver Q) :=
            orderedOver_bddUnionAux fuel h h'
          dsimp only
          split
          next hlt =>
            have hm := ih h1.2.2.1 (h2.after hlt)
            exact .create h1.1 h1.2.1 hm h1.2.2.2 (ih h1.2.1 hm)
          next hge =>
            split
            next hgt =>
              have hm := ih (h1.after (atomLt_of_cmp_pos hgt)) h2.2.2.1
              exact .create h2.1 h2.2.1 hm h2.2.2.2 (ih h2.2.1 hm)
            next hle =>
              have hl := ih h1.2.1 (h2.2.1.after_eq hge hle)
              have hm := ih h1.2.2.1 (h2.2.2.1.after_eq hge hle)
              have hr := ih h1.2.2.2 (h2.2.2.2.after_eq hge hle)
              exact .create h1.1 hl hm hr (ih hl hm)

theorem OrderedOver.union (h1 : b1.OrderedOver P) (h2 : b2.OrderedOver P) :
    (bddUnion b1 b2).OrderedOver P :=
  orderedOver_bddUnionAux _ h1 h2

theorem OrderedOver.bddCreate (ha : P a)
    (hl : l.OrderedOver (fun x => P x ∧ atomLt a x))
    (hm : m.OrderedOver (fun x => P x ∧ atomLt a x))
    (hr : r.OrderedOver (fun x => P x ∧ atomLt a x)) :
    (bddCreate a l m r).OrderedOver P :=
  .create ha hl hm hr (hl.union hm)

/-- Fuel induction behind `OrderedOver.intersect`. -/
theorem orderedOver_bddIntersectAux : ∀ (fuel : Nat) {P : Atom → Prop} {b1 b2 : Bdd},
    b1.OrderedOver P → b2.OrderedOver P → (bddIntersectAux fuel b1 b2).OrderedOver P
  | 0, _, _, _, h1, _ => h1
  | fuel + 1, P, b1, b2, h1, h2 => by
    unfold bddIntersectAux bddIntersectBody
    split
    · exact h1
    · match b1, b2 with
      | .leaf b, b2 => cases b <;> simp [h2]
      | .node .., .leaf b => cases b <;> simp_all
      | .node a1 l1 m1 r1, .node a2 l2 m2 r2 =>
        have ih {Q : Atom → Prop} {c1 c2 : Bdd} (h : c1.OrderedOver Q) (h' : c2.OrderedOver Q) :=
          orderedOver_bddIntersectAux fuel h h'
        dsimp only
        split
        next hlt =>
          have h2' := h2.after hlt
          exact .bddCreate h1.1 (ih h1.2.1 h2') (ih h1.2.2.1 h2') (ih h1.2.2.2 h2')
        next hge =>
          split
          next hgt =>
            have h1' := h1.after (atomLt_of_cmp_pos hgt)
            exact .bddCreate h2.1 (ih h1' h2.2.1) (ih h1' h2.2.2.1) (ih h1' h2.2.2.2)
          next hle =>
            have hm := h2.2.2.1.after_eq hge hle
            exact .bddCreate h1.1
              (ih (h1.2.1.union h1.2.2.1) ((h2.2.1.after_eq hge hle).union hm)) trivial
              (ih (h1.2.2.2.union h1.2.2.1) ((h2.2.2.2.after_eq hge hle).union hm))

theorem OrderedOver.intersect (h1 : b1.OrderedOver P) (h2 : b2.OrderedOver P) :
    (bddIntersect b1 b2).OrderedOver P :=
  orderedOver_bddIntersectAux _ h1 h2

theorem OrderedOver.nodeComplementBody {complement : Bdd → Bdd} (h : (node a l m r).OrderedOver P)
    (hc : ∀ c, c.OrderedOver (fun x => P x ∧ atomLt a x) →
      (complement c).OrderedOver (fun x => P x ∧ atomLt a x)) :
    (bddNodeComplementBody complement a l m r).OrderedOver P := by
  obtain ⟨ha, hl, hm, hr⟩ := h
  unfold bddNodeComplementBody
  split
  · exact .bddCreate ha trivial (hc _ (hl.union hm)) (hc _ hm)
  · split
    · exact .bddCreate ha (hc _ hm) (hc _ (hr.union hm)) trivial
    · split
      · exact .bddCreate ha (hc _ hl) (hc _ (hl.union hr)) (hc _ hr)
      · exact .bddCreate ha (hc _ (hl.union hm)) trivial (hc _ (hr.union hm))

/-- Fuel induction behind `OrderedOver.complement`. -/
theorem orderedOver_bddComplementAux : ∀ (fuel : Nat) {P : Atom → Prop} {b : Bdd},
    b.OrderedOver P → (bddComplementAux fuel b).OrderedOver P
  | 0, _, _, h => h
  | _ + 1, _, .leaf _, _ => trivial
  | fuel + 1, _, .node .., h =>
    h.nodeComplementBody fun _ hc => orderedOver_bddComplementAux fuel hc

theorem OrderedOver.complement (h : b.OrderedOver P) : (bddComplement b).OrderedOver P :=
  orderedOver_bddComplementAux _ h

theorem OrderedOver.nodeComplement (h : (node a l m r).OrderedOver P) :
    (bddNodeComplement a l m r).OrderedOver P :=
  h.nodeComplementBody fun _ hc => hc.complement

/-- Fuel induction behind `OrderedOver.diff`. -/
theorem orderedOver_bddDiffAux : ∀ (fuel : Nat) {P : Atom → Prop} {b1 b2 : Bdd},
    b1.OrderedOver P → b2.OrderedOver P → (bddDiffAux fuel b1 b2).OrderedOver P
  | 0, _, _, _, h1, _ => h1
  | fuel + 1, P, b1, b2, h1, h2 => by
    unfold bddDiffAux bddDiffBody
    split
    · trivial
    · match b1, b2 with
      | .leaf b, .leaf b' => cases b' <;> simp
      | .node .., .leaf b => cases b <;> simp_all
      | .leaf b, .node .. => cases b <;> simp [h2.complement]
      | .node a1 l1 m1 r1, .node a2 l2 m2 r2 =>
        have ih {Q : Atom → Prop} {c1 c2 : Bdd} (h : c1.OrderedOver Q) (h' : c2.OrderedOver Q) :=
          orderedOver_bddDiffAux fuel h h'
        dsimp only
        split
        next hlt =>
          have h2' := h2.after hlt
          exact .bddCreate h1.1 (ih (h1.2.1.union h1.2.2.1) h2') trivial
            (ih (h1.2.2.2.union h1.2.2.1) h2')
        next hge =>
          split
          next hgt =>
            have h1' := h1.after (atomLt_of_cmp_pos hgt)
            exact .bddCreate h2.1 (ih h1' (h2.2.1.union h2.2.2.1)) trivial
              (ih h1' (h2.2.2.2.union h2.2.2.1))
          next hle =>
            have hm := h2.2.2.1.after_eq hge hle
            exact .bddCreate h1.1
              (ih (h1.2.1.union h1.2.2.1) ((h2.2.1.after_eq hge hle).union hm)) trivial
              (ih (h1.2.2.2.union h1.2.2.1) ((h2.2.2.2.after_eq hge hle).union hm))

theorem OrderedOver.diff (h1 : b1.OrderedOver P) (h2 : b2.OrderedOver P) :
    (bddDiff b1 b2).OrderedOver P :=
  orderedOver_bddDiffAux _ h1 h2

end Operations

/-- The one-atom diagram. -/
theorem OrderedOver.bddAtom (h : P a) : (bddAtom a).OrderedOver P :=
  ⟨h, trivial, trivial, trivial⟩

/-- Finitely many atoms give finitely many ordered diagrams: below a root `a`
only the atoms after `a` are left. -/
theorem finite_orderedOver (A : Finset Atom) : {b : Bdd | b.OrderedOver (· ∈ A)}.Finite := by
  induction A using Finset.strongInduction with
  | H A ih =>
    classical
    let below : Atom → Finset Atom := fun a => A.filter (fun x => atomLt a x)
    have hlt : ∀ a ∈ A, below a ⊂ A := fun a ha =>
      ⟨Finset.filter_subset _ _, fun h => atomLt_irrefl a (Finset.mem_filter.mp (h ha)).2⟩
    let parts : Atom → Set Bdd := fun a => {b | b.OrderedOver (· ∈ below a)}
    have hfin : ∀ a ∈ A, (parts a).Finite := fun a ha => ih _ (hlt a ha)
    have hcover : {b : Bdd | b.OrderedOver (· ∈ A)} ⊆
        Set.range leaf ∪ ⋃ a ∈ A, (fun p : Bdd × Bdd × Bdd => node a p.1 p.2.1 p.2.2) ''
          (parts a ×ˢ (parts a ×ˢ parts a)) := by
      intro b hb
      cases b with
      | leaf b => exact Or.inl ⟨b, rfl⟩
      | node a l m r =>
        obtain ⟨ha, hl, hm, hr⟩ := hb
        have hmem : ∀ {c : Bdd}, c.OrderedOver (fun x => x ∈ A ∧ atomLt a x) → c ∈ parts a :=
          fun hc => hc.mono fun x hx => Finset.mem_filter.mpr hx
        refine Or.inr (Set.mem_iUnion₂.mpr ⟨a, ha, (l, m, r), ?_, rfl⟩)
        exact ⟨hmem hl, hmem hm, hmem hr⟩
    refine Set.Finite.subset ((Set.finite_range leaf).union ?_) hcover
    refine A.finite_toSet.biUnion fun a ha => Set.Finite.image _ ?_
    exact (hfin a ha).prod ((hfin a ha).prod (hfin a ha))

end Bdd

end Nballerina.Types
