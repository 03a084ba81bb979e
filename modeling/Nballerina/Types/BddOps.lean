import Nballerina.Types.Atoms
import Nballerina.Types.BddOrder
import Nballerina.Types.BddSem

/-!
# The Bdd operations over one `Env`

`BddSem` reads a `Bdd` under an assignment that looks at no more of an atom than its index.
Over one `Env` that is no restriction: the atoms of a kind that the `Env` hands out are told
apart by their index (`Env.Issued.eq_of_cmp`), so for each assignment there is one by index
that agrees with it on them (`byIndex`). What remains is that the operations make up no atoms:
those of a result come from its operands (`Bdd.Over.union` and its siblings), ordered or not.

`Env.Issued` has the constants of the module too, unless the `Env` has given the index of the
constant to another atomic type of its kind.
-/

namespace Nballerina.Types

/-- The atoms of the `Bdd` satisfy `P`. -/
def Bdd.Over (P : Atom → Prop) : Bdd → Prop
  | .leaf _ => True
  | .node a l m r => P a ∧ l.Over P ∧ m.Over P ∧ r.Over P

namespace Bdd

variable {P : Atom → Prop} {b b1 b2 l m r : Bdd} {a : Atom}

@[simp] theorem over_leaf (P : Atom → Prop) (b : Bool) : (leaf b).Over P := trivial

@[simp] theorem over_node :
    (node a l m r).Over P ↔ P a ∧ l.Over P ∧ m.Over P ∧ r.Over P := Iff.rfl

/-- Only the values of its atoms matter to a `Bdd`. -/
theorem holds_congr {v w : Atom → Prop} (hvw : ∀ a, P a → (v a ↔ w a)) :
    ∀ {b : Bdd}, b.Over P → (b.holds v ↔ b.holds w)
  | .leaf _, _ => Iff.rfl
  | .node a l m r, h => by
    obtain ⟨ha, hl, hm, hr⟩ := h
    rw [holds_node, holds_node, hvw a ha, holds_congr hvw hl, holds_congr hvw hm,
      holds_congr hvw hr]

section Operations

variable [BddIdentity]

omit [BddIdentity] in
theorem Over.create {union : Bdd → Bdd → Bdd} (h : (node a l m r).Over P)
    (hu : (union l m).Over P) : (bddCreateBody union a l m r).Over P := by
  unfold bddCreateBody
  split
  · trivial
  · split
    · exact hu
    · exact h

/-- Fuel induction behind `Over.union`. -/
theorem over_bddUnionAux : ∀ (fuel : Nat) {b1 b2 : Bdd},
    b1.Over P → b2.Over P → (bddUnionAux fuel b1 b2).Over P
  | 0, _, _, h1, _ => h1
  | fuel + 1, b1, b2, h1, h2 => by
    unfold bddUnionAux bddUnionBody
    split
    · exact h1
    · cases b1 with
      | leaf b => cases b <;> simp [h2]
      | node a1 l1 m1 r1 =>
      cases b2 with
      | leaf b => cases b <;> simp_all
      | node a2 l2 m2 r2 =>
        have ih {c1 c2 : Bdd} (h : c1.Over P) (h' : c2.Over P) := over_bddUnionAux fuel h h'
        dsimp only
        split
        · have hm := ih h1.2.2.1 h2
          exact .create ⟨h1.1, h1.2.1, hm, h1.2.2.2⟩ (ih h1.2.1 hm)
        · split
          · have hm := ih h1 h2.2.2.1
            exact .create ⟨h2.1, h2.2.1, hm, h2.2.2.2⟩ (ih h2.2.1 hm)
          · have hl := ih h1.2.1 h2.2.1
            have hm := ih h1.2.2.1 h2.2.2.1
            exact .create ⟨h1.1, hl, hm, ih h1.2.2.2 h2.2.2.2⟩ (ih hl hm)

theorem Over.union (h1 : b1.Over P) (h2 : b2.Over P) : (bddUnion b1 b2).Over P :=
  over_bddUnionAux _ h1 h2

theorem Over.bddCreate (ha : P a) (hl : l.Over P) (hm : m.Over P) (hr : r.Over P) :
    (bddCreate a l m r).Over P :=
  .create ⟨ha, hl, hm, hr⟩ (hl.union hm)

/-- Fuel induction behind `Over.intersect`. -/
theorem over_bddIntersectAux : ∀ (fuel : Nat) {b1 b2 : Bdd},
    b1.Over P → b2.Over P → (bddIntersectAux fuel b1 b2).Over P
  | 0, _, _, h1, _ => h1
  | fuel + 1, b1, b2, h1, h2 => by
    unfold bddIntersectAux bddIntersectBody
    split
    · exact h1
    · cases b1 with
      | leaf b => cases b <;> simp [h2]
      | node a1 l1 m1 r1 =>
      cases b2 with
      | leaf b => cases b <;> simp_all
      | node a2 l2 m2 r2 =>
        have ih {c1 c2 : Bdd} (h : c1.Over P) (h' : c2.Over P) := over_bddIntersectAux fuel h h'
        dsimp only
        split
        · exact .bddCreate h1.1 (ih h1.2.1 h2) (ih h1.2.2.1 h2) (ih h1.2.2.2 h2)
        · split
          · exact .bddCreate h2.1 (ih h1 h2.2.1) (ih h1 h2.2.2.1) (ih h1 h2.2.2.2)
          · exact .bddCreate h1.1
              (ih (h1.2.1.union h1.2.2.1) (h2.2.1.union h2.2.2.1)) trivial
              (ih (h1.2.2.2.union h1.2.2.1) (h2.2.2.2.union h2.2.2.1))

theorem Over.intersect (h1 : b1.Over P) (h2 : b2.Over P) : (bddIntersect b1 b2).Over P :=
  over_bddIntersectAux _ h1 h2

/-- Fuel induction behind `Over.complement`; the four cases of `bddNodeComplement`. -/
theorem over_bddComplementAux : ∀ (fuel : Nat) {b : Bdd},
    b.Over P → (bddComplementAux fuel b).Over P
  | 0, _, h => h
  | _ + 1, .leaf _, _ => trivial
  | fuel + 1, .node a l m r, h => by
    obtain ⟨ha, hl, hm, hr⟩ := h
    have ih {c : Bdd} (hc : c.Over P) := over_bddComplementAux fuel hc
    unfold bddComplementAux bddComplementBody bddNodeComplementBody
    dsimp only
    split
    · exact .bddCreate ha trivial (ih (hl.union hm)) (ih hm)
    · split
      · exact .bddCreate ha (ih hm) (ih (hr.union hm)) trivial
      · split
        · exact .bddCreate ha (ih hl) (ih (hl.union hr)) (ih hr)
        · exact .bddCreate ha (ih (hl.union hm)) trivial (ih (hr.union hm))

theorem Over.complement (h : b.Over P) : (bddComplement b).Over P :=
  over_bddComplementAux _ h

/-- Fuel induction behind `Over.diff`. -/
theorem over_bddDiffAux : ∀ (fuel : Nat) {b1 b2 : Bdd},
    b1.Over P → b2.Over P → (bddDiffAux fuel b1 b2).Over P
  | 0, _, _, h1, _ => h1
  | fuel + 1, b1, b2, h1, h2 => by
    unfold bddDiffAux bddDiffBody
    split
    · trivial
    · cases b1 with
      | leaf b =>
        cases b2 with
        | leaf b' => cases b' <;> simp
        | node => cases b <;> simp [h2.complement]
      | node a1 l1 m1 r1 =>
      cases b2 with
      | leaf b => cases b <;> simp_all
      | node a2 l2 m2 r2 =>
        have ih {c1 c2 : Bdd} (h : c1.Over P) (h' : c2.Over P) := over_bddDiffAux fuel h h'
        dsimp only
        split
        · exact .bddCreate h1.1 (ih (h1.2.1.union h1.2.2.1) h2) trivial
            (ih (h1.2.2.2.union h1.2.2.1) h2)
        · split
          · exact .bddCreate h2.1 (ih h1 (h2.2.1.union h2.2.2.1)) trivial
              (ih h1 (h2.2.2.2.union h2.2.2.1))
          · exact .bddCreate h1.1
              (ih (h1.2.1.union h1.2.2.1) (h2.2.1.union h2.2.2.1)) trivial
              (ih (h1.2.2.2.union h1.2.2.1) (h2.2.2.2.union h2.2.2.1))

theorem Over.diff (h1 : b1.Over P) (h2 : b2.Over P) : (bddDiff b1 b2).Over P :=
  over_bddDiffAux _ h1 h2

end Operations

end Bdd

/-! ## Assignments by index -/

/-- `v` on the atoms `P`, carried over to the atoms that compare equal to one of them. -/
def byIndex (P : Atom → Prop) (v : Atom → Prop) (a : Atom) : Prop :=
  ∃ b, P b ∧ atomCmp a b = 0 ∧ v b

theorem atomCmp_eq_zero_trans {a b c : Atom} (hab : atomCmp a b = 0) (hbc : atomCmp b c = 0) :
    atomCmp a c = 0 := by
  cases a <;> cases b <;> cases c <;> simp_all [atomCmp] <;> omega

theorem atomsByIndex_byIndex (P : Atom → Prop) (v : Atom → Prop) :
    AtomsByIndex (byIndex P v) := by
  intro a b hab
  have hba : atomCmp b a = 0 := by
    rw [atomCmp_swap, hab, Int.neg_zero]
  refine ⟨fun ⟨c, hc, hac, hv⟩ => ⟨c, hc, atomCmp_eq_zero_trans hba hac, hv⟩,
    fun ⟨c, hc, hbc, hv⟩ => ⟨c, hc, atomCmp_eq_zero_trans hab hbc, hv⟩⟩

theorem byIndex_iff {P v : Atom → Prop} (hP : ∀ a b, P a → P b → atomCmp a b = 0 → a = b)
    (a : Atom) (ha : P a) : byIndex P v a ↔ v a := by
  constructor
  · intro ⟨b, hb, hab, hv⟩
    rwa [hP a b ha hb hab]
  · intro hv
    exact ⟨a, ha, by cases a <;> simp [atomCmp], hv⟩

/-! ## The atoms of an `Env` -/

namespace Env

/-- Each atom of the table is at the position of its index. -/
def Indexed (env : Env) : Prop :=
  ∀ (n : Nat) (ta : TypeAtom), env.atomTable[n]? = some ta → ta.index = n

theorem Indexed.typeAtom {env : Env} (h : env.Indexed) (t : AtomicType) :
    (env.typeAtom t).2.Indexed := by
  unfold Env.typeAtom
  split
  next => exact h
  next =>
    intro n ta hn
    rcases Nat.lt_or_ge n env.atomTable.length with hlt | hge
    · rw [List.getElem?_append_left hlt] at hn
      exact h n ta hn
    · rw [List.getElem?_append_right hge, List.getElem?_singleton] at hn
      split at hn
      next hzero =>
        cases hn
        simp only [Int.natCast_inj]
        omega
      next => cases hn

theorem Indexed.of_atomTable {env env' : Env} (h : env.Indexed)
    (heq : env'.atomTable = env.atomTable) : env'.Indexed := by
  intro n ta hn
  exact h n ta (heq ▸ hn)

theorem Indexed.getSemType {env : Env} (h : env.Indexed) (d : Definition) (code : BasicTypeCode)
    {recAtom : Env → Int × Env} (hrec : (recAtom env).2.atomTable = env.atomTable) :
    (d.getSemType env code recAtom).2.2.Indexed := by
  unfold Definition.getSemType
  split
  next => exact h
  next => exact h.of_atomTable hrec

/-- No operation moves an atom of the table. -/
theorem Indexed.apply {env : Env} (h : env.Indexed) (op : TypeOp) : (op.apply env).Indexed := by
  cases op with
  | cellContaining ty mutability => exact h.typeAtom _
  | listGetSemType d => exact h.getSemType d _ rfl
  | mappingGetSemType d => exact h.getSemType d _ rfl
  | functionGetSemType d => exact h.getSemType d _ rfl
  | listAtom t => exact h.typeAtom _
  | mappingAtom t => exact h.typeAtom _
  | listDefine d initial fixedLength rest =>
    show (ListDefinition.define d env initial fixedLength rest).2.2.Indexed
    unfold ListDefinition.define
    dsimp only
    split
    next => exact h.of_atomTable rfl
    next =>
      split
      next => exact h
      next => exact h.typeAtom _
  | mappingDefine d fields rest =>
    show (MappingDefinition.define d env fields rest).2.2.Indexed
    unfold MappingDefinition.define
    dsimp only
    split
    next => exact h.of_atomTable rfl
    next =>
      split
      next => exact h
      next => exact h.typeAtom _
  | functionDefine d args ret =>
    show (FunctionDefinition.define d env args ret).2.2.Indexed
    unfold FunctionDefinition.define
    dsimp only
    split
    next => exact h.of_atomTable rfl
    next => exact h.typeAtom _

theorem Indexed.run (ops : List TypeOp) : ∀ {env : Env}, env.Indexed → (runOps env ops).Indexed := by
  induction ops with
  | nil => exact fun h => h
  | cons op ops ih => exact fun h => ih (h.apply op)

/-- An atom of the kind that a `Bdd` made in the `Env` can have. -/
inductive Issued (env : Env) (kind : AtomKind) : Atom → Prop where
  | recAtom (i : Int) : Issued env kind (.recAtom i)
  | interned {ta : TypeAtom} : ta ∈ env.atomTable → ta.atomicType.kind = kind →
      Issued env kind ta.toAtom
  | constant {i : Int} {t : AtomicType} : .typeAtom i t ∈ predefinedAtoms → t.kind = kind →
      (∀ ta ∈ env.atomTable, ta.index = i → ta.atomicType.kind = kind → ta.atomicType = t) →
      Issued env kind (.typeAtom i t)

theorem Indexed.eq_of_index {env : Env} (h : env.Indexed) {ta tb : TypeAtom}
    (ha : ta ∈ env.atomTable) (hb : tb ∈ env.atomTable) (hi : ta.index = tb.index) : ta = tb := by
  obtain ⟨n, hn⟩ := List.getElem?_of_mem ha
  obtain ⟨m, hm⟩ := List.getElem?_of_mem hb
  have hnm : n = m := by
    have hna := h n ta hn
    have hmb := h m tb hm
    omega
  subst hnm
  exact Option.some.inj (hn.symm.trans hm)

/-- The atoms of a kind are told apart by `atomCmp`. -/
theorem Issued.eq_of_cmp {env : Env} (h : env.Indexed) {kind : AtomKind} {a b : Atom}
    (ha : env.Issued kind a) (hb : env.Issued kind b) (hab : atomCmp a b = 0) : a = b := by
  cases ha with
  | recAtom i =>
    cases hb with
    | recAtom j =>
      have hij : i = j := by
        simp only [atomCmp] at hab
        omega
      rw [hij]
    | interned _ _ => simp [atomCmp, TypeAtom.toAtom] at hab
    | constant _ _ _ => simp [atomCmp] at hab
  | @interned ta hta hkind =>
    cases hb with
    | recAtom j => simp [atomCmp, TypeAtom.toAtom] at hab
    | @interned tb htb _ =>
      have hi : ta.index = tb.index := by
        simp only [atomCmp, TypeAtom.toAtom] at hab
        omega
      rw [h.eq_of_index hta htb hi]
    | @constant j t _ _ hfree =>
      have hi : ta.index = j := by
        simp only [atomCmp, TypeAtom.toAtom] at hab
        omega
      rw [← hfree ta hta hi hkind, ← hi]
      rfl
  | @constant i t hp _ hfree =>
    cases hb with
    | recAtom j => simp [atomCmp] at hab
    | @interned tb htb hkind =>
      have hi : tb.index = i := by
        simp only [atomCmp, TypeAtom.toAtom] at hab
        omega
      rw [← hfree tb htb hi hkind, ← hi]
      rfl
    | @constant j u hq _ _ =>
      have hij : i = j := by
        simp only [atomCmp] at hab
        omega
      subst hij
      rw [predefined_unique hp hq]

theorem init_indexed : init.Indexed := by
  intro n ta hn
  exact init_wf.index hn

end Env

/-! ## The operations -/

/-- `b1` and `b2` are combined as formulas, and in order if they are in order. -/
structure BddOpsRight [BddIdentity] (v : Atom → Prop) (b1 b2 : Bdd) : Prop where
  union : (bddUnion b1 b2).holds v ↔ b1.holds v ∨ b2.holds v
  intersect : (bddIntersect b1 b2).holds v ↔ b1.holds v ∧ b2.holds v
  diff : (bddDiff b1 b2).holds v ↔ b1.holds v ∧ ¬ b2.holds v
  complement : (bddComplement b1).holds v ↔ ¬ b1.holds v

/-- The atoms strictly increase along each path. -/
def Bdd.Ordered (b : Bdd) : Prop := b.OrderedOver fun _ => True

section Right

variable [BddIdentity]

theorem bddOpsRight_of_told_apart {P : Atom → Prop}
    (hP : ∀ a b, P a → P b → atomCmp a b = 0 → a = b) {b1 b2 : Bdd} (h1 : b1.Over P)
    (h2 : b2.Over P) (v : Atom → Prop) : BddOpsRight v b1 b2 := by
  have hv := atomsByIndex_byIndex P v
  -- evaluate under the assignment by index, which agrees with `v` on all Bdds here
  have hread : ∀ {b : Bdd}, b.Over P → (b.holds v ↔ b.holds (byIndex P v)) :=
    fun hb => (Bdd.holds_congr (byIndex_iff hP) hb).symm
  exact
    { union := by
        rw [hread (h1.union h2), hread h1, hread h2]
        exact holds_bddUnion hv b1 b2
      intersect := by
        rw [hread (h1.intersect h2), hread h1, hread h2]
        exact holds_bddIntersect hv b1 b2
      diff := by
        rw [hread (h1.diff h2), hread h1, hread h2]
        exact holds_bddDiff hv b1 b2
      complement := by
        rw [hread h1.complement, hread h1]
        exact holds_bddComplement hv b1 }

/-- In an `Env` after any sequence of operations, the four operations on Bdds over its atoms
of a kind are the boolean ones under every assignment to the atoms, and they keep the atoms
strictly increasing along each path. -/
theorem bddOps_right (ops : List TypeOp) (kind : AtomKind) (b1 b2 : Bdd)
    (h1 : b1.Over ((runOps .init ops).Issued kind))
    (h2 : b2.Over ((runOps .init ops).Issued kind)) :
    (∀ v : Atom → Prop, BddOpsRight v b1 b2) ∧
      (b1.Ordered → b2.Ordered → (bddUnion b1 b2).Ordered ∧ (bddIntersect b1 b2).Ordered ∧
        (bddDiff b1 b2).Ordered ∧ (bddComplement b1).Ordered) := by
  have hindexed := Env.Indexed.run ops Env.init_indexed
  refine ⟨fun v => ?_, fun ho1 ho2 => ?_⟩
  · exact bddOpsRight_of_told_apart (fun a b => Env.Issued.eq_of_cmp hindexed) h1 h2 v
  · exact ⟨ho1.union ho2, ho1.intersect ho2, ho1.diff ho2, ho1.complement⟩

end Right

/-- A diagram with all three branches, and one whose root is an atom further down in it. -/
theorem bddOps_right_maps :
    let _ := BddIdentity.shared
    let b1 := Bdd.node (.recAtom 0) (.leaf true) (bddAtom (.recAtom 2)) (bddAtom (.recAtom 1))
    let b2 := bddAtom (.recAtom 1)
    (∀ v : Atom → Prop, BddOpsRight v b1 b2) ∧
      (b1.Ordered → b2.Ordered → (bddUnion b1 b2).Ordered ∧ (bddIntersect b1 b2).Ordered ∧
        (bddDiff b1 b2).Ordered ∧ (bddComplement b1).Ordered) := by
  let _ := BddIdentity.shared
  refine bddOps_right [] .mapping _ _ ?_ ?_
  · exact ⟨.recAtom 0, trivial, ⟨.recAtom 2, trivial, trivial, trivial⟩,
      ⟨.recAtom 1, trivial, trivial, trivial⟩⟩
  · exact ⟨.recAtom 1, trivial, trivial, trivial⟩

end Nballerina.Types
