import Nballerina.Types.Closure
import Nballerina.Types.EmptinessSound
import Nballerina.Types.MemoTermination

/-!
# What the emptiness predicates ask

The questions that come up in a query stay among the Boolean combinations of the atoms
of the `Env`: every function of `Emptiness.lean` is gone through once for that
(`InScope`), following its recursion. Fresh cells are interned on the way, but the
contents of a cell are combinations too.

`emptiness_bounded` puts it together in the form that `MemoTermination.lean` needs:
over finitely many atoms there are finitely many ordered `Bdd`s to ask for, and between
two of them only the nesting of cells goes down.
-/

namespace Nballerina.Types

open Nballerina.Lib Relation

/-! ## What a program may ask -/

/-- The program interns what it likes, asks memoised questions about `Bdd`s over `A`, and
calls `isEmpty` for combinations of rank `r`. -/
abbrev InScope (A : Finset Atom) (r : Nat) {α : Type} (x : EmptyM α) (post : α → Prop) : Prop :=
  x.Within (fun c v => v.atomicType = c.toAtomicType) (fun p => p.key.2.OrderedOver (· ∈ A))
    (Combination A r) post

section Scope

variable {A : Finset Atom} {r : Nat} {α β : Type}

theorem InScope.bind {x : EmptyM α} {f : α → EmptyM β} {post : α → Prop} {post' : β → Prop}
    (hx : InScope A r x post) (hf : ∀ a, post a → InScope A r (f a) post') :
    InScope A r (x >>= f) post' :=
  Prog.Within.bind hx hf

theorem inScope_cast {o : Option α} {post : α → Prop} (h : ∀ a, o = some a → post a) :
    InScope A r (cast o) post := by
  cases o with
  | none => trivial
  | some a => exact h a rfl

theorem inScope_isEmpty {t : SemType} (h : Combination A r t) :
    InScope A r (isEmpty t) fun _ => True :=
  ⟨h, fun _ => trivial⟩

theorem forall_atoms_node {P : Atom → Prop} {a : Atom} {l m r : Bdd} :
    (∀ x ∈ (Bdd.node a l m r).atoms, P x) ↔
      P a ∧ (∀ x ∈ l.atoms, P x) ∧ (∀ x ∈ m.atoms, P x) ∧ ∀ x ∈ r.atoms, P x := by
  simp only [Bdd.atoms, List.forall_mem_cons, List.forall_mem_append, and_assoc]

theorem forall_atoms_of_orderedOver : ∀ {b : Bdd} {P : Atom → Prop}, b.OrderedOver P →
    ∀ a ∈ b.atoms, P a
  | .leaf _, _, _, a, ha => by cases ha
  | .node _ _ _ _, _, h, a, ha =>
    forall_atoms_node.mpr ⟨h.1, forall_atoms_of_orderedOver h.2.1.forget,
      forall_atoms_of_orderedOver h.2.2.1.forget, forall_atoms_of_orderedOver h.2.2.2.forget⟩ a ha

/-- The predicate of a walk through a `Bdd` over `P` is given atoms of `P`. -/
theorem inScope_bddEvery {P : Atom → Prop} {predicate : List Atom → List Atom → EmptyM Bool}
    (h : ∀ pos neg, (∀ a ∈ pos, P a) → (∀ a ∈ neg, P a) →
      InScope A r (predicate pos neg) fun _ => True) :
    ∀ {b : Bdd} {pos neg : List Atom}, (∀ a ∈ b.atoms, P a) → (∀ a ∈ pos, P a) →
      (∀ a ∈ neg, P a) → InScope A r (bddEvery predicate b pos neg) fun _ => True
  | .leaf b, pos, neg, _, hpos, hneg => by
    cases b with
    | true => exact h pos neg hpos hneg
    | false => trivial
  | .node a left middle right, pos, neg, hb, hpos, hneg => by
    obtain ⟨ha, hl, hm, hr⟩ := forall_atoms_node.mp hb
    refine InScope.bind (inScope_bddEvery h hl (List.forall_mem_cons.mpr ⟨ha, hpos⟩) hneg)
      fun b _ => ?_
    split
    · refine InScope.bind (inScope_bddEvery h hm hpos hneg) fun b _ => ?_
      split
      · exact inScope_bddEvery h hr hpos (List.forall_mem_cons.mpr ⟨ha, hneg⟩)
      · trivial
    · trivial

theorem forall_andIfPositive {P : Atom → Prop} {a : Atom} {next : List Atom} (ha : P a)
    (hnext : ∀ a ∈ next, P a) : ∀ x ∈ andIfPositive a next, P x := by
  cases a with
  | recAtom i =>
    simp only [andIfPositive]
    split
    · exact hnext
    · exact List.forall_mem_cons.mpr ⟨ha, hnext⟩
  | typeAtom i t => exact List.forall_mem_cons.mpr ⟨ha, hnext⟩

theorem inScope_bddEveryPositive {P : Atom → Prop}
    {predicate : List Atom → List Atom → EmptyM Bool}
    (h : ∀ pos neg, (∀ a ∈ pos, P a) → (∀ a ∈ neg, P a) →
      InScope A r (predicate pos neg) fun _ => True) :
    ∀ {b : Bdd} {pos neg : List Atom}, (∀ a ∈ b.atoms, P a) → (∀ a ∈ pos, P a) →
      (∀ a ∈ neg, P a) → InScope A r (bddEveryPositive predicate b pos neg) fun _ => True
  | .leaf b, pos, neg, _, hpos, hneg => by
    cases b with
    | true => exact h pos neg hpos hneg
    | false => trivial
  | .node a left middle right, pos, neg, hb, hpos, hneg => by
    obtain ⟨ha, hl, hm, hr⟩ := forall_atoms_node.mp hb
    refine InScope.bind (inScope_bddEveryPositive h hl (forall_andIfPositive ha hpos) hneg)
      fun b _ => ?_
    split
    · refine InScope.bind (inScope_bddEveryPositive h hm hpos hneg) fun b _ => ?_
      split
      · exact inScope_bddEveryPositive h hr hpos (forall_andIfPositive ha hneg)
      · trivial
    · trivial

end Scope

theorem Env.typeAtom_atomicType (env : Env) (t : AtomicType) :
    (env.typeAtom t).1.atomicType = t := by
  unfold typeAtom
  split
  next hta =>
    have := List.find?_some hta
    exact of_decide_eq_true this
  next => rfl

section Bodies

variable [BddIdentity] {A : Finset Atom} {r : Nat}

variable {t t1 t2 : SemType} {neg pos : List Atom} {c : CellAtomicType}

theorem inScope_diff (hA : HasConstants A) (h1 : Combination A r t1) (h2 : Combination A r t2) :
    InScope A r (cast (diff ops t1 t2)) (Combination A r) :=
  inScope_cast fun _ h => h1.diff hA h2 h

theorem inScope_intersect (hA : HasConstants A) (h1 : Combination A r t1) (h2 : Combination A r t2) :
    InScope A r (cast (intersect ops t1 t2)) (Combination A r) :=
  inScope_cast fun _ h => h1.intersect hA h2 h

theorem inScope_isSubtype (hA : HasConstants A) (h1 : Combination A r t1) (h2 : Combination A r t2) :
    InScope A r (isSubtype t1 t2) fun _ => True :=
  InScope.bind (inScope_diff hA h1 h2) fun _ h => inScope_isEmpty h

theorem inScope_isSameType (hA : HasConstants A) (h1 : Combination A r t1) (h2 : Combination A r t2) :
    InScope A r (isSameType t1 t2) fun _ => True := by
  unfold isSameType
  split
  · trivial
  · refine InScope.bind (inScope_isSubtype hA h1 h2) fun b _ => ?_
    split
    · exact inScope_isSubtype hA h2 h1
    · trivial

/-! ## Cells

The atoms of a conjunction are cells with contents of rank `r`, one less than the rank
of the semtype they come from. -/

/-- A cell atom with content of rank `r`. -/
abbrev CellIn (A : Finset Atom) (r : Nat) (a : Atom) : Prop :=
  CombinationAtom A (Combination A r) .cell a

theorem cellNegListUnion_combination (hA : HasConstants A) : ∀ {neg : List Atom} {t u : SemType},
    (∀ a ∈ neg, CellIn A r a) → Combination A r t → cellNegListUnion neg t = some u →
      Combination A r u
  | [], _, _, _, ht, h => by
    cases h
    exact ht
  | a :: neg, t, u, hneg, ht, h => by
    obtain ⟨ha, hneg⟩ := List.forall_mem_cons.mp hneg
    obtain ⟨c, hc, h⟩ := Option.bind_eq_some_iff.mp h
    obtain ⟨t', ht', h⟩ := Option.bind_eq_some_iff.mp h
    exact cellNegListUnion_combination hA hneg (ht.union hA (ha c hc) ht') h

theorem cellNegListUnlimitedUnion_combination (hA : HasConstants A) :
    ∀ {neg : List Atom} {t u : SemType}, (∀ a ∈ neg, CellIn A r a) → Combination A r t →
      cellNegListUnlimitedUnion neg t = some u → Combination A r u
  | [], _, _, _, ht, h => by
    cases h
    exact ht
  | a :: neg, t, u, hneg, ht, h => by
    obtain ⟨ha, hneg⟩ := List.forall_mem_cons.mp hneg
    obtain ⟨c, hc, h⟩ := Option.bind_eq_some_iff.mp h
    split at h
    · obtain ⟨t', ht', h⟩ := Option.bind_eq_some_iff.mp h
      exact cellNegListUnlimitedUnion_combination hA hneg (ht.union hA (ha c hc) ht') h
    · exact cellNegListUnlimitedUnion_combination hA hneg ht h

theorem inScope_outsideInhabited (hA : HasConstants A) {pos negUnion : SemType}
    (hpos : Combination A r pos) (hneg : Combination A r negUnion) :
    InScope A r (outsideInhabited pos negUnion) fun _ => True := by
  unfold outsideInhabited
  split
  · trivial
  · refine InScope.bind (inScope_diff hA hpos hneg) fun t ht => ?_
    exact InScope.bind (inScope_isEmpty ht) fun _ _ => trivial

theorem inScope_cellMutLimitedInhabited (hA : HasConstants A) {pos : SemType}
    (hpos : Combination A r pos) : ∀ {negList : List Atom}, (∀ a ∈ negList, CellIn A r a) →
      InScope A r (cellMutLimitedInhabited pos negList) fun _ => True
  | [], _ => trivial
  | a :: negList, hneg => by
    obtain ⟨ha, hneg⟩ := List.forall_mem_cons.mp hneg
    refine InScope.bind (inScope_cast fun c hc => ha c hc) fun c hc => ?_
    split
    · refine InScope.bind (inScope_diff hA hpos hc) fun t ht => ?_
      refine InScope.bind (inScope_isEmpty ht) fun b _ => ?_
      split
      · trivial
      · exact inScope_cellMutLimitedInhabited hA hpos hneg
    · exact inScope_cellMutLimitedInhabited hA hpos hneg

theorem inScope_someLimitedTop (hA : HasConstants A) : ∀ {negList : List Atom},
    (∀ a ∈ negList, CellIn A r a) → InScope A r (someLimitedTop negList) fun _ => True
  | [], _ => trivial
  | a :: negList, hneg => by
    obtain ⟨ha, hneg⟩ := List.forall_mem_cons.mp hneg
    refine InScope.bind (inScope_cast fun c hc => ha c hc) fun c hc => ?_
    split
    · refine InScope.bind (inScope_isSameType hA (.bits A VAL r) hc) fun b _ => ?_
      split
      · trivial
      · exact inScope_someLimitedTop hA hneg
    · exact inScope_someLimitedTop hA hneg

theorem inScope_cellInhabited (hA : HasConstants A) {posCell : CellAtomicType}
    (hpos : Combination A r posCell.ty) {negList : List Atom}
    (hneg : ∀ a ∈ negList, CellIn A r a) :
    InScope A r (cellInhabited posCell negList) fun _ => True := by
  have hnever : Combination A r NEVER := .bits A 0 r
  refine InScope.bind (inScope_isEmpty hpos) fun b _ => ?_
  split
  · trivial
  · split
    · refine InScope.bind
        (inScope_cast fun u hu => cellNegListUnion_combination hA hneg hnever hu) fun u hu => ?_
      exact inScope_outsideInhabited hA hpos hu
    · exact inScope_cellMutLimitedInhabited hA hpos hneg
    · refine InScope.bind (inScope_someLimitedTop hA hneg) fun b _ => ?_
      split
      · trivial
      · refine InScope.bind (inScope_cast fun u hu =>
          cellNegListUnlimitedUnion_combination hA hneg hnever hu) fun u hu => ?_
        exact inScope_outsideInhabited hA hpos hu

theorem intersectCellAtomicType_combination (hA : HasConstants A) {c1 c2 : CellAtomicType}
    (h1 : Combination A r c1.ty) (h2 : Combination A r c2.ty)
    (h : intersectCellAtomicType c1 c2 = some c) : Combination A r c.ty := by
  obtain ⟨ty, hty, h⟩ := Option.bind_eq_some_iff.mp h
  cases h
  exact h1.intersect hA h2 hty

theorem combineCells_combination (hA : HasConstants A) : ∀ {pos : List Atom} {c d : CellAtomicType},
    (∀ a ∈ pos, CellIn A r a) → Combination A r c.ty → combineCells pos c = some d →
      Combination A r d.ty
  | [], _, _, _, hc, h => by
    cases h
    exact hc
  | a :: pos, c, d, hpos, hc, h => by
    obtain ⟨ha, hpos⟩ := List.forall_mem_cons.mp hpos
    obtain ⟨c1, hc1, h⟩ := Option.bind_eq_some_iff.mp h
    obtain ⟨c2, hc2, h⟩ := Option.bind_eq_some_iff.mp h
    exact combineCells_combination hA hpos
      (intersectCellAtomicType_combination hA hc (ha c1 hc1) hc2) h

/-- A cell formula asks for combinations of the contents of its cells. -/
theorem inScope_cellFormulaIsEmpty (hA : HasConstants A) (hpos : ∀ a ∈ pos, CellIn A r a)
    (hneg : ∀ a ∈ neg, CellIn A r a) :
    InScope A r (cellFormulaIsEmpty pos neg) fun _ => True := by
  have hrest : ∀ c : CellAtomicType, Combination A r c.ty →
      InScope A r (do return !(← cellInhabited c neg)) fun _ => True :=
    fun c hc => InScope.bind (inScope_cellInhabited hA hc hneg) fun _ _ => trivial
  cases pos with
  | nil => exact hrest _ (.bits A VAL r)
  | cons a pos =>
    obtain ⟨ha, hpos⟩ := List.forall_mem_cons.mp hpos
    refine InScope.bind (inScope_cast fun c hc => ?_) hrest
    obtain ⟨c0, hc0, hc⟩ := Option.bind_eq_some_iff.mp hc
    exact combineCells_combination hA hpos (ha c0 hc0) hc

/-! ## Members of lists and mappings

From here on `r + 1` is the rank of the members of atoms, which are cells. -/

/-- Combinations of rank `r`, all of them. -/
abbrev AllIn (A : Finset Atom) (r : Nat) (ts : List SemType) : Prop := ∀ t ∈ ts, Combination A r t

omit [BddIdentity] in
theorem bddCellAtomicType_combination {b : Bdd} (hb : b.OrderedOver (CellIn A r))
    (h : bddCellAtomicType b = some (some c)) :
    Combination A r c.ty := by
  cases b with
  | leaf b =>
    cases b with
    | true =>
      cases h
      exact .bits A VAL r
    | false => cases h
  | node a left middle right =>
    simp only [bddCellAtomicType] at h
    split at h
    · obtain ⟨c', hc', h⟩ := Option.map_eq_some_iff.mp h
      cases h
      exact hb.1 c hc'
    · cases h

omit [BddIdentity] in
theorem cellAtomicType_combination (ht : Combination A (r + 1) t) (h : cellAtomicType t = some c) :
    Combination A r c.ty := by
  cases t with
  | bits b =>
    simp only [cellAtomicType] at h
    split at h
    · cases h
      exact .bits A VAL r
    · cases h
  | complex t =>
    simp only [cellAtomicType] at h
    split at h
    · obtain ⟨data, hdata, h⟩ := Option.bind_eq_some_iff.mp h
      obtain ⟨b, hb, h⟩ := Option.bind_eq_some_iff.mp h
      obtain ⟨o, ho, h⟩ := Option.bind_eq_some_iff.mp h
      subst h
      obtain ⟨r', ha, hr'⟩ := atCode ht.wf BT_CELL
      cases hdata.symm.trans hr'
      refine bddCellAtomicType_combination ?_ ho
      cases ha with
      | whole _ _ _ =>
        cases hb
        trivial
      | nothing _ _ _ =>
        cases hb
        trivial
      | @part d _ _ hl =>
        refine valid_of_lookup ht.wf ht.valid hl .cell rfl b ?_
        cases d with
        | bddNode a l m r => exact hb
        | string _ | decimal _ | float _ | int _ | boolean _ | xml _ _ => cases hb
    · cases h

omit [BddIdentity] in
theorem inScope_cellContainingM {ty : SemType} (h : Combination A r ty) (m : CellMutability) :
    InScope A (r + 1) (cellContainingM ty m) (Combination A (r + 1)) := by
  intro v hv
  refine Combination.atom fun kind hk => ?_
  cases hk
  intro c hc
  rw [TypeAtom.toAtom, hv] at hc
  cases hc
  exact h

theorem inScope_cellContainingInnerVal (hA : HasConstants A) (h : Combination A (r + 1) t) :
    InScope A (r + 1) (cellContainingInnerVal t) (Combination A (r + 1)) := by
  refine InScope.bind (inScope_cast fun c hc => cellAtomicType_combination h hc) fun c hc => ?_
  refine InScope.bind (inScope_cast fun ty hty => hc.diff hA (.bits A UNDEF r) hty) fun ty hty => ?_
  exact inScope_cellContainingM hty _

theorem inScope_intersectMemberSemTypes (hA : HasConstants A) (h1 : Combination A (r + 1) t1)
    (h2 : Combination A (r + 1) t2) :
    InScope A (r + 1) (intersectMemberSemTypes t1 t2) (Combination A (r + 1)) := by
  refine InScope.bind (inScope_cast fun c hc => cellAtomicType_combination h1 hc) fun c1 hc1 => ?_
  refine InScope.bind (inScope_cast fun c hc => cellAtomicType_combination h2 hc) fun c2 hc2 => ?_
  refine InScope.bind
    (inScope_cast fun c hc => intersectCellAtomicType_combination hA hc1 hc2 hc) fun c hc => ?_
  exact inScope_cellContainingM hc _

omit [BddIdentity] in
theorem inScope_anyEmpty : ∀ {types : List SemType}, AllIn A r types →
    InScope A r (anyEmpty types) fun _ => True
  | [], _ => trivial
  | t :: types, h => by
    obtain ⟨ht, htypes⟩ := List.forall_mem_cons.mp h
    refine InScope.bind (inScope_isEmpty ht) fun b _ => ?_
    split
    · trivial
    · exact inScope_anyEmpty htypes

/-! ## Lists -/

/-- The members of a list atomic type are combinations. -/
abbrev ListIn (A : Finset Atom) (r : Nat) (t : ListAtomicType) : Prop :=
  AllIn A r t.toAtomicType.semTypes

omit [BddIdentity] in
theorem listMemberAt_combination {m : FixedLengthArray} {rest : SemType} {i : Int}
    (h : ListIn A r ⟨m, rest⟩) (ht : listMemberAt m rest i = some t) : Combination A r t := by
  unfold listMemberAt at ht
  split at ht
  · unfold fixedArrayGet at ht
    dsimp only at ht
    split at ht
    · exact h t (List.mem_append_left _ (List.mem_of_getElem? ht))
    · cases ht
  · cases ht
    exact h _ (List.mem_append_right _ (List.mem_singleton_self _))

theorem inScope_intersectMembers (hA : HasConstants A) {m1 m2 : FixedLengthArray}
    {rest1 rest2 : SemType} (h1 : ListIn A (r + 1) ⟨m1, rest1⟩)
    (h2 : ListIn A (r + 1) ⟨m2, rest2⟩) : ∀ (is : List Nat),
      InScope A (r + 1) (intersectMembers m1 rest1 m2 rest2 is) (AllIn A (r + 1))
  | [] => fun t ht => by cases ht
  | i :: is => by
    refine InScope.bind (inScope_cast fun t ht => listMemberAt_combination h1 ht) fun t1 ht1 => ?_
    refine InScope.bind (inScope_cast fun t ht => listMemberAt_combination h2 ht) fun t2 ht2 => ?_
    refine InScope.bind (inScope_intersectMemberSemTypes hA ht1 ht2) fun t ht => ?_
    refine InScope.bind (inScope_intersectMembers hA h1 h2 is) fun ts hts => ?_
    exact List.forall_mem_cons.mpr ⟨ht, hts⟩

theorem inScope_listIntersectWith (hA : HasConstants A) {m1 m2 : FixedLengthArray}
    {rest1 rest2 : SemType} (h1 : ListIn A (r + 1) ⟨m1, rest1⟩)
    (h2 : ListIn A (r + 1) ⟨m2, rest2⟩) :
    InScope A (r + 1) (listIntersectWith m1 rest1 m2 rest2)
      fun o => ∀ t, o = some t → ListIn A (r + 1) t := by
  have hrest {m : FixedLengthArray} {rest : SemType} (h : ListIn A (r + 1) ⟨m, rest⟩) :
      Combination A (r + 1) rest :=
    h rest (List.mem_append_right _ (List.mem_singleton_self _))
  refine InScope.bind (inScope_cast fun _ _ => trivial) fun b _ => ?_
  split
  · exact fun t ht => by cases ht
  · refine InScope.bind (inScope_intersectMembers hA h1 h2 _) fun ts hts => ?_
    refine InScope.bind (inScope_intersectMemberSemTypes hA (hrest h1) (hrest h2))
      fun rest hr t ht => ?_
    cases ht
    exact List.forall_mem_append.mpr ⟨hts, fun u hu => by cases List.mem_singleton.mp hu; exact hr⟩

/-- The members of atoms in `A` are combinations. -/
structure ClosedEnv (env : Env) (A : Finset Atom) (r : Nat) : Prop where
  constants : HasConstants A
  members : ∀ {kind a t}, a ∈ A → env.atomType kind a = some t → AllIn A r t.semTypes

variable {env : Env}

omit [BddIdentity] in
theorem ClosedEnv.list (h : ClosedEnv env A r) {a : Atom} (ha : a ∈ A) {t : ListAtomicType}
    (ht : env.listAtomType a = some t) : ListIn A r t :=
  @h.members .list a _ ha (by simp [Env.atomType, ht])

/-- Combined lists have combinations as members. -/
theorem inScope_combineLists (h : ClosedEnv env A (r + 1)) :
    ∀ {p : List Atom} {lt : ListAtomicType}, (∀ a ∈ p, a ∈ A) → ListIn A (r + 1) lt →
      InScope A (r + 1) (combineLists env p lt) fun o => ∀ t, o = some t → ListIn A (r + 1) t
  | [], lt, _, hlt => fun t ht => by
    cases ht
    exact hlt
  | d :: p, lt, hp, hlt => by
    obtain ⟨hd, hp⟩ := List.forall_mem_cons.mp hp
    refine InScope.bind (inScope_cast fun t ht => h.list hd ht) fun next hnext => ?_
    refine InScope.bind (inScope_listIntersectWith h.constants hlt hnext) fun o ho => ?_
    split
    · exact fun t ht => by cases ht
    · exact inScope_combineLists h hp (ho _ rfl)

theorem inScope_listSampleTypesLoop (hA : HasConstants A) {members : FixedLengthArray}
    {rest : SemType} (h : ListIn A (r + 1) ⟨members, rest⟩) :
    ∀ {indices : List Int} {i : Nat} {memberTypes : List SemType} {nRequired : Nat},
      AllIn A (r + 1) memberTypes →
      InScope A (r + 1) (listSampleTypesLoop members rest indices i memberTypes nRequired)
        fun p => AllIn A (r + 1) p.1
  | [], _, _, _, hm => hm
  | index :: indices, i, memberTypes, nRequired, hm => by
    refine InScope.bind (inScope_cast fun t ht => listMemberAt_combination h ht) fun t ht => ?_
    refine InScope.bind (inScope_cellContainingInnerVal hA ht) fun t ht => ?_
    refine InScope.bind (inScope_isEmpty ht) fun b _ => ?_
    split
    · exact hm
    · refine inScope_listSampleTypesLoop hA h (List.forall_mem_append.mpr ⟨hm, fun u hu => ?_⟩)
      cases List.mem_singleton.mp hu
      exact ht

section Inhabited

variable {next : List SemType → Nat → EmptyM Bool} {indices : List Int}
  {memberTypes : List SemType} {nRequired : Nat}

omit [BddIdentity] in
theorem inScope_listInhabitedShorter
    (hnext : ∀ types n, AllIn A r types → InScope A r (next types n) fun _ => True)
    (hm : AllIn A r memberTypes) {negLen : Int} : ∀ (is : List Nat),
      InScope A r (listInhabitedShorter next indices memberTypes nRequired negLen is)
        fun _ => True
  | [] => trivial
  | i :: is => by
    refine InScope.bind (inScope_cast fun _ _ => trivial) fun index _ => ?_
    split
    · trivial
    · refine InScope.bind (hnext _ _ fun t ht => hm t (List.mem_of_mem_take ht)) fun b _ => ?_
      split
      · trivial
      · exact inScope_listInhabitedShorter hnext hm is

theorem inScope_listInhabitedMember (hA : HasConstants A)
    (hnext : ∀ types n, AllIn A r types → InScope A r (next types n) fun _ => True)
    {nt : ListAtomicType} (hnt : ListIn A r nt) (hm : AllIn A r memberTypes) : ∀ (is : List Nat),
      InScope A r (listInhabitedMember next nt indices memberTypes nRequired is) fun _ => True
  | [] => trivial
  | i :: is => by
    refine InScope.bind (inScope_cast fun _ _ => trivial) fun index _ => ?_
    refine InScope.bind (inScope_cast fun t ht => listMemberAt_combination hnt ht) fun negType hn => ?_
    refine InScope.bind (inScope_cast fun t ht => hm t (List.mem_of_getElem? ht)) fun t ht => ?_
    refine InScope.bind (inScope_diff hA ht hn) fun d hd => ?_
    refine InScope.bind (inScope_isEmpty hd) fun b _ => ?_
    split
    · exact inScope_listInhabitedMember hA hnext hnt hm is
    · refine InScope.bind (hnext _ _ fun u hu => ?_) fun b _ => ?_
      · rcases List.mem_or_eq_of_mem_set hu with hu | rfl
        · exact hm u hu
        · exact hd
      · split
        · trivial
        · exact inScope_listInhabitedMember hA hnext hnt hm is

end Inhabited

/-- A list that is tried is shorter or has a member less the negative's. -/
theorem inScope_listInhabited (h : ClosedEnv env A r) (indices : List Int) :
    ∀ {neg : List Atom}, (∀ a ∈ neg, a ∈ A) → ∀ (memberTypes : List SemType) (nRequired : Nat),
      AllIn A r memberTypes →
      InScope A r (listInhabited env indices neg memberTypes nRequired) fun _ => True
  | [], _, _, _, _ => trivial
  | atom :: neg, hneg, memberTypes, nRequired, hm => by
    obtain ⟨ha, hneg⟩ := List.forall_mem_cons.mp hneg
    have hnext := inScope_listInhabited h indices hneg
    refine InScope.bind (inScope_cast fun t ht => h.list ha ht) fun nt hnt => ?_
    refine InScope.bind (inScope_cast fun _ _ => trivial) fun skip _ => ?_
    split
    · exact hnext _ _ hm
    · refine InScope.bind (inScope_cast fun _ _ => trivial) fun short _ => ?_
      split
      · exact hnext _ _ hm
      · have hshorter := fun (negLen : Int) (is : List Nat) =>
          @inScope_listInhabitedShorter A r _ indices memberTypes nRequired hnext hm negLen is
        have hmember := fun (is : List Nat) =>
          @inScope_listInhabitedMember _ A r _ indices memberTypes nRequired h.constants hnext nt
            hnt hm is
        split
        · refine InScope.bind (hshorter _ _) fun b _ => ?_
          dsimp only
          split
          · trivial
          · exact hmember _
        · exact hmember _

theorem inScope_listFormulaIsEmpty (h : ClosedEnv env A (r + 1)) (hpos : ∀ a ∈ pos, a ∈ A)
    (hneg : ∀ a ∈ neg, a ∈ A) :
    InScope A (r + 1) (listFormulaIsEmpty env pos neg) fun _ => True := by
  have hrest : ∀ lt : ListAtomicType, ListIn A (r + 1) lt → InScope A (r + 1) (do
      let indices ← cast (listSamples env lt.members neg)
      let p ← listSampleTypes lt.members lt.rest indices
      return !(← listInhabited env indices neg p.1 p.2)) fun _ => True := by
    intro lt hlt
    refine InScope.bind (inScope_cast fun _ _ => trivial) fun indices _ => ?_
    refine InScope.bind (inScope_listSampleTypesLoop h.constants hlt fun t ht => by cases ht)
      fun p hp => ?_
    exact InScope.bind (inScope_listInhabited h indices hneg p.1 p.2 hp) fun _ _ => trivial
  cases pos with
  | nil =>
    refine hrest ⟨⟨[], 0⟩, CELL_SEMTYPE_INNER⟩ fun t ht => ?_
    cases List.mem_singleton.mp ht
    refine Combination.atom fun kind hk => ?_
    cases hk
    intro c hc
    cases hc
    exact .bits A INNER r
  | cons a p =>
    obtain ⟨ha, hp⟩ := List.forall_mem_cons.mp hpos
    refine InScope.bind (inScope_cast fun t ht => h.list ha ht) fun lt hlt => ?_
    refine InScope.bind (inScope_combineLists h hp hlt) fun o ho => ?_
    cases o with
    | none => trivial
    | some lt =>
      have hlt := ho lt rfl
      refine InScope.bind (inScope_anyEmpty fun t ht => hlt t (List.mem_append_left _ ht))
        fun b _ => ?_
      cases b with
      | true => trivial
      | false => exact hrest lt hlt

/-! ## Mappings -/

/-- The fields of a mapping atomic type are combinations. -/
abbrev MappingIn (A : Finset Atom) (r : Nat) (t : MappingAtomicType) : Prop :=
  AllIn A r t.toAtomicType.semTypes

omit [BddIdentity] in
theorem ClosedEnv.mapping (h : ClosedEnv env A r) {a : Atom} (ha : a ∈ A) {t : MappingAtomicType}
    (ht : env.mappingAtomType a = some t) : MappingIn A r t :=
  @h.members .mapping a _ ha (by simp [Env.atomType, ht])

omit [BddIdentity] in
theorem MappingIn.rest {m : MappingAtomicType} (h : MappingIn A r m) : Combination A r m.rest :=
  h _ (List.mem_append_right _ (List.mem_singleton_self _))

omit [BddIdentity] in
theorem MappingIn.types {m : MappingAtomicType} (h : MappingIn A r m) : AllIn A r m.types :=
  fun _ ht => h _ (List.mem_append_left _ ht)

omit [BddIdentity] in
theorem MappingIn.mk {names : List String} {types : List SemType} {rest : SemType}
    (htypes : AllIn A r types) (hrest : Combination A r rest) :
    MappingIn A r ⟨names, types, rest⟩ :=
  List.forall_mem_append.mpr ⟨htypes, fun u hu => by cases List.mem_singleton.mp hu; exact hrest⟩

/-- Both types of a pair are combinations. -/
abbrev PairIn (A : Finset Atom) (r : Nat) (p : CellFieldPair) : Prop :=
  Combination A r p.type1 ∧ Combination A r p.type2

omit [BddIdentity] in
theorem mappingPairs_combination {rest1 rest2 : SemType} (h1 : Combination A r rest1)
    (h2 : Combination A r rest2) (i : Nat) (fs1 fs2 : List (String × SemType))
    (hf1 : ∀ f ∈ fs1, Combination A r f.2) (hf2 : ∀ f ∈ fs2, Combination A r f.2) :
    ∀ p ∈ mappingPairs rest1 rest2 i fs1 fs2, PairIn A r p := by
  fun_induction mappingPairs rest1 rest2 i fs1 fs2 with
  | case1 _ => exact fun p hp => by cases hp
  | case2 i name2 t2 fs2 ih =>
    obtain ⟨ht2, hf2⟩ := List.forall_mem_cons.mp hf2
    exact List.forall_mem_cons.mpr ⟨⟨h1, ht2⟩, ih hf1 hf2⟩
  | case3 i name1 t1 fs1 ih =>
    obtain ⟨ht1, hf1⟩ := List.forall_mem_cons.mp hf1
    exact List.forall_mem_cons.mpr ⟨⟨ht1, h2⟩, ih hf1 hf2⟩
  | case4 i name1 t1 fs1 name2 t2 fs2 _ ih =>
    obtain ⟨ht1, hf1⟩ := List.forall_mem_cons.mp hf1
    exact List.forall_mem_cons.mpr ⟨⟨ht1, h2⟩, ih hf1 hf2⟩
  | case5 i name1 t1 fs1 name2 t2 fs2 _ _ ih =>
    obtain ⟨ht2, hf2⟩ := List.forall_mem_cons.mp hf2
    exact List.forall_mem_cons.mpr ⟨⟨h1, ht2⟩, ih hf1 hf2⟩
  | case6 i name1 t1 fs1 name2 t2 fs2 _ _ ih =>
    obtain ⟨ht1, hf1⟩ := List.forall_mem_cons.mp hf1
    obtain ⟨ht2, hf2⟩ := List.forall_mem_cons.mp hf2
    exact List.forall_mem_cons.mpr ⟨⟨ht1, ht2⟩, ih hf1 hf2⟩

omit [BddIdentity] in
theorem mappingPairing_combination {m1 m2 : MappingAtomicType} (h1 : MappingIn A r m1)
    (h2 : MappingIn A r m2) : ∀ p ∈ mappingPairing m1 m2, PairIn A r p := by
  have hzip {m : MappingAtomicType} (h : MappingIn A r m) :
      ∀ f ∈ m.names.zip m.types, Combination A r f.2 :=
    fun f hf => h.types _ (List.of_mem_zip hf).2
  exact mappingPairs_combination h1.rest h2.rest 0 _ _ (hzip h1) (hzip h2)

theorem inScope_intersectFields (hA : HasConstants A) : ∀ {pairs : List CellFieldPair},
    (∀ p ∈ pairs, PairIn A (r + 1) p) →
      InScope A (r + 1) (intersectFields pairs) fun o => ∀ q, o = some q → AllIn A (r + 1) q.2
  | [], _ => fun q hq => by
    cases hq
    exact fun t ht => by cases ht
  | p :: pairs, h => by
    obtain ⟨hp, hpairs⟩ := List.forall_mem_cons.mp h
    refine InScope.bind (inScope_intersectMemberSemTypes hA hp.1 hp.2) fun t ht => ?_
    refine InScope.bind (inScope_cast fun _ _ => trivial) fun _ _ => ?_
    split
    · exact fun q hq => by cases hq
    · refine InScope.bind (inScope_intersectFields hA hpairs) fun o ho => ?_
      split
      · exact fun q hq => by cases hq
      · intro q hq
        cases hq
        exact List.forall_mem_cons.mpr ⟨ht, ho _ rfl⟩

theorem inScope_intersectMapping (hA : HasConstants A) {m1 m2 : MappingAtomicType}
    (h1 : MappingIn A (r + 1) m1) (h2 : MappingIn A (r + 1) m2) :
    InScope A (r + 1) (intersectMapping m1 m2)
      fun o => ∀ m, o = some m → MappingIn A (r + 1) m := by
  refine InScope.bind (inScope_intersectFields hA (mappingPairing_combination h1 h2)) fun o ho => ?_
  split
  · exact fun m hm => by cases hm
  · refine InScope.bind (inScope_intersectMemberSemTypes hA h1.rest h2.rest) fun rest hrest m hm => ?_
    cases hm
    exact .mk (ho _ rfl) hrest

theorem inScope_combineMappings (h : ClosedEnv env A (r + 1)) :
    ∀ {p : List Atom} {m : MappingAtomicType}, (∀ a ∈ p, a ∈ A) → MappingIn A (r + 1) m →
      InScope A (r + 1) (combineMappings env p m)
        fun o => ∀ m, o = some m → MappingIn A (r + 1) m
  | [], m, _, hm => fun m' hm' => by
    cases hm'
    exact hm
  | a :: p, m, hp, hm => by
    obtain ⟨ha, hp⟩ := List.forall_mem_cons.mp hp
    refine InScope.bind (inScope_cast fun t ht => h.mapping ha ht) fun next hnext => ?_
    refine InScope.bind (inScope_intersectMapping h.constants hm hnext) fun o ho => ?_
    split
    · exact fun m hm => by cases hm
    · exact inScope_combineMappings h hp (ho _ rfl)

omit [BddIdentity] in
theorem insertField_combination {m : MappingAtomicType} (h : MappingIn A r m) (name : String)
    (ht : Combination A r t) : MappingIn A r (insertField m name t) := by
  refine .mk (fun u hu => ?_) h.rest
  rcases List.eq_or_mem_of_mem_insertIdx hu with rfl | hu
  · exact ht
  · exact h.types u hu

theorem inScope_mappingInhabitedField (hA : HasConstants A)
    {next : MappingAtomicType → EmptyM Bool}
    (hnext : ∀ m, MappingIn A r m → InScope A r (next m) fun _ => True) {pos : MappingAtomicType}
    (hpos : MappingIn A r pos) : ∀ {pairs : List CellFieldPair}, (∀ p ∈ pairs, PairIn A r p) →
      InScope A r (mappingInhabitedField next pos pairs) fun _ => True
  | [], _ => trivial
  | p :: pairs, h => by
    obtain ⟨hp, hpairs⟩ := List.forall_mem_cons.mp h
    have hd : InScope A r (cast (do toCellSemType (← diff ops p.type1 p.type2)))
        (Combination A r) := by
      refine inScope_cast fun d hd => ?_
      obtain ⟨d', hd', hd⟩ := Option.bind_eq_some_iff.mp hd
      have := hp.1.diff hA hp.2 hd'
      unfold toCellSemType at hd
      split at hd
      · cases hd
      · split at hd
        · cases hd
          exact this
        · cases hd
    refine InScope.bind hd fun d hd => ?_
    refine InScope.bind (inScope_isEmpty hd) fun b _ => ?_
    split
    · exact inScope_mappingInhabitedField hA hnext hpos hpairs
    · refine InScope.bind (hnext _ ?_) fun b _ => ?_
      · split
        · exact insertField_combination hpos p.name hd
        · refine .mk (fun u hu => ?_) hpos.rest
          rcases List.mem_or_eq_of_mem_set hu with hu | rfl
          · exact hpos.types u hu
          · exact hd
      · split
        · trivial
        · exact inScope_mappingInhabitedField hA hnext hpos hpairs

/-- A mapping that is tried has a field less the negative's. -/
theorem inScope_mappingInhabited (h : ClosedEnv env A r) : ∀ {negList : List Atom},
    (∀ a ∈ negList, a ∈ A) → ∀ pos, MappingIn A r pos →
      InScope A r (mappingInhabited env negList pos) fun _ => True
  | [], _, _, _ => trivial
  | a :: negList, hneg, pos, hpos => by
    obtain ⟨ha, hneg⟩ := List.forall_mem_cons.mp hneg
    refine InScope.bind (inScope_cast fun t ht => h.mapping ha ht) fun neg hn => ?_
    refine InScope.bind (inScope_diff h.constants hpos.rest hn.rest) fun d hd => ?_
    refine InScope.bind (inScope_isEmpty hd) fun b _ => ?_
    split
    · exact inScope_mappingInhabitedField h.constants (inScope_mappingInhabited h hneg) hpos
        (mappingPairing_combination hpos hn)
    · exact inScope_mappingInhabited h hneg pos hpos

theorem inScope_mappingFormulaIsEmpty (h : ClosedEnv env A (r + 1)) (hpos : ∀ a ∈ pos, a ∈ A)
    (hneg : ∀ a ∈ neg, a ∈ A) :
    InScope A (r + 1) (mappingFormulaIsEmpty env pos neg) fun _ => True := by
  have hrest : ∀ m : MappingAtomicType, MappingIn A (r + 1) m →
      InScope A (r + 1) (do return !(← mappingInhabited env neg m)) fun _ => True :=
    fun m hm => InScope.bind (inScope_mappingInhabited h hneg m hm) fun _ _ => trivial
  cases pos with
  | nil =>
    refine hrest ⟨[], [], CELL_SEMTYPE_INNER⟩ (.mk (fun t ht => by cases ht) ?_)
    refine Combination.atom fun kind hk => ?_
    cases hk
    intro c hc
    cases hc
    exact .bits A INNER r
  | cons a p =>
    obtain ⟨ha, hp⟩ := List.forall_mem_cons.mp hpos
    refine InScope.bind (inScope_cast fun t ht => h.mapping ha ht) fun m hm => ?_
    refine InScope.bind (inScope_combineMappings h hp hm) fun o ho => ?_
    cases o with
    | none => trivial
    | some m =>
      refine InScope.bind (inScope_anyEmpty (ho m rfl).types) fun b _ => ?_
      cases b with
      | true => trivial
      | false => exact hrest m (ho m rfl)

/-! ## Functions -/

/-- Both types of a function atomic type are combinations. -/
abbrev FunctionIn (A : Finset Atom) (r : Nat) (t : FunctionAtomicType) : Prop :=
  Combination A r t.args ∧ Combination A r t.ret

omit [BddIdentity] in
theorem ClosedEnv.function (h : ClosedEnv env A r) {a : Atom} (ha : a ∈ A)
    {t : FunctionAtomicType} (ht : env.functionAtomType a = some t) : FunctionIn A r t := by
  have hall := @h.members .function a t.toAtomicType ha (by simp [Env.atomType, ht])
  exact ⟨hall _ (.head _), hall _ (.tail _ (.head _))⟩

theorem functionUnionParams_combination (h : ClosedEnv env A r) : ∀ {pos : List Atom} {t : SemType},
    (∀ a ∈ pos, a ∈ A) → functionUnionParams env pos = some t → Combination A r t
  | [], _, _, ht => by
    cases ht
    exact .bits A 0 r
  | a :: pos, t, hpos, ht => by
    obtain ⟨ha, hpos⟩ := List.forall_mem_cons.mp hpos
    obtain ⟨f, hf, ht⟩ := Option.bind_eq_some_iff.mp ht
    obtain ⟨u, hu, ht⟩ := Option.bind_eq_some_iff.mp ht
    exact (h.function ha hf).1.union h.constants (functionUnionParams_combination h hpos hu) ht

theorem functionIntersectRet_combination (h : ClosedEnv env A r) :
    ∀ {pos : List Atom} {t : SemType}, (∀ a ∈ pos, a ∈ A) →
      functionIntersectRet env pos = some t → Combination A r t
  | [], _, _, ht => by
    cases ht
    exact .bits A VAL r
  | a :: pos, t, hpos, ht => by
    obtain ⟨ha, hpos⟩ := List.forall_mem_cons.mp hpos
    obtain ⟨f, hf, ht⟩ := Option.bind_eq_some_iff.mp ht
    obtain ⟨u, hu, ht⟩ := Option.bind_eq_some_iff.mp ht
    exact (h.function ha hf).2.intersect h.constants
      (functionIntersectRet_combination h hpos hu) ht

theorem inScope_complement (hA : HasConstants A) (ht : Combination A r t) :
    InScope A r (cast (complement t)) (Combination A r) :=
  inScope_diff hA (.bits A VAL r) ht

theorem inScope_functionPhi (h : ClosedEnv env A r) : ∀ {pos : List Atom} {t0 t1 : SemType},
    (∀ a ∈ pos, a ∈ A) → Combination A r t0 → Combination A r t1 →
      InScope A r (functionPhi env pos t0 t1) fun _ => True
  | [], t0, t1, _, h0, h1 => by
    refine InScope.bind (inScope_isEmpty h0) fun b _ => ?_
    split
    · trivial
    · exact inScope_isEmpty h1
  | a :: pos, t0, t1, hpos, h0, h1 => by
    have hA := h.constants
    obtain ⟨ha, hpos⟩ := List.forall_mem_cons.mp hpos
    refine InScope.bind (inScope_cast fun t ht => h.function ha ht) fun s hs => ?_
    refine InScope.bind (inScope_isSubtype hA h0 hs.1) fun b _ => ?_
    have hrest : ∀ either : Bool, InScope A r (if either = true then do
        if ← functionPhi env pos t0 (← cast (intersect ops t1 s.ret)) then
          functionPhi env pos (← cast (diff ops t0 s.args)) t1
        else return false
      else return false) fun _ => True := by
      intro either
      split
      · refine InScope.bind (inScope_intersect hA h1 hs.2) fun u hu => ?_
        refine InScope.bind (inScope_functionPhi h hpos h0 hu) fun b _ => ?_
        split
        · refine InScope.bind (inScope_diff hA h0 hs.1) fun u hu => ?_
          exact inScope_functionPhi h hpos hu h1
        · trivial
      · trivial
    split
    · exact hrest true
    · refine InScope.bind
        (inScope_cast fun t ht => functionIntersectRet_combination h hpos ht) fun u hu => ?_
      refine InScope.bind (inScope_complement hA h1) fun v hv => ?_
      exact InScope.bind (inScope_isSubtype hA hu hv) fun b _ => hrest b

theorem inScope_functionPathIsEmpty (h : ClosedEnv env A r) {params : SemType}
    (hparams : Combination A r params) {pos : List Atom} (hpos : ∀ a ∈ pos, a ∈ A) :
    ∀ {neg : List Atom}, (∀ a ∈ neg, a ∈ A) →
      InScope A r (functionPathIsEmpty env params pos neg) fun _ => True
  | [], _ => trivial
  | a :: neg, hneg => by
    obtain ⟨ha, hneg⟩ := List.forall_mem_cons.mp hneg
    refine InScope.bind (inScope_cast fun t ht => h.function ha ht) fun t ht => ?_
    refine InScope.bind (inScope_isSubtype h.constants ht.1 hparams) fun b _ => ?_
    have hrest : ∀ found : Bool, InScope A r (if found = true then return true
        else functionPathIsEmpty env params pos neg) fun _ => True := by
      intro found
      split
      · trivial
      · exact inScope_functionPathIsEmpty h hparams hpos hneg
    split
    · refine InScope.bind (inScope_complement h.constants ht.2) fun u hu => ?_
      exact InScope.bind (inScope_functionPhi h hpos ht.1 hu) fun b _ => hrest b
    · exact hrest false

theorem inScope_functionFormulaIsEmpty (h : ClosedEnv env A r) (hpos : ∀ a ∈ pos, a ∈ A)
    (hneg : ∀ a ∈ neg, a ∈ A) :
    InScope A r (functionFormulaIsEmpty env pos neg) fun _ => True :=
  InScope.bind (inScope_cast fun _ ht => functionUnionParams_combination h hpos ht)
    fun _ ht => inScope_functionPathIsEmpty h ht hpos hneg

/-! ## The system -/

theorem inScope_bddIsEmpty (h : ClosedEnv env A (r + 1)) {p : BddIsEmpty}
    (hp : p.key.2.OrderedOver (· ∈ A)) : InScope A (r + 1) (bddIsEmpty env p) fun _ => True := by
  have hnil : ∀ a ∈ ([] : List Atom), a ∈ A := fun a ha => by cases ha
  have hatoms := forall_atoms_of_orderedOver hp
  cases p with
  | list b =>
    exact inScope_bddEvery (fun _ _ => inScope_listFormulaIsEmpty h) hatoms hnil hnil
  | mapping b =>
    exact inScope_bddEvery (fun _ _ => inScope_mappingFormulaIsEmpty h) hatoms hnil hnil
  | error b =>
    exact inScope_bddEveryPositive (fun _ _ => inScope_mappingFormulaIsEmpty h) hatoms hnil hnil
  | function b =>
    exact inScope_bddEvery (fun _ _ => inScope_functionFormulaIsEmpty h) hatoms hnil hnil

omit [BddIdentity] in
theorem inScope_xmlSubtypeIsEmpty (d : ProperSubtypeData) :
    InScope A r (xmlSubtypeIsEmpty d) fun _ => True := by
  unfold xmlSubtypeIsEmpty
  split
  · split
    · trivial
    · refine inScope_bddEvery (P := fun _ => True) (fun pos neg _ _ => ?_) (fun _ _ => trivial)
        (fun _ _ => trivial) (fun _ _ => trivial)
      refine InScope.bind (inScope_cast fun _ _ => trivial) fun bits _ => ?_
      dsimp only
      split
      · trivial
      · exact inScope_cast fun _ _ => trivial
  · trivial

theorem orderedOver_ensurePositive {P : Atom → Prop} {top b : Bdd} (htop : top.OrderedOver P)
    (hb : b.OrderedOver P) : (ensurePositive top b).OrderedOver P := by
  unfold ensurePositive
  split
  · exact hb.intersect htop
  · exact hb

/-- Data of rank `r + 1` asks for semtypes of rank `r`: those in its cells. -/
theorem inScope_subtypeIsEmpty (hA : HasConstants A) {c : BasicTypeCode} {d : ProperSubtypeData}
    (h : DataOver (CombinationAtom A (Combination A r)) c d) :
    InScope A r (subtypeIsEmpty c d) fun _ => True := by
  unfold subtypeIsEmpty
  split
  · trivial
  · split
    · exact inScope_xmlSubtypeIsEmpty d
    · have hcast : InScope A r (cast (properToBdd d)) fun b => ∀ kind, codeKind c = some kind →
          b.OrderedOver (CombinationAtom A (Combination A r) kind) :=
        inScope_cast fun b hb kind hk => h kind hk b hb
      refine InScope.bind hcast fun b hb => ?_
      split
      next hc =>
        subst hc
        exact ⟨orderedOver_ensurePositive (.bddAtom hA.readonly) (hb .mapping rfl),
          fun _ => trivial⟩
      next =>
        split
        next hc =>
          subst hc
          exact ⟨hb .function rfl, fun _ => trivial⟩
        next =>
          split
          next hc =>
            subst hc
            exact ⟨hb .list rfl, fun _ => trivial⟩
          next =>
            split
            next hc =>
              refine ⟨hb .mapping ?_, fun _ => trivial⟩
              rcases hc with rfl | rfl
              · rfl
              · rfl
            next =>
              split
              next hc =>
                subst hc
                exact ⟨orderedOver_ensurePositive (.bddAtom hA.listMapping) (hb .list rfl),
                  fun _ => trivial⟩
              next =>
                split
                next hc =>
                  subst hc
                  refine inScope_bddEvery (fun pos neg => inScope_cellFormulaIsEmpty hA)
                    (forall_atoms_of_orderedOver (hb .cell rfl)) ?_ ?_
                  · exact fun a ha => by cases ha
                  · exact fun a ha => by cases ha
                next => trivial

theorem inScope_isEmptyLoop (hA : HasConstants A) :
    ∀ {entries : List (BasicTypeCode × ProperSubtypeData)},
      (∀ e ∈ entries, DataOver (CombinationAtom A (Combination A r)) e.1 e.2) →
      InScope A r (isEmptyLoop entries) fun _ => True
  | [], _ => trivial
  | e :: entries, h => by
    obtain ⟨he, hentries⟩ := List.forall_mem_cons.mp h
    refine InScope.bind (inScope_subtypeIsEmpty hA he) fun b _ => ?_
    split
    · exact inScope_isEmptyLoop hA hentries
    · trivial

theorem inScope_isEmptyBody (hA : HasConstants A) (h : Combination A (r + 1) t) :
    InScope A r (isEmptyBody t) fun _ => True := by
  cases t with
  | bits b => trivial
  | complex c =>
    simp only [isEmptyBody]
    split
    · trivial
    · have hunpack : unpackComplexSemType c = some (SemTypeOf.complex c).entries :=
        (rep_of_wf h.wf).unpack
      rw [hunpack]
      exact inScope_isEmptyLoop hA h.valid

theorem named_atomicType {v : TypeAtom} (h : (emptiness env).Named env c v) :
    v.atomicType = c.toAtomicType := by
  obtain ⟨s, -, rfl⟩ := h
  exact s.typeAtom_atomicType c.toAtomicType

/-- Over the combinations of finitely many atoms, the emptiness predicates are bounded. -/
theorem emptiness_bounded (h : ClosedEnv env A (r + 1)) :
    ∃ K : Finset (MemoTable × Bdd), Bounded (emptiness env) env
      (fun p => p.key.2.OrderedOver (· ∈ A)) (Combination A) (r + 1) K := by
  have hnames : ∀ c v, (emptiness env).Named env c v → v.atomicType = c.toAtomicType :=
    fun _ _ => named_atomicType
  have hfin : {k : MemoTable × Bdd | k.2.OrderedOver (· ∈ A)}.Finite := by
    have htables : ({.listMemo, .mappingMemo, .functionMemo} : Set MemoTable).Finite :=
      Set.toFinite _
    refine (htables.prod (Bdd.finite_orderedOver A)).subset fun k hk => ?_
    refine ⟨?_, hk⟩
    cases k.1
    · exact .inl rfl
    · exact .inr (.inl rfl)
    · exact .inr (.inr rfl)
  refine ⟨hfin.toFinset, ?_, ?_, fun p hp => hfin.mem_toFinset.mpr hp⟩
  · intro p hp
    exact ((inScope_bddIsEmpty h hp).mono fun q hq => ⟨r + 1, Nat.le_refl _, hq⟩).of_names hnames
  · intro n t ht
    cases n with
    | zero =>
      obtain ⟨b, rfl⟩ := ht
      trivial
    | succ n =>
      exact ((inScope_isEmptyBody h.constants ht).mono
        fun q hq => ⟨n, Nat.lt_succ_self n, hq⟩).of_names hnames

end Bodies

end Nballerina.Types
