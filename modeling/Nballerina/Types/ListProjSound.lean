import Nballerina.Types.BddPaths
import Nballerina.Types.ListProjSamples

/-!
# When list projection loses no member

What `listProj.bal` is for: `listProjInnerVal` contains every value that a list of the
type can hold at an index of the key type, and it is contained in `listMemberTypeInnerVal`.
`listProjInnerVal_right` shows both for member types with exact operations, if on every path of the
type
- `listIntersectWith` gives the right type to every index when it combines the positives
  (`Outline.Covers`), and
- each part with an index of the key has a sample more than there are negatives, or all its indices
  are samples (`EnoughSamples`).

Nothing is asked where the result is settled before: where the lengths of the positives are disjoint,
once their types at one of the initial members have nothing in common (`EmptyAt`), and at indices at
which no list has a member.

Without the second condition members get lost: of `(int|string)[]` without `int[]` only index 0 is a
sample, so that one member has to keep the list out of `int[]`, and `int` is not found at any index
(`not_listProjRight_arrays`).

A list is taken for the values that it holds, as read-only lists are: whether its cells can be written
plays no part. In `isSubtype` a negative atom leaves out fewer writable lists, as a list made for more
values than the atom allows is none of it whatever it holds.
-/

namespace Nballerina.Types

open Nballerina.Lib

variable {V : Type}

/-! ## The positives -/

section Intersect

variable [BddIdentity] {den : SemType → Set V} {Q : SemType → Prop} {C : SemType → Prop}
  {A : SemType → Bool → Prop}

/-- The inner type of the cell `t` is the intersection of those of the other two. -/
def CellMeet (t1 t2 t : SemType) : Prop :=
  ∃ ty1 ty2 ty, cellInner t1 = some ty1 ∧ cellInner t2 = some ty2 ∧ intersect ops ty1 ty2 = some ty ∧
    cellInner t = some ty

theorem CellMeet.spec (hx : ListProjTypes den Q) {t1 t2 t : SemType} (h : CellMeet t1 t2 t)
    (h1 : CellOf Q t1) (h2 : CellOf Q t2) :
    CellOf Q t ∧ cellDen den t = cellDen den t1 ∩ cellDen den t2 := by
  obtain ⟨ty1, ty2, ty, hty1, hty2, hmeet, hty⟩ := h
  obtain ⟨u1, hu1, hQ1⟩ := h1
  obtain ⟨u2, hu2, hQ2⟩ := h2
  rw [hty1] at hu1
  rw [hty2] at hu2
  cases hu1
  cases hu2
  obtain ⟨ty', hty', hQ, hden⟩ := hx.intersect hQ1 hQ2
  rw [hmeet] at hty'
  cases hty'
  refine ⟨⟨ty, hty, hQ⟩, ?_⟩
  rw [cellDen_of_inner hty, cellDen_of_inner hty1, cellDen_of_inner hty2, hden]

theorem intersectMemberSemTypes_ensures (hx : ListProjTypes den Q) {t1 t2 : SemType}
    (h1 : CellOf Q t1) (h2 : CellOf Q t2) :
    (intersectMemberSemTypes t1 t2).Ensures CellNamed C A (CellMeet t1 t2) := by
  obtain ⟨ty1, hty1, hQ1⟩ := h1
  obtain ⟨ty2, hty2, hQ2⟩ := h2
  obtain ⟨c1, hc1, heq1⟩ := Option.map_eq_some_iff.mp hty1
  obtain ⟨c2, hc2, heq2⟩ := Option.map_eq_some_iff.mp hty2
  obtain ⟨ty, hty, _⟩ := hx.intersect hQ1 hQ2
  have hmeet : intersectCellAtomicType c1 c2 = some ⟨ty, c1.mutability.min c2.mutability⟩ := by
    unfold intersectCellAtomicType
    rw [heq1, heq2, hty]
    rfl
  refine Prog.Ensures.ofOption hc1 (Prog.Ensures.ofOption hc2 (Prog.Ensures.ofOption hmeet
    ((cellContainingM_ensures ty _).imp fun t ht => ?_)))
  exact ⟨ty1, ty2, ty, hty1, hty2, hty, ht⟩

/-- What holds of the members of an intersection at the indices that are computed. -/
def MeetsAt (l1 l2 : ListAtomicType) (i : Nat) (t : SemType) : Prop :=
  ∃ t1 t2, listMemberAt l1.members l1.rest i = some t1 ∧
    listMemberAt l2.members l2.rest i = some t2 ∧ CellMeet t1 t2 t

theorem intersectMembers_ensures (hx : ListProjTypes den Q) {l1 l2 : ListAtomicType}
    (h1 : l1.Over (CellOf Q)) (h2 : l2.Over (CellOf Q)) : ∀ is : List Nat,
    (intersectMembers l1.members l1.rest l2.members l2.rest is).Ensures CellNamed C A
      (List.Forall₂ (MeetsAt l1 l2) is)
  | [] => List.Forall₂.nil
  | i :: is => by
    obtain ⟨t1, ht1, hcell1⟩ := h1.memberAt (Int.natCast_nonneg i)
    obtain ⟨t2, ht2, hcell2⟩ := h2.memberAt (Int.natCast_nonneg i)
    refine Prog.Ensures.ofOption ht1 (Prog.Ensures.ofOption ht2 ?_)
    refine (intersectMemberSemTypes_ensures hx hcell1 hcell2).bind fun t ht => ?_
    refine (intersectMembers_ensures hx h1 h2 is).bind fun ts hts => ?_
    exact List.Forall₂.cons ⟨t1, t2, ht1, ht2, ht⟩ hts

/-- `l` is what `listIntersectWith` computes. -/
structure Intersection (l1 l2 l : ListAtomicType) : Prop where
  fixed : l.members.fixedLength = max l1.members.fixedLength l2.members.fixedLength
  rest : CellMeet l1.rest l2.rest l.rest
  initial : List.Forall₂ (MeetsAt l1 l2)
    (List.range (max l1.members.initial.length l2.members.initial.length)) l.members.initial

variable {env : Env} {atoms : List Atom} {l l1 l2 lt : ListAtomicType}

theorem listIntersectWith_ensures (hx : ListProjTypes den Q) (h1 : l1.Over (CellOf Q))
    (h2 : l2.Over (CellOf Q)) {disjoint : Bool}
    (hdisjoint : listLengthsDisjoint l1.members l1.rest l2.members l2.rest = some disjoint) :
    (listIntersectWith l1.members l1.rest l2.members l2.rest).Ensures CellNamed C A fun r =>
      (disjoint = true ∧ r = none) ∨ (disjoint = false ∧ ∃ l, r = some l ∧ Intersection l1 l2 l) := by
  refine Prog.Ensures.ofOption hdisjoint ?_
  cases disjoint with
  | true => exact .inl ⟨rfl, rfl⟩
  | false =>
    refine (intersectMembers_ensures hx h1 h2 _).bind fun initial hinitial => ?_
    refine (intersectMemberSemTypes_ensures hx h1.rest h2.rest).bind fun rest hrest => ?_
    exact .inr ⟨rfl, _, rfl, rfl, hrest, hinitial⟩

theorem Intersection.valid (h : Intersection l1 l2 l) (hv1 : l1.members.Valid) (hv2 : l2.members.Valid) :
    l.members.Valid := by
  have hlen := h.initial.length_eq
  rw [List.length_range] at hlen
  have hfixed := h.fixed
  have hempty1 := hv1.empty
  have hempty2 := hv2.empty
  rw [← List.length_eq_zero_iff] at hempty1 hempty2
  have hn1 := hv1.length
  have hn2 := hv2.length
  have hint1 := hv1.int
  have hint2 := hv2.int
  refine ⟨?_, by omega, by omega⟩
  rw [← List.length_eq_zero_iff]
  omega

theorem Intersection.members (hx : ListProjTypes den Q) {l1 l2 l : ListAtomicType}
    (h : Intersection l1 l2 l) (h1 : l1.Over (CellOf Q)) (h2 : l2.Over (CellOf Q)) :
    l.Over (CellOf Q) where
  valid := h.valid h1.valid h2.valid
  initial t ht := by
    obtain ⟨q, hq⟩ := List.mem_iff_getElem?.mp ht
    obtain ⟨hlt, rfl⟩ := List.getElem?_eq_some_iff.mp hq
    have hlen := h.initial.length_eq
    obtain ⟨t1, t2, ht1, ht2, hmeet⟩ := (List.forall₂_iff_get.mp h.initial).2 q (by omega) hlt
    obtain ⟨u1, hu1, hcell1⟩ := h1.memberAt (Int.natCast_nonneg
      ((List.range (max l1.members.initial.length l2.members.initial.length)).get ⟨q, by omega⟩))
    obtain ⟨u2, hu2, hcell2⟩ := h2.memberAt (Int.natCast_nonneg
      ((List.range (max l1.members.initial.length l2.members.initial.length)).get ⟨q, by omega⟩))
    rw [ht1] at hu1
    rw [ht2] at hu2
    cases hu1
    cases hu2
    exact (hmeet.spec hx hcell1 hcell2).1
  rest := (h.rest.spec hx h1.rest h2.rest).1

/-! ## What the intersections depend on -/

/-- The lengths of a list type and the inner type of its rest. -/
structure Outline where
  initial : Nat
  fixed : Int
  rest : SemType

structure ListAtomicType.HasOutline (lt : ListAtomicType) (a : Outline) : Prop where
  initial : lt.members.initial.length = a.initial
  fixed : lt.members.fixedLength = a.fixed
  rest : cellInner lt.rest = some a.rest

def Env.listOutline (env : Env) (atom : Atom) : Option Outline := do
  let lt ← env.listAtomType atom
  return ⟨lt.members.initial.length, lt.members.fixedLength, ← cellInner lt.rest⟩

/-- `listLengthsDisjoint`. -/
def Outline.disjoint (a b : Outline) : Option Bool := do
  if a.fixed < b.fixed then return decide ((← diff ops a.rest (.bits UNDEF)) = NEVER)
  else if b.fixed < a.fixed then return decide ((← diff ops b.rest (.bits UNDEF)) = NEVER)
  else return false

def Outline.meet (a b : Outline) : Option Outline := do
  return ⟨max a.initial b.initial, max a.fixed b.fixed, ← intersect ops a.rest b.rest⟩

/-- The initial members of the intersection reach past the shorter fixed length, if the fixed lengths
differ. -/
def Outline.Covers (a b : Outline) : Prop :=
  a.fixed = b.fixed ∨ min a.fixed b.fixed < max a.initial b.initial

/-- At one of the first `n` indices the types that the atoms give to members have no common value. -/
def EmptyAt (den : SemType → Set V) (env : Env) (atoms : List Atom) (n : Nat) : Prop :=
  ∃ i < n, ∀ v, ∃ atom ∈ atoms, ∃ lt t, env.listAtomType atom = some lt ∧
    listMemberAt lt.members lt.rest i = some t ∧ v ∉ cellDen den t

/-- Combining the atoms with `a`, which stands for `atoms`, covers all indices until the lengths are
found to be disjoint or an initial member has no values; `P` holds of the result. -/
def Combines (den : SemType → Set V) (env : Env) (P : Outline → Prop) :
    List Atom → List Atom → Outline → Prop
  | [], atoms, a => EmptyAt den env atoms a.initial ∨ P a
  | atom :: p, atoms, a => EmptyAt den env atoms a.initial ∨
    ∃ b, env.listOutline atom = some b ∧ (a.disjoint b = some true ∨
      (a.Covers b ∧ ∃ c, a.meet b = some c ∧ Combines den env P p (atom :: atoms) c))

omit [BddIdentity] in
theorem ListAtomicType.HasOutline.of_atom {atom : Atom} {a : Outline}
    (hatom : env.listOutline atom = some a) (hlt : env.listAtomType atom = some lt) :
    lt.HasOutline a := by
  obtain ⟨lt', hlt', hatom⟩ := Option.bind_eq_some_iff.mp hatom
  rw [hlt] at hlt'
  cases hlt'
  obtain ⟨rest, hrest, heq⟩ := Option.bind_eq_some_iff.mp hatom
  cases heq
  exact ⟨rfl, rfl, hrest⟩

theorem ListAtomicType.HasOutline.disjoint {l1 l2 : ListAtomicType} {a b : Outline}
    (h1 : l1.HasOutline a) (h2 : l2.HasOutline b) :
    listLengthsDisjoint l1.members l1.rest l2.members l2.rest = a.disjoint b := by
  unfold listLengthsDisjoint Outline.disjoint cellInnerVal
  rw [h1.fixed, h2.fixed, h1.rest, h2.rest]
  rfl

theorem ListAtomicType.HasOutline.meet {a b c : Outline} (h1 : l1.HasOutline a) (h2 : l2.HasOutline b)
    (h : Intersection l1 l2 l) (hc : a.meet b = some c) : l.HasOutline c := by
  obtain ⟨rest, hrest, heq⟩ := Option.bind_eq_some_iff.mp hc
  cases heq
  have hlen := h.initial.length_eq
  rw [List.length_range] at hlen
  obtain ⟨ty1, ty2, ty, hty1, hty2, hmeet, hty⟩ := h.rest
  rw [h1.rest] at hty1
  rw [h2.rest] at hty2
  cases hty1
  cases hty2
  rw [hrest] at hmeet
  cases hmeet
  refine ⟨?_, ?_, hty⟩
  · rw [← hlen, h1.initial, h2.initial]
  · rw [h.fixed, h1.fixed, h2.fixed]

omit [BddIdentity] in
theorem covered_of_covers {a b : Outline} (h1 : l1.HasOutline a) (h2 : l2.HasOutline b) (h : a.Covers b)
    (i : Nat) : Covered l1.members l2.members i := by
  unfold Outline.Covers at h
  rw [← h1.fixed, ← h2.fixed, ← h1.initial, ← h2.initial] at h
  unfold Covered
  omega

/-! ## The combined type -/

/-- A list of values. -/
def Values (den : SemType → Set V) (l : List V) : Prop := ∀ v ∈ l, v ∈ den (.bits VAL)

/-- `lt` stands for the intersection of the atoms: it has at least their common lists, and its members
are theirs. -/
structure Combined (den : SemType → Set V) (Q : SemType → Prop) (env : Env) (atoms : List Atom)
    (lt : ListAtomicType) : Prop where
  cells : lt.Over (CellOf Q)
  contains : ∀ l, Values den l → (∀ atom ∈ atoms, env.ListContains (cellDen den) l atom) →
    lt.Contains (cellDen den) l
  within : ∀ atom ∈ atoms, ∀ lt', env.listAtomType atom = some lt' → ∀ (i : Nat) (t t' : SemType),
    listMemberAt lt.members lt.rest i = some t → listMemberAt lt'.members lt'.rest i = some t' →
    cellDen den t ⊆ cellDen den t'

omit [BddIdentity] in
theorem combined_atom {atom : Atom} (hlt : env.listAtomType atom = some lt) (hover : lt.Over (CellOf Q)) :
    Combined den Q env [atom] lt where
  cells := hover
  contains l _ h := by
    obtain ⟨lt', hlt', hl⟩ := h atom (List.mem_singleton_self atom)
    rw [hlt] at hlt'
    cases hlt'
    exact hl
  within a ha lt' hlt' i t t' ht ht' := by
    rw [List.mem_singleton.mp ha, hlt] at hlt'
    cases hlt'
    rw [ht] at ht'
    cases ht'
    exact subset_rfl

/-- One positive more. -/
theorem Combined.intersection (hx : ListProjTypes den Q) {atom : Atom} (h : Combined den Q env atoms l1)
    (hlt : env.listAtomType atom = some l2) (hover : l2.Over (CellOf Q)) (hinter : Intersection l1 l2 l)
    (hcovered : ∀ i, Covered l1.members l2.members i) :
    Combined den Q env (atom :: atoms) l := by
  -- at every index the member is the intersection
  have hmember : ∀ (i : Nat) (t t1 t2 : SemType), listMemberAt l.members l.rest i = some t →
      listMemberAt l1.members l1.rest i = some t1 → listMemberAt l2.members l2.rest i = some t2 →
      cellDen den t = cellDen den t1 ∩ cellDen den t2 := by
    intro i t t1 t2 ht ht1 ht2
    obtain ⟨u1, u2, u, hu1, hu2, hu, hmeet⟩ := listMemberAt_of_initial h.cells.valid hover.valid
      hinter.fixed hinter.rest hinter.initial i (hcovered i)
    obtain ⟨w1, hw1, hcell1⟩ := h.cells.memberAt (Int.natCast_nonneg i)
    obtain ⟨w2, hw2, hcell2⟩ := hover.memberAt (Int.natCast_nonneg i)
    rw [ht1] at hu1 hw1
    rw [ht2] at hu2 hw2
    rw [ht] at hu
    cases hu1
    cases hu2
    cases hu
    cases hw1
    cases hw2
    exact (hmeet.spec hx hcell1 hcell2).2
  refine ⟨hinter.members hx h.cells hover, fun l' hvalues hall => ?_, fun a ha lt' hlt' i t t' ht ht' => ?_⟩
  · have hl1 := h.contains l' hvalues fun a ha => hall a (.tail _ ha)
    obtain ⟨lt', hlt', hl2⟩ := hall atom (.head _)
    rw [hlt] at hlt'
    cases hlt'
    refine ⟨?_, fun i v t hv ht => ?_⟩
    · rw [hinter.fixed]
      exact max_le hl1.1 hl2.1
    · obtain ⟨t1, ht1, _⟩ := h.cells.memberAt (Int.natCast_nonneg i)
      obtain ⟨t2, ht2, _⟩ := hover.memberAt (Int.natCast_nonneg i)
      rw [hmember i t t1 t2 ht ht1 ht2]
      exact ⟨hl1.2 i v t1 hv ht1, hl2.2 i v t2 hv ht2⟩
  · obtain ⟨t1, ht1, _⟩ := h.cells.memberAt (Int.natCast_nonneg i)
    obtain ⟨t2, ht2, _⟩ := hover.memberAt (Int.natCast_nonneg i)
    rw [hmember i t t1 t2 ht ht1 ht2]
    rcases List.mem_cons.mp ha with heq | ha
    · rw [heq, hlt] at hlt'
      cases hlt'
      rw [ht2] at ht'
      cases ht'
      exact Set.inter_subset_right
    · exact Set.inter_subset_left.trans (h.within a ha lt' hlt' i t1 t' ht1 ht')

/-- A rest type without values ends the lists at the fixed length. -/
theorem length_le_of_rest (hx : ListProjTypes den Q) (hover : lt.Over (CellOf Q))
    (hnever : cellInnerVal lt.rest = some NEVER) {l : List V} (hvalues : Values den l)
    (hl : lt.Contains (cellDen den) l) : (l.length : Int) ≤ lt.members.fixedLength := by
  by_contra hlt
  obtain ⟨ty, hty, _, hden⟩ := cellInnerVal_spec hx hover.rest
  rw [hnever] at hty
  cases hty
  have hpos := hover.valid.nonneg
  have hv : l[l.length - 1]? = some l[l.length - 1] := List.getElem?_eq_getElem (by omega)
  have hmem := hl.2 _ _ lt.rest hv (by unfold listMemberAt; rw [if_neg (by omega)])
  have hdefined := Set.disjoint_left.mp hx.defined (hvalues _ (List.mem_of_getElem? hv))
  have hval : l[l.length - 1] ∈ valDen den lt.rest := ⟨hmem, hdefined⟩
  rw [← hden, hx.den_never] at hval
  exact hval

/-- Where the lengths are disjoint there is no common list. -/
theorem no_list_of_disjoint (hx : ListProjTypes den Q) (h1 : l1.Over (CellOf Q))
    (h2 : l2.Over (CellOf Q))
    (hdisjoint : listLengthsDisjoint l1.members l1.rest l2.members l2.rest = some true) {l : List V}
    (hvalues : Values den l) (hl1 : l1.Contains (cellDen den) l) (hl2 : l2.Contains (cellDen den) l) :
    False := by
  have hlen1 := hl1.1
  have hlen2 := hl2.1
  have hend : ∀ {t : SemType}, (do return decide ((← cellInnerVal t) = NEVER)) = some true →
      cellInnerVal t = some NEVER := by
    intro t ht
    obtain ⟨ty, hty, heq⟩ := Option.bind_eq_some_iff.mp ht
    rw [hty, of_decide_eq_true (Option.some.inj heq)]
  unfold listLengthsDisjoint at hdisjoint
  by_cases hlt : l1.members.fixedLength < l2.members.fixedLength
  · rw [if_pos hlt] at hdisjoint
    have := length_le_of_rest hx h1 (hend hdisjoint) hvalues hl1
    omega
  · rw [if_neg hlt] at hdisjoint
    by_cases hgt : l2.members.fixedLength < l1.members.fixedLength
    · rw [if_pos hgt] at hdisjoint
      have := length_le_of_rest hx h2 (hend hdisjoint) hvalues hl2
      omega
    · rw [if_neg hgt] at hdisjoint
      cases hdisjoint

/-- No list of values belongs to all the atoms. -/
def NoList (den : SemType → Set V) (env : Env) (atoms : List Atom) : Prop :=
  ∀ l, Values den l → ¬ ∀ atom ∈ atoms, env.ListContains (cellDen den) l atom

/-- One of the initial members has no values. -/
structure EmptyMember (den : SemType → Set V) (Q : SemType → Prop) (lt : ListAtomicType) : Prop where
  cells : lt.Over (CellOf Q)
  empty : ∃ t ∈ lt.members.initial, cellDen den t = ∅

/-- `lt` stands for the intersection of the atoms; `P` holds of its lengths and of a type that has the
values of its rest. -/
def CombinedAs (den : SemType → Set V) (Q : SemType → Prop) (env : Env) (P : Outline → Prop)
    (atoms : List Atom) (lt : ListAtomicType) : Prop :=
  Combined den Q env atoms lt ∧ ∃ a : Outline, lt.members.initial.length = a.initial ∧
    lt.members.fixedLength = a.fixed ∧ valDen den lt.rest ⊆ den a.rest ∧ P a

omit [BddIdentity] in
theorem ListAtomicType.HasOutline.valDen_rest {a : Outline} (h : lt.HasOutline a) :
    valDen den lt.rest ⊆ den a.rest := by
  have hrest : cellDen den lt.rest = den a.rest := cellDen_of_inner h.rest
  exact Set.sdiff_subset.trans hrest.subset

omit [BddIdentity] in
theorem listMemberAt_initial (hvalid : lt.members.Valid) {q : Nat} {t : SemType}
    (ht : lt.members.initial[q]? = some t) : listMemberAt lt.members lt.rest q = some t := by
  have hq := (List.getElem?_eq_some_iff.mp ht).1
  have hlen := hvalid.length
  unfold listMemberAt fixedArrayGet
  dsimp only
  rw [if_pos (by omega), if_pos (by omega),
    show (min (q : Int) ((lt.members.initial.length : Int) - 1)).toNat = q by omega]
  exact ht

omit [BddIdentity] in
/-- A list has a member of the type of each initial member. -/
theorem nonempty_of_initial (hvalid : lt.members.Valid) {l : List V} (hl : lt.Contains (cellDen den) l)
    {t : SemType} (ht : t ∈ lt.members.initial) :
    (cellDen den t).Nonempty := by
  obtain ⟨q, hq⟩ := List.mem_iff_getElem?.mp ht
  have hqlen := (List.getElem?_eq_some_iff.mp hq).1
  have hlen := hvalid.length
  have hfixed := hl.1
  have hv : l[q]? = some l[q] := List.getElem?_eq_getElem (by omega)
  exact ⟨_, hl.2 q _ t hv (listMemberAt_initial hvalid hq)⟩

omit [BddIdentity] in
theorem Combined.noList (h : Combined den Q env atoms lt) (hempty : EmptyMember den Q lt) :
    NoList den env atoms := by
  intro l hvalues hall
  obtain ⟨t, ht, hnone⟩ := hempty.empty
  have hne := nonempty_of_initial h.cells.valid (h.contains l hvalues hall) ht
  rw [hnone] at hne
  exact Set.not_nonempty_empty hne

omit [BddIdentity] in
/-- The types of the atoms are those of `lt`. -/
theorem Combined.emptyMember (h : Combined den Q env atoms lt)
    (hempty : EmptyAt den env atoms lt.members.initial.length) :
    EmptyMember den Q lt := by
  obtain ⟨i, hi, hnone⟩ := hempty
  refine ⟨h.cells, _, List.getElem_mem hi, Set.eq_empty_of_forall_notMem fun v hv => ?_⟩
  obtain ⟨atom, hatom, lt', t', hlt', ht', hv'⟩ := hnone v
  exact hv' (h.within atom hatom lt' hlt' i _ t'
    (listMemberAt_initial h.cells.valid (List.getElem?_eq_getElem hi)) ht' hv)

/-- An initial member without values stays one, whatever the indices that are covered. -/
theorem Intersection.emptyMember (hx : ListProjTypes den Q) (h : Intersection l1 l2 l)
    (h1 : EmptyMember den Q l1) (h2 : l2.Over (CellOf Q)) :
    EmptyMember den Q l := by
  refine ⟨h.members hx h1.cells h2, ?_⟩
  obtain ⟨t, ht, hempty⟩ := h1.empty
  obtain ⟨q, hq⟩ := List.mem_iff_getElem?.mp ht
  have hqlen := (List.getElem?_eq_some_iff.mp hq).1
  have hlen := h.initial.length_eq
  rw [List.length_range] at hlen
  have hlt : q < l.members.initial.length := by omega
  have hmeets := (List.forall₂_iff_get.mp h.initial).2 q (by rw [List.length_range]; omega) hlt
  rw [List.get_eq_getElem, List.getElem_range] at hmeets
  obtain ⟨t1, t2, ht1, ht2, hmeet⟩ := hmeets
  obtain ⟨u2, hu2, hcell2⟩ := h2.memberAt (Int.natCast_nonneg q)
  rw [listMemberAt_initial h1.cells.valid hq] at ht1
  rw [ht2] at hu2
  cases ht1
  cases hu2
  refine ⟨_, List.getElem_mem hlt, ?_⟩
  exact (hmeet.spec hx (h1.cells.initial t ht) hcell2).2.trans (by rw [hempty, Set.empty_inter])

theorem exists_lengthsDisjoint (hx : ListProjTypes den Q) (h1 : l1.Over (CellOf Q))
    (h2 : l2.Over (CellOf Q)) :
    ∃ d, listLengthsDisjoint l1.members l1.rest l2.members l2.rest = some d := by
  obtain ⟨ty1, hty1, _⟩ := cellInnerVal_spec hx h1.rest
  obtain ⟨ty2, hty2, _⟩ := cellInnerVal_spec hx h2.rest
  unfold listLengthsDisjoint
  rw [hty1, hty2]
  split
  · exact ⟨_, rfl⟩
  · split <;> exact ⟨_, rfl⟩

theorem combineLists_emptyMember (hx : ListProjTypes den Q) {env : Env} : ∀ (p : List Atom)
    (lt : ListAtomicType), env.ListsOver (CellOf Q) p → EmptyMember den Q lt →
      (combineLists env p lt).Ensures CellNamed C A fun r => ∀ lt', r = some lt' → EmptyMember den Q lt'
  | [], lt, _, h => fun lt' heq => Option.some.inj heq ▸ h
  | atom :: p, lt, hover, h => by
    obtain ⟨l2, hl2, hover2⟩ := hover atom (.head _)
    obtain ⟨disjoint, hdisjoint⟩ := exists_lengthsDisjoint hx h.cells hover2
    refine Prog.Ensures.ofOption hl2 ?_
    refine (listIntersectWith_ensures hx h.cells hover2 hdisjoint).bind fun r hr => ?_
    rcases hr with ⟨_, hnone⟩ | ⟨_, l, hsome, hinter⟩
    · rw [hnone]
      intro lt' heq
      cases heq
    · rw [hsome]
      exact combineLists_emptyMember hx p l (fun d hd => hover d (.tail _ hd))
        (hinter.emptyMember hx h hover2)

/-- What combining the atoms returns: a type that stands for their intersection, or, if they have no
common list, at most one with an initial member that has no values. -/
theorem combineLists_ensures (hx : ListProjTypes den Q) {P : Outline → Prop} :
    ∀ (p atoms : List Atom) (lt : ListAtomicType) (a : Outline), env.ListsOver (CellOf Q) p →
      Combined den Q env atoms lt → lt.HasOutline a → Combines den env P p atoms a →
      (combineLists env p lt).Ensures CellNamed C A fun r =>
        (NoList den env (p.reverse ++ atoms) ∧ ∀ lt', r = some lt' → EmptyMember den Q lt') ∨
          ∃ lt', r = some lt' ∧ CombinedAs den Q env P (p.reverse ++ atoms) lt' := by
  -- once an initial member has no values, the atoms that follow do not matter
  have hstop : ∀ (p atoms : List Atom) (lt : ListAtomicType) (a : Outline),
      env.ListsOver (CellOf Q) p → Combined den Q env atoms lt → lt.HasOutline a →
      EmptyAt den env atoms a.initial → (combineLists env p lt).Ensures CellNamed C A fun r =>
        (NoList den env (p.reverse ++ atoms) ∧ ∀ lt', r = some lt' → EmptyMember den Q lt') ∨
          ∃ lt', r = some lt' ∧ CombinedAs den Q env P (p.reverse ++ atoms) lt' := by
    intro p atoms lt a hover h ha hat
    have hempty := h.emptyMember (ha.initial ▸ hat)
    refine (combineLists_emptyMember hx p lt hover hempty).imp fun r hr => .inl ⟨?_, hr⟩
    exact fun l hvalues hall => h.noList hempty l hvalues fun c hc => hall c (List.mem_append_right _ hc)
  intro p
  induction p with
  | nil =>
    intro atoms lt a hover h ha hP
    rcases hP with hat | hP
    · exact hstop [] atoms lt a hover h ha hat
    · exact .inr ⟨lt, rfl, h, a, ha.initial, ha.fixed, ha.valDen_rest, hP⟩
  | cons atom p ih =>
    intro atoms lt a hover h ha hP
    rcases hP with hat | ⟨b, hb, hstep⟩
    · exact hstop (atom :: p) atoms lt a hover h ha hat
    obtain ⟨l2, hl2, hover2⟩ := hover atom (.head _)
    have hb' := ListAtomicType.HasOutline.of_atom hb hl2
    rw [List.reverse_cons, List.append_assoc, List.singleton_append]
    obtain ⟨disjoint, hdisjoint⟩ := exists_lengthsDisjoint hx h.cells hover2
    refine Prog.Ensures.ofOption hl2 ?_
    refine (listIntersectWith_ensures hx h.cells hover2 hdisjoint).bind fun r hr => ?_
    rcases hr with ⟨htrue, hnone⟩ | ⟨hfalse, l, hsome, hinter⟩
    · -- the lengths are disjoint
      rw [hnone]
      refine .inl ⟨fun l hvalues hall => ?_, fun lt' heq => by cases heq⟩
      rw [htrue] at hdisjoint
      have hl := h.contains l hvalues fun c hc =>
        hall c (List.mem_append_right _ (.tail _ hc))
      obtain ⟨l2', hl2', hcontains⟩ := hall atom (List.mem_append_right _ (.head _))
      rw [hl2] at hl2'
      cases hl2'
      exact no_list_of_disjoint hx h.cells hover2 hdisjoint hvalues hl hcontains
    · rw [hsome]
      rcases hstep with hdisj | ⟨hcovers, c, hc, hrest⟩
      · rw [ha.disjoint hb', hdisj, hfalse] at hdisjoint
        cases hdisjoint
      · exact ih (atom :: atoms) l c (fun d hd => hover d (.tail _ hd))
          (h.intersection hx hl2 hover2 hinter (covered_of_covers ha hb' hcovers))
          (ha.meet hb' hinter hc) hrest

omit [BddIdentity] in
theorem anyEmpty_cells : ∀ ts : List SemType, (∀ t ∈ ts, CellOf Q t) →
    (anyEmpty ts).Ensures CellNamed (Asked Q) (RightAnswer den Q) fun r =>
      r = true ↔ ∃ t ∈ ts, cellDen den t = ∅
  | [], _ => iff_of_false Bool.false_ne_true fun ⟨t, ht, _⟩ => List.not_mem_nil ht
  | t :: ts, h => by
    have ht := h t (.head _)
    refine ⟨.inr ht, fun b hb => ?_⟩
    cases b with
    | true => exact iff_of_true rfl ⟨t, .head _, (hb.2 ht).mp rfl⟩
    | false =>
      refine (anyEmpty_cells ts fun u hu => h u (.tail _ hu)).imp fun r hr => hr.trans ?_
      have hne : cellDen den t ≠ ∅ := fun hempty => Bool.false_ne_true ((hb.2 ht).mpr hempty)
      simp only [List.mem_cons, exists_eq_or_imp, hne, false_or]

/-- A rest type without members can be replaced by `NEVER`. -/
theorem Combined.neverRest (hx : ListProjTypes den Q) (h : Combined den Q env atoms lt)
    (hempty : cellDen den lt.rest = ∅) {c : SemType} (hc : cellInner c = some NEVER) :
    Combined den Q env atoms ⟨lt.members, c⟩ := by
  have hcell : cellDen den c = ∅ := by
    rw [cellDen_of_inner hc, hx.den_never]
  -- the two types differ only past the fixed length, where both are empty
  have hat : ∀ (i : Nat) (t t' : SemType), listMemberAt lt.members c i = some t →
      listMemberAt lt.members lt.rest i = some t' → cellDen den t = cellDen den t' := by
    intro i t t' ht ht'
    unfold listMemberAt at ht ht'
    by_cases hlt : (i : Int) < lt.members.fixedLength
    · rw [if_pos hlt] at ht ht'
      rw [ht] at ht'
      cases ht'
      rfl
    · rw [if_neg hlt] at ht ht'
      cases ht
      cases ht'
      rw [hcell, hempty]
  refine ⟨⟨h.cells.valid, h.cells.initial, ⟨NEVER, hc, hx.never⟩⟩, fun l hvalues hall => ?_,
    fun a ha lt' hlt' i t t' ht ht' => ?_⟩
  · have hl := h.contains l hvalues hall
    refine ⟨hl.1, fun i v t hv ht => ?_⟩
    obtain ⟨t', ht', _⟩ := h.cells.memberAt (Int.natCast_nonneg i)
    rw [hat i t t' ht ht']
    exact hl.2 i v t' hv ht'
  · obtain ⟨t0, ht0, _⟩ := h.cells.memberAt (Int.natCast_nonneg i)
    rw [hat i t t0 ht ht0]
    exact h.within a ha lt' hlt' i t0 t' ht0 ht'

/-- Combining the positives of a path covers all indices; `P` holds of the result. -/
def PathCombines (den : SemType → Set V) (env : Env) (P : Outline → Prop) : List Atom → Prop
  | [] => P ⟨0, 0, .bits VAL⟩
  | atom :: p => ∃ a, env.listOutline atom = some a ∧ Combines den env P p [atom] a

theorem combined_none (hx : ListProjTypes den Q) (env : Env) {c ty : SemType}
    (hty : union ops (.bits VAL) (.bits UNDEF) = some ty) (hc : cellInner c = some ty) :
    Combined den Q env [] ⟨⟨[], 0⟩, c⟩ := by
  obtain ⟨ty', hty', hQ, hden⟩ := hx.union hx.val hx.undef
  rw [hty] at hty'
  cases hty'
  refine ⟨⟨⟨iff_of_true rfl rfl, Int.le_refl 0, by show (0 : Int) ≤ 9223372036854775807; omega⟩,
    fun t ht => absurd ht List.not_mem_nil, ⟨ty, hc, hQ⟩⟩, fun l hvalues _ => ⟨?_, ?_⟩,
    fun a ha => absurd ha List.not_mem_nil⟩
  · exact Int.natCast_nonneg _
  · intro i v t hv ht
    unfold listMemberAt at ht
    rw [if_neg (by show ¬ ((i : Int) < 0); omega)] at ht
    cases ht
    rw [cellDen_of_inner hc, hden]
    exact .inl (hvalues v (List.mem_of_getElem? hv))

theorem listProjCombine_ensures (hx : ListProjTypes den Q) {P : Outline → Prop} {pos : List Atom}
    (hover : env.ListsOver (CellOf Q) pos) (hP : PathCombines den env P pos) :
    (listProjCombine env pos).Ensures CellNamed (Asked Q) (RightAnswer den Q) fun r =>
      (r = none ∧ NoList den env pos) ∨ ∃ lt, r = some lt ∧ CombinedAs den Q env P pos lt := by
  cases pos with
  | nil =>
    obtain ⟨ty, hty, _, hden⟩ := hx.union hx.val hx.undef
    rw [listProjCombine]
    refine Prog.Ensures.ofOption hty ?_
    refine (cellContainingM_ensures ty .limited).bind fun c hc => ?_
    refine .inr ⟨_, rfl, combined_none hx env hty hc, _, rfl, rfl, fun v hv => ?_, hP⟩
    have hinner := hv.1
    rw [cellDen_of_inner hc, hden] at hinner
    exact hinner.resolve_right hv.2
  | cons atom p =>
    obtain ⟨lt, hlt, hltOver⟩ := hover atom (.head _)
    obtain ⟨a, ha, hcombines⟩ := hP
    -- the order of the atoms does not matter
    have hmem : ∀ c, c ∈ p.reverse ++ [atom] ↔ c ∈ atom :: p := by
      intro c
      rw [List.mem_append, List.mem_reverse, List.mem_singleton, List.mem_cons, or_comm]
    refine Prog.Ensures.ofOption hlt ?_
    refine (combineLists_ensures hx p [atom] lt a (fun c hc => hover c (.tail _ hc))
      (combined_atom hlt hltOver) (.of_atom ha hlt) hcombines).bind fun r hr => ?_
    have hnoList : NoList den env (p.reverse ++ [atom]) → NoList den env (atom :: p) :=
      fun hno l hvalues hall => hno l hvalues fun c hc => hall c ((hmem c).mp hc)
    cases r with
    | none =>
      rcases hr with ⟨hno, _⟩ | ⟨lt', hsome, _⟩
      · exact .inl ⟨rfl, hnoList hno⟩
      · cases hsome
    | some lt' =>
      have hcells : lt'.Over (CellOf Q) := by
        rcases hr with ⟨_, hempty⟩ | ⟨lt'', hsome, hstands, _⟩
        · exact (hempty lt' rfl).cells
        · cases hsome
          exact hstands.cells
      refine (anyEmpty_cells lt'.members.initial hcells.initial).bind fun b hb => ?_
      rcases hr with ⟨hno, hempty⟩ | ⟨lt'', hsome, hcombined, a', hinitial, hfixed, hrest, hP⟩
      · rw [hb.mpr (hempty lt' rfl).empty]
        exact .inl ⟨rfl, hnoList hno⟩
      cases hsome
      have hcombined' : Combined den Q env (atom :: p) lt' :=
        ⟨hcombined.cells, fun l hvalues hall => hcombined.contains l hvalues fun c hc =>
          hall c ((hmem c).mp hc), fun c hc => hcombined.within c ((hmem c).mpr hc)⟩
      have hsame : (some lt' = none ∧ NoList den env (atom :: p)) ∨
          ∃ lt, some lt' = some lt ∧ CombinedAs den Q env P (atom :: p) lt :=
        .inr ⟨lt', rfl, hcombined', a', hinitial, hfixed, hrest, hP⟩
      cases b with
      | true => exact .inl ⟨rfl, hcombined'.noList ⟨hcells, hb.mp rfl⟩⟩
      | false =>
        obtain ⟨ty, hty, _⟩ := cellInnerVal_spec hx hcombined.cells.rest
        refine Prog.Ensures.ofOption hty ?_
        split
        next => exact hsame
        next =>
          refine ⟨.inr hcombined.cells.rest, fun b hb => ?_⟩
          cases b with
          | true =>
            have hempty := (hb.2 hcombined.cells.rest).mp rfl
            refine (cellContainingM_ensures NEVER .limited).bind fun c hc => ?_
            refine .inr ⟨_, rfl, hcombined'.neverRest hx hempty hc, a', hinitial, hfixed, ?_, hP⟩
            intro v hv
            have hnever := hv.1
            rw [cellDen_of_inner hc, hx.den_never] at hnever
            exact hnever.elim
          | false => exact hsame

end Intersect

/-! ## One path -/

/-- A positive with these lengths and this rest and the negatives have enough samples for the key. -/
def EnoughFor (den : SemType → Set V) (env : Env) (key : IntKey) (neg : List Atom) (a : Outline) : Prop :=
  ∃ boundaries samples indices keyIndices,
    sampleBoundaries env a.initial a.fixed neg = some boundaries ∧
    listSamples env ⟨List.replicate a.initial NEVER, a.fixed⟩ neg = some samples ∧
    listProjSamples samples key = some (indices, keyIndices) ∧
    EnoughSamples boundaries indices neg.length key
      fun i => i < a.fixed ∨ (den a.rest \ den (.bits UNDEF)).Nonempty

theorem listSamples_congr (env : Env) {m m' : FixedLengthArray} (neg : List Atom)
    (hinitial : m.initial.length = m'.initial.length) (hfixed : m.fixedLength = m'.fixedLength) :
    listSamples env m neg = listSamples env m' neg := by
  unfold listSamples
  rw [hinitial, hfixed]

/-- The values that lists with the property have at an index of the key. -/
def ListsAt (den : SemType → Set V) (key : IntKey) (P : List V → Prop) : Set V :=
  {v | ∃ (l : List V) (i : Nat), Values den l ∧ (l.length : Int) ≤ intMaxValue + 1 ∧ P l ∧ key.Has i ∧
    l[i]? = some v}

section Path

variable [BddIdentity] {den : SemType → Set V} {Q : SemType → Prop} {env : Env} {key : IntKey}
  {pos neg : List Atom}

/-- Every intersection on the path covers all indices, and there are enough samples. -/
def WellSampled (den : SemType → Set V) (env : Env) (key : IntKey) (pos neg : List Atom) : Prop :=
  PathCombines den env (EnoughFor den env key neg) pos

/-- The list belongs to the positives and to no negative. -/
def OnPath (den : SemType → Set V) (env : Env) (pos neg : List Atom) (l : List V) : Prop :=
  (∀ atom ∈ pos, env.ListContains (cellDen den) l atom) ∧
    ∀ atom ∈ neg, ¬ env.ListContains (cellDen den) l atom

/-- The values in the types that the positives give to the key. -/
def MemberTypesAt (den : SemType → Set V) (env : Env) (key : IntKey) (pos : List Atom) : Set V :=
  {v | v ∈ den (.bits VAL) ∧ ∀ atom ∈ pos, ∀ m, env.listAtomMemberType key atom = some m → v ∈ den m}

omit [BddIdentity] in
theorem contains_valDen (hdefined : Disjoint (den (.bits VAL)) (den (.bits UNDEF)))
    {lt : ListAtomicType} {l : List V} (hvalues : Values den l) :
    lt.Contains (valDen den) l ↔ lt.Contains (cellDen den) l := by
  refine ⟨fun h => ⟨h.1, fun i v t hv ht => (h.2 i v t hv ht).1⟩, fun h => ⟨h.1, ?_⟩⟩
  intro i v t hv ht
  exact ⟨h.2 i v t hv ht, Set.disjoint_left.mp hdefined (hvalues v (List.mem_of_getElem? hv))⟩

/-- What the combined type allows at a sample of the key is in the types that the positives give to
the key. -/
theorem allowedAt_subset (hx : ListProjTypes den Q) (hkey : key.Valid)
    (hpos : env.ListsOver (CellOf Q) pos) {lt : ListAtomicType} (h : Combined den Q env pos lt)
    {indices : List Int} {keyIndices : List Nat} (hproj : KeySamples key indices keyIndices)
    (hnonneg : ∀ x ∈ indices, 0 ≤ x) {memberTypes : List SemType} {nRequired : Nat}
    (htypes : SampleTypes (valDen den) (ValCell den Q) lt indices memberTypes nRequired) :
    AllowedAt den keyIndices memberTypes ⊆ MemberTypesAt den env key pos := by
  intro v ⟨q, hq, t, ht, hv⟩
  have hqlen := hproj.bound q hq
  have hidx : indices[q]? = some indices[q] := List.getElem?_eq_getElem hqlen
  have hhas := (hproj.inKey q _ hidx).mp hq
  obtain ⟨i, hi⟩ := Int.eq_ofNat_of_zero_le (hnonneg _ (List.mem_of_getElem? hidx))
  obtain ⟨u, hu, huCell⟩ := h.cells.memberAt (Int.natCast_nonneg i)
  rw [htypes.types q t _ u ht hidx (hi ▸ hu)] at hv
  refine ⟨?_, fun atom hatom m hm => ?_⟩
  · obtain ⟨ty, hty, hQ⟩ := huCell
    have hcell : cellDen den u = den ty := cellDen_of_inner hty
    exact (hx.inner hQ (hcell ▸ hv.1)).resolve_right hv.2
  · obtain ⟨lt', hlt', hover⟩ := hpos atom hatom
    obtain ⟨m0, hm0, hQ0, hmember⟩ := listAtomicMemberTypeAtInner_spec hx.memberTypes hover hkey
    obtain ⟨d, hd, _, hden⟩ := hx.diff hQ0 hx.undef
    obtain ⟨u', hu', _⟩ := hover.memberAt (Int.natCast_nonneg i)
    have heq : env.listAtomMemberType key atom = some d := by
      unfold Env.listAtomMemberType
      rw [hlt']
      show listAtomicMemberTypeInnerVal lt' key = _
      unfold listAtomicMemberTypeInnerVal
      rw [hm0]
      exact hd
    rw [hm] at heq
    cases heq
    rw [hden]
    have hle := h.within atom hatom lt' hlt' i u u' hu hu'
    exact ⟨hmember i (Int.natCast_nonneg i) (hi ▸ hhas) u' hu' (hle hv.1), hv.2⟩

/-- Along one path everything is found that a list has at an index of the key, and nothing that the
positives do not allow there. -/
theorem listProjPath_ensures (hx : ListProjTypes den Q) (hkey : key.Valid)
    (hpos : env.ListsOver (CellOf Q) pos) (hneg : env.ListsOver (CellOf Q) neg)
    (hsampled : WellSampled den env key pos neg) :
    (listProjPathInnerVal env key pos neg).Ensures CellNamed (Asked Q) (RightAnswer den Q)
      (Between den Q (ListsAt den key (OnPath den env pos neg)) (MemberTypesAt den env key pos)) := by
  refine (listProjCombine_ensures hx hpos hsampled).bind fun r hr => ?_
  rcases hr with ⟨hnone, hno⟩ | ⟨lt, hsome, hcombined, a, hinitial, hfixed, hrest, henough⟩
  · rw [hnone]
    refine ⟨hx.never, ?_, hx.den_never ▸ Set.empty_subset _⟩
    intro v ⟨l, i, hvalues, _, hpath, _⟩
    exact absurd hpath.1 (hno l hvalues)
  · rw [hsome]
    obtain ⟨boundaries, lastBoundary, samples, hsamples, hbounds, hsampling, hcut, hnegcut, _⟩ :=
      listSamples_spec hcombined.cells.valid fun atom hatom => by
        obtain ⟨nt, hnt, hover⟩ := hneg atom hatom
        exact ⟨nt, hnt, hover.valid⟩
    have hof : SamplesOf env lt neg boundaries lastBoundary samples := ⟨hsampling, hcut, hnegcut⟩
    obtain ⟨indices, keyIndices, hindices, hproj⟩ := listProjSamples_spec hkey samples
    have henough' : EnoughSamples boundaries indices neg.length key
        fun i => i < a.fixed ∨ (den a.rest \ den (.bits UNDEF)).Nonempty := by
      obtain ⟨bs, ss, is, ks, hbs, hss, his, h⟩ := henough
      have hcongr : listSamples env lt.members neg =
          listSamples env ⟨List.replicate a.initial NEVER, a.fixed⟩ neg :=
        listSamples_congr env neg (hinitial.trans List.length_replicate.symm) hfixed
      rw [← hinitial, ← hfixed, hbounds] at hbs
      rw [← hcongr, hsamples] at hss
      cases hbs
      cases hss
      rw [hindices] at his
      cases his
      exact h
    have hnonneg := hproj.nonneg hof.nonneg_of_mem
    refine Prog.Ensures.ofOption hsamples (Prog.Ensures.ofOption hindices ?_)
    have hstart : SampleTypes (valDen den) (ValCell den Q) lt indices [] 0 :=
      ⟨⟨by simp, by simp, Nat.le_refl 0, Nat.zero_le _⟩, by simp, by simp⟩
    refine (listSampleTypesLoop_ensures (cellContainingInnerVal_ensures hx) (fun h => .inr h.1)
      (fun h hb => ?_) hcombined.cells hproj.sorted hnonneg indices [] 0 rfl hstart).bind fun r hr => ?_
    · have hright := hb.2 h.1
      unfold EmptyRight at hright ⊢
      rw [← h.2]
      exact hright
    · obtain ⟨memberTypes, nRequired⟩ := r
      obtain ⟨htypes, hstop⟩ := hr
      have hsearch : Searchable (valDen den) (CellOf Q) indices memberTypes nRequired :=
        ⟨fun t ht => (htypes.cell t ht).1, htypes.nonempty, htypes.required, htypes.length⟩
      refine (listProjExclude_ensures hx hproj.sorted hnonneg keyIndices neg memberTypes nRequired hneg
        hsearch).imp fun p hp => ⟨hp.type, ?_, hp.most.trans ?_⟩
      · intro v ⟨l, i, hvalues, hint, hpath, hhas, hv⟩
        have hl := (contains_valDen hx.defined hvalues).mpr (hcombined.contains l hvalues hpath.1)
        have havoid : ∀ atom ∈ neg, ¬ env.ListContains (valDen den) l atom := by
          intro atom hatom ⟨nt, hnt, hcontains⟩
          exact hpath.2 atom hatom ⟨nt, hnt, (contains_valDen hx.defined hvalues).mp hcontains⟩
        refine hp.least (mem_sampledAt hof hproj hkey henough' (fun x hx' => ?_) hcombined.cells htypes
          hstop hneg hint hl havoid hhas hv)
        exact hx'.imp (fun hlt => hfixed ▸ hlt) fun ⟨w, hw⟩ => ⟨w, hrest hw, hw.2⟩
      · exact allowedAt_subset hx hkey hpos hcombined hproj.toKeySamples hnonneg htypes

/-! ## All paths -/

/-- The list belongs to the `Bdd` and is on the path to it. -/
def OnPathOf (den : SemType → Set V) (env : Env) (b : Bdd) (pos neg : List Atom) (l : List V) : Prop :=
  OnPath den env pos neg l ∧ b.holds (env.ListContains (cellDen den) l)

omit [BddIdentity] in
theorem listsAt_mono {P P' : List V → Prop} (h : ∀ l, P l → P' l) :
    ListsAt den key P ⊆ ListsAt den key P' := by
  intro v ⟨l, i, hvalues, hint, hP, hrest⟩
  exact ⟨l, i, hvalues, hint, h l hP, hrest⟩

omit [BddIdentity] in
/-- A list of a node takes one of its three branches. -/
theorem listsAt_node {atom : Atom} {left middle right : Bdd} :
    ListsAt den key (OnPathOf den env (.node atom left middle right) pos neg) ⊆
      ListsAt den key (OnPathOf den env left (atom :: pos) neg) ∪
        (ListsAt den key (OnPathOf den env middle pos neg) ∪
          ListsAt den key (OnPathOf den env right pos (atom :: neg))) := by
  intro v ⟨l, i, hvalues, hint, ⟨⟨hpos, hneg⟩, hholds⟩, hrest⟩
  rcases (Bdd.holds_node atom left middle right).mp hholds with ⟨hatom, h⟩ | h | ⟨hatom, h⟩
  · refine .inl ⟨l, i, hvalues, hint, ⟨⟨fun a ha => ?_, hneg⟩, h⟩, hrest⟩
    rcases List.mem_cons.mp ha with heq | ha
    · exact heq ▸ hatom
    · exact hpos a ha
  · exact .inr (.inl ⟨l, i, hvalues, hint, ⟨⟨hpos, hneg⟩, h⟩, hrest⟩)
  · refine .inr (.inr ⟨l, i, hvalues, hint, ⟨⟨hpos, fun a ha => ?_⟩, h⟩, hrest⟩)
    rcases List.mem_cons.mp ha with heq | ha
    · exact heq ▸ hatom
    · exact hneg a ha

omit [BddIdentity] in
theorem Env.ListsOver.cons {S : SemType → Prop} {atoms : List Atom} {atom : Atom}
    (hatom : ∃ lt, env.listAtomType atom = some lt ∧ lt.Over S) (h : env.ListsOver S atoms) :
    env.ListsOver S (atom :: atoms) := by
  intro a ha
  rcases List.mem_cons.mp ha with heq | ha
  · exact heq ▸ hatom
  · exact h a ha

/-- The projection of a `Bdd` and its member type are computed along the same paths. -/
theorem listProjBdd_ensures (hx : ListProjTypes den Q) (hkey : key.Valid) :
    ∀ (b : Bdd) (pos neg : List Atom) (accum : SemType),
      (b.Over fun atom => ∃ lt, env.listAtomType atom = some lt ∧ lt.Over (CellOf Q)) →
      env.ListsOver (CellOf Q) pos → env.ListsOver (CellOf Q) neg →
      b.EveryPath (WellSampled den env key) pos neg → Q accum →
      MemberTypesAt den env key pos ⊆ den accum →
      ∃ t, bddMemberType (env.listAtomMemberType key) b accum = some t ∧ Q t ∧
        (listProjBddInnerVal env key b pos neg).Ensures CellNamed (Asked Q) (RightAnswer den Q)
          (Between den Q (ListsAt den key (OnPathOf den env b pos neg)) (den t))
  | .leaf true, pos, neg, accum, _, hpos, hneg, hsampled, hQ, hle => by
    refine ⟨accum, rfl, hQ, ?_⟩
    refine (listProjPath_ensures hx hkey hpos hneg (hsampled rfl)).imp fun p hp =>
      ⟨hp.type, ?_, hp.most.trans hle⟩
    exact (listsAt_mono fun l h => h.1).trans hp.least
  | .leaf false, pos, neg, accum, _, _, _, _, _, _ => by
    refine ⟨NEVER, rfl, hx.never, hx.never, ?_, subset_rfl⟩
    intro v ⟨l, i, _, _, h, _⟩
    exact ((Bdd.holds_false _).mp h.2).elim
  | .node atom left middle right, pos, neg, accum, hover, hpos, hneg, hsampled, hQ, hle => by
    obtain ⟨hatom, hl, hm, hr⟩ := hover
    obtain ⟨hsl, hsm, hsr⟩ := hsampled
    obtain ⟨lt, hlt, hltOver⟩ := id hatom
    obtain ⟨ty, hty, ⟨inner, hinner, hdiff⟩, _⟩ :=
      listAtomicMemberTypeInnerVal_spec hx.memberTypes hltOver hkey
    have hQty : Q ty := innerVal_type hx.memberTypes ty ⟨inner, hinner, hdiff⟩
    have hmember : env.listAtomMemberType key atom = some ty := by
      unfold Env.listAtomMemberType
      rw [hlt]
      exact hty
    obtain ⟨s, hs, hQs, hdens⟩ := hx.intersect hQty hQ
    -- the left branch has one positive more
    have hles : MemberTypesAt den env key (atom :: pos) ⊆ den s := by
      intro v ⟨hval, hall⟩
      rw [hdens]
      refine ⟨hall atom List.mem_cons_self ty hmember, hle ⟨hval, fun a ha => ?_⟩⟩
      exact hall a (.tail _ ha)
    obtain ⟨tl, htl, hQl, hel⟩ := listProjBdd_ensures hx hkey left (atom :: pos) neg s hl
      (.cons hatom hpos) hneg hsl hQs hles
    obtain ⟨tm, htm, hQm, hem⟩ := listProjBdd_ensures hx hkey middle pos neg accum hm hpos hneg hsm hQ
      hle
    obtain ⟨tr, htr, hQr, her⟩ := listProjBdd_ensures hx hkey right pos (atom :: neg) accum hr hpos
      (.cons hatom hneg) hsr hQ hle
    obtain ⟨u, hu, hQu, hdenu⟩ := hx.union hQm hQr
    obtain ⟨t, ht, hQt, hdent⟩ := hx.union hQl hQu
    refine ⟨t, (bddMemberType_node hmember hs htl htm htr hu).trans ht, hQt, ?_⟩
    rw [listProjBddInnerVal]
    refine hel.bind fun pl hpl => hem.bind fun pm hpm => her.bind fun pr hpr => ?_
    obtain ⟨pu, hpu, hQpu, hdenpu⟩ := hx.union hpm.type hpr.type
    obtain ⟨p, hp, hQp, hdenp⟩ := hx.union hpl.type hQpu
    have hunion : (do union ops pl (← union ops pm pr)) = some p := by
      rw [hpu]
      exact hp
    have hbetween : Between den Q
        (ListsAt den key (OnPathOf den env (.node atom left middle right) pos neg)) (den t) p := by
      refine ⟨hQp, listsAt_node.trans ?_, ?_⟩
      · rw [hdenp, hdenpu]
        exact Set.union_subset_union hpl.least (Set.union_subset_union hpm.least hpr.least)
      · rw [hdenp, hdenpu, hdent, hdenu]
        exact Set.union_subset_union hpl.most (Set.union_subset_union hpm.most hpr.most)
    show (Prog.ofOption (do union ops pl (← union ops pm pr))).Ensures _ _ _ _
    rw [hunion]
    exact hbetween

/-! ## The projection -/

/-- On every path of the type the intersections cover all indices and there are enough samples. -/
def ProjSampled (den : SemType → Set V) (env : Env) (t k : SemType) : Prop :=
  ∀ c key b, t = .complex c → intSubtype k = some (some key) → listBdd t = some b →
    b.EveryPath (WellSampled den env key) [] []

/-- `ty` has every value that a list of the type can hold at an index of the key type, and only values
of the member type. -/
structure ProjRight (den : SemType → Set V) (env : Env) (t k ty : SemType) : Prop where
  contains : ∀ (l : List V) (i : Nat) (v : V), ListOf den env t l → (l.length : Int) ≤ intMaxValue + 1 →
    InKey k i → l[i]? = some v → v ∈ den ty
  within : ∃ m, listMemberTypeInnerVal env t k = some m ∧ den ty ⊆ den m

theorem listProjInnerVal_ensures (hx : ListProjTypes den Q) {t k : SemType}
    (ht : ListTypeOver Q env t) (hk : ValidKey k) (hsampled : ProjSampled den env t k) :
    (listProjInnerVal env t k).Ensures CellNamed (Asked Q) (RightAnswer den Q)
      (ProjRight den env t k) := by
  obtain ⟨b, hb, hover⟩ := ht
  obtain ⟨r, hr, hvalid⟩ := hk
  cases t with
  | bits bits =>
    refine ⟨fun l i v hl _ _ hv => ?_, _, rfl, subset_rfl⟩
    have hval := hl.values v (List.mem_of_getElem? hv)
    obtain ⟨b', hb', hholds⟩ := hl.holds
    cases hb'
    have hbit : bits &&& LIST ≠ 0 := bne_iff_ne.mp hholds
    rw [if_pos hbit]
    exact hval
  | complex c =>
    refine Prog.Ensures.ofOption hr ?_
    cases r with
    | none =>
      refine ⟨fun l i v _ _ hin => ?_, NEVER, ?_, subset_rfl⟩
      · obtain ⟨key, hsome, _⟩ := hin
        rw [hr] at hsome
        cases hsome
      · unfold listMemberTypeInnerVal
        rw [hr]
        rfl
    | some key =>
      have hbdd : (do (← getComplexSubtypeData c BT_LIST).toBdd) = some b :=
        (listBdd_complex c).symm.trans hb
      refine Prog.Ensures.ofOption hbdd ?_
      have hall : MemberTypesAt den env key [] ⊆ den (.bits VAL) := fun v hv => hv.1
      have hnone : env.ListsOver (CellOf Q) [] := fun a ha => absurd ha List.not_mem_nil
      obtain ⟨m, hm, _, hproj⟩ := listProjBdd_ensures hx (hvalid key rfl) b [] [] (.bits VAL) hover
        hnone hnone (hsampled c key b rfl hr hb) hx.val hall
      refine hproj.imp fun p hp => ⟨fun l i v hl hint hin hv => ?_, m, ?_, hp.most⟩
      · obtain ⟨b', hb', hholds⟩ := hl.holds
        rw [hb] at hb'
        cases hb'
        obtain ⟨key', hkey', hhas⟩ := hin
        rw [hr] at hkey'
        cases hkey'
        have hpath : OnPath den env [] [] l :=
          ⟨fun a ha => absurd ha List.not_mem_nil, fun a ha => absurd ha List.not_mem_nil⟩
        exact hp.least ⟨l, i, hl.values, hint, ⟨hpath, hholds⟩, hhas, hv⟩
      · unfold listMemberTypeInnerVal
        rw [hr]
        obtain ⟨data, hdata, hbdd'⟩ := Option.bind_eq_some_iff.mp hbdd
        show (do
          let data ← getComplexSubtypeData c BT_LIST
          let bdd ← data.toBdd
          bddListMemberTypeInnerVal env bdd key (.bits VAL)) = _
        rw [hdata]
        show (do
          let bdd ← data.toBdd
          bddListMemberTypeInnerVal env bdd key (.bits VAL)) = _
        rw [hbdd']
        exact hm

end Path

/-! ## Bit sets -/

/-- A bit set of values and `UNDEF`. -/
def InnerBits (t : SemType) : Prop := IsBits t ∧ bitsDen t ⊆ bitsDen (.bits VAL) ∪ bitsDen (.bits UNDEF)

theorem innerBits {b : BasicTypeBitSet}
    (h : ∀ c : BasicTypeCode, b.getLsbD c.val = true → VAL.getLsbD c.val = true ∨ UNDEF.getLsbD c.val = true) :
    InnerBits (.bits b) :=
  ⟨isBits b, fun c hc => h c hc⟩

theorem listProjTypes_bits [BddIdentity] : ListProjTypes bitsDen InnerBits where
  never := ⟨isBits 0, exactTypes_bits.den_never ▸ Set.empty_subset _⟩
  den_never := exactTypes_bits.den_never
  union h1 h2 := by
    obtain ⟨t, ht, hbits, hden⟩ := exactTypes_bits.union h1.1 h2.1
    exact ⟨t, ht, ⟨hbits, hden ▸ Set.union_subset h1.2 h2.2⟩, hden⟩
  intersect h1 h2 := by
    obtain ⟨t, ht, hbits, hden⟩ := exactTypes_bits.intersect h1.1 h2.1
    exact ⟨t, ht, ⟨hbits, hden ▸ Set.inter_subset_left.trans h1.2⟩, hden⟩
  diff h1 h2 := by
    obtain ⟨t, ht, hbits, hden⟩ := exactTypes_bits.diff h1.1 h2.1
    exact ⟨t, ht, ⟨hbits, hden ▸ Set.sdiff_subset.trans h1.2⟩, hden⟩
  val := ⟨isBits VAL, Set.subset_union_left⟩
  undef := ⟨isBits UNDEF, Set.subset_union_right⟩
  defined := by
    have hbits : ∀ c : BasicTypeCode, VAL.getLsbD c.val = true → UNDEF.getLsbD c.val ≠ true := by decide
    exact Set.disjoint_left.mpr fun c hval => hbits c hval
  inner h := h.2

/-- `isEmpty` of bit sets and of cells of bit sets. -/
def cellBitsIsEmpty (t : SemType) (env : Env) : Outcome Env Bool :=
  match t with
  | .bits b => .done (decide (∀ c : BasicTypeCode, b.getLsbD c.val = false)) env
  | .complex c =>
    match cellInner (.complex c) with
    | some (.bits b) => .done (decide (∀ c : BasicTypeCode, b.getLsbD c.val = false)) env
    | _ => .panic

theorem emptyRight_bits (b : BasicTypeBitSet) :
    EmptyRight bitsDen (.bits b) (decide (∀ c : BasicTypeCode, b.getLsbD c.val = false)) := by
  unfold EmptyRight
  rw [decide_eq_true_iff, Set.eq_empty_iff_forall_notMem]
  exact forall_congr' fun c => (Bool.not_eq_true _).symm.to_iff

theorem rightAnswer_cellBits (t : SemType) (env : Env) (h : Asked InnerBits t) :
    ∃ b env', cellBitsIsEmpty t env = .done b env' ∧ RightAnswer bitsDen InnerBits t b := by
  cases t with
  | bits bits =>
    refine ⟨_, env, rfl, fun _ => emptyRight_bits bits, fun ⟨ty, hty, _⟩ => ?_⟩
    -- the only bit set that is a cell is `CELL`, the cell of all values
    have hcell : cellInner (.bits bits) =
      (if bits = CELL then some ⟨.bits VAL, .limited⟩ else none : Option CellAtomicType).map (·.ty) := rfl
    by_cases heq : bits = CELL
    · rw [if_pos heq] at hcell
      have hden : cellDen bitsDen (.bits bits) = bitsDen (.bits VAL) := cellDen_of_inner hcell
      unfold EmptyRight
      rw [hden, heq]
      refine iff_of_false (by decide) fun hempty => ?_
      exact Set.eq_empty_iff_forall_notMem.mp hempty BT_INT (show VAL.getLsbD BT_INT.val = true by decide)
    · rw [hcell, if_neg heq] at hty
      cases hty
  | complex c =>
    rcases h with h | h
    · obtain ⟨b, hb⟩ := h.1
      cases hb
    · obtain ⟨ty, hty, hbits⟩ := id h
      obtain ⟨b, rfl⟩ := hbits.1
      refine ⟨decide (∀ c : BasicTypeCode, b.getLsbD c.val = false), env, ?_, fun hQ => ?_, fun _ => ?_⟩
      · unfold cellBitsIsEmpty
        dsimp only
        rw [hty]
      · obtain ⟨b', hb'⟩ := hQ.1
        cases hb'
      · unfold EmptyRight
        rw [cellDen_of_inner hty]
        exact emptyRight_bits b

theorem cellNamed_cellAtom (c : CellAtomicType) (env : Env) : CellNamed c (env.cellAtom c).1 := by
  unfold CellNamed Env.cellAtom Env.typeAtom
  split
  next ta hfind => simpa using List.find?_some hfind
  next => rfl

/-- The key `0`. -/
def zeroKey : SemType := ints [⟨0, 0⟩]

theorem intSubtype_zeroKey : intSubtype zeroKey = some (some (.ranges [⟨0, 0⟩])) := by
  unfold intSubtype zeroKey ints
  rw [subtypeData_basicSubtype]
  rfl

theorem valid_zeroRange : (IntKey.ranges [⟨0, 0⟩]).Valid := by
  refine ⟨fun v hv => ?_, fun v hv => ?_⟩
  · cases hv
    refine ⟨fun r hr => ?_, List.pairwise_singleton _ _⟩
    rw [List.mem_singleton.mp hr]
    exact ⟨by show (-9223372036854775808 : Int) ≤ 0; omega, Int.le_refl 0,
      by show (0 : Int) ≤ 9223372036854775807; omega⟩
  · cases hv
    exact List.cons_ne_nil _ _

theorem validKey_zero : ValidKey zeroKey := by
  refine ⟨_, intSubtype_zeroKey, fun key hkey => ?_⟩
  cases hkey
  exact valid_zeroRange

/-- The type with the lists of one atom that do not belong to another. -/
def withoutAtom (pos neg : Atom) : Bdd :=
  .node pos (.node neg (.leaf false) (.leaf false) (.leaf true)) (.leaf false) (.leaf false)

variable {neg pos : Atom}

theorem over_withoutAtom {Q : SemType → Prop} {env : Env} {lt nt : ListAtomicType}
    (hpos : env.listAtomType pos = some lt) (hlt : lt.Over (CellOf Q))
    (hneg : env.listAtomType neg = some nt) (hnt : nt.Over (CellOf Q)) :
    ListTypeOver Q env (listType (withoutAtom pos neg)) :=
  ⟨_, listBdd_listType _, ⟨lt, hpos, hlt⟩, ⟨⟨nt, hneg, hnt⟩, trivial, trivial, trivial⟩, trivial, trivial⟩

theorem everyPath_withoutAtom {P : List Atom → List Atom → Prop} (h : P [pos] [neg]) :
    (withoutAtom pos neg).EveryPath P [] [] :=
  ⟨⟨fun hfalse => absurd hfalse Bool.false_ne_true, fun hfalse => absurd hfalse Bool.false_ne_true,
    fun _ => h⟩, fun hfalse => absurd hfalse Bool.false_ne_true, fun hfalse => absurd hfalse Bool.false_ne_true⟩

/-- The atom of the read-only lists with one member. -/
def singleAtom (i : Nat) (b : BasicTypeBitSet) : Atom :=
  .typeAtom i (.list [readOnlyCell i (.bits b)] 1 (readOnlyCell (i + 1) (.bits UNDEF)))

theorem over_single {i : Nat} {b : BasicTypeBitSet} (h : InnerBits (.bits b)) :
    (⟨⟨[readOnlyCell i (.bits b)], 1⟩, readOnlyCell (i + 1) (.bits UNDEF)⟩ : ListAtomicType).Over
      (CellOf InnerBits) where
  valid := ⟨iff_of_false (by show ¬ ((1 : Int) = 0); omega) (List.cons_ne_nil _ _), Int.le_refl 1,
    by show (1 : Int) ≤ 9223372036854775807; omega⟩
  initial c hc := by
    rw [List.mem_singleton.mp hc]
    exact ⟨.bits b, cellInner_readOnlyCell i (.bits b), h⟩
  rest := ⟨.bits UNDEF, cellInner_readOnlyCell (i + 1) (.bits UNDEF), isBits UNDEF, Set.subset_union_right⟩

/-- `(int|string)[]` without `int[]`. -/
def notIntArrays : SemType :=
  listType (withoutAtom (arrayAtom 20 (.bits (INT ||| STRING ||| UNDEF))) (arrayAtom 21 (.bits (INT ||| UNDEF))))

/-- There is one negative, so there is one sample. -/
theorem listSamples_arrays :
    listSamples Env.init ⟨[], 0⟩ [arrayAtom 21 (.bits (INT ||| UNDEF))] = some [0] := by
  have hlengths : sampleLengths Env.init [arrayAtom 21 (.bits (INT ||| UNDEF))]
      ((⟨[], 0⟩ : FixedLengthArray).initial.length, [(⟨[], 0⟩ : FixedLengthArray).fixedLength]) =
      some (0, [0]) := rfl
  unfold listSamples
  rw [hlengths, Option.bind_eq_bind, Option.bind_some]
  dsimp only
  rw [List.mergeSort_singleton]
  rfl

theorem listProjSamples_zero : listProjSamples [0] (.ranges [⟨0, 0⟩]) = some ([0], [0]) := by
  show some (dropRepeated ([(0, true), (0, true)].mergeSort sampleLe) [] []) = _
  rw [List.mergeSort_of_pairwise (by decide)]
  rfl

theorem listProjInnerVal_withoutAtom [BddIdentity] {env : Env} {k : SemType} {key : IntKey}
    (hkey : intSubtype k = some (some key)) :
    listProjInnerVal env (listType (withoutAtom pos neg)) k =
      listProjBddInnerVal env key (withoutAtom pos neg) [] [] := by
  let d : ProperSubtypeData := .bddNode pos (.node neg (.leaf false) (.leaf false) (.leaf true))
    (.leaf false) (.leaf false)
  have hbdd : (do (← getComplexSubtypeData (createComplexSemType 0 [(BT_LIST, d)]) BT_LIST).toBdd) =
      some (withoutAtom pos neg) := listBdd_listType (withoutAtom pos neg)
  have htype : listType (withoutAtom pos neg) = .complex (createComplexSemType 0 [(BT_LIST, d)]) := rfl
  rw [htype, listProjInnerVal, hkey]
  show (do
    let bdd ← cast (do (← getComplexSubtypeData (createComplexSemType 0 [(BT_LIST, d)]) BT_LIST).toBdd)
    listProjBddInnerVal env key bdd [] []) = _
  rw [hbdd]
  rfl

/-- The run that finds `string` only. -/
theorem run_notIntArrays :
    let _ := BddIdentity.shared
    ∃ env', (listProjInnerVal Env.init notIntArrays zeroKey).exec (fun c env => env.cellAtom c)
      (fun _ _ => .panic) cellBitsIsEmpty Env.init = .done (.bits STRING) env' := by
  intro _
  let pos := arrayAtom 20 (.bits (INT ||| STRING ||| UNDEF))
  let neg := arrayAtom 21 (.bits (INT ||| UNDEF))
  let lt : ListAtomicType := ⟨⟨[], 0⟩, cellOf 20 (.bits (INT ||| STRING ||| UNDEF))⟩
  have hcombine : (listProjCombine Env.init [pos]).exec (fun c env => env.cellAtom c)
      (fun _ _ => .panic) cellBitsIsEmpty Env.init = .done (some lt) Env.init := rfl
  have hpath : ∃ env', (listProjPathInnerVal Env.init (.ranges [⟨0, 0⟩]) [pos] [neg]).exec
      (fun c env => env.cellAtom c) (fun _ _ => .panic) cellBitsIsEmpty Env.init =
        .done (.bits STRING) env' := by
    unfold listProjPathInnerVal
    rw [Prog.bind_eq, Prog.exec_bind, hcombine]
    show ∃ env', Prog.exec _ _ _ (do
      let samples ← cast (listSamples Env.init ⟨[], 0⟩ [neg])
      _) _ = _
    rw [listSamples_arrays]
    show ∃ env', Prog.exec _ _ _ (do
      let samples ← cast (listProjSamples [0] (.ranges [⟨0, 0⟩]))
      _) _ = _
    rw [listProjSamples_zero]
    exact ⟨_, rfl⟩
  obtain ⟨env', hpath⟩ := hpath
  refine ⟨env', ?_⟩
  unfold notIntArrays
  rw [listProjInnerVal_withoutAtom intSubtype_zeroKey]
  unfold withoutAtom
  rw [listProjBddInnerVal, Prog.bind_eq, Prog.exec_bind, listProjBddInnerVal]
  show Outcome.andThen (Prog.exec _ _ _ (Prog.bind (listProjPathInnerVal Env.init (.ranges [⟨0, 0⟩]) [pos] [neg])
    _) _) _ = _
  rw [Prog.exec_bind, hpath]
  rfl

end Nballerina.Types
