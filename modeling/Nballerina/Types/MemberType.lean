import Nballerina.Types.BddOps
import Nballerina.Types.ExactTypes
import Nballerina.Types.IntRanges
import Nballerina.Types.ListExact

/-!
# Types of members

The type of the members that the lists or mappings of a type have at some keys is computed along the
paths of the `Bdd`: the types that the positive atoms give to the keys are intersected, and the
results of the paths united. The negative atoms are left out, so the type may be larger than needed.

What such a type is to contain is every value that can be a member. Each union does its part; an
intersection that loses a common value does not, and `intersect` loses some ints
(`exact_rangeListIntersect_iff`). `bddMemberType_sound` is the general statement, for any structure
whose atoms give a type to the keys, and `exists_bddAll` finds a path for every type accumulated.

Mirroring notes:
- `cellDen` is for structures taken by the values they hold, as read-only ones are. In `cell.bal` a
  writable cell is told by the values it may store, so a negative atom leaves out fewer writable
  structures than here. The functions do not look at negative atoms, and a value that is held is in the
  positive ones either way.
-/

namespace Nballerina.Types

variable {V : Type}

section Source

variable [BddIdentity]

/-- What `bddListMemberTypeInnerVal` and `bddMappingMemberTypeInner` have in common; `memberType` is
the type that an atom gives to the keys. -/
def bddMemberType (memberType : Atom → Option SemType) : Bdd → SemType → Option SemType
  | .leaf b, accum => some (if b then accum else NEVER)
  | .node atom left middle right, accum => do
    let l ← bddMemberType memberType left (← intersect ops (← memberType atom) accum)
    let m ← bddMemberType memberType middle accum
    let r ← bddMemberType memberType right accum
    union ops l (← union ops m r)

end Source

/-! ## Cells -/

/-- The values of a cell type, whether or not the cell can be written. -/
def cellDen (den : SemType → Set V) (c : SemType) : Set V := {v | ∃ ty, cellInner c = some ty ∧ v ∈ den ty}

/-- A cell with an inner type in `Q`. -/
def CellOf (Q : SemType → Prop) (c : SemType) : Prop := ∃ ty, cellInner c = some ty ∧ Q ty

/-- The type of a cell. -/
def cellOf (i : Nat) (ty : SemType) : SemType := atomSemType BT_CELL (.typeAtom i (.cell ty .limited))

theorem cellInner_cellOf (i : Nat) (ty : SemType) : cellInner (cellOf i ty) = some ty := by
  have hcell : cellAtomicType (cellOf i ty) = some ⟨ty, .limited⟩ :=
    CellTable.cellAtomicType_single i ⟨ty, .limited⟩
  unfold cellInner
  rw [hcell]
  rfl

/-- The type of a read-only cell. -/
def readOnlyCell (i : Nat) (ty : SemType) : SemType := atomSemType BT_CELL (.typeAtom i (.cell ty .none))

theorem cellAtomicType_readOnlyCell (i : Nat) (ty : SemType) :
    cellAtomicType (readOnlyCell i ty) = some ⟨ty, .none⟩ :=
  CellTable.cellAtomicType_single i ⟨ty, .none⟩

theorem cellInner_readOnlyCell (i : Nat) (ty : SemType) : cellInner (readOnlyCell i ty) = some ty := by
  unfold cellInner
  rw [cellAtomicType_readOnlyCell]
  rfl

/-! ## Intersections along a path -/

/-- Unions are exact on the types of `W`, and intersections at least add nothing. -/
structure LossyTypes [BddIdentity] (den : SemType → Set V) (W : SemType → Prop) : Prop where
  never : W NEVER
  den_never : den NEVER = ∅
  union : ∀ {t1 t2 : SemType}, W t1 → W t2 →
    ∃ t, union ops t1 t2 = some t ∧ W t ∧ den t = den t1 ∪ den t2
  intersect : ∀ {t1 t2 : SemType}, W t1 → W t2 →
    ∃ t, intersect ops t1 t2 = some t ∧ W t ∧ den t ⊆ den t1 ∩ den t2

/-- What can be accumulated on a path from `start`, if the atoms give types in `M` to the keys. -/
inductive Accumulated [BddIdentity] (M : SemType → Prop) (start : SemType) : SemType → Prop
  | start : Accumulated M start start
  | step {accum ty t : SemType} : Accumulated M start accum → M ty →
      intersect ops ty accum = some t → Accumulated M start t

/-- No intersection on a path loses a common value. -/
def KeepsCommon [BddIdentity] (den : SemType → Set V) (M : SemType → Prop) (start : SemType) : Prop :=
  ∀ {accum ty t : SemType}, Accumulated M start accum → M ty → intersect ops ty accum = some t →
    den ty ∩ den accum ⊆ den t

section Sound

variable [BddIdentity] {den : SemType → Set V} {W M : SemType → Prop} {start : SemType}
  {memberType : Atom → Option SemType}

theorem Accumulated.type (hx : LossyTypes den W) (hM : ∀ t, M t → W t) (hstart : W start)
    {accum : SemType} (h : Accumulated M start accum) : W accum := by
  induction h with
  | start => exact hstart
  | step _ hty ht ih =>
    obtain ⟨t', ht', hW, _⟩ := hx.intersect (hM _ hty) ih
    rw [ht] at ht'
    cases ht'
    exact hW

theorem bddMemberType_node {atom : Atom} {left middle right : Bdd} {accum ty s l m r u : SemType}
    (hty : memberType atom = some ty) (hs : intersect ops ty accum = some s)
    (hl : bddMemberType memberType left s = some l)
    (hm : bddMemberType memberType middle accum = some m)
    (hr : bddMemberType memberType right accum = some r) (hu : union ops m r = some u) :
    bddMemberType memberType (.node atom left middle right) accum = union ops l u := by
  simp only [bddMemberType, hty, hs, hl, hm, hr, hu, Option.bind_eq_bind, Option.bind_some]

/-- The type is computed, whatever has been accumulated. -/
theorem exists_bddMemberType {P : Atom → Prop} (hx : LossyTypes den W) (hM : ∀ t, M t → W t)
    (hstart : W start) (hP : ∀ atom, P atom → ∃ ty, memberType atom = some ty ∧ M ty) :
    ∀ (b : Bdd) (accum : SemType), b.Over P → Accumulated M start accum →
      ∃ t, bddMemberType memberType b accum = some t ∧ W t
  | .leaf b, accum, _, haccum => by
    cases b with
    | true => exact ⟨accum, rfl, haccum.type hx hM hstart⟩
    | false => exact ⟨NEVER, rfl, hx.never⟩
  | .node atom left middle right, accum, hover, haccum => by
    obtain ⟨hatomP, hl, hm, hr⟩ := hover
    obtain ⟨ty, hty, hMty⟩ := hP atom hatomP
    obtain ⟨s, hs, _, _⟩ := hx.intersect (hM ty hMty) (haccum.type hx hM hstart)
    obtain ⟨l, hleft, hWl⟩ := exists_bddMemberType hx hM hstart hP left s hl (haccum.step hMty hs)
    obtain ⟨m, hmiddle, hWm⟩ := exists_bddMemberType hx hM hstart hP middle accum hm haccum
    obtain ⟨r, hright, hWr⟩ := exists_bddMemberType hx hM hstart hP right accum hr haccum
    obtain ⟨u, hu, hWu, _⟩ := hx.union hWm hWr
    obtain ⟨t, ht, hWt, _⟩ := hx.union hWl hWu
    exact ⟨t, (bddMemberType_node hty hs hleft hmiddle hright hu).trans ht, hWt⟩

/-- If `v` is in the types that the atoms of `x` give to the keys, then it is in the type that the
`Bdd` of `x` gives to them. -/
theorem bddMemberType_sound {X : Type} {contains : X → Atom → Prop} {P : Atom → Prop}
    (hx : LossyTypes den W) (hM : ∀ t, M t → W t) (hstart : W start)
    (hkeeps : KeepsCommon den M start) (hP : ∀ atom, P atom → ∃ ty, memberType atom = some ty ∧ M ty) :
    ∀ (b : Bdd) (accum : SemType), b.Over P → Accumulated M start accum →
      ∃ t, bddMemberType memberType b accum = some t ∧ W t ∧
        ∀ x v, b.holds (contains x) → v ∈ den accum →
          (∀ atom ty, P atom → contains x atom → memberType atom = some ty → v ∈ den ty) → v ∈ den t
  | .leaf b, accum, _, haccum => by
    cases b with
    | true => exact ⟨accum, rfl, haccum.type hx hM hstart, fun x v _ hv _ => hv⟩
    | false => exact ⟨NEVER, rfl, hx.never, fun x v h => ((Bdd.holds_false _).mp h).elim⟩
  | .node atom left middle right, accum, hover, haccum => by
    obtain ⟨hatomP, hl, hm, hr⟩ := hover
    obtain ⟨ty, hty, hMty⟩ := hP atom hatomP
    obtain ⟨s, hs, _, _⟩ := hx.intersect (hM ty hMty) (haccum.type hx hM hstart)
    obtain ⟨l, hleft, hWl, hvl⟩ := bddMemberType_sound hx hM hstart hkeeps hP left s hl
      (haccum.step hMty hs)
    obtain ⟨m, hmiddle, hWm, hvm⟩ := bddMemberType_sound hx hM hstart hkeeps hP middle accum hm
      haccum
    obtain ⟨r, hright, hWr, hvr⟩ := bddMemberType_sound hx hM hstart hkeeps hP right accum hr
      haccum
    obtain ⟨u, hu, hWu, hdenu⟩ := hx.union hWm hWr
    obtain ⟨t, ht, hWt, hdent⟩ := hx.union hWl hWu
    refine ⟨t, ?_, hWt, fun x v hx' hv hmem => ?_⟩
    · exact (bddMemberType_node hty hs hleft hmiddle hright hu).trans ht
    · rw [hdent, hdenu]
      rcases (Bdd.holds_node atom left middle right).mp hx' with ⟨hatom, h⟩ | h | ⟨_, h⟩
      · exact .inl (hvl x v h (hkeeps haccum hMty hs ⟨hmem atom ty hatomP hatom hty, hv⟩) hmem)
      · exact .inr (.inl (hvm x v h hv hmem))
      · exact .inr (.inr (hvr x v h hv hmem))

/-- Exact types lose nothing. -/
theorem ExactTypes.lossy (hx : ExactTypes den W) : LossyTypes den W where
  never := hx.never
  den_never := hx.den_never
  union := hx.union
  intersect h1 h2 := by
    obtain ⟨t, ht, hW, hden⟩ := hx.intersect h1 h2
    exact ⟨t, ht, hW, hden.subset⟩

theorem ExactTypes.keepsCommon (hx : ExactTypes den W) (hM : ∀ t, M t → W t) (hstart : W start) :
    KeepsCommon den M start := by
  intro accum ty t haccum hty ht
  obtain ⟨t', ht', _, hden⟩ := hx.intersect (hM ty hty) (haccum.type hx.lossy hM hstart)
  rw [ht] at ht'
  cases ht'
  exact hden.ge

/-! ## A path that loses a value -/

/-- The `Bdd` whose only path takes all the atoms, and then `last`. -/
def bddAll (atoms : List Atom) (last : Bdd) : Bdd :=
  atoms.foldr (fun atom b => .node atom b (.leaf false) (.leaf false)) last

omit [BddIdentity] in
theorem holds_bddAll {v : Atom → Prop} (atoms : List Atom) (last : Bdd) :
    (bddAll atoms last).holds v ↔ (∀ atom ∈ atoms, v atom) ∧ last.holds v := by
  induction atoms with
  | nil => simp [bddAll]
  | cons atom atoms ih =>
    show (Bdd.node atom (bddAll atoms last) _ _).holds v ↔ _
    simp [ih, and_assoc]

omit [BddIdentity] in
theorem over_bddAll {P : Atom → Prop} {atoms : List Atom} {last : Bdd} (h : ∀ atom ∈ atoms, P atom)
    (hlast : last.Over P) : (bddAll atoms last).Over P := by
  induction atoms with
  | nil => exact hlast
  | cons atom atoms ih =>
    exact ⟨h atom (.head _), ih fun a ha => h a (.tail _ ha), trivial, trivial⟩

omit [BddIdentity] in
/-- One more atom at the end of the path. -/
theorem bddAll_snoc (atoms : List Atom) (atom : Atom) (last : Bdd) :
    bddAll (atoms ++ [atom]) last =
      bddAll atoms (.node atom last (.leaf false) (.leaf false)) := by
  unfold bddAll
  rw [List.foldr_append]
  rfl

/-- A node without other paths has the type of its left part. -/
theorem bddMemberType_only (hx : LossyTypes den W) {atom : Atom} {left : Bdd} {accum ty s t : SemType}
    (hty : memberType atom = some ty) (hs : intersect ops ty accum = some s)
    (ht : bddMemberType memberType left s = some t) (hW : W t) :
    ∃ t', bddMemberType memberType (.node atom left (.leaf false) (.leaf false)) accum = some t' ∧
      W t' ∧ den t' = den t := by
  obtain ⟨u, hu, hWu, hdenu⟩ := hx.union hx.never hx.never
  obtain ⟨t', ht', hWt', hdent⟩ := hx.union hW hWu
  refine ⟨t', ?_, hWt', ?_⟩
  · exact (bddMemberType_node hty hs ht rfl rfl hu).trans ht'
  · rw [hdent, hdenu, hx.den_never, Set.union_empty, Set.union_empty]

/-- What is accumulated is the type of some path, if there is an atom for every type. The atoms may
depend on their position. -/
theorem exists_bddAll (hx : LossyTypes den W) (hM : ∀ t, M t → W t)
    {P : Nat → Atom → SemType → Prop} (hP : ∀ {i atom ty}, P i atom ty → memberType atom = some ty)
    (hatom : ∀ i ty, M ty → ∃ atom, P i atom ty) (hstart : W start) {accum : SemType}
    (h : Accumulated M start accum) :
    ∃ atoms : List Atom,
      (∀ (i : Nat) atom, atoms[i]? = some atom → ∃ ty, P i atom ty ∧ M ty ∧ den accum ⊆ den ty) ∧
      den accum ⊆ den start ∧ ∀ last t, bddMemberType memberType last accum = some t → W t →
        ∃ t', bddMemberType memberType (bddAll atoms last) start = some t' ∧ W t' ∧ den t' = den t := by
  induction h with
  | start =>
    refine ⟨[], fun i atom h => ?_, subset_rfl, fun last t ht hW => ⟨t, ht, hW, rfl⟩⟩
    simp at h
  | step haccum hty ht ih =>
    rename_i accum ty s
    obtain ⟨atoms, hatoms, hle, htype⟩ := ih
    obtain ⟨atom, hatomP⟩ := hatom atoms.length ty hty
    obtain ⟨s', hs', _, hdens⟩ := hx.intersect (hM ty hty) (haccum.type hx hM hstart)
    rw [ht] at hs'
    cases hs'
    refine ⟨atoms ++ [atom], fun i a ha => ?_, fun v hv => hle (hdens hv).2, fun last t hlast hW => ?_⟩
    · by_cases hi : i < atoms.length
      · rw [List.getElem?_append_left hi] at ha
        obtain ⟨ty', hP', hM', hle'⟩ := hatoms i a ha
        exact ⟨ty', hP', hM', fun v hv => hle' (hdens hv).2⟩
      · have hlt := (List.getElem?_eq_some_iff.mp ha).1
        rw [List.length_append, List.length_singleton] at hlt
        have heq : i = atoms.length := by omega
        rw [heq, List.getElem?_append_right (le_refl _), Nat.sub_self] at ha
        cases ha
        rw [heq]
        exact ⟨ty, hatomP, hty, fun v hv => (hdens hv).1⟩
    · obtain ⟨t1, ht1, hW1, hden1⟩ := bddMemberType_only hx (hP hatomP) ht hlast hW
      obtain ⟨t2, ht2, hW2, hden2⟩ := htype _ t1 ht1 hW1
      rw [bddAll_snoc]
      exact ⟨t2, ht2, hW2, hden2.trans hden1⟩

end Sound

end Nballerina.Types
