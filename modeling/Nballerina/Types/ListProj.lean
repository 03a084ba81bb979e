import Nballerina.Types.ListIntersect
import Nballerina.Types.ListMember

/-!
# List projection

`listProjInnerVal` (`listProj.bal`) is the precise version of `listMemberTypeInnerVal`: along each
path of the `Bdd` it also takes the negatives into account. It is a search like `listInhabited`,
over the same samples and the ends of the ranges of the key type. Where `listInhabited` stops at the
first sampled list that avoids the negatives, the projection unites the types that all of them have
at the samples in the key type.

This file has the model and what one path returns in terms of sampled lists (`listProjExclude_ensures`):
at least the members that a sampled list has at a sample of the key, and at most the members that
the types of these samples allow.

Mirroring notes:
- `isEmpty` and the interning of cells are those of `Emptiness`, so the functions are programs in
  `EmptyM`; the context is only read for the types of atoms.
- `keyIndices` are positions in the list of samples, as in the source.
- Lists are taken by their values, as in `ListMember`; here negative atoms count, so this is about
  read-only lists.
- Tuples of an int and a boolean are sorted by the int first, and `false` comes before `true`.
-/

namespace Nballerina.Types

open Nballerina.Lib

variable {V : Type}

/-! ## The samples of the key -/

/-- `intSubtypeContains(k, i)`, where `true` is the data of all ints. -/
def IntKey.contains : IntKey → Int → Option Bool
  | .all, i => intSubtypeContains (.bool true) i
  | .ranges v, i => intSubtypeContains (.proper (.int v)) i

/-- The samples that one range of the key adds. -/
def rangeSamples (range : Range) : List (Int × Bool) :=
  if range.max ≥ 0 then
    let min := max 0 range.min
    (range.max, true) :: (if min < range.max then [(min, true)] else [])
  else []

def keyRanges : IntKey → List Range
  | .all => []
  | .ranges v => v

def sampleLe (a b : Int × Bool) : Bool := decide (a.1 < b.1) || (decide (a.1 = b.1) && (!a.2 || b.2))

/-- The last loop of `listProjSamples`. -/
def dropRepeated : List (Int × Bool) → List Int → List Nat → List Int × List Nat
  | [], indices, keyIndices => (indices, keyIndices)
  | (i, inKey) :: v, indices, keyIndices =>
    if indices.getLast? = some i then dropRepeated v indices keyIndices
    else dropRepeated v (indices ++ [i])
      (if inKey then keyIndices ++ [indices.length] else keyIndices)

def listProjSamples (indices : List Int) (k : IntKey) : Option (List Int × List Nat) := do
  let v ← indices.mapM fun i => do return (i, ← k.contains i)
  return dropRepeated ((v ++ (keyRanges k).flatMap rangeSamples).mergeSort sampleLe) [] []

/-! ## The projection -/

section Source

variable [BddIdentity]

/-- The loop over the samples of the key, when there are no negatives left. -/
def unionKeyMembers (memberTypes : List SemType) : List Nat → SemType → Option SemType
  | [], p => some p
  | k :: keyIndices, p => do
    match memberTypes[k]? with
    | some t => unionKeyMembers memberTypes keyIndices (← union ops p (← cellInnerVal t))
    | none => unionKeyMembers memberTypes keyIndices p

section Exclude

-- `next` is `listProjExcludeInnerVal` for the negatives that are left
variable (next : List SemType → Nat → EmptyM SemType)

/-- The loop over shorter lists. -/
def listProjShorter (indices : List Int) (memberTypes : List SemType) (nRequired : Nat)
    (negLen : Int) : List Nat → SemType → EmptyM SemType
  | [], p => pure p
  | i :: is, p => do
    if (← cast indices[i]?) ≥ negLen then return p
    else
      let q ← next (memberTypes.take i) nRequired
      listProjShorter indices memberTypes nRequired negLen is (← cast (union ops p q))

/-- The loop over the member that is not in the negative. -/
def listProjMember (nt : ListAtomicType) (indices : List Int) (memberTypes : List SemType)
    (nRequired : Nat) : List Nat → SemType → EmptyM SemType
  | [], p => pure p
  | i :: is, p => do
    let t ← cast (do cellInnerVal (← memberTypes[i]?))
    let negType ← cast (do listMemberAtInnerVal nt.members nt.rest (← indices[i]?))
    let d ← cast (diff ops t negType)
    if ← isEmpty d then listProjMember nt indices memberTypes nRequired is p
    else
      let c ← cellContainingM d .limited
      let q ← next (memberTypes.set i c) (max nRequired (i + 1))
      listProjMember nt indices memberTypes nRequired is (← cast (union ops p q))

end Exclude

def listProjExcludeInnerVal (env : Env) (indices : List Int) (keyIndices : List Nat) :
    List Atom → List SemType → Nat → EmptyM SemType
  | [], memberTypes, _ => cast (unionKeyMembers memberTypes keyIndices NEVER)
  | atom :: neg, memberTypes, nRequired => do
    let nt ← cast (env.listAtomType atom)
    let next := listProjExcludeInnerVal env indices keyIndices neg
    let skip ← cast (if nRequired > 0 then do
        let last ← indices[nRequired - 1]?
        return decide ((← listMemberAtInnerVal nt.members nt.rest last) = NEVER)
      else some false)
    if skip then next memberTypes nRequired
    else
      let negLen := nt.members.fixedLength
      let len := memberTypes.length
      let short ← cast (if negLen > 0 ∧ len < indices.length then do
          return decide ((← indices[len]?) < negLen)
        else some false)
      if short then next memberTypes nRequired
      else
        let p ← if negLen > 0 then
            listProjShorter next indices memberTypes nRequired negLen
              (List.range' nRequired (len - nRequired)) NEVER
          else pure NEVER
        listProjMember next nt indices memberTypes nRequired (List.range len) p

/-- The part of `listProjPathInnerVal` that combines the positives; `none` is `return NEVER`. -/
def listProjCombine (env : Env) : List Atom → EmptyM (Option ListAtomicType)
  | [] => do
    let ty ← cast (union ops (.bits VAL) (.bits UNDEF))
    return some ⟨⟨[], 0⟩, ← cellContainingM ty .limited⟩
  | atom :: p => do
    match ← combineLists env p (← cast (env.listAtomType atom)) with
    | none => return none
    | some lt =>
      if ← fixedArrayAnyEmpty lt.members then return none
      else if (← cast (cellInnerVal lt.rest)) = NEVER then return some lt
      else if ← isEmpty lt.rest then
        return some ⟨lt.members, ← cellContainingM NEVER .limited⟩
      else return some lt

def listProjPathInnerVal (env : Env) (k : IntKey) (pos neg : List Atom) : EmptyM SemType := do
  match ← listProjCombine env pos with
  | none => return NEVER
  | some lt =>
    let samples ← cast (listSamples env lt.members neg)
    let (indices, keyIndices) ← cast (listProjSamples samples k)
    let (memberTypes, nRequired) ← listSampleTypes lt.members lt.rest indices
    listProjExcludeInnerVal env indices keyIndices neg memberTypes nRequired

def listProjBddInnerVal (env : Env) (k : IntKey) : Bdd → List Atom → List Atom → EmptyM SemType
  | .leaf b, pos, neg => if b then listProjPathInnerVal env k pos neg else pure NEVER
  | .node atom left middle right, pos, neg => do
    let l ← listProjBddInnerVal env k left (atom :: pos) neg
    let m ← listProjBddInnerVal env k middle pos neg
    let r ← listProjBddInnerVal env k right pos (atom :: neg)
    cast (do union ops l (← union ops m r))

def listProjInnerVal (env : Env) (t k : SemType) : EmptyM SemType :=
  match t with
  | .bits b => pure (if b &&& LIST ≠ 0 then .bits VAL else NEVER)
  | .complex c => do
    match ← cast (intSubtype k) with
    | none => return NEVER
    | some key =>
      let bdd ← cast (do (← getComplexSubtypeData c BT_LIST).toBdd)
      listProjBddInnerVal env key bdd [] []

end Source

/-! ## Members and their cells -/

/-- The types of members. They contain values and perhaps `UNDEF`, and the operations on them are
exact. -/
structure ListProjTypes [BddIdentity] (den : SemType → Set V) (Q : SemType → Prop) : Prop
    extends ExactTypes den Q where
  val : Q (.bits VAL)
  undef : Q (.bits UNDEF)
  defined : Disjoint (den (.bits VAL)) (den (.bits UNDEF))
  inner : ∀ {t : SemType}, Q t → den t ⊆ den (.bits VAL) ∪ den (.bits UNDEF)

theorem ListProjTypes.memberTypes [BddIdentity] {den : SemType → Set V} {Q : SemType → Prop}
    (hx : ListProjTypes den Q) : ListMemberTypes den Q Q where
  toLossyTypes := hx.toExactTypes.lossy
  inner_never := hx.never
  inner_union := hx.union
  diff_undef h := hx.diff h hx.undef
  val := hx.val
  defined := hx.defined

/-- The values of a cell, less `UNDEF`. -/
def valDen (den : SemType → Set V) (c : SemType) : Set V := cellDen den c \ den (.bits UNDEF)

/-- The types that the projection asks `isEmpty` of: those of members and of cells. -/
def Asked (Q : SemType → Prop) (t : SemType) : Prop := Q t ∨ CellOf Q t

/-- `b` is the right answer to `isEmpty(t)`. -/
def RightAnswer (den : SemType → Set V) (Q : SemType → Prop) (t : SemType) (b : Bool) : Prop :=
  (Q t → EmptyRight den t b) ∧ (CellOf Q t → EmptyRight (cellDen den) t b)

/-- `a` is an atom of the cell. -/
def CellNamed (c : CellAtomicType) (a : TypeAtom) : Prop := a.atomicType = c.toAtomicType

section Cells

variable {den : SemType → Set V} {Q : SemType → Prop}

theorem cellDen_of_inner {c ty : SemType} (h : cellInner c = some ty) : cellDen den c = den ty := by
  ext v
  refine ⟨fun ⟨ty', hty', hv⟩ => ?_, fun hv => ⟨ty, h, hv⟩⟩
  rw [h] at hty'
  cases hty'
  exact hv

theorem cellInner_atom {c : CellAtomicType} {a : TypeAtom} (h : CellNamed c a) :
    cellInner (atomSemType BT_CELL a.toAtom) = some c.ty := by
  unfold CellNamed at h
  unfold cellInner
  rw [TypeAtom.toAtom, h, CellTable.cellAtomicType_single]
  rfl

theorem cellContainingM_ensures {C : SemType → Prop} {A : SemType → Bool → Prop} (ty : SemType)
    (mutability : CellMutability) :
    (cellContainingM ty mutability).Ensures CellNamed C A fun c => cellInner c = some ty :=
  fun _ ha => cellInner_atom ha

variable [BddIdentity]

theorem cellInnerVal_spec (hx : ListProjTypes den Q) {c : SemType} (hc : CellOf Q c) :
    ∃ ty, cellInnerVal c = some ty ∧ Q ty ∧ den ty = valDen den c := by
  obtain ⟨inner, hinner, hQ⟩ := hc
  obtain ⟨ty, hty, hQty, hden⟩ := hx.diff hQ hx.undef
  refine ⟨ty, ?_, hQty, ?_⟩
  · unfold cellInnerVal
    rw [hinner]
    exact hty
  · unfold valDen
    rw [hden, cellDen_of_inner hinner]

/-- A cell without `UNDEF`. -/
def ValCell (den : SemType → Set V) (Q : SemType → Prop) (c : SemType) : Prop :=
  CellOf Q c ∧ cellDen den c = valDen den c

theorem cellContainingInnerVal_ensures (hx : ListProjTypes den Q) {C : SemType → Prop}
    {A : SemType → Bool → Prop} {c : SemType} (hc : CellOf Q c) :
    (cellContainingInnerVal c).Ensures CellNamed C A fun c' =>
      ValCell den Q c' ∧ valDen den c' = valDen den c := by
  obtain ⟨inner, hinner, hQ⟩ := hc
  obtain ⟨ty, hty, hQty, hden⟩ := hx.diff hQ hx.undef
  unfold cellInner at hinner
  obtain ⟨cat, hcat, rfl⟩ := Option.map_eq_some_iff.mp hinner
  have hcell : cellDen den c = den cat.ty := cellDen_of_inner hinner
  refine Prog.Ensures.ofOption hcat (Prog.Ensures.ofOption hty
    ((cellContainingM_ensures ty cat.mutability).imp fun c' hc' => ?_))
  have hcell' : cellDen den c' = den ty := cellDen_of_inner hc'
  have hval : valDen den c' = valDen den c := by
    unfold valDen
    rw [hcell', hden, hcell, Set.sdiff_sdiff, Set.union_self]
  refine ⟨⟨⟨ty, hc', hQty⟩, ?_⟩, hval⟩
  rw [hval, hcell', hden]
  unfold valDen
  rw [hcell]

end Cells

/-! ## The search -/

/-- A type with at least the values of `lo` and at most those of `hi`. -/
structure Between (den : SemType → Set V) (Q : SemType → Prop) (lo hi : Set V) (p : SemType) :
    Prop where
  type : Q p
  least : lo ⊆ den p
  most : den p ⊆ hi

section Search

variable [BddIdentity] {den : SemType → Set V} {Q : SemType → Prop} {indices : List Int}
  {next : List SemType → Nat → EmptyM SemType} {lo : List SemType → Nat → Set V}
  {hi : List SemType → Set V}

theorem Between.union (hx : ListProjTypes den Q) {p q : SemType} (hp : Q p) {lo' hi' : Set V}
    (hq : Between den Q lo' hi' q) (hple : den p ⊆ hi') :
    ∃ r, Types.union ops p q = some r ∧ Between den Q (den p ∪ lo') hi' r := by
  obtain ⟨r, hr, hQ, hden⟩ := hx.union hp hq.type
  refine ⟨r, hr, hQ, ?_, ?_⟩
  · rw [hden]
    exact Set.union_subset_union_right _ hq.least
  · rw [hden]
    exact Set.union_subset hple hq.most

/-- The shorter lists contribute what `next` finds for them. -/
theorem listProjShorter_ensures (hx : ListProjTypes den Q)
    (hnext : ∀ types n, Searchable (valDen den) (CellOf Q) indices types n →
      (next types n).Ensures CellNamed (Asked Q) (RightAnswer den Q)
        (Between den Q (lo types n) (hi types)))
    (hsorted : indices.Pairwise (· < ·)) {memberTypes : List SemType} {nRequired : Nat}
    (hs : Searchable (valDen den) (CellOf Q) indices memberTypes nRequired)
    (hmono : ∀ i, hi (memberTypes.take i) ⊆ hi memberTypes) (negLen : Int) :
    ∀ (is : List Nat) (p : SemType), is.Pairwise (· < ·) →
      (∀ i ∈ is, nRequired ≤ i ∧ i < memberTypes.length) → Q p → den p ⊆ hi memberTypes →
      (listProjShorter next indices memberTypes nRequired negLen is p).Ensures CellNamed (Asked Q)
        (RightAnswer den Q) (Between den Q (den p ∪ {v | ∃ i ∈ is, ∃ x, indices[i]? = some x ∧
          x < negLen ∧ v ∈ lo (memberTypes.take i) nRequired}) (hi memberTypes))
  | [], p, _, _, hp, hple => by
    refine ⟨hp, ?_, hple⟩
    intro v hv
    rcases hv with hv | ⟨i, hi, _⟩
    · exact hv
    · exact absurd hi List.not_mem_nil
  | i :: is, p, his, hbound, hp, hple => by
    obtain ⟨hlt, his⟩ := List.pairwise_cons.mp his
    obtain ⟨hi1, hi2⟩ := hbound i (.head _)
    have hlen := hs.length
    have hidx : indices[i]? = some indices[i] := List.getElem?_eq_getElem (by omega)
    refine Prog.Ensures.ofOption hidx ?_
    split
    next hge =>
      -- all further samples are too far as well
      refine ⟨hp, ?_, hple⟩
      intro v hv
      rcases hv with hv | ⟨j, hj, x, hjx, hxlt, _⟩
      · exact hv
      · have hij : i ≤ j := by
          rcases List.mem_cons.mp hj with heq | hj
          · exact heq ▸ Nat.le_refl _
          · exact Nat.le_of_lt (hlt j hj)
        have := le_of_getElem?_le hsorted hidx hjx hij
        omega
    next hge =>
      refine (hnext _ _ (hs.take hi1 (Nat.le_of_lt hi2))).bind fun q hq => ?_
      have hq' : Between den Q (lo (memberTypes.take i) nRequired) (hi memberTypes) q :=
        ⟨hq.type, hq.least, hq.most.trans (hmono i)⟩
      obtain ⟨r, hr, hbetween⟩ := Between.union hx hp hq' hple
      refine Prog.Ensures.ofOption hr ?_
      refine (listProjShorter_ensures hx hnext hsorted hs hmono negLen is r his
        (fun j hj => hbound j (.tail _ hj)) hbetween.type hbetween.most).imp
          fun r' hr' => ⟨hr'.type, ?_, hr'.most⟩
      intro v hv
      rcases hv with hv | ⟨j, hj, x, hjx, hxlt, hv⟩
      · exact hr'.least (.inl (hbetween.least (.inl hv)))
      · rcases List.mem_cons.mp hj with heq | hj
        · rw [heq] at hv
          exact hr'.least (.inl (hbetween.least (.inr hv)))
        · exact hr'.least (.inr ⟨j, hj, x, hjx, hxlt, hv⟩)

/-- The samples `i` whose member can be outside the negative, with what is found when it is. -/
def OutsideAt (den : SemType → Set V) (lo : List SemType → Nat → Set V) (nt : ListAtomicType)
    (indices : List Int) (memberTypes : List SemType) (nRequired i : Nat) : Set V :=
  {v | ∃ t x u, memberTypes[i]? = some t ∧ indices[i]? = some x ∧
    listMemberAt nt.members nt.rest x = some u ∧ (valDen den t \ valDen den u).Nonempty ∧
    ∀ c, valDen den c = valDen den t \ valDen den u →
      v ∈ lo (memberTypes.set i c) (max nRequired (i + 1))}

/-- A member outside the negative contributes what `next` finds for it. -/
theorem listProjMember_ensures (hx : ListProjTypes den Q)
    (hnext : ∀ types n, Searchable (valDen den) (CellOf Q) indices types n →
      (next types n).Ensures CellNamed (Asked Q) (RightAnswer den Q)
        (Between den Q (lo types n) (hi types)))
    (hnonneg : ∀ x ∈ indices, 0 ≤ x) {nt : ListAtomicType} (hnt : nt.Over (CellOf Q))
    {memberTypes : List SemType} {nRequired : Nat}
    (hs : Searchable (valDen den) (CellOf Q) indices memberTypes nRequired)
    (hmono : ∀ i t c, memberTypes[i]? = some t → valDen den c ⊆ valDen den t →
      hi (memberTypes.set i c) ⊆ hi memberTypes) :
    ∀ (is : List Nat) (p : SemType), (∀ i ∈ is, i < memberTypes.length) → Q p →
      den p ⊆ hi memberTypes →
      (listProjMember next nt indices memberTypes nRequired is p).Ensures CellNamed (Asked Q)
        (RightAnswer den Q) (Between den Q (den p ∪ {v | ∃ i ∈ is,
          v ∈ OutsideAt den lo nt indices memberTypes nRequired i}) (hi memberTypes))
  | [], p, _, hp, hple => by
    refine ⟨hp, ?_, hple⟩
    intro v hv
    rcases hv with hv | ⟨i, hi, _⟩
    · exact hv
    · exact absurd hi List.not_mem_nil
  | i :: is, p, hbound, hp, hple => by
    have hilt := hbound i (.head _)
    have hlen := hs.length
    have hidx : indices[i]? = some indices[i] := List.getElem?_eq_getElem (by omega)
    have ht : memberTypes[i]? = some memberTypes[i] := List.getElem?_eq_getElem hilt
    obtain ⟨u, hu, huCell⟩ := hnt.memberAt (hnonneg _ (List.mem_of_getElem? hidx))
    obtain ⟨ty, hty, hQty, hdenty⟩ := cellInnerVal_spec hx (hs.cell _ (List.mem_of_getElem? ht))
    obtain ⟨uty, huty, hQuty, hdenuty⟩ := cellInnerVal_spec hx huCell
    obtain ⟨d, hd, hQd, hdend⟩ := hx.diff hQty hQuty
    have hinner : (do cellInnerVal (← memberTypes[i]?)) = some ty := by
      rw [ht]
      exact hty
    have huinner : (do listMemberAtInnerVal nt.members nt.rest (← indices[i]?)) = some uty := by
      rw [hidx]
      show listMemberAtInnerVal nt.members nt.rest indices[i] = _
      unfold listMemberAtInnerVal
      rw [hu]
      exact huty
    rw [hdenty, hdenuty] at hdend
    have htail : ∀ j ∈ is, j < memberTypes.length := fun j hj => hbound j (.tail _ hj)
    refine Prog.Ensures.ofOption hinner (Prog.Ensures.ofOption huinner
      (Prog.Ensures.ofOption hd ⟨.inl hQd, fun b hb => ?_⟩))
    have hempty := hb.1 hQd
    cases b with
    | true =>
      refine (listProjMember_ensures hx hnext hnonneg hnt hs hmono is p htail hp hple).imp
        fun r hr => ⟨hr.type, ?_, hr.most⟩
      intro v hv
      rcases hv with hv | ⟨j, hj, hv⟩
      · exact hr.least (.inl hv)
      · rcases List.mem_cons.mp hj with heq | hj
        · -- nothing is outside the negative here
          obtain ⟨t', x', u', ht', hidx', hu', hne, _⟩ := hv
          rw [heq, ht] at ht'
          rw [heq, hidx] at hidx'
          cases ht'
          cases hidx'
          rw [hu] at hu'
          cases hu'
          rw [← hdend, hempty.mp rfl] at hne
          exact absurd hne Set.not_nonempty_empty
        · exact hr.least (.inr ⟨j, hj, hv⟩)
    | false =>
      have hne : (den d).Nonempty := Set.nonempty_iff_ne_empty.mpr fun h =>
        Bool.false_ne_true (hempty.mpr h)
      refine (cellContainingM_ensures d .limited).bind fun c hc => ?_
      have hcell : cellDen den c = den d := cellDen_of_inner hc
      have hval : valDen den c = valDen den memberTypes[i] \ valDen den u := by
        have htwice : valDen den memberTypes[i] \ den (.bits UNDEF) = valDen den memberTypes[i] := by
          unfold valDen
          rw [Set.sdiff_sdiff, Set.union_self]
        show cellDen den c \ den (.bits UNDEF) = _
        rw [hcell, hdend, Set.sdiff_sdiff_comm, htwice]
      have hle : valDen den c ⊆ valDen den memberTypes[i] := by
        rw [hval]
        exact Set.sdiff_subset
      have hcne : (valDen den c).Nonempty := by
        rw [hval, ← hdend]
        exact hne
      refine (hnext _ _ (hs.set hilt ⟨d, hc, hQd⟩ hcne)).bind fun q hq => ?_
      have hq' : Between den Q (lo (memberTypes.set i c) (max nRequired (i + 1))) (hi memberTypes) q :=
        ⟨hq.type, hq.least, hq.most.trans (hmono i _ c ht hle)⟩
      obtain ⟨r, hr, hbetween⟩ := Between.union hx hp hq' hple
      refine Prog.Ensures.ofOption hr ?_
      refine (listProjMember_ensures hx hnext hnonneg hnt hs hmono is r htail hbetween.type
        hbetween.most).imp fun r' hr' => ⟨hr'.type, ?_, hr'.most⟩
      intro v hv
      rcases hv with hv | ⟨j, hj, hv⟩
      · exact hr'.least (.inl (hbetween.least (.inl hv)))
      · rcases List.mem_cons.mp hj with heq | hj
        · obtain ⟨t', x', u', ht', hidx', hu', _, hv⟩ := hv
          rw [heq] at ht' hidx' hv
          rw [ht] at ht'
          rw [hidx] at hidx'
          cases ht'
          cases hidx'
          rw [hu] at hu'
          cases hu'
          exact hr'.least (.inl (hbetween.least (.inr (hv c hval))))
        · exact hr'.least (.inr ⟨j, hj, hv⟩)

/-- The members that a sampled list that avoids the negatives can have at the samples of the key. -/
def SampledAt (den : SemType → Set V) (env : Env) (indices : List Int) (keyIndices : List Nat)
    (neg : List Atom) (memberTypes : List SemType) (nRequired : Nat) : Set V :=
  {v | ∃ w, Sampled (valDen den) memberTypes nRequired w ∧
    (∀ atom ∈ neg, ∃ nt, env.listAtomType atom = some nt ∧ Avoids (valDen den) indices w nt) ∧
    ∃ k ∈ keyIndices, w[k]? = some v}

/-- The members that the types allow at the samples of the key. -/
def AllowedAt (den : SemType → Set V) (keyIndices : List Nat) (memberTypes : List SemType) : Set V :=
  {v | ∃ k ∈ keyIndices, ∃ t, memberTypes[k]? = some t ∧ v ∈ valDen den t}

section Allowed

omit [BddIdentity]

variable {keyIndices : List Nat} {memberTypes : List SemType} {nRequired : Nat}

theorem allowedAt_take (i : Nat) :
    AllowedAt den keyIndices (memberTypes.take i) ⊆ AllowedAt den keyIndices memberTypes := by
  intro v hv
  obtain ⟨k, hk, t, ht, hv⟩ := hv
  refine ⟨k, hk, t, ?_, hv⟩
  have hlt := (List.getElem?_eq_some_iff.mp ht).1
  rw [List.length_take] at hlt
  rw [← ht, List.getElem?_take_of_lt (by omega)]

theorem allowedAt_set {i : Nat} {t c : SemType} (ht : memberTypes[i]? = some t)
    (hle : valDen den c ⊆ valDen den t) :
    AllowedAt den keyIndices (memberTypes.set i c) ⊆ AllowedAt den keyIndices memberTypes := by
  intro v hv
  obtain ⟨k, hk, t', ht', hv⟩ := hv
  by_cases hki : i = k
  · rw [← hki] at hk ht'
    rw [List.getElem?_set_self (List.getElem?_eq_some_iff.mp ht).1] at ht'
    cases ht'
    exact ⟨i, hk, t, ht, hle hv⟩
  · rw [List.getElem?_set_ne hki] at ht'
    exact ⟨k, hk, t', ht', hv⟩

/-- A sampled list that avoids one negative more is found for the others. -/
theorem sampledAt_tail {env : Env} {atom : Atom} {neg : List Atom} :
    SampledAt den env indices keyIndices (atom :: neg) memberTypes nRequired ⊆
      SampledAt den env indices keyIndices neg memberTypes nRequired := by
  intro v hv
  obtain ⟨w, hw, havoid, hkey⟩ := hv
  exact ⟨w, hw, fun a ha => havoid a (.tail _ ha), hkey⟩

/-- Where the positive may be as long as the negative, a sampled list that avoids the negative is
shorter than it or has a member outside it. -/
theorem sampledAt_cases {env : Env} {atom : Atom} {neg : List Atom} {nt : ListAtomicType}
    (hnt : env.listAtomType atom = some nt)
    (hlong : ∀ x, indices[memberTypes.length]? = some x → ¬ x < nt.members.fixedLength) {v : V}
    (hv : v ∈ SampledAt den env indices keyIndices (atom :: neg) memberTypes nRequired) :
    (∃ i ∈ List.range' nRequired (memberTypes.length - nRequired), ∃ x, indices[i]? = some x ∧
      x < nt.members.fixedLength ∧
      v ∈ SampledAt den env indices keyIndices neg (memberTypes.take i) nRequired) ∨
    ∃ i ∈ List.range memberTypes.length,
      v ∈ OutsideAt den (SampledAt den env indices keyIndices neg) nt indices memberTypes nRequired i := by
  obtain ⟨w, hw, havoid, hkey⟩ := hv
  obtain ⟨nt', hnt', hatom⟩ := havoid atom (.head _)
  rw [hnt] at hnt'
  cases hnt'
  have hneg := fun a ha => havoid a (.tail atom ha)
  have hwreq := hw.required
  have hwlen := hw.length
  rcases hatom with ⟨x, hidx, hlt⟩ | ⟨j, v', x, u, hv', hidx, hu, hvu⟩
  · refine .inl ⟨w.length, ?_, x, hidx, hlt, w, Sampled.take.mpr ⟨hw, Nat.le_refl _⟩, hneg, hkey⟩
    have hne : w.length ≠ memberTypes.length := fun heq => hlong x (heq ▸ hidx) hlt
    rw [List.mem_range'_1]
    omega
  · have hj := (List.getElem?_eq_some_iff.mp hv').1
    have ht : memberTypes[j]? = some memberTypes[j] := List.getElem?_eq_getElem (by omega)
    refine .inr ⟨j, List.mem_range.mpr (by omega), _, x, u, ht, hidx, hu, ?_, fun c hc => ?_⟩
    · exact ⟨v', hw.mem j v' _ hv' ht, hvu⟩
    · exact ⟨w, (Sampled.set ht hc).mpr ⟨hw, v', hv', hvu⟩, hneg, hkey⟩

end Allowed

theorem unionKeyMembers_spec (hx : ListProjTypes den Q) {memberTypes : List SemType}
    (hcell : ∀ t ∈ memberTypes, CellOf Q t) : ∀ (keyIndices : List Nat) (p : SemType), Q p →
      ∃ r, unionKeyMembers memberTypes keyIndices p = some r ∧ Q r ∧
        den r = den p ∪ AllowedAt den keyIndices memberTypes
  | [], p, hp => by
    refine ⟨p, rfl, hp, ?_⟩
    have hnone : AllowedAt den [] memberTypes = ∅ := by
      rw [Set.eq_empty_iff_forall_notMem]
      intro v ⟨k, hk, _⟩
      exact absurd hk List.not_mem_nil
    rw [hnone, Set.union_empty]
  | k :: keyIndices, p, hp => by
    unfold unionKeyMembers
    cases hget : memberTypes[k]? with
    | none =>
      obtain ⟨r, hr, hQ, hden⟩ := unionKeyMembers_spec hx hcell keyIndices p hp
      refine ⟨r, hr, hQ, ?_⟩
      rw [hden]
      refine congrArg _ (Set.ext fun v => ⟨fun ⟨j, hj, h⟩ => ⟨j, .tail _ hj, h⟩, ?_⟩)
      intro ⟨j, hj, t, ht, hv⟩
      rcases List.mem_cons.mp hj with heq | hj
      · rw [heq, hget] at ht
        cases ht
      · exact ⟨j, hj, t, ht, hv⟩
    | some t =>
      obtain ⟨ty, hty, hQty, hdenty⟩ := cellInnerVal_spec hx (hcell t (List.mem_of_getElem? hget))
      obtain ⟨q, hq, hQq, hdenq⟩ := hx.union hp hQty
      obtain ⟨r, hr, hQ, hden⟩ := unionKeyMembers_spec hx hcell keyIndices q hQq
      refine ⟨r, ?_, hQ, ?_⟩
      · show (do unionKeyMembers memberTypes keyIndices (← union ops p (← cellInnerVal t))) = _
        rw [hty]
        show (do unionKeyMembers memberTypes keyIndices (← union ops p ty)) = _
        rw [hq]
        exact hr
      · rw [hden, hdenq, hdenty, Set.union_assoc]
        refine congrArg _ (Set.ext fun v => ⟨fun hv => ?_, fun ⟨j, hj, t', ht', hv⟩ => ?_⟩)
        · rcases hv with hv | ⟨j, hj, h⟩
          · exact ⟨k, .head _, t, hget, hv⟩
          · exact ⟨j, .tail _ hj, h⟩
        · rcases List.mem_cons.mp hj with heq | hj
          · rw [heq, hget] at ht'
            cases ht'
            exact .inl hv
          · exact .inr ⟨j, hj, t', ht', hv⟩

/-- The search finds every member that a sampled list that avoids the negatives has at a sample of
the key, and only members that the types of these samples allow. -/
theorem listProjExclude_ensures (hx : ListProjTypes den Q) (hsorted : indices.Pairwise (· < ·))
    (hnonneg : ∀ x ∈ indices, 0 ≤ x) {env : Env} (keyIndices : List Nat) :
    ∀ (neg : List Atom) (memberTypes : List SemType) (nRequired : Nat),
      env.ListsOver (CellOf Q) neg → Searchable (valDen den) (CellOf Q) indices memberTypes nRequired →
      (listProjExcludeInnerVal env indices keyIndices neg memberTypes nRequired).Ensures CellNamed
        (Asked Q) (RightAnswer den Q) (Between den Q
          (SampledAt den env indices keyIndices neg memberTypes nRequired)
          (AllowedAt den keyIndices memberTypes))
  | [], memberTypes, nRequired, _, hs => by
    obtain ⟨r, hr, hQ, hden⟩ := unionKeyMembers_spec hx hs.cell keyIndices NEVER hx.never
    rw [hx.den_never, Set.empty_union] at hden
    have hbetween : Between den Q (SampledAt den env indices keyIndices [] memberTypes nRequired)
        (AllowedAt den keyIndices memberTypes) r := by
      refine ⟨hQ, ?_, hden.subset⟩
      rw [hden]
      intro v ⟨w, hw, _, k, hk, hv⟩
      have hlt := (List.getElem?_eq_some_iff.mp hv).1
      have hwlen := hw.length
      have ht : memberTypes[k]? = some memberTypes[k] := List.getElem?_eq_getElem (by omega)
      exact ⟨k, hk, _, ht, hw.mem k v _ hv ht⟩
    show (Prog.ofOption (unionKeyMembers memberTypes keyIndices NEVER)).Ensures _ _ _ _
    rw [hr]
    exact hbetween
  | atom :: neg, memberTypes, nRequired, hneg, hs => by
    obtain ⟨nt, hnt, hover⟩ := hneg atom (.head _)
    have hlen := hs.length
    have hreq := hs.required
    have hnext := fun types n => listProjExclude_ensures hx hsorted hnonneg keyIndices neg types n
      fun a ha => hneg a (.tail _ ha)
    -- without the negative even more is found
    have hsame : (listProjExcludeInnerVal env indices keyIndices neg memberTypes nRequired).Ensures
        CellNamed (Asked Q) (RightAnswer den Q) (Between den Q
          (SampledAt den env indices keyIndices (atom :: neg) memberTypes nRequired)
          (AllowedAt den keyIndices memberTypes)) :=
      (hnext memberTypes nRequired hs).imp fun r hr => ⟨hr.type, sampledAt_tail.trans hr.least, hr.most⟩
    rw [listProjExcludeInnerVal]
    refine Prog.Ensures.ofOption hnt ?_
    have hskip : ∃ skip, (if nRequired > 0 then do
        let last ← indices[nRequired - 1]?
        return decide ((← listMemberAtInnerVal nt.members nt.rest last) = NEVER)
      else some false) = some skip := by
      by_cases hpos : nRequired > 0
      · have hidx : indices[nRequired - 1]? = some indices[nRequired - 1] :=
          List.getElem?_eq_getElem (by omega)
        obtain ⟨u, hu, huCell⟩ := hover.memberAt (hnonneg _ (List.mem_of_getElem? hidx))
        obtain ⟨ty, hty, _⟩ := cellInnerVal_spec hx huCell
        refine ⟨decide (ty = NEVER), ?_⟩
        rw [if_pos hpos, hidx]
        show (do return decide ((← listMemberAtInnerVal _ _ _) = NEVER)) = _
        unfold listMemberAtInnerVal
        rw [hu]
        show (do return decide ((← cellInnerVal u) = NEVER)) = _
        rw [hty]
        rfl
      · exact ⟨false, if_neg hpos⟩
    obtain ⟨skip, hskip⟩ := hskip
    refine Prog.Ensures.ofOption hskip ?_
    cases skip with
    | true => exact hsame
    | false =>
      have hshort : ∃ short, (if nt.members.fixedLength > 0 ∧ memberTypes.length < indices.length then do
          return decide ((← indices[memberTypes.length]?) < nt.members.fixedLength)
        else some false) = some short ∧ (short = false → ∀ x,
          indices[memberTypes.length]? = some x → ¬ x < nt.members.fixedLength) := by
        by_cases h : nt.members.fixedLength > 0 ∧ memberTypes.length < indices.length
        · have hidx : indices[memberTypes.length]? = some indices[memberTypes.length] :=
            List.getElem?_eq_getElem h.2
          refine ⟨decide (indices[memberTypes.length] < nt.members.fixedLength), ?_, ?_⟩
          · rw [if_pos h, hidx]
            rfl
          · intro hfalse x hx'
            rw [hidx] at hx'
            cases hx'
            exact of_decide_eq_false hfalse
        · refine ⟨false, if_neg h, fun _ x hidx hlt => h ?_⟩
          have := hnonneg x (List.mem_of_getElem? hidx)
          exact ⟨by omega, (List.getElem?_eq_some_iff.mp hidx).1⟩
      obtain ⟨short, hshort, hlong⟩ := hshort
      refine Prog.Ensures.ofOption hshort ?_
      cases short with
      | true => exact hsame
      | false =>
        have hmember := fun p hp hple => listProjMember_ensures hx hnext hnonneg hover hs
          (fun i t c ht hle => allowedAt_set ht hle) (List.range memberTypes.length) p
          (fun i hi => List.mem_range.mp hi) hp hple
        show (if nt.members.fixedLength > 0 then _ else _ : EmptyM SemType).Ensures _ _ _ _
        split
        next =>
          refine (listProjShorter_ensures hx hnext hsorted hs (fun i => allowedAt_take i)
            nt.members.fixedLength _ NEVER (List.pairwise_lt_range' 1 (by omega)) (fun i hi => ?_)
            hx.never (hx.den_never ▸ Set.empty_subset _)).bind fun p hp => ?_
          · rw [List.mem_range'_1] at hi
            omega
          · refine (hmember p hp.type hp.most).imp fun r hr => ⟨hr.type, ?_, hr.most⟩
            intro v hv
            rcases sampledAt_cases hnt (hlong rfl) hv with hv | hv
            · exact hr.least (.inl (hp.least (.inr hv)))
            · exact hr.least (.inr hv)
        next hzero =>
          refine (hmember NEVER hx.never (hx.den_never ▸ Set.empty_subset _)).imp fun r hr =>
            ⟨hr.type, ?_, hr.most⟩
          intro v hv
          rcases sampledAt_cases hnt (hlong rfl) hv with ⟨i, _, x, hidx, hlt, _⟩ | hv
          · have := hnonneg x (List.mem_of_getElem? hidx)
            omega
          · exact hr.least (.inr hv)

end Search

end Nballerina.Types
