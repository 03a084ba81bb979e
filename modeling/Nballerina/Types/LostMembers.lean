import Nballerina.Types.Comparable

/-!
# A list type that loses its members

The lists of ints `1..10` that are lists of `1..3|5..7` and lists of `5..7`: the intersection of the
first two loses `5..7`, and so there is nothing left for the members of the three
(`listMemberTypeInnerVal_lost`). The type is then comparable with itself without any look at the members
(`comparable_lost`).
-/

namespace Nballerina.Types

open Nballerina.Lib

def lostAtoms : List Atom :=
  [arrayAtom 0 (intsOrUndef [⟨1, 10⟩]), arrayAtom 1 (intsOrUndef [⟨1, 3⟩, ⟨5, 7⟩]),
    arrayAtom 2 (intsOrUndef [⟨5, 7⟩])]

def lostBdd : Bdd := bddAll lostAtoms (.leaf true)

def lostMembers : SemType := listType lostBdd

/-- The lists of ints from 5 to 7 belong to it. -/
theorem listOf_lostMembers {n : Int} (hn : 5 ≤ n ∧ n ≤ 7) : ListOf intsDen Env.init lostMembers [n] := by
  refine ⟨fun v _ => ⟨.bool true, rfl, rfl⟩, lostBdd, listBdd_listType _,
    (holds_bddAll _ _).mpr ⟨fun atom ha => ?_, rfl⟩⟩
  have hmember : ∀ {i : Nat} {ranges : List Range}, rangesHave ranges n →
      Env.init.ListContains (cellDen intsDen) [n] (arrayAtom i (intsOrUndef ranges)) := by
    intro i ranges h
    refine listContains_arrayAtom fun v hv => ?_
    rw [List.mem_singleton.mp hv]
    exact mem_intsDen_intsOrUndef h
  simp only [lostAtoms, List.mem_cons, List.not_mem_nil, or_false] at ha
  rcases ha with rfl | rfl | rfl
  · have hrange : (1 : Int) ≤ n ∧ n ≤ 10 := by omega
    exact hmember ⟨⟨1, 10⟩, .head _, hrange⟩
  · exact hmember ⟨⟨5, 7⟩, .tail _ (.head _), hn⟩
  · exact hmember ⟨_, .head _, hn⟩

section Lost

variable [BddIdentity]

theorem intersect_ints_disjoint {v v' : List Range} (h : rangeListIntersect v v' = []) :
    intersect ops (ints v) (ints v') = some NEVER := by
  have hdata : intersectData ops BT_INT (some (.int v)) (some (.int v')) = some (.bool false) := by
    show intSubtypeIntersect (.int v) (.int v') = _
    unfold intSubtypeIntersect
    dsimp only
    rw [h]
    rfl
  have hloop : intersectLoop ops [(BT_INT, some (.int v), some (.int v'))] [] = some [] := by
    unfold intersectLoop
    rw [hdata]
    rfl
  exact intersect_ints_loop hloop

/-- Nothing is left, whatever the key. -/
theorem bddMemberType_lost {memberType : Atom → Option SemType}
    (h : ∀ i ranges, memberType (arrayAtom i (intsOrUndef ranges)) = some (ints ranges)) :
    bddMemberType memberType lostBdd (.bits VAL) = some NEVER := by
  have hfirst : rangeListIntersect [⟨1, 3⟩, ⟨5, 7⟩] [⟨1, 10⟩] = [⟨1, 3⟩] := by
    simp [rangeListIntersect, rangeIntersect]
  have hsecond : rangeListIntersect [⟨5, 7⟩] [⟨1, 3⟩] = [] := by
    simp [rangeListIntersect, rangeIntersect]
  have hleaf : ∀ accum, bddMemberType memberType (.leaf true) accum = some accum := fun _ => rfl
  have hnever : ∀ accum, bddMemberType memberType (.leaf false) accum = some NEVER := fun _ => rfl
  have hboth : union ops NEVER NEVER = some NEVER := rfl
  have hnode : ∀ (atom : Atom) (left : Bdd) (accum ty s : SemType), memberType atom = some ty →
      intersect ops ty accum = some s → bddMemberType memberType left s = some NEVER →
      bddMemberType memberType (.node atom left (.leaf false) (.leaf false)) accum = some NEVER := by
    intro atom left accum ty s hty hs hl
    exact bddMemberType_node hty hs hl (hnever _) (hnever _) hboth
  exact hnode _ _ _ _ _ (h 0 _) rfl (hnode _ _ _ _ _ (h 1 _) (intersect_ints hfirst)
    (hnode _ _ _ _ _ (h 2 _) (intersect_ints_disjoint hsecond) (hleaf _)))

theorem listMemberTypeInnerVal_lost (env : Env) :
    listMemberTypeInnerVal env lostMembers (.bits INT) = some NEVER := by
  refine (listMemberTypeInnerVal_listType env lostBdd).trans (bddMemberType_lost fun i ranges => ?_)
  exact listAtomMemberType_arrayAtom (diff_intsOrUndef ranges)

/-- The ranges of the members are those of any array. -/
theorem bddListAllRanges_lost (env : Env) : bddListAllRanges env lostBdd [] = some [⟨0, intMaxValue⟩] := by
  have hatom : ∀ i ranges, listAtomicTypeAllMemberTypesInnerVal ⟨⟨[], 0⟩, cellOf i (intsOrUndef ranges)⟩ =
      some ([⟨0, intMaxValue⟩], [ints ranges]) := by
    intro i ranges
    have hcell : cellInner (cellOf i (intsOrUndef ranges)) = some (intsOrUndef ranges) := cellInner_cellOf i _
    unfold listAtomicTypeAllMemberTypesInnerVal cellInnerVal
    dsimp only
    rw [hcell]
    show (do
      let restType ← diff ops (intsOrUndef ranges) (.bits UNDEF)
      _) = _
    rw [diff_intsOrUndef]
    rfl
  have hfirst : distinctRanges [⟨0, intMaxValue⟩] [] = [⟨0, intMaxValue⟩] := by
    unfold distinctRanges
    rw [combineRanges_left]
    rfl
  have hagain : distinctRanges [⟨0, intMaxValue⟩] [⟨0, intMaxValue⟩] = [⟨0, intMaxValue⟩] := by
    unfold distinctRanges
    rw [combineRanges_both]
    rfl
  have hnode : ∀ (i : Nat) (ranges accum : List Range) (left : Bdd),
      distinctRanges [⟨0, intMaxValue⟩] accum = [⟨0, intMaxValue⟩] →
      bddListAllRanges env left [⟨0, intMaxValue⟩] = some [⟨0, intMaxValue⟩] →
      bddListAllRanges env (.node (arrayAtom i (intsOrUndef ranges)) left (.leaf false) (.leaf false)) accum =
        some [⟨0, intMaxValue⟩] := by
    intro i ranges accum left haccum hleft
    show (do
      let members ← listAtomicTypeAllMemberTypesInnerVal ⟨⟨[], 0⟩, cellOf i (intsOrUndef ranges)⟩
      let l ← bddListAllRanges env left (distinctRanges members.1 accum)
      let m ← some []
      let r ← some []
      some (distinctRanges l (distinctRanges m r))) = _
    rw [hatom]
    show (do
      let l ← bddListAllRanges env left (distinctRanges [⟨0, intMaxValue⟩] accum)
      some (distinctRanges l (distinctRanges [] []))) = _
    rw [haccum, hleft]
    show some (distinctRanges [⟨0, intMaxValue⟩] (distinctRanges [] [])) = _
    rw [distinctRanges_nil, hfirst]
  exact hnode _ _ _ _ hfirst (hnode _ _ _ _ hagain (hnode _ _ _ _ hagain rfl))

theorem listAllMemberTypesInner_lost (env : Env) : listAllMemberTypesInner env lostMembers = some ([], []) := by
  have hmember : listMemberTypeInnerVal env lostMembers (intConst 0) = some NEVER := by
    refine (listMemberTypeInnerVal_intConst (listBdd_listType lostBdd) 0).trans
      (bddMemberType_lost fun i ranges => ?_)
    have hunion : union ops NEVER (intsOrUndef ranges) = some (intsOrUndef ranges) := rfl
    have hsingle : env.listAtomMemberType (.ranges [⟨(0 : Nat), (0 : Nat)⟩]) (arrayAtom i (intsOrUndef ranges)) =
        some (ints ranges) := listAtomMemberType_single hunion (diff_intsOrUndef ranges)
    exact hsingle
  refine (listAllMemberTypesInner_complex (listBdd_listType lostBdd)).trans ?_
  rw [bddListAllRanges_lost]
  show rangeMemberTypes env lostMembers [⟨0, intMaxValue⟩] = _
  unfold rangeMemberTypes
  rw [hmember]
  rfl

end Lost

/-- So no members are compared. -/
theorem comparable_lost :
    let _ := BddIdentity.shared
    ∃ memo', comparable Env.init 1 lostMembers lostMembers (fun _ => none) = some (some (), memo') := by
  intro _
  have hunion : union ops lostMembers lostMembers = some lostMembers := union_list rfl
  have hdiff : diff ops lostMembers (.bits NIL) = some lostMembers := diff_list_nil _
  have hdirect : comparableSimple (lostMembers, lostMembers) = some none := by
    unfold comparableSimple
    dsimp only
    rw [hunion]
    show (do
      let semType ← diff ops lostMembers (.bits NIL)
      _) = _
    rw [hdiff]
    rfl
  have hcombine : combineRanges [] [] = [] := by
    unfold combineRanges
    rw [combineRangesLoop]
    rfl
  have hexpand : comparableNillableList Env.init (lostMembers, lostMembers) = some (.all [] fun _ => ()) := by
    unfold comparableNillableList
    dsimp only
    rw [listAllMemberTypesInner_lost]
    show (do
      let pairs ← comparablePairs [] [] (combineRanges [] [])
      some (SearchStep.all pairs fun _ => ())) = _
    rw [hcombine]
    rfl
  exact ⟨_, StrictSearch.eval_new hdirect rfl hexpand rfl⟩

end Nballerina.Types
