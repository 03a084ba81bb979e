import Nballerina.Lib.Halts
import Nballerina.Types.Bdd

/-!
# Termination of the operations on `Bdd`s

The functions of `bdd.bal` as they call each other, with a bound on the depth of the calls
(`bddUnionCalls` and so on). Whatever the operands, some depth is enough, and the result is that of the
model without a bound (`bddOperations_terminate`).

`bddCreate` takes the union of two results again. The union has no more nodes than its operands together,
so that both are smaller than the node that would have been made of them; the order of the atoms plays no
part.
-/

namespace Nballerina.Types

open Nballerina.Lib

section Calls

variable [BddIdentity]

mutual

def bddUnionCalls : Nat → Bdd → Bdd → Option Bdd
  | 0, _, _ => none
  | fuel + 1, b1, b2 =>
    if BddIdentity.same b1 b2 then some b1
    else match b1, b2 with
      | .leaf b, b2 => some (if b then .leaf true else b2)
      | b1, .leaf b => some (if b then .leaf true else b1)
      | .node a1 l1 m1 r1, .node a2 l2 m2 r2 =>
        if atomCmp a1 a2 < 0 then do
          let middle ← bddUnionCalls fuel m1 (.node a2 l2 m2 r2)
          bddCreateCalls fuel a1 l1 middle r1
        else if atomCmp a1 a2 > 0 then do
          let middle ← bddUnionCalls fuel (.node a1 l1 m1 r1) m2
          bddCreateCalls fuel a2 l2 middle r2
        else do
          let left ← bddUnionCalls fuel l1 l2
          let middle ← bddUnionCalls fuel m1 m2
          let right ← bddUnionCalls fuel r1 r2
          bddCreateCalls fuel a1 left middle right

def bddCreateCalls : Nat → Atom → Bdd → Bdd → Bdd → Option Bdd
  | 0, _, _, _, _ => none
  | fuel + 1, atom, left, middle, right =>
    if middle = .leaf true then some (.leaf true)
    else if left = right then bddUnionCalls fuel left middle
    else some (.node atom left middle right)

end

def bddIntersectCalls : Nat → Bdd → Bdd → Option Bdd
  | 0, _, _ => none
  | fuel + 1, b1, b2 =>
    if BddIdentity.same b1 b2 then some b1
    else match b1, b2 with
      | .leaf b, b2 => some (if b then b2 else .leaf false)
      | b1, .leaf b => some (if b then b1 else .leaf false)
      | .node a1 l1 m1 r1, .node a2 l2 m2 r2 =>
        if atomCmp a1 a2 < 0 then do
          let left ← bddIntersectCalls fuel l1 (.node a2 l2 m2 r2)
          let middle ← bddIntersectCalls fuel m1 (.node a2 l2 m2 r2)
          let right ← bddIntersectCalls fuel r1 (.node a2 l2 m2 r2)
          bddCreateCalls fuel a1 left middle right
        else if atomCmp a1 a2 > 0 then do
          let left ← bddIntersectCalls fuel (.node a1 l1 m1 r1) l2
          let middle ← bddIntersectCalls fuel (.node a1 l1 m1 r1) m2
          let right ← bddIntersectCalls fuel (.node a1 l1 m1 r1) r2
          bddCreateCalls fuel a2 left middle right
        else do
          let left1 ← bddUnionCalls fuel l1 m1
          let left2 ← bddUnionCalls fuel l2 m2
          let left ← bddIntersectCalls fuel left1 left2
          let right1 ← bddUnionCalls fuel r1 m1
          let right2 ← bddUnionCalls fuel r2 m2
          let right ← bddIntersectCalls fuel right1 right2
          bddCreateCalls fuel a1 left (.leaf false) right

/-- `bddNodeComplement` is the case of a node. -/
def bddComplementCalls : Nat → Bdd → Option Bdd
  | 0, _ => none
  | _ + 1, .leaf b => some (.leaf (!b))
  | fuel + 1, .node atom left middle right =>
    if right = .leaf false then do
      let both ← bddUnionCalls fuel left middle
      let middle' ← bddComplementCalls fuel both
      let right' ← bddComplementCalls fuel middle
      bddCreateCalls fuel atom (.leaf false) middle' right'
    else if left = .leaf false then do
      let left' ← bddComplementCalls fuel middle
      let both ← bddUnionCalls fuel right middle
      let middle' ← bddComplementCalls fuel both
      bddCreateCalls fuel atom left' middle' (.leaf false)
    else if middle = .leaf false then do
      let left' ← bddComplementCalls fuel left
      let both ← bddUnionCalls fuel left right
      let middle' ← bddComplementCalls fuel both
      let right' ← bddComplementCalls fuel right
      bddCreateCalls fuel atom left' middle' right'
    else do
      let leftBoth ← bddUnionCalls fuel left middle
      let left' ← bddComplementCalls fuel leftBoth
      let rightBoth ← bddUnionCalls fuel right middle
      let right' ← bddComplementCalls fuel rightBoth
      bddCreateCalls fuel atom left' (.leaf false) right'

def bddDiffCalls : Nat → Bdd → Bdd → Option Bdd
  | 0, _, _ => none
  | fuel + 1, b1, b2 =>
    if BddIdentity.same b1 b2 then some (.leaf false)
    else match b1, b2 with
      | b1, .leaf b => some (if b then .leaf false else b1)
      | .leaf b, b2 => if b then bddComplementCalls fuel b2 else some (.leaf false)
      | .node a1 l1 m1 r1, .node a2 l2 m2 r2 =>
        if atomCmp a1 a2 < 0 then do
          let left1 ← bddUnionCalls fuel l1 m1
          let left ← bddDiffCalls fuel left1 (.node a2 l2 m2 r2)
          let right1 ← bddUnionCalls fuel r1 m1
          let right ← bddDiffCalls fuel right1 (.node a2 l2 m2 r2)
          bddCreateCalls fuel a1 left (.leaf false) right
        else if atomCmp a1 a2 > 0 then do
          let left2 ← bddUnionCalls fuel l2 m2
          let left ← bddDiffCalls fuel (.node a1 l1 m1 r1) left2
          let right2 ← bddUnionCalls fuel r2 m2
          let right ← bddDiffCalls fuel (.node a1 l1 m1 r1) right2
          bddCreateCalls fuel a2 left (.leaf false) right
        else do
          let left1 ← bddUnionCalls fuel l1 m1
          let left2 ← bddUnionCalls fuel l2 m2
          let left ← bddDiffCalls fuel left1 left2
          let right1 ← bddUnionCalls fuel r1 m1
          let right2 ← bddUnionCalls fuel r2 m2
          let right ← bddDiffCalls fuel right1 right2
          bddCreateCalls fuel a1 left (.leaf false) right

end Calls

/-! ## The calls end -/

section Ends

variable [BddIdentity]

theorem bddCreateCalls_halts {atom : Atom} {left middle right : Bdd}
    (h : Halts (fun fuel => bddUnionCalls fuel left middle) (bddUnion left middle)) :
    Halts (fun fuel => bddCreateCalls fuel atom left middle right) (bddCreate atom left middle right) := by
  refine Halts.call ?_
  simp only [bddCreateCalls]
  unfold bddCreate bddCreateBody
  by_cases htrue : middle = .leaf true
  · simp only [if_pos htrue]
    exact .of_eq fun _ => rfl
  · simp only [if_neg htrue]
    by_cases heq : left = right
    · simp only [if_pos heq]
      exact h
    · simp only [if_neg heq]
      exact .of_eq fun _ => rfl

/-- Each call has fewer nodes. -/
theorem bddUnion_halts (b1 b2 : Bdd) :
    Halts (fun fuel => bddUnionCalls fuel b1 b2) (bddUnion b1 b2) := by
  refine Halts.call ?_
  simp only [bddUnionCalls]
  rw [bddUnion_eq]
  unfold bddUnionBody
  by_cases hsame : BddIdentity.same b1 b2 = true
  · simp only [if_pos hsame]
    exact .of_eq fun _ => rfl
  simp only [if_neg hsame]
  cases b1 with
  | leaf b => exact .of_eq fun _ => rfl
  | node a1 l1 m1 r1 =>
    cases b2 with
    | leaf b => exact .of_eq fun _ => rfl
    | node a2 l2 m2 r2 =>
      dsimp only
      by_cases hless : atomCmp a1 a2 < 0
      · simp only [if_pos hless]
        have hle := size_bddUnion_le m1 (.node a2 l2 m2 r2)
        exact (bddUnion_halts m1 _).bind (bddCreateCalls_halts (bddUnion_halts l1 _))
      · by_cases hmore : atomCmp a1 a2 > 0
        · simp only [if_neg hless, if_pos hmore]
          have hle := size_bddUnion_le (.node a1 l1 m1 r1) m2
          exact (bddUnion_halts _ m2).bind (bddCreateCalls_halts (bddUnion_halts l2 _))
        · simp only [if_neg hless, if_neg hmore]
          have hleft := size_bddUnion_le l1 l2
          have hmiddle := size_bddUnion_le m1 m2
          exact (bddUnion_halts l1 l2).bind ((bddUnion_halts m1 m2).bind ((bddUnion_halts r1 r2).bind
            (bddCreateCalls_halts (bddUnion_halts _ _))))
termination_by b1.size + b2.size
decreasing_by all_goals simp only [Bdd.size_node] at *; omega

theorem bddCreate_halts (atom : Atom) (left middle right : Bdd) :
    Halts (fun fuel => bddCreateCalls fuel atom left middle right) (bddCreate atom left middle right) :=
  bddCreateCalls_halts (bddUnion_halts left middle)

theorem bddIntersect_halts (b1 b2 : Bdd) :
    Halts (fun fuel => bddIntersectCalls fuel b1 b2) (bddIntersect b1 b2) := by
  refine Halts.call ?_
  simp only [bddIntersectCalls]
  rw [bddIntersect_eq]
  unfold bddIntersectBody
  by_cases hsame : BddIdentity.same b1 b2 = true
  · simp only [if_pos hsame]
    exact .of_eq fun _ => rfl
  simp only [if_neg hsame]
  cases b1 with
  | leaf b => exact .of_eq fun _ => rfl
  | node a1 l1 m1 r1 =>
    cases b2 with
    | leaf b => exact .of_eq fun _ => rfl
    | node a2 l2 m2 r2 =>
      dsimp only
      by_cases hless : atomCmp a1 a2 < 0
      · simp only [if_pos hless]
        exact (bddIntersect_halts l1 _).bind ((bddIntersect_halts m1 _).bind ((bddIntersect_halts r1 _).bind
          (bddCreate_halts _ _ _ _)))
      · by_cases hmore : atomCmp a1 a2 > 0
        · simp only [if_neg hless, if_pos hmore]
          exact (bddIntersect_halts _ l2).bind ((bddIntersect_halts _ m2).bind ((bddIntersect_halts _ r2).bind
            (bddCreate_halts _ _ _ _)))
        · simp only [if_neg hless, if_neg hmore]
          have hl1 := size_bddUnion_le l1 m1
          have hl2 := size_bddUnion_le l2 m2
          have hr1 := size_bddUnion_le r1 m1
          have hr2 := size_bddUnion_le r2 m2
          exact (bddUnion_halts l1 m1).bind ((bddUnion_halts l2 m2).bind ((bddIntersect_halts _ _).bind
            ((bddUnion_halts r1 m1).bind ((bddUnion_halts r2 m2).bind ((bddIntersect_halts _ _).bind
              (bddCreate_halts _ _ _ _))))))
termination_by b1.size + b2.size
decreasing_by all_goals simp only [Bdd.size_node] at *; omega

theorem bddComplement_halts (b : Bdd) :
    Halts (fun fuel => bddComplementCalls fuel b) (bddComplement b) := by
  rw [bddComplement_eq]
  cases b with
  | leaf b => exact Halts.call (.of_eq fun _ => rfl)
  | node a l m r =>
    refine Halts.call ?_
    simp only [bddComplementCalls]
    have hlm := size_bddUnion_le l m
    have hrm := size_bddUnion_le r m
    have hlr := size_bddUnion_le l r
    simp only [bddComplementBody]
    unfold bddNodeComplementBody
    by_cases hright : r = .leaf false
    · simp only [if_pos hright]
      exact (bddUnion_halts l m).bind ((bddComplement_halts _).bind ((bddComplement_halts m).bind
        (bddCreate_halts _ _ _ _)))
    · by_cases hleft : l = .leaf false
      · simp only [if_neg hright, if_pos hleft]
        exact (bddComplement_halts m).bind ((bddUnion_halts r m).bind ((bddComplement_halts _).bind
          (bddCreate_halts _ _ _ _)))
      · by_cases hmiddle : m = .leaf false
        · simp only [if_neg hright, if_neg hleft, if_pos hmiddle]
          exact (bddComplement_halts l).bind ((bddUnion_halts l r).bind ((bddComplement_halts _).bind
            ((bddComplement_halts r).bind (bddCreate_halts _ _ _ _))))
        · simp only [if_neg hright, if_neg hleft, if_neg hmiddle]
          exact (bddUnion_halts l m).bind ((bddComplement_halts _).bind ((bddUnion_halts r m).bind
            ((bddComplement_halts _).bind (bddCreate_halts _ _ _ _))))
termination_by b.size
decreasing_by all_goals simp only [Bdd.size_node] at *; omega

theorem bddDiff_halts (b1 b2 : Bdd) :
    Halts (fun fuel => bddDiffCalls fuel b1 b2) (bddDiff b1 b2) := by
  refine Halts.call ?_
  simp only [bddDiffCalls]
  rw [bddDiff_eq]
  unfold bddDiffBody
  by_cases hsame : BddIdentity.same b1 b2 = true
  · simp only [if_pos hsame]
    exact .of_eq fun _ => rfl
  simp only [if_neg hsame]
  cases b2 with
  | leaf b =>
    cases b1 with
    | leaf b => exact .of_eq fun _ => rfl
    | node a1 l1 m1 r1 => exact .of_eq fun _ => rfl
  | node a2 l2 m2 r2 =>
    cases b1 with
    | leaf b =>
      cases b with
      | false => exact .of_eq fun _ => rfl
      | true => exact bddComplement_halts _
    | node a1 l1 m1 r1 =>
      have hl1 := size_bddUnion_le l1 m1
      have hl2 := size_bddUnion_le l2 m2
      have hr1 := size_bddUnion_le r1 m1
      have hr2 := size_bddUnion_le r2 m2
      dsimp only
      by_cases hless : atomCmp a1 a2 < 0
      · simp only [if_pos hless]
        exact (bddUnion_halts l1 m1).bind ((bddDiff_halts _ _).bind ((bddUnion_halts r1 m1).bind
          ((bddDiff_halts _ _).bind (bddCreate_halts _ _ _ _))))
      · by_cases hmore : atomCmp a1 a2 > 0
        · simp only [if_neg hless, if_pos hmore]
          exact (bddUnion_halts l2 m2).bind ((bddDiff_halts _ _).bind ((bddUnion_halts r2 m2).bind
            ((bddDiff_halts _ _).bind (bddCreate_halts _ _ _ _))))
        · simp only [if_neg hless, if_neg hmore]
          exact (bddUnion_halts l1 m1).bind ((bddUnion_halts l2 m2).bind ((bddDiff_halts _ _).bind
            ((bddUnion_halts r1 m1).bind ((bddUnion_halts r2 m2).bind ((bddDiff_halts _ _).bind
              (bddCreate_halts _ _ _ _))))))
termination_by b1.size + b2.size
decreasing_by all_goals simp only [Bdd.size_node] at *; omega

/-- **The operations on any two `Bdd`s end**, with the results of the model. -/
theorem bddOperations_terminate (atom : Atom) (b1 b2 b3 : Bdd) :
    Halts (fun fuel => bddUnionCalls fuel b1 b2) (bddUnion b1 b2) ∧
      Halts (fun fuel => bddIntersectCalls fuel b1 b2) (bddIntersect b1 b2) ∧
      Halts (fun fuel => bddDiffCalls fuel b1 b2) (bddDiff b1 b2) ∧
      Halts (fun fuel => bddComplementCalls fuel b1) (bddComplement b1) ∧
      Halts (fun fuel => bddCreateCalls fuel atom b1 b2 b3) (bddCreate atom b1 b2 b3) :=
  ⟨bddUnion_halts b1 b2, bddIntersect_halts b1 b2,
    bddDiff_halts b1 b2, bddComplement_halts b1, bddCreate_halts atom b1 b2 b3⟩

end Ends

end Nballerina.Types
