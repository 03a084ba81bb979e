import Nballerina.Types.BddOps
import Nballerina.Types.Emptiness

/-!
# The paths of a `Bdd`

The emptiness functions look at a `Bdd` path by path: each path to `true` gives the atoms that a value
must belong to and those that it must not (`bddEvery` of `common.bal`). A `Bdd` has no values exactly if
none of its paths has (`everyPath_empty_iff`).
-/

namespace Nballerina.Types

/-- Every path of the `Bdd` to `true` satisfies `P`, with the atoms of the nodes before it. -/
def Bdd.EveryPath (P : List Atom → List Atom → Prop) : Bdd → List Atom → List Atom → Prop
  | .leaf b, pos, neg => b = true → P pos neg
  | .node atom left middle right, pos, neg =>
    left.EveryPath P (atom :: pos) neg ∧ middle.EveryPath P pos neg ∧
      right.EveryPath P pos (atom :: neg)

namespace Bdd

theorem everyPath_and {P Q : List Atom → List Atom → Prop} : ∀ (b : Bdd) (pos neg : List Atom),
    b.EveryPath (fun pos neg => P pos neg ∧ Q pos neg) pos neg ↔
      b.EveryPath P pos neg ∧ b.EveryPath Q pos neg
  | .leaf b, pos, neg => by
    show (b = true → P pos neg ∧ Q pos neg) ↔ (b = true → P pos neg) ∧ (b = true → Q pos neg)
    exact ⟨fun h => ⟨fun hb => (h hb).1, fun hb => (h hb).2⟩, fun h hb => ⟨h.1 hb, h.2 hb⟩⟩
  | .node atom left middle right, pos, neg => by
    unfold EveryPath
    rw [everyPath_and left, everyPath_and middle, everyPath_and right]
    tauto

theorem EveryPath.imp {P Q : List Atom → List Atom → Prop} (h : ∀ pos neg, P pos neg → Q pos neg) :
    ∀ {b : Bdd} {pos neg : List Atom}, b.EveryPath P pos neg → b.EveryPath Q pos neg
  | .leaf _, _, _, hb => fun ht => h _ _ (hb ht)
  | .node _ _ _ _, _, _, hb => ⟨hb.1.imp h, hb.2.1.imp h, hb.2.2.imp h⟩

/-- Properties that agree on every path. -/
theorem EveryPath.iff {P Q : List Atom → List Atom → Prop} {b : Bdd} {pos neg : List Atom}
    (h : b.EveryPath (fun pos neg => P pos neg ↔ Q pos neg) pos neg) :
    b.EveryPath P pos neg ↔ b.EveryPath Q pos neg :=
  ⟨fun hP => ((everyPath_and b pos neg).mpr ⟨h, hP⟩).imp fun _ _ hPQ => hPQ.1.mp hPQ.2,
    fun hQ => ((everyPath_and b pos neg).mpr ⟨h, hQ⟩).imp fun _ _ hPQ => hPQ.1.mpr hPQ.2⟩

theorem Over.everyPath {A : Atom → Prop} : ∀ {b : Bdd} {pos neg : List Atom}, b.Over A →
    (∀ a ∈ pos, A a) → (∀ a ∈ neg, A a) →
      b.EveryPath (fun pos neg => (∀ a ∈ pos, A a) ∧ ∀ a ∈ neg, A a) pos neg
  | .leaf _, _, _, _, hpos, hneg => fun _ => ⟨hpos, hneg⟩
  | .node _ _ _ _, _, _, hover, hpos, hneg => by
    obtain ⟨ha, hl, hm, hr⟩ := hover
    exact ⟨hl.everyPath (List.forall_mem_cons.mpr ⟨ha, hpos⟩) hneg, hm.everyPath hpos hneg,
      hr.everyPath hpos (List.forall_mem_cons.mpr ⟨ha, hneg⟩)⟩

/-- No path of an ordered `Bdd` has an atom both ways. -/
theorem OrderedOver.everyPath : ∀ {b : Bdd} {P : Atom → Prop} {pos neg : List Atom}, b.OrderedOver P →
    (∀ x, P x → x ∉ pos ∧ x ∉ neg) → pos.Disjoint neg → b.EveryPath List.Disjoint pos neg
  | .leaf _, _, _, _, _, _, hdisjoint => fun _ => hdisjoint
  | .node atom _ _ _, P, pos, neg, hb, hfresh, hdisjoint => by
    obtain ⟨ha, hl, hm, hr⟩ := hb
    have hnot := hfresh atom ha
    have hne : ∀ x, atomLt atom x → x ≠ atom := by
      rintro x hlt rfl
      exact atomLt_irrefl x hlt
    refine ⟨hl.everyPath (fun x hx => ?_) ?_, hm.everyPath (fun x hx => hfresh x hx.1) hdisjoint,
      hr.everyPath (fun x hx => ?_) ?_⟩
    · exact ⟨List.not_mem_cons_of_ne_of_not_mem (hne x hx.2) (hfresh x hx.1).1, (hfresh x hx.1).2⟩
    · exact List.disjoint_cons_left.mpr ⟨hnot.2, hdisjoint⟩
    · exact ⟨(hfresh x hx.1).1, List.not_mem_cons_of_ne_of_not_mem (hne x hx.2) (hfresh x hx.1).2⟩
    · exact List.disjoint_cons_right.mpr ⟨hnot.1, hdisjoint⟩

/-- Paths without values. -/
theorem everyPath_empty_iff {X : Type} (contains : X → Atom → Prop) :
    ∀ (b : Bdd) (pos neg : List Atom),
      b.EveryPath (fun pos neg => ∀ x, (∀ a ∈ pos, contains x a) → ¬ ∀ a ∈ neg, ¬ contains x a) pos neg ↔
        ∀ x, (∀ a ∈ pos, contains x a) → (∀ a ∈ neg, ¬ contains x a) → ¬ b.holds (contains x)
  | .leaf b, pos, neg => by
    cases b with
    | true =>
      refine ⟨fun h x hpos hneg _ => h rfl x hpos hneg, fun h _ x hpos hneg => ?_⟩
      exact h x hpos hneg ((holds_true _).mpr trivial)
    | false => exact iff_of_true (fun h => (by cases h)) fun x _ _ h => (holds_false _).mp h
  | .node atom left middle right, pos, neg => by
    unfold EveryPath
    rw [everyPath_empty_iff contains left, everyPath_empty_iff contains middle,
      everyPath_empty_iff contains right]
    constructor
    · intro ⟨hl, hm, hr⟩ x hpos hneg hholds
      rcases (holds_node atom left middle right).mp hholds with ⟨ha, h⟩ | h | ⟨ha, h⟩
      · exact hl x (List.forall_mem_cons.mpr ⟨ha, hpos⟩) hneg h
      · exact hm x hpos hneg h
      · exact hr x hpos (List.forall_mem_cons.mpr ⟨ha, hneg⟩) h
    · intro h
      refine ⟨fun x hpos hneg hl => ?_, fun x hpos hneg hm => ?_, fun x hpos hneg hr => ?_⟩
      · obtain ⟨ha, hpos⟩ := List.forall_mem_cons.mp hpos
        exact h x hpos hneg ((holds_node atom left middle right).mpr (Or.inl ⟨ha, hl⟩))
      · exact h x hpos hneg ((holds_node atom left middle right).mpr (Or.inr (Or.inl hm)))
      · obtain ⟨ha, hneg⟩ := List.forall_mem_cons.mp hneg
        exact h x hpos hneg ((holds_node atom left middle right).mpr (Or.inr (Or.inr ⟨ha, hr⟩)))

end Bdd

/-- If the predicate asks nothing, then neither does `bddEvery`. -/
theorem bddEvery_pure {A : Atom → Prop} {predicate : List Atom → List Atom → EmptyM Bool}
    {P : List Atom → List Atom → Prop}
    (h : ∀ pos neg, (∀ a ∈ pos, A a) → (∀ a ∈ neg, A a) →
      ∃ r, predicate pos neg = .pure r ∧ (r = true ↔ P pos neg)) :
    ∀ (b : Bdd) (pos neg : List Atom), b.Over A → (∀ a ∈ pos, A a) → (∀ a ∈ neg, A a) →
      ∃ r, bddEvery predicate b pos neg = .pure r ∧ (r = true ↔ b.EveryPath P pos neg)
  | .leaf b, pos, neg, _, hpos, hneg => by
    cases b with
    | true =>
      obtain ⟨r, hr, hiff⟩ := h pos neg hpos hneg
      exact ⟨r, hr, hiff.trans ⟨fun hP _ => hP, fun hP => hP rfl⟩⟩
    | false => exact ⟨true, rfl, iff_of_true rfl fun hfalse => (by cases hfalse)⟩
  | .node atom left middle right, pos, neg, hover, hpos, hneg => by
    obtain ⟨ha, hl, hm, hr⟩ := hover
    obtain ⟨l, hleft, hliff⟩ := bddEvery_pure h left (atom :: pos) neg hl
      (List.forall_mem_cons.mpr ⟨ha, hpos⟩) hneg
    obtain ⟨m, hmiddle, hmiff⟩ := bddEvery_pure h middle pos neg hm hpos hneg
    obtain ⟨r, hright, hriff⟩ := bddEvery_pure h right pos (atom :: neg) hr hpos
      (List.forall_mem_cons.mpr ⟨ha, hneg⟩)
    refine ⟨l && m && r, ?_, ?_⟩
    · unfold bddEvery
      rw [hleft, hmiddle, hright]
      cases l with
      | false => rfl
      | true =>
        cases m with
        | false => rfl
        | true => rfl
    · unfold Bdd.EveryPath
      rw [Bool.and_eq_true, Bool.and_eq_true, hliff, hmiff, hriff, and_assoc]

end Nballerina.Types
