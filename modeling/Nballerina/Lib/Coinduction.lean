import Mathlib

/-!
# Coinduction with assumptions

The greatest fixed point of a monotone `f` is the largest `x` with `x ≤ f x`. A search for such an
`x` that takes for granted what it is already looking at needs a form of this with assumptions:
`assuming f a` is the largest `x` with `x ≤ f (x ⊔ a)`. `le_assuming` is what makes the search sound:
what has been shown on the assumption of itself has been shown.
-/

namespace Nballerina.Lib

open OrderHom

variable {α : Type*} [CompleteLattice α] (f : α →o α) {a b x y : α}

/-- `f`, with `a` taken for granted in its argument. -/
def granting (a : α) : α →o α where
  toFun x := f (x ⊔ a)
  monotone' _ _ h := f.monotone (sup_le_sup_right h a)

/-- The greatest fixed point of `f` on the assumption of `a`. -/
def assuming (a : α) : α := (granting f a).gfp

theorem assuming_eq : assuming f a = f (assuming f a ⊔ a) := (map_gfp (granting f a)).symm

/-- A step may use what is shown and what is assumed. -/
theorem le_assuming_of_step (h : x ≤ f (assuming f a ⊔ a)) : x ≤ assuming f a :=
  h.trans (assuming_eq f).ge

/-- What holds on the assumption of itself holds. -/
theorem le_assuming (h : x ≤ assuming f (a ⊔ x)) : x ≤ assuming f a := by
  refine h.trans (le_gfp _ ?_)
  show assuming f (a ⊔ x) ≤ f (assuming f (a ⊔ x) ⊔ a)
  calc assuming f (a ⊔ x) = f (assuming f (a ⊔ x) ⊔ (a ⊔ x)) := assuming_eq f
    _ ≤ f (assuming f (a ⊔ x) ⊔ a) := f.monotone (sup_le le_sup_left (sup_le le_sup_right
        (h.trans le_sup_left)))

/-- Without assumptions it is the greatest fixed point. -/
theorem assuming_bot : assuming f ⊥ = f.gfp := by
  have h : granting f ⊥ = f := by
    ext x
    exact congrArg f (sup_bot_eq x)
  unfold assuming
  rw [h]

/-- What needs no assumption. -/
theorem gfp_le_assuming : f.gfp ≤ assuming f a :=
  le_gfp _ ((map_gfp f).ge.trans (f.monotone le_sup_left))

end Nballerina.Lib
