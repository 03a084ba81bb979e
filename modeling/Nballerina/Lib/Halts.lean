import Mathlib

/-!
# Recursion that ends

A recursive function is run with a bound on the depth of its calls, and gives `none` where that is not
enough. It ends if some bound is enough, and then every greater one is, with the same result (`Halts`).
-/

namespace Nballerina.Lib

variable {α β : Type}

/-- From some depth on, the result is `a`. -/
def Halts (run : Nat → Option α) (a : α) : Prop := ∃ n, ∀ fuel ≥ n, run fuel = some a

/-- What takes no calls. -/
theorem Halts.of_eq {run : Nat → Option α} {a : α} (h : ∀ fuel, run fuel = some a) : Halts run a :=
  ⟨0, fun fuel _ => h fuel⟩

/-- A call goes one level down. -/
theorem Halts.call {run : Nat → Option α} {a : α} (h : Halts (fun fuel => run (fuel + 1)) a) : Halts run a := by
  obtain ⟨n, hn⟩ := h
  refine ⟨n + 1, fun fuel hfuel => ?_⟩
  obtain ⟨k, rfl⟩ : ∃ k, fuel = k + 1 := ⟨fuel - 1, by omega⟩
  exact hn k (by omega)

/-- One call after the other. -/
theorem Halts.bind {run : Nat → Option α} {next : α → Nat → Option β} {a : α} {b : β} (h : Halts run a)
    (hnext : Halts (next a) b) : Halts (fun fuel => (run fuel).bind fun x => next x fuel) b := by
  obtain ⟨n, hn⟩ := h
  obtain ⟨k, hk⟩ := hnext
  refine ⟨max n k, fun fuel hfuel => ?_⟩
  dsimp only
  rw [hn fuel (le_trans (Nat.le_max_left n k) hfuel), Option.bind_some]
  exact hk fuel (le_trans (Nat.le_max_right n k) hfuel)

end Nballerina.Lib
