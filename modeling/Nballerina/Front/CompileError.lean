import Mathlib.Logic.Basic

/-!
# Errors of the front end and of the verifier

A function of these passes returns a result or an error (`err`), or it panics.
-/

namespace Nballerina.Front

inductive CompileError where
  | semantic (message : String)
  | internal (message : String)
  | panic

variable {α β : Type}

/-- A value that may be missing; `none` is a panic. -/
def orPanic : Option α → Except CompileError α
  | some a => .ok a
  | none => .error .panic

theorem orPanic_ok {x : Option α} {a : α} : orPanic x = .ok a ↔ x = some a := by
  cases x with
  | none =>
    constructor
    · intro h
      cases h
    · intro h
      cases h
  | some b =>
    constructor
    · intro h
      cases h
      rfl
    · intro h
      cases h
      rfl

/-- A `check` that comes through. -/
theorem check_ok {x : Except CompileError α} {f : α → Except CompileError β} {b : β} :
    (x >>= f) = .ok b ↔ ∃ a, x = .ok a ∧ f a = .ok b := by
  cases x with
  | error e =>
    constructor
    · intro h
      cases h
    · intro ⟨a, ha, _⟩
      cases ha
  | ok a =>
    constructor
    · intro h
      exact ⟨a, rfl, h⟩
    · intro ⟨a', ha, hf⟩
      cases ha
      exact hf

/-- The check of a missing value. -/
theorem check_orPanic {x : Option α} {f : α → Except CompileError β} {b : β} :
    (orPanic x >>= f) = .ok b ↔ ∃ a, x = some a ∧ f a = .ok b := by
  rw [check_ok]
  exact exists_congr fun a => and_congr_left fun _ => orPanic_ok

end Nballerina.Front
