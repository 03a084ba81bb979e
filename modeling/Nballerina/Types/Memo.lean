import Nballerina.Lib.Prog

/-!
# Memoised emptiness (`common.bal`)

`memoSubtypeIsEmpty` decides emptiness of recursive types. A `Bdd` that is being
looked at is assumed to be empty: its entry in the memo table is `"provisional"`,
and coming across it again answers `true` and marks it `"loop"`. When a `Bdd` turns
out not to be empty, everything that was found empty while it was assumed to be is
forgotten (`memoStack` says what that is); when the outermost `Bdd` turns out to be
empty, all the assumptions were right.

The function is generic in the source, over the table and the predicate that it
calls with the `Bdd`. Here the predicate is a `Prog` that asks for emptiness of
other `Bdd`s; `System` gives the predicates, and the memo keys for which they run.

Mirroring notes:
- A memo table maps a key to `MemoEmpty`. `nil` is both the `()` of a record and no
  record at all; the source treats the two alike.
- `memoStack` holds references to the records of the tables; here it holds keys.
- `run` is started with fuel, which bounds the depth of nested calls only.
-/

namespace Nballerina.Types

open Nballerina.Lib

/-- `boolean|"loop"|"cyclic"|"provisional"|()`. -/
inductive MemoEmpty where
  | known (isEmpty : Bool)
  | loop
  | cyclic
  | provisional
  | nil
deriving DecidableEq, Repr

/-- The tables and the stack of a `Context`, over the `Env` it was made for. -/
structure MemoContext (σ κ : Type) where
  env : σ
  memo : κ → MemoEmpty
  memoStack : List κ

/-- A family of mutually recursive predicates: `π` are the ones that go through
`memoSubtypeIsEmpty`, `ρ` the others. -/
structure System (σ ι ν π ρ κ : Type) where
  intern : ι → σ → ν × σ
  /-- the memo table and the `Bdd` that a predicate is called with -/
  key : π → κ
  predicate : π → Prog ι ν π ρ Bool
  body : ρ → Prog ι ν π ρ Bool

variable {σ ι ν π ρ κ : Type} [DecidableEq κ]

namespace MemoContext

/-- `m.empty = value` for the record of `k`. -/
def setEmpty (cx : MemoContext σ κ) (k : κ) (value : MemoEmpty) : MemoContext σ κ :=
  { cx with memo := fun k' => if k' = k then value else cx.memo k' }

@[simp] theorem setEmpty_self (cx : MemoContext σ κ) (k : κ) (value : MemoEmpty) :
    (cx.setEmpty k value).memo k = value := if_pos rfl

theorem setEmpty_of_ne (cx : MemoContext σ κ) {k k' : κ} (h : k' ≠ k) (value : MemoEmpty) :
    (cx.setEmpty k value).memo k' = cx.memo k' := if_neg h

@[simp] theorem setEmpty_env (cx : MemoContext σ κ) (k : κ) (value : MemoEmpty) :
    (cx.setEmpty k value).env = cx.env := rfl

@[simp] theorem setEmpty_memoStack (cx : MemoContext σ κ) (k : κ) (value : MemoEmpty) :
    (cx.setEmpty k value).memoStack = cx.memoStack := rfl

/-- The loop over the records above the one that is finished. -/
def resolve (cx : MemoContext σ κ) (isEmpty : Bool) (keys : List κ) : MemoContext σ κ :=
  keys.foldl (fun cx k =>
    if cx.memo k = .provisional ∨ cx.memo k = .loop ∨ cx.memo k = .cyclic then
      cx.setEmpty k (if isEmpty then .known true else .nil)
    else cx) cx

/-- What the loop does to one record. -/
def resolved (isEmpty : Bool) (value : MemoEmpty) : MemoEmpty :=
  if value = .provisional ∨ value = .loop ∨ value = .cyclic then
    if isEmpty then .known true else .nil
  else value

theorem resolved_idem (isEmpty : Bool) (value : MemoEmpty) :
    resolved isEmpty (resolved isEmpty value) = resolved isEmpty value := by
  cases value <;> cases isEmpty <;> rfl

theorem resolve_spec (isEmpty : Bool) : ∀ (keys : List κ) (cx : MemoContext σ κ),
    (cx.resolve isEmpty keys).env = cx.env ∧ (cx.resolve isEmpty keys).memoStack = cx.memoStack ∧
      ∀ k, (cx.resolve isEmpty keys).memo k =
        if k ∈ keys then resolved isEmpty (cx.memo k) else cx.memo k
  | [], cx => ⟨rfl, rfl, fun _ => rfl⟩
  | j :: keys, cx => by
    let next := if cx.memo j = .provisional ∨ cx.memo j = .loop ∨ cx.memo j = .cyclic then
      cx.setEmpty j (if isEmpty then .known true else .nil) else cx
    have hnext : next.env = cx.env ∧ next.memoStack = cx.memoStack ∧
        ∀ k, next.memo k = if k = j then resolved isEmpty (cx.memo k) else cx.memo k := by
      unfold next resolved
      split
      next h =>
        refine ⟨rfl, rfl, fun k => ?_⟩
        by_cases hk : k = j
        · subst hk
          simp [h]
        · simp [hk, setEmpty_of_ne]
      next h =>
        refine ⟨rfl, rfl, fun k => ?_⟩
        by_cases hk : k = j
        · subst hk
          simp [h]
        · simp [hk]
    obtain ⟨henv, hstack, hmemo⟩ := resolve_spec isEmpty keys next
    refine ⟨henv.trans hnext.1, hstack.trans hnext.2.1, fun k => ?_⟩
    show (resolve next isEmpty keys).memo k = _
    rw [hmemo k, hnext.2.2 k]
    by_cases hk : k = j
    · subst hk
      by_cases hmem : k ∈ keys
      · simp [hmem, resolved_idem]
      · simp [hmem]
    · simp [hk]

/-- What is done when the predicate has returned; `initStackDepth` is the depth of the
stack before the record was pushed. -/
def finish (cx : MemoContext σ κ) (k : κ) (initStackDepth : Nat) (isEmpty : Bool) :
    MemoContext σ κ :=
  if !isEmpty ∨ initStackDepth = 0 then
    let isLoop := cx.memo k = .loop
    let cx := cx.resolve isEmpty (cx.memoStack.drop (initStackDepth + 1))
    let cx := { cx with memoStack := cx.memoStack.take initStackDepth }
    cx.setEmpty k (if isLoop ∧ isEmpty then .cyclic else .known isEmpty)
  else cx

/-- Finishing the record below `new`: the records above it are resolved and dropped. -/
theorem finish_spec {cx : MemoContext σ κ} {S new : List κ} {k : κ} {isEmpty : Bool}
    (hstack : cx.memoStack = S ++ k :: new) (hdone : isEmpty = false ∨ S = []) :
    (cx.finish k S.length isEmpty).env = cx.env ∧
      (cx.finish k S.length isEmpty).memoStack = S ∧
      (cx.finish k S.length isEmpty).memo k =
        (if cx.memo k = .loop ∧ isEmpty = true then .cyclic else .known isEmpty) ∧
      ∀ j, j ≠ k → (cx.finish k S.length isEmpty).memo j =
        if j ∈ new then resolved isEmpty (cx.memo j) else cx.memo j := by
  have hdrop : cx.memoStack.drop (S.length + 1) = new := by
    rw [hstack, ← List.drop_drop]
    simp
  have hcond : (!isEmpty) = true ∨ S.length = 0 := by
    rcases hdone with rfl | rfl
    · exact Or.inl rfl
    · exact Or.inr rfl
  obtain ⟨henv, hstk, hmemo⟩ := resolve_spec isEmpty new cx
  unfold finish
  rw [if_pos hcond, hdrop]
  refine ⟨henv, ?_, setEmpty_self _ _ _, fun j hj => ?_⟩
  · show (cx.resolve isEmpty new).memoStack.take S.length = S
    rw [hstk, hstack]
    exact List.take_left
  · rw [setEmpty_of_ne _ hj]
    exact hmemo j

end MemoContext

/-- `memoSubtypeIsEmpty`, over the call of the predicate. -/
def memoSubtypeIsEmpty
    (predicate : MemoContext σ κ → Outcome (MemoContext σ κ) Bool) (k : κ)
    (cx : MemoContext σ κ) : Outcome (MemoContext σ κ) Bool :=
  match cx.memo k with
  | .cyclic => .done true cx
  | .known res => .done res cx
  | .loop | .provisional => .done true (cx.setEmpty k .loop)
  | .nil =>
    let initStackDepth := cx.memoStack.length
    let cx := cx.setEmpty k .provisional
    (predicate { cx with memoStack := cx.memoStack ++ [k] }).andThen fun isEmpty cx =>
      .done isEmpty (cx.finish k initStackDepth isEmpty)

namespace System

variable (sys : System σ ι ν π ρ κ)

/-- Interning in the `Env` of the context. -/
def internCx (c : ι) (cx : MemoContext σ κ) : ν × MemoContext σ κ :=
  ((sys.intern c cx.env).1, { cx with env := (sys.intern c cx.env).2 })

/-- Answers a question, with nested calls at most `fuel` deep. -/
def run : Nat → π ⊕ ρ → MemoContext σ κ → Outcome (MemoContext σ κ) Bool
  | 0, _, _ => .timeout
  | fuel + 1, .inl p, cx =>
    memoSubtypeIsEmpty
      ((sys.predicate p).exec sys.internCx (fun p => run fuel (.inl p))
        fun q => run fuel (.inr q))
      (sys.key p) cx
  | fuel + 1, .inr q, cx =>
    (sys.body q).exec sys.internCx (fun p => run fuel (.inl p)) (fun q => run fuel (.inr q)) cx

/-- A program run with nested calls at most `fuel` deep. -/
def runProg {α : Type} (fuel : Nat) (x : Prog ι ν π ρ α) (cx : MemoContext σ κ) :
    Outcome (MemoContext σ κ) α :=
  x.exec sys.internCx (fun p => sys.run fuel (.inl p)) (fun q => sys.run fuel (.inr q)) cx

theorem run_memo (fuel : Nat) (p : π) (cx : MemoContext σ κ) :
    sys.run (fuel + 1) (.inl p) cx =
      memoSubtypeIsEmpty (sys.runProg fuel (sys.predicate p)) (sys.key p) cx := rfl

theorem run_call (fuel : Nat) (q : ρ) (cx : MemoContext σ κ) :
    sys.run (fuel + 1) (.inr q) cx = sys.runProg fuel (sys.body q) cx := rfl

theorem runProg_memo {α : Type} (fuel : Nat) (p : π) (k : Bool → Prog ι ν π ρ α)
    (cx : MemoContext σ κ) : sys.runProg fuel (.memo p k) cx =
      (sys.run fuel (.inl p) cx).andThen fun b cx => sys.runProg fuel (k b) cx := rfl

theorem runProg_call {α : Type} (fuel : Nat) (q : ρ) (k : Bool → Prog ι ν π ρ α)
    (cx : MemoContext σ κ) : sys.runProg fuel (.call q k) cx =
      (sys.run fuel (.inr q) cx).andThen fun b cx => sys.runProg fuel (k b) cx := rfl

end System

end Nballerina.Types
