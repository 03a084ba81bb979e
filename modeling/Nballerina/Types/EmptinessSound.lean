import Nballerina.Types.Atoms
import Nballerina.Types.Emptiness
import Nballerina.Types.MemoSound

/-!
# Queries on one context

A `Context` answers any number of queries, and what it memoises for one is used by
the next. `runQueries` is such a sequence; it ends early when a query panics.

The result of `MemoSound.lean` is carried over to the emptiness predicates of an
`Env`: every answer is right and every record that is left is right, given that the
formulas of lists, mappings and functions are monotone and exact.
-/

namespace Nballerina.Types

open Nballerina.Lib Relation

/-- A query: `isEmpty`, `isSubtype`, or the emptiness of a `Bdd` on its own. -/
inductive EmptyQuery where
  | isEmpty (t : SemType)
  | isSubtype (t1 t2 : SemType)
  | bddIsEmpty (p : BddIsEmpty)

/-- The tables of a `Context`, with its `Env`. -/
abbrev Context := MemoContext Env (MemoTable × Bdd)

/-- `new Context(env)`. -/
def Context.new (env : Env) : Context := ⟨env, fun _ => .nil, []⟩

section Queries

variable [BddIdentity]

/-- The program of a query. -/
def EmptyQuery.prog : EmptyQuery → EmptyM Bool
  | .isEmpty t => Types.isEmpty t
  | .isSubtype t1 t2 => Types.isSubtype t1 t2
  | .bddIsEmpty p => askBddIsEmpty p

/-- The queries that were answered, each with its answer and the context it left. -/
def runQueries (env : Env) (fuel : Nat) :
    List EmptyQuery → Context → List (EmptyQuery × Bool × Context)
  | [], _ => []
  | q :: queries, cx =>
    match (emptiness env).runProg fuel q.prog cx with
    | .done b cx' => (q, b, cx') :: runQueries env fuel queries cx'
    | _ => []

/-- An answer is right: for a `Bdd` it says whether there is no value of finite depth,
and a semtype is decomposed according to what its `Bdd`s really are. -/
def EmptyQuery.Right (env : Env) (val : MemoTable × Bdd → Nat → Prop) (q : EmptyQuery)
    (b : Bool) (cx : Context) : Prop :=
  (∀ p, q = .bddIsEmpty p → (b = true ↔ p.key ∈ emptyKeys val)) ∧
    (emptiness env).Returns cx.env (emptyKeys val) q.prog b

/-- The records left in the tables are right. -/
structure RecordsRight (val : MemoTable × Bdd → Nat → Prop) (cx : Context) : Prop where
  empty : ∀ k, cx.memo k = .known true ∨ cx.memo k = .cyclic → k ∈ emptyKeys val
  inhabited : ∀ k, cx.memo k = .known false → k ∉ emptyKeys val
  settled : ∀ k, cx.memo k ≠ .provisional ∧ cx.memo k ≠ .loop
  stack : cx.memoStack = []

end Queries

/-! ## Interned cells keep their names -/

theorem Env.find?_typeAtom {env : Env} {t u : AtomicType} {ta : TypeAtom}
    (h : env.atomTable.find? (fun a => a.atomicType = t) = some ta) :
    (env.typeAtom u).2.atomTable.find? (fun a => a.atomicType = t) = some ta := by
  unfold typeAtom
  split
  next => exact h
  next => simp [List.find?_append, h]

theorem Env.typeAtom_fst {env : Env} {t : AtomicType} {ta : TypeAtom}
    (h : env.atomTable.find? (fun a => a.atomicType = t) = some ta) :
    (env.typeAtom t).1 = ta := by
  unfold typeAtom
  rw [h]

/-- Interning finds itself again. -/
theorem Env.find?_typeAtom_self (env : Env) (t : AtomicType) :
    (env.typeAtom t).2.atomTable.find? (fun a => a.atomicType = t) =
      some (env.typeAtom t).1 := by
  unfold typeAtom
  split
  next h => exact h
  next h =>
    rw [List.find?_append, h]
    simp

theorem emptiness_stable [BddIdentity] (env : Env) : (emptiness env).Stable := by
  intro c s s' hs
  have hfind : ∀ {s' : Env}, (emptiness env).Grown (s.cellAtom c).2 s' →
      s'.atomTable.find? (fun a => a.atomicType = c.toAtomicType) = some (s.cellAtom c).1 := by
    intro s' hs'
    induction hs' with
    | refl => exact s.find?_typeAtom_self _
    | tail _ hstep ih =>
      obtain ⟨c', rfl⟩ := hstep
      exact Env.find?_typeAtom ih
  exact Env.typeAtom_fst (hfind hs)

/-! ## The theorem -/

section Correct

variable [BddIdentity] {env : Env} {P : BddIsEmpty → Prop} {Q : SemType → Prop}
  {val : MemoTable × Bdd → Nat → Prop}

/-- A context between two queries whose records are right. -/
abbrev RightIdle (env : Env) (val : MemoTable × Bdd → Nat → Prop) (cx : Context) : Prop :=
  Idle (emptiness env) env (emptyKeys val) (emptyKeys val)ᶜ cx

theorem idle_new (env : Env) (val : MemoTable × Bdd → Nat → Prop) :
    RightIdle env val (Context.new env) where
  grown := .refl
  sound := ⟨List.nodup_nil, fun k => iff_of_false (by simp [Context.new]) id,
    fun k hk => by simp [Context.new] at hk, fun k hk => by simp [Context.new] at hk⟩
  stack := rfl

theorem recordsRight_of_idle {cx : Context} (h : RightIdle env val cx) :
    RecordsRight val cx := by
  refine ⟨h.sound.empty, h.sound.inhabited, fun k => ?_, h.stack⟩
  have hk : ¬ (cx.memo k).Pending := by
    rw [← h.sound.mem_stack, h.stack]
    simp
  refine ⟨fun heq => hk ?_, fun heq => hk ?_⟩
  · rw [heq]
    trivial
  · rw [heq]
    trivial

/-- One query: its answer is right and it leaves a context for the next one. -/
theorem query_right (h : (emptiness env).Exact env P Q val) {fuel : Nat} {q : EmptyQuery}
    (hq : q.prog.Within ((emptiness env).Named env) P Q fun _ => True) {cx cx' : Context}
    {b : Bool} (hidle : RightIdle env val cx)
    (heq : (emptiness env).runProg fuel q.prog cx = .done b cx') :
    RightIdle env val cx' ∧ q.Right env val b cx' := by
  have hstable := emptiness_stable env
  obtain ⟨hend, -, hret⟩ := runProg_idle hstable h.verdicts
    (call_idle hstable h.verdicts fuel) _ hq hidle heq
  refine ⟨hend, ?_, hret cx'.env .refl fun _ hk => hk⟩
  intro p hp
  subst hp
  have heq' : ((emptiness env).run fuel (.inl p) cx).andThen
      (fun b cx => (emptiness env).runProg fuel (.pure b) cx) = .done b cx' := heq
  obtain ⟨b', cx1, hr, hdone⟩ := Outcome.andThen_eq_done heq'
  cases hdone
  obtain ⟨-, -, hans⟩ := memo_idle hstable h.verdicts hq.1 hidle hr
  cases b with
  | true => exact iff_of_true rfl hans
  | false => exact iff_of_false (by simp) hans

theorem runQueries_right_of_idle (h : (emptiness env).Exact env P Q val) {fuel : Nat} :
    ∀ (queries : List EmptyQuery) {cx : Context}, RightIdle env val cx →
      (∀ q ∈ queries, q.prog.Within ((emptiness env).Named env) P Q fun _ => True) →
      ∀ e ∈ runQueries env fuel queries cx,
        e.1.Right env val e.2.1 e.2.2 ∧ RecordsRight val e.2.2
  | [], _, _, _, e, he => by cases he
  | q :: queries, cx, hidle, hscope, e, he => by
    unfold runQueries at he
    split at he
    next b cx' heq =>
      obtain ⟨hend, hright⟩ := query_right h (hscope q (.head _)) hidle heq
      rcases List.mem_cons.mp he with rfl | he
      · exact ⟨hright, recordsRight_of_idle hend⟩
      · exact runQueries_right_of_idle h queries hend
          (fun q hq => hscope q (.tail _ hq)) e he
    next => cases he

/-- In every sequence of queries on a new context, each answer is right, and so is every
record in the tables after each query. -/
theorem runQueries_right (h : (emptiness env).Exact env P Q val) (fuel : Nat)
    (queries : List EmptyQuery)
    (hscope : ∀ q ∈ queries, q.prog.Within ((emptiness env).Named env) P Q fun _ => True) :
    ∀ e ∈ runQueries env fuel queries (Context.new env),
      e.1.Right env val e.2.1 e.2.2 ∧ RecordsRight val e.2.2 :=
  runQueries_right_of_idle h queries (idle_new env val) hscope

end Correct

/-! ## A recursive type without values -/

/-- `type R record {| R x; |};` has no value of finite depth: the `Env` it is made in. -/
def recursiveRecordEnv : Env :=
  let (s, d, env) := MappingDefinition.getSemType {} .init
  let (cell, env) := cellContaining env s .limited
  let (rest, env) := cellContaining env NEVER .limited
  (MappingDefinition.define d env [("x", cell)] rest).2.2

def recursiveRecordBdd : Bdd := bddAtom (.recAtom 1)

/-- The type of the field `x`. -/
def recursiveRecordCell : SemType :=
  atomSemType BT_CELL (.typeAtom 8 (.cell (atomSemType BT_MAPPING (.recAtom 1)) .limited))

theorem recursiveRecord_atomType : recursiveRecordEnv.mappingAtomType (.recAtom 1) =
    some ⟨["x"], [recursiveRecordCell], CELL_SEMTYPE_NEVER⟩ := by
  have hsplit : ∀ t : SemType, splitFields [("x", t)] = (["x"], [t]) := fun t => by
    simp [splitFields]
  simp only [recursiveRecordEnv, MappingDefinition.define, hsplit]
  rfl

section Recursive

variable [BddIdentity]

theorem recursiveRecord_predicate :
    (emptiness recursiveRecordEnv).predicate (.mapping recursiveRecordBdd) =
      .call recursiveRecordCell .pure := by
  have hformula : mappingFormulaIsEmpty recursiveRecordEnv [.recAtom 1] [] =
      .call recursiveRecordCell .pure := by
    simp only [mappingFormulaIsEmpty, recursiveRecord_atomType]
    refine Eq.trans (b := .call recursiveRecordCell _) rfl (congrArg _ (funext fun b => ?_))
    cases b <;> rfl
  simp only [emptiness, bddIsEmpty, recursiveRecordBdd, bddAtom, bddEvery, hformula]
  refine Eq.trans (b := .call recursiveRecordCell _) rfl (congrArg _ (funext fun b => ?_))
  cases b <;> rfl

theorem recursiveRecord_cell : (emptiness recursiveRecordEnv).body recursiveRecordCell =
    .call (atomSemType BT_MAPPING (.recAtom 1)) .pure := by
  refine Eq.trans (b := .call (atomSemType BT_MAPPING (.recAtom 1)) _) rfl
    (congrArg _ (funext fun b => ?_))
  cases b <;> rfl

theorem recursiveRecord_body :
    (emptiness recursiveRecordEnv).body (atomSemType BT_MAPPING (.recAtom 1)) =
      .memo (.mapping recursiveRecordBdd) .pure := by
  refine Eq.trans (b := .memo (.mapping recursiveRecordBdd) _) rfl
    (congrArg _ (funext fun b => ?_))
  cases b <;> rfl

omit [BddIdentity] in
theorem returns_of_memo {α : Type} {sys : System Env CellAtomicType TypeAtom BddIsEmpty SemType α}
    {s : Env} {E : Set α} {p : BddIsEmpty} {r : Bool}
    (h : sys.Returns s E (.memo p .pure) r) : r = true ↔ sys.key p ∈ E := by
  cases h with
  | memoTrue hp hk =>
    cases hk
    exact iff_of_true rfl hp
  | memoFalse hp hk =>
    cases hk
    exact iff_of_false (by simp) hp

/-- The predicate of the recursive type says of `E` whether the type itself is in it. -/
theorem recursiveRecord_returns {s : Env} {E : Set (MemoTable × Bdd)} {r : Bool}
    (h : (emptiness recursiveRecordEnv).Returns s E
      ((emptiness recursiveRecordEnv).predicate (.mapping recursiveRecordBdd)) r) :
    r = true ↔ (MemoTable.mappingMemo, recursiveRecordBdd) ∈ E := by
  rw [recursiveRecord_predicate] at h
  cases h with
  | call hcell hk =>
    cases hk
    rw [recursiveRecord_cell] at hcell
    cases hcell with
    | call hbody hk =>
      cases hk
      rw [recursiveRecord_body] at hbody
      exact returns_of_memo hbody

/-- The scope of the queries about `R`. -/
def recursiveRecordScope (t : SemType) : Prop :=
  t = recursiveRecordCell ∨ t = atomSemType BT_MAPPING (.recAtom 1)

theorem recursiveRecord_exact : (emptiness recursiveRecordEnv).Exact recursiveRecordEnv
    (· = .mapping recursiveRecordBdd) recursiveRecordScope fun _ _ => False where
  scope_predicate p hp := by
    subst hp
    rw [recursiveRecord_predicate]
    exact ⟨.inl rfl, fun _ => trivial⟩
  scope_body t ht := by
    rcases ht with rfl | rfl
    · rw [recursiveRecord_cell]
      exact ⟨.inr rfl, fun _ => trivial⟩
    · rw [recursiveRecord_body]
      exact ⟨rfl, fun _ => trivial⟩
  monotone p hp s _ {E E' r r'} hsub hr hr' hrt := by
    subst hp
    exact (recursiveRecord_returns hr').mpr (hsub ((recursiveRecord_returns hr).mp hrt))
  exact p hp s _ n := by
    subst hp
    refine ⟨true, ?_, iff_of_true rfl fun m _ => id⟩
    rw [recursiveRecord_predicate]
    refine .call (b := true) ?_ (.pure true)
    rw [recursiveRecord_cell]
    refine .call (b := true) ?_ (.pure true)
    rw [recursiveRecord_body]
    exact .memoTrue (fun m _ => id) (.pure true)

end Recursive

/-- Asked twice about `R`, a context answers from its predicate and then from its table. -/
theorem runQueries_right_recursiveRecord :
    ((@runQueries .shared recursiveRecordEnv 4
      [.bddIsEmpty (.mapping recursiveRecordBdd), .isEmpty (atomSemType BT_MAPPING (.recAtom 1))]
      (Context.new recursiveRecordEnv)).map fun e => e.2.1) = [true, true] ∧
    ∀ e ∈ @runQueries .shared recursiveRecordEnv 4
      [.bddIsEmpty (.mapping recursiveRecordBdd), .isEmpty (atomSemType BT_MAPPING (.recAtom 1))]
      (Context.new recursiveRecordEnv),
      @EmptyQuery.Right .shared recursiveRecordEnv (fun _ _ => False) e.1 e.2.1 e.2.2 ∧
        RecordsRight (fun _ _ => False) e.2.2 := by
  let _ := BddIdentity.shared
  refine ⟨by decide +kernel, runQueries_right recursiveRecord_exact 4 _ fun q hq => ?_⟩
  simp only [List.mem_cons, List.not_mem_nil, or_false] at hq
  rcases hq with rfl | rfl
  · exact ⟨rfl, fun _ => trivial⟩
  · exact ⟨.inr rfl, fun _ => trivial⟩

end Nballerina.Types
