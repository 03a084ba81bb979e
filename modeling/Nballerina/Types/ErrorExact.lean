import Nballerina.Types.BddPaths
import Nballerina.Types.CoreExact
import Nballerina.Types.EmptinessSound
import Nballerina.Types.MappingExact

/-!
# Emptiness of error types

An error has a set of distinct ids and a readonly detail mapping. Both are in one `Bdd` (`error.bal`):
a distinct id is an atom with a negative number, the others are mapping atoms. `errorBddIsEmpty` leaves
out the ids of a path and looks at the mapping atoms, where no positive atom means any mapping, readonly
or not. So `errorSubtypeIsEmpty` intersects with `BDD_SUBTYPE_RO` if `bddPosMaybeEmpty` finds a path
without positive atoms. A positive distinct id counts as one there, although it is left out afterwards:
a path with only distinct ids and negative details is then empty only if no mapping at all is left
(`errorSubtypeIsEmpty_right_iff`, `not_right_distinct`).

Mirroring notes:
- `memo` is `memoSubtypeIsEmpty`: what it returns is what the predicate returned at some time.
- `distinctId` is at least 0.
-/

namespace Nballerina.Types

open Nballerina.Lib

variable {V : Type}

/-! ## The source -/

section Source

variable [BddIdentity]

def errorSubtypeIsEmpty (b : Bdd) : EmptyM Bool := askBddIsEmpty (.error (ensurePositive BDD_SUBTYPE_RO b))

end Source

/-! ## Errors -/

/-- The number of a distinct type. -/
def IsDistinct (a : Atom) : Prop := ∃ id : Nat, a = .recAtom (-(id : Int) - 1)

structure ErrorValue (V : Type) where
  ids : Finset Nat
  detail : String → V

/-- The error belongs to the atom: a distinct id is looked up in its ids, a mapping atom in its detail. -/
def Env.ErrorContains (den : SemType → Set V) (env : Env) (e : ErrorValue V) (a : Atom) : Prop :=
  (∃ id ∈ e.ids, a = .recAtom (-(id : Int) - 1)) ∨ env.MappingContains den e.detail a

/-- The detail is readonly. -/
def Env.ReadonlyDetail (den : SemType → Set V) (env : Env) (f : String → V) : Prop :=
  env.MappingContains den f BDD_REC_ATOM_READONLY

/-- The mapping atoms of the `Env` whose member types are in `Atomic`. -/
def Env.DetailAtom (den : SemType → Set V) (undef : V) (Atomic : SemType → Prop) (env : Env)
    (a : Atom) : Prop :=
  env.Issued .mapping a ∧ ∃ m, env.mappingAtomType a = some m ∧ m.Over Atomic ∧ undef ∈ den m.rest

/-- The `Bdd`s of error types: made from details and distinct ids by the operations. `error` is what a
complement is taken from. -/
inductive ErrorBdd [BddIdentity] (P : Atom → Prop) : Bdd → Prop
  | error : ErrorBdd P BDD_SUBTYPE_RO
  | detail {b : Bdd} : b.OrderedOver P → ErrorBdd P (bddIntersect b BDD_SUBTYPE_RO)
  | distinct (id : Nat) : ErrorBdd P (bddAtom (.recAtom (-(id : Int) - 1)))
  | union {b1 b2 : Bdd} : ErrorBdd P b1 → ErrorBdd P b2 → ErrorBdd P (bddUnion b1 b2)
  | intersect {b1 b2 : Bdd} : ErrorBdd P b1 → ErrorBdd P b2 → ErrorBdd P (bddIntersect b1 b2)
  | diff {b1 b2 : Bdd} : ErrorBdd P b1 → ErrorBdd P b2 → ErrorBdd P (bddDiff b1 b2)

theorem Bdd.OrderedOver.toOver : ∀ {b : Bdd} {P : Atom → Prop}, b.OrderedOver P → b.Over P
  | .leaf _, _, _ => trivial
  | .node _ _ _ _, _, ⟨ha, hl, hm, hr⟩ => ⟨ha, hl.forget.toOver, hm.forget.toOver, hr.forget.toOver⟩

/-- The operations keep the atoms in order, and make no new ones. -/
theorem ErrorBdd.ordered [BddIdentity] {P : Atom → Prop} (hro : P BDD_REC_ATOM_READONLY) {b : Bdd}
    (h : ErrorBdd P b) : b.OrderedOver fun a => IsDistinct a ∨ P a := by
  have hreadonly : BDD_SUBTYPE_RO.OrderedOver fun a => IsDistinct a ∨ P a :=
    Bdd.OrderedOver.bddAtom (.inr hro)
  induction h with
  | error => exact hreadonly
  | detail hb => exact (hb.mono fun a ha => .inr ha).intersect hreadonly
  | distinct id => exact Bdd.OrderedOver.bddAtom (.inl ⟨id, rfl⟩)
  | union _ _ ih1 ih2 => exact ih1.union ih2
  | intersect _ _ ih1 ih2 => exact ih1.intersect ih2
  | diff _ _ ih1 ih2 => exact ih1.diff ih2

theorem Bdd.OrderedOver.ensurePositive [BddIdentity] {P : Atom → Prop} (hro : P BDD_REC_ATOM_READONLY)
    {b : Bdd} (h : b.OrderedOver P) : (ensurePositive BDD_SUBTYPE_RO b).OrderedOver P := by
  unfold Types.ensurePositive
  split
  next => exact h.intersect (Bdd.OrderedOver.bddAtom hro)
  next => exact h

/-! ## Paths -/

/-- The atoms that `andIfPositive` keeps. -/
def details : List Atom → List Atom
  | [] => []
  | a :: atoms => andIfPositive a (details atoms)

/-- The detail belongs to the mapping atoms of a path. -/
def Env.DetailOn (den : SemType → Set V) (env : Env) (pos neg : List Atom) (f : String → V) : Prop :=
  (∀ a ∈ details pos, env.MappingContains den f a) ∧ ∀ a ∈ details neg, ¬ env.MappingContains den f a

theorem andIfPositive_distinct (id : Nat) (next : List Atom) :
    andIfPositive (.recAtom (-(id : Int) - 1)) next = next := by
  show (if -(id : Int) - 1 < 0 then next else _) = next
  exact if_pos (by omega)

theorem mappingAtomType_negative {env : Env} {i : Int} (h : i < 0) :
    env.mappingAtomType (.recAtom i) = none :=
  if_neg (by omega)

section Paths

variable {den : SemType → Set V} {undef : V} {Atomic : SemType → Prop} {env : Env}

/-- Only the numbers of distinct types are left out. -/
theorem mem_details {a : Atom} : ∀ {atoms : List Atom},
    (∀ a ∈ atoms, IsDistinct a ∨ ∃ m, env.mappingAtomType a = some m) →
      (a ∈ details atoms ↔ a ∈ atoms ∧ ∃ m, env.mappingAtomType a = some m)
  | [], _ => iff_of_false List.not_mem_nil fun h => List.not_mem_nil h.1
  | b :: atoms, h => by
    obtain ⟨hb, hatoms⟩ := List.forall_mem_cons.mp h
    have ih := mem_details hatoms (a := a)
    unfold details
    rcases hb with ⟨id, rfl⟩ | ⟨m, hm⟩
    · rw [andIfPositive_distinct, ih, List.mem_cons]
      refine and_congr_left fun ⟨m, hm⟩ => (or_iff_right ?_).symm
      rintro rfl
      rw [mappingAtomType_negative (by omega)] at hm
      cases hm
    · have hkeep : andIfPositive b (details atoms) = b :: details atoms := by
        cases b with
        | typeAtom i t => rfl
        | recAtom i =>
          show (if i < 0 then details atoms else _) = _
          refine if_neg fun hneg => ?_
          rw [mappingAtomType_negative hneg] at hm
          cases hm
      rw [hkeep, List.mem_cons, List.mem_cons, ih]
      constructor
      · rintro (rfl | ⟨ha, hsome⟩)
        · exact ⟨.inl rfl, m, hm⟩
        · exact ⟨.inr ha, hsome⟩
      · rintro ⟨rfl | ha, hsome⟩
        · exact .inl rfl
        · exact .inr ⟨ha, hsome⟩

/-- The id that the number of a distinct type stands for. -/
def distinctId : Atom → Option Nat
  | .recAtom i => if i < 0 then some (-i - 1).toNat else none
  | .typeAtom _ _ => none

theorem mem_distinctIds {pos : List Atom} {id : Nat} :
    id ∈ (pos.filterMap distinctId).toFinset ↔ .recAtom (-(id : Int) - 1) ∈ pos := by
  rw [List.mem_toFinset, List.mem_filterMap]
  constructor
  · rintro ⟨a, ha, hid⟩
    cases a with
    | typeAtom i t => cases hid
    | recAtom i =>
      have hid : (if i < 0 then some (-i - 1).toNat else none) = some id := hid
      split at hid
      next hneg =>
        have hnat := Option.some.inj hid
        have hi : -(id : Int) - 1 = i := by omega
        rw [hi]
        exact ha
      next => cases hid
  · intro ha
    refine ⟨_, ha, ?_⟩
    show (if -(id : Int) - 1 < 0 then some (-(-(id : Int) - 1) - 1).toNat else none) = some id
    rw [if_pos (by omega)]
    exact congrArg some (by omega)

/-- The ids can be chosen for themselves: a path has errors exactly if there is a detail for it. -/
theorem errorPath_iff {R : (String → V) → Prop} {pos neg : List Atom} (hdisjoint : pos.Disjoint neg)
    (hpos : ∀ a ∈ pos, IsDistinct a ∨ ∃ m, env.mappingAtomType a = some m)
    (hneg : ∀ a ∈ neg, IsDistinct a ∨ ∃ m, env.mappingAtomType a = some m) :
    (∀ e : {e : ErrorValue V // R e.detail}, (∀ a ∈ pos, env.ErrorContains den e.1 a) →
      ¬ ∀ a ∈ neg, ¬ env.ErrorContains den e.1 a) ↔ ∀ f, R f → ¬ env.DetailOn den pos neg f := by
  constructor
  · rintro h f hf ⟨hin, hout⟩
    refine h ⟨⟨(pos.filterMap distinctId).toFinset, f⟩, hf⟩ (fun a ha => ?_) fun a ha hcontains => ?_
    · rcases hpos a ha with ⟨id, rfl⟩ | hm
      · exact .inl ⟨id, mem_distinctIds.mpr ha, rfl⟩
      · exact .inr (hin a ((mem_details hpos).mpr ⟨ha, hm⟩))
    · rcases hcontains with ⟨id, hid, rfl⟩ | hcontains
      · exact hdisjoint (mem_distinctIds.mp hid) ha
      · obtain ⟨m, hm, hf⟩ := hcontains
        exact hout a ((mem_details hneg).mpr ⟨ha, m, hm⟩) ⟨m, hm, hf⟩
  · rintro h ⟨e, he⟩ hin hout
    refine h e.detail he ⟨fun a ha => ?_, fun a ha hcontains => ?_⟩
    · obtain ⟨ha, m, hm⟩ := (mem_details hpos).mp ha
      rcases hin a ha with ⟨id, _, rfl⟩ | hcontains
      · rw [mappingAtomType_negative (by omega)] at hm
        cases hm
      · exact hcontains
    · exact hout a ((mem_details hneg).mp ha).1 (.inr hcontains)

/-- The errors of a `Bdd`, path by path. -/
theorem errorBdd_empty_iff {R : (String → V) → Prop} {b : Bdd}
    (hb : b.OrderedOver fun a => IsDistinct a ∨ ∃ m, env.mappingAtomType a = some m) :
    (∀ e : ErrorValue V, R e.detail → ¬ b.holds (env.ErrorContains den e)) ↔
      b.EveryPath (fun pos neg => ∀ f, R f → ¬ env.DetailOn den pos neg f) [] [] := by
  have hnil : ∀ a ∈ ([] : List Atom), IsDistinct a ∨ ∃ m, env.mappingAtomType a = some m :=
    fun a ha => absurd ha List.not_mem_nil
  have hfresh : ∀ x, (IsDistinct x ∨ ∃ m, env.mappingAtomType x = some m) →
      x ∉ ([] : List Atom) ∧ x ∉ ([] : List Atom) := fun x _ => ⟨List.not_mem_nil, List.not_mem_nil⟩
  have hpaths := (Bdd.everyPath_and b [] []).mpr
    ⟨hb.everyPath hfresh (List.disjoint_nil_left []), hb.toOver.everyPath hnil hnil⟩
  rw [← (hpaths.imp fun pos neg h => errorPath_iff h.1 h.2.1 h.2.2).iff, Bdd.everyPath_empty_iff]
  constructor
  · exact fun h e _ _ => h e.1 e.2
  · exact fun h e he => h ⟨e, he⟩ (fun a ha => absurd ha List.not_mem_nil)
      fun a ha => absurd ha List.not_mem_nil

end Paths

/-- What `bddEveryPositive` returns, if the predicate looks at the mapping atoms of a path. -/
theorem bddEveryPositive_ensures {A : Atom → Prop} {predicate : List Atom → List Atom → EmptyM Bool}
    {R : CellAtomicType → TypeAtom → Prop} {Q : SemType → Prop} {Answer : SemType → Bool → Prop}
    {P : List Atom → List Atom → Prop}
    (h : ∀ pos neg, (∀ a ∈ pos, A a) → (∀ a ∈ neg, A a) →
      (predicate (details pos) (details neg)).Ensures R Q Answer fun r => r = true ↔ P pos neg) :
    ∀ (b : Bdd) (pos neg : List Atom), b.Over A → (∀ a ∈ pos, A a) → (∀ a ∈ neg, A a) →
      (bddEveryPositive predicate b (details pos) (details neg)).Ensures R Q Answer fun r =>
        r = true ↔ b.EveryPath P pos neg
  | .leaf b, pos, neg, _, hpos, hneg => by
    cases b with
    | true => exact (h pos neg hpos hneg).imp fun r hr => hr.trans ⟨fun hP _ => hP, fun hP => hP rfl⟩
    | false => exact iff_of_true rfl fun hfalse => (by cases hfalse)
  | .node atom left middle right, pos, neg, hover, hpos, hneg => by
    obtain ⟨ha, hl, hm, hr⟩ := hover
    have hpos' := List.forall_mem_cons.mpr ⟨ha, hpos⟩
    have hneg' := List.forall_mem_cons.mpr ⟨ha, hneg⟩
    refine (bddEveryPositive_ensures h left (atom :: pos) neg hl hpos' hneg).bind fun l hliff => ?_
    cases l with
    | false => exact iff_of_false (by simp) fun hall => absurd (hliff.mpr hall.1) (by simp)
    | true =>
      refine (bddEveryPositive_ensures h middle pos neg hm hpos hneg).bind fun m hmiff => ?_
      cases m with
      | false => exact iff_of_false (by simp) fun hall => absurd (hmiff.mpr hall.2.1) (by simp)
      | true =>
        refine (bddEveryPositive_ensures h right pos (atom :: neg) hr hpos hneg').imp fun r hriff => ?_
        exact hriff.trans ⟨fun hright => ⟨hliff.mp rfl, hmiff.mp rfl, hright⟩, fun hall => hall.2.2⟩

/-! ## The answer -/

section Answer

variable [BddIdentity] {den : SemType → Set V} {undef : V} {R : CellAtomicType → TypeAtom → Prop}
  {Cell Atomic : SemType → Prop} {env : Env}

theorem errorBddIsEmpty_ensures (hx : ExactFields den R Cell Atomic) {b : Bdd}
    (hb : b.OrderedOver fun a => IsDistinct a ∨ env.DetailAtom den undef Atomic a) :
    (bddIsEmpty env (.error b)).Ensures R Cell (EmptyRight den) fun r =>
      r = true ↔ ∀ e : ErrorValue V, ¬ b.holds (env.ErrorContains den e) := by
  have hknown : ∀ a, IsDistinct a ∨ env.DetailAtom den undef Atomic a →
      IsDistinct a ∨ ∃ m, env.mappingAtomType a = some m := fun a ha =>
    ha.imp id fun ⟨_, m, hm, _⟩ => ⟨m, hm⟩
  -- the mapping atoms of a path are those of the `Env`
  have hdetails : ∀ atoms : List Atom, (∀ a ∈ atoms, IsDistinct a ∨ env.DetailAtom den undef Atomic a) →
      ∀ a ∈ details atoms, ∃ m, env.mappingAtomType a = some m ∧ m.Over Atomic ∧ undef ∈ den m.rest := by
    intro atoms hatoms a ha
    obtain ⟨hmem, m, hm⟩ := (mem_details fun a ha => hknown a (hatoms a ha)).mp ha
    rcases hatoms a hmem with ⟨id, rfl⟩ | ⟨_, hdetail⟩
    · rw [mappingAtomType_negative (by omega)] at hm
      cases hm
    · exact hdetail
  have hformula : ∀ pos neg : List Atom,
      (∀ a ∈ pos, IsDistinct a ∨ env.DetailAtom den undef Atomic a) →
      (∀ a ∈ neg, IsDistinct a ∨ env.DetailAtom den undef Atomic a) →
      (mappingFormulaIsEmpty env (details pos) (details neg)).Ensures R Cell (EmptyRight den) fun r =>
        r = true ↔ ∀ f, True → ¬ env.DetailOn den pos neg f := by
    intro pos neg hpos hneg
    have hneg' : env.MappingsOver den undef Cell (details neg) := fun a ha => by
      obtain ⟨m, hm, hover, hundef⟩ := hdetails neg hneg a ha
      exact ⟨m, hm, ⟨hover.sorted, fun t ht => hx.cell (hover.types t ht), hx.cell hover.rest⟩, hundef⟩
    refine (mappingFormulaIsEmpty_ensures hx (hdetails pos hpos) hneg').imp fun r hr => hr.trans ?_
    exact ⟨fun h f _ hf => h ⟨f, hf⟩, fun h ⟨f, hf⟩ => h f trivial hf⟩
  have hnil : ∀ a ∈ ([] : List Atom), IsDistinct a ∨ env.DetailAtom den undef Atomic a :=
    fun a ha => absurd ha List.not_mem_nil
  refine (bddEveryPositive_ensures hformula b [] [] hb.toOver hnil hnil).imp fun r hr => hr.trans ?_
  rw [← errorBdd_empty_iff (hb.mono hknown)]
  exact ⟨fun h e => h e trivial, fun h e _ => h e⟩

/-- The readonly mapping is asked for, or it makes no difference: every path is for readonly details only,
or one of them has a readonly detail. -/
def Env.DetailsSeen (den : SemType → Set V) (env : Env) (b : Bdd) : Prop :=
  bddPosMaybeEmpty b = true ∨
  b.EveryPath (fun pos neg => ∀ f, env.DetailOn den pos neg f → env.ReadonlyDetail den f) [] [] ∨
  ¬ b.EveryPath (fun pos neg => ∀ f, env.ReadonlyDetail den f → ¬ env.DetailOn den pos neg f) [] []

/-- What is asked of the handlers: cells get their atoms, the emptiness of member types is right, and what
the table has for `b` is what the predicate returned at some time. -/
structure ErrorHandlers (R : CellAtomicType → TypeAtom → Prop) (Cell : SemType → Prop)
    (den : SemType → Set V) (env : Env) (b : Bdd) {S : Type} (intern : CellAtomicType → S → TypeAtom × S)
    (memo : BddIsEmpty → S → Outcome S Bool) (call : SemType → S → Outcome S Bool) : Prop where
  names : ∀ c s, R c (intern c s).1
  member : ∀ t s, Cell t → ∃ b s', call t s = .done b s' ∧ EmptyRight den t b
  table : ∀ s, ∃ r s' s0 s1, memo (.error b) s = .done r s' ∧
    (bddIsEmpty env (.error b)).exec intern memo call s0 = .done r s1

/-- In an `Env` after any sequence of definitions: for every error type, `errorSubtypeIsEmpty` is true
exactly if no set of distinct ids with a readonly detail satisfies the `Bdd`, if and only if the readonly
mapping is asked for or makes no difference. -/
theorem errorSubtypeIsEmpty_right_iff {typeOps : List TypeOp} (hx : ExactFields den R Cell Atomic)
    (hro : (runOps .init typeOps).DetailAtom den undef Atomic BDD_REC_ATOM_READONLY) {b : Bdd}
    (hb : ErrorBdd ((runOps .init typeOps).DetailAtom den undef Atomic) b) {S : Type}
    {intern : CellAtomicType → S → TypeAtom × S} {memo : BddIsEmpty → S → Outcome S Bool}
    {call : SemType → S → Outcome S Bool} (hhandlers : ErrorHandlers R Cell den (runOps .init typeOps)
      (ensurePositive BDD_SUBTYPE_RO b) intern memo call) (s : S) :
    ∃ r s', (errorSubtypeIsEmpty b).exec intern memo call s = .done r s' ∧
      ((r = true ↔ ¬ ∃ e : ErrorValue V, (runOps .init typeOps).ReadonlyDetail den e.detail ∧
        b.holds ((runOps .init typeOps).ErrorContains den e)) ↔ (runOps .init typeOps).DetailsSeen den b) := by
  have hindexed := Env.Indexed.run typeOps Env.init_indexed
  generalize runOps .init typeOps = env at *
  have hordered := hb.ordered hro
  have hreadonly : BDD_SUBTYPE_RO.OrderedOver fun a => IsDistinct a ∨ env.DetailAtom den undef Atomic a :=
    Bdd.OrderedOver.bddAtom (.inr hro)
  have hissued : ∀ a, IsDistinct a ∨ env.DetailAtom den undef Atomic a → env.Issued .mapping a := by
    rintro a (⟨id, rfl⟩ | ⟨h, _⟩)
    · exact .recAtom _
    · exact h
  have hknown : ∀ a, IsDistinct a ∨ env.DetailAtom den undef Atomic a →
      IsDistinct a ∨ ∃ m, env.mappingAtomType a = some m := fun a ha =>
    ha.imp id fun ⟨_, m, hm, _⟩ => ⟨m, hm⟩
  -- the answer of the predicate, and so of the table
  have hanswer : ∀ {b : Bdd}, (b.OrderedOver fun a => IsDistinct a ∨ env.DetailAtom den undef Atomic a) →
      ErrorHandlers R Cell den env b intern memo call →
      ∃ r s', (askBddIsEmpty (.error b)).exec intern memo call s = .done r s' ∧
        (r = true ↔ ∀ e : ErrorValue V, ¬ b.holds (env.ErrorContains den e)) := by
    intro b hb hhandlers
    obtain ⟨r, s', s0, s1, hmemo, hrun⟩ := hhandlers.table s
    obtain ⟨r', _, hrun', hr'⟩ : ∃ r' s', (bddIsEmpty env (.error b)).exec intern memo call s0 = .done r' s' ∧
        (r' = true ↔ ∀ e : ErrorValue V, ¬ b.holds (env.ErrorContains den e)) :=
      (errorBddIsEmpty_ensures hx hb).exec hhandlers.names hhandlers.member s0
    rw [hrun] at hrun'
    cases hrun'
    refine ⟨r, s', ?_, hr'⟩
    show (memo (.error b) s).andThen _ = _
    rw [hmemo]
    rfl
  unfold errorSubtypeIsEmpty
  unfold Env.DetailsSeen
  cases hmaybe : bddPosMaybeEmpty b with
  | true =>
    -- the readonly mapping is asked for
    have hpositive : ensurePositive BDD_SUBTYPE_RO b = bddIntersect b BDD_SUBTYPE_RO := if_pos hmaybe
    rw [hpositive] at hhandlers ⊢
    obtain ⟨r, s', hrun, hr⟩ := hanswer (hordered.intersect hreadonly) hhandlers
    refine ⟨r, s', hrun, iff_of_true (hr.trans ?_) (.inl rfl)⟩
    have hholds : ∀ e : ErrorValue V, (bddIntersect b BDD_SUBTYPE_RO).holds (env.ErrorContains den e) ↔
        b.holds (env.ErrorContains den e) ∧ env.ReadonlyDetail den e.detail := by
      intro e
      have hright := bddOpsRight_of_told_apart (fun a b ha hb => Env.Issued.eq_of_cmp hindexed
        (hissued a ha) (hissued b hb)) hordered.toOver hreadonly.toOver (env.ErrorContains den e)
      refine hright.intersect.trans (and_congr_right fun _ => (Bdd.holds_bddAtom _).trans (or_iff_right ?_))
      rintro ⟨id, _, hid⟩
      have hzero : (0 : Int) = -(id : Int) - 1 := Atom.recAtom.inj hid
      omega
    constructor
    · rintro h ⟨e, hdetail, hmem⟩
      exact h e ((hholds e).mpr ⟨hmem, hdetail⟩)
    · intro h e hmem
      obtain ⟨hmem, hdetail⟩ := (hholds e).mp hmem
      exact h ⟨e, hdetail, hmem⟩
  | false =>
    have hsame : ensurePositive BDD_SUBTYPE_RO b = b := if_neg (by rw [hmaybe]; decide)
    rw [hsame] at hhandlers ⊢
    obtain ⟨r, s', hrun, hr⟩ := hanswer hordered hhandlers
    refine ⟨r, s', hrun, ?_⟩
    have hall : (∀ e : ErrorValue V, True → ¬ b.holds (env.ErrorContains den e)) ↔
        b.EveryPath (fun pos neg => ∀ f, True → ¬ env.DetailOn den pos neg f) [] [] :=
      errorBdd_empty_iff (R := fun _ => True) (hordered.mono hknown)
    have hdetail : (∀ e : ErrorValue V, env.ReadonlyDetail den e.detail → ¬ b.holds (env.ErrorContains den e)) ↔
        b.EveryPath (fun pos neg => ∀ f, env.ReadonlyDetail den f → ¬ env.DetailOn den pos neg f) [] [] :=
      errorBdd_empty_iff (R := fun f => env.ReadonlyDetail den f) (hordered.mono hknown)
    have hempty : (¬ ∃ e : ErrorValue V, env.ReadonlyDetail den e.detail ∧
        b.holds (env.ErrorContains den e)) ↔ b.EveryPath (fun pos neg => ∀ f, env.ReadonlyDetail den f →
          ¬ env.DetailOn den pos neg f) [] [] := by
      rw [← hdetail]
      exact ⟨fun h e he hmem => h ⟨e, he, hmem⟩, fun h ⟨e, he, hmem⟩ => h e he hmem⟩
    have hpaths : r = true ↔ b.EveryPath (fun pos neg => ∀ f, True → ¬ env.DetailOn den pos neg f) [] [] := by
      rw [hr, ← hall]
      exact ⟨fun h e _ => h e, fun h e => h e trivial⟩
    -- on each path: no detail, or no readonly one and none of another kind
    have hsplit : b.EveryPath (fun pos neg => ∀ f, True → ¬ env.DetailOn den pos neg f) [] [] ↔
        b.EveryPath (fun pos neg => ∀ f, env.DetailOn den pos neg f → env.ReadonlyDetail den f) [] [] ∧
        b.EveryPath (fun pos neg => ∀ f, env.ReadonlyDetail den f → ¬ env.DetailOn den pos neg f) [] [] := by
      rw [← Bdd.everyPath_and]
      constructor
      · exact fun h => h.imp fun pos neg hno => ⟨fun f hf => absurd hf (hno f trivial),
          fun f _ => hno f trivial⟩
      · exact fun h => h.imp fun pos neg hboth f _ hf => hboth.2 f (hboth.1 f hf) hf
    rw [hempty, hpaths, hsplit]
    constructor
    · intro h
      by_cases hnone : b.EveryPath (fun pos neg => ∀ f, env.ReadonlyDetail den f →
          ¬ env.DetailOn den pos neg f) [] []
      · exact .inr (.inl (h.mpr hnone).1)
      · exact .inr (.inr hnone)
    · rintro (hfalse | honly | hsome)
      · cases hfalse
      · exact ⟨fun h => h.2, fun h => ⟨honly, h⟩⟩
      · exact ⟨fun h => h.2, fun h => absurd h hsome⟩

end Answer

/-! ## Members that are readonly or not -/

/-- The codes of `readonlySubtypes`. -/
def readonlyBits : BasicTypeBitSet :=
  basicType BT_LIST ||| basicType BT_MAPPING ||| basicType BT_TABLE ||| basicType BT_XML

/-- The basic types that `INNER_READONLY` has all of. -/
def readonlyAll : BasicTypeBitSet := VT_INHERENTLY_IMMUTABLE ||| UNDEF

theorem unpack_readonly : unpackComplexSemType (createComplexSemType readonlyAll readonlySubtypes) =
    some readonlySubtypes := by
  have hcodes : codesOf (createComplexSemType readonlyAll readonlySubtypes).some =
      [BT_LIST, BT_MAPPING, BT_TABLE, BT_XML] := by
    show codesOf (0 ||| basicType BT_LIST ||| basicType BT_MAPPING ||| basicType BT_TABLE |||
      basicType BT_XML) = _
    decide
  unfold unpackComplexSemType
  rw [unpackFrom_eq _ _ (by rw [hcodes]; rfl), hcodes]
  rfl

theorem pairs_readonly_right : subtypePairs readonlyBits [] readonlySubtypes =
    readonlySubtypes.map fun e => (e.1, none, some e.2) := by
  rw [subtypePairs]
  rfl

theorem pairs_readonly_left : subtypePairs readonlyBits readonlySubtypes [] =
    readonlySubtypes.map fun e => (e.1, some e.2, none) := by
  unfold readonlySubtypes
  rw [subtypePairs]
  rfl

theorem pairs_readonly_both : subtypePairs readonlyBits readonlySubtypes readonlySubtypes =
    readonlySubtypes.map fun e => (e.1, some e.2, some e.2) := by
  have hall : ∀ e ∈ readonlySubtypes, subtypePairs.includes readonlyBits e.1 = true := by
    unfold readonlySubtypes
    simp only [List.forall_mem_cons]
    decide
  unfold readonlySubtypes at hall ⊢
  simp only [List.forall_mem_cons] at hall
  obtain ⟨hlist, hmapping, htable, hxml, _⟩ := hall
  simp only [subtypePairs, if_true, subtypePairs.emit, hlist, hmapping, htable, hxml]
  rfl

section Readonly

variable [BddIdentity]

omit [BddIdentity] in
theorem intersectBits_readonly : INNER &&& readonlyAll = readonlyAll ∧ readonlyAll &&& INNER = readonlyAll ∧
    readonlyAll &&& readonlyAll = readonlyAll ∧
    ((0 ||| INNER) &&& (readonlyBits ||| readonlyAll)) &&& ~~~readonlyAll = readonlyBits ∧
    ((readonlyBits ||| readonlyAll) &&& (0 ||| INNER)) &&& ~~~readonlyAll = readonlyBits ∧
    ((readonlyBits ||| readonlyAll) &&& (readonlyBits ||| readonlyAll)) &&& ~~~readonlyAll = readonlyBits ∧
    readonlyBits ≠ 0 ∧ INNER ≠ 0 ∧ INNER ≠ VT_MASK := by
  decide

theorem intersect_inner_readonly : intersect ops (.bits INNER) INNER_READONLY = some INNER_READONLY := by
  obtain ⟨hall, _, _, hsome, _, _, hne, hzero, hmask⟩ := intersectBits_readonly
  show (if INNER = 0 then some (SemTypeOf.bits INNER) else if INNER = VT_MASK then some INNER_READONLY
    else intersectMerge ops (.bits INNER) INNER_READONLY INNER 0 readonlyAll readonlyBits) = _
  rw [if_neg hzero, if_neg hmask]
  unfold intersectMerge
  dsimp only
  rw [hall, hsome, if_neg hne]
  have hpairs : subtypePairIterator (.bits INNER) INNER_READONLY readonlyBits =
      some (readonlySubtypes.map fun e => (e.1, none, some e.2)) := by
    show (do
      let u2 ← unpackComplexSemType (createComplexSemType readonlyAll readonlySubtypes)
      return subtypePairs readonlyBits [] u2) = _
    rw [unpack_readonly]
    exact congrArg some pairs_readonly_right
  rw [hpairs]
  rfl

theorem intersect_readonly_inner : intersect ops INNER_READONLY (.bits INNER) = some INNER_READONLY := by
  obtain ⟨_, hall, _, _, hsome, _, hne, hzero, hmask⟩ := intersectBits_readonly
  show (if INNER = 0 then some (SemTypeOf.bits INNER) else if INNER = VT_MASK then some INNER_READONLY
    else intersectMerge ops INNER_READONLY (.bits INNER) readonlyAll readonlyBits INNER 0) = _
  rw [if_neg hzero, if_neg hmask]
  unfold intersectMerge
  dsimp only
  rw [hall, hsome, if_neg hne]
  have hpairs : subtypePairIterator INNER_READONLY (.bits INNER) readonlyBits =
      some (readonlySubtypes.map fun e => (e.1, some e.2, none)) := by
    show (do
      let u1 ← unpackComplexSemType (createComplexSemType readonlyAll readonlySubtypes)
      return subtypePairs readonlyBits u1 []) = _
    rw [unpack_readonly]
    exact congrArg some pairs_readonly_left
  rw [hpairs]
  rfl

end Readonly

theorem intersect_readonly_self :
    let _ := BddIdentity.shared
    intersect ops INNER_READONLY INNER_READONLY = some INNER_READONLY := by
  intro _
  obtain ⟨_, _, hall, _, _, hsome, hne, _, _⟩ := intersectBits_readonly
  show intersectMerge ops INNER_READONLY INNER_READONLY readonlyAll readonlyBits readonlyAll readonlyBits = _
  unfold intersectMerge
  dsimp only
  rw [hall, hsome, if_neg hne]
  have hpairs : subtypePairIterator INNER_READONLY INNER_READONLY readonlyBits =
      some (readonlySubtypes.map fun e => (e.1, some e.2, some e.2)) := by
    show (do
      let u1 ← unpackComplexSemType (createComplexSemType readonlyAll readonlySubtypes)
      let u2 ← unpackComplexSemType (createComplexSemType readonlyAll readonlySubtypes)
      return subtypePairs readonlyBits u1 u2) = _
    rw [unpack_readonly]
    exact congrArg some pairs_readonly_both
  rw [hpairs]
  rfl

/-- A member of a detail. -/
inductive DetailMember where
  | absent
  | fixed
  | changeable
deriving DecidableEq, Repr

/-- The members of the cells below. -/
def DetailMember.In (v : DetailMember) : SemType → Prop
  | .bits b => b ≠ 0
  | .complex _ => v ≠ .changeable

/-- The cells of `any|error` and of its readonly part, and the empty ones. -/
def readonlyCells : CellTable DetailMember where
  has c := c = ⟨NEVER, .limited⟩ ∨ c = ⟨NEVER, .none⟩ ∨ c = ⟨.bits INNER, .limited⟩ ∨
    c = ⟨INNER_READONLY, .none⟩
  index
    | ⟨.bits b, .limited⟩ => if b = 0 then 1 else 2
    | ⟨.bits _, _⟩ => 12
    | ⟨.complex _, _⟩ => 7
  index_inj := by
    have hinner : ¬ INNER = 0#32 := by decide
    rintro c c' (rfl | rfl | rfl | rfl) (rfl | rfl | rfl | rfl) h <;>
      simp [NEVER, INNER_READONLY, hinner] at h ⊢
  mem c := {v | v.In c.ty}
  never := ⟨Or.inl rfl, rfl⟩
  mem_never := by
    intro c hc
    ext v
    refine iff_of_false (fun hv => ?_) (Set.notMem_empty v)
    have hv : v.In c.ty := hv
    rw [hc] at hv
    exact hv rfl

theorem intersect_never [BddIdentity] (t : SemType) : intersect ops NEVER t = some NEVER := by
  cases t with
  | bits b => exact congrArg (fun c => some (SemTypeOf.bits c)) BitVec.zero_and
  | complex c => rfl

theorem intersect_never_right [BddIdentity] (t : SemType) : intersect ops t NEVER = some NEVER := by
  cases t with
  | bits b => exact congrArg (fun c => some (SemTypeOf.bits c)) BitVec.and_zero
  | complex c => rfl

theorem readonlyCells_meets :
    let _ := BddIdentity.shared
    readonlyCells.Meets := by
  intro _ c1 c2 h1 h2
  have hmeet : ∀ {ty : SemType} {m : CellMutability}, intersect ops c1.ty c2.ty = some ty →
      c1.mutability.min c2.mutability = m → ty ≠ .bits UNDEF → readonlyCells.has ⟨ty, m⟩ →
      (∀ v : DetailMember, v.In ty ↔ v.In c1.ty ∧ v.In c2.ty) →
      ∃ c, intersectCellAtomicType c1 c2 = some c ∧
        readonlyCells.has ⟨c.ty, if c.ty = .bits UNDEF then .none else c.mutability⟩ ∧
        readonlyCells.mem ⟨c.ty, if c.ty = .bits UNDEF then .none else c.mutability⟩ =
          readonlyCells.mem c1 ∩ readonlyCells.mem c2 := by
    intro ty m hty hm hne hhas hin
    refine ⟨⟨ty, m⟩, ?_, ?_, ?_⟩
    · unfold intersectCellAtomicType
      rw [hty, hm]
      rfl
    · rw [if_neg hne]
      exact hhas
    · rw [if_neg hne]
      ext v
      exact hin v
  have hnever : ∀ v : DetailMember, ¬ v.In NEVER := fun v hv => hv rfl
  have hne : NEVER ≠ .bits UNDEF := fun h => absurd (SemTypeOf.bits.inj h) (by decide)
  have hinner : ∀ v : DetailMember, v.In (.bits INNER) := fun v => show INNER ≠ 0 by decide
  have hinnerNe : SemTypeOf.bits INNER ≠ (.bits UNDEF : SemType) :=
    fun h => absurd (SemTypeOf.bits.inj h) (by decide)
  have hreadonlyNe : INNER_READONLY ≠ .bits UNDEF := fun h => by cases h
  have hemptyLeft : c1.ty = NEVER → readonlyCells.has ⟨NEVER, c1.mutability.min c2.mutability⟩ →
      _ := fun hc hhas => hmeet (hc ▸ intersect_never c2.ty) rfl hne hhas fun v =>
        iff_of_false (hnever v) fun hv => hnever v (hc ▸ hv.1)
  have hemptyRight : c2.ty = NEVER → readonlyCells.has ⟨NEVER, c1.mutability.min c2.mutability⟩ →
      _ := fun hc hhas => hmeet (hc ▸ intersect_never_right c1.ty) rfl hne hhas fun v =>
        iff_of_false (hnever v) fun hv => hnever v (hc ▸ hv.2)
  have hlimited : readonlyCells.has ⟨NEVER, .limited⟩ := .inl rfl
  have hnone : readonlyCells.has ⟨NEVER, .none⟩ := .inr (.inl rfl)
  have hreadonly : readonlyCells.has ⟨INNER_READONLY, .none⟩ := .inr (.inr (.inr rfl))
  rcases h1 with rfl | rfl | rfl | rfl
  · rcases h2 with rfl | rfl | rfl | rfl
    · exact hemptyLeft rfl hlimited
    · exact hemptyLeft rfl hnone
    · exact hemptyLeft rfl hlimited
    · exact hemptyLeft rfl hnone
  · rcases h2 with rfl | rfl | rfl | rfl <;> exact hemptyLeft rfl hnone
  · rcases h2 with rfl | rfl | rfl | rfl
    · exact hemptyRight rfl hlimited
    · exact hemptyRight rfl hnone
    · exact hmeet rfl rfl hinnerNe (.inr (.inr (.inl rfl))) fun v =>
        iff_of_true (hinner v) ⟨hinner v, hinner v⟩
    · exact hmeet intersect_inner_readonly rfl hreadonlyNe hreadonly fun v =>
        (and_iff_right (hinner v)).symm
  · rcases h2 with rfl | rfl | rfl | rfl
    · exact hemptyRight rfl hnone
    · exact hemptyRight rfl hnone
    · exact hmeet intersect_readonly_inner rfl hreadonlyNe hreadonly fun v =>
        (and_iff_left (hinner v)).symm
    · exact hmeet intersect_readonly_self rfl hreadonlyNe hreadonly fun v => (and_self_iff).symm

/-- `record {| (any|error) a?; (any|error)...; |}`, which has all mappings. -/
def openRecord : MappingAtomicType := ⟨["a"], [CELL_SEMTYPE_INNER], CELL_SEMTYPE_INNER⟩

def openRecordOps : List TypeOp := [.mappingDefine {} [("a", CELL_SEMTYPE_INNER)] CELL_SEMTYPE_INNER]

theorem runOps_openRecord : runOps .init openRecordOps = (Env.init.mappingAtom openRecord).2 := by
  show (MappingDefinition.define {} Env.init [("a", CELL_SEMTYPE_INNER)] CELL_SEMTYPE_INNER).2.2 = _
  unfold MappingDefinition.define splitFields
  rw [List.mergeSort_singleton]
  rfl

def openRecordAtom : Atom := (Env.init.mappingAtom openRecord).1.toAtom

def openRecordEnv : Env := runOps .init openRecordOps

theorem recMappingAtoms_typeAtom (env : Env) (t : AtomicType) :
    (env.typeAtom t).2.recMappingAtoms = env.recMappingAtoms := by
  unfold Env.typeAtom
  split
  next => rfl
  next => rfl

theorem single_inner : readonlyCells.Single CELL_SEMTYPE_INNER ∧ ∀ v, v ∈ readonlyCells.den CELL_SEMTYPE_INNER := by
  have hhas : readonlyCells.has ⟨.bits INNER, .limited⟩ := .inr (.inr (.inl rfl))
  have hden : readonlyCells.den CELL_SEMTYPE_INNER = _ := readonlyCells.den_single hhas
  refine ⟨⟨_, hhas, rfl⟩, fun v => ?_⟩
  rw [hden]
  show INNER ≠ 0
  decide

theorem single_readonly : readonlyCells.Single CELL_SEMTYPE_INNER_RO ∧
    ∀ v : DetailMember, v ∈ readonlyCells.den CELL_SEMTYPE_INNER_RO ↔ v ≠ .changeable := by
  have hhas : readonlyCells.has ⟨INNER_READONLY, .none⟩ := .inr (.inr (.inr rfl))
  have hden : readonlyCells.den CELL_SEMTYPE_INNER_RO = _ := readonlyCells.den_single hhas
  refine ⟨⟨_, hhas, rfl⟩, fun v => ?_⟩
  rw [hden]
  exact Iff.rfl

theorem mappingAtomType_readonly :
    openRecordEnv.mappingAtomType BDD_REC_ATOM_READONLY = some ⟨[], [], CELL_SEMTYPE_INNER_RO⟩ := by
  have hinit : Env.init.recMappingAtoms = Env.fresh.recMappingAtoms := Env.init_recAtoms.2.1
  show Env.getRecAtomType openRecordEnv.recMappingAtoms 0 = _
  unfold openRecordEnv
  rw [runOps_openRecord]
  unfold Env.mappingAtom
  rw [recMappingAtoms_typeAtom, hinit]
  rfl

theorem detailAtom_readonly :
    openRecordEnv.DetailAtom readonlyCells.den .absent readonlyCells.Single BDD_REC_ATOM_READONLY :=
  ⟨.recAtom 0, _, mappingAtomType_readonly, ⟨⟨rfl, List.Pairwise.nil⟩, fun t ht => absurd ht List.not_mem_nil,
    single_readonly.1⟩, (single_readonly.2 _).mpr (by decide)⟩

theorem openRecordAtom_type :
    (Env.init.mappingAtom openRecord).1.atomicType = openRecord.toAtomicType := by
  have hsome := List.find?_some (Env.find?_typeAtom_self Env.init openRecord.toAtomicType)
  exact of_decide_eq_true hsome

theorem mappingAtomType_openRecord : openRecordEnv.mappingAtomType openRecordAtom = some openRecord := by
  show (Env.init.mappingAtom openRecord).1.atomicType.toMapping = _
  rw [openRecordAtom_type]
  rfl

theorem openRecord_over {S : SemType → Prop} (h : S CELL_SEMTYPE_INNER) : openRecord.Over S where
  sorted := ⟨rfl, List.pairwise_singleton _ _⟩
  types _ ht := List.mem_singleton.mp ht ▸ h
  rest := h

theorem detailAtom_openRecord :
    openRecordEnv.DetailAtom readonlyCells.den .absent readonlyCells.Single openRecordAtom := by
  refine ⟨?_, openRecord, mappingAtomType_openRecord, openRecord_over single_inner.1, single_inner.2 _⟩
  unfold openRecordEnv
  rw [runOps_openRecord]
  refine .interned (List.mem_of_find?_eq_some (Env.find?_typeAtom_self Env.init openRecord.toAtomicType)) ?_
  exact congrArg AtomicType.kind openRecordAtom_type

/-- Every member type of the record has every member. -/
theorem openRecord_contains (f : String → DetailMember) :
    openRecordEnv.MappingContains readonlyCells.den f openRecordAtom := by
  rw [Env.mappingContains_iff mappingAtomType_openRecord]
  intro k
  have hover : openRecord.Over (· = CELL_SEMTYPE_INNER) := openRecord_over rfl
  rw [hover.memberAt k]
  exact single_inner.2 _

/-- A table without entries. -/
noncomputable def openRecordMemo [BddIdentity] (p : BddIsEmpty) (s : Unit) : Outcome Unit Bool :=
  (bddIsEmpty openRecordEnv p).exec readonlyCells.intern (fun _ _ => .panic) readonlyCells.isEmpty s

theorem exactFields_readonly :
    let _ := BddIdentity.shared
    ExactFields readonlyCells.den readonlyCells.Names CellTable.Positive readonlyCells.Single := by
  intro _
  refine readonlyCells.exactFields readonlyCells_meets ⟨.inr (.inr (.inl rfl)), ?_, ?_⟩
  · show (if INNER = 0 then (1 : Int) else 2) = 2
    decide
  · ext v
    exact iff_of_true (show INNER ≠ 0 by decide) (Set.mem_univ v)

/-- What the predicate returns for `b`, with any table. -/
theorem openRecord_run {b : Bdd}
    (hb : b.OrderedOver fun a => IsDistinct a ∨
      openRecordEnv.DetailAtom readonlyCells.den .absent readonlyCells.Single a)
    (memo : BddIsEmpty → Unit → Outcome Unit Bool) :
    let _ := BddIdentity.shared
    ∃ r s', (bddIsEmpty openRecordEnv (.error b)).exec readonlyCells.intern memo readonlyCells.isEmpty () =
        .done r s' ∧
      (r = true ↔ ∀ e : ErrorValue DetailMember,
        ¬ b.holds (openRecordEnv.ErrorContains readonlyCells.den e)) := by
  intro _
  exact (errorBddIsEmpty_ensures exactFields_readonly hb).exec readonlyCells.names_intern
    (fun t s _ => readonlyCells.emptyRight_isEmpty t s) ()

theorem openRecord_handlers {b : Bdd}
    (hb : b.OrderedOver fun a => IsDistinct a ∨
      openRecordEnv.DetailAtom readonlyCells.den .absent readonlyCells.Single a) :
    let _ := BddIdentity.shared
    ErrorHandlers readonlyCells.Names CellTable.Positive readonlyCells.den openRecordEnv b
      readonlyCells.intern openRecordMemo readonlyCells.isEmpty := by
  intro _
  refine ⟨readonlyCells.names_intern, fun t s _ => readonlyCells.emptyRight_isEmpty t s, fun s => ?_⟩
  obtain ⟨r, s', hrun, hr⟩ := openRecord_run hb fun _ _ => .panic
  obtain ⟨r', s1, hrun', hr'⟩ := openRecord_run hb openRecordMemo
  have heq : r = r' := Bool.eq_iff_iff.mpr (hr.trans hr'.symm)
  rw [← heq] at hrun'
  exact ⟨r, s', (), s1, hrun, hrun'⟩

theorem bddDiff_detail (i : Int) (t : AtomicType) :
    let _ := BddIdentity.shared
    bddDiff (bddAtom (.recAtom (-2))) (bddIntersect (bddAtom (.typeAtom i t)) BDD_SUBTYPE_RO) =
      .node (.recAtom (-2)) (.node BDD_REC_ATOM_READONLY (.leaf false)
        (.node (.typeAtom i t) (.leaf false) (.leaf false) (.leaf true)) (.leaf true))
        (.leaf false) (.leaf false) := rfl

/-- The errors with the distinct id 1 and a detail of the open record, but not with the id 0. -/
def mixedError [BddIdentity] : Bdd :=
  bddDiff (bddIntersect (bddAtom (.recAtom (-2)))
    (bddIntersect (bddAtom openRecordAtom) BDD_SUBTYPE_RO)) (bddAtom (.recAtom (-1)))

theorem errorSubtypeIsEmpty_right_mixed :
    let _ := BddIdentity.shared
    ∃ r s', (errorSubtypeIsEmpty mixedError).exec readonlyCells.intern openRecordMemo
        readonlyCells.isEmpty () = .done r s' ∧
      ((r = true ↔ ¬ ∃ e : ErrorValue DetailMember, openRecordEnv.ReadonlyDetail readonlyCells.den e.detail ∧
        mixedError.holds (openRecordEnv.ErrorContains readonlyCells.den e)) ↔
      openRecordEnv.DetailsSeen readonlyCells.den mixedError) := by
  intro _
  have hb : ErrorBdd (openRecordEnv.DetailAtom readonlyCells.den .absent readonlyCells.Single) mixedError :=
    .diff (.intersect (.distinct 1) (.detail (Bdd.OrderedOver.bddAtom detailAtom_openRecord))) (.distinct 0)
  -- the operations are not run
  generalize mixedError = b at hb
  exact errorSubtypeIsEmpty_right_iff exactFields_readonly detailAtom_readonly hb
    (openRecord_handlers (.ensurePositive (.inr detailAtom_readonly) (hb.ordered detailAtom_readonly))) ()

/-- A type with a distinct id without all errors is taken to have values. -/
theorem not_right_distinct :
    let _ := BddIdentity.shared
    let b := bddDiff (bddAtom (.recAtom (-2))) (bddIntersect (bddAtom openRecordAtom) BDD_SUBTYPE_RO)
    ErrorBdd (openRecordEnv.DetailAtom readonlyCells.den .absent readonlyCells.Single) b ∧
    (∃ s', (errorSubtypeIsEmpty b).exec readonlyCells.intern openRecordMemo readonlyCells.isEmpty () =
      .done false s') ∧
    ¬ ∃ e : ErrorValue DetailMember, openRecordEnv.ReadonlyDetail readonlyCells.den e.detail ∧
      b.holds (openRecordEnv.ErrorContains readonlyCells.den e) := by
  intro _ b
  have hshape : b = .node (.recAtom (-2)) (.node BDD_REC_ATOM_READONLY (.leaf false)
      (.node openRecordAtom (.leaf false) (.leaf false) (.leaf true)) (.leaf true))
      (.leaf false) (.leaf false) := bddDiff_detail _ _
  have hb : ErrorBdd (openRecordEnv.DetailAtom readonlyCells.den .absent readonlyCells.Single) b :=
    .diff (.distinct 1) (.detail (Bdd.OrderedOver.bddAtom detailAtom_openRecord))
  have hreadonly : ∀ f, openRecordEnv.MappingContains readonlyCells.den f BDD_REC_ATOM_READONLY ↔
      ∀ k, f k ≠ .changeable := by
    intro f
    rw [Env.mappingContains_iff mappingAtomType_readonly]
    exact forall_congr' fun k => single_readonly.2 (f k)
  refine ⟨hb, ?_, ?_⟩
  · have hsame : ensurePositive BDD_SUBTYPE_RO b = b := by
      rw [hshape]
      rfl
    obtain ⟨r, s', hrun, hr⟩ := openRecord_run (hb.ordered detailAtom_readonly) fun _ _ => .panic
    have hfalse : r = false := by
      refine Bool.eq_false_iff.mpr fun htrue => hr.mp htrue ⟨{1}, fun _ => .changeable⟩ ?_
      -- an error with the id, whose detail is not readonly
      have hid : openRecordEnv.ErrorContains readonlyCells.den ⟨{1}, fun _ => .changeable⟩ (.recAtom (-2)) :=
        .inl ⟨1, Finset.mem_singleton_self 1, rfl⟩
      have hnot : ¬ openRecordEnv.ErrorContains readonlyCells.den ⟨{1}, fun _ => .changeable⟩
          BDD_REC_ATOM_READONLY := by
        rintro (⟨id, _, hid⟩ | hcontains)
        · have hzero : (0 : Int) = -(id : Int) - 1 := Atom.recAtom.inj hid
          omega
        · exact (hreadonly _).mp hcontains "a" rfl
      rw [hshape]
      exact .inl ⟨hid, .inr (.inr ⟨hnot, rfl⟩)⟩
    refine ⟨s', ?_⟩
    unfold errorSubtypeIsEmpty
    rw [hsame, ← hfalse]
    show (openRecordMemo (.error b) ()).andThen _ = _
    rw [show openRecordMemo (.error b) () = _ from hrun]
    rfl
  · rintro ⟨e, hdetail, hholds⟩
    rw [hshape] at hholds
    rcases (Bdd.holds_node _ _ _ _).mp hholds with ⟨_, hleft⟩ | hfalse | ⟨_, hfalse⟩
    · rcases (Bdd.holds_node _ _ _ _).mp hleft with ⟨_, hfalse⟩ | hall | ⟨hnot, _⟩
      · exact (Bdd.holds_false _).mp hfalse
      · rcases (Bdd.holds_node _ _ _ _).mp hall with ⟨_, hfalse⟩ | hfalse | ⟨hnot, _⟩
        · exact (Bdd.holds_false _).mp hfalse
        · exact (Bdd.holds_false _).mp hfalse
        · exact hnot (.inr (openRecord_contains e.detail))
      · exact hnot (.inr hdetail)
    · exact (Bdd.holds_false _).mp hfalse
    · exact (Bdd.holds_false _).mp hfalse

end Nballerina.Types
