import Nballerina.CodeGen.Conditions
import Nballerina.Types.Emptiness

/-!
# Conditions mean what they say

`codeGenExprForCond` is right for conditions in which the exit that is passed down is the one an
operator needs: a `||` is passed a true exit or none, and a `&&` a false exit or none. The code of
`a || (b && c)` is not: the true exit of `a`, which is passed down to the `&&`, is also the block
where `c` is evaluated: what is emitted is the code of `(a || b) && c` (`codeGenExprForCond_regroup`).
`Cond.aligned` excludes this.

For aligned conditions the true (false) exit is reached exactly when short-circuit evaluation gives
true (false), and the bindings that `codeGenTypeMerge` makes for an exit describe the variables
there.
-/

namespace Nballerina.CodeGen

open Nballerina.Lib
open Nballerina.Types (BddIdentity SemType)

variable {T V : Type}

/-- With the exit `passed` for a side, every operator that an exit is passed to leaves by it. -/
def Cond.aligned : Option Bool → Cond T V → Bool
  | passed, .group c => c.aligned passed
  | passed, .not c => c.aligned (passed.map (!·))
  | passed, .logical isOr left right =>
    (passed = none || passed = some isOr) && left.aligned passed && right.aligned (some isOr)
  | _, _ => true

theorem Cond.aligned_none {c : Cond T V} : ∀ {passed : Option Bool},
    c.aligned passed = true → c.aligned none = true := by
  induction c with
  | group c ih => exact fun h => ih h
  | not c ih => exact fun h => ih h
  | logical isOr left right ihl ihr =>
    intro passed h
    unfold Cond.aligned at h ⊢
    rw [Bool.and_eq_true, Bool.and_eq_true] at h
    rw [Bool.and_eq_true, Bool.and_eq_true]
    exact ⟨⟨rfl, ihl h.1.2⟩, h.2⟩
  | term => exact fun _ => rfl
  | typeTest => exact fun _ => rfl
  | equality => exact fun _ => rfl
  | relational => exact fun _ => rfl

section Source

variable [Values V] [TypeOps T V] (mod : String → Option (ModuleDefn T V)) (ρ : String → Option V)

/-- The value of a condition as an expression. -/
def evalExpr : Cond T V → Option V
  | .term t => evalTerm mod ρ t
  | .group c => evalExpr c
  | c => (evalCond mod ρ c).map ofBool

theorem evalCond_of_evalExpr [LawfulValues V] (c : Cond T V) {v : V} {b : Bool}
    (h : evalExpr mod ρ c = some v) (hv : toBool v = some b) : evalCond mod ρ c = some b := by
  have hmap : ∀ {o : Option Bool}, o.map ofBool = some v → o = some b := by
    intro o ho
    obtain ⟨b', hb', rfl⟩ := Option.map_eq_some_iff.mp ho
    rw [LawfulValues.toBool_ofBool] at hv
    rw [hb', hv]
  induction c with
  | term t =>
    have ht : evalTerm mod ρ t = some v := h
    show (evalTerm mod ρ t).bind toBool = some b
    rw [ht]
    exact hv
  | group c ih => exact ih h
  | not => exact hmap h
  | logical => exact hmap h
  | typeTest => exact hmap h
  | equality => exact hmap h
  | relational => exact hmap h

end Source

variable [Values V] [TypeOps T V] [LawfulTypes T] [LawfulValues V]
  {mod : String → Option (ModuleDefn T V)} {limit bindings : BindingChain T} {block : Nat}
  {prevs : Option (PrevTypeMergers T)} {g : Gen T V}

/-! ## Tests of terms -/

omit [TypeOps T V] [LawfulTypes T] in
theorem equal_comm (v w : V) : equal v w = equal w v := by
  have hsymm : ∀ {v w : V}, equal v w = true → equal w v = true := by
    intro v w h
    have hvv := LawfulValues.equal_congr h (LawfulValues.equal_refl v)
    rw [LawfulValues.equal_refl] at hvv
    exact hvv.symm
  exact Bool.eq_iff_iff.mpr ⟨hsymm, hsymm⟩

/-- Two terms, one after the other. -/
theorem codeGenTerms_ok (hmod : LawfulModule mod) (hready : CondReady limit bindings block prevs g)
    (left right : Term V) {α : Type} {ok : α → Gen T V → Prop}
    {k : ExprEffect T V → ExprEffect T V → GenM T V α}
    (hk : ∀ l r g1, Straight bindings block g g1
        (BothHold (evalTerm mod · left) (evalTerm mod · right) l.result r.result) →
      l.block = block → r.block = block →
      (∀ b, l.binding = some b → l.result = .reg b.reg ∧ lookup b.name bindings = some b) →
      (∀ b, r.binding = some b → r.result = .reg b.reg ∧ lookup b.name bindings = some b) →
      After (k l r) g1 ok (fun _ _ => True)) :
    After (codeGenTerm mod bindings block left >>= fun l =>
      codeGenTerm mod bindings l.block right >>= fun r => k l r) g ok (fun _ _ => True) := by
  refine (codeGenTerm_ok hmod hready.block_lt hready.fits left).bind fun l g1 hl => ?_
  have hready1 := hready.mono hl.computes.straight.grows
  rw [hl.block]
  refine (codeGenTerm_ok hmod hready1.block_lt hready1.fits right).bind fun r g2 hr => ?_
  refine hk l r g2 ?_ hl.block hr.block hl.binding hr.binding
  refine (hl.computes.straight.append hr.computes.straight hready.fits fun ρ m m' hpost hkeeps => ?_)
  obtain ⟨v, hv, hholds⟩ := hpost
  exact ⟨v, hv, (Operand.eval_keeps hl.computes.below hkeeps.regs).trans hholds.eval,
    hholds.semType⟩

omit [LawfulTypes T] [LawfulValues V] [Values V] in
/-- The variable that an equality narrows, and the single value of the other operand. -/
theorem narrowingCompare_eq_some {op : EqualityOp} {l r : ExprEffect T V} {b : Binding T} {v : V}
    (h : narrowingCompare op l r = some (b, v)) : op.exact = false ∧
      ((l.binding = some b ∧ singleShape r.result.semType = some v) ∨
        (r.binding = some b ∧ singleShape l.result.semType = some v)) := by
  unfold narrowingCompare at h
  split at h
  next => cases h
  next hexact =>
    refine ⟨Bool.not_eq_true _ ▸ hexact, ?_⟩
    split at h
    next hbinding hshape =>
      cases h
      exact Or.inl ⟨hbinding, hshape⟩
    next hbinding hshape _ =>
      cases h
      exact Or.inr ⟨hbinding, hshape⟩
    next => cases h

omit [Values V] [LawfulTypes T] [LawfulValues V] [TypeOps T V] in
theorem checkTaken_same (negated : Bool) (effect : CondExprEffect T) (g : Gen T V) :
    After (checkTaken negated effect) g (fun effect' g' => effect' = effect ∧ g' = g)
      (fun _ _ => True) := by
  unfold checkTaken
  split
  next =>
    split
    next => trivial
    next => exact ⟨rfl, rfl⟩
  next => exact ⟨rfl, rfl⟩

/-- An equality that narrows a variable is a test of the variable for the value. -/
theorem codeGenNarrowingEquality_ok [DecidableEq T] (hready : CondReady limit bindings block prevs g)
    {g1 : Gen T V} {left right : (String → Option V) → Option V} {op : EqualityOp}
    {l r : ExprEffect T V} {b : Binding T} {value : V}
    (h : Straight bindings block g g1 (BothHold left right l.result r.result))
    (hl : ∀ b, l.binding = some b → l.result = .reg b.reg ∧ lookup b.name bindings = some b)
    (hr : ∀ b, r.binding = some b → r.result = .reg b.reg ∧ lookup b.name bindings = some b)
    (hcompare : narrowingCompare op l r = some (b, value)) :
    CondFrom limit bindings block prevs
      (fun ρ => (left ρ).bind fun v => (right ρ).map fun w => op.holds v w) g
      (codeGenTypeTestForCond bindings block (singleton value) b op.negated prevs >>= fun e =>
        checkTaken op.negated e) g1 := by
  obtain ⟨hexact, hsides⟩ := narrowingCompare_eq_some hcompare
  have hlookup : lookup b.name bindings = some b := by
    rcases hsides with ⟨hb, _⟩ | ⟨hb, _⟩
    · exact (hl b hb).2
    · exact (hr b hb).2
  have hpre : ∀ (m : Machine V) (ρ : String → Option V),
      BothHold left right l.result r.result ρ m →
      ∃ v, m.regs b.reg.number = v ∧ contains b.reg.semType v = true ∧
        ((left ρ).bind fun v => (right ρ).map fun w => op.holds v w) =
          some (contains (singleton value : T) v != op.negated) := by
    intro m ρ hm
    obtain ⟨⟨v, hv, hlv⟩, w, hw, hrw⟩ := hm
    have hholds : ∀ {x : Bool}, equal v w = x →
        ((left ρ).bind fun v => (right ρ).map fun w => op.holds v w) = some (x != op.negated) := by
      intro x hx
      rw [hv, hw]
      show some (op.holds v w) = _
      unfold EqualityOp.holds
      rw [hexact, if_neg Bool.false_ne_true, hx]
    rcases hsides with ⟨hb, hshape⟩ | ⟨hb, hshape⟩
    · have hreg := (hl b hb).1
      rw [hreg] at hlv
      refine ⟨v, hlv.eval, hlv.semType, hholds ?_⟩
      -- the other operand is the value
      have heq : equal w value = true := LawfulTypes.equal_of_singleShape hshape hrw.semType
      rw [LawfulTypes.contains_singleton, LawfulValues.equal_congr (LawfulValues.equal_refl v) heq]
    · have hreg := (hr b hb).1
      rw [hreg] at hrw
      refine ⟨w, hrw.eval, hrw.semType, hholds ?_⟩
      have heq : equal v value = true := LawfulTypes.equal_of_singleShape hshape hlv.semType
      rw [LawfulTypes.contains_singleton, LawfulValues.equal_congr heq (LawfulValues.equal_refl w),
        equal_comm value w]
  refine (codeGenTypeTestForCond_ok (hready.mono h.grows) hlookup hpre).bindSafe
    fun effect g2 hcond => ?_
  refine (checkTaken_same op.negated effect g2).imp (fun effect' g3 hsame => ?_) (fun _ _ h => h)
  obtain ⟨rfl, rfl⟩ := hsame
  exact h.condOk hready hcond

/-! ## The recursion -/

section Recursion

variable [DecidableEq T]

variable (mod) in
/-- What `codeGenExprForCond` is to do. -/
def ForCondOk (c : Cond T V) : Prop :=
  CondGen (fun prevs => c.aligned (prevs.map (·.side)) = true) (fun ρ => evalCond mod ρ c)
    fun bindings block prevs => codeGenExprForCond mod bindings block prevs c

variable (mod) in
/-- What `codeGenExpr` is to do. -/
def ForValueOk (c : Cond T V) : Prop :=
  ∀ (bindings : BindingChain T) (block : Nat) (g : Gen T V),
    CondReady bindings bindings block none g → c.aligned none = true →
    After (codeGenExpr mod bindings block c) g
      (fun effect g' => ExprOk bindings block (fun ρ => evalExpr mod ρ c) g g' effect)
      (fun _ _ => True)

/-- An operand of `&&` or `||` whose value is not needed. -/
theorem ForValueOk.boolean {c : Cond T V} (h : ForValueOk mod c) (haligned : c.aligned none = true)
    (block : Nat) (g : Gen T V) (hready : CondReady bindings bindings block none g) :
    After (codeGenExpr mod bindings block c >>= fun effect =>
        checkBoolean effect.result >>= fun _ => pure effect) g
      (fun _ g' => Grows (· = block) g g') (fun _ _ => True) := by
  refine (h bindings block g hready haligned).bind fun effect g1 hexpr => ?_
  refine (checkBoolean_ok effect.result g1).bind fun _ g2 hg2 => ?_
  rw [hg2.1]
  exact hexpr.grows

theorem codeGenLogicalBinaryExpr_ok {isOr : Bool} {left right : Cond T V}
    (hleft : ForCondOk mod left) (hright : ForCondOk mod right) (hvalue : ForValueOk mod right)
    (hready : CondReady limit bindings block prevs g)
    (haligned : (Cond.logical isOr left right).aligned (prevs.map (·.side)) = true) :
    CondFrom limit bindings block prevs (fun ρ => evalCond mod ρ (.logical isOr left right)) g
      (codeGenLogicalBinaryExpr bindings isOr
        (fun prevs => codeGenExprForCond mod bindings block prevs left)
        (fun bindings block prevs => codeGenExprForCond mod bindings block prevs right)
        (fun block => codeGenExpr mod bindings block right >>= fun effect =>
          checkBoolean effect.result >>= fun _ => pure effect)
        prevs) g := by
  unfold Cond.aligned at haligned
  rw [Bool.and_eq_true, Bool.and_eq_true, Bool.or_eq_true, decide_eq_true_eq,
    decide_eq_true_eq] at haligned
  obtain ⟨⟨hprevs, hleftAligned⟩, hrightAligned⟩ := haligned
  have hpassed : Passed isOr prevs := by
    intro p hp
    rw [hp] at hprevs
    rcases hprevs with hnone | hsome
    · cases hnone
    · exact Option.some.inj hsome
  have hrightOk : CondGen (Passed isOr) (fun ρ => evalCond mod ρ right)
      (fun bindings block prevs => codeGenExprForCond mod bindings block prevs right) := by
    intro limit bindings block prevs g hready hpassed
    refine hright limit bindings block prevs g hready ?_
    cases prevs with
    | none => exact Cond.aligned_none hrightAligned
    | some p =>
      show right.aligned (some p.side) = true
      rw [hpassed p rfl]
      exact hrightAligned
  exact (hleft limit bindings block prevs g hready hleftAligned).bind fun effect g1 hl =>
    codeGenLogicalRight_ok hready hpassed hl hrightOk fun block g hready =>
      hvalue.boolean (Cond.aligned_none hrightAligned) block g hready

omit [LawfulTypes T] [LawfulValues V] in
/-- The step of the induction at a negation. -/
theorem forCondOk_not {c : Cond T V} (h : ForCondOk mod c) : ForCondOk mod (.not c) := by
  intro limit bindings block prevs g hready haligned
  show After (codeGenExprForCond mod bindings block
    (prevs.map fun p => { p with side := !p.side }) c >>= fun effect => pure effect.flip) g _ _
  rw [after_bind]
  refine (h limit bindings block _ g ⟨hready.block_lt, hready.tidy, hready.fits, hready.proper,
    hready.onLimit, fun p hp => ?_⟩ ?_).imp (fun effect g1 hcond => hcond.flip) (fun _ _ h => h)
  · obtain ⟨q, hq, rfl⟩ := Option.map_eq_some_iff.mp hp
    exact hready.prevs q hq
  · have hsides : (prevs.map fun p => { p with side := !p.side }).map (·.side) =
        (prevs.map (·.side)).map (!·) := by
      cases prevs <;> rfl
    show c.aligned _ = true
    rw [hsides]
    exact haligned

/-- The code of a condition, and the code of its value. -/
theorem codeGenCond_ok (hmod : LawfulModule mod) (c : Cond T V) :
    ForCondOk mod c ∧ ForValueOk mod c := by
  induction c with
  | term t =>
    refine ⟨fun limit bindings block prevs g hready _ => ?_, fun bindings block g hready _ => ?_⟩
    · show After (codeGenTerm mod bindings block t >>= fun effect =>
        checkBoolean effect.result >>= fun _ =>
          finishCodeGenExprForCond bindings effect.block effect.result prevs) g _ _
      refine (codeGenTerm_ok hmod hready.block_lt hready.fits t).bind fun effect g1 ht => ?_
      refine (checkBoolean_ok effect.result g1).bind fun _ g2 hbool => ?_
      obtain ⟨rfl, hbool⟩ := hbool
      rw [ht.block]
      refine finishCodeGenExprForCond_ok hready ⟨ht.computes.straight.imp fun ρ m hpost => ?_,
        ht.computes.below⟩
      obtain ⟨v, hv, hholds⟩ := hpost
      obtain ⟨b, hvb, hb⟩ := hbool m v hholds
      refine ⟨b, ?_, hvb ▸ hholds⟩
      show (evalTerm mod ρ t).bind toBool = some b
      rw [hv]
      exact hb
    · refine (codeGenTerm_ok hmod hready.block_lt hready.fits t).imp (fun effect g1 ht => ?_)
        (fun _ _ h => h)
      have hexpr : ExprOk bindings block (fun ρ => evalTerm mod ρ t) g g1
          ⟨block, effect.result, effect.binding⟩ :=
        ht.computes.straight.exprOk hready ht.computes.below
      rw [← ht.block] at hexpr ⊢
      exact hexpr
  | group c ih => exact ih
  | not c ih =>
    refine ⟨forCondOk_not ih.1, fun bindings block g hready haligned => ?_⟩
    show After (codeGenExpr mod bindings block c >>= fun effect =>
      checkBoolean effect.result >>= fun _ => codeGenLogicalNotExpr effect) g _ _
    refine (ih.2 bindings block g hready haligned).bind fun effect g1 hexpr => ?_
    refine (checkBoolean_ok effect.result g1).bind fun _ g2 hbool => ?_
    obtain ⟨rfl, hbool⟩ := hbool
    refine codeGenLogicalNotExpr_ok hexpr hbool fun ρ b hb => ?_
    show ((evalCond mod ρ c).map (!·)).map ofBool = some (ofBool !b)
    rw [evalCond_of_evalExpr mod ρ c hb (LawfulValues.toBool_ofBool b)]
    rfl
  | logical isOr left right ihl ihr =>
    refine ⟨fun limit bindings block prevs g hready haligned =>
      codeGenLogicalBinaryExpr_ok ihl.1 ihr.1 ihr.2 hready haligned,
      fun bindings block g hready haligned => ?_⟩
    show After (codeGenLogicalBinaryExpr bindings isOr _ _ _ none >>= fun effect =>
      booleanEffectFromCondEffect effect) g _ _
    exact (codeGenLogicalBinaryExpr_ok ihl.1 ihr.1 ihr.2 hready haligned).bind 
      fun effect g1 hcond => booleanEffectFromCondEffect_ok hready hcond
  | typeTest left semType negated =>
    refine ⟨fun limit bindings block prevs g hready _ => ?_, fun bindings block g hready _ => ?_⟩
    · show After (codeGenTerm mod bindings block left >>= fun l => _) g _ _
      refine (codeGenTerm_ok hmod hready.block_lt hready.fits left).bind fun l g1 hl => ?_
      rw [hl.block]
      split
      next b hb =>
        obtain ⟨hreg, hlookup⟩ := hl.binding b hb
        refine (codeGenTypeTestForCond_ok (hready.mono hl.computes.straight.grows) hlookup
          fun m ρ hm => ?_).imp (fun effect g2 hcond => hl.computes.straight.condOk hready hcond)
          (fun _ _ h => h.elim)
        obtain ⟨v, hv, hholds⟩ := hm
        rw [hreg] at hholds
        refine ⟨v, hholds.eval, hholds.semType, ?_⟩
        show (evalTerm mod ρ left).map _ = _
        rw [hv]
        rfl
      next =>
        exact (finishCodeGenTypeTest_ok hl.computes.straight hl.computes.lawful hready.block_lt
          semType negated).bind 
          fun operand g2 hbool => finishCodeGenExprForCond_ok hready hbool
    · show After (codeGenTerm mod bindings block left >>= fun l => _) g _ _
      refine (codeGenTerm_ok hmod hready.block_lt hready.fits left).bind fun l g1 hl => ?_
      rw [hl.block]
      exact (finishCodeGenTypeTest_ok hl.computes.straight hl.computes.lawful hready.block_lt
        semType negated).bind 
        fun operand g2 hbool => hbool.exprOk hready
  | equality op left right =>
    refine ⟨fun limit bindings block prevs g hready _ => ?_, fun bindings block g hready _ => ?_⟩
    · refine codeGenTerms_ok hmod hready left right fun l r g1 h hlb hrb hl hr => ?_
      rw [hrb]
      split
      next b value hcompare => exact codeGenNarrowingEquality_ok hready h hl hr hcompare
      next =>
        exact (codeGenEqualityExpr_ok h hready.block_lt op).bind 
          fun operand g2 hbool => finishCodeGenExprForCond_ok hready hbool
    · refine codeGenTerms_ok hmod hready left right fun l r g1 h hlb hrb hl hr => ?_
      rw [hrb]
      exact (codeGenEqualityExpr_ok h hready.block_lt op).bind 
        fun operand g2 hbool => hbool.exprOk hready
  | relational op left right =>
    refine ⟨fun limit bindings block prevs g hready _ => ?_, fun bindings block g hready _ => ?_⟩
    · refine codeGenTerms_ok hmod hready left right fun l r g1 h hlb hrb hl hr => ?_
      rw [hrb]
      refine (codeGenRelationalExpr_ok h hready.block_lt op).bind fun operand g2 hbool => ?_
      refine (checkBoolean_ok operand g2).bind fun _ g3 hsame => ?_
      rw [hsame.1]
      exact finishCodeGenExprForCond_ok hready hbool
    · refine codeGenTerms_ok hmod hready left right fun l r g1 h hlb hrb hl hr => ?_
      rw [hrb]
      exact (codeGenRelationalExpr_ok h hready.block_lt op).bind 
        fun operand g2 hbool => hbool.exprOk hready

end Recursion

/-! ## Booleans -/

/-- The types over the booleans. -/
structure BoolType where
  hasFalse : Bool
  hasTrue : Bool
deriving DecidableEq

instance : Values Bool where
  equal v w := v == w
  exactEqual v w := v == w
  compare op v w := match op with
    | .lt => !v && w
    | .le => !v || w
    | .gt => v && !w
    | .ge => v || !w
  ofBool b := b
  toBool := some
  keepsRegister _ := false

instance : TypeOps BoolType Bool where
  union t1 t2 := ⟨t1.hasFalse || t2.hasFalse, t1.hasTrue || t2.hasTrue⟩
  intersect t1 t2 := ⟨t1.hasFalse && t2.hasFalse, t1.hasTrue && t2.hasTrue⟩
  diff t1 t2 := ⟨t1.hasFalse && !t2.hasFalse, t1.hasTrue && !t2.hasTrue⟩
  isEmpty t := !t.hasFalse && !t.hasTrue
  singleton v := ⟨!v, v⟩
  singleShape t := if t.hasFalse == t.hasTrue then none else some t.hasTrue
  BOOLEAN := ⟨true, true⟩
  booleanCode := true
  isBoolean _ := true
  isAnydata _ := true
  comparable _ _ := true
  contains t v := if v then t.hasTrue else t.hasFalse

instance : LawfulValues Bool where
  equal_refl v := by cases v <;> rfl
  equal_congr {v v' w w'} := by cases v <;> cases v' <;> cases w <;> cases w' <;> decide
  compare_congr op {v v' w w'} := by
    cases op <;> cases v <;> cases v' <;> cases w <;> cases w' <;> decide
  toBool_ofBool _ := rfl
  ofBool_of_toBool h := (Option.some.inj h).symm
  exactEqual_ofBool b := by cases b <;> rfl
  toBool_of_equal {v w b} := by cases v <;> cases w <;> cases b <;> decide

instance : LawfulTypes BoolType where
  contains_union _ _ v := by cases v <;> rfl
  contains_intersect _ _ v := by cases v <;> rfl
  contains_diff _ _ v := by cases v <;> rfl
  contains_of_isEmpty {t} v h := by
    obtain ⟨f, t⟩ := t
    revert h
    cases f <;> cases t <;> cases v <;> decide
  contains_singleton v w := by cases v <;> cases w <;> rfl
  equal_of_singleShape {t v w} := by
    obtain ⟨f, t⟩ := t
    cases f <;> cases t <;> cases v <;> cases w <;> decide
  eq_of_singleShape {t v w} := by
    obtain ⟨f, t⟩ := t
    cases f <;> cases t <;> cases v <;> cases w <;> decide
  contains_boolean b := by cases b <;> rfl
  toBool_of_isBoolean {t v} _ _ := ⟨v, rfl⟩

/-- The types stand for types of `types`, with the operations on these. -/
structure StandForTypes [TypeOps T V] [BddIdentity] (semType : T → SemType) : Prop where
  union : ∀ t1 t2, Types.union Types.ops (semType t1) (semType t2) = some (semType (union t1 t2))
  intersect : ∀ t1 t2,
    Types.intersect Types.ops (semType t1) (semType t2) = some (semType (intersect t1 t2))
  diff : ∀ t1 t2, Types.diff Types.ops (semType t1) (semType t2) = some (semType (diff t1 t2))
  isEmpty : ∀ t, isEmpty t = true ↔ semType t = Types.NEVER
  boolean : semType BOOLEAN = .bits (Types.basicType Types.BT_BOOLEAN)
  isBoolean : ∀ t, isBoolean t = Types.isSubtypeSimple (semType t) (Types.basicType Types.BT_BOOLEAN)

/-- `never`, `false`, `true` or `boolean` -/
def BoolType.semType (t : BoolType) : SemType :=
  if t.hasFalse = t.hasTrue then .bits (if t.hasTrue then Types.basicType Types.BT_BOOLEAN else 0)
  else Types.basicSubtype Types.BT_BOOLEAN (.boolean t.hasTrue)

instance {P : BoolType → Prop} [Decidable (∀ f t, P ⟨f, t⟩)] : Decidable (∀ t, P t) :=
  decidable_of_iff (∀ f t, P ⟨f, t⟩) ⟨fun h t => h t.hasFalse t.hasTrue, fun h f t => h ⟨f, t⟩⟩

/-- On the subtypes of `boolean` the operations of `types` are exact, and these are they. -/
theorem standForTypes_boolType :
    let _ := BddIdentity.shared
    StandForTypes BoolType.semType := by
  intro _
  refine ⟨?_, ?_, ?_, ?_, rfl, ?_⟩ <;> decide +kernel

theorem semType_singleton (b : Bool) :
    (TypeOps.singleton b : BoolType).semType = Types.basicSubtype Types.BT_BOOLEAN (.boolean b) := by
  cases b <;> rfl

/-- Two boolean parameters. -/
def xParam : DeclBinding BoolType := ⟨"x", ⟨.param, 0, ⟨true, true⟩⟩, true, fun h => by cases h⟩

def yParam : DeclBinding BoolType := ⟨"y", ⟨.param, 1, ⟨true, true⟩⟩, true, fun h => by cases h⟩

/-- The bindings and the code of a function with these parameters where its body begins. -/
def xyBindings : BindingChain BoolType := [.binding (.decl yParam), .binding (.decl xParam)]

def xyGen : Gen BoolType Bool where
  registers := [.capturable (.decl xParam.reg), .capturable (.decl yParam.reg)]
  blocks := fun _ => []
  blockCount := 1
  isClosure := false
  innerCapturedRegisters := []
  directRefVarRegisters := []

theorem ready_xyGen : CondReady xyBindings xyBindings 0 none xyGen where
  block_lt := Nat.one_pos
  tidy _ _ := rfl
  fits := by
    refine ⟨fun b hb => ?_, fun b hb => ?_⟩ <;>
      · simp only [xyBindings, List.mem_cons, List.not_mem_nil, or_false,
          Head.binding.injEq] at hb
        rcases hb with rfl | rfl <;> decide
  proper := by
    have hmem : ∀ b, Head.binding b ∈ xyBindings → b = .decl yParam ∨ b = .decl xParam := by
      intro b hb
      simpa only [xyBindings, List.mem_cons, List.not_mem_nil, or_false,
        Head.binding.injEq] using hb
    refine ⟨fun b hb => ?_, fun b b' hb hb' => ?_, fun b b' hb hb' => ?_⟩
    · rcases hmem b hb with rfl | rfl <;> rfl
    · rcases hmem b hb with rfl | rfl <;> rcases hmem b' hb' with rfl | rfl <;>
        simp [xParam, yParam, Binding.unnarrow]
    · rcases hmem b hb with rfl | rfl <;> rcases hmem b' hb' with rfl | rfl <;>
        simp [xParam, yParam, Binding.unnarrow, Binding.name]
  onLimit := .refl
  prevs _ h := by cases h

theorem lawfulModule_none :
    LawfulModule (fun _ => none : String → Option (ModuleDefn BoolType Bool)) where
  contains_self _ _ _ h := by cases h
  contains_eq _ _ _ h := by cases h

/-- `x is true || y` -/
def xTrueOrY : Cond BoolType Bool :=
  .logical true (.typeTest (.varRef "x") ⟨false, true⟩ false) (.term (.varRef "y"))

/-! ## Whole conditions -/

section Results

variable [DecidableEq T] {c : Cond T V} {g' : Gen T V}

omit [LawfulTypes T] [LawfulValues V] [DecidableEq T] in
/-- Two exits that are reached are the same. -/
theorem CondOk.exit_unique {pre : (String → Option V) → Machine V → Prop}
    {f : (String → Option V) → Option Bool} {effect : CondExprEffect T}
    (h : CondOk bindings bindings block none pre f g g' effect) {b b' : Bool}
    {merger merger' : TypeMerger T} (hexit : effect.exit b = some merger)
    (hexit' : effect.exit b' = some merger') (hdest : merger.dest = merger'.dest) : b = b' := by
  have hexits := h.exits
  cases effect with
  | only side only =>
    have hside : ∀ {b : Bool} {merger : TypeMerger T},
        (CondExprEffect.only side only).exit b = some merger → side = b := by
      intro b merger hexit
      by_contra hne
      have hnone : (CondExprEffect.only side only).exit b = none := if_neg hne
      rw [hnone] at hexit
      cases hexit
    exact (hside hexit).symm.trans (hside hexit')
  | both t e =>
    have hne : t.dest ≠ e.dest := by
      cases hexits with
      | both _ _ hne => exact hne
    cases b <;> cases b' <;> cases hexit <;> cases hexit'
    · rfl
    · exact (hne hdest.symm).elim
    · exact (hne hdest).elim
    · rfl

omit [LawfulTypes T] [LawfulValues V] [DecidableEq T] in
/-- The code leaves through the exit of a value exactly when this is the value of the condition. -/
theorem CondOk.reaches_iff {f : (String → Option V) → Option Bool} {effect : CondExprEffect T}
    (h : CondOk bindings bindings block none (fun _ _ => True) f g g' effect) (m : Machine V)
    (ρ : String → Option V) (hagree : Agree bindings m ρ) (hm : m.block = block) (b : Bool) :
    f ρ = some b ↔ ∃ merger m', effect.exit b = some merger ∧
      Star exec g'.blocks (blockEnd g.blocks block) m (blockEnd g'.blocks merger.dest) m' := by
  obtain ⟨b1, merger1, m1, hb1, hexit1, hstar1, _⟩ := h.run m ρ hagree trivial hm
  refine ⟨fun hb => ?_, fun hreach => ?_⟩
  · have heq : b1 = b := Option.some.inj (hb1.symm.trans hb)
    exact ⟨merger1, m1, heq ▸ hexit1, hstar1⟩
  · obtain ⟨merger, m', hexit, hstar⟩ := hreach
    -- the run to an exit can go no further
    have hplace := (hstar1.unique hstar (open_blockEnd _ _) (open_blockEnd _ _)).1
    have heq := h.exit_unique hexit1 hexit (congrArg Place.block hplace)
    exact heq ▸ hb1

/-- The code of a condition leaves through the exit of a value exactly when short-circuit evaluation
gives the value. -/
theorem codeGenExprForCond_shortCircuits (hmod : LawfulModule mod)
    (haligned : c.aligned none = true) {effect : CondExprEffect T}
    (hready : CondReady bindings bindings block none g)
    (hrun : runFrom (codeGenExprForCond mod bindings block none c) g = (.ok effect, g')) :
    ∀ (m : Machine V) (ρ : String → Option V), Agree bindings m ρ → m.block = block →
      ∀ b, evalCond mod ρ c = some b ↔ ∃ merger m', effect.exit b = some merger ∧
        Star exec g'.blocks (blockEnd g.blocks block) m (blockEnd g'.blocks merger.dest) m' := by
  have hcond := ((codeGenCond_ok hmod c).1 bindings bindings block none g hready
    haligned).of_ok hrun
  exact hcond.reaches_iff

theorem codeGenExprForCond_shortCircuits_or : ∃ effect g',
    runFrom (codeGenExprForCond (fun _ => none) xyBindings 0 none xTrueOrY) xyGen =
      (.ok effect, g') ∧
    ∀ (m : Machine Bool) (ρ : String → Option Bool), Agree xyBindings m ρ → m.block = 0 →
      ∀ b, evalCond (fun _ => none) ρ xTrueOrY = some b ↔ ∃ merger m',
        effect.exit b = some merger ∧ Star exec g'.blocks (blockEnd xyGen.blocks 0) m
          (blockEnd g'.blocks merger.dest) m' :=
  ⟨_, _, rfl, codeGenExprForCond_shortCircuits
    lawfulModule_none rfl ready_xyGen rfl⟩

/-! ## Operators that are not aligned -/

/-- The exit where the right operand of an operator is evaluated, and the other one. -/
def restMerger (isOr : Bool) (trueMerger falseMerger : TypeMerger T) : TypeMerger T :=
  if isOr then falseMerger else trueMerger

omit [LawfulTypes T] [LawfulValues V] in
/-- The code of an operator after that of its left operand. -/
theorem codeGenExprForCond_logical {isOr : Bool} {left right : Cond T V}
    {trueMerger falseMerger : TypeMerger T} {g1 : Gen T V}
    (hleft : runFrom (codeGenExprForCond mod bindings block prevs left) g =
      (.ok (.both trueMerger falseMerger), g1)) :
    runFrom (codeGenExprForCond mod bindings block prevs (.logical isOr left right)) g =
      runFrom (codeGenTypeMerge (restMerger isOr trueMerger falseMerger).dest bindings
        (restMerger isOr trueMerger falseMerger).origins >>= fun rhsBindings =>
          codeGenExprForCond mod rhsBindings (restMerger isOr trueMerger falseMerger).dest
            (some ⟨isOr, restMerger (!isOr) trueMerger falseMerger⟩) right) g1 := by
  refine (run_bind_of_ok hleft).trans ?_
  cases isOr <;> rfl

omit [LawfulTypes T] [LawfulValues V] in
/-- The code of `a || (b && c)` is that of `(a || b) && c`, and likewise with the operators
exchanged, unless a constant condition decides, or `a` narrows a variable for `b`. -/
theorem codeGenExprForCond_regroup {isOr : Bool} {a b c : Cond T V}
    {trueMerger falseMerger trueMerger' falseMerger' : TypeMerger T} {g1 g2 : Gen T V} {label : Nat}
    (ha : runFrom (codeGenExprForCond mod bindings block prevs a) g =
      (.ok (.both trueMerger falseMerger), g1))
    (hrest : (restMerger isOr trueMerger falseMerger).origins = [⟨label, bindings⟩])
    (hb : runFrom (codeGenExprForCond mod bindings (restMerger isOr trueMerger falseMerger).dest
        (some ⟨isOr, restMerger (!isOr) trueMerger falseMerger⟩) b) g1 =
      (.ok (.both trueMerger' falseMerger'), g2)) :
    runFrom (codeGenExprForCond mod bindings block prevs
        (.logical isOr a (.logical (!isOr) b c))) g =
      runFrom (codeGenExprForCond mod bindings block prevs
        (.logical (!isOr) (.logical isOr a b) c)) g := by
  have hmerge : ∀ right : Cond T V,
      runFrom (codeGenExprForCond mod bindings block prevs (.logical isOr a right)) g =
        runFrom (codeGenExprForCond mod bindings (restMerger isOr trueMerger falseMerger).dest
          (some ⟨isOr, restMerger (!isOr) trueMerger falseMerger⟩) right) g1 := by
    intro right
    rw [codeGenExprForCond_logical ha, hrest]
    rfl
  have hab := (hmerge b).trans hb
  rw [hmerge, codeGenExprForCond_logical hb, codeGenExprForCond_logical hab]

/-- The code of `a || (b && c)` leaves through the exit of the value of `(a || b) && c`. -/
theorem codeGenExprForCond_regroups (hmod : LawfulModule mod)
    (hready : CondReady bindings bindings block none g) (isOr : Bool) {a b c : Cond T V}
    (haligned : (Cond.logical (!isOr) (.logical isOr a b) c).aligned none = true)
    {trueMerger falseMerger trueMerger' falseMerger' : TypeMerger T} {g1 g2 : Gen T V} {label : Nat}
    (ha : runFrom (codeGenExprForCond mod bindings block none a) g =
      (.ok (.both trueMerger falseMerger), g1))
    (hrest : (restMerger isOr trueMerger falseMerger).origins = [⟨label, bindings⟩])
    (hb : runFrom (codeGenExprForCond mod bindings (restMerger isOr trueMerger falseMerger).dest
        (some ⟨isOr, restMerger (!isOr) trueMerger falseMerger⟩) b) g1 =
      (.ok (.both trueMerger' falseMerger'), g2))
    {effect : CondExprEffect T}
    (hrun : runFrom (codeGenExprForCond mod bindings block none
        (.logical isOr a (.logical (!isOr) b c))) g = (.ok effect, g')) :
    ∀ (m : Machine V) (ρ : String → Option V), Agree bindings m ρ → m.block = block →
      ∀ v, evalCond mod ρ (.logical (!isOr) (.logical isOr a b) c) = some v ↔
        ∃ merger m', effect.exit v = some merger ∧
          Star exec g'.blocks (blockEnd g.blocks block) m (blockEnd g'.blocks merger.dest) m' := by
  have hcond := ((codeGenCond_ok hmod _).1 bindings bindings block none g hready
    haligned).of_ok ((codeGenExprForCond_regroup ha hrest hb).symm.trans hrun)
  exact hcond.reaches_iff

/-- When `x` is true and `y` is not, the code of `x || (y && y)` leaves by the false exit. -/
theorem codeGenExprForCond_regroups_or : ∃ effect g',
    runFrom (codeGenExprForCond (fun _ => none) xyBindings 0 none
        (.logical true (.term (.varRef "x")) (.logical false (.term (.varRef "y"))
          (.term (.varRef "y"))))) xyGen = (.ok effect, g') ∧
    ∀ (m : Machine Bool) (ρ : String → Option Bool), Agree xyBindings m ρ → m.block = 0 →
      ρ "x" = some true → ρ "y" = some false → ∃ merger m', effect.exit false = some merger ∧
        Star exec g'.blocks (blockEnd xyGen.blocks 0) m (blockEnd g'.blocks merger.dest) m' := by
  let left := (codeGenExprForCond (fun _ => none) xyBindings 0 none
    (.term (.varRef "x")) : GenM BoolType Bool _)
  let right := (codeGenExprForCond (fun _ => none) xyBindings 2
    (some ⟨true, ⟨[⟨0, xyBindings⟩], 1⟩⟩) (.term (.varRef "y")) : GenM BoolType Bool _)
  have ha : runFrom left xyGen =
    (.ok (.both ⟨[⟨0, xyBindings⟩], 1⟩ ⟨[⟨0, xyBindings⟩], 2⟩), (runFrom left xyGen).2) := rfl
  have hb : runFrom right (runFrom left xyGen).2 =
    (.ok (.both ⟨[⟨2, xyBindings⟩, ⟨0, xyBindings⟩], 1⟩ ⟨[⟨2, xyBindings⟩], 3⟩),
      (runFrom right (runFrom left xyGen).2).2) := rfl
  refine ⟨_, _, rfl, fun m ρ hagree hm hx hy => ?_⟩
  refine (codeGenExprForCond_regroups (c := .term (.varRef "y")) lawfulModule_none ready_xyGen true
    rfl ha rfl hb rfl m ρ hagree hm false).mp ?_
  simp only [evalCond, evalTerm, evalVar, hx, hy]
  rfl

/-- The bindings that a merge makes for an exit describe the variables of every run that leaves
through it; a constant condition that was diverted into an exit is excepted. -/
theorem codeGenExprForCond_bindings (hmod : LawfulModule mod) (haligned : c.aligned none = true)
    {effect : CondExprEffect T} (hready : CondReady bindings bindings block none g)
    (hrun : runFrom (codeGenExprForCond mod bindings block none c) g = (.ok effect, g'))
    {b : Bool} {merger : TypeMerger T} (hexit : effect.exit b = some merger)
    (hconst : effect.isConst = true → merger.origins = []) :
    After (codeGenTypeMerge merger.dest bindings merger.origins) g'
      (fun narrowed g'' => Over bindings narrowed ∧
        ∀ (m m' : Machine V) (ρ : String → Option V), Agree bindings m ρ → m.block = block →
          Star exec g''.blocks (blockEnd g.blocks block) m (blockEnd g''.blocks merger.dest) m' →
          Agree narrowed m' ρ)
      (fun _ _ => False) := by
  have hcond := ((codeGenCond_ok hmod c).1 bindings bindings block none g hready
    haligned).of_ok hrun
  have hfits : Fits g'.registers.length bindings := hready.fits.mono hcond.grows.length_le
  cases heffect : effect.isConst with
  | true =>
    rw [hconst heffect]
    refine ⟨.refl, fun m m' ρ hagree hm hstar => ?_⟩
    obtain ⟨b1, merger1, m1, _, hexit1, hstar1, hregs, _⟩ := hcond.run m ρ hagree trivial hm
    obtain ⟨_, rfl⟩ := hstar1.unique hstar (open_blockEnd _ _) (open_blockEnd _ _)
    exact hagree.keeps hready.fits hregs
  | false =>
    have hmerger : ∀ {b : Bool} {merger : TypeMerger T}, effect.exit b = some merger →
        MergerOk bindings g' merger := by
      intro b merger hexit
      have hexits := hcond.exits
      cases hexits with
      | both ht he _ =>
        cases ht with
        | new ht _ =>
          cases he with
          | new he _ =>
            cases b <;> cases hexit
            · exact he
            · exact ht
      | single => cases heffect
    have hok := hmerger hexit
    refine (codeGenTypeMerge_ok hready.proper hok.dest_lt hfits hok.branches).imp
      (fun narrowed g'' hmerge => ⟨hmerge.onLimit, fun m m' ρ hagree hm hstar => ?_⟩)
      (fun _ _ h => h)
    obtain ⟨b1, merger1, m1, _, hexit1, hstar1, hregs, harrives⟩ :=
      hcond.run m ρ hagree trivial hm
    replace hstar1 := hstar1.mono hmerge.grows.blocks
    by_cases hb : b1 = b
    · have heq : merger1 = merger := by
        rw [hb, hexit] at hexit1
        exact (Option.some.inj hexit1).symm
      rw [heq] at hstar1 harrives
      obtain ⟨insns, hinsns, hmergeRun⟩ := hmerge.code
      obtain ⟨m2, hm2, hagree2, _⟩ :=
        hmergeRun m1 ρ (hagree.keeps hready.fits hregs) (harrives.origin heffect)
      have hstar2 := hstar1.trans (star_append hinsns hm2)
      obtain ⟨_, rfl⟩ := hstar2.unique hstar (open_blockEnd _ _) (open_blockEnd _ _)
      exact hagree2
    · -- the other exit is as empty as it was
      have hne : merger1.dest ≠ merger.dest :=
        fun hdest => hb (hcond.exit_unique hexit1 hexit hdest)
      have hnil : g''.blocks merger1.dest = g'.blocks merger1.dest :=
        hmerge.grows.same _ (hmerger hexit1).dest_lt hne
      have hopen : Open g''.blocks (blockEnd g'.blocks merger1.dest) := by
        unfold Open blockEnd
        rw [hnil]
        exact List.getElem?_eq_none (Nat.le_refl _)
      have hplace := (hstar1.unique hstar hopen (open_blockEnd _ _)).1
      exact (hne (congrArg Place.block hplace)).elim

/-- Where `x is true || y` is false, `x` is known to be `false`. -/
theorem codeGenExprForCond_bindings_or : ∃ effect g' merger,
    runFrom (codeGenExprForCond (fun _ => none) xyBindings 0 none xTrueOrY) xyGen =
      (.ok effect, g') ∧
    effect.exit false = some merger ∧
    After (codeGenTypeMerge merger.dest xyBindings merger.origins) g'
      (fun narrowed g'' => Over xyBindings narrowed ∧
        ∀ (m m' : Machine Bool) (ρ : String → Option Bool), Agree xyBindings m ρ → m.block = 0 →
          Star exec g''.blocks (blockEnd xyGen.blocks 0) m (blockEnd g''.blocks merger.dest) m' →
          Agree narrowed m' ρ)
      (fun _ _ => False) := by
  have hrun : runFrom (codeGenExprForCond (fun _ => none) xyBindings 0 none xTrueOrY) xyGen =
    (.ok (.both _ _), _) := rfl
  refine ⟨_, _, _, hrun, rfl, ?_⟩
  exact codeGenExprForCond_bindings (b := false) lawfulModule_none rfl ready_xyGen hrun rfl
    fun h => by cases h

/-- The result of the code of a boolean expression is the value of the expression, and every local
variable is where it was. -/
theorem codeGenExpr_computes (hmod : LawfulModule mod) (haligned : c.aligned none = true)
    {effect : ExprEffect T V} (hready : CondReady bindings bindings block none g)
    (hrun : runFrom (codeGenExpr mod bindings block c) g = (.ok effect, g')) :
    ∀ (m : Machine V) (ρ : String → Option V), Agree bindings m ρ → m.block = block →
      ∃ m', Star exec g'.blocks (blockEnd g.blocks block) m
          (blockEnd g'.blocks effect.block) m' ∧
        evalExpr mod ρ c = some (effect.result.eval m') ∧
        contains effect.result.semType (effect.result.eval m') = true ∧
        m'.block = effect.block ∧ Agree bindings m' ρ := by
  have hexpr := ((codeGenCond_ok hmod c).2 bindings block g hready haligned).of_ok hrun
  intro m ρ hagree hm
  obtain ⟨v, m', hv, hstar, hregs, hblock, hholds⟩ := hexpr.run m ρ hagree hm
  rw [← hholds.eval] at hv
  refine ⟨m', hstar, hv, ?_, hblock, hagree.keeps hready.fits hregs⟩
  rw [hholds.eval]
  exact hholds.semType

theorem codeGenExpr_computes_or : ∃ effect g',
    runFrom (codeGenExpr (fun _ => none) xyBindings 0 xTrueOrY) xyGen = (.ok effect, g') ∧
    ∀ (m : Machine Bool) (ρ : String → Option Bool), Agree xyBindings m ρ → m.block = 0 →
      ∃ m', Star exec g'.blocks (blockEnd xyGen.blocks 0) m
          (blockEnd g'.blocks effect.block) m' ∧
        evalExpr (fun _ => none) ρ xTrueOrY = some (effect.result.eval m') ∧
        contains effect.result.semType (effect.result.eval m') = true ∧
        m'.block = effect.block ∧ Agree xyBindings m' ρ :=
  ⟨_, _, rfl, codeGenExpr_computes lawfulModule_none rfl ready_xyGen rfl⟩

end Results

end Nballerina.CodeGen
