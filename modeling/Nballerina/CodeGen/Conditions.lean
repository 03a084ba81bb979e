import Nballerina.CodeGen.Exits

/-!
# Code for the parts of a condition

`CondOk` for the functions that `codeGenExprForCond` is made of: constant conditions, tests that
branch, operands, and the operators `!`, `&&` and `||`, given that the code of their operands is
right. A logical operator is right when the exit that is passed down to it is the one it leaves by
at once (`Passed`). `ExprOk` is the same for expressions whose value is computed.
-/

namespace Nballerina.CodeGen

open Nballerina.Lib

variable {T V : Type} [Values V] [TypeOps T V]

/-! ## The leaves -/

omit [Values V] [TypeOps T V] in
theorem createTmpRegister_after (t : T) (g : Gen T V) :
    After (createTmpRegister t) g
      (fun reg g' => reg = .tmp g.registers.length t ∧ g' = g.addRegister reg)
      (fun _ _ => False) :=
  ⟨rfl, rfl⟩

omit [Values V] [TypeOps T V] in
theorem createAssignTmpRegister_after (t : T) (g : Gen T V) :
    After (createAssignTmpRegister t) g
      (fun reg g' => reg = .assignTmp g.registers.length t ∧ g' = g.addRegister reg)
      (fun _ _ => False) :=
  ⟨rfl, rfl⟩

omit [Values V] [TypeOps T V] in
theorem createNarrowRegister_after (t : T) (g : Gen T V) :
    After (createNarrowRegister t) g
      (fun reg g' => reg = ⟨g.registers.length, t⟩ ∧ g' = g.addRegister (.narrow reg))
      (fun _ _ => False) :=
  ⟨rfl, rfl⟩

section Leaves

variable {limit bindings : BindingChain T} {block : Nat} {prevs : Option (PrevTypeMergers T)}
  {pre : (String → Option V) → Machine V → Prop} {f : (String → Option V) → Option Bool}
  {g : Gen T V}

/-- Nothing was emitted; the code goes on where it is. -/
theorem condOk_here {b : Bool} (hready : CondReady limit bindings block none g)
    (hpre : ∀ m ρ, Agree bindings m ρ → pre ρ m → f ρ = some b) :
    CondOk limit bindings block none pre f g g (.only b ⟨[], block⟩) := by
  refine ⟨Grows.refl _ g, .single hready.block_lt (Or.inl rfl), fun m ρ hagree hm hblock => ?_⟩
  exact ⟨b, _, m, hpre m ρ hagree hm, if_pos rfl, Star.refl _ _, fun _ _ => rfl, hblock,
    fun h => by cases h⟩

theorem codeGenConstCond_ok {b : Bool} (hready : CondReady limit bindings block prevs g)
    (hpre : ∀ m ρ, Agree bindings m ρ → pre ρ m → f ρ = some b) :
    After (codeGenConstCond bindings block b prevs) g
      (fun effect g' => CondOk limit bindings block prevs pre f g g' effect) (fun _ _ => False) := by
  cases prevs with
  | none => exact condOk_here hready hpre
  | some p =>
    obtain ⟨side, merger⟩ := p
    have hprev := hready.prevs _ rfl
    have hexec : ∀ (dest : Nat) (m : Machine V),
        exec (.branch dest : Insn T V) m = some (.jump dest (m.goto dest)) := fun _ _ => rfl
    show After (if side = b then
      (do
        emit block (.branch merger.dest)
        return CondExprEffect.only b merger : GenM T V (CondExprEffect T))
      else _) g _ _
    split
    next hside =>
      -- the branch leads to the exit that was passed down
      subst hside
      refine condOk_push hready (Grows.refl _ g) rfl ?_ ?_
      · have hgrows : Grows (· = block) g (g.push block (.branch merger.dest)) :=
          Grows.push (· = block) g rfl hready.block_lt _
        exact .diverted (p := ⟨side, merger⟩)
          (.prev (hprev.merger.mono hgrows hprev.dest_ne) rfl (List.Subset.refl _))
      · intro m ρ hagree hm
        exact ⟨side, merger, m, hpre m ρ hagree hm, if_pos rfl, hprev.merger.empty, hprev.dest_ne,
          hexec _ m, Keeps.refl _ m, fun h => by cases h⟩
    next hside =>
      -- a second exit for the side that is not passed down
      have hlt := hready.block_lt
      have hne : g.blockCount ≠ block := by omega
      have hgrows : Grows (· = block) g (g.addBlock.push block (.branch g.blockCount)) :=
        (Grows.addBlock _ g).step
          (Grows.push (· = block) g.addBlock rfl (Nat.lt_succ_of_lt hlt) _)
      have hold : ExitOk limit bindings g (g.addBlock.push block (.branch g.blockCount))
          (some merger) merger :=
        .prev (hprev.merger.mono hgrows hprev.dest_ne) rfl (List.Subset.refl _)
      have hnew : ExitOk limit bindings g (g.addBlock.push block (.branch g.blockCount))
          none ⟨[⟨block, bindings⟩], g.blockCount⟩ := by
        refine Made.new.exitOk hready (fun _ h => by cases h) .refl (Nat.le_refl _) (Nat.le_refl _)
          hgrows (hready.fits.mono hgrows.length_le) ?_ fun c hc => ?_
        · rw [Gen.blocks_push, pushInsn_self]
          exact List.append_ne_nil_of_right_ne_nil _ (List.cons_ne_nil _ _)
        · rw [Gen.blocks_push, pushInsn_of_ne _ hc, Gen.blocks_addBlock]
      have hdest : merger.dest ≠ g.blockCount := Nat.ne_of_lt hprev.merger.dest_lt
      have hsides : side = !b := by cases side <;> cases b <;> simp_all
      subst hsides
      refine condOk_push hready (Grows.addBlock _ g) rfl ?_ ?_
      · cases b with
        | true => exact .both hnew hold hdest.symm
        | false => exact .both hold hnew hdest
      · intro m ρ hagree hm
        refine ⟨b, ⟨[⟨block, bindings⟩], g.blockCount⟩, m, hpre m ρ hagree hm, ?_,
          hready.tidy _ (Nat.le_refl _), hne, hexec _ m, Keeps.refl _ m,
          fun _ => ⟨_, List.mem_singleton.mpr rfl, rfl, hagree⟩⟩
        cases b <;> rfl

theorem codeGenCondBranch_ok {reg : Register T} (hready : CondReady limit bindings block prevs g)
    (hpre : ∀ m ρ, pre ρ m → ∃ b, f ρ = some b ∧ toBool (m.regs reg.number) = some b) :
    After (codeGenCondBranch bindings block reg prevs) g
      (fun effect g' => CondOk limit bindings block prevs pre f g g' effect) (fun _ _ => False) := by
  unfold codeGenCondBranch
  refine (createMergerWithBindings_made bindings block g _).bind fun t g1 ht => ?_
  refine (createMergerWithBindings_made bindings block g1 _).bind fun e g2 he => ?_
  refine condOk_branch hready (Grows.refl _ g) rfl rfl ht he ⟨.refl, hready.fits⟩
    ⟨.refl, hready.fits⟩ fun m ρ hagree hm => ?_
  obtain ⟨b, hb, hbool⟩ := hpre m ρ hm
  refine ⟨b, m, hb, ?_, Keeps.refl _ m, ?_⟩
  · show Option.map _ (toBool (m.regs reg.number)) = _
    rw [hbool]
    rfl
  · cases b <;> exact hagree

variable [LawfulTypes T]

theorem codeGenTypeTestForCond_ok {semType : T} {b : Binding T} {negated : Bool}
    (hready : CondReady limit bindings block prevs g) (hb : lookup b.name bindings = some b)
    (hpre : ∀ m ρ, pre ρ m → ∃ v, m.regs b.reg.number = v ∧ contains b.reg.semType v = true ∧
      f ρ = some (contains semType v != negated)) :
    After (codeGenTypeTestForCond bindings block semType b negated prevs) g
      (fun effect g' => CondOk limit bindings block prevs pre f g g' effect) (fun _ _ => False) := by
  show After (if isEmpty (diff b.reg.semType semType) then
    codeGenConstCond bindings block (!negated) prevs
    else if isEmpty (testedType b.reg.semType semType) then
      codeGenConstCond bindings block negated prevs
    else _) g _ _
  by_cases hempty : isEmpty (diff b.reg.semType semType) = true
  · rw [if_pos hempty]
    refine codeGenConstCond_ok hready fun m ρ _ hm => ?_
    obtain ⟨v, _, hv, hf⟩ := hpre m ρ hm
    have hdiff := LawfulTypes.contains_of_isEmpty v hempty
    rw [LawfulTypes.contains_diff, hv, Bool.true_and, Bool.not_eq_false'] at hdiff
    rw [hf, hdiff, Bool.true_bne]
  rw [if_neg hempty]
  by_cases hempty' : isEmpty (testedType b.reg.semType semType) = true
  · rw [if_pos hempty']
    refine codeGenConstCond_ok hready fun m ρ _ hm => ?_
    obtain ⟨v, _, hv, hf⟩ := hpre m ρ hm
    have hnone := LawfulTypes.contains_of_isEmpty v hempty'
    rw [contains_testedType _ _ _ hv] at hnone
    rw [hf, hnone, Bool.false_bne]
  rw [if_neg hempty']
  -- the type of the true side, and that of the false side
  have htypes : ∀ {v : V}, contains b.reg.semType v = true →
      contains (if negated then diff b.reg.semType semType
        else testedType b.reg.semType semType) v = (contains semType v != negated) ∧
      contains (if negated then testedType b.reg.semType semType
        else diff b.reg.semType semType) v = !(contains semType v != negated) := by
    intro v hv
    have hin := contains_testedType b.reg.semType semType v hv
    have hout : contains (diff b.reg.semType semType) v = !contains semType v := by
      rw [LawfulTypes.contains_diff, hv, Bool.true_and]
    cases negated with
    | true =>
      rw [if_pos rfl, if_pos rfl, hin, hout]
      cases contains semType v <;> exact ⟨rfl, rfl⟩
    | false =>
      rw [if_neg Bool.false_ne_true, if_neg Bool.false_ne_true, hin, hout]
      cases contains semType v <;> exact ⟨rfl, rfl⟩
  have hmem := mem_of_lookup hb
  have hun := hready.fits.unnarrowed_lt b hmem.1
  generalize (if negated then diff b.reg.semType semType
    else testedType b.reg.semType semType) = trueType at htypes ⊢
  generalize (if negated then testedType b.reg.semType semType
    else diff b.reg.semType semType) = falseType at htypes ⊢
  refine (createNarrowRegister_after trueType g).bind fun tr g1 h1 => ?_
  refine (createNarrowRegister_after falseType g1).bind fun fr g2 h2 => ?_
  obtain ⟨rfl, rfl⟩ := h1
  obtain ⟨rfl, rfl⟩ := h2
  refine (createMergerWithBindings_made _ block _ _).bind fun t g3 ht => ?_
  refine (createMergerWithBindings_made _ block g3 _).bind fun e g4 he => ?_
  refine condOk_branch hready ((Grows.addRegister _ g _).step (Grows.addRegister _ _ _)) rfl rfl
    ht he ⟨Over.refl.narrow _ hb rfl, hready.fits.narrow _ hun ?_⟩
    ⟨Over.refl.narrow _ hb rfl, ?_⟩ fun m ρ hagree hm => ?_
  · rw [Gen.length_addRegister, Gen.length_addRegister]
    omega
  · refine (hready.fits.mono (Grows.addRegister (fun _ => False) g _).length_le).narrow _ ?_ ?_
    · rw [Gen.length_addRegister]
      exact Nat.lt_succ_of_lt hun
    · simp only [Gen.length_addRegister]
      omega
  obtain ⟨v, hreg, hv, hf⟩ := hpre m ρ hm
  obtain ⟨w, hw, hholds⟩ := hagree.bound _ _ hb
  have hwv : w = v := hholds.reg.symm.trans hreg
  rw [hwv] at hw
  have hexec : exec (.typeCondBranch b.reg trueType t.dest e.dest ⟨g.registers.length, trueType⟩
      ⟨(g.addRegister (.narrow ⟨g.registers.length, trueType⟩)).registers.length, falseType⟩ :
        Insn T V) m =
      if contains trueType v then some (.jump t.dest ((m.set g.registers.length v).goto t.dest))
      else some (.jump e.dest ((m.set (g.addRegister
        (.narrow ⟨g.registers.length, trueType⟩)).registers.length v).goto e.dest)) := by
    rw [← hreg]
    rfl
  obtain ⟨htrue, hfalse⟩ := htypes hv
  have hkeeps : ∀ n, g.registers.length ≤ n → Keeps g.registers.length m (m.set n v) :=
    fun n hn => keeps_set hn m v
  cases hbool : contains trueType v with
  | true =>
    have hk := hkeeps _ (Nat.le_refl g.registers.length)
    refine ⟨true, m.set g.registers.length v, ?_, ?_, hk, ?_⟩
    · rw [hf, ← htrue, hbool]
    · rw [hexec, if_pos hbool]
      rfl
    · exact agree_narrow (hagree.keeps hready.fits hk.regs) hb rfl hw (Function.update_self ..)
        hbool
  | false =>
    have hn : g.registers.length ≤
        (g.addRegister (.narrow ⟨g.registers.length, trueType⟩)).registers.length := by
      rw [Gen.length_addRegister]
      exact Nat.le_succ _
    have hk := hkeeps _ hn
    refine ⟨false, m.set _ v, ?_, ?_, hk, ?_⟩
    · rw [hf, ← htrue, hbool]
    · rw [hexec, if_neg (by rw [hbool]; exact Bool.false_ne_true)]
      rfl
    · refine agree_narrow (hagree.keeps hready.fits hk.regs) hb rfl hw (Function.update_self ..) ?_
      rw [hfalse, ← htrue, hbool]
      rfl

variable [LawfulValues V]

/-- A condition that has been evaluated to an operand. -/
theorem finishCodeGenExprForCond_ok {operand : Operand T V} {g1 : Gen T V}
    (hready : CondReady limit bindings block prevs g) (h : BoolOk bindings block g g1 f operand) :
    CondFrom limit bindings block prevs f g
      (finishCodeGenExprForCond bindings block operand prevs) g1 := by
  have hready1 := hready.mono h.straight.grows
  unfold finishCodeGenExprForCond
  refine (operandValue_ok operand g1).bind fun r g2 hr => ?_
  obtain ⟨rfl, hvalue⟩ := hr
  obtain ⟨value, flags⟩ := r
  dsimp only
  split
  next reg _ =>
    refine (codeGenCondBranch_ok hready1 fun m ρ hm => ?_).imp
      (fun effect g' hcond => h.straight.condOk hready hcond) (fun _ _ h => h.elim)
    obtain ⟨b, hb, hholds⟩ := hm
    have hreg : m.regs reg.number = ofBool b := hholds.eval
    exact ⟨b, hb, hreg ▸ LawfulValues.toBool_ofBool b⟩
  next operand _ _ value' hvalue' =>
    obtain ⟨v, hv, hbool⟩ := Option.bind_eq_some_iff.mp hvalue'
    -- what is known is the value of the condition
    have hknown : ∀ (m : Machine V) (ρ : String → Option V),
        (∃ b, f ρ = some b ∧ operand.Holds m (ofBool b)) → f ρ = some value' := by
      intro m ρ hm
      obtain ⟨b, hb, hholds⟩ := hm
      have htoBool : toBool (ofBool b : V) = some value' := by
        rcases hvalue.known (by rw [hv]; exact Option.some_ne_none v) with hconst | hshape
        · obtain ⟨v', hv', heval⟩ := hvalue.isConst hconst
          have hvv : v = v' := Option.some.inj (hv.symm.trans hv')
          rw [← hholds.eval, heval, ← hvv, hbool]
        · obtain ⟨v', hv', hequal⟩ := hvalue.singleShape hshape
          have hvv : v = v' := Option.some.inj (hv.symm.trans hv')
          exact LawfulValues.toBool_of_equal (hequal m _ hholds) (hvv ▸ hbool)
      rw [LawfulValues.toBool_ofBool] at htoBool
      rw [hb, htoBool]
    split
    next =>
      exact (codeGenConstCond_ok hready1 fun m ρ _ hm => hknown m ρ hm).imp
        (fun effect g' hcond => h.straight.condOk hready hcond) (fun _ _ h => h.elim)
    next =>
      refine (createTmpRegister_after BOOLEAN g2).bindSafe fun reg g3 h3 => ?_
      obtain ⟨rfl, rfl⟩ := h3
      let insn : Insn T V := .equality ⟨true, !value'⟩ (.tmp g2.registers.length BOOLEAN)
        (.const (ofBool value') (singleton (TypeOps.booleanCode T))) (.const (ofBool value') BOOLEAN)
      have hcode : Straight bindings block g
          ((g2.addRegister (.tmp g2.registers.length BOOLEAN)).push block insn)
          fun ρ m => f ρ = some value' ∧ m.regs g2.registers.length = ofBool value' := by
        refine h.straight.setNew hready.block_lt _ insn fun ρ m hpost => ?_
        refine ⟨ofBool value', ?_, hknown m ρ hpost, Function.update_self ..⟩
        have hholds : EqualityOp.holds ⟨true, !value'⟩ (ofBool value' : V) (ofBool value') =
            value' := by
          unfold EqualityOp.holds
          rw [if_pos rfl, LawfulValues.exactEqual_ofBool, Bool.true_bne, Bool.not_not]
        show some (Step.next (m.set _ (ofBool (EqualityOp.holds ⟨true, !value'⟩ (ofBool value' : V)
          (ofBool value'))))) = _
        rw [hholds]
        rfl
      refine (codeGenCondBranch_ok (hready.mono hcode.grows) fun m ρ hm => ?_).imp
        (fun effect g' hcond => hcode.condOk hready hcond) (fun _ _ h => h.elim)
      exact ⟨value', hm.1, (congrArg toBool hm.2).trans (LawfulValues.toBool_ofBool value')⟩
  next => trivial

end Leaves

/-! ## Operators -/

section Operators

variable {limit bindings : BindingChain T} {block : Nat} {prevs : Option (PrevTypeMergers T)}
  {pre : (String → Option V) → Machine V → Prop} {f fl fr : (String → Option V) → Option Bool}
  {g g1 g2 : Gen T V} {effect : CondExprEffect T}

omit [Values V] [TypeOps T V] in
theorem CondExprEffect.exit_flip (effect : CondExprEffect T) (b : Bool) :
    effect.flip.exit (!b) = effect.exit b := by
  cases effect with
  | only side merger => cases side <;> cases b <;> rfl
  | both => cases b <;> rfl

/-- A negation exchanges the exits. -/
theorem CondOk.flip (h : CondOk limit bindings block
      (prevs.map fun p => { p with side := !p.side }) pre f g g1 effect) :
    CondOk limit bindings block prevs pre (fun ρ => (f ρ).map (!·)) g g1 effect.flip := by
  refine ⟨h.grows, ?_, fun m ρ hagree hm hblock => ?_⟩
  · have hexits := h.exits
    cases prevs with
    | none =>
      cases hexits with
      | both ht hf hne => exact .both hf ht hne.symm
      | single hlt hdest => exact .single hlt hdest
    | some p =>
      obtain ⟨side, merger⟩ := p
      cases hexits with
      | both ht hf hne => cases side <;> exact .both hf ht hne.symm
      | diverted hp =>
        cases side with
        | true => exact .diverted (p := ⟨true, merger⟩) hp
        | false => exact .diverted (p := ⟨false, merger⟩) hp
  · obtain ⟨b, merger, m', hb, hexit, hstar, hregs, harrives⟩ := h.run m ρ hagree hm hblock
    refine ⟨!b, merger, m', ?_, ?_, hstar, hregs, harrives.block, fun hconst => ?_⟩
    · rw [hb]
      rfl
    · rw [CondExprEffect.exit_flip, hexit]
    · refine harrives.origin ?_
      cases effect with
      | only => cases hconst
      | both => rfl

/-- Short-circuit evaluation of an operator. -/
def evalLogical (isOr : Bool) (fl fr : (String → Option V) → Option Bool)
    (ρ : String → Option V) : Option Bool :=
  (fl ρ).bind fun b => if b = isOr then some b else fr ρ

variable {isOr : Bool}

omit [Values V] in
theorem evalLogical_of_eq {ρ : String → Option V} (h : fl ρ = some isOr) :
    evalLogical isOr fl fr ρ = some isOr := by
  unfold evalLogical
  rw [h]
  exact if_pos rfl

omit [Values V] in
theorem evalLogical_of_ne {ρ : String → Option V} (h : fl ρ = some !isOr) :
    evalLogical isOr fl fr ρ = fr ρ := by
  unfold evalLogical
  rw [h]
  exact if_neg (by cases isOr <;> decide)

/-- The exit that is passed down to an operator is the one it leaves by at once. -/
def Passed (isOr : Bool) (prevs : Option (PrevTypeMergers T)) : Prop :=
  ∀ p, prevs = some p → p.side = isOr

variable [LawfulTypes T] [DecidableEq T]

/-- The right operand in the block of the exit `rest`, with the other exit passed down. -/
theorem codeGenLogicalRight_both {kept rest : TypeMerger T}
    {right : BindingChain T → Nat → Option (PrevTypeMergers T) → GenM T V (CondExprEffect T)}
    (hready : CondReady limit bindings block prevs g) (hpassed : Passed isOr prevs)
    (hl : CondOk limit bindings block prevs (fun _ _ => True) fl g g1 effect)
    (hright : CondGen (Passed isOr) fr right) (hconst : effect.isConst = false)
    (hexitKept : effect.exit isOr = some kept) (hexitRest : effect.exit (!isOr) = some rest)
    (hkept : ExitOk limit bindings g g1 (prevMerger prevs isOr) kept)
    (hrest : ExitOk limit bindings g g1 (prevMerger prevs (!isOr)) rest) (hne : kept.dest ≠ rest.dest) :
    CondFrom limit bindings block prevs (evalLogical isOr fl fr) g
      (codeGenTypeMerge rest.dest bindings rest.origins >>= fun rhsBindings =>
        right rhsBindings rest.dest (some ⟨isOr, kept⟩)) g1 := by
  have htidy1 : g1.Tidy := hl.grows.tidy hready.tidy
  have hother : ∀ side, side ≠ isOr → prevMerger prevs side = none := by
    intro side hside
    cases hprev : prevMerger prevs side with
    | none => rfl
    | some prev =>
      cases prevs with
      | none => cases hprev
      | some p =>
        have hp : (if p.side = side then some p.merger else none) = some prev := hprev
        rw [hpassed p rfl, if_neg fun h => hside h.symm] at hp
        cases hp
  obtain ⟨limit', hkept', hover, hextend⟩ := hkept.extend hready.onLimit
  rw [hother (!isOr) (by cases isOr <;> decide)] at hrest
  obtain ⟨hmerger, hnew⟩ : MergerOk bindings g1 rest ∧ g.blockCount ≤ rest.dest := by
    cases hrest with
    | new hmerger hnew => exact ⟨hmerger, hnew⟩
  refine (codeGenTypeMerge_ok hready.proper hmerger.dest_lt
    (hready.fits.mono hl.grows.length_le) hmerger.branches).bindSafe fun rhs g2 hm => ?_
  have hready2 : CondReady limit' rhs rest.dest (some ⟨isOr, kept⟩) g2 := by
    refine ⟨hm.count ▸ hmerger.dest_lt, hm.grows.tidy htidy1, hm.fits,
      hm.onLimit.proper hready.proper, hover.trans hm.onLimit, fun p hp => ?_⟩
    cases hp
    exact PrevOk.mono ⟨hkept', hne, hkept'.label_ne hmerger.empty⟩ hm.grows
  refine (hright limit' rhs rest.dest _ g2 hready2 fun p hp => by cases hp; rfl).imp
    (fun effect' g3 hr => ?_) (fun _ _ h => h)
  replace hr := hm.condOk hr
  obtain ⟨kept3, hexit3, hkept3⟩ := hr.exits.passed
  obtain ⟨hmerger3, hdest3, horigins3⟩ : MergerOk limit' g3 kept3 ∧ kept3.dest = kept.dest ∧
      kept.origins ⊆ kept3.origins := by
    cases hkept3 with
    | prev hmerger3 hdest3 horigins3 => exact ⟨hmerger3, hdest3, horigins3⟩
  refine hl.seq hready hr hexitRest (Or.inr hnew) (fun m ρ harrives => harrives.origin hconst)
    ?_ (fun b kept' hb hexit => ?_) (fun ρ => evalLogical_of_ne)
    fun ρ b hb hfl => ?_
  · -- each exit is the one that was passed down, with more branches, or a new one
    have hexit : ∀ {side : Bool} {merger : TypeMerger T},
        ExitOk limit' bindings g1 g3 (prevMerger (some ⟨isOr, kept⟩) side) merger →
        ExitOk limit bindings g g3 (prevMerger prevs side) merger := by
      intro side merger hside
      by_cases heq : isOr = side
      · subst heq
        have hprev : prevMerger (some ⟨isOr, kept⟩) isOr = some kept := if_pos rfl
        rw [hprev] at hside
        cases hside with
        | prev hmerger' hdest' horigins' => exact hextend hmerger' hdest' horigins'
      · have hprev : prevMerger (some ⟨isOr, kept⟩) side = none := if_neg heq
        rw [hprev] at hside
        rw [hother side fun h => heq h.symm]
        cases hside with
        | new hmerger' hdest' => exact .new hmerger' (Nat.le_trans hl.grows.count hdest')
    cases hr.exits with
    | both ht hf hne' => exact .both (hexit ht) (hexit hf) hne'
    | diverted hp =>
      cases hp with
      | prev hmerger' hdest' horigins' =>
        have hkept'' := hextend hmerger' hdest' horigins'
        cases prevs with
        | none =>
          refine .single hmerger'.dest_lt (Or.inr ?_)
          cases hkept'' with
          | new _ hge => exact hge
        | some p =>
          obtain ⟨side, prev⟩ := p
          have hside : side = isOr := hpassed _ rfl
          subst hside
          have hprev : prevMerger (some ⟨side, prev⟩) side = some prev := if_pos rfl
          rw [hprev] at hkept''
          exact .diverted (p := ⟨side, prev⟩) hkept''
  · have hb' : b = isOr := by cases b <;> cases isOr <;> simp_all
    rw [hb', hexitKept] at hexit
    cases hexit
    exact ⟨kept3, hb' ▸ hexit3, hdest3, horigins3, hkept'.empty, hdest3 ▸ hmerger3.empty, hconst⟩
  · have hb' : b = isOr := by cases b <;> cases isOr <;> simp_all
    rw [hb'] at hfl ⊢
    exact evalLogical_of_eq hfl

/-- The right operand after the left one, at the exit where the value of the left one does not
decide. -/
theorem codeGenLogicalRight_ok
    {right : BindingChain T → Nat → Option (PrevTypeMergers T) → GenM T V (CondExprEffect T)}
    {rightForBoolean : Nat → GenM T V (ExprEffect T V)}
    (hready : CondReady limit bindings block prevs g) (hpassed : Passed isOr prevs)
    (hl : CondOk limit bindings block prevs (fun _ _ => True) fl g g1 effect)
    (hright : CondGen (Passed isOr) fr right)
    (hbool : ∀ (block : Nat) (g : Gen T V), CondReady bindings bindings block none g →
      After (rightForBoolean block) g (fun _ g' => Grows (· = block) g g') (fun _ _ => True)) :
    CondFrom limit bindings block prevs (evalLogical isOr fl fr) g
      (codeGenLogicalRight bindings isOr right rightForBoolean prevs effect) g1 := by
  have htidy1 : g1.Tidy := hl.grows.tidy hready.tidy
  have hfits1 : Fits g1.registers.length bindings := hready.fits.mono hl.grows.length_le
  have hexits := hl.exits
  cases effect with
  | only side merger =>
    show After (if side = isOr then _ else right bindings merger.dest prevs) g1 _ _
    by_cases hside : side = isOr
    · -- the left operand decides: the code of the right one is dropped
      subst hside
      rw [if_pos rfl, after_bind]
      show After (rightForBoolean g1.blockCount >>= _) g1.addBlock _ _
      rw [after_bind]
      have hready1 : CondReady bindings bindings g1.blockCount none g1.addBlock :=
        ⟨Nat.lt_succ_self _, (Grows.addBlock (fun _ => False) g1).tidy htidy1, hfits1,
          hready.proper, .refl, fun p hp => by cases hp⟩
      refine (hbool g1.blockCount g1.addBlock hready1).imp (fun _ g2 hg2 => ?_) (fun _ _ h => h)
      refine (hl.discard (grows_discard htidy1 hg2 fun b hb => hb)
        (discard_blocks htidy1 hg2 fun b hb => hb)).congr fun ρ b merger' hb hexit => ?_
      have hb' : side = b := by
        by_contra hne
        have hnone : (CondExprEffect.only side merger).exit b = none := if_neg hne
        rw [hnone] at hexit
        cases hexit
      rw [← hb'] at hb ⊢
      exact evalLogical_of_eq hb
    · have hside' : side = !isOr := by cases side <;> cases isOr <;> simp_all
      rw [if_neg hside]
      cases hexits with
      | diverted _ => exact absurd (hpassed _ rfl) hside
      | single hlt hdest =>
        have hready1 : CondReady limit bindings merger.dest none g1 :=
          ⟨hlt, htidy1, hfits1, hready.proper, hready.onLimit, fun p hp => by cases hp⟩
        refine (hright limit bindings merger.dest none g1 hready1 fun p hp => by cases hp).imp
          (fun effect' g2 hr => ?_) (fun _ _ h => h)
        have hexit : ∀ {merger' : TypeMerger T}, ExitOk limit bindings g1 g2 none merger' →
            ExitOk limit bindings g g2 none merger' := by
          intro merger' h
          cases h with
          | new hmerger' hdest' => exact .new hmerger' (Nat.le_trans hl.grows.count hdest')
        have hrest : (CondExprEffect.only side merger).exit (!isOr) = some merger := if_pos hside'
        refine hl.seq hready hr hrest hdest (fun _ _ _ => trivial)
          ?_ (fun b kept hb hkept => ?_) (fun ρ => evalLogical_of_ne)
          fun ρ b hb hfl => ?_
        · cases hr.exits with
          | both ht hf hne => exact .both (hexit ht) (hexit hf) hne
          | single hlt' hdest' =>
            refine .single hlt' ?_
            rcases hdest' with hdest' | hdest'
            · exact hdest' ▸ hdest
            · exact Or.inr (Nat.le_trans hl.grows.count hdest')
        · have hnone : (CondExprEffect.only side merger).exit b = none :=
            if_neg fun h => hb (h.symm.trans hside')
          rw [hnone] at hkept
          cases hkept
        · have hb' : b = isOr := by cases b <;> cases isOr <;> simp_all
          rw [hb'] at hfl ⊢
          exact evalLogical_of_eq hfl
  | both trueMerger falseMerger =>
    obtain ⟨ht, hf, hne⟩ : ExitOk limit bindings g g1 (prevMerger prevs true) trueMerger ∧
        ExitOk limit bindings g g1 (prevMerger prevs false) falseMerger ∧
        trueMerger.dest ≠ falseMerger.dest := by
      cases hexits with
      | both ht hf hne => exact ⟨ht, hf, hne⟩
    cases isOr with
    | true => exact codeGenLogicalRight_both hready hpassed hl hright rfl rfl rfl ht hf hne
    | false => exact codeGenLogicalRight_both hready hpassed hl hright rfl rfl rfl hf ht hne.symm

end Operators

/-! ## Values -/

/-- The code of an expression with the value `value ρ`. -/
structure ExprOk (bindings : BindingChain T) (block : Nat)
    (value : (String → Option V) → Option V) (g g' : Gen T V) (effect : ExprEffect T V) :
    Prop where
  grows : Grows (· = block) g g'
  block_lt : effect.block < g'.blockCount
  dest : effect.block = block ∨ g.blockCount ≤ effect.block
  below : effect.result.Below g'.registers.length
  run : ∀ (m : Machine V) (ρ : String → Option V), Agree bindings m ρ → m.block = block →
    ∃ v m', value ρ = some v ∧
      Star exec g'.blocks (blockEnd g.blocks block) m (blockEnd g'.blocks effect.block) m' ∧
      (∀ k, k < g.registers.length → m'.regs k = m.regs k) ∧ m'.block = effect.block ∧
      effect.result.Holds m' v

section Values

variable {bindings : BindingChain T} {block : Nat} {g g1 : Gen T V}
  {f : (String → Option V) → Option Bool} {value value' : (String → Option V) → Option V}

/-- Straight code that computes an operand. -/
theorem Straight.exprOk {operand : Operand T V} {binding : Option (Binding T)}
    (h : Straight bindings block g g1 fun ρ m => ∃ v, value ρ = some v ∧ operand.Holds m v)
    (hready : CondReady bindings bindings block none g) (hbelow : operand.Below g1.registers.length) :
    ExprOk bindings block value g g1 ⟨block, operand, binding⟩ := by
  obtain ⟨insns, hinsns, hrun⟩ := h.code
  refine ⟨h.grows, h.count.symm ▸ hready.block_lt, Or.inl rfl, hbelow, fun m ρ hagree hm => ?_⟩
  obtain ⟨m', hm', hkeeps, v, hv, hholds⟩ := hrun m ρ hagree
  exact ⟨v, m', hv, star_append hinsns hm', hkeeps.regs, hkeeps.block.trans hm, hholds⟩

theorem BoolOk.exprOk {operand : Operand T V} {binding : Option (Binding T)}
    (h : BoolOk bindings block g g1 f operand) (hready : CondReady bindings bindings block none g) :
    ExprOk bindings block (fun ρ => (f ρ).map ofBool) g g1 ⟨block, operand, binding⟩ := by
  refine (h.straight.imp fun ρ m hpost => ?_).exprOk hready h.below
  obtain ⟨b, hb, hholds⟩ := hpost
  exact ⟨ofBool b, congrArg (Option.map ofBool) hb, hholds⟩

/-- The same code with another result. -/
theorem ExprOk.result {effect : ExprEffect T V} {operand : Operand T V}
    {binding : Option (Binding T)} (h : ExprOk bindings block value g g1 effect)
    (hbelow : operand.Below g1.registers.length)
    (hholds : ∀ m ρ v, value ρ = some v → effect.result.Holds m v →
      ∃ w, value' ρ = some w ∧ operand.Holds m w) :
    ExprOk bindings block value' g g1 ⟨effect.block, operand, binding⟩ := by
  refine ⟨h.grows, h.block_lt, h.dest, hbelow, fun m ρ hagree hm => ?_⟩
  obtain ⟨v, m', hv, hstar, hregs, hblock, hv'⟩ := h.run m ρ hagree hm
  obtain ⟨w, hw, hw'⟩ := hholds m' ρ v hv hv'
  exact ⟨w, m', hw, hstar, hregs, hblock, hw'⟩

/-- One more instruction, which sets a new register. -/
theorem ExprOk.setNew {effect : ExprEffect T V} {t : T} {insn : Insn T V}
    {binding : Option (Binding T)} (h : ExprOk bindings block value g g1 effect)
    (hexec : ∀ m ρ v, value ρ = some v → effect.result.Holds m v → ∃ w, value' ρ = some w ∧
      exec insn m = some (.next (m.set g1.registers.length w)) ∧ contains t w = true) :
    ExprOk bindings block value' g
      ((g1.addRegister (.tmp g1.registers.length t)).push effect.block insn)
      ⟨effect.block, .reg (.tmp g1.registers.length t), binding⟩ := by
  have hpush : Appends effect.block g1
      ((g1.addRegister (.tmp g1.registers.length t)).push effect.block insn) :=
    Appends.setNew g1 h.block_lt _ insn
  have hinsns : ((g1.addRegister (.tmp g1.registers.length t)).push effect.block insn).blocks
      effect.block = g1.blocks effect.block ++ [insn] :=
    pushInsn_self ..
  refine ⟨h.grows.trans hpush.grows fun b hb hlt => ?_, h.block_lt, h.dest, ?_,
    fun m ρ hagree hm => ?_⟩
  · rcases h.dest with hblock | hblock
    · exact hb.trans hblock
    · omega
  · show g1.registers.length < _
    rw [Gen.registers_push, Gen.length_addRegister]
    exact Nat.lt_succ_self _
  · obtain ⟨v, m', hv, hstar, hregs, hblock, hholds⟩ := h.run m ρ hagree hm
    obtain ⟨w, hw, hexec', htype⟩ := hexec m' ρ v hv hholds
    refine ⟨w, m'.set g1.registers.length w, hw, (hstar.mono hpush.grows.blocks).trans ?_,
      fun k hk => ?_, hblock, Function.update_self .., htype⟩
    · refine star_append hinsns ?_
      rw [runInsns_next hexec']
      rfl
    · have hlt : k < g1.registers.length := Nat.lt_of_lt_of_le hk h.grows.length_le
      exact (Function.update_of_ne (Nat.ne_of_lt hlt) ..).trans (hregs k hk)

variable [LawfulTypes T] [LawfulValues V]

/-- What a check for a boolean says of an operand. -/
theorem checkBoolean_ok (operand : Operand T V) (g : Gen T V) :
    After (checkBoolean operand) g
      (fun _ g' => g' = g ∧ ∀ m v, operand.Holds m v → ∃ b, v = ofBool b ∧ toBool v = some b)
      (fun _ _ => True) := by
  unfold checkBoolean
  split
  next value _ =>
    split
    next hvalue =>
      refine ⟨rfl, fun m v hholds => ?_⟩
      obtain ⟨b, hb⟩ := Option.isSome_iff_exists.mp hvalue
      have hv : value = v := hholds.eval
      rw [hv] at hb
      exact ⟨b, (LawfulValues.ofBool_of_toBool hb).symm, hb⟩
    next => trivial
  next => trivial
  next reg =>
    split
    next htype =>
      refine ⟨rfl, fun m v hholds => ?_⟩
      obtain ⟨b, hb⟩ := LawfulTypes.toBool_of_isBoolean htype hholds.semType
      exact ⟨b, (LawfulValues.ofBool_of_toBool hb).symm, hb⟩
    next => trivial

/-- The negation of a boolean. -/
theorem codeGenLogicalNotExpr_ok {effect : ExprEffect T V}
    (h : ExprOk bindings block value g g1 effect)
    (hbool : ∀ m v, effect.result.Holds m v → ∃ b, v = ofBool b ∧ toBool v = some b)
    (hvalue : ∀ ρ b, value ρ = some (ofBool b) → value' ρ = some (ofBool !b)) :
    After (codeGenLogicalNotExpr effect) g1
      (fun effect' g' => ExprOk bindings block value' g g' effect') (fun _ _ => True) := by
  unfold codeGenLogicalNotExpr
  refine (operandValue_ok effect.result g1).bind fun r g2 hr => ?_
  obtain ⟨rfl, hknown⟩ := hr
  obtain ⟨known, flags⟩ := r
  dsimp only
  split
  next b hb =>
    obtain ⟨u, hu, hub⟩ := Option.bind_eq_some_iff.mp hb
    refine h.result trivial fun m ρ v hv hholds => ?_
    obtain ⟨b', hv', hb'⟩ := hbool m v hholds
    have heq : b' = b := by
      rcases hknown.known (by rw [hu]; exact Option.some_ne_none u) with hconst | hshape
      · obtain ⟨u', hu', heval⟩ := hknown.isConst hconst
        have huu : u = u' := Option.some.inj (hu.symm.trans hu')
        rw [← hholds.eval, heval, ← huu, hub] at hb'
        exact (Option.some.inj hb').symm
      · obtain ⟨u', hu', hequal⟩ := hknown.singleShape hshape
        have huu : u = u' := Option.some.inj (hu.symm.trans hu')
        have hvb := LawfulValues.toBool_of_equal (hequal m v hholds) (huu ▸ hub)
        exact Option.some.inj (hb'.symm.trans hvb)
    rw [heq] at hv'
    rw [hv'] at hv
    exact ⟨_, hvalue ρ b hv, constBoolean_holds _ _ m⟩
  next reg hreg _ =>
    refine (createTmpRegister_after BOOLEAN g2).bindSafe fun r g3 h3 => ?_
    obtain ⟨rfl, rfl⟩ := h3
    refine h.setNew fun m ρ v hv hholds => ?_
    obtain ⟨b, hv', hb⟩ := hbool m v hholds
    have hregs : m.regs reg.number = v := by
      rw [hreg] at hholds
      exact hholds.eval
    refine ⟨ofBool !b, hvalue ρ b (hv' ▸ hv), ?_, LawfulTypes.contains_boolean _⟩
    show Option.map _ (toBool (m.regs reg.number)) = _
    rw [hregs, hb]
    rfl
  next => trivial

/-- The value of a condition from its exits. -/
theorem booleanEffectFromCondEffect_ok {effect : CondExprEffect T}
    (hready : CondReady bindings bindings block none g)
    (h : CondOk bindings bindings block none (fun _ _ => True) f g g1 effect) :
    After (booleanEffectFromCondEffect effect) g1
      (fun effect' g' => ExprOk bindings block (fun ρ => (f ρ).map ofBool) g g' effect')
      (fun _ _ => True) := by
  have hexits := h.exits
  cases effect with
  | only side merger =>
    cases hexits with
    | single hlt hdest =>
      refine ⟨h.grows, hlt, hdest, trivial, fun m ρ hagree hm => ?_⟩
      obtain ⟨b, merger', m', hb, hexit, hstar, hregs, harrives⟩ := h.run m ρ hagree trivial hm
      have hside : side = b ∧ merger = merger' := by
        have hexit' : (if side = b then some merger else none) = some merger' := hexit
        split at hexit'
        next hside => exact ⟨hside, Option.some.inj hexit'⟩
        next => cases hexit'
      obtain ⟨rfl, rfl⟩ := hside
      exact ⟨ofBool side, m', congrArg (Option.map ofBool) hb, hstar, hregs, harrives.block,
        constBoolean_holds _ _ m'⟩
  | both t e =>
    obtain ⟨⟨ht, htnew⟩, ⟨he, henew⟩, hne⟩ :
        (MergerOk bindings g1 t ∧ g.blockCount ≤ t.dest) ∧
        (MergerOk bindings g1 e ∧ g.blockCount ≤ e.dest) ∧ t.dest ≠ e.dest := by
      cases hexits with
      | both ht he hne =>
        cases ht with
        | new ht htnew =>
          cases he with
          | new he henew => exact ⟨⟨ht, htnew⟩, ⟨he, henew⟩, hne⟩
    have htidy1 : g1.Tidy := h.grows.tidy hready.tidy
    have htlt := ht.dest_lt
    have helt := he.dest_lt
    unfold booleanEffectFromCondEffect
    refine (createAssignTmpRegister_after BOOLEAN g1).bindSafe fun reg g2 h2 => ?_
    obtain ⟨rfl, rfl⟩ := h2
    generalize hreg : (Register.assignTmp g1.registers.length BOOLEAN : Register T) = reg
    have hnumber : reg.number = g1.registers.length := hreg ▸ rfl
    have htype : reg.semType = BOOLEAN := hreg ▸ rfl
    -- both exits set the result and go on in a new block
    let g2 := (g1.addRegister reg).addBlock
    let g4 := (g2.push t.dest (.assign reg (singletonBooleanOperand true))).push t.dest
      (.branch g1.blockCount)
    let g6 := (g4.push e.dest (.assign reg (singletonBooleanOperand false))).push e.dest
      (.branch g1.blockCount)
    show ExprOk bindings block _ g g6 ⟨g1.blockCount, .reg reg, none⟩
    have hgrows : Grows (fun b => b = t.dest ∨ b = e.dest) g1 g6 :=
      (((((Grows.addRegister _ g1 reg).step (Grows.addBlock _ _)).step
        (Grows.push _ g2 (Or.inl rfl) (Nat.lt_succ_of_lt htlt) _)).step
        (Grows.push _ _ (Or.inl rfl) (Nat.lt_succ_of_lt htlt) _)).step
        (Grows.push _ g4 (Or.inr rfl) (Nat.lt_succ_of_lt helt) _)).step
        (Grows.push _ _ (Or.inr rfl) (Nat.lt_succ_of_lt helt) _)
    have htblock : g6.blocks t.dest =
        [.assign reg (singletonBooleanOperand true), .branch g1.blockCount] := by
      show pushInsn (pushInsn (pushInsn (pushInsn g1.blocks _ _) _ _) _ _) _ _ t.dest = _
      rw [pushInsn_of_ne _ hne, pushInsn_of_ne _ hne, pushInsn_self, pushInsn_self, ht.empty]
      rfl
    have heblock : g6.blocks e.dest =
        [.assign reg (singletonBooleanOperand false), .branch g1.blockCount] := by
      show pushInsn (pushInsn (pushInsn (pushInsn g1.blocks _ _) _ _) _ _) _ _ e.dest = _
      rw [pushInsn_self, pushInsn_self, pushInsn_of_ne _ hne.symm, pushInsn_of_ne _ hne.symm,
        he.empty]
      rfl
    have hother : ∀ b, b ≠ t.dest → b ≠ e.dest → g6.blocks b = g1.blocks b := by
      intro b hbt hbe
      show pushInsn (pushInsn (pushInsn (pushInsn g1.blocks _ _) _ _) _ _) _ _ b = _
      rw [pushInsn_of_ne _ hbe, pushInsn_of_ne _ hbe, pushInsn_of_ne _ hbt, pushInsn_of_ne _ hbt]
    have hcont : g6.blocks g1.blockCount = [] :=
      (hother _ (by omega) (by omega)).trans (htidy1 _ (Nat.le_refl _))
    refine ⟨h.grows.trans hgrows fun b hb hlt => by omega, Nat.lt_succ_self _,
      Or.inr h.grows.count, ?_, fun m ρ hagree hm => ?_⟩
    · show reg.number < _
      rw [hnumber]
      show _ < (g1.addRegister reg).registers.length
      rw [Gen.length_addRegister]
      exact Nat.lt_succ_self _
    · obtain ⟨b, merger, m1, hb, hexit, hstar, hregs, harrives⟩ := h.run m ρ hagree trivial hm
      have hrun : ∀ (c : Bool) (merger : TypeMerger T), g1.blocks merger.dest = [] →
          g6.blocks merger.dest =
            [.assign reg (singletonBooleanOperand c), .branch g1.blockCount] →
          Star exec g6.blocks (blockEnd g1.blocks merger.dest) m1
            (blockEnd g6.blocks g1.blockCount)
            ((m1.set g1.registers.length (ofBool c)).goto g1.blockCount) := by
        intro c merger hnil hblock
        rw [blockEnd_of_nil hnil, blockEnd_of_nil hcont]
        refine star_jump (seg_start hblock) ?_
        have hassign : exec (.assign reg (singletonBooleanOperand c) : Insn T V) m1 =
            some (.next (m1.set g1.registers.length (ofBool c))) := by
          rw [← hnumber]
          rfl
        rw [runInsns_next hassign]
        exact runInsns_jump rfl
      have hend : Star exec g6.blocks (blockEnd g.blocks block) m
          (blockEnd g6.blocks g1.blockCount)
          ((m1.set g1.registers.length (ofBool b)).goto g1.blockCount) := by
        refine (hstar.mono hgrows.blocks).trans ?_
        cases b with
        | true =>
          cases hexit
          exact hrun true t ht.empty htblock
        | false =>
          cases hexit
          exact hrun false e he.empty heblock
      refine ⟨ofBool b, _, congrArg (Option.map ofBool) hb, hend, fun k hk => ?_, rfl, ?_, ?_⟩
      · have hlt : k < g1.registers.length := Nat.lt_of_lt_of_le hk h.grows.length_le
        exact (Function.update_of_ne (Nat.ne_of_lt hlt) ..).trans (hregs k hk)
      · show Function.update m1.regs g1.registers.length (ofBool b) reg.number = ofBool b
        rw [hnumber, Function.update_self]
      · show contains reg.semType _ = true
        rw [htype]
        exact LawfulTypes.contains_boolean b

end Values

end Nballerina.CodeGen
