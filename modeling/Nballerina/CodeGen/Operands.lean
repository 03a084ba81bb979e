import Nballerina.CodeGen.Merge

/-!
# Operands and tests

The code of a term, and of a test that does not branch, is appended to one block and runs straight
through. `Straight bindings block g g' post` says that of what was emitted between `g` and `g'`:
where the bindings agree with the variables it runs to its end, changes no register that was there
before, and `post` holds at the end.
-/

namespace Nballerina.CodeGen

open Nballerina.Lib

variable {T V : Type}

/-- The register of an operand is among the first `n`. -/
def Operand.Below (n : Nat) : Operand T V → Prop
  | .reg r => r.number < n
  | _ => True

theorem Operand.eval_keeps {n : Nat} {operand : Operand T V} (h : operand.Below n)
    {m m' : Machine V} (hkeeps : ∀ k, k < n → m'.regs k = m.regs k) :
    operand.eval m' = operand.eval m := by
  cases operand with
  | reg r => exact hkeeps _ h
  | const => rfl
  | function => rfl

variable [Values V] [TypeOps T V]

/-- Code that was appended to a block and does not leave it. -/
structure Straight (bindings : BindingChain T) (block : Nat) (g g' : Gen T V)
    (post : (String → Option V) → Machine V → Prop) : Prop where
  grows : Grows (· = block) g g'
  count : g'.blockCount = g.blockCount
  code : ∃ insns, g'.blocks block = g.blocks block ++ insns ∧
    ∀ (m : Machine V) (ρ : String → Option V), Agree bindings m ρ →
      ∃ m', runInsns exec insns m = some (.next m') ∧ Keeps g.registers.length m m' ∧ post ρ m'

namespace Straight

variable {bindings : BindingChain T} {block : Nat} {g g1 g2 : Gen T V}
  {post post' : (String → Option V) → Machine V → Prop}

theorem refl (g : Gen T V) (h : ∀ m ρ, Agree bindings m ρ → post ρ m) :
    Straight bindings block g g post where
  grows := Grows.refl _ g
  count := rfl
  code := ⟨[], (List.append_nil _).symm, fun m ρ hagree => ⟨m, rfl, Keeps.refl _ m, h m ρ hagree⟩⟩

theorem imp (h : Straight bindings block g g1 post) (himp : ∀ ρ m, post ρ m → post' ρ m) :
    Straight bindings block g g1 post' := by
  obtain ⟨insns, hinsns, hrun⟩ := h.code
  refine ⟨h.grows, h.count, insns, hinsns, fun m ρ hagree => ?_⟩
  obtain ⟨m', hm', hkeeps, hpost⟩ := hrun m ρ hagree
  exact ⟨m', hm', hkeeps, himp ρ m' hpost⟩

/-- One piece of code after the other; what the first has computed is still there. -/
theorem append (h : Straight bindings block g g1 post) (h' : Straight bindings block g1 g2 post')
    (hfits : Fits g.registers.length bindings)
    (hstable : ∀ ρ m m', post ρ m → Keeps g1.registers.length m m' → post ρ m') :
    Straight bindings block g g2 fun ρ m => post ρ m ∧ post' ρ m := by
  obtain ⟨insns, hinsns, hrun⟩ := h.code
  obtain ⟨insns', hinsns', hrun'⟩ := h'.code
  refine ⟨h.grows.step h'.grows, h'.count.trans h.count, insns ++ insns', ?_, ?_⟩
  · rw [hinsns', hinsns, List.append_assoc]
  · intro m ρ hagree
    obtain ⟨m1, hm1, hkeeps, hpost⟩ := hrun m ρ hagree
    obtain ⟨m2, hm2, hkeeps', hpost'⟩ := hrun' m1 ρ (hagree.keeps hfits hkeeps.regs)
    refine ⟨m2, ?_, hkeeps.trans hkeeps' h.grows.length_le, hstable ρ m1 m2 hpost hkeeps', hpost'⟩
    rw [runInsns_append hm1]
    exact hm2

/-- An instruction that sets a new register. -/
theorem setNew (h : Straight bindings block g g1 post) (hblock : block < g.blockCount)
    (reg : Register T) (insn : Insn T V)
    (hexec : ∀ ρ m, post ρ m → ∃ v, exec insn m = some (.next (m.set g1.registers.length v)) ∧
      post' ρ (m.set g1.registers.length v)) :
    Straight bindings block g ((g1.addRegister reg).push block insn) post' := by
  obtain ⟨insns, hinsns, hrun⟩ := h.code
  have hblock1 : block < g1.blockCount := h.count ▸ hblock
  refine ⟨(h.grows.step (Grows.addRegister _ g1 reg)).step
    (Grows.push (· = block) (g1.addRegister reg) rfl hblock1 insn), h.count,
    insns ++ [insn], ?_, ?_⟩
  · show pushInsn g1.blocks block insn block = _
    rw [pushInsn_self, hinsns, List.append_assoc]
  · intro m ρ hagree
    obtain ⟨m1, hm1, hkeeps, hpost⟩ := hrun m ρ hagree
    obtain ⟨v, hexec', hpost'⟩ := hexec ρ m1 hpost
    refine ⟨m1.set g1.registers.length v, ?_, ?_, hpost'⟩
    · rw [runInsns_append hm1, runInsns_next hexec']
      rfl
    · exact hkeeps.trans (keeps_set (Nat.le_refl _) m1 v) h.grows.length_le

end Straight

/-! ## Terms -/

/-- A function constant has its inherent type. -/
def Operand.Lawful : Operand T V → Prop
  | .function v t => ∀ s : T, contains s v = isSubtype t s
  | _ => True

/-- The operand holds a value that its type contains. -/
structure Operand.Holds (operand : Operand T V) (m : Machine V) (v : V) : Prop where
  eval : operand.eval m = v
  semType : contains operand.semType v = true

/-- What the code of a term computes. -/
structure Computes (mod : String → Option (ModuleDefn T V)) (bindings : BindingChain T)
    (block : Nat) (t : Term V) (g g' : Gen T V) (operand : Operand T V) : Prop where
  straight : Straight bindings block g g' fun ρ m =>
    ∃ v, evalTerm mod ρ t = some v ∧ operand.Holds m v
  below : operand.Below g'.registers.length
  lawful : operand.Lawful

/-- The functions of the module have their inherent types. -/
structure LawfulModule (mod : String → Option (ModuleDefn T V)) : Prop where
  contains_self : ∀ name v t, mod name = some (.function v t) → contains t v = true
  contains_eq : ∀ name v t, mod name = some (.function v t) → ∀ s : T, contains s v = isSubtype t s

section Terms

variable [LawfulTypes T]

theorem constifyRegister_holds {reg : Register T} {m : Machine V} {v : V}
    (hreg : m.regs reg.number = v) (htype : contains reg.semType v = true) :
    (constifyRegister reg : Operand T V).Holds m v := by
  unfold constifyRegister
  split
  next => exact ⟨hreg, htype⟩
  next shape hshape =>
    split
    next => exact ⟨hreg, htype⟩
    next hkeep =>
      have heq := LawfulTypes.eq_of_singleShape hshape (Bool.not_eq_true _ ▸ hkeep) htype
      exact ⟨heq.symm, htype⟩

omit [LawfulTypes T] in
theorem constifyRegister_below (reg : Register T) {n : Nat} (h : reg.number < n) :
    (constifyRegister reg : Operand T V).Below n ∧ (constifyRegister reg : Operand T V).Lawful := by
  unfold constifyRegister
  split
  next => exact ⟨h, trivial⟩
  next =>
    split
    next => exact ⟨h, trivial⟩
    next => exact ⟨trivial, trivial⟩

omit [LawfulTypes T] in
theorem constifyRegister_isRegister {reg : Register T}
    (h : (constifyRegister reg : Operand T V).isRegister = true) :
    (constifyRegister reg : Operand T V) = .reg reg := by
  unfold constifyRegister at h ⊢
  split at h
  next => rfl
  next =>
    split at h
    next hkeep => rw [if_pos hkeep]
    next => cases h

variable {mod : String → Option (ModuleDefn T V)} {bindings : BindingChain T} {block : Nat}
  {g : Gen T V}

omit [LawfulTypes T] in
/-- Only the direct references are written. -/
theorem straight_markAsDirectRef (block : Nat) (g : Gen T V) (reg : Register T)
    {post : (String → Option V) → Machine V → Prop} (h : ∀ m ρ, Agree bindings m ρ → post ρ m) :
    Straight bindings block g (g.markAsDirectRef reg) post ∧
      (g.markAsDirectRef reg).registers = g.registers := by
  unfold Gen.markAsDirectRef
  split
  · split
    · refine ⟨⟨?_, rfl, (Straight.refl g h).code⟩, rfl⟩
      exact ⟨List.prefix_rfl, Nat.le_refl _, Extends.refl _, fun _ _ _ => rfl, id⟩
    · exact ⟨Straight.refl g h, rfl⟩
  · exact ⟨Straight.refl g h, rfl⟩

/-- What is known of the code of a term. -/
structure TermOk (mod : String → Option (ModuleDefn T V)) (bindings : BindingChain T)
    (block : Nat) (t : Term V) (g g' : Gen T V) (effect : ExprEffect T V) : Prop where
  computes : Computes mod bindings block t g g' effect.result
  block : effect.block = block
  binding : ∀ b, effect.binding = some b → effect.result = .reg b.reg ∧
    lookup b.name bindings = some b

theorem codeGenLocalVar_ok {name : String} {b : Binding T} (hblock : block < g.blockCount)
    (hfits : Fits g.registers.length bindings) (hb : lookup name bindings = some b) :
    After (codeGenLocalVar block b) g
      (fun effect g' => TermOk mod bindings block (.varRef name) g g' effect) (fun _ _ => True) := by
  have hmem := mem_of_lookup hb
  have heval : ∀ {m : Machine V} {ρ : String → Option V}, Agree bindings m ρ →
      ∃ v, evalTerm mod ρ (.varRef name) = some v ∧ b.Holds m v := by
    intro m ρ hagree
    obtain ⟨v, hv, hholds⟩ := hagree.bound name b hb
    refine ⟨v, ?_, hholds⟩
    show evalVar mod ρ name = some v
    unfold evalVar
    rw [hv]
  unfold codeGenLocalVar
  rw [after_bind, after_get]
  split
  next =>
    -- a captured variable is copied from its own register
    have hcode : Straight bindings block g
        ((g.addRegister (.assignTmp g.registers.length b.unnarrow.reg.semType)).push block
          (.assign (.assignTmp g.registers.length b.unnarrow.reg.semType)
            (.reg (.capturable (.decl b.unnarrow.reg)))))
        fun ρ m => ∃ v, evalTerm mod ρ (.varRef name) = some v ∧ m.regs g.registers.length = v ∧
          contains b.unnarrow.reg.semType v = true := by
      refine (Straight.refl g fun m ρ => heval).setNew hblock _ _ fun ρ m hpost => ?_
      obtain ⟨v, hv, hholds⟩ := hpost
      refine ⟨v, ?_, v, hv, Function.update_self .., hholds.unnarrowedType⟩
      show some (Step.next (m.set g.registers.length (m.regs b.unnarrow.reg.number))) = _
      rw [hholds.unnarrowedReg]
    have hbelow := constifyRegister_below (V := V)
      (.assignTmp g.registers.length b.unnarrow.reg.semType) (Nat.lt_succ_self _)
    refine ⟨⟨hcode.imp fun ρ m hpost => ?_, ?_, hbelow.2⟩, rfl, fun _ h => by cases h⟩
    · obtain ⟨v, hv, hreg, htype⟩ := hpost
      exact ⟨v, hv, constifyRegister_holds hreg htype⟩
    · rw [Gen.registers_push, Gen.length_addRegister]
      exact hbelow.1
  next =>
    obtain ⟨hcode, hregisters⟩ := straight_markAsDirectRef block g b.reg
      fun m ρ => heval (m := m) (ρ := ρ)
    have hbelow := constifyRegister_below (V := V) b.reg (hfits.reg_lt b hmem.1)
    refine ⟨⟨hcode.imp fun ρ m hpost => ?_, ?_, hbelow.2⟩, rfl, fun c hc => ?_⟩
    · obtain ⟨v, hv, hholds⟩ := hpost
      exact ⟨v, hv, constifyRegister_holds hholds.reg hholds.semType⟩
    · rw [hregisters]
      exact hbelow.1
    · have hc' : (if (constifyRegister b.reg : Operand T V).isRegister then some b else none) =
          some c := hc
      split at hc'
      next hreg =>
        cases hc'
        exact ⟨constifyRegister_isRegister hreg, hmem.2 ▸ hb⟩
      next => cases hc'

variable [LawfulValues V]

theorem codeGenVarRefExpr_ok (hmod : LawfulModule mod) (hblock : block < g.blockCount)
    (hfits : Fits g.registers.length bindings) (name : String) :
    After (codeGenVarRefExpr mod bindings block name) g
      (fun effect g' => TermOk mod bindings block (.varRef name) g g' effect) (fun _ _ => True) := by
  unfold codeGenVarRefExpr
  split
  next b _ hb =>
    have hlookup : lookup name bindings = some b := by
      unfold lookup
      rw [hb]
      rfl
    exact codeGenLocalVar_ok hblock hfits hlookup
  next hnone =>
    have hlookup : lookup name bindings = none := by
      unfold lookup
      rw [hnone]
      rfl
    have heval : ∀ {m : Machine V} {ρ : String → Option V}, Agree bindings m ρ →
        ρ name = none := fun hagree => hagree.free name hlookup
    split
    next v hv =>
      refine ⟨⟨Straight.refl g fun m ρ hagree => ⟨v, ?_, rfl, ?_⟩, trivial, trivial⟩, rfl,
        fun _ h => by cases h⟩
      · show evalVar mod ρ name = some v
        unfold evalVar
        rw [heval hagree, hv]
      · exact (LawfulTypes.contains_singleton v v).trans (LawfulValues.equal_refl v)
    next v t hv =>
      refine ⟨⟨Straight.refl g fun m ρ hagree => ⟨v, ?_, rfl, hmod.contains_self name v t hv⟩,
        trivial, hmod.contains_eq name v t hv⟩, rfl, fun _ h => by cases h⟩
      show evalVar mod ρ name = some v
      unfold evalVar
      rw [heval hagree, hv]
    next => trivial
    next => trivial

theorem codeGenTerm_ok (hmod : LawfulModule mod) (hblock : block < g.blockCount)
    (hfits : Fits g.registers.length bindings) (t : Term V) :
    After (codeGenTerm mod bindings block t) g
      (fun effect g' => TermOk mod bindings block t g g' effect) (fun _ _ => True) := by
  induction t with
  | const v =>
    refine ⟨⟨Straight.refl g fun m ρ _ => ⟨v, rfl, rfl, ?_⟩, trivial, trivial⟩, rfl,
      fun _ h => by cases h⟩
    exact (LawfulTypes.contains_singleton v v).trans (LawfulValues.equal_refl v)
  | varRef name => exact codeGenVarRefExpr_ok hmod hblock hfits name
  | group t ih =>
    refine After.imp ih (fun effect g' h => ⟨⟨h.computes.straight, h.computes.below,
      h.computes.lawful⟩, h.block, h.binding⟩) (fun _ _ h => h)

end Terms

/-! ## Operands that are known -/

section Known

variable [LawfulTypes T] [LawfulValues V]

/-- What `operandValue` says of an operand. -/
structure IsValue (operand : Operand T V) (value : Option V) (flags : ValueFlags) : Prop where
  isConst : flags.isConst = true → ∃ v, value = some v ∧ ∀ m, operand.eval m = v
  singleShape : flags.singleShape = true → ∃ v, value = some v ∧
    ∀ m w, operand.Holds m w → equal w v = true
  known : value ≠ none → flags.isConst = true ∨ flags.singleShape = true

theorem operandValue_ok (operand : Operand T V) (g : Gen T V) :
    After (operandValue operand) g
      (fun r g' => g' = g ∧ IsValue operand r.1 r.2) (fun _ _ => True) := by
  have hshape : ∀ {w v : V} {m : Machine V}, TypeOps.singleShape operand.semType = some v →
      operand.Holds m w → equal w v = true :=
    fun hv hholds => LawfulTypes.equal_of_singleShape hv hholds.semType
  unfold operandValue
  split
  next v t =>
    split
    next =>
      exact ⟨rfl, fun _ => ⟨v, rfl, fun _ => rfl⟩, (fun h => by cases h), fun _ => Or.inl rfl⟩
    next shape hv =>
      split
      next =>
        refine ⟨rfl, fun _ => ⟨v, rfl, fun _ => rfl⟩, fun _ => ⟨v, rfl, fun m w hholds => ?_⟩,
          fun _ => Or.inl rfl⟩
        have hw : v = w := hholds.eval
        rw [hw]
        exact LawfulValues.equal_refl w
      next => trivial
  next =>
    split
    next => exact ⟨rfl, (fun h => by cases h), (fun h => by cases h), fun h => absurd rfl h⟩
    next shape hv =>
      exact ⟨rfl, (fun h => by cases h), fun _ => ⟨shape, rfl, fun m w => hshape hv⟩,
        fun _ => Or.inr rfl⟩

omit [LawfulTypes T] [LawfulValues V] in
theorem ValueFlags.and_ne {f1 f2 : ValueFlags} (h : f1.and f2 ≠ ⟨false, false⟩) :
    (f1.isConst = true ∧ f2.isConst = true) ∨ (f1.singleShape = true ∧ f2.singleShape = true) := by
  obtain ⟨c1, s1⟩ := f1
  obtain ⟨c2, s2⟩ := f2
  cases c1 <;> cases c2 <;> cases s1 <;> cases s2 <;> simp [ValueFlags.and] at h ⊢

omit [LawfulTypes T] in
/-- Values that are known say of `==` and the orders what the operands say. -/
theorem IsValue.congr {l r : Operand T V} {lv rv : V} {lf rf : ValueFlags}
    (hl : IsValue l (some lv) lf) (hr : IsValue r (some rv) rf)
    (hflags : lf.and rf ≠ ⟨false, false⟩) {m : Machine V} {v w : V} (hv : l.Holds m v)
    (hw : r.Holds m w) : equal v lv = true ∧ equal w rv = true := by
  rcases ValueFlags.and_ne hflags with ⟨hlc, hrc⟩ | ⟨hls, hrs⟩
  · obtain ⟨v', hv', hleval⟩ := hl.isConst hlc
    obtain ⟨w', hw', hreval⟩ := hr.isConst hrc
    cases hv'
    cases hw'
    rw [← hv.eval, ← hw.eval, hleval, hreval]
    exact ⟨LawfulValues.equal_refl _, LawfulValues.equal_refl _⟩
  · obtain ⟨v', hv', hleq⟩ := hl.singleShape hls
    obtain ⟨w', hw', hreq⟩ := hr.singleShape hrs
    cases hv'
    cases hw'
    exact ⟨hleq m v hv, hreq m w hw⟩

theorem constBoolean_holds (b : Bool) (flags : ValueFlags) (m : Machine V) :
    (constBoolean b flags : Operand T V).Holds m (ofBool b) := by
  refine ⟨rfl, ?_⟩
  show contains (if flags.singleShape then singleton (ofBool b : V) else BOOLEAN : T) _ = true
  split
  next => exact (LawfulTypes.contains_singleton _ _).trans (LawfulValues.equal_refl _)
  next => exact LawfulTypes.contains_boolean b

theorem singletonBoolean_holds (b : Bool) (m : Machine V) :
    (singletonBooleanOperand b : Operand T V).Holds m (ofBool b) :=
  ⟨rfl, (LawfulTypes.contains_singleton _ _).trans (LawfulValues.equal_refl _)⟩

end Known

/-! ## Tests -/

/-- Code for a boolean that `f` gives. -/
structure BoolOk (bindings : BindingChain T) (block : Nat) (g g' : Gen T V)
    (f : (String → Option V) → Option Bool) (operand : Operand T V) : Prop where
  straight : Straight bindings block g g' fun ρ m => ∃ b, f ρ = some b ∧ operand.Holds m (ofBool b)
  below : operand.Below g'.registers.length

section Tests

variable [LawfulTypes T] [LawfulValues V] {bindings : BindingChain T} {block : Nat}
  {g g1 : Gen T V} {post : (String → Option V) → Machine V → Prop}
  {f : (String → Option V) → Option Bool}

omit [LawfulTypes T] [LawfulValues V] in
theorem boolOk_const (h : Straight bindings block g g1 post) {v : V} {t : T}
    (hconst : ∀ ρ m, post ρ m → ∃ b, f ρ = some b ∧ (Operand.const v t).Holds m (ofBool b)) :
    BoolOk bindings block g g1 f (.const v t) :=
  ⟨h.imp hconst, trivial⟩

omit [LawfulValues V] in
theorem codeGenUnlessKnown_ok (h : Straight bindings block g g1 post) (hblock : block < g.blockCount)
    {known : Option (Operand T V)} {insn : Register T → Insn T V}
    (hknown : ∀ c, known = some c → ∃ v t, c = .const v t ∧
      ∀ ρ m, post ρ m → ∃ b, f ρ = some b ∧ c.Holds m (ofBool b))
    (hexec : ∀ ρ m, post ρ m → ∃ b, f ρ = some b ∧
      exec (insn (.tmp g1.registers.length BOOLEAN)) m =
        some (.next (m.set g1.registers.length (ofBool b)))) :
    After (codeGenUnlessKnown block known insn) g1
      (fun operand g' => BoolOk bindings block g g' f operand) (fun _ _ => True) := by
  unfold codeGenUnlessKnown
  split
  next c =>
    obtain ⟨v, t, hc, hholds⟩ := hknown c rfl
    rw [hc] at hholds ⊢
    exact boolOk_const h hholds
  next =>
    refine ⟨h.setNew hblock _ _ fun ρ m hpost => ?_, ?_⟩
    · obtain ⟨b, hb, hexec'⟩ := hexec ρ m hpost
      exact ⟨ofBool b, hexec', b, hb, Function.update_self .., LawfulTypes.contains_boolean b⟩
    · show g1.registers.length < _
      rw [Gen.registers_push, Gen.length_addRegister]
      exact Nat.lt_succ_self _

omit [LawfulValues V] in
/-- A value of the tested type is one of `semType`. -/
theorem contains_testedType (cur semType : T) (v : V) (hv : contains cur v = true) :
    contains (testedType cur semType) v = contains semType v := by
  unfold testedType
  split
  next => rfl
  next => rw [LawfulTypes.contains_intersect, hv, Bool.true_and]

theorem finishCodeGenTypeTest_ok {operand : Operand T V} {value : (String → Option V) → Option V}
    (h : Straight bindings block g g1 fun ρ m => ∃ v, value ρ = some v ∧ operand.Holds m v)
    (hlawful : operand.Lawful) (hblock : block < g.blockCount) (semType : T) (negated : Bool) :
    After (finishCodeGenTypeTest semType operand block negated) g1
      (fun operand' g' => BoolOk bindings block g g'
        (fun ρ => (value ρ).map fun v => contains semType v != negated) operand')
      (fun _ _ => True) := by
  have hbool : ∀ {ρ : String → Option V} {v : V} {b : Bool}, value ρ = some v →
      contains semType v = b →
      (value ρ).map (fun v => contains semType v != negated) = some (b != negated) := by
    intro ρ v b hv hb
    rw [hv, Option.map_some, hb]
  unfold finishCodeGenTypeTest
  split
  next hempty =>
    refine boolOk_const h fun ρ m hpost => ?_
    obtain ⟨v, hv, hholds⟩ := hpost
    have hdiff := LawfulTypes.contains_of_isEmpty v hempty
    rw [LawfulTypes.contains_diff, hholds.semType, Bool.true_and, Bool.not_eq_false'] at hdiff
    exact ⟨!negated, (hbool hv hdiff).trans (by cases negated <;> rfl), singletonBoolean_holds _ m⟩
  next =>
    split
    next hempty =>
      refine boolOk_const h fun ρ m hpost => ?_
      obtain ⟨v, hv, hholds⟩ := hpost
      have hnone := LawfulTypes.contains_of_isEmpty v hempty
      rw [contains_testedType _ _ _ hholds.semType] at hnone
      exact ⟨negated, (hbool hv hnone).trans (by cases negated <;> rfl), singletonBoolean_holds _ m⟩
    next =>
      cases operand with
      | function u t =>
        refine boolOk_const h fun ρ m hpost => ?_
        obtain ⟨v, hv, hholds⟩ := hpost
        have huv : u = v := hholds.eval
        exact ⟨isSubtype t semType != negated, hbool hv (huv ▸ hlawful semType),
          singletonBoolean_holds _ m⟩
      | const => trivial
      | reg reg =>
        refine codeGenUnlessKnown_ok h hblock (fun _ hc => by cases hc)
          fun ρ m hpost => ?_
        obtain ⟨v, hv, hholds⟩ := hpost
        refine ⟨contains semType v != negated, hbool hv rfl, ?_⟩
        have hreg : m.regs reg.number = v := hholds.eval
        rw [← hreg]
        rfl

variable {l r : Operand T V} {left right : (String → Option V) → Option V}

/-- Two operands have been evaluated. -/
def BothHold (left right : (String → Option V) → Option V) (l r : Operand T V)
    (ρ : String → Option V) (m : Machine V) : Prop :=
  (∃ v, left ρ = some v ∧ l.Holds m v) ∧ ∃ w, right ρ = some w ∧ r.Holds m w

theorem codeGenEqualityExpr_ok (h : Straight bindings block g g1 (BothHold left right l r))
    (hblock : block < g.blockCount) (op : EqualityOp) :
    After (codeGenEqualityExpr block op l r) g1
      (fun operand g' => BoolOk bindings block g g'
        (fun ρ => (left ρ).bind fun v => (right ρ).map fun w => op.holds v w) operand)
      (fun _ _ => True) := by
  have hbool : ∀ {ρ : String → Option V} {v w : V}, left ρ = some v → right ρ = some w →
      ((left ρ).bind fun v => (right ρ).map fun w => op.holds v w) = some (op.holds v w) := by
    intro ρ v w hv hw
    rw [hv, hw]
    rfl
  unfold codeGenEqualityExpr
  split
  next => trivial
  next =>
    split
    next => trivial
    next =>
      rw [after_bind]
      refine (operandValue_ok l g1).imp (fun rl gl hl => ?_) (fun _ _ he => he)
      obtain ⟨rfl, hl⟩ := hl
      rw [after_bind]
      refine (operandValue_ok r gl).imp (fun rr gr hr => ?_) (fun _ _ he => he)
      obtain ⟨rfl, hr⟩ := hr
      refine codeGenUnlessKnown_ok h hblock (fun c hc => ?_) fun ρ m hpost => ?_
      · obtain ⟨lv, lf⟩ := rl
        obtain ⟨rv, rf⟩ := rr
        cases lv with
        | none => cases hc
        | some lv =>
        cases rv with
        | none => cases hc
        | some rv =>
        replace hc : (if op.exact = true then _ else _) = some c := hc
        split at hc
        next hexact =>
          split at hc
          next hconst =>
            cases hc
            refine ⟨_, _, rfl, fun ρ m hpost => ?_⟩
            obtain ⟨⟨v, hv, hlv⟩, w, hw, hrw⟩ := hpost
            have hboth := Bool.and_eq_true_iff.mp hconst
            obtain ⟨v', hv', hleval⟩ := hl.isConst hboth.1
            obtain ⟨w', hw', hreval⟩ := hr.isConst hboth.2
            cases hv'
            cases hw'
            have hvl : v = lv := hlv.eval.symm.trans (hleval m)
            have hwr : w = rv := hrw.eval.symm.trans (hreval m)
            refine ⟨op.holds v w, hbool hv hw, ?_, LawfulTypes.contains_boolean _⟩
            show ofBool _ = ofBool (op.holds v w)
            rw [hvl, hwr, EqualityOp.holds, if_pos hexact]
            cases op.negated <;> cases exactEqual lv rv <;> rfl
          next => cases hc
        next hexact =>
          split at hc
          next => cases hc
          next hflags =>
            cases hc
            refine ⟨_, _, rfl, fun ρ m hpost => ?_⟩
            obtain ⟨⟨v, hv, hlv⟩, w, hw, hrw⟩ := hpost
            obtain ⟨hvl, hwr⟩ := hl.congr hr hflags hlv hrw
            have hholds : op.holds v w = (op.negated == !equal lv rv) := by
              rw [EqualityOp.holds, if_neg hexact, LawfulValues.equal_congr hvl hwr]
              cases op.negated <;> cases equal lv rv <;> rfl
            exact ⟨_, hbool hv hw, hholds ▸ constBoolean_holds _ _ m⟩
      · obtain ⟨⟨v, hv, hlv⟩, w, hw, hrw⟩ := hpost
        refine ⟨op.holds v w, hbool hv hw, ?_⟩
        rw [← hlv.eval, ← hrw.eval]
        rfl

theorem codeGenRelationalExpr_ok (h : Straight bindings block g g1 (BothHold left right l r))
    (hblock : block < g.blockCount) (op : OrderOp) :
    After (codeGenRelationalExpr block op l r) g1
      (fun operand g' => BoolOk bindings block g g'
        (fun ρ => (left ρ).bind fun v => (right ρ).map fun w => Values.compare op v w) operand)
      (fun _ _ => True) := by
  have hbool : ∀ {ρ : String → Option V} {v w : V}, left ρ = some v → right ρ = some w →
      ((left ρ).bind fun v => (right ρ).map fun w => Values.compare op v w) =
        some (Values.compare op v w) := by
    intro ρ v w hv hw
    rw [hv, hw]
    rfl
  unfold codeGenRelationalExpr
  split
  next => trivial
  next =>
    rw [after_bind]
    refine (operandValue_ok l g1).imp (fun rl gl hl => ?_) (fun _ _ he => he)
    obtain ⟨rfl, hl⟩ := hl
    rw [after_bind]
    refine (operandValue_ok r gl).imp (fun rr gr hr => ?_) (fun _ _ he => he)
    obtain ⟨rfl, hr⟩ := hr
    refine codeGenUnlessKnown_ok h hblock (fun c hc => ?_) fun ρ m hpost => ?_
    · obtain ⟨lv, lf⟩ := rl
      obtain ⟨rv, rf⟩ := rr
      cases lv with
      | none => cases hc
      | some lv =>
      cases rv with
      | none => cases hc
      | some rv =>
      replace hc : (if _ then none else _) = some c := hc
      split at hc
      next => cases hc
      next hflags =>
        cases hc
        refine ⟨_, _, rfl, fun ρ m hpost => ?_⟩
        obtain ⟨⟨v, hv, hlv⟩, w, hw, hrw⟩ := hpost
        obtain ⟨hvl, hwr⟩ := hl.congr hr hflags hlv hrw
        refine ⟨_, hbool hv hw, ?_⟩
        rw [LawfulValues.compare_congr op hvl hwr]
        exact constBoolean_holds _ _ m
    · obtain ⟨⟨v, hv, hlv⟩, w, hw, hrw⟩ := hpost
      refine ⟨Values.compare op v w, hbool hv hw, ?_⟩
      rw [← hlv.eval, ← hrw.eval]
      rfl

end Tests

end Nballerina.CodeGen
