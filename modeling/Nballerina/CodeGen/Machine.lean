import Nballerina.CodeGen.Grow

/-!
# What conditions mean

The meaning of a condition is its short-circuit evaluation in an environment `ρ` that gives the
values of the local variables. The meaning of the code is a machine with a value for each register,
which also knows the block it came from: a `typeMerge` instruction chooses its operand by that.

`Agree bindings m ρ` ties the two together: the register that a binding names holds the value of
the variable, and its type contains that value.
-/

namespace Nballerina.CodeGen

open Nballerina.Lib

variable {T V : Type}

/-! ## Source -/

section Source

variable [Values V] [TypeOps T V]

/-- What an equality says of two values. -/
def EqualityOp.holds (op : EqualityOp) (v w : V) : Bool :=
  (if op.exact then exactEqual v w else equal v w) != op.negated

variable (mod : String → Option (ModuleDefn T V)) (ρ : String → Option V)

/-- The value of a name: of a local variable, or of a definition of the module. -/
def evalVar (name : String) : Option V :=
  match ρ name with
  | some v => some v
  | none =>
    match mod name with
    | some (.const v) => some v
    | some (.function v _) => some v
    | _ => none

def evalTerm : Term V → Option V
  | .const v => some v
  | .varRef name => evalVar mod ρ name
  | .group t => evalTerm t

/-- Short-circuit evaluation, from left to right. -/
def evalCond : Cond T V → Option Bool
  | .term t => (evalTerm mod ρ t).bind toBool
  | .group c => evalCond c
  | .not c => (evalCond c).map (!·)
  | .logical isOr left right =>
    (evalCond left).bind fun b => if b = isOr then some b else evalCond right
  | .typeTest left semType negated =>
    (evalTerm mod ρ left).map fun v => contains semType v != negated
  | .equality op left right =>
    (evalTerm mod ρ left).bind fun v => (evalTerm mod ρ right).map fun w => op.holds v w
  | .relational op left right =>
    (evalTerm mod ρ left).bind fun v => (evalTerm mod ρ right).map fun w => Values.compare op v w

end Source

/-! ## Machine -/

/-- The registers, the block that is run and the one before it. -/
structure Machine (V : Type) where
  regs : Nat → V
  block : Nat
  pred : Nat

namespace Machine

def set (m : Machine V) (reg : Nat) (v : V) : Machine V :=
  { m with regs := Function.update m.regs reg v }

def goto (m : Machine V) (dest : Nat) : Machine V := { m with block := dest, pred := m.block }

end Machine

def Operand.eval (m : Machine V) : Operand T V → V
  | .const value _ => value
  | .function value _ => value
  | .reg r => m.regs r.number

/-- Registers below `n`, and where the machine is, have not changed. -/
structure Keeps (n : Nat) (m m' : Machine V) : Prop where
  regs : ∀ k, k < n → m'.regs k = m.regs k
  block : m'.block = m.block
  pred : m'.pred = m.pred

theorem Keeps.refl (n : Nat) (m : Machine V) : Keeps n m m := ⟨fun _ _ => rfl, rfl, rfl⟩

theorem Keeps.trans {n n' : Nat} {m m' m'' : Machine V} (h : Keeps n m m') (h' : Keeps n' m' m'')
    (hn : n ≤ n') : Keeps n m m'' :=
  ⟨fun k hk => (h'.regs k (Nat.lt_of_lt_of_le hk hn)).trans (h.regs k hk),
    h'.block.trans h.block, h'.pred.trans h.pred⟩

theorem keeps_set {n reg : Nat} (h : n ≤ reg) (m : Machine V) (v : V) : Keeps n m (m.set reg v) :=
  ⟨fun _ hk => Function.update_of_ne (Nat.ne_of_lt (Nat.lt_of_lt_of_le hk h)) .., rfl, rfl⟩

/-- One instruction. A `typeMerge` that was reached from none of its predecessors has no meaning. -/
def exec [Values V] [TypeOps T V] : Insn T V → Machine V → Option (Step (Machine V))
  | .assign result operand, m => some (.next (m.set result.number (operand.eval m)))
  | .compare op result left right, m =>
    some (.next (m.set result.number (ofBool (Values.compare op (left.eval m) (right.eval m)))))
  | .equality op result left right, m =>
    some (.next (m.set result.number (ofBool (op.holds (left.eval m) (right.eval m)))))
  | .typeTest result operand semType negated, m =>
    some (.next (m.set result.number (ofBool (contains semType (m.regs operand.number) != negated))))
  | .booleanNot result operand, m =>
    (toBool (m.regs operand.number)).map fun b => .next (m.set result.number (ofBool !b))
  | .branch dest, m => some (.jump dest (m.goto dest))
  | .condBranch operand ifTrue ifFalse, m =>
    (toBool (m.regs operand.number)).map fun b =>
      let dest := if b then ifTrue else ifFalse
      .jump dest (m.goto dest)
  | .typeCondBranch operand semType ifTrue ifFalse ifTrueRegister ifFalseRegister, m =>
    let v := m.regs operand.number
    if contains semType v then some (.jump ifTrue ((m.set ifTrueRegister.number v).goto ifTrue))
    else some (.jump ifFalse ((m.set ifFalseRegister.number v).goto ifFalse))
  | .typeMerge result operands, m =>
    (operands.find? fun p => p.1 = m.pred).map fun p =>
      .next (m.set result.number (m.regs p.2.number))

/-! ## Bindings and values -/

variable [TypeOps T V]

/-- The registers of a binding hold the value, and their types contain it. -/
structure Binding.Holds (b : Binding T) (m : Machine V) (v : V) : Prop where
  reg : m.regs b.reg.number = v
  semType : contains b.reg.semType v = true
  unnarrowedReg : m.regs b.unnarrow.reg.number = v
  unnarrowedType : contains b.unnarrow.reg.semType v = true

/-- `bindingsLookup` where no function begins. -/
def lookup (name : String) (bindings : BindingChain T) : Option (Binding T) :=
  (bindingsLookup false name bindings false).map (·.1)

/-- The bindings describe the values of the local variables. -/
structure Agree (bindings : BindingChain T) (m : Machine V) (ρ : String → Option V) : Prop where
  bound : ∀ name b, lookup name bindings = some b → ∃ v, ρ name = some v ∧ b.Holds m v
  free : ∀ name, lookup name bindings = none → ρ name = none

/-- The registers of a chain are among the first `n`. -/
structure Fits (n : Nat) (bindings : BindingChain T) : Prop where
  reg_lt : ∀ b, .binding b ∈ bindings → b.reg.number < n
  unnarrowed_lt : ∀ b, .binding b ∈ bindings → b.unnarrow.reg.number < n

/-- A chain as it is in a function: a name stands for one declaration, and a register for one. -/
structure Proper (bindings : BindingChain T) : Prop where
  name_eq : ∀ b, .binding b ∈ bindings → b.unnarrow.name = b.name
  unnarrow_eq : ∀ b b', .binding b ∈ bindings → .binding b' ∈ bindings →
    b.unnarrow.reg.number = b'.unnarrow.reg.number → b.unnarrow = b'.unnarrow
  name_unnarrow : ∀ b b', .binding b ∈ bindings → .binding b' ∈ bindings → b.name = b'.name →
    b.unnarrow = b'.unnarrow

section Lookup

omit [TypeOps T V]

/-- Where functions begin does not matter for the binding that is found. -/
theorem bindingsLookup_map (isClosure : Bool) (name : String) (bindings : BindingChain T)
    (inOuterFunction : Bool) :
    (bindingsLookup isClosure name bindings inOuterFunction).map (·.1) = lookup name bindings := by
  have hcongr : ∀ (bindings : BindingChain T) (c c' o o' : Bool),
      (bindingsLookup c name bindings o).map (·.1) = (bindingsLookup c' name bindings o').map (·.1) := by
    intro bindings
    induction bindings with
    | nil =>
      intro c c' o o'
      rfl
    | cons head prev ih =>
      intro c c' o o'
      cases head with
      | func => exact ih c c' _ _
      | binding b =>
        unfold bindingsLookup
        split
        · rfl
        · exact ih c c' o o'
  exact hcongr bindings _ _ _ _

@[simp] theorem lookup_func (name : String) (bindings : BindingChain T) :
    lookup name (.func :: bindings) = lookup name bindings :=
  bindingsLookup_map false name bindings _

theorem lookup_binding (name : String) (b : Binding T) (bindings : BindingChain T) :
    lookup name (.binding b :: bindings) =
      if b.name = name then some b else lookup name bindings := by
  show Option.map _ (if b.name = name then some (b, false)
    else bindingsLookup false name bindings false) = _
  split <;> rfl

theorem lookup_narrow (name : String) (bindings : BindingChain T) (b : Binding T)
    (reg : NarrowRegister T) :
    lookup name (narrow bindings b reg) =
      if b.name = name then some (.narrow b.name reg b.unnarrow) else lookup name bindings :=
  lookup_binding name _ bindings

theorem mem_of_lookup {name : String} {bindings : BindingChain T} {b : Binding T}
    (h : lookup name bindings = some b) : .binding b ∈ bindings ∧ b.name = name := by
  induction bindings with
  | nil => cases h
  | cons head prev ih =>
    cases head with
    | func =>
      rw [lookup_func] at h
      exact ⟨.tail _ (ih h).1, (ih h).2⟩
    | binding b' =>
      rw [lookup_binding] at h
      split at h
      next hname =>
        cases h
        exact ⟨.head _ .., hname⟩
      next => exact ⟨.tail _ (ih h).1, (ih h).2⟩

end Lookup

variable {bindings : BindingChain T}

theorem Fits.mono {n n' : Nat} (h : Fits n bindings) (hn : n ≤ n') :
    Fits n' bindings :=
  ⟨fun b hb => Nat.lt_of_lt_of_le (h.reg_lt b hb) hn,
    fun b hb => Nat.lt_of_lt_of_le (h.unnarrowed_lt b hb) hn⟩

/-- A narrowing with a new register. -/
theorem Fits.narrow {n n' : Nat} {bindings : BindingChain T} {b : Binding T} (t : T)
    (h : Fits n bindings) (hb : b.unnarrow.reg.number < n) (hn : n < n') :
    Fits n' (narrow bindings b ⟨n, t⟩) := by
  refine ⟨fun c hc => ?_, fun c hc => ?_⟩
  · rcases List.mem_cons.mp hc with heq | hc
    · cases heq
      exact hn
    · exact Nat.lt_trans (h.reg_lt c hc) hn
  · rcases List.mem_cons.mp hc with heq | hc
    · cases heq
      exact Nat.lt_trans hb hn
    · exact Nat.lt_trans (h.unnarrowed_lt c hc) hn

theorem Fits.unnarrowed_of_lookup {n : Nat} {name : String} {b : Binding T} {d : DeclBinding T}
    (h : Fits n bindings) (hb : lookup name bindings = some b) (hun : b.unnarrow = d) :
    d.reg.number < n :=
  hun ▸ h.unnarrowed_lt b (mem_of_lookup hb).1

/-- Registers that are made later do not disturb a chain. -/
theorem Agree.keeps {n : Nat} {m m' : Machine V} {ρ : String → Option V} (h : Agree bindings m ρ)
    (hfits : Fits n bindings) (hkeeps : ∀ k, k < n → m'.regs k = m.regs k) : Agree bindings m' ρ := by
  refine ⟨fun name b hb => ?_, h.free⟩
  obtain ⟨v, hv, hholds⟩ := h.bound name b hb
  have hmem := (mem_of_lookup hb).1
  exact ⟨v, hv, (hkeeps _ (hfits.reg_lt b hmem)).trans hholds.reg, hholds.semType,
    (hkeeps _ (hfits.unnarrowed_lt b hmem)).trans hholds.unnarrowedReg, hholds.unnarrowedType⟩

/-! ## Narrowings -/

/-- The chain adds narrowings of variables it has to `limit`. -/
inductive Over (limit : BindingChain T) : BindingChain T → Prop where
  | refl : Over limit limit
  | narrow {chain : BindingChain T} {b b' : Binding T} (reg : NarrowRegister T) :
      Over limit chain → lookup b.name chain = some b' → b'.unnarrow = b.unnarrow →
      Over limit (narrow chain b reg)

theorem agree_narrow {chain : BindingChain T} {b b' : Binding T} {reg : NarrowRegister T}
    {m : Machine V} {ρ : String → Option V} {v : V} (h : Agree chain m ρ)
    (hlookup : lookup b.name chain = some b') (hun : b'.unnarrow = b.unnarrow)
    (hv : ρ b.name = some v) (hreg : m.regs reg.number = v) (htype : contains reg.semType v = true) :
    Agree (narrow chain b reg) m ρ := by
  obtain ⟨w, hw, hholds⟩ := h.bound _ _ hlookup
  have hwv : w = v := Option.some.inj (hw.symm.trans hv)
  rw [hwv] at hholds
  refine ⟨fun name c hc => ?_, fun name hc => ?_⟩
  · rw [lookup_narrow] at hc
    split at hc
    next hname =>
      cases hc
      refine ⟨v, hname ▸ hv, hreg, htype, ?_, ?_⟩
      · exact hun ▸ hholds.unnarrowedReg
      · exact hun ▸ hholds.unnarrowedType
    next => exact h.bound name c hc
  · rw [lookup_narrow] at hc
    split at hc
    next => cases hc
    next => exact h.free name hc

/-- The variable of the binding is in the chain, with the same declaration. -/
def Declared (limit : BindingChain T) (b : Binding T) : Prop :=
  ∃ b0, .binding b0 ∈ limit ∧ b0.name = b.name ∧ b0.unnarrow = b.unnarrow

namespace Over

omit [TypeOps T V]

variable {limit chain chain' : BindingChain T}

theorem trans (h : Over limit chain) (h' : Over chain chain') : Over limit chain' := by
  induction h' with
  | refl => exact h
  | narrow reg _ hlookup hun ih => exact .narrow reg ih hlookup hun

/-- A variable has the declaration that it has in the limit. -/
theorem unnarrow_eq (h : Over limit chain) {name : String} {b : Binding T}
    (hb : lookup name chain = some b) :
    ∃ b0, lookup name limit = some b0 ∧ b0.unnarrow = b.unnarrow := by
  induction h generalizing name b with
  | refl => exact ⟨b, hb, rfl⟩
  | @narrow chain c c' reg _ hlookup hun ih =>
    rw [lookup_narrow] at hb
    split at hb
    next hname =>
      cases hb
      obtain ⟨b0, hb0, hun0⟩ := ih hlookup
      exact ⟨b0, hname ▸ hb0, hun0.trans hun⟩
    next => exact ih hb

/-- Every variable of the limit is in the chain. -/
theorem lookup_of_limit (h : Over limit chain) {name : String} {b0 : Binding T}
    (hb0 : lookup name limit = some b0) :
    ∃ b, lookup name chain = some b ∧ b.unnarrow = b0.unnarrow := by
  induction h with
  | refl => exact ⟨b0, hb0, rfl⟩
  | @narrow chain c c' reg hover hlookup hun ih =>
    obtain ⟨b, hb, hunb⟩ := ih
    rw [lookup_narrow]
    split
    next hname =>
      rw [← hname, hlookup] at hb
      cases hb
      exact ⟨_, rfl, hun.symm.trans hunb⟩
    next => exact ⟨b, hb, hunb⟩

/-- The narrowings that a chain adds, from the innermost on. -/
theorem occurrences (h : Over limit chain) :
    ∃ occs : List (Binding T), chain = occs.map .binding ++ limit ∧
      ∀ b ∈ occs, b.isOccurrence = true ∧ Declared limit b := by
  induction h with
  | refl => exact ⟨[], rfl, fun b hb => absurd hb List.not_mem_nil⟩
  | @narrow chain c c' reg hover hlookup hun ih =>
    obtain ⟨occs, heq, hoccs⟩ := ih
    refine ⟨.narrow c.name reg c.unnarrow :: occs, ?_, fun b hb => ?_⟩
    · show Head.binding _ :: chain = _
      rw [heq]
      rfl
    · rcases List.mem_cons.mp hb with rfl | hb
      · obtain ⟨b0, hb0, hun0⟩ := hover.unnarrow_eq hlookup
        exact ⟨rfl, b0, (mem_of_lookup hb0).1, (mem_of_lookup hb0).2, hun0.trans hun⟩
      · exact hoccs b hb

end Over

end Nballerina.CodeGen
