import Nballerina.Types.IntRanges
import Nballerina.Types.Define

/-!
# Integer arithmetic in the front end (`front/expr.bal`, `front/eval.bal`)

What the front end makes of `a op b` and `-a` on integers: a constant, if both values are known
from the operands or their types; an instruction that cannot panic, if the ranges of the types are
small enough; otherwise one that may.

Mirroring notes:
- Only the branches for two `int` operands are here (`IntOperandPair` and `[t:BT_INT, ..]`); those
  for `float`, `decimal` and `string` come after them.
- An integer of the compiler is a 64-bit integer. The arithmetic that the compiler itself traps is
  `trappedIntArithmeticEval`: the operators of the language, which panic on overflow and on a zero
  divisor.
- What is added to the block is returned; `result` is the register that `createTmpRegister` has
  made, of type `int`.
-/

namespace Nballerina.Front

open Nballerina.Types

/-- `bir:ArithmeticBinaryOp`: `+`, `-`, `*`, `/` and `%`. -/
inductive ArithmeticBinaryOp where
  | add
  | sub
  | mul
  | div
  | rem
deriving DecidableEq, Repr

def ArithmeticBinaryOp.toString : ArithmeticBinaryOp → String
  | .add => "+"
  | .sub => "-"
  | .mul => "*"
  | .div => "/"
  | .rem => "%"

/-- `bir:IntOperand` -/
inductive IntOperand where
  | const (value : Int) (semType : SemType)
  | register (number : Nat) (semType : SemType)
deriving DecidableEq

def IntOperand.semType : IntOperand → SemType
  | .const _ semType => semType
  | .register _ semType => semType

/-- `bir:IntArithmeticBinaryInsn` and, with `noPanic`, `bir:IntNoPanicArithmeticBinaryInsn`. -/
structure IntArithmeticInsn where
  noPanic : Bool
  op : ArithmeticBinaryOp
  pos : Int
  lhs : IntOperand
  rhs : IntOperand
  result : Nat
deriving DecidableEq

/-- How the front end stops. -/
inductive CodeGenError where
  | semantic (message : String) (pos : Int)
  | panic
deriving DecidableEq, Repr

/-- The operand that has the result, and the instruction added for it. -/
structure ExprEffect where
  result : IntOperand
  insn : Option IntArithmeticInsn
deriving DecidableEq

/-! ## Int subtypes (`types/core.bal`) -/

structure IntSubtypeConstraints where
  min : Int
  max : Int
  all : Bool
deriving DecidableEq, Repr

def intSubtypeMin (subtype : List Range) : Option Int := subtype.head?.map fun r => r.min

def intSubtypeMax (subtype : List Range) : Option Int := subtype.getLast?.map fun r => r.max

/-- The outer `none` is a panic. -/
def intSubtypeConstraints (t : SemType) : Option (Option IntSubtypeConstraints) := do
  match ← subtypeData t BT_INT with
  | .bool _ => return none
  | .proper (.int v) =>
    return some { min := ← intSubtypeMin v, max := ← intSubtypeMax v, all := v.length == 1 }
  | .proper _ => none

def intSubtypeSingleValue : ProperSubtypeData → Option (Option Int)
  | .int [r] => some (if r.min = r.max then some r.min else none)
  | .int _ => some none
  | _ => none

/-- The outer `none` is a panic. -/
def singleIntShape (t : SemType) : Option (Option Int) :=
  match t with
  | .bits _ => some none
  | .complex c =>
    if c.some = INT ∧ c.all = 0 then do intSubtypeSingleValue (← c.subtypeDataList[0]?)
    else some none

def intConst (value : Int) : SemType := basicSubtype BT_INT (.int [⟨value, value⟩])

/-! ## Evaluation (`front/eval.bal`) -/

/-- A result in the range of an `int`; otherwise there is a panic. -/
def fitInt (n : Int) : Option Int :=
  if intMinValue ≤ n ∧ n ≤ intMaxValue then some n else none

/-- The operators of the language on `int`, with `trap` around them. -/
def trappedIntArithmeticEval (op : ArithmeticBinaryOp) (left right : Int) : Option Int :=
  match op with
  | .add => fitInt (left + right)
  | .sub => fitInt (left - right)
  | .mul => fitInt (left * right)
  | .div => if right = 0 then none else fitInt (left.tdiv right)
  | .rem => if right = 0 then none else fitInt (left.tmod right)

def intArithmeticEval (pos : Int) (op : ArithmeticBinaryOp) (left right : Int) :
    Except CodeGenError Int :=
  match trappedIntArithmeticEval op left right with
  | some value => .ok value
  | none =>
    .error (.semantic ("evaluation of int constant " ++ op.toString ++ " expression failed") pos)

def intNegateEval (pos : Int) (value : Int) : Except CodeGenError Int :=
  if value = intMinValue then .error (.semantic "- applied to minimum integer value" pos)
  else .ok (-value)

/-! ## Operands -/

abbrev ValueFlags := BitVec 2

def VALUE_CONST : ValueFlags := 1
def VALUE_SINGLE_SHAPE : ValueFlags := 2

def intOperandValue (operand : IntOperand) : Except CodeGenError (Int × ValueFlags) :=
  match operand, singleIntShape operand.semType with
  | _, none => .error .panic
  | .const value _, some (some shape) =>
    if shape ≠ value then .error .panic else .ok (value, VALUE_CONST ||| VALUE_SINGLE_SHAPE)
  | .const value _, some none => .ok (value, VALUE_CONST)
  | .register .., some (some shape) => .ok (shape, VALUE_SINGLE_SHAPE)
  | .register .., some none => .ok (0, 0)

def SIGNED32_MIN_VALUE : Int := -2147483648
def SIGNED32_MAX_VALUE : Int := 2147483647
def UNSIGNED32_MAX_VALUE : Int := 4294967295

/-- The bounds between which operands cannot make `op` panic, if there are any. -/
def noPanicRange : ArithmeticBinaryOp → Option Range
  | .add => some ⟨SIGNED32_MIN_VALUE, UNSIGNED32_MAX_VALUE⟩
  | .sub => some ⟨SIGNED32_MIN_VALUE, UNSIGNED32_MAX_VALUE⟩
  | .mul => some ⟨SIGNED32_MIN_VALUE, SIGNED32_MAX_VALUE⟩
  | .div => none
  | .rem => none

/-- The `none` is a panic. -/
def intArithmeticOpNeverPanics (op : ArithmeticBinaryOp) (lhs rhs : IntOperand) : Option Bool := do
  match ← intSubtypeConstraints lhs.semType, ← intSubtypeConstraints rhs.semType, noPanicRange op with
  | some c1, some c2, some r =>
    return [c1, c2].all fun c => !(decide (c.max > r.max) || decide (c.min < r.min))
  | _, _, _ => return false

/-! ## Code generation -/

/-- A value known at compile time. -/
def constOperand (value : Int) (flags : ValueFlags) : IntOperand :=
  .const value (if flags &&& VALUE_SINGLE_SHAPE ≠ 0 then intConst value else .bits INT)

def codeGenArithmeticBinaryExpr (op : ArithmeticBinaryOp) (pos : Int) (lhs rhs : IntOperand)
    (result : Nat) : Except CodeGenError ExprEffect := do
  let (leftVal, leftFlags) ← intOperandValue lhs
  let (rightVal, rightFlags) ← intOperandValue rhs
  let resultFlags := leftFlags &&& rightFlags
  if resultFlags ≠ 0 then
    let value ← intArithmeticEval pos op leftVal rightVal
    return ⟨constOperand value resultFlags, none⟩
  else
    match intArithmeticOpNeverPanics op lhs rhs with
    | none => .error .panic
    | some noPanic =>
      return ⟨.register result (.bits INT), some { noPanic, op, pos, lhs, rhs, result }⟩

def codeGenNegateExpr (pos : Int) (operand : IntOperand) (result : Nat) :
    Except CodeGenError ExprEffect := do
  let (value, flags) ← intOperandValue operand
  if flags ≠ 0 then
    let value ← intNegateEval pos value
    return ⟨constOperand value flags, none⟩
  else
    let zero : IntOperand := .const 0 (intConst 0)
    return ⟨.register result (.bits INT),
      some { noPanic := false, op := .sub, pos, lhs := zero, rhs := operand, result }⟩

/-! ## What is known at compile time -/

/-- `n` is an integer of the type. -/
structure HasInt (t : SemType) (n : Int) : Prop where
  mem : ∃ data, subtypeData t BT_INT = some data ∧ intSubtypeContains data n = some true
  normalised : ∀ v, subtypeData t BT_INT = some (.proper (.int v)) → Normalised v

/-- An operand with the integer `n` in it. -/
structure HasValue (operand : IntOperand) (n : Int) : Prop where
  hasInt : HasInt operand.semType n
  const : ∀ value semType, operand = .const value semType → value = n

/-- The value can be seen at compile time: from the operand or from its type. -/
def Known (operand : IntOperand) : Prop :=
  (∃ value semType, operand = .const value semType) ∨
    ∃ n, singleIntShape operand.semType = some (some n)

variable {n : Int}

/-- The subtype data that contain an integer. -/
theorem intSubtypeContains_cases {data : SubtypeData} (h : intSubtypeContains data n = some true) :
    data = .bool true ∨ ∃ v, data = .proper (.int v) ∧ rangesHave v n := by
  cases data with
  | bool b =>
    cases h
    exact Or.inl rfl
  | proper d =>
    cases d with
    | int v => exact Or.inr ⟨v, rfl, (intSubtypeContains_iff v n).mp h⟩
    | _ => cases h

theorem subtypeData_intOnly {c : ComplexSemType ProperSubtypeData} (hsome : c.some = INT)
    (hall : c.all = 0) :
    subtypeData (.complex c) BT_INT = (c.subtypeDataList[0]?).map .proper := by
  show getComplexSubtypeData c BT_INT = _
  unfold getComplexSubtypeData
  rw [hsome, hall]
  rfl

/-- The shape of a type that has only one is the integer. -/
theorem singleIntShape_spec {t : SemType} (h : HasInt t n) :
    ∃ shape, singleIntShape t = some shape ∧ ∀ m, shape = some m → m = n := by
  have hnone : ∃ shape, (some none : Option (Option Int)) = some shape ∧ ∀ m, shape = some m → m = n :=
    ⟨none, rfl, fun m hm => by cases hm⟩
  unfold singleIntShape
  split
  next => exact hnone
  next c =>
    split
    next honly =>
      obtain ⟨data, hdata, hcontains⟩ := h.mem
      rw [subtypeData_intOnly honly.1 honly.2] at hdata
      obtain ⟨d, hd, rfl⟩ := Option.map_eq_some_iff.mp hdata
      obtain hbool | ⟨v, hproper, hv⟩ := intSubtypeContains_cases hcontains
      · cases hbool
      · cases hproper
        rw [hd]
        show ∃ shape, intSubtypeSingleValue (.int v) = some shape ∧ _
        unfold intSubtypeSingleValue
        split
        next r hr =>
          cases hr
          refine ⟨_, rfl, fun m hm => ?_⟩
          split at hm
          next hsingle =>
            cases hm
            obtain ⟨r', hr', hhas⟩ := hv
            rw [List.mem_singleton.mp hr'] at hhas
            have hlower := hhas.1
            have hupper := hhas.2
            omega
          next => cases hm
        next => exact hnone
        next hnot => exact absurd rfl (hnot v)
    next => exact hnone

theorem intOperandValue_spec {o : IntOperand} (h : HasValue o n) :
    ∃ value flags, intOperandValue o = .ok (value, flags) ∧
      (flags ≠ 0 → value = n ∧ Known o) := by
  obtain ⟨shape, hshape, heq⟩ := singleIntShape_spec h.hasInt
  unfold intOperandValue
  rw [hshape]
  cases o with
  | const value semType =>
    have hvalue := h.const value semType rfl
    have hknown : Known (.const value semType) := Or.inl ⟨value, semType, rfl⟩
    cases shape with
    | none => exact ⟨_, _, rfl, fun _ => ⟨hvalue, hknown⟩⟩
    | some m =>
      have hm := heq m rfl
      refine ⟨value, VALUE_CONST ||| VALUE_SINGLE_SHAPE, ?_, fun _ => ⟨hvalue, hknown⟩⟩
      show (if m ≠ value then _ else _) = _
      rw [if_neg (by omega)]
  | register number semType =>
    cases shape with
    | none => exact ⟨_, _, rfl, fun hflags => absurd rfl hflags⟩
    | some m => exact ⟨_, _, rfl, fun _ => ⟨heq m rfl, Or.inr ⟨m, hshape⟩⟩⟩

theorem head_min_le {v : List Range} (hv : Normalised v) (hn : rangesHave v n) :
    ∃ lower, intSubtypeMin v = some lower ∧ lower ≤ n := by
  cases v with
  | nil =>
    obtain ⟨r, hr, _⟩ := hn
    cases hr
  | cons r v =>
    refine ⟨r.min, rfl, ?_⟩
    obtain ⟨r', hr', hhas⟩ := hn
    have hlower := hhas.1
    rcases List.mem_cons.mp hr' with rfl | hr'
    · exact hlower
    · have hapart : r.max + 1 < r'.min := (List.pairwise_cons.mp hv.apart).1 r' hr'
      have hfits := (hv.fits r (List.mem_cons_self ..)).nonempty
      omega

theorem le_last_max {v : List Range} (hv : Normalised v) (hn : rangesHave v n) :
    ∃ upper, intSubtypeMax v = some upper ∧ n ≤ upper := by
  rcases List.eq_nil_or_concat v with rfl | ⟨front, r, rfl⟩
  · obtain ⟨r, hr, _⟩ := hn
    cases hr
  · rw [List.concat_eq_append] at hv hn ⊢
    refine ⟨r.max, ?_, ?_⟩
    · unfold intSubtypeMax
      rw [List.getLast?_append]
      rfl
    · obtain ⟨r', hr', hhas⟩ := hn
      have hupper := hhas.2
      rcases List.mem_append.mp hr' with hr' | hr'
      · have hapart : r'.max + 1 < r.min :=
          (List.pairwise_append.mp hv.apart).2.2 r' hr' r (List.mem_singleton_self r)
        have hfits := (hv.fits r (List.mem_append_right _ (List.mem_singleton_self r))).nonempty
        omega
      · rw [List.mem_singleton.mp hr'] at hupper
        exact hupper

theorem intSubtypeConstraints_spec {t : SemType} (h : HasInt t n) :
    ∃ constraints, intSubtypeConstraints t = some constraints ∧
      ∀ c, constraints = some c → c.min ≤ n ∧ n ≤ c.max := by
  obtain ⟨data, hdata, hcontains⟩ := h.mem
  unfold intSubtypeConstraints
  rw [hdata]
  obtain rfl | ⟨v, rfl, hv⟩ := intSubtypeContains_cases hcontains
  · exact ⟨none, rfl, fun c hc => by cases hc⟩
  · have hnormalised := h.normalised v hdata
    obtain ⟨lower, hlower, hle⟩ := head_min_le hnormalised hv
    obtain ⟨upper, hupper, hge⟩ := le_last_max hnormalised hv
    refine ⟨some ⟨lower, upper, v.length == 1⟩, ?_, fun c hc => ?_⟩
    · simp [hlower, hupper]
    · cases hc
      exact ⟨hle, hge⟩

/-- Where an operation is said not to panic, its operands are between the bounds. -/
theorem intArithmeticOpNeverPanics_spec (op : ArithmeticBinaryOp) {lhs rhs : IntOperand} {a b : Int}
    (hl : HasInt lhs.semType a) (hr : HasInt rhs.semType b) :
    ∃ never, intArithmeticOpNeverPanics op lhs rhs = some never ∧
      (never = true → ∃ r, noPanicRange op = some r ∧ r.Has a ∧ r.Has b) := by
  obtain ⟨c1, hc1, hbounds1⟩ := intSubtypeConstraints_spec hl
  obtain ⟨c2, hc2, hbounds2⟩ := intSubtypeConstraints_spec hr
  unfold intArithmeticOpNeverPanics
  rw [hc1, hc2]
  cases c1 with
  | none => exact ⟨false, rfl, fun h => by cases h⟩
  | some c1 =>
  cases c2 with
  | none => exact ⟨false, rfl, fun h => by cases h⟩
  | some c2 =>
  cases hrange : noPanicRange op with
  | none => exact ⟨false, rfl, fun h => by cases h⟩
  | some r =>
    refine ⟨_, rfl, fun hnever => ⟨r, rfl, ?_⟩⟩
    simp only [List.all_cons, List.all_nil, Bool.and_true, Bool.and_eq_true, Bool.not_eq_true',
      Bool.or_eq_false_iff, decide_eq_false_iff_not] at hnever
    have h1 := hbounds1 c1 rfl
    have h2 := hbounds2 c2 rfl
    unfold Range.Has
    omega

/-! ## Constants -/

theorem hasInt_int (n : Int) : HasInt (.bits INT) n where
  mem := ⟨.bool true, rfl, rfl⟩
  normalised := fun v hv => by cases hv

theorem subtypeData_intConst (n : Int) :
    subtypeData (intConst n) BT_INT = some (.proper (.int [⟨n, n⟩])) := by
  have hsome : (0 ||| basicType BT_INT : BasicTypeBitSet) = INT := by decide
  exact subtypeData_intOnly hsome rfl

theorem hasInt_intConst (h : intMinValue ≤ n ∧ n ≤ intMaxValue) :
    HasInt (intConst n) n where
  mem := ⟨_, subtypeData_intConst n,
    (intSubtypeContains_iff _ n).mpr ⟨_, List.mem_singleton_self _, Int.le_refl n, Int.le_refl n⟩⟩
  normalised := fun v hv => by
    rw [subtypeData_intConst] at hv
    cases hv
    refine ⟨fun r hr => ?_, List.pairwise_singleton ..⟩
    rw [List.mem_singleton.mp hr]
    exact ⟨h.1, Int.le_refl n, h.2⟩

theorem hasValue_constOperand (h : intMinValue ≤ n ∧ n ≤ intMaxValue) (flags : ValueFlags) :
    HasValue (constOperand n flags) n := by
  refine ⟨?_, fun value semType heq => ?_⟩
  · show HasInt (if _ then intConst n else .bits INT) n
    split
    next => exact hasInt_intConst h
    next => exact hasInt_int n
  · cases heq
    rfl

end Nballerina.Front
