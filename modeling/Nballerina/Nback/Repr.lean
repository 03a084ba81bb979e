import Nballerina.Front.Arithmetic
import Nballerina.Runtime.EqualityOp

/-!
# Representations (`nback/scaffold.bal`)

A `Repr` is a way of representing values: ints, floats and booleans untagged, everything else by tagged
pointers. A tagged representation is always immediate if the word of the pointer is all there is to
any value of its type; then the words of two values can be compared (`semTypeRepr_immediate`,
`immediate_of_holds`).

Mirroring notes:
- Of the constants the value is given, of a register what has been loaded from its address.
- A reference to a function is a constant that only its address is known of.
-/

namespace Nballerina.Nback

open Nballerina.Lib Nballerina.Types Nballerina.Front Nballerina.Runtime

/-! ## Representations -/

structure IntRepr where
  constraints : Option IntSubtypeConstraints
  alwaysInImmediateRange : Bool
deriving DecidableEq

structure TaggedRepr where
  subtype : BasicTypeBitSet
  alwaysImmediate : Bool
deriving DecidableEq

/-- `Repr` -/
inductive ValueRepr where
  | int (repr : IntRepr)
  | float
  | boolean
  | tagged (repr : TaggedRepr)
deriving DecidableEq

/-- The field, which is `true` for what is not tagged. -/
def ValueRepr.alwaysImmediate : ValueRepr → Bool
  | .tagged repr => repr.alwaysImmediate
  | _ => true

def REPR_NIL : TaggedRepr := ⟨NIL, true⟩
def REPR_LIST : TaggedRepr := ⟨LIST, false⟩
def REPR_MAPPING : TaggedRepr := ⟨MAPPING, false⟩
def REPR_ERROR : TaggedRepr := ⟨ERROR, false⟩
def REPR_DECIMAL : TaggedRepr := ⟨DECIMAL, false⟩
def REPR_TOP : TaggedRepr := ⟨VAL, false⟩
def REPR_ANY : TaggedRepr := ⟨ANY, false⟩

def typeReprs : List (BasicTypeBitSet × ValueRepr) := [
  (FLOAT, .float),
  (DECIMAL, .tagged REPR_DECIMAL),
  (BOOLEAN, .boolean),
  (NIL, .tagged REPR_NIL),
  (LIST, .tagged REPR_LIST),
  (MAPPING, .tagged REPR_MAPPING),
  (ERROR, .tagged REPR_ERROR),
  (ANY, .tagged REPR_ANY),
  (VAL, .tagged REPR_TOP)]

def isIntConstrainedToImmediate : Option IntSubtypeConstraints → Bool
  | none => false
  | some c => decide (-2 ^ 55 ≤ c.min) && decide (c.max ≤ 2 ^ 55 - 1)

/-- The `none` is a panic. -/
def isIntSubtypeAlwaysImmediate (ty : SemType) : Option Bool := do
  return isIntConstrainedToImmediate (← intSubtypeConstraints ty)

/-- The `none` is a panic. -/
def isStringSubtypeAlwaysImmediate (ty : SemType) : Option Bool := do
  match ← subtypeData ty BT_STRING with
  | .bool _ => return false
  | .proper (.string strSubtype) =>
    if strSubtype.nonChar.allowed = false then return false
    else return strSubtype.nonChar.values.all fun s => isSmallString s.length (utf8 s.toList).length
  | .proper _ => none

/-- The `none` is a panic. -/
def isSemTypeAlwaysImmediate (ty : SemType) (widenedTy : BasicTypeBitSet) : Option Bool :=
  if widenedTy &&& ~~~(NIL ||| BOOLEAN ||| INT ||| STRING) ≠ 0 then some false
  else
    (if widenedTy &&& STRING ≠ 0 then isStringSubtypeAlwaysImmediate ty else some true).bind
      fun strings =>
        if !strings then some false
        else if widenedTy &&& INT ≠ 0 then isIntSubtypeAlwaysImmediate ty
        else some true

def NON_BEHAVIOURAL : BasicTypeBitSet :=
  NIL ||| BOOLEAN ||| INT ||| FLOAT ||| DECIMAL ||| STRING ||| XML ||| LIST ||| MAPPING ||| Types.TABLE

def supported : BasicTypeBitSet :=
  NIL ||| BOOLEAN ||| INT ||| FLOAT ||| DECIMAL ||| STRING ||| LIST ||| MAPPING ||| ERROR ||| FUNCTION

/-- The `none` is a panic: `allocate register with never type`, or an unimplemented type. -/
def semTypeRepr (ty : SemType) : Option ValueRepr := do
  let w := widenToBasicTypes ty
  if w = INT then
    let constraints ← intSubtypeConstraints ty
    return .int { constraints, alwaysInImmediateRange := isIntConstrainedToImmediate constraints }
  else
    match typeReprs.find? fun tr => w = tr.1 with
    | some tr => return tr.2
    | none =>
      if w = 0 then none
      else if w ||| supported = VAL ∨ w ||| supported = NON_BEHAVIOURAL ||| ERROR ||| FUNCTION ∨
          w &&& supported = w then
        return .tagged { subtype := w, alwaysImmediate := ← isSemTypeAlwaysImmediate ty w }
      else none

/-! ## Operands -/

/-- `t:SingleValue|FunctionRef`; a float by its bits. -/
inductive ConstValue where
  | nil
  | boolean (value : Bool)
  | int (value : Int)
  | float (value : Word)
  | decimal (value : Rat)
  | string (value : String)
  | functionRef

inductive Operand where
  | const (semType : SemType) (value : ConstValue)
  | register (semType : SemType)

def Operand.semType : Operand → SemType
  | .const semType _ => semType
  | .register semType => semType

/-- The representation in what `buildReprValue` returns. -/
def Operand.repr : Operand → Option ValueRepr
  | .register semType => semTypeRepr semType
  | .const _ .functionRef => some (.tagged ⟨FUNCTION, false⟩)
  | .const _ (.string value) =>
    some (.tagged ⟨STRING, isSmallString value.length (utf8 value.toList).length⟩)
  | .const _ .nil => some (.tagged REPR_NIL)
  | .const _ (.boolean _) => some .boolean
  | .const _ (.int value) => some (.int ⟨some ⟨value, value, true⟩, decide (IsImmediateInt value)⟩)
  | .const _ (.float _) => some .float
  | .const _ (.decimal _) => some (.tagged REPR_DECIMAL)

/-! ## Values -/

/-- The values of LLVM that represent values. -/
inductive LlvmValue where
  | i64 (n : Word)
  | double (d : Word)
  | i1 (b : Bool)
  | pointer (tp : TaggedPtr)
deriving DecidableEq

/-- The tagged form, with `buildTaggedInt`, `buildTaggedFloat` or `buildTaggedBoolean`. -/
def LlvmValue.tagged : LlvmValue → Runtime.Member
  | .i64 n => intToTagged n
  | .double d => .newFloat d
  | .i1 b => .tagged (taggedBoolean b)
  | .pointer tp => .tagged tp

def ValueRepr.Fits : ValueRepr → LlvmValue → Prop
  | .int _, .i64 _ => True
  | .float, .double _ => True
  | .boolean, .i1 _ => True
  | .tagged _, .pointer _ => True
  | _, _ => False

/-- The value of a constant. -/
def ConstValue.Is : ConstValue → LlvmValue → BasicValue TaggedPtr → Prop
  | .nil, _, x => x = .nil
  | .boolean value, _, x => x = .boolean value
  | .int value, _, x => x = .int value
  | .float value, v, _ => v = .double value
  | .decimal value, _, x => x = .decimal value
  | .string value, _, x => x = .string value
  | .functionRef, _, x => ∃ tp, x = .structured BT_FUNCTION tp

/-- The operand has the value `x` at run time: it is a value of the type of the operand, and represented
as that. -/
structure Operand.Has {M : Type} (structured : BasicTypeCode → ProperSubtypeData → Set TaggedPtr)
    (dec : DecNumber) (o : Objects M) (nodes : Finset TaggedPtr) (operand : Operand) (v : LlvmValue)
    (x : BasicValue TaggedPtr) : Prop where
  wf : operand.semType.Over ValidData
  holds : Types.Holds structured operand.semType x
  shows : Shows dec o v.tagged x
  node : v.tagged.In nodes
  fits : ∀ r, operand.repr = some r → r.Fits v
  const : ∀ t c, operand = .const t c → c.Is v x

/-! ## Types that are always immediate -/

theorem find?_typeReprs {w : BasicTypeBitSet} {tr : BasicTypeBitSet × ValueRepr}
    (h : typeReprs.find? (fun tr => w = tr.1) = some tr) : w = tr.1 ∧ tr ∈ typeReprs := by
  have hw := List.find?_some h
  exact ⟨of_decide_eq_true hw, List.mem_of_find?_eq_some h⟩

/-- The entries of `typeReprs` that are tagged have their domain. -/
theorem typeReprs_subtype (tr : BasicTypeBitSet × ValueRepr) (htr : tr ∈ typeReprs) (r : TaggedRepr)
    (hr : tr.2 = .tagged r) : r.subtype = tr.1 := by
  simp only [typeReprs, List.mem_cons, List.not_mem_nil, or_false] at htr
  rcases htr with rfl | rfl | rfl | rfl | rfl | rfl | rfl | rfl | rfl <;> cases hr <;> rfl

theorem typeReprs_immediate : ∀ tr ∈ typeReprs, tr.2.alwaysImmediate = true →
    (tr.2 = .float ∧ tr.1 = FLOAT) ∨ tr.1 = BOOLEAN ∨ tr.1 = NIL := by
  decide

/-- The tagged representation of a type has its basic types. -/
theorem semTypeRepr_subtype {t : SemType} {r : TaggedRepr} (h : semTypeRepr t = some (.tagged r)) :
    r.subtype = widenToBasicTypes t := by
  unfold semTypeRepr at h
  dsimp only [Option.bind_eq_bind, Option.pure_def] at h
  split at h
  next =>
    obtain ⟨c, _, hc⟩ := Option.bind_eq_some_iff.mp h
    cases hc
  next =>
    split at h
    next tr htr =>
      obtain ⟨hw, hmem⟩ := find?_typeReprs htr
      rw [hw]
      exact typeReprs_subtype tr hmem r (Option.some.inj h)
    next =>
      split at h
      next => cases h
      next =>
        split at h
        next =>
          obtain ⟨b, _, hb⟩ := Option.bind_eq_some_iff.mp h
          cases hb
          rfl
        next => cases h

theorem isSemTypeAlwaysImmediate_of_simple (t : SemType) {w : BasicTypeBitSet}
    (hw : w = BOOLEAN ∨ w = NIL) : isSemTypeAlwaysImmediate t w = some true := by
  rcases hw with rfl | rfl
  · rfl
  · rfl

/-- Of an always immediate representation either the type is `int` or `float`, and it is not tagged, or
it has nothing but immediate values. -/
theorem semTypeRepr_immediate {t : SemType} {r : ValueRepr} (h : semTypeRepr t = some r)
    (himmediate : r.alwaysImmediate = true) : (∃ i, r = .int i ∧ widenToBasicTypes t = INT) ∨
      (r = .float ∧ widenToBasicTypes t = FLOAT) ∨
      isSemTypeAlwaysImmediate t (widenToBasicTypes t) = some true := by
  unfold semTypeRepr at h
  dsimp only [Option.bind_eq_bind, Option.pure_def] at h
  split at h
  next hint =>
    obtain ⟨c, _, hc⟩ := Option.bind_eq_some_iff.mp h
    cases hc
    exact .inl ⟨_, rfl, hint⟩
  next =>
    split at h
    next tr htr =>
      obtain ⟨hw, hmem⟩ := find?_typeReprs htr
      cases h
      rcases typeReprs_immediate tr hmem himmediate with hfloat | hsimple
      · exact .inr (.inl ⟨hfloat.1, hw.trans hfloat.2⟩)
      · exact .inr (.inr (isSemTypeAlwaysImmediate_of_simple t (hw ▸ hsimple)))
    next =>
      split at h
      next => cases h
      next =>
        split at h
        next =>
          obtain ⟨b, hb, heq⟩ := Option.bind_eq_some_iff.mp h
          cases heq
          cases (show b = true from himmediate)
          exact .inr (.inr hb)
        next => cases h

/-! ## Immediate values -/

/-- Its word is all there is to the value. -/
def IsImmediate (v : Runtime.Member) : Prop := ∃ tp, v = .tagged tp ∧
  (getTag tp = 0#64 ∨ getTag tp = Tag.boolean ∨ getTag tp = Tag.int ||| Tag.immediate ∨
    getTag tp = Tag.string ||| Tag.immediate)

section Values

variable {M : Type} {structured : BasicTypeCode → ProperSubtypeData → Set TaggedPtr}
  {dec : DecNumber} {hashKey : HashKey} {o : Objects M} {nodes : Finset TaggedPtr}
  {v w : Runtime.Member} {t : SemType} {x : BasicValue TaggedPtr}

/-- Immediate values are equal to no others. -/
theorem equal_iff_of_immediate {exact : Bool} (h : IsImmediate v ∨ IsImmediate w) :
    Equal dec o exact v w ↔ v.sameBits w = true := by
  have htags : ∀ u : Runtime.Member, IsImmediate u → u.getTag ≠ Tag.int ∧ u.getTag ≠ Tag.float ∧
      u.getTag ≠ Tag.string ∧ u.getTag ≠ Tag.decimal ∧ u.getTag ≠ Tag.list ∧ u.getTag ≠ Tag.mapping ∧
      u.getTag ≠ Tag.function := by
    intro u hu
    obtain ⟨tp, rfl, htag⟩ := hu
    rw [getTag_tagged]
    rcases htag with htag | htag | htag | htag <;> rw [htag] <;> decide
  refine ⟨fun heq => ?_, fun heq => ?_⟩
  · cases heq with
    | same tp hv hw =>
      rw [hv, hw]
      exact sameBits_tagged.mpr rfl
    | int hv hw => exact h.elim (fun h => absurd hv (htags _ h).1) fun h => absurd hw (htags _ h).1
    | float hv hw =>
      exact h.elim (fun h => absurd hv (htags _ h).2.1) fun h => absurd hw (htags _ h).2.1
    | string p1 p2 hv hw htag1 htag2 =>
      rw [hv, hw] at h
      exact h.elim (fun h => absurd htag1 (htags _ h).2.2.1) fun h => absurd htag2 (htags _ h).2.2.1
    | decimal p1 p2 hv hw htag1 htag2 =>
      rw [hv, hw] at h
      exact h.elim (fun h => absurd htag1 (htags _ h).2.2.2.1) fun h => absurd htag2 (htags _ h).2.2.2.1
    | object p1 p2 hv hw htag hsame =>
      have hkind : getTag p1 = Tag.list ∨ getTag p1 = Tag.mapping ∨ getTag p1 = Tag.function := by
        cases hsame with
        | exact htag _ => exact htag
        | deep htag _ => exact htag.imp_right .inl
      rw [hv, hw] at h
      have hnot : ∀ p, IsImmediate (.tagged p) →
          ¬ (getTag p = Tag.list ∨ getTag p = Tag.mapping ∨ getTag p = Tag.function) := by
        intro p hp
        exact not_or.mpr ⟨(htags _ hp).2.2.2.2.1, not_or.mpr (htags _ hp).2.2.2.2.2⟩
      rcases h with h | h
      · exact absurd hkind (hnot p1 h)
      · exact absurd (htag ▸ hkind) (hnot p2 h)
  · obtain rfl := eq_of_sameBits heq
    cases v with
    | tagged tp => exact .same tp rfl rfl
    | newInt n => cases heq
    | newFloat d => cases heq

theorem hasInt_of_holds (ht : t.Over ValidData) {n : Int} (h : Types.Holds structured t (.int n)) :
    HasInt t n := by
  refine ⟨h, fun ranges hranges => ?_⟩
  obtain ⟨r, hat, hr⟩ := atCode ht.wf BT_INT
  cases hranges.symm.trans hr
  cases hat with
  | part _ _ hl =>
    obtain ⟨ranges', heq, hnormalised⟩ := (valid_of_lookup ht.wf ht.valid hl).2.1 rfl
    cases heq
    exact hnormalised

/-- The ints of such a type are in the range of immediate ints. -/
theorem isImmediateInt_of_holds (ht : t.Over ValidData) {n : Int} (h : Types.Holds structured t (.int n))
    {c : Option IntSubtypeConstraints} (hc : intSubtypeConstraints t = some c)
    (himmediate : isIntConstrainedToImmediate c = true) : IsImmediateInt n := by
  obtain ⟨c', hc', hbounds⟩ := intSubtypeConstraints_spec (hasInt_of_holds ht h)
  cases hc.symm.trans hc'
  cases c with
  | none => cases himmediate
  | some c =>
    obtain ⟨hmin, hmax⟩ := hbounds c rfl
    obtain ⟨hlower, hupper⟩ := Bool.and_eq_true_iff.mp himmediate
    have hlower := of_decide_eq_true hlower
    have hupper := of_decide_eq_true hupper
    unfold IsImmediateInt
    omega

/-- The strings of such a type are small. -/
theorem small_of_holds {s : List Char} (h : Types.Holds structured t (.string (String.ofList s)))
    (himmediate : isStringSubtypeAlwaysImmediate t = some true) : Small s := by
  obtain ⟨r, hr, hhas⟩ := h
  have hr : subtypeData t BT_STRING = some r := hr
  have hhas : String.ofList s ∈ stringDen r := hhas
  unfold isStringSubtypeAlwaysImmediate at himmediate
  rw [hr] at himmediate
  cases r with
  | bool b => cases himmediate
  | proper d =>
    cases d with
    | string d =>
      rw [stringDen_eq rfl] at hhas
      dsimp only [Option.bind_eq_bind, Option.bind_some, Option.pure_def] at himmediate
      split at himmediate
      next => cases himmediate
      next hallowed =>
        have hallowed : d.nonChar.allowed = true := Bool.eq_true_of_not_eq_false hallowed
        rcases hhas with ⟨hchar, _⟩ | ⟨_, hmem⟩
        · have hlength : (String.ofList s).length = 1 := hchar
          rw [String.length_ofList] at hlength
          exact .inl hlength
        · have hmem : String.ofList s ∈ d.nonChar.values :=
            (EnumerableSubtype.mem_den.mp hmem).mpr hallowed
          have hall := List.all_eq_true.mp (Option.some.inj himmediate) _ hmem
          rw [String.length_ofList, String.toList_ofList] at hall
          exact (isSmallString_iff s).mp hall
    | _ => cases himmediate

theorem represents_of_mem (hvalid : o.Valid dec.compare hashKey nodes) {tp : TaggedPtr} {s : List Char}
    (h : (tp, s) ∈ o.store.strings) : Represents o.store.heap tp s :=
  hvalid.reachable.valid _ h

theorem and_basicType_ne_zero {b : BasicTypeBitSet} {c : BasicTypeCode} (h : b.getLsbD c.val = true) :
    b &&& basicType c ≠ 0 := by
  rw [ne_eq, and_basicType_eq_zero, h]
  exact Bool.true_eq_false_eq_False

/-- The values of an always immediate type are. -/
theorem immediate_of_holds (hvalid : o.Valid dec.compare hashKey nodes) (ht : t.Over ValidData)
    (himmediate : isSemTypeAlwaysImmediate t (widenToBasicTypes t) = some true)
    (h : Types.Holds structured t x) (hshows : Shows dec o v x) (hin : v.In nodes) : IsImmediate v := by
  have hbit := h.bit ht.wf
  rw [← widenToBasicTypes_eq] at hbit
  unfold isSemTypeAlwaysImmediate at himmediate
  split at himmediate
  next => cases himmediate
  next hmask =>
    have hmask : widenToBasicTypes t &&& ~~~(NIL ||| BOOLEAN ||| INT ||| STRING) = 0 := not_not.mp hmask
    have hcode : (NIL ||| BOOLEAN ||| INT ||| STRING).getLsbD x.code.val = true := by
      have hzero := congrArg (fun b : BasicTypeBitSet => b.getLsbD x.code.val) hmask
      rw [BitVec.getLsbD_and, getLsbD_not_code, hbit, Bool.true_and] at hzero
      exact (Bool.not_eq_false _).mp fun hfalse => by
        rw [hfalse] at hzero
        exact absurd (hzero.trans BitVec.getLsbD_zero) (by decide)
    have hnone : ∀ code : BasicTypeCode, code = BT_FLOAT ∨ code = BT_DECIMAL ∨ BT_ERROR ≤ code →
        ¬ (NIL ||| BOOLEAN ||| INT ||| STRING).getLsbD code.val = true := by decide
    obtain ⟨strings, hstrings, himmediate⟩ := Option.bind_eq_some_iff.mp himmediate
    cases strings with
    | false => cases himmediate
    | true =>
      cases hshows with
      | nil => exact ⟨_, rfl, .inl (by decide)⟩
      | boolean b => exact ⟨_, rfl, .inr (.inl (getTag_taggedBoolean b))⟩
      | int v htag =>
        rcases htag with htag | htag
        · have hint : widenToBasicTypes t &&& INT ≠ 0 := and_basicType_ne_zero hbit
          rw [if_neg (by decide), if_pos hint] at himmediate
          obtain ⟨c, hc, heq⟩ := Option.bind_eq_some_iff.mp himmediate
          have hrange := isImmediateInt_of_holds ht h hc (Option.some.inj heq)
          rw [taggedToInt_of_block htag] at hrange
          exact absurd hrange (not_immediate_of_in hvalid hin htag)
        · obtain ⟨tp, rfl, htag⟩ := tagged_of_immediate htag
          exact ⟨tp, rfl, .inr (.inr (.inl htag))⟩
      | float v htag => exact absurd hcode (hnone BT_FLOAT (.inl rfl))
      | decimal tp htag => exact absurd hcode (hnone BT_DECIMAL (.inr (.inl rfl)))
      | string tp s hmem =>
        have hstring : widenToBasicTypes t &&& STRING ≠ 0 := and_basicType_ne_zero hbit
        rw [if_pos hstring] at hstrings
        have htag := (represents_of_mem hvalid hmem).getTag_eq
        rw [if_pos (small_of_holds h hstrings)] at htag
        exact ⟨tp, rfl, .inr (.inr (.inr htag))⟩
      | structured tp code hstructured htag =>
        exact absurd hcode (hnone code (.inr (.inr hstructured.1)))

end Values

end Nballerina.Nback
