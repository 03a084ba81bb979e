import Nballerina.Lib.Blocks

/-!
# Registers and bindings

`front/expr.bal` and `front/stmt.bal` keep what is known about the local variables at a point of
the code in a `BindingChain`: the innermost entry comes first, and an entry for a name shadows the
entries before it. A variable has one declaration; where a test narrows its type a `NarrowBinding`
is added with a register of its own, and an assignment to a narrowed variable adds an
`AssignmentBinding` that shadows the narrowing.

Mirroring notes:
- The operations on types are those of `types as t`; here they are the fields of `TypeOps`, and
  `LawfulTypes` says that these are exact on the types met, as `intersect` and `diff` of ints of several
  ranges are not. The subtypes of `boolean` are an instance (`standForTypes_boolType`).
- A chain is a list. `===` on chains compares references; every entry holds a register that was
  made for it, so that equal chains of equal length are the same chain.
- Positions, scopes and names of registers, the `underlying` register of a narrowing and the
  `used` mark of a declaration are left out: nothing below reads them.
-/

namespace Nballerina.CodeGen

/-! ## Values and types -/

/-- The relational operators. -/
inductive OrderOp where
  | lt | le | gt | ge
deriving DecidableEq

/-- The values, and what code generation computes with those it knows. -/
class Values (V : Type) where
  /-- `==` -/
  equal : V → V → Bool
  /-- `===` -/
  exactEqual : V → V → Bool
  compare : OrderOp → V → V → Bool
  ofBool : Bool → V
  toBool : V → Option Bool
  /-- A decimal or `0f`: a register of this singleton type is not replaced by the value, which
  would lose the precision or the sign. -/
  keepsRegister : V → Bool

/-- The operations of `types` that code generation uses. -/
class TypeOps (T : Type) (V : outParam Type) where
  union : T → T → T
  intersect : T → T → T
  diff : T → T → T
  isEmpty : T → Bool
  singleton : V → T
  /-- `t:singleShape` -/
  singleShape : T → Option V
  BOOLEAN : T
  /-- `t:BOOLEAN` as the number it is -/
  booleanCode : V
  /-- `t:isSubtypeSimple(·, t:BOOLEAN)` -/
  isBoolean : T → Bool
  isAnydata : T → Bool
  comparable : T → T → Bool
  contains : T → V → Bool

export Values (equal exactEqual ofBool toBool keepsRegister)
export TypeOps (union intersect diff isEmpty singleton singleShape BOOLEAN isBoolean isAnydata
  comparable contains)

/-- `t:isSubtype` -/
def isSubtype {T V : Type} [TypeOps T V] (t1 t2 : T) : Bool := isEmpty (diff t1 t2)

/-- A type is the set of the values it contains. -/
class LawfulTypes (T : Type) {V : Type} [Values V] [TypeOps T V] : Prop where
  contains_union (t1 t2 : T) (v : V) : contains (union t1 t2) v = (contains t1 v || contains t2 v)
  contains_intersect (t1 t2 : T) (v : V) :
    contains (intersect t1 t2) v = (contains t1 v && contains t2 v)
  contains_diff (t1 t2 : T) (v : V) : contains (diff t1 t2) v = (contains t1 v && !contains t2 v)
  contains_of_isEmpty {t : T} (v : V) : isEmpty t = true → contains t v = false
  contains_singleton (v w : V) : contains (singleton v : T) w = equal w v
  equal_of_singleShape {t : T} {v w : V} : singleShape t = some v → contains t w = true →
    equal w v = true
  eq_of_singleShape {t : T} {v w : V} : singleShape t = some v → keepsRegister v = false →
    contains t w = true → w = v
  contains_boolean (b : Bool) : contains (BOOLEAN : T) (ofBool b) = true
  toBool_of_isBoolean {t : T} {v : V} : isBoolean t = true → contains t v = true →
    ∃ b, toBool v = some b

/-- `==` is an equivalence that the orders respect, and the booleans are values. -/
class LawfulValues (V : Type) [Values V] : Prop where
  equal_refl (v : V) : equal v v = true
  equal_congr {v v' w w' : V} : equal v v' = true → equal w w' = true → equal v w = equal v' w'
  compare_congr (op : OrderOp) {v v' w w' : V} : equal v v' = true → equal w w' = true →
    Values.compare op v w = Values.compare op v' w'
  toBool_ofBool (b : Bool) : toBool (ofBool b : V) = some b
  ofBool_of_toBool {v : V} {b : Bool} : toBool v = some b → ofBool b = v
  exactEqual_ofBool (b : Bool) : exactEqual (ofBool b : V) (ofBool b) = true
  toBool_of_equal {v w : V} {b : Bool} : equal v w = true → toBool w = some b → toBool v = some b

/-! ## Registers -/

variable {T V : Type}

/-- The kinds of declared registers. -/
inductive DeclRegisterKind where
  | param | var | final
deriving DecidableEq

/-- `bir:DeclRegister` -/
structure DeclRegister (T : Type) where
  kind : DeclRegisterKind
  number : Nat
  semType : T
deriving DecidableEq

/-- `bir:CapturableRegister`: a declared register, or one that stands for a register of an
enclosing function. -/
inductive CapturableRegister (T : Type) where
  | decl (reg : DeclRegister T)
  | captured (number : Nat) (semType : T) (captured : CapturableRegister T)
deriving DecidableEq

/-- `bir:NarrowRegister` -/
structure NarrowRegister (T : Type) where
  number : Nat
  semType : T
deriving DecidableEq

/-- `bir:Register` -/
inductive Register (T : Type) where
  | capturable (reg : CapturableRegister T)
  | narrow (reg : NarrowRegister T)
  | tmp (number : Nat) (semType : T)
  | assignTmp (number : Nat) (semType : T)
deriving DecidableEq

namespace CapturableRegister

def number : CapturableRegister T → Nat
  | .decl reg => reg.number
  | .captured number _ _ => number

def semType : CapturableRegister T → T
  | .decl reg => reg.semType
  | .captured _ semType _ => semType

end CapturableRegister

namespace Register

def number : Register T → Nat
  | .capturable reg => reg.number
  | .narrow reg => reg.number
  | .tmp number _ => number
  | .assignTmp number _ => number

def semType : Register T → T
  | .capturable reg => reg.semType
  | .narrow reg => reg.semType
  | .tmp _ semType => semType
  | .assignTmp _ semType => semType

end Register

/-! ## Bindings -/

/-- `DeclBinding`. What is not final is in a variable register: parameters are final, a `final`
variable has a final register, and the variable of a `foreach` is final in a variable register. -/
structure DeclBinding (T : Type) where
  name : String
  reg : DeclRegister T
  isFinal : Bool
  assignable : isFinal = false → reg.kind = .var
deriving DecidableEq

/-- `Binding` -/
inductive Binding (T : Type) where
  | decl (d : DeclBinding T)
  | narrow (name : String) (reg : NarrowRegister T) (unnarrowed : DeclBinding T)
  | assignment (name : String) (reg : CapturableRegister T) (unnarrowed : DeclBinding T)
      (invalidates : NarrowRegister T)
deriving DecidableEq

namespace Binding

def name : Binding T → String
  | .decl d => d.name
  | .narrow name _ _ => name
  | .assignment name _ _ _ => name

def reg : Binding T → Register T
  | .decl d => .capturable (.decl d.reg)
  | .narrow _ reg _ => .narrow reg
  | .assignment _ reg _ _ => .capturable reg

/-- `unnarrowBinding` -/
def unnarrow : Binding T → DeclBinding T
  | .decl d => d
  | .narrow _ _ unnarrowed => unnarrowed
  | .assignment _ _ unnarrowed _ => unnarrowed

/-- `OccurrenceBinding` -/
def isOccurrence : Binding T → Bool
  | .decl _ => false
  | _ => true

end Binding

/-- An entry of a chain: a binding, or the mark where a function begins. -/
inductive Head (T : Type) where
  | func
  | binding (b : Binding T)
deriving DecidableEq

/-- `BindingChain?` -/
abbrev BindingChain (T : Type) := List (Head T)

/-- `bindingsLookup`: the innermost binding of the name, and whether a function begins between it
and here. -/
def bindingsLookup (isClosure : Bool) (name : String) :
    BindingChain T → Bool → Option (Binding T × Bool)
  | [], _ => none
  | .func :: prev, inOuterFunction =>
    bindingsLookup isClosure name prev (inOuterFunction || isClosure)
  | .binding b :: prev, inOuterFunction =>
    if b.name = name then some (b, inOuterFunction)
    else bindingsLookup isClosure name prev inOuterFunction

/-- `narrow` -/
def narrow (bindings : BindingChain T) (binding : Binding T) (reg : NarrowRegister T) :
    BindingChain T :=
  .binding (.narrow binding.name reg binding.unnarrow) :: bindings

/-- `bindingsUpTo`: the bindings down to `bindingLimit`; the cast of the end of the chain fails
when the limit is not part of it. -/
def bindingsUpTo [DecidableEq T] (bindingLimit : BindingChain T) :
    BindingChain T → Option (List (Binding T))
  | [] => if [] = bindingLimit then some [] else none
  | .func :: prev =>
    if .func :: prev = bindingLimit then some [] else bindingsUpTo bindingLimit prev
  | .binding b :: prev =>
    if .binding b :: prev = bindingLimit then some []
    else (bindingsUpTo bindingLimit prev).map (b :: ·)

/-! ## Mergers -/

/-- `TypeMergerOrigin`: a branch into a merger, with the bindings it brings. -/
structure TypeMergerOrigin (T : Type) where
  label : Nat
  bindings : BindingChain T

/-- `TypeMerger`: a block and the branches into it, the last one first. -/
structure TypeMerger (T : Type) where
  origins : List (TypeMergerOrigin T)
  dest : Nat

/-- `CondExprEffect`: at least one of the two mergers is there. -/
inductive CondExprEffect (T : Type) where
  | only (side : Bool) (merger : TypeMerger T)
  | both (trueMerger falseMerger : TypeMerger T)

/-- `PrevTypeMergers`: one and only one of the two mergers is there. -/
structure PrevTypeMergers (T : Type) where
  side : Bool
  merger : TypeMerger T

/-- `prevs?.trueMerger` and `prevs?.falseMerger` -/
def prevMerger (prevs : Option (PrevTypeMergers T)) (side : Bool) : Option (TypeMerger T) :=
  prevs.bind fun p => if p.side = side then some p.merger else none

/-- `MergeOriginGroup`: the registers that an occurrence of one variable has at the origins. -/
structure MergeOriginGroup (T : Type) where
  unnarrowed : DeclBinding T
  union : T
  operands : List (Nat × Register T)

variable [TypeOps T V]

/-- Adds an occurrence at the origin `label` to its group, which is made when it is missing. -/
def addToGroup (label : Nat) (b : Binding T) :
    List (MergeOriginGroup T) → List (MergeOriginGroup T)
  | [] => [⟨b.unnarrow, b.reg.semType, [(label, b.reg)]⟩]
  | group :: groups =>
    if group.unnarrowed.reg.number = b.unnarrow.reg.number then
      { group with
        union := union group.union b.reg.semType
        operands := group.operands ++ [(label, b.reg)] } :: groups
    else group :: addToGroup label b groups

/-- The occurrences of one origin; of each variable only the innermost counts. -/
def groupOrigin (label : Nat) : List (Binding T) → List Nat → List (MergeOriginGroup T) →
    List (MergeOriginGroup T)
  | [], _, groups => groups
  | b :: bs, added, groups =>
    if b.isOccurrence ∧ b.unnarrow.reg.number ∉ added then
      groupOrigin label bs (b.unnarrow.reg.number :: added) (addToGroup label b groups)
    else groupOrigin label bs added groups

/-- `groupOriginsByUnnarrowed` -/
def groupOriginsByUnnarrowed [DecidableEq T] (bindingLimit : BindingChain T) :
    List (TypeMergerOrigin T) → List (MergeOriginGroup T) → Option (List (MergeOriginGroup T))
  | [], groups => some groups
  | origin :: origins, groups => do
    let bindings ← bindingsUpTo bindingLimit origin.bindings
    groupOriginsByUnnarrowed bindingLimit origins (groupOrigin origin.label bindings [] groups)

end Nballerina.CodeGen
