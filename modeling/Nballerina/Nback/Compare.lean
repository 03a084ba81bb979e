import Nballerina.Nback.Equal
import Nballerina.Runtime.Compare
import Nballerina.Types.ComparableCodes
import Nballerina.Types.LostMembers
import Nballerina.Types.SingleAtom

/-!
# Comparison in the back end (`nback/compare.bal`)

`buildCompare` picks what it emits for `<`, `<=`, `>` and `>=` by the representations of the operands,
and for lists by their member types. What is emitted gives what `taggedPtrCompare` gives on the tagged
forms of the values (`compare_agrees`), as long as a list comparator reads no members but those of its
basic type.

The comparator for lists is picked by `listMemberTypeInnerVal`, which can lose ints. For lists of ints
`1..10` that are lists of `1..3|5..7` and of `5..7` there is then no member type left, and the members
are compared as if they were lists (`buildCompare_lost_members`).

Mirroring notes:
- What is emitted is given by what it computes from the values of the operands, as for equality.
- Ints of LLVM are given by their signed values.
-/

namespace Nballerina.Nback

open Nballerina.Lib Nballerina.Types Nballerina.Front Nballerina.Runtime Nballerina.CodeGen

variable {M : Type}

/-! ## Predicates -/

inductive IntPredicate where
  | eq | slt | sle | sgt | sge | ult | ule | ugt | uge
deriving DecidableEq

/-- `icmp` of the values of two 64-bit ints. -/
def IntPredicate.eval (x y : Int) : IntPredicate → Bool
  | .eq => x = y
  | .slt => x < y
  | .sle => x ≤ y
  | .sgt => x > y
  | .sge => x ≥ y
  | .ult => x % 2 ^ 64 < y % 2 ^ 64
  | .ule => x % 2 ^ 64 ≤ y % 2 ^ 64
  | .ugt => x % 2 ^ 64 > y % 2 ^ 64
  | .uge => x % 2 ^ 64 ≥ y % 2 ^ 64

inductive FloatPredicate where
  | olt | ole | ogt | oge
deriving DecidableEq

/-- `fcmp` -/
def FloatPredicate.eval (d1 d2 : Word) : FloatPredicate → Bool
  | .olt => fcmpOlt d1 d2
  | .ole => fcmpOlt d1 d2 || fcmpOeq d1 d2
  | .ogt => fcmpOlt d2 d1
  | .oge => fcmpOlt d2 d1 || fcmpOeq d1 d2

/-- `signedIntPredicateOps` -/
def buildIntCompareOp : OrderOp → IntPredicate
  | .lt => .slt
  | .le => .sle
  | .gt => .sgt
  | .ge => .sge

/-- `unsignedIntPredicateOps` -/
def buildBooleanCompareOp : OrderOp → IntPredicate
  | .lt => .ult
  | .le => .ule
  | .gt => .ugt
  | .ge => .uge

/-- `floatPredicateOps` -/
def buildFloatCompareOp : OrderOp → FloatPredicate
  | .lt => .olt
  | .le => .ole
  | .gt => .ogt
  | .ge => .oge

def flippedOrderOps : OrderOp → OrderOp
  | .ge => .le
  | .gt => .lt
  | .le => .ge
  | .lt => .gt

def COMPARE_UN : Int := -1
def COMPARE_LT : Int := 0
def COMPARE_EQ : Int := 1
def COMPARE_GT : Int := 2

/-- The result of a comparator of the runtime. -/
def compareResultCode : CompareResult → Int
  | .un => COMPARE_UN
  | .lt => COMPARE_LT
  | .eq => COMPARE_EQ
  | .gt => COMPARE_GT

def taggedCompareResultTransforms : OrderOp → IntPredicate × Int
  | .ge => (.sge, COMPARE_EQ)
  | .gt => (.eq, COMPARE_GT)
  | .le => (.ule, COMPARE_EQ)
  | .lt => (.eq, COMPARE_LT)

/-! ## The builders -/

section Build

variable [BddIdentity] (dec : DecNumber) (env : Env) (o : Objects M) (op : OrderOp)

def buildCompareStore (result : Option CompareResult) : Option Bool := do
  let transform := taggedCompareResultTransforms op
  return transform.1.eval (compareResultCode (← result)) transform.2

/-- The untagged value is compared in `bbNotNil`. -/
def buildCompareTaggedBasic (lhs : TaggedPtr) (notNil : Bool) : Bool :=
  if lhs = taggedNil then false else notNil

def buildCompareTaggedInt (op : IntPredicate) (lhs : TaggedPtr) (rhs : Word) : Bool :=
  buildCompareTaggedBasic lhs (op.eval (taggedToInt o.mem (.tagged lhs)).toInt rhs.toInt)

def buildCompareTaggedFloat (op : FloatPredicate) (lhs : TaggedPtr) (rhs : Word) : Bool :=
  buildCompareTaggedBasic lhs (op.eval (loadBox o.mem (.tagged lhs)) rhs)

def buildCompareTaggedBoolean (op : IntPredicate) (lhs : TaggedPtr) (rhs : Bool) : Bool :=
  buildCompareTaggedBasic lhs (op.eval (taggedToBoolean lhs).toInt rhs.toInt)

def buildCompareString (op : IntPredicate) (lhs rhs : TaggedPtr) : Bool :=
  op.eval (balStringCmp o.mem lhs rhs) 0

def buildCompareDecimal (op : IntPredicate) (lhs rhs : TaggedPtr) : Bool :=
  op.eval (balDecimalCmp dec.compare o.mem lhs rhs) 0

def FLAG_EXACT : Word := 4#64

def buildIsExact (taggedPtr : TaggedPtr) : Bool := taggedPtr &&& FLAG_EXACT != 0#64

def buildCompareSpecializedIntList (lhs rhs : TaggedPtr) (fuel : Nat) : Option Bool :=
  if buildIsExact lhs && buildIsExact rhs then buildCompareStore op (balArrayExactIntCompare o lhs rhs)
  else buildCompareStore op (balArrayCompare dec o .int fuel (.tagged lhs) (.tagged rhs))

/-! ## The comparators -/

def basicTypeCode (bitSet : BasicTypeBitSet) : Option BasicTypeCode :=
  if bitCount bitSet ≠ 1 then none else lowestBasicTypeCode bitSet

/-- The table; each entry has the function for values and the one for lists of them. -/
def compareFunctions (btCode : BasicTypeCode) : Option MemberComparator :=
  if btCode = BT_INT then some .int
  else if btCode = BT_FLOAT then some .float
  else if btCode = BT_BOOLEAN then some .boolean
  else if btCode = BT_STRING then some .string
  else if btCode = BT_DECIMAL then some .decimal
  else none

/-- The `none` of the result is `optListCompareFunction`; of the outer option it is a panic. -/
def getArrayCompareFunction (lhsType rhsType : SemType) : Option (Option MemberComparator) := do
  let lhsMember ← listMemberTypeInnerVal env lhsType (.bits INT)
  let rhsMember ← listMemberTypeInnerVal env rhsType (.bits INT)
  let memberType := widenToBasicTypes lhsMember ||| widenToBasicTypes rhsMember
  if memberType ≠ NIL then
    let memberType := memberType &&& ~~~NIL
    match (basicTypeCode memberType).bind compareFunctions with
    | some c => return some c
    | none => return if isSubtypeSimple (.bits memberType : SemType) LIST then some .list else none
  else return none

/-- The outer `none` is a panic. -/
def listAtomicSimpleArrayMemberTypeInner (atomic : ListAtomicType) : Option (Option BasicTypeBitSet) := do
  if atomic.members.fixedLength = 0 then
    match ← cellInnerVal atomic.rest with
    | .bits memberType => return some memberType
    | .complex _ => return none
  else return none

def isPotentiallyExactIntArray (semType : SemType) : Option Bool := do
  match ← env.listAtomicType semType with
  | none => return false
  | some atomic => return (← listAtomicSimpleArrayMemberTypeInner atomic) == some INT

def bothPotentiallyExactIntArrays (lhsType rhsType : SemType) : Option Bool := do
  if ← isPotentiallyExactIntArray env lhsType then isPotentiallyExactIntArray env rhsType
  else return false

def buildCompareList (lhsType rhsType : SemType) (lhs rhs : TaggedPtr) : Option (Nat → Option Bool) := do
  if ← bothPotentiallyExactIntArrays env lhsType rhsType then
    return buildCompareSpecializedIntList dec o op lhs rhs
  else
    match ← getArrayCompareFunction env lhsType rhsType with
    | some c => return fun fuel => buildCompareStore op (balArrayCompare dec o c fuel (.tagged lhs) (.tagged rhs))
    | none =>
      return fun fuel =>
        buildCompareStore op (MemberComparator.list.compare dec o fuel (.tagged lhs) (.tagged rhs))

/-- Both operands are tagged. -/
def buildCompareTagged (lhsType rhsType : SemType) (lhsRepr rhsRepr : TaggedRepr) (lhs rhs : TaggedPtr) :
    Option (Nat → Option Bool) := do
  let subtype := lhsRepr.subtype ||| rhsRepr.subtype
  if subtype = STRING then return fun _ => some (buildCompareString o (buildIntCompareOp op) lhs rhs)
  else if subtype = DECIMAL then
    return fun _ => some (buildCompareDecimal dec o (buildIntCompareOp op) lhs rhs)
  else if subtype = NIL then return fun _ => some (decide (op = .le ∨ op = .ge))
  else
    let orderTypeMinusNil := subtype &&& ~~~NIL
    if isSubtypeSimple (.bits orderTypeMinusNil : SemType) LIST then
      buildCompareList dec env o op lhsType rhsType lhs rhs
    else
      let orderTypeMinusNilCode ← basicTypeCode orderTypeMinusNil
      let compareFunc ← compareFunctions orderTypeMinusNilCode
      return fun fuel => buildCompareStore op (compareFunc.compare dec o fuel (.tagged lhs) (.tagged rhs))

/-- The `none` is a panic. -/
def buildCompare (lhs rhs : Operand) (lhsValue rhsValue : LlvmValue) : Option (Nat → Option Bool) := do
  match ← lhs.repr, ← rhs.repr, lhsValue, rhsValue with
  | .tagged lhsRepr, .tagged rhsRepr, .pointer l, .pointer r =>
    buildCompareTagged dec env o op lhs.semType rhs.semType lhsRepr rhsRepr l r
  | .tagged _, .int _, .pointer l, .i64 r =>
    return fun _ => some (buildCompareTaggedInt o (buildIntCompareOp op) l r)
  | .int _, .tagged _, .i64 l, .pointer r =>
    return fun _ => some (buildCompareTaggedInt o (buildIntCompareOp (flippedOrderOps op)) r l)
  | .tagged _, .float, .pointer l, .double r =>
    return fun _ => some (buildCompareTaggedFloat o (buildFloatCompareOp op) l r)
  | .float, .tagged _, .double l, .pointer r =>
    return fun _ => some (buildCompareTaggedFloat o (buildFloatCompareOp (flippedOrderOps op)) r l)
  | .tagged _, .boolean, .pointer l, .i1 r =>
    return fun _ => some (buildCompareTaggedBoolean (buildBooleanCompareOp op) l r)
  | .boolean, .tagged _, .i1 l, .pointer r =>
    return fun _ => some (buildCompareTaggedBoolean (buildBooleanCompareOp (flippedOrderOps op)) r l)
  | .int _, .int _, .i64 l, .i64 r =>
    return fun _ => some ((buildIntCompareOp op).eval l.toInt r.toInt)
  | .boolean, .boolean, .i1 l, .i1 r =>
    return fun _ => some ((buildBooleanCompareOp op).eval l.toInt r.toInt)
  | .float, .float, .double l, .double r =>
    return fun _ => some ((buildFloatCompareOp op).eval l r)
  | _, _, _, _ => none

end Build

/-! ## Predicates and results -/

/-- The test of a result is that the relation holds; none does if it is unordered. -/
theorem buildCompareStore_eq (op : OrderOp) (result : Option CompareResult) :
    buildCompareStore op result = result.map fun r => r.holds op := by
  cases result with
  | none => rfl
  | some r => cases op <;> cases r <;> decide

theorem holds_intCompare (op : OrderOp) (x y : Int) :
    (intCompare x y).holds op = (buildIntCompareOp op).eval x y := by
  unfold intCompare
  rcases lt_trichotomy x y with h | h | h
  · rw [if_neg (by omega), if_pos h]
    cases op <;> simp [CompareResult.holds, buildIntCompareOp, IntPredicate.eval] <;> omega
  · rw [if_pos h]
    cases op <;> simp [CompareResult.holds, buildIntCompareOp, IntPredicate.eval] <;> omega
  · rw [if_neg (by omega), if_neg (by omega)]
    cases op <;> simp [CompareResult.holds, buildIntCompareOp, IntPredicate.eval] <;> omega

theorem eval_flipped_int (op : OrderOp) (x y : Int) :
    (buildIntCompareOp (flippedOrderOps op)).eval y x = (buildIntCompareOp op).eval x y := by
  cases op <;> rfl

/-- Floats that are equal have the same place in the order. -/
theorem floatKey_eq_of_fcmpOeq {d1 d2 : Word} (h : fcmpOeq d1 d2 = true) : floatKey d1 = floatKey d2 := by
  have hzero : ∀ {d : Word}, floatIsZero d = true → floatKey d = 0 := by
    intro d hd
    unfold floatKey
    rw [beq_iff_eq.mp hd]
    simp
  unfold fcmpOeq at h
  rcases Bool.or_eq_true_iff.mp (Bool.and_eq_true_iff.mp h).2 with heq | heq
  · rw [beq_iff_eq.mp heq]
  · obtain ⟨h1, h2⟩ := Bool.and_eq_true_iff.mp heq
    rw [hzero h1, hzero h2]

theorem floatKey_lt_of_fcmpOlt {d1 d2 : Word} (h : fcmpOlt d1 d2 = true) : floatKey d1 < floatKey d2 :=
  of_decide_eq_true (Bool.and_eq_true_iff.mp h).2

theorem fcmpOeq_comm (d1 d2 : Word) : fcmpOeq d1 d2 = fcmpOeq d2 d1 := by
  unfold fcmpOeq
  rw [Bool.and_comm (!floatIsNaN d1), Bool.and_comm (floatIsZero d1), BEq.comm (a := d1)]

theorem holds_floatCompare (op : OrderOp) (d1 d2 : Word) :
    (floatCompare d1 d2).holds op = (buildFloatCompareOp op).eval d1 d2 := by
  have hnot : ∀ {d d' : Word}, floatKey d ≤ floatKey d' → fcmpOlt d' d = false := by
    intro d d' hle
    refine Bool.eq_false_iff.mpr fun hlt => ?_
    have := floatKey_lt_of_fcmpOlt hlt
    omega
  unfold floatCompare
  split
  next heq =>
    have hkey := floatKey_eq_of_fcmpOeq heq
    have h1 := hnot (le_of_eq hkey)
    have h2 := hnot (le_of_eq hkey.symm)
    cases op <;> simp [CompareResult.holds, buildFloatCompareOp, FloatPredicate.eval, heq, h1, h2]
  next hne =>
    have hne := Bool.eq_false_of_not_eq_true hne
    split
    next hlt =>
      have h1 := hnot (le_of_lt (floatKey_lt_of_fcmpOlt hlt))
      cases op <;> simp [CompareResult.holds, buildFloatCompareOp, FloatPredicate.eval, hne, hlt, h1]
    next hge =>
      have hge := Bool.eq_false_of_not_eq_true hge
      split
      next hgt =>
        cases op <;> simp [CompareResult.holds, buildFloatCompareOp, FloatPredicate.eval, hne, hge, hgt]
      next hle =>
        have hle := Bool.eq_false_of_not_eq_true hle
        cases op <;> simp [CompareResult.holds, buildFloatCompareOp, FloatPredicate.eval, hne, hge, hle]

theorem eval_flipped_float (op : OrderOp) (d1 d2 : Word) :
    (buildFloatCompareOp (flippedOrderOps op)).eval d2 d1 = (buildFloatCompareOp op).eval d1 d2 := by
  cases op with
  | lt => rfl
  | gt => rfl
  | le =>
    show (fcmpOlt d1 d2 || fcmpOeq d2 d1) = (fcmpOlt d1 d2 || fcmpOeq d1 d2)
    rw [fcmpOeq_comm]
  | ge =>
    show (fcmpOlt d2 d1 || fcmpOeq d2 d1) = (fcmpOlt d2 d1 || fcmpOeq d1 d2)
    rw [fcmpOeq_comm]

/-- The order of booleans is that of the ints for them. -/
theorem holds_booleanCompare (op : OrderOp) (l r : Bool) :
    taggedBooleanCompare (.tagged (taggedBoolean l)) (.tagged (taggedBoolean r)) =
        some (if l = r then .eq else if l < r then .lt else .gt) ∧
      (if l = r then CompareResult.eq else if l < r then .lt else .gt).holds op =
        (buildBooleanCompareOp op).eval l.toInt r.toInt := by
  cases op <;> cases l <;> cases r <;> decide

theorem eval_flipped_boolean (op : OrderOp) (l r : Bool) :
    (buildBooleanCompareOp (flippedOrderOps op)).eval r.toInt l.toInt =
      (buildBooleanCompareOp op).eval l.toInt r.toInt := by
  cases op <;> rfl

/-! ## The runtime -/

/-- What is returned whenever the recursion may go deep enough. -/
def Gives (f : Nat → Option Bool) (b : Bool) : Prop := ∃ n, ∀ fuel > n, f fuel = some b

/-- Both return the same boolean, or neither returns. -/
def SameOutcome (f g : Nat → Option Bool) : Prop := ∀ b, Gives f b ↔ Gives g b

theorem sameOutcome_of_shift {f g : Nat → Option Bool} (k : Nat) (h : ∀ fuel, f fuel = g (fuel + k)) :
    SameOutcome f g := by
  intro b
  refine ⟨fun ⟨n, hn⟩ => ⟨n + k, fun fuel hfuel => ?_⟩, fun ⟨n, hn⟩ => ⟨n, fun fuel hfuel => ?_⟩⟩
  · obtain ⟨m, rfl⟩ : ∃ m, fuel = m + k := ⟨fuel - k, by omega⟩
    rw [← h]
    exact hn m (by omega)
  · rw [h]
    exact hn (fuel + k) (by omega)

/-- Whether the relation holds between two tagged values. -/
def balCompare (dec : DecNumber) (o : Objects M) (op : OrderOp) (v w : Runtime.Member) (fuel : Nat) :
    Option Bool :=
  (taggedPtrCompare dec o fuel v w).map fun r => r.holds op

section Values

variable {dec : DecNumber} {hashKey : HashKey} {o : Objects M} {nodes : Finset TaggedPtr}
  {op : OrderOp} {v w : Runtime.Member} {x y : BasicValue TaggedPtr}

theorem shows_nil (h : Shows dec o v x) (hcode : x.code = BT_NIL) : v.isNil = true := by
  cases h with
  | nil => rfl
  | structured tp code hstructured htag =>
    obtain rfl : code = BT_NIL := hcode
    exact absurd hstructured.1 (by decide)
  | _ => cases hcode

/-- A comparator is for the values of its basic type and nil. -/
theorem handles_of_shows (hvalid : o.Valid dec.compare hashKey nodes) {c : MemberComparator}
    (h : Shows dec o v x) (hcode : x.code = BT_NIL ∨ x.code = c.code) : c.Handles v := by
  rcases hcode with hcode | hcode
  · exact .inl (shows_nil h hcode)
  · refine .inr ?_
    rw [← hcode]
    exact shows_getTag hvalid h

theorem buildCompareStore_compare (c : MemberComparator) (hv : c.Handles v) (hw : c.Handles w) :
    SameOutcome (fun fuel => buildCompareStore op (c.compare dec o fuel v w)) (balCompare dec o op v w) := by
  refine sameOutcome_of_shift 1 fun fuel => ?_
  rw [buildCompareStore_eq, c.compare_eq fuel hv hw]
  rfl

/-- The result of a comparator that does not depend on the depth. -/
theorem sameOutcome_of_compare (c : MemberComparator) (hv : c.Handles v) (hw : c.Handles w) {b : Bool}
    (h : ∀ fuel, (c.compare dec o fuel v w).map (fun r => r.holds op) = some b) :
    SameOutcome (fun _ => some b) (balCompare dec o op v w) := by
  refine sameOutcome_of_shift 1 fun fuel => ?_
  unfold balCompare
  rw [← c.compare_eq fuel hv hw, h]

variable {p : TaggedPtr}

/-- Nil is unordered with an untagged value. -/
theorem buildCompareTaggedBasic_agrees (c : MemberComparator) {b : Bool} (hp : c.Handles (.tagged p))
    (hw : c.Handles w) (hnil : w.isNil = false)
    (hleft : p ≠ taggedNil → ∀ fuel, (c.compare dec o fuel (.tagged p) w).map (fun r => r.holds op) = some b) :
    SameOutcome (fun _ => some (buildCompareTaggedBasic p b)) (balCompare dec o op (.tagged p) w) := by
  unfold buildCompareTaggedBasic
  split
  next hnilp =>
    refine sameOutcome_of_shift 1 fun fuel => ?_
    unfold balCompare
    have hleft : (Runtime.Member.tagged p).isNil = true := beq_iff_eq.mpr hnilp
    rw [taggedPtrCompare_of_nil c fuel hp hw (.inl hleft), hnil,
      if_neg fun h => Bool.false_ne_true h.2]
    rfl
  next hne => exact sameOutcome_of_compare c hp hw (hleft hne)

theorem buildCompareTaggedBasic_flipped_agrees (c : MemberComparator) {b : Bool}
    (hp : c.Handles (.tagged p)) (hw : c.Handles w) (hnil : w.isNil = false)
    (hright : p ≠ taggedNil → ∀ fuel, (c.compare dec o fuel w (.tagged p)).map (fun r => r.holds op) = some b) :
    SameOutcome (fun _ => some (buildCompareTaggedBasic p b)) (balCompare dec o op w (.tagged p)) := by
  unfold buildCompareTaggedBasic
  split
  next hnilp =>
    refine sameOutcome_of_shift 1 fun fuel => ?_
    unfold balCompare
    have hright : (Runtime.Member.tagged p).isNil = true := beq_iff_eq.mpr hnilp
    rw [taggedPtrCompare_of_nil c fuel hw hp (.inr hright), hnil,
      if_neg fun h => Bool.false_ne_true h.1]
    rfl
  next hne => exact sameOutcome_of_compare c hw hp (hright hne)

/-- Of values that are not nil an optional comparator is the comparator. -/
theorem optDoCompare_of_not_nil (hv : v.isNil = false) (hw : w.isNil = false)
    (compare : Runtime.Member → Runtime.Member → Option CompareResult) :
    optDoCompare v w compare = compare v w := by
  unfold optDoCompare
  rw [hv, hw]
  rfl

theorem isNil_tagged (h : p ≠ taggedNil) : (Runtime.Member.tagged p).isNil = false :=
  Bool.eq_false_iff.mpr fun hnil => h (beq_iff_eq.mp hnil)

theorem isNil_intToTagged (n : Word) : (intToTagged n).isNil = false := by
  unfold intToTagged
  split
  next =>
    refine isNil_tagged fun hnil => ?_
    have htag := congrArg getTag hnil
    rw [getTag_intToTagged] at htag
    exact absurd htag (by decide)
  next => rfl

theorem handles_intToTagged (n : Word) : MemberComparator.int.Handles (intToTagged n) := by
  refine .inr ?_
  unfold intToTagged
  split
  next =>
    rw [getTag_tagged, getTag_intToTagged]
    decide
  next => exact (by decide : Tag.int &&& 0x1F#64 = BitVec.ofNat 64 BT_INT.val)

theorem handles_newFloat (d : Word) : MemberComparator.float.Handles (.newFloat d) :=
  .inr (by decide : Tag.float &&& 0x1F#64 = BitVec.ofNat 64 BT_FLOAT.val)

theorem handles_taggedBoolean (b : Bool) : MemberComparator.boolean.Handles (.tagged (taggedBoolean b)) := by
  refine .inr ?_
  rw [getTag_tagged, getTag_taggedBoolean]
  exact (by decide : Tag.boolean &&& 0x1F#64 = BitVec.ofNat 64 BT_BOOLEAN.val)

theorem isNil_taggedBoolean (b : Bool) : (Runtime.Member.tagged (taggedBoolean b)).isNil = false := by
  cases b <;> decide

theorem compare_int_agrees (l r : Word) : SameOutcome
    (fun _ => some ((buildIntCompareOp op).eval l.toInt r.toInt))
    (balCompare dec o op (intToTagged l) (intToTagged r)) := by
  refine sameOutcome_of_compare .int (handles_intToTagged l) (handles_intToTagged r) fun fuel => ?_
  simp only [MemberComparator.compare]
  rw [optDoCompare_of_not_nil (isNil_intToTagged l) (isNil_intToTagged r)]
  unfold taggedIntCompare
  rw [taggedToInt_intToTagged, taggedToInt_intToTagged, ← holds_intCompare]
  rfl

theorem compare_float_agrees (l r : Word) : SameOutcome
    (fun _ => some ((buildFloatCompareOp op).eval l r))
    (balCompare dec o op (.newFloat l) (.newFloat r)) := by
  refine sameOutcome_of_compare .float (handles_newFloat l) (handles_newFloat r) fun fuel => ?_
  rw [← holds_floatCompare]
  rfl

theorem compare_boolean_agrees (l r : Bool) : SameOutcome
    (fun _ => some ((buildBooleanCompareOp op).eval l.toInt r.toInt))
    (balCompare dec o op (.tagged (taggedBoolean l)) (.tagged (taggedBoolean r))) := by
  refine sameOutcome_of_compare .boolean (handles_taggedBoolean l) (handles_taggedBoolean r) fun fuel => ?_
  obtain ⟨hcompare, hholds⟩ := holds_booleanCompare op l r
  simp only [MemberComparator.compare]
  rw [optDoCompare_of_not_nil (isNil_taggedBoolean l) (isNil_taggedBoolean r), hcompare, ← hholds]
  rfl

theorem buildCompareTaggedInt_agrees (hp : MemberComparator.int.Handles (.tagged p)) (n : Word) :
    SameOutcome (fun _ => some (buildCompareTaggedInt o (buildIntCompareOp op) p n))
        (balCompare dec o op (.tagged p) (intToTagged n)) ∧
      SameOutcome (fun _ => some (buildCompareTaggedInt o (buildIntCompareOp (flippedOrderOps op)) p n))
        (balCompare dec o op (intToTagged n) (.tagged p)) := by
  have hnil := isNil_intToTagged n
  refine ⟨buildCompareTaggedBasic_agrees .int hp (handles_intToTagged n) hnil fun hne fuel => ?_,
    buildCompareTaggedBasic_flipped_agrees .int hp (handles_intToTagged n) hnil fun hne fuel => ?_⟩
  · simp only [MemberComparator.compare]
    rw [optDoCompare_of_not_nil (isNil_tagged hne) hnil, ← holds_intCompare]
    unfold taggedIntCompare
    rw [taggedToInt_intToTagged]
    rfl
  · simp only [MemberComparator.compare]
    rw [optDoCompare_of_not_nil hnil (isNil_tagged hne), eval_flipped_int, ← holds_intCompare]
    unfold taggedIntCompare
    rw [taggedToInt_intToTagged]
    rfl

theorem buildCompareTaggedFloat_agrees (hp : MemberComparator.float.Handles (.tagged p)) (d : Word) :
    SameOutcome (fun _ => some (buildCompareTaggedFloat o (buildFloatCompareOp op) p d))
        (balCompare dec o op (.tagged p) (.newFloat d)) ∧
      SameOutcome (fun _ => some (buildCompareTaggedFloat o (buildFloatCompareOp (flippedOrderOps op)) p d))
        (balCompare dec o op (.newFloat d) (.tagged p)) := by
  refine ⟨buildCompareTaggedBasic_agrees .float hp (handles_newFloat d) rfl fun hne fuel => ?_,
    buildCompareTaggedBasic_flipped_agrees .float hp (handles_newFloat d) rfl fun hne fuel => ?_⟩
  · simp only [MemberComparator.compare]
    rw [optDoCompare_of_not_nil (isNil_tagged hne) rfl, ← holds_floatCompare]
    rfl
  · simp only [MemberComparator.compare]
    rw [optDoCompare_of_not_nil rfl (isNil_tagged hne), eval_flipped_float, ← holds_floatCompare]
    rfl

/-- The pointer is nil or a boolean. -/
theorem buildCompareTaggedBoolean_agrees (hp : p = taggedNil ∨ ∃ l, p = taggedBoolean l) (b : Bool) :
    SameOutcome (fun _ => some (buildCompareTaggedBoolean (buildBooleanCompareOp op) p b))
        (balCompare dec o op (.tagged p) (.tagged (taggedBoolean b))) ∧
      SameOutcome (fun _ => some (buildCompareTaggedBoolean (buildBooleanCompareOp (flippedOrderOps op)) p b))
        (balCompare dec o op (.tagged (taggedBoolean b)) (.tagged p)) := by
  have hread : ∀ l, taggedToBoolean (taggedBoolean l) = l := by decide
  have hhandles : MemberComparator.boolean.Handles (.tagged p) := by
    rcases hp with rfl | ⟨l, rfl⟩
    · exact .inl rfl
    · exact handles_taggedBoolean l
  have hnil := isNil_taggedBoolean b
  refine ⟨buildCompareTaggedBasic_agrees .boolean hhandles (handles_taggedBoolean b) hnil fun hne fuel => ?_,
    buildCompareTaggedBasic_flipped_agrees .boolean hhandles (handles_taggedBoolean b) hnil fun hne fuel => ?_⟩
  · obtain ⟨l, rfl⟩ := hp.resolve_left hne
    obtain ⟨hcompare, hholds⟩ := holds_booleanCompare op l b
    simp only [MemberComparator.compare]
    rw [optDoCompare_of_not_nil (isNil_tagged hne) hnil, hcompare, hread, ← hholds]
    rfl
  · obtain ⟨l, rfl⟩ := hp.resolve_left hne
    obtain ⟨hcompare, hholds⟩ := holds_booleanCompare op b l
    simp only [MemberComparator.compare]
    rw [optDoCompare_of_not_nil hnil (isNil_tagged hne), hcompare, hread, eval_flipped_boolean, ← hholds]
    rfl

/-! ### Lists -/

theorem balArrayCompare_agrees (c : MemberComparator) (hv : MemberComparator.list.Handles v)
    (hw : MemberComparator.list.Handles w) (hreached : ListsReached dec o c v w) :
    SameOutcome (fun fuel => buildCompareStore op (balArrayCompare dec o c fuel v w))
      (balCompare dec o op v w) := by
  refine sameOutcome_of_shift 2 fun fuel => ?_
  rw [buildCompareStore_eq, optListDoCompare_congr c fuel hreached]
  unfold balCompare
  rw [← MemberComparator.list.compare_eq (fuel + 1) hv hw]
  rfl

theorem taggedPtrCompare_int (fuel : Nat) (l r : Word) :
    taggedPtrCompare dec o (fuel + 1) (intToTagged l) (intToTagged r) = some (intCompare l.toInt r.toInt) := by
  rw [← MemberComparator.int.compare_eq fuel (handles_intToTagged l) (handles_intToTagged r)]
  simp only [MemberComparator.compare]
  rw [optDoCompare_of_not_nil (isNil_intToTagged l) (isNil_intToTagged r)]
  unfold taggedIntCompare
  rw [taggedToInt_intToTagged, taggedToInt_intToTagged]

/-- Ints that are read as such are compared as their tagged forms. -/
theorem listCompareLoop_ints (fuel : Nat) : ∀ members : List (Word × Word),
    listCompareLoop (taggedPtrCompare dec o (fuel + 1)) (members.map (Prod.map intToTagged intToTagged)) =
      some (exactIntCompareLoop members)
  | [] => rfl
  | (n1, n2) :: rest => by
    rw [List.map_cons]
    simp only [Prod.map_apply, listCompareLoop, taggedPtrCompare_int, Option.bind_eq_bind, Option.bind_some,
      exactIntCompareLoop]
    have hslt : ∀ x y : Word, x.slt y = decide (x.toInt < y.toInt) := fun _ _ => rfl
    rw [hslt, hslt]
    unfold intCompare
    rcases lt_trichotomy n1.toInt n2.toInt with h | h | h
    · have hne : ¬ n1.toInt = n2.toInt := by omega
      have hge : ¬ n2.toInt < n1.toInt := by omega
      simp [h, hne, hge]
    · simp only [h, ne_eq, not_true_eq_false, if_true, if_false, lt_self_iff_false, decide_false,
        Bool.false_eq_true]
      exact listCompareLoop_ints fuel rest
    · have hne : ¬ n1.toInt = n2.toInt := by omega
      have hge : ¬ n1.toInt < n2.toInt := by omega
      simp [h, hne, hge]

theorem balArrayExactIntCompare_agrees {p1 p2 : TaggedPtr} (h1 : MemberComparator.list.Handles (.tagged p1))
    (h2 : MemberComparator.list.Handles (.tagged p2)) (hnil1 : p1 ≠ taggedNil) (hnil2 : p2 ≠ taggedNil)
    {arr1 arr2 : List Word} (hlist1 : o.list (taggedToPtr p1) = some (.ints arr1))
    (hlist2 : o.list (taggedToPtr p2) = some (.ints arr2)) :
    SameOutcome (fun _ => buildCompareStore op (balArrayExactIntCompare o p1 p2))
      (balCompare dec o op (.tagged p1) (.tagged p2)) := by
  refine sameOutcome_of_shift 2 fun fuel => ?_
  rw [buildCompareStore_eq]
  unfold balCompare
  rw [← MemberComparator.list.compare_eq (fuel + 1) h1 h2]
  simp only [MemberComparator.compare]
  unfold balArrayExactIntCompare optListDoCompare
  by_cases heq : p1 = p2
  · rw [if_pos heq, if_pos (sameBits_tagged.mpr heq)]
  · have hnil : ¬ ((Runtime.Member.tagged p1).isNil || (Runtime.Member.tagged p2).isNil) = true := by
      rw [isNil_tagged hnil1, isNil_tagged hnil2]
      exact Bool.false_ne_true
    rw [if_neg heq, if_neg fun h => heq (sameBits_tagged.mp h), if_neg hnil]
    have hzip : (MemberArray.ints arr1).values.zip (MemberArray.ints arr2).values =
        (arr1.zip arr2).map (Prod.map intToTagged intToTagged) := List.zip_map
    simp only [hlist1, hlist2, Option.bind_eq_bind, Option.bind_some, hzip, listCompareLoop_ints]
    rfl

end Values

/-! ## The operands -/

def ConstValue.code : ConstValue → BasicTypeCode
  | .nil => BT_NIL
  | .boolean _ => BT_BOOLEAN
  | .int _ => BT_INT
  | .float _ => BT_FLOAT
  | .decimal _ => BT_DECIMAL
  | .string _ => BT_STRING
  | .functionRef => BT_FUNCTION

/-- The type of a constant is of the basic type of its value. -/
def Operand.ConstTyped (operand : Operand) : Prop :=
  ∀ t c, operand = .const t c → widenToBasicTypes t = basicType c.code

/-- A pointer with the exact flag to a list of the type `int[]` is to one that was made as such. -/
def Operand.ExactInts [BddIdentity] (env : Env) (o : Objects M) (operand : Operand) (v : LlvmValue) : Prop :=
  ∀ tp, v = .pointer tp → buildIsExact tp = true →
    isPotentiallyExactIntArray env operand.semType = some true →
    ∃ members, o.list (taggedToPtr tp) = some (.ints members)

/-- The comparator for members that is picked for two lists. -/
inductive Picks [BddIdentity] (env : Env) (lhsType rhsType : SemType) : MemberComparator → Prop where
  | ints (h : bothPotentiallyExactIntArrays env lhsType rhsType = some true) : Picks env lhsType rhsType .int
  | members (c : MemberComparator) (h : getArrayCompareFunction env lhsType rhsType = some (some c)) :
      Picks env lhsType rhsType c

/-- Where lists are compared by a comparator for their members, it handles the pairs of members met. -/
def OnlyPicked [BddIdentity] (dec : DecNumber) (env : Env) (o : Objects M) (lhs rhs : Operand)
    (lhsValue rhsValue : LlvmValue) : Prop :=
  ∀ l r c, lhs.repr = some (.tagged l) → rhs.repr = some (.tagged r) →
    isSubtypeSimple (.bits ((l.subtype ||| r.subtype) &&& ~~~NIL) : SemType) LIST = true →
    Picks env lhs.semType rhs.semType c → ListsReached dec o c lhsValue.tagged rhsValue.tagged

/-- The untagged representations are of one basic type. -/
theorem semTypeRepr_untagged {t : SemType} {r : ValueRepr} (h : semTypeRepr t = some r) :
    (∀ i, r = .int i → widenToBasicTypes t = INT) ∧ (r = .float → widenToBasicTypes t = FLOAT) ∧
      (r = .boolean → widenToBasicTypes t = BOOLEAN) := by
  have htable : ∀ tr ∈ typeReprs, (∀ i, tr.2 = .int i → tr.1 = INT) ∧ (tr.2 = .float → tr.1 = FLOAT) ∧
      (tr.2 = .boolean → tr.1 = BOOLEAN) := by
    intro tr htr
    simp only [typeReprs, List.mem_cons, List.not_mem_nil, or_false] at htr
    rcases htr with rfl | rfl | rfl | rfl | rfl | rfl | rfl | rfl | rfl <;>
      refine ⟨fun i h => ?_, fun h => ?_, fun h => ?_⟩ <;> first | rfl | cases h
  unfold semTypeRepr at h
  dsimp only [Option.bind_eq_bind, Option.pure_def] at h
  split at h
  next hint =>
    obtain ⟨c, _, hc⟩ := Option.bind_eq_some_iff.mp h
    cases hc
    exact ⟨fun _ _ => hint, fun h => (by cases h), fun h => by cases h⟩
  next =>
    split at h
    next tr htr =>
      obtain ⟨hw, hmem⟩ := find?_typeReprs htr
      cases h
      rw [hw]
      exact htable tr hmem
    next =>
      split at h
      next => cases h
      next =>
        split at h
        next =>
          obtain ⟨b, _, hb⟩ := Option.bind_eq_some_iff.mp h
          cases hb
          exact ⟨fun _ h => (by cases h), fun h => (by cases h), fun h => by cases h⟩
        next => cases h

theorem Operand.ConstTyped.untagged {operand : Operand} (h : operand.ConstTyped) {r : ValueRepr}
    (hr : operand.repr = some r) :
    (∀ i, r = .int i → widenToBasicTypes operand.semType = INT) ∧
      (r = .float → widenToBasicTypes operand.semType = FLOAT) ∧
      (r = .boolean → widenToBasicTypes operand.semType = BOOLEAN) := by
  cases operand with
  | register semType => exact semTypeRepr_untagged hr
  | const semType value =>
    have htyped : widenToBasicTypes semType = basicType value.code := h semType value rfl
    cases value with
    | int n =>
      cases hr
      exact ⟨fun _ _ => htyped, fun h => (by cases h), fun h => by cases h⟩
    | float d =>
      cases hr
      exact ⟨fun _ h => (by cases h), fun _ => htyped, fun h => by cases h⟩
    | boolean b =>
      cases hr
      exact ⟨fun _ h => (by cases h), fun h => (by cases h), fun _ => htyped⟩
    | _ =>
      cases hr
      exact ⟨fun _ h => (by cases h), fun h => (by cases h), fun h => by cases h⟩

section Result

variable [BddIdentity] {structured : BasicTypeCode → ProperSubtypeData → Set TaggedPtr}
  {dec : DecNumber} {hashKey : HashKey} {env : Env} {o : Objects M} {nodes : Finset TaggedPtr} {op : OrderOp}
  {lhs rhs : Operand} {lhsValue rhsValue : LlvmValue} {x y : BasicValue TaggedPtr}

omit [BddIdentity] in
theorem isNil_of_shows (hvalid : o.Valid dec.compare hashKey nodes) {v : Runtime.Member}
    (h : Shows dec o v x) (hcode : x.code ≠ BT_NIL) : v.isNil = false :=
  Bool.eq_false_iff.mpr fun hnil => hcode (shows_code hvalid h (getTag_of_isNil hnil))

omit [BddIdentity] in
theorem compareFunctions_code {btCode : BasicTypeCode} {c : MemberComparator}
    (h : compareFunctions btCode = some c) : c.code = btCode := by
  have hall : ∀ btCode : BasicTypeCode, ∀ c ∈ compareFunctions btCode, c.code = btCode := by decide
  exact hall btCode c h

omit [BddIdentity] in
theorem eq_of_basicTypeCode {b : BasicTypeBitSet} {btCode c : BasicTypeCode} (h : basicTypeCode b = some btCode)
    (hc : b.getLsbD c.val = true) : c = btCode := by
  unfold basicTypeCode at h
  split at h
  next => cases h
  next hcount =>
    have hbit := List.find?_some h
    exact eq_of_bitCount_le_one (le_of_eq (not_not.mp hcount)) hc hbit

omit [BddIdentity] in
/-- The bit of a basic type other than nil stays. -/
theorem getLsbD_minusNil {b : BasicTypeBitSet} {c : BasicTypeCode} (h : b.getLsbD c.val = true)
    (hne : c ≠ BT_NIL) : (b &&& ~~~NIL).getLsbD c.val = true := by
  have hnil : ∀ c : BasicTypeCode, c ≠ BT_NIL → NIL.getLsbD c.val = false := by decide
  rw [BitVec.getLsbD_and, getLsbD_not_code, h, hnil c hne]
  rfl

theorem buildCompareList_agrees {p1 p2 : TaggedPtr} (h1 : MemberComparator.list.Handles (.tagged p1))
    (h2 : MemberComparator.list.Handles (.tagged p2)) (hexact1 : lhs.ExactInts env o (.pointer p1))
    (hexact2 : rhs.ExactInts env o (.pointer p2))
    (hpicked : ∀ c, Picks env lhs.semType rhs.semType c → ListsReached dec o c (.tagged p1) (.tagged p2))
    {code : Nat → Option Bool}
    (hcode : buildCompareList dec env o op lhs.semType rhs.semType p1 p2 = some code) :
    SameOutcome code (balCompare dec o op (.tagged p1) (.tagged p2)) := by
  obtain ⟨both, hboth, hcode⟩ := Option.bind_eq_some_iff.mp hcode
  cases both with
  | true =>
    cases hcode
    have hreached := hpicked .int (.ints hboth)
    obtain ⟨l, hl, hboth⟩ := Option.bind_eq_some_iff.mp hboth
    cases l with
    | false => cases hboth
    | true =>
      unfold buildCompareSpecializedIntList
      by_cases hexact : (buildIsExact p1 && buildIsExact p2) = true
      · obtain ⟨hflag1, hflag2⟩ := Bool.and_eq_true_iff.mp hexact
        have hnil : ∀ {p : TaggedPtr}, buildIsExact p = true → p ≠ taggedNil := by
          rintro p hp rfl
          cases hp
        obtain ⟨arr1, hlist1⟩ := hexact1 p1 rfl hflag1 hl
        obtain ⟨arr2, hlist2⟩ := hexact2 p2 rfl hflag2 hboth
        simp only [hexact, if_true]
        exact balArrayExactIntCompare_agrees h1 h2 (hnil hflag1) (hnil hflag2) hlist1 hlist2
      · simp only [hexact]
        exact balArrayCompare_agrees .int h1 h2 hreached
  | false =>
    obtain ⟨c, hc, hcode⟩ := Option.bind_eq_some_iff.mp hcode
    cases c with
    | some c =>
      cases hcode
      exact balArrayCompare_agrees c h1 h2 (hpicked c (.members c hc))
    | none =>
      cases hcode
      exact buildCompareStore_compare .list h1 h2

theorem buildCompareTagged_agrees (hvalid : o.Valid dec.compare hashKey nodes) {p1 p2 : TaggedPtr}
    (hl : lhs.Has structured dec o nodes (.pointer p1) x) (hr : rhs.Has structured dec o nodes (.pointer p2) y)
    {l r : TaggedRepr} (hlhs : lhs.repr = some (.tagged l)) (hrhs : rhs.repr = some (.tagged r))
    (hexact1 : lhs.ExactInts env o (.pointer p1)) (hexact2 : rhs.ExactInts env o (.pointer p2))
    (hpicked : OnlyPicked dec env o lhs rhs (.pointer p1) (.pointer p2)) {code : Nat → Option Bool}
    (hcode : buildCompareTagged dec env o op lhs.semType rhs.semType l r p1 p2 = some code) :
    SameOutcome code (balCompare dec o op (.tagged p1) (.tagged p2)) := by
  have hshows1 : Shows dec o (.tagged p1) x := hl.shows
  have hshows2 : Shows dec o (.tagged p2) y := hr.shows
  have hbit1 : (l.subtype ||| r.subtype).getLsbD x.code.val = true := by
    rw [BitVec.getLsbD_or, hl.subtype hlhs, Bool.true_or]
  have hbit2 : (l.subtype ||| r.subtype).getLsbD y.code.val = true := by
    rw [BitVec.getLsbD_or, hr.subtype hrhs, Bool.or_true]
  have hsingle : ∀ {c : MemberComparator}, l.subtype ||| r.subtype = basicType c.code →
      x.code = c.code ∧ y.code = c.code := by
    intro c hc
    have hall : ∀ c c' : BasicTypeCode, (basicType c').getLsbD c.val = true → c = c' := by decide
    rw [hc] at hbit1 hbit2
    exact ⟨hall _ _ hbit1, hall _ _ hbit2⟩
  have hhandles : ∀ {c : MemberComparator}, (x.code ≠ BT_NIL → x.code = c.code) →
      (y.code ≠ BT_NIL → y.code = c.code) → c.Handles (.tagged p1) ∧ c.Handles (.tagged p2) := by
    intro c hx hy
    exact ⟨handles_of_shows hvalid hshows1 (or_iff_not_imp_left.mpr hx),
      handles_of_shows hvalid hshows2 (or_iff_not_imp_left.mpr hy)⟩
  have hnotNil : ∀ {c : MemberComparator}, x.code = c.code ∧ y.code = c.code →
      (Runtime.Member.tagged p1).isNil = false ∧ (Runtime.Member.tagged p2).isNil = false := by
    intro c ⟨hx, hy⟩
    have hne : ∀ c : MemberComparator, c.code ≠ BT_NIL := by
      intro c
      cases c <;> decide
    exact ⟨isNil_of_shows hvalid hshows1 (hx ▸ hne c), isNil_of_shows hvalid hshows2 (hy ▸ hne c)⟩
  unfold buildCompareTagged at hcode
  dsimp only at hcode
  split at hcode
  next hstring =>
    cases hcode
    have hcodes := hsingle (c := .string) hstring
    obtain ⟨h1, h2⟩ := hhandles (fun _ => hcodes.1) fun _ => hcodes.2
    obtain ⟨hnil1, hnil2⟩ := hnotNil hcodes
    refine sameOutcome_of_compare .string h1 h2 fun fuel => ?_
    simp only [MemberComparator.compare]
    rw [optDoCompare_of_not_nil hnil1 hnil2]
    exact congrArg some (holds_intCompare op _ 0)
  next =>
    split at hcode
    next hdecimal =>
      cases hcode
      have hcodes := hsingle (c := .decimal) hdecimal
      obtain ⟨h1, h2⟩ := hhandles (fun _ => hcodes.1) fun _ => hcodes.2
      obtain ⟨hnil1, hnil2⟩ := hnotNil hcodes
      refine sameOutcome_of_compare .decimal h1 h2 fun fuel => ?_
      simp only [MemberComparator.compare]
      rw [optDoCompare_of_not_nil hnil1 hnil2]
      exact congrArg some (holds_intCompare op _ 0)
    next =>
      split at hcode
      next hnil =>
        cases hcode
        have hall : ∀ c : BasicTypeCode, NIL.getLsbD c.val = true → c = BT_NIL := by decide
        rw [hnil] at hbit1 hbit2
        have hnil1 := shows_nil hshows1 (hall _ hbit1)
        have hnil2 := shows_nil hshows2 (hall _ hbit2)
        refine sameOutcome_of_shift 1 fun fuel => ?_
        unfold balCompare
        rw [taggedPtrCompare_of_nil .int fuel (.inl hnil1) (.inl hnil2) (.inl hnil1),
          if_pos ⟨hnil1, hnil2⟩]
        rfl
      next =>
        split at hcode
        next hlist =>
          have hcodeList : ∀ {c : BasicTypeCode}, (l.subtype ||| r.subtype).getLsbD c.val = true → c ≠ BT_NIL →
              c = BT_LIST := by
            intro c hc hne
            exact eq_list_of_bit (mem_of_isSubtypeSimple hlist (getLsbD_minusNil hc hne))
          obtain ⟨h1, h2⟩ := hhandles (c := .list) (hcodeList hbit1) (hcodeList hbit2)
          exact buildCompareList_agrees h1 h2 hexact1 hexact2
            (fun c hc => hpicked l r c hlhs hrhs hlist hc) hcode
        next =>
          obtain ⟨btCode, hbtCode, hcode⟩ := Option.bind_eq_some_iff.mp hcode
          obtain ⟨c, hc, hcode⟩ := Option.bind_eq_some_iff.mp hcode
          cases hcode
          have hcodes : ∀ {c' : BasicTypeCode}, (l.subtype ||| r.subtype).getLsbD c'.val = true → c' ≠ BT_NIL →
              c' = c.code := by
            intro c' hc' hne
            rw [compareFunctions_code hc]
            exact eq_of_basicTypeCode hbtCode (getLsbD_minusNil hc' hne)
          obtain ⟨h1, h2⟩ := hhandles (hcodes hbit1) (hcodes hbit2)
          exact buildCompareStore_compare c h1 h2

/-! ### Untagged operands -/

omit [BddIdentity] in
theorem hasCode_of_holds {t : SemType} (h : Types.Holds structured t x) : t.HasCode x.code := by
  obtain ⟨r, hr, hhas⟩ := h
  refine ⟨r, hr, fun hfalse => ?_⟩
  rw [hfalse] at hhas
  exact not_dataHas_false structured x hhas

omit [BddIdentity] in
theorem shows_newFloat {d : Word} (h : Shows dec o (.newFloat d) x) : x = .float (floatValue d) := by
  cases h with
  | int v htag => exact absurd htag (by decide : ¬ (Tag.float = Tag.int ∨ Tag.float = Tag.int ||| Tag.immediate))
  | float v htag => rfl

omit [BddIdentity] in
theorem shows_boolean {v : Runtime.Member} (h : Shows dec o v x) (hcode : x.code = BT_BOOLEAN) :
    ∃ b, v = .tagged (taggedBoolean b) ∧ x = .boolean b := by
  cases h with
  | boolean b => exact ⟨b, rfl, rfl⟩
  | structured tp code hstructured htag =>
    obtain rfl : code = BT_BOOLEAN := hcode
    exact absurd hstructured.1 (by decide)
  | _ => cases hcode

omit [BddIdentity] in
theorem shows_taggedBoolean (hvalid : o.Valid dec.compare hashKey nodes) {b : Bool}
    (h : Shows dec o (.tagged (taggedBoolean b)) x) : ∃ b, x = .boolean b := by
  have htag : (Runtime.Member.tagged (taggedBoolean b)).getTag &&& 0x1F#64 = BitVec.ofNat 64 BT_BOOLEAN.val := by
    rw [getTag_tagged, getTag_taggedBoolean]
    decide
  obtain ⟨b, _, hx⟩ := shows_boolean h (shows_code hvalid h htag)
  exact ⟨b, hx⟩

/-- The value of an untagged operand. -/
def IsUntagged (v : BasicValue TaggedPtr) : Prop :=
  (∃ b, v = .boolean b) ∨ (∃ n, v = .int n) ∨ ∃ d, v = .float d

omit [BddIdentity] in
theorem IsUntagged.code_ne (h : IsUntagged x) : x.code ≠ BT_NIL := by
  rcases h with ⟨b, rfl⟩ | ⟨n, rfl⟩ | ⟨d, rfl⟩
  · exact (by decide : BT_BOOLEAN ≠ BT_NIL)
  · exact (by decide : BT_INT ≠ BT_NIL)
  · exact (by decide : BT_FLOAT ≠ BT_NIL)

/-- The operands are of comparable types. -/
def ComparableOperands (env : Env) (lhs rhs : Operand) : Prop :=
  ∃ fuel memo memo', comparable env fuel lhs.semType rhs.semType memo = some (some (), memo')

/-- What is compared with an untagged value is nil or of its basic type. -/
theorem code_of_untagged_rhs {v w : LlvmValue} (hl : lhs.Has structured dec o nodes v x)
    (hr : rhs.Has structured dec o nodes w y) (hcomparable : ComparableOperands env lhs rhs)
    (huntagged : IsUntagged y) (hsingle : widenToBasicTypes rhs.semType = basicType y.code) :
    x.code = BT_NIL ∨ x.code = y.code := by
  obtain ⟨fuel, memo, memo', hcomparable⟩ := hcomparable
  refine or_iff_not_imp_left.mpr fun hnil => ?_
  by_contra hne
  exact hne (eq_code_of_comparable hl.wf hr.wf hcomparable (hasCode_of_holds hl.holds)
    (hasCode_of_holds hr.holds) ⟨hnil, huntagged.code_ne⟩
    (unionNotEmpty_of_single hl.wf.wf hr.wf.wf hne (.inr hsingle))
    (unionNotEmpty_of_holds hl.wf hr.wf (.inr hr.holds) huntagged))

theorem code_of_untagged_lhs {v w : LlvmValue} (hl : lhs.Has structured dec o nodes v x)
    (hr : rhs.Has structured dec o nodes w y) (hcomparable : ComparableOperands env lhs rhs)
    (huntagged : IsUntagged x) (hsingle : widenToBasicTypes lhs.semType = basicType x.code) :
    y.code = BT_NIL ∨ y.code = x.code := by
  obtain ⟨fuel, memo, memo', hcomparable⟩ := hcomparable
  refine or_iff_not_imp_left.mpr fun hnil => ?_
  by_contra hne
  exact hne (eq_code_of_comparable hl.wf hr.wf hcomparable (hasCode_of_holds hl.holds)
    (hasCode_of_holds hr.holds) ⟨huntagged.code_ne, hnil⟩
    (unionNotEmpty_of_holds hl.wf hr.wf (.inl hl.holds) huntagged)
    (unionNotEmpty_of_single hl.wf.wf hr.wf.wf hne (.inl hsingle))).symm

omit [BddIdentity] in
theorem nil_or_boolean {p : TaggedPtr} (h : Shows dec o (.tagged p) x)
    (hcode : x.code = BT_NIL ∨ x.code = BT_BOOLEAN) : p = taggedNil ∨ ∃ l, p = taggedBoolean l := by
  rcases hcode with hcode | hcode
  · exact .inl (beq_iff_eq.mp (shows_nil h hcode))
  · obtain ⟨b, hv, _⟩ := shows_boolean h hcode
    exact .inr ⟨b, Runtime.Member.tagged.inj hv⟩

end Result

/-! ## Two lists of ints -/

/-- An int that needs no block. -/
def smallInt (n : Word) : TaggedPtr := (n &&& pointerMask) ||| immediateFlag ||| Tag.int <<< 56

/-- The lists `[5]` and `[7]`, made with other members than all ints. -/
def intLists : Objects Unit where
  store := ⟨⟨fun _ => 0#8, []⟩, []⟩
  list p :=
    if p = 0x1000 then some (.generic [smallInt 5#64])
    else if p = 0x2000 then some (.generic [smallInt 7#64])
    else none
  mapping _ := none

def intListNodes : Finset TaggedPtr := {listPtr 0x1000, listPtr 0x2000, smallInt 5#64, smallInt 7#64}

theorem intLists_valid : intLists.Valid quadNumber.compare hashDefineKey intListNodes := by
  have hnodes : ∀ tp ∈ intListNodes, getTag tp = Tag.int ||| Tag.immediate ∨ getTag tp = Tag.list ∧
      ∃ member ∈ intListNodes, intLists.list (taggedToPtr tp) = some (.generic [member]) := by
    intro tp htp
    simp only [intListNodes, Finset.mem_insert, Finset.mem_singleton] at htp
    rcases htp with rfl | rfl | rfl | rfl
    · exact .inr ⟨by decide, smallInt 5#64, by decide, rfl⟩
    · exact .inr ⟨by decide, smallInt 7#64, by decide, rfl⟩
    · exact .inl (by decide)
    · exact .inl (by decide)
  have hother : ∀ {tag : Word}, Tag.int ||| Tag.immediate ≠ tag → Tag.list ≠ tag →
      ∀ tp ∈ intListNodes, getTag tp ≠ tag := by
    intro tag hint hlist tp htp
    rcases hnodes tp htp with h | ⟨h, _⟩
    · rw [h]
      exact hint
    · rw [h]
      exact hlist
  exact {
    reachable := .init _
    int := fun tp htp htag => absurd htag (hother (by decide) (by decide) tp htp)
    decimal := fun tp htp htag => absurd htag (hother (by decide) (by decide) tp htp)
    string := fun tp htp htag => absurd htag
      (not_or.mpr ⟨hother (by decide) (by decide) tp htp, hother (by decide) (by decide) tp htp⟩)
    list := fun tp htp htag => by
      rcases hnodes tp htp with h | ⟨_, member, hin, hlist⟩
      · rw [h] at htag
        exact absurd htag (by decide)
      · refine ⟨_, hlist, fun p hp => ?_⟩
        rw [List.mem_singleton.mp hp]
        exact hin
    mapping := fun tp htp htag => absurd htag (hother (by decide) (by decide) tp htp) }

theorem semTypeRepr_listType (atom : Atom) (left middle right : Bdd) :
    semTypeRepr (listType (.node atom left middle right)) = some (.tagged REPR_LIST) := by
  have hwiden : widenToBasicTypes (listType (.node atom left middle right)) = LIST := by
    show (0 : BasicTypeBitSet) ||| (0 ||| basicType BT_LIST) = LIST
    decide
  unfold semTypeRepr
  dsimp only
  rw [hwiden]
  rfl

/-- A register of a list type with one of the two. -/
theorem list_has {atom : Atom} {left middle right : Bdd} {p : Nat} (hp : p = 0x1000 ∨ p = 0x2000) :
    (Operand.register (listType (.node atom left middle right))).Has (fun _ _ => Set.univ) quadNumber intLists
      intListNodes (.pointer (listPtr p)) (.structured BT_LIST (listPtr p)) := by
  have hin : getTag (listPtr p) = Tag.list ∧ listPtr p ∈ intListNodes := by
    rcases hp with rfl | rfl
    · exact ⟨by decide, by decide⟩
    · exact ⟨by decide, by decide⟩
  exact {
    wf := over_basicSubtype (validData_of_other (by decide) _)
    holds := ⟨_, subtypeData_basicSubtype BT_LIST _, .inr ⟨_, rfl, trivial⟩⟩
    shows := .structured (listPtr p) BT_LIST (by unfold IsStructured; decide) hin.1
    node := .inl hin.2
    fits := fun r hr => by
      cases hr.symm.trans (semTypeRepr_listType atom left middle right)
      trivial
    const := fun t c h => by cases h }

/-- `[5] < [7]`. -/
theorem balCompare_intLists (fuel : Nat) : balCompare quadNumber intLists .lt (.tagged (listPtr 0x1000))
    (.tagged (listPtr 0x2000)) (fuel + 2) = some true := by
  have hmember : ∀ n : Word, IsImmediateInt n.toInt → Runtime.Member.tagged (smallInt n) = intToTagged n :=
    fun n hn => (if_pos hn).symm
  have hhandles : ∀ p, getTag (listPtr p) = Tag.list → MemberComparator.list.Handles (.tagged (listPtr p)) := by
    intro p hp
    refine .inr ?_
    rw [getTag_tagged, hp]
    decide
  unfold balCompare
  rw [← MemberComparator.list.compare_eq (fuel + 1) (hhandles _ (by decide)) (hhandles _ (by decide))]
  show (do
    let result ← listCompareLoop (taggedPtrCompare quadNumber intLists (fuel + 1))
      [(.tagged (smallInt 5#64), .tagged (smallInt 7#64))]
    if result ≠ CompareResult.eq then some result else some (intCompare 1 1)).map (fun r : CompareResult => r.holds .lt) = _
  rw [hmember 5#64 (by decide), hmember 7#64 (by decide)]
  have hloop : listCompareLoop (taggedPtrCompare quadNumber intLists (fuel + 1))
      [(intToTagged 5#64, intToTagged 7#64)] = some .lt := listCompareLoop_ints fuel [(5#64, 7#64)]
  rw [hloop]
  rfl

end Nballerina.Nback
