import Nballerina.Nback.Repr

/-!
# Equality in the back end (`nback/equal.bal`)

`buildEquality` picks what it emits for `==`, `!=`, `===` and `!==` by the representations of the
operands. What is emitted gives the boolean that the equality of the runtime gives on the tagged forms
of the two values (`equality_agrees_iff`), but for one path: if neither operand is always immediate, the
words of the pointers are compared where the intersection of the types is. That of `int?` and
`int|string` is `int`, the representation of which is not tagged and so said to be immediate, although
the ints outside the immediate range have a block each.

Mirroring notes:
- What is emitted is given by what it computes from the values of the operands; the result is stored in
  a register of type `boolean`.
- The recursion of `_bal_eq` is bounded by `fuel`.
-/

namespace Nballerina.Nback

open Nballerina.Lib Nballerina.Types Nballerina.Front Nballerina.Runtime

variable {M : Type}

/-! ## The builders -/

def buildHasTag (tagged : TaggedPtr) (tag : Word) : Bool :=
  tagged &&& (0x1F#64 <<< 56) == tag <<< 56

def buildImmediateTaggedInt (value : Word) : TaggedPtr :=
  (immediateFlag ||| Tag.int <<< 56) ||| (((1#64 <<< 56) - 1#64) &&& value)

def buildEqualFloat (op : EqualityOp) (lhsValue rhsValue : Word) : Bool :=
  op.result (floatsEqual op.isExact lhsValue rhsValue)

def buildEqualTaggedFloat (o : Objects M) (op : EqualityOp) (tagged : TaggedPtr) (untagged : Word) :
    Bool :=
  if buildHasTag tagged Tag.float then buildEqualFloat op (loadBox o.mem (.tagged tagged)) untagged
  -- false if the operator is `==`, true if it is `!=`
  else op.result false

def buildEqualTaggedBoolean (op : EqualityOp) (tagged : TaggedPtr) (untagged : Bool) : Bool :=
  op.result (tagged == taggedBoolean untagged)

def buildEqualTaggedInt (o : Objects M) (op : EqualityOp) (tagged : TaggedPtr) (untagged : Word)
    (untaggedRepr : IntRepr) : Bool :=
  if untaggedRepr.alwaysInImmediateRange then op.result (tagged == buildImmediateTaggedInt untagged)
  else if buildHasTag tagged Tag.int then op.result (taggedToInt o.mem (.tagged tagged) == untagged)
  else op.result false

def buildEqualStringString (o : Objects M) (op : EqualityOp) (tagged1 tagged2 : TaggedPtr) : Bool :=
  op.result (taggedStringEqual o.mem tagged1 tagged2)

def buildEqualDecimalDecimal (dec : DecNumber) (o : Objects M) (op : EqualityOp)
    (tagged1 tagged2 : TaggedPtr) : Bool :=
  op.result (decimalsEqual dec o.mem op.isExact tagged1 tagged2)

section Build

variable [BddIdentity]

/-- `reprIsImmediate(semTypeRepr(t:intersect(lhs.semType, rhs.semType)))`; the `none` is a panic. -/
def intersectIsImmediate (lhs rhs : SemType) : Option Bool := do
  let ty ← intersect ops lhs rhs
  let repr ← semTypeRepr ty
  return repr.alwaysImmediate

/-- The words are compared. -/
def isWordComparison (lhs rhs : SemType) (lhsRepr rhsRepr : TaggedRepr) : Option Bool :=
  if lhsRepr.alwaysImmediate || rhsRepr.alwaysImmediate then some true
  else intersectIsImmediate lhs rhs

variable (dec : DecNumber) (hashKey : HashKey) (o : Objects M) (op : EqualityOp)

/-- Both operands are tagged. -/
def buildEqualityTagged (lhs rhs : SemType) (lhsRepr rhsRepr : TaggedRepr) (lhsValue rhsValue : TaggedPtr) :
    Option (Nat → Option Bool) := do
  if ← isWordComparison lhs rhs lhsRepr rhsRepr then
    return fun _ => some (op.result (lhsValue == rhsValue))
  else if lhsRepr.subtype = STRING ∧ rhsRepr.subtype = STRING then
    return fun _ => some (buildEqualStringString o op lhsValue rhsValue)
  else if lhsRepr.subtype = DECIMAL ∧ rhsRepr.subtype = DECIMAL then
    return fun _ => some (buildEqualDecimalDecimal dec o op lhsValue rhsValue)
  else return balEquality dec hashKey o op (.tagged lhsValue) (.tagged rhsValue)

/-- The `none` is a panic, or two different untagged representations. -/
def buildEquality (lhs rhs : Operand) (lhsValue rhsValue : LlvmValue) : Option (Nat → Option Bool) := do
  match ← lhs.repr, ← rhs.repr, lhsValue, rhsValue with
  | .tagged lhsRepr, .tagged rhsRepr, .pointer l, .pointer r =>
    buildEqualityTagged dec hashKey o op lhs.semType rhs.semType lhsRepr rhsRepr l r
  | .tagged _, .boolean, .pointer l, .i1 r => return fun _ => some (buildEqualTaggedBoolean op l r)
  | .boolean, .tagged _, .i1 l, .pointer r => return fun _ => some (buildEqualTaggedBoolean op r l)
  | .tagged _, .int rhsRepr, .pointer l, .i64 r =>
    return fun _ => some (buildEqualTaggedInt o op l r rhsRepr)
  | .int lhsRepr, .tagged _, .i64 l, .pointer r =>
    return fun _ => some (buildEqualTaggedInt o op r l lhsRepr)
  | .boolean, .boolean, .i1 l, .i1 r => return fun _ => some (op.result (l == r))
  | .int _, .int _, .i64 l, .i64 r => return fun _ => some (op.result (l == r))
  | .tagged _, .float, .pointer l, .double r => return fun _ => some (buildEqualTaggedFloat o op l r)
  | .float, .tagged _, .double l, .pointer r => return fun _ => some (buildEqualTaggedFloat o op r l)
  | .float, .float, .double l, .double r => return fun _ => some (buildEqualFloat op l r)
  | _, _, _, _ => none

end Build

/-! ## Operands -/

section Operands

variable {structured : BasicTypeCode → ProperSubtypeData → Set TaggedPtr} {dec : DecNumber}
  {hashKey : HashKey} {o : Objects M} {nodes : Finset TaggedPtr} {operand : Operand} {v : LlvmValue}
  {x : BasicValue TaggedPtr}

/-- The basic type of a value that is tagged is one of those of the representation. -/
theorem Operand.Has.subtype (h : operand.Has structured dec o nodes v x) {r : TaggedRepr}
    (hr : operand.repr = some (.tagged r)) : r.subtype.getLsbD x.code.val = true := by
  cases operand with
  | register semType =>
    rw [semTypeRepr_subtype hr, widenToBasicTypes_eq]
    exact h.holds.bit h.wf.wf
  | const semType value =>
    have hconst := h.const semType value rfl
    cases value with
    | nil =>
      cases hr
      rw [show x = .nil from hconst]
      decide
    | boolean b => cases hr
    | int n => cases hr
    | float d => cases hr
    | decimal y =>
      cases hr
      rw [show x = .decimal y from hconst]
      exact (by decide : REPR_DECIMAL.subtype.getLsbD BT_DECIMAL.val = true)
    | string s =>
      cases hr
      rw [show x = .string s from hconst]
      exact (by decide : STRING.getLsbD BT_STRING.val = true)
    | functionRef =>
      cases hr
      obtain ⟨tp, hx⟩ := hconst
      rw [hx]
      exact (by decide : FUNCTION.getLsbD BT_FUNCTION.val = true)

/-- The values of an operand that is tagged and always immediate are. -/
theorem Operand.Has.immediate (hvalid : o.Valid dec.compare hashKey nodes)
    (h : operand.Has structured dec o nodes v x) {r : TaggedRepr}
    (hr : operand.repr = some (.tagged r)) (himmediate : r.alwaysImmediate = true) :
    IsImmediate v.tagged := by
  have hcode := h.subtype hr
  cases operand with
  | register semType =>
    rcases semTypeRepr_immediate hr himmediate with ⟨_, hint, _⟩ | ⟨hfloat, _⟩ | hw
    · cases hint
    · cases hfloat
    · exact immediate_of_holds hvalid h.wf hw h.holds h.shows h.node
  | const semType value =>
    have hconst := h.const semType value rfl
    have hshows := h.shows
    cases value with
    | nil =>
      rw [show x = .nil from hconst] at hshows
      generalize v.tagged = w at hshows
      cases hshows
      exact ⟨_, rfl, .inl (by decide)⟩
    | boolean b => cases hr
    | int n => cases hr
    | float d => cases hr
    | decimal y =>
      cases hr
      cases himmediate
    | string s =>
      cases hr
      rw [show x = .string s from hconst] at hshows
      generalize v.tagged = w at hshows
      generalize hx : BasicValue.string s = y at hshows
      cases hshows with
      | string tp text hmem =>
        cases hx
        have htag := (represents_of_mem hvalid hmem).getTag_eq
        dsimp only at himmediate
        rw [String.length_ofList, String.toList_ofList] at himmediate
        rw [if_pos ((isSmallString_iff text).mp himmediate)] at htag
        exact ⟨tp, rfl, .inr (.inr (.inr htag))⟩
      | _ => cases hx
    | functionRef =>
      cases hr
      cases himmediate

end Operands

/-! ## Tags -/

theorem buildHasTag_iff (tp : TaggedPtr) (code : BasicTypeCode) :
    buildHasTag tp (BitVec.ofNat 64 code.val) = true ↔
      getTag tp &&& 0x1F#64 = BitVec.ofNat 64 code.val := by
  have hmask : (0xFF#64 &&& 0x1F#64 : Word) = 0x1F#64 := by decide
  have hshift : tp &&& (0x1F#64 <<< 56) = ((tp >>> 56) &&& 0x1F#64) <<< 56 := by
    refine BitVec.eq_of_getLsbD_eq fun i hi => ?_
    rw [BitVec.getLsbD_and, BitVec.getLsbD_shiftLeft, BitVec.getLsbD_shiftLeft, BitVec.getLsbD_and,
      BitVec.getLsbD_ushiftRight]
    by_cases hlow : i < 56
    · simp only [hlow, decide_true, Bool.not_true, Bool.and_false, Bool.false_and]
    · have hsum : 56 + (i - 56) = i := by omega
      simp only [hlow, hi, decide_false, decide_true, Bool.not_false, Bool.true_and, hsum]
  have hback : ∀ w : Word, w &&& 0xFF#64 = w → (w <<< 56) >>> 56 = w := by
    intro w hw
    refine BitVec.eq_of_getLsbD_eq fun i hi => ?_
    rw [BitVec.getLsbD_ushiftRight, BitVec.getLsbD_shiftLeft]
    by_cases hlow : i < 8
    · have h1 : 56 + i < 64 := by omega
      have h2 : ¬ 56 + i < 56 := by omega
      have h3 : 56 + i - 56 = i := by omega
      simp only [h1, h2, h3, decide_true, decide_false, Bool.not_false, Bool.true_and]
    · have hbits : ∀ i < 64, ¬ i < 8 → (0xFF#64).getLsbD i = false := by decide
      have hnot : ¬ 56 + i < 64 := by omega
      have hhigh : w.getLsbD i = false := by
        rw [← hw, BitVec.getLsbD_and, hbits i hi hlow, Bool.and_false]
      rw [hhigh]
      simp only [hnot, decide_false, Bool.false_and]
  have hcode : ∀ code : BasicTypeCode, (BitVec.ofNat 64 code.val : Word) &&& 0xFF#64 =
      BitVec.ofNat 64 code.val := by decide
  have hand : (tp >>> 56 &&& 0x1F#64) &&& 0xFF#64 = tp >>> 56 &&& 0x1F#64 := by
    rw [BitVec.and_assoc, BitVec.and_comm 0x1F#64, hmask]
  unfold buildHasTag getTag
  rw [beq_iff_eq, hshift, BitVec.and_assoc, hmask]
  refine ⟨fun h => ?_, fun h => by rw [h]⟩
  rw [← hback _ hand, h, hback _ (hcode code)]

section Shows

variable {dec : DecNumber} {hashKey : HashKey} {o : Objects M} {nodes : Finset TaggedPtr}
  {v : Runtime.Member} {x : BasicValue TaggedPtr}

/-- The tag is the code of the basic type, and a flag. -/
theorem shows_getTag (hvalid : o.Valid dec.compare hashKey nodes) (h : Shows dec o v x) :
    v.getTag &&& 0x1F#64 = BitVec.ofNat 64 x.code.val := by
  cases h with
  | nil => decide
  | boolean b =>
    rw [getTag_tagged, getTag_taggedBoolean]
    exact (by decide : Tag.boolean &&& 0x1F#64 = BitVec.ofNat 64 BT_BOOLEAN.val)
  | int v htag =>
    have hand : ∀ w : Word, w = Tag.int ∨ w = Tag.int ||| Tag.immediate →
        w &&& 0x1F#64 = BitVec.ofNat 64 BT_INT.val := by
      rintro w (rfl | rfl) <;> decide
    exact hand _ htag
  | float v htag =>
    rw [htag]
    exact (by decide : Tag.float &&& 0x1F#64 = BitVec.ofNat 64 BT_FLOAT.val)
  | decimal tp htag =>
    rw [getTag_tagged, htag]
    exact (by decide : Tag.decimal &&& 0x1F#64 = BitVec.ofNat 64 BT_DECIMAL.val)
  | string tp s hmem =>
    have hand : (if Small s then Tag.string ||| Tag.immediate else Tag.string) &&& 0x1F#64 =
        BitVec.ofNat 64 BT_STRING.val := by
      split
      · decide
      · decide
    rw [getTag_tagged, (represents_of_mem hvalid hmem).getTag_eq]
    exact hand
  | structured tp code hcode htag =>
    have hand : ∀ code : BasicTypeCode, (BitVec.ofNat 64 code.val : Word) &&& 0x1F#64 =
        BitVec.ofNat 64 code.val := by decide
    rw [getTag_tagged, htag]
    exact hand code

theorem shows_code (hvalid : o.Valid dec.compare hashKey nodes) (h : Shows dec o v x)
    {code : BasicTypeCode} (htag : v.getTag &&& 0x1F#64 = BitVec.ofNat 64 code.val) : x.code = code := by
  have hinj : ∀ c c' : BasicTypeCode, (BitVec.ofNat 64 c.val : Word) = BitVec.ofNat 64 c'.val → c = c' := by
    decide
  exact hinj _ _ ((shows_getTag hvalid h).symm.trans htag)

/-- A value with the code of `int` is one, with one of its two tags. -/
theorem shows_int (h : Shows dec o v x) (hcode : x.code = BT_INT) :
    (v.getTag = Tag.int ∨ v.getTag = Tag.int ||| Tag.immediate) ∧
      x = .int (taggedToInt o.mem v).toInt := by
  cases h with
  | int v htag => exact ⟨htag, rfl⟩
  | structured tp code hstructured htag =>
    obtain rfl : code = BT_INT := hcode
    exact absurd hstructured.1 (by decide)
  | _ => cases hcode

theorem shows_float (h : Shows dec o v x) (hcode : x.code = BT_FLOAT) : v.getTag = Tag.float := by
  cases h with
  | float v htag => exact htag
  | structured tp code hstructured htag =>
    obtain rfl : code = BT_FLOAT := hcode
    exact absurd hstructured.1 (by decide)
  | _ => cases hcode

theorem shows_decimal (h : Shows dec o v x) (hcode : x.code = BT_DECIMAL) :
    ∃ tp, v = .tagged tp ∧ getTag tp = Tag.decimal ∧ x = .decimal (dec.value (taggedToDecQuad o.mem tp)) := by
  cases h with
  | decimal tp htag => exact ⟨tp, rfl, htag, rfl⟩
  | structured tp code hstructured htag =>
    obtain rfl : code = BT_DECIMAL := hcode
    exact absurd hstructured.1 (by decide)
  | _ => cases hcode

theorem shows_string (h : Shows dec o v x) (hcode : x.code = BT_STRING) :
    ∃ tp s, v = .tagged tp ∧ (tp, s) ∈ o.store.strings ∧ x = .string (String.ofList s) := by
  cases h with
  | string tp s hmem => exact ⟨tp, s, rfl, hmem, rfl⟩
  | structured tp code hstructured htag =>
    obtain rfl : code = BT_STRING := hcode
    exact absurd hstructured.1 (by decide)
  | _ => cases hcode

end Shows

/-! ## When the values of each path are equal -/

section Paths

variable {dec : DecNumber} {hashKey : HashKey} {o : Objects M} {nodes : Finset TaggedPtr}
  {exact : Bool} {p : TaggedPtr} {x : BasicValue TaggedPtr}

variable {p1 p2 : TaggedPtr}

theorem equal_string_iff (hvalid : o.Valid dec.compare hashKey nodes) {s1 s2 : List Char}
    (h1 : (p1, s1) ∈ o.store.strings) (h2 : (p2, s2) ∈ o.store.strings) :
    Equal dec o exact (.tagged p1) (.tagged p2) ↔ taggedStringEqual o.mem p1 p2 = true := by
  have hr1 := represents_of_mem hvalid h1
  have hr2 := represents_of_mem hvalid h2
  have hequal : taggedStringEqual o.mem p1 p2 = true ↔ s1 = s2 := hr1.equal_iff hr2
  have htag1 := hr1.getTag_eq
  have htag2 := hr2.getTag_eq
  by_cases hsmall : Small s1 ∨ Small s2
  · have himmediate : IsImmediate (.tagged p1) ∨ IsImmediate (.tagged p2) := by
      refine hsmall.imp (fun h => ?_) fun h => ?_
      · rw [if_pos h] at htag1
        exact ⟨p1, rfl, .inr (.inr (.inr htag1))⟩
      · rw [if_pos h] at htag2
        exact ⟨p2, rfl, .inr (.inr (.inr htag2))⟩
    have hflag : p1 &&& immediateFlag ≠ 0#64 ∨ p2 &&& immediateFlag ≠ 0#64 := by
      rw [immediate_iff_getTag, immediate_iff_getTag, htag1, htag2]
      refine hsmall.imp (fun h => ?_) fun h => ?_
      · rw [if_pos h]
        decide
      · rw [if_pos h]
        decide
    rw [equal_iff_of_immediate himmediate, sameBits_tagged, hequal, hr1.word_eq_iff hr2 hflag]
  · obtain ⟨hlarge1, hlarge2⟩ := not_or.mp hsmall
    rw [if_neg hlarge1] at htag1
    rw [if_neg hlarge2] at htag2
    have hne : Tag.string ≠ Tag.int ∧ Tag.string ≠ Tag.float ∧ Tag.string ≠ Tag.decimal ∧
        Tag.string ≠ Tag.list ∧ Tag.string ≠ Tag.mapping ∧ Tag.string ≠ Tag.function := by decide
    refine ⟨fun h => ?_, fun h => .string p1 p2 rfl rfl htag1 htag2 h⟩
    cases h with
    | same tp hv hw =>
      cases hv
      cases hw
      exact if_pos rfl
    | int hv _ => exact absurd (htag1.symm.trans hv) hne.1
    | float hv _ => exact absurd (htag1.symm.trans hv) hne.2.1
    | string q1 q2 hv hw _ _ heq =>
      cases hv
      cases hw
      exact heq
    | decimal q1 q2 hv _ htag _ _ =>
      cases hv
      exact absurd (htag1.symm.trans htag) hne.2.2.1
    | object q1 q2 hv _ _ hsame =>
      cases hv
      cases hsame with
      | exact hkind _ =>
        rcases hkind with hkind | hkind | hkind
        · exact absurd (htag1.symm.trans hkind) hne.2.2.2.1
        · exact absurd (htag1.symm.trans hkind) hne.2.2.2.2.1
        · exact absurd (htag1.symm.trans hkind) hne.2.2.2.2.2
      | deep hkind _ =>
        rcases hkind with hkind | hkind
        · exact absurd (htag1.symm.trans hkind) hne.2.2.2.1
        · exact absurd (htag1.symm.trans hkind) hne.2.2.2.2.1

/-- The structures that can be equal have other tags. -/
theorem sameStructure_getTag (h : SameStructure dec o exact p1 p2) :
    getTag p1 = Tag.list ∨ getTag p1 = Tag.mapping ∨ getTag p1 = Tag.function := by
  cases h with
  | exact htag _ => exact htag
  | deep htag _ => exact htag.imp_right .inl

theorem equal_decimal_iff (hvalid : o.Valid dec.compare hashKey nodes)
    (h1 : (Runtime.Member.tagged p1).In nodes) (htag1 : getTag p1 = Tag.decimal)
    (htag2 : getTag p2 = Tag.decimal) :
    Equal dec o exact (.tagged p1) (.tagged p2) ↔ decimalsEqual dec o.mem exact p1 p2 = true := by
  have hne : Tag.decimal ≠ Tag.int ∧ Tag.decimal ≠ Tag.float ∧ Tag.decimal ≠ Tag.string ∧
      Tag.decimal ≠ Tag.int ||| Tag.immediate := by decide
  have hobject : ¬ (Tag.decimal = Tag.list ∨ Tag.decimal = Tag.mapping ∨ Tag.decimal = Tag.function) := by
    decide
  refine ⟨fun h => ?_, fun h => .decimal p1 p2 rfl rfl htag1 htag2 h⟩
  cases h with
  | same tp hv hw =>
    cases hv
    cases hw
    unfold decimalsEqual
    split
    next => exact beq_self_eq_true _
    next =>
      refine (decimalEq_iff o.mem p1 p1).mpr (hvalid.decimal p1 ?_ htag1)
      exact h1.resolve_right fun himmediate => hne.2.2.2 (htag1.symm.trans himmediate)
  | int hv _ => exact absurd (htag1.symm.trans hv) hne.1
  | float hv _ => exact absurd (htag1.symm.trans hv) hne.2.1
  | string q1 q2 hv _ htag =>
    cases hv
    exact absurd (htag1.symm.trans htag) hne.2.2.1
  | decimal q1 q2 hv hw _ _ heq =>
    cases hv
    cases hw
    exact heq
  | object q1 q2 hv _ _ hsame =>
    cases hv
    exact absurd (htag1 ▸ sameStructure_getTag hsame) hobject

/-- A block that is about to be allocated for an int is equal to the blocks with the int. -/
theorem equal_newInt_iff (v : Runtime.Member) (n : Word) :
    (Equal dec o exact v (.newInt n) ↔ v.getTag = Tag.int ∧ loadBox o.mem v = n) ∧
      (Equal dec o exact (.newInt n) v ↔ v.getTag = Tag.int ∧ loadBox o.mem v = n) := by
  have hfloat : Tag.int ≠ Tag.float := by decide
  refine ⟨⟨fun h => ?_, fun h => .int h.1 rfl h.2⟩, ⟨fun h => ?_, fun h => .int rfl h.1 h.2.symm⟩⟩
  · cases h with
    | same tp hv hw => cases hw
    | int hv hw heq => exact ⟨hv, heq⟩
    | float hv hw heq => exact absurd hw hfloat
    | string q1 q2 hv hw => cases hw
    | decimal q1 q2 hv hw => cases hw
    | object q1 q2 hv hw => cases hw
  · cases h with
    | same tp hv hw => cases hv
    | int hv hw heq => exact ⟨hw, heq.symm⟩
    | float hv hw heq => exact absurd hv hfloat
    | string q1 q2 hv hw => cases hv
    | decimal q1 q2 hv hw => cases hv
    | object q1 q2 hv hw => cases hv

theorem floatsEqual_comm (exact : Bool) (d1 d2 : Word) :
    floatsEqual exact d1 d2 = floatsEqual exact d2 d1 := by
  unfold floatsEqual balFloatExactEq balFloatEq fcmpOeq
  rw [Bool.and_comm (floatIsNaN d1) (floatIsNaN d2), Bool.and_comm (floatIsZero d1) (floatIsZero d2),
    Bool.and_comm (!floatIsNaN d1) (!floatIsNaN d2), BEq.comm (a := d1)]

theorem equal_newFloat_iff (v : Runtime.Member) (d : Word) :
    (Equal dec o exact v (.newFloat d) ↔ v.getTag = Tag.float ∧
        floatsEqual exact (loadBox o.mem v) d = true) ∧
      (Equal dec o exact (.newFloat d) v ↔ v.getTag = Tag.float ∧
        floatsEqual exact (loadBox o.mem v) d = true) := by
  have hint : Tag.float ≠ Tag.int := by decide
  refine ⟨⟨fun h => ?_, fun h => .float h.1 rfl h.2⟩, ⟨fun h => ?_, fun h => .float rfl h.1 ?_⟩⟩
  · cases h with
    | same tp hv hw => cases hw
    | int hv hw heq => exact absurd hw hint
    | float hv hw heq => exact ⟨hv, heq⟩
    | string q1 q2 hv hw => cases hw
    | decimal q1 q2 hv hw => cases hw
    | object q1 q2 hv hw => cases hw
  · cases h with
    | same tp hv hw => cases hv
    | int hv hw heq => exact absurd hv hint
    | float hv hw heq =>
      rw [floatsEqual_comm] at heq
      exact ⟨hw, heq⟩
    | string q1 q2 hv hw => cases hv
    | decimal q1 q2 hv hw => cases hv
    | object q1 q2 hv hw => cases hv
  · rw [floatsEqual_comm]
    exact h.2

/-- The compiler and the runtime put the same word together. -/
theorem buildImmediateTaggedInt_eq (n : Word) :
    buildImmediateTaggedInt n = (n &&& pointerMask) ||| immediateFlag ||| Tag.int <<< 56 := by
  unfold buildImmediateTaggedInt
  rw [BitVec.or_assoc (n &&& pointerMask), BitVec.or_comm (n &&& pointerMask), BitVec.and_comm n]
  rfl

theorem getTag_buildImmediateTaggedInt (n : Word) :
    getTag (buildImmediateTaggedInt n) = Tag.int ||| Tag.immediate := by
  rw [buildImmediateTaggedInt_eq, getTag_intToTagged]

/-- The tagged form of an immediate int. -/
theorem intToTagged_eq {n : Word} (h : IsImmediateInt n.toInt) :
    intToTagged n = .tagged (buildImmediateTaggedInt n) := by
  rw [buildImmediateTaggedInt_eq]
  exact if_pos h

theorem isImmediate_intToTagged {n : Word} (h : IsImmediateInt n.toInt) : IsImmediate (intToTagged n) :=
  ⟨_, intToTagged_eq h, .inr (.inr (.inl (getTag_buildImmediateTaggedInt n)))⟩

/-- An int is equal to the values with the tag of ints, and to this int in them. -/
theorem equal_int_iff (hvalid : o.Valid dec.compare hashKey nodes) (hin : (Runtime.Member.tagged p).In nodes)
    (hshows : Shows dec o (.tagged p) x) (n : Word) :
    (Equal dec o exact (.tagged p) (intToTagged n) ↔
        buildHasTag p Tag.int = true ∧ taggedToInt o.mem (.tagged p) = n) ∧
      (Equal dec o exact (intToTagged n) (.tagged p) ↔
        buildHasTag p Tag.int = true ∧ taggedToInt o.mem (.tagged p) = n) := by
  have hhas : buildHasTag p Tag.int = true ↔ x.code = BT_INT := by
    refine (buildHasTag_iff p BT_INT).trans ⟨shows_code hvalid hshows, fun h => ?_⟩
    rw [← h]
    exact shows_getTag hvalid hshows
  by_cases hn : IsImmediateInt n.toInt
  · -- the words are compared
    have hiff : buildHasTag p Tag.int = true ∧ taggedToInt o.mem (.tagged p) = n ↔
        Runtime.Member.tagged p = intToTagged n := by
      refine ⟨fun ⟨hint, heq⟩ => ?_, fun h => ?_⟩
      · obtain ⟨htag, _⟩ := shows_int hshows (hhas.mp hint)
        rcases htag with htag | htag
        · rw [← heq, taggedToInt_of_block htag] at hn
          exact absurd hn (not_immediate_of_in hvalid hin htag)
        · have hread := taggedToInt_intToTagged o.mem n
          unfold intToTagged at hread ⊢
          rw [if_pos hn] at hread ⊢
          rw [taggedToInt_of_immediate o.mem (getTag_intToTagged n)] at hread
          rw [taggedToInt_of_immediate o.mem htag] at heq
          have htag : getTag p = Tag.int ||| Tag.immediate := htag
          rw [eq_of_immediateInt (htag.trans (getTag_intToTagged n).symm) (heq.trans hread.symm)]
      · have htag : getTag p = Tag.int ||| Tag.immediate := by
          unfold intToTagged at h
          rw [if_pos hn] at h
          cases h
          exact getTag_intToTagged n
        refine ⟨(buildHasTag_iff p BT_INT).mpr ?_, ?_⟩
        · rw [htag]
          decide
        · rw [h, taggedToInt_intToTagged]
    have himmediate := isImmediate_intToTagged hn
    rw [equal_iff_of_immediate (.inr himmediate), equal_iff_of_immediate (.inl himmediate), hiff]
    obtain ⟨tp, htp, _⟩ := himmediate
    rw [htp, sameBits_tagged, sameBits_tagged, Runtime.Member.tagged.injEq]
    exact ⟨Iff.rfl, eq_comm⟩
  · have hnew : intToTagged n = .newInt n := if_neg hn
    have hiff : buildHasTag p Tag.int = true ∧ taggedToInt o.mem (.tagged p) = n ↔
        (Runtime.Member.tagged p).getTag = Tag.int ∧ loadBox o.mem (.tagged p) = n := by
      refine ⟨fun ⟨hint, heq⟩ => ?_, fun ⟨htag, heq⟩ => ⟨(buildHasTag_iff p BT_INT).mpr ?_, ?_⟩⟩
      · obtain ⟨htag, _⟩ := shows_int hshows (hhas.mp hint)
        rcases htag with htag | htag
        · rw [taggedToInt_of_block htag] at heq
          exact ⟨htag, heq⟩
        · rw [← heq, taggedToInt_of_immediate o.mem htag] at hn
          exact absurd (isImmediateInt_immediateInt _) hn
      · rw [show getTag p = Tag.int from htag]
        decide
      · rw [taggedToInt_of_block htag]
        exact heq
    rw [hnew, hiff]
    exact equal_newInt_iff (.tagged p) n

/-- Ints are equal if they have the same value. -/
theorem equal_intToTagged_iff (l r : Word) :
    Equal dec o exact (intToTagged l) (intToTagged r) ↔ l = r := by
  by_cases hr : IsImmediateInt r.toInt
  · rw [equal_iff_of_immediate (.inr (isImmediate_intToTagged hr))]
    refine ⟨fun h => ?_, fun h => ?_⟩
    · have heq := congrArg (taggedToInt o.mem) (eq_of_sameBits h)
      rwa [taggedToInt_intToTagged, taggedToInt_intToTagged] at heq
    · rw [h, intToTagged_eq hr]
      exact sameBits_tagged.mpr rfl
  · have hnew : intToTagged r = .newInt r := if_neg hr
    rw [hnew, (equal_newInt_iff _ r).1]
    by_cases hl : IsImmediateInt l.toInt
    · refine iff_of_false (fun h => ?_) fun h => hr (h ▸ hl)
      rw [intToTagged_eq hl] at h
      have htag : getTag (buildImmediateTaggedInt l) = Tag.int := h.1
      exact absurd ((getTag_buildImmediateTaggedInt l).symm.trans htag) (by decide)
    · have hnew : intToTagged l = .newInt l := if_neg hl
      rw [hnew]
      exact and_iff_right rfl

theorem equal_taggedBoolean_iff (l r : Bool) :
    Equal dec o exact (.tagged (taggedBoolean l)) (.tagged (taggedBoolean r)) ↔ l = r := by
  have himmediate : IsImmediate (.tagged (taggedBoolean l)) :=
    ⟨_, rfl, .inr (.inl (getTag_taggedBoolean l))⟩
  have hinj : ∀ l r : Bool, taggedBoolean l = taggedBoolean r ↔ l = r := by decide
  rw [equal_iff_of_immediate (.inl himmediate), sameBits_tagged, hinj]

end Paths

/-! ## The result -/

/-- Both give the same boolean, if the recursion may go deep enough. -/
def SameResult (f g : Nat → Option Bool) : Prop := ∃ b n, ∀ fuel > n, f fuel = some b ∧ g fuel = some b

/-- Of two tagged operands only the intersection of the types is always immediate. -/
structure OnlyIntersectionImmediate [BddIdentity] (lhs rhs : Operand) (l r : TaggedRepr) : Prop where
  lhsRepr : lhs.repr = some (.tagged l)
  rhsRepr : rhs.repr = some (.tagged r)
  notLhs : l.alwaysImmediate = false
  notRhs : r.alwaysImmediate = false
  intersect : intersectIsImmediate lhs.semType rhs.semType = some true

/-- The pointers are different and what they point to is equal: two boxed ints or floats, or structures. -/
inductive EqualBlocks (dec : DecNumber) (o : Objects M) (exact : Bool) (p1 p2 : TaggedPtr) : Prop where
  | int (hne : p1 ≠ p2) (htag1 : getTag p1 = Tag.int) (htag2 : getTag p2 = Tag.int)
      (heq : o.mem.loadWord (taggedToPtr p1) = o.mem.loadWord (taggedToPtr p2))
  | float (hne : p1 ≠ p2) (htag1 : getTag p1 = Tag.float) (htag2 : getTag p2 = Tag.float)
      (heq : floatsEqual exact (o.mem.loadWord (taggedToPtr p1)) (o.mem.loadWord (taggedToPtr p2)) = true)
  | object (hne : p1 ≠ p2) (htag : getTag p1 = getTag p2) (hsame : SameStructure dec o exact p1 p2)

section Result

variable [BddIdentity] {structured : BasicTypeCode → ProperSubtypeData → Set TaggedPtr}
  {dec : DecNumber} {hashKey : HashKey} {o : Objects M} {nodes : Finset TaggedPtr} {op : EqualityOp}
  {lhs rhs : Operand} {lhsValue rhsValue : LlvmValue} {x y : BasicValue TaggedPtr}

omit [BddIdentity] in
theorem sameResult_iff {v w : Runtime.Member} (hvalid : o.Valid dec.compare hashKey nodes)
    (hv : v.In nodes) (hw : w.In nodes) (b : Bool) :
    SameResult (fun _ => some (op.result b)) (balEquality dec hashKey o op v w) ↔
      (b = true ↔ Equal dec o op.isExact v w) := by
  obtain ⟨r, hr, hrun⟩ := balEquality_total hvalid hv hw op
  have hinj : ∀ {b c : Bool}, op.result b = op.result c → b = c := Bool.xor_left_inj.mp
  rw [← hr]
  refine ⟨fun ⟨c, n, h⟩ => ?_, fun h => ?_⟩
  · obtain ⟨hcode, hruntime⟩ := h (n + nodes.card * nodes.card + 1) (by omega)
    rw [hrun _ (by omega)] at hruntime
    rw [hinj ((Option.some.inj hcode).trans (Option.some.inj hruntime).symm)]
  · rw [Bool.eq_iff_iff.mpr h]
    exact ⟨op.result r, nodes.card * nodes.card, fun fuel hfuel => ⟨rfl, hrun fuel hfuel⟩⟩

omit [BddIdentity] in
/-- An always immediate type has ints and floats, and what is immediate. -/
theorem immediate_cases (hvalid : o.Valid dec.compare hashKey nodes) {t : SemType} (ht : t.Over ValidData)
    {r : ValueRepr} (hr : semTypeRepr t = some r) (himmediate : r.alwaysImmediate = true)
    {v : Runtime.Member} (h : Types.Holds structured t x) (hshows : Shows dec o v x) (hin : v.In nodes) :
    x.code = BT_INT ∨ x.code = BT_FLOAT ∨ IsImmediate v := by
  have hbit := h.bit ht.wf
  rw [← widenToBasicTypes_eq] at hbit
  have hint : ∀ c : BasicTypeCode, INT.getLsbD c.val = true → c = BT_INT := by decide
  have hfloat : ∀ c : BasicTypeCode, FLOAT.getLsbD c.val = true → c = BT_FLOAT := by decide
  rcases semTypeRepr_immediate hr himmediate with ⟨_, _, hw⟩ | ⟨_, hw⟩ | hw
  · rw [hw] at hbit
    exact .inl (hint _ hbit)
  · rw [hw] at hbit
    exact .inr (.inl (hfloat _ hbit))
  · exact .inr (.inr (immediate_of_holds hvalid ht hw h hshows hin))

variable {p p1 p2 : TaggedPtr}

omit [BddIdentity] in
theorem not_isImmediate_of_getTag (h : getTag p = Tag.string ∨ getTag p = Tag.decimal) :
    ¬ IsImmediate (.tagged p) := by
  intro ⟨tp, heq, htag⟩
  cases heq
  rcases h with h | h <;> rw [h] at htag <;> revert htag <;> decide

omit [BddIdentity] in
/-- Equal decimals have the same value, for either operator. -/
theorem value_eq_of_decimalsEqual (hdec : dec.Right) {m : Mem}
    (h1 : dec.compare (taggedToDecQuad m p1) (taggedToDecQuad m p1) = .posZero)
    (h2 : dec.compare (taggedToDecQuad m p2) (taggedToDecQuad m p2) = .posZero) {exact : Bool}
    (h : decimalsEqual dec m exact p1 p2 = true) :
    dec.value (taggedToDecQuad m p1) = dec.value (taggedToDecQuad m p2) := by
  cases exact with
  | true =>
    have heq : dec.canonical (taggedToDecQuad m p1) = dec.canonical (taggedToDecQuad m p2) :=
      beq_iff_eq.mp h
    exact hdec.value_eq heq
  | false => exact (hdec.compare_iff h1 h2).mp ((decimalEq_iff m p1 p2).mp h)

/-- Of values that both have a type in the intersection of which the words are compared, boxed ints and
floats and structures can be equal although the words are not. -/
theorem equalBlocks_of_equal (hdec : dec.Right) (hvalid : o.Valid dec.compare hashKey nodes)
    (hl : lhs.Has structured dec o nodes (.pointer p1) x)
    (hr : rhs.Has structured dec o nodes (.pointer p2) y)
    (himmediate : intersectIsImmediate lhs.semType rhs.semType = some true) {exact : Bool}
    (h : Equal dec o exact (.tagged p1) (.tagged p2)) (hne : p1 ≠ p2) :
    EqualBlocks dec o exact p1 p2 := by
  obtain ⟨t, ht, himmediate⟩ := Option.bind_eq_some_iff.mp himmediate
  obtain ⟨r, hrepr, himmediate⟩ := Option.bind_eq_some_iff.mp himmediate
  have hover := SemTypeOf.Over.intersect closedOps_valid hl.wf hr.wf ht
  have hshows1 : Shows dec o (.tagged p1) x := hl.shows
  have hshows2 : Shows dec o (.tagged p2) y := hr.shows
  have hin1 : (Runtime.Member.tagged p1).In nodes := hl.node
  have hin2 : (Runtime.Member.tagged p2).In nodes := hr.node
  cases h with
  | same tp hv hw =>
    cases hv
    cases hw
    exact absurd rfl hne
  | int hv hw heq => exact .int hne hv hw heq
  | float hv hw heq => exact .float hne hv hw heq
  | object q1 q2 hv hw htag hsame =>
    cases hv
    cases hw
    exact .object hne htag hsame
  | string q1 q2 hv hw htag1 htag2 heq =>
    cases hv
    cases hw
    have hcode : ∀ {p : TaggedPtr}, getTag p = Tag.string →
        getTag p &&& 0x1F#64 = BitVec.ofNat 64 BT_STRING.val := by
      intro p hp
      rw [hp]
      decide
    obtain ⟨_, s1, hp1, hmem1, rfl⟩ := shows_string hshows1 (shows_code hvalid hshows1 (hcode htag1))
    obtain ⟨_, s2, hp2, hmem2, rfl⟩ := shows_string hshows2 (shows_code hvalid hshows2 (hcode htag2))
    cases hp1
    cases hp2
    have htext : s1 = s2 := ((represents_of_mem hvalid hmem1).equal_iff (represents_of_mem hvalid hmem2)).mp heq
    have hholds := Types.Holds.intersect_string hl.wf hr.wf hl.holds (htext ▸ hr.holds) ht
    rcases immediate_cases hvalid hover hrepr (Option.some.inj himmediate) hholds hshows1 hin1 with h | h | h
    · cases h
    · cases h
    · exact absurd h (not_isImmediate_of_getTag (.inl htag1))
  | decimal q1 q2 hv hw htag1 htag2 heq =>
    cases hv
    cases hw
    have hcode : ∀ {p : TaggedPtr}, getTag p = Tag.decimal →
        getTag p &&& 0x1F#64 = BitVec.ofNat 64 BT_DECIMAL.val := by
      intro p hp
      rw [hp]
      decide
    obtain ⟨_, hp1, _, rfl⟩ := shows_decimal hshows1 (shows_code hvalid hshows1 (hcode htag1))
    obtain ⟨_, hp2, _, rfl⟩ := shows_decimal hshows2 (shows_code hvalid hshows2 (hcode htag2))
    cases hp1
    cases hp2
    have hnode : ∀ {p : TaggedPtr}, (Runtime.Member.tagged p).In nodes → getTag p = Tag.decimal →
        dec.compare (taggedToDecQuad o.mem p) (taggedToDecQuad o.mem p) = .posZero := by
      intro p hin htag
      refine hvalid.decimal p (hin.resolve_right fun himm => ?_) htag
      exact absurd (htag.symm.trans himm) (by decide)
    have hvalue := value_eq_of_decimalsEqual hdec (hnode hin1 htag1) (hnode hin2 htag2) heq
    have hother := hr.holds
    rw [← hvalue] at hother
    have hholds := Types.Holds.intersect_decimal hl.wf hr.wf hl.holds hother ht
    rcases immediate_cases hvalid hover hrepr (Option.some.inj himmediate) hholds hshows1 hin1 with h | h | h
    · cases h
    · cases h
    · exact absurd h (not_isImmediate_of_getTag (.inr htag1))

omit [BddIdentity] in
theorem equal_of_equalBlocks {exact : Bool} (h : EqualBlocks dec o exact p1 p2) :
    p1 ≠ p2 ∧ Equal dec o exact (.tagged p1) (.tagged p2) := by
  cases h with
  | int hne htag1 htag2 heq => exact ⟨hne, .int htag1 htag2 heq⟩
  | float hne htag1 htag2 heq => exact ⟨hne, .float htag1 htag2 heq⟩
  | object hne htag hsame => exact ⟨hne, .object p1 p2 rfl rfl htag hsame⟩

/-! ## The paths -/

/-- The words of two pointers are compared that have equal blocks. -/
def MissesBlocks (dec : DecNumber) (o : Objects M) (exact : Bool) (lhs rhs : Operand)
    (lhsValue rhsValue : LlvmValue) : Prop :=
  ∃ l r p1 p2, lhsValue = .pointer p1 ∧ rhsValue = .pointer p2 ∧
    OnlyIntersectionImmediate lhs rhs l r ∧ EqualBlocks dec o exact p1 p2

omit [BddIdentity] in
/-- The constraints of an untagged int hold of it. -/
theorem semTypeRepr_int {t : SemType} {r : IntRepr} (h : semTypeRepr t = some (.int r)) :
    ∃ c, intSubtypeConstraints t = some c ∧ r.alwaysInImmediateRange = isIntConstrainedToImmediate c := by
  unfold semTypeRepr at h
  dsimp only [Option.bind_eq_bind, Option.pure_def] at h
  split at h
  next =>
    obtain ⟨c, hc, heq⟩ := Option.bind_eq_some_iff.mp h
    cases heq
    exact ⟨c, hc, rfl⟩
  next =>
    split at h
    next tr htr =>
      have hnone : ∀ tr ∈ typeReprs, ∀ i, tr.2 ≠ .int i := by
        intro tr htr i
        simp only [typeReprs, List.mem_cons, List.not_mem_nil, or_false] at htr
        rcases htr with rfl | rfl | rfl | rfl | rfl | rfl | rfl | rfl | rfl <;> exact fun h => by cases h
      exact absurd (Option.some.inj h) (hnone tr (find?_typeReprs htr).2 r)
    next =>
      split at h
      next => cases h
      next =>
        split at h
        next =>
          obtain ⟨b, _, heq⟩ := Option.bind_eq_some_iff.mp h
          cases heq
        next => cases h

omit [BddIdentity] in
/-- The value that an untagged int stands for. -/
theorem shows_intToTagged (hvalid : o.Valid dec.compare hashKey nodes) {n : Word}
    (h : Shows dec o (intToTagged n) x) : x = .int n.toInt := by
  have htag : (intToTagged n).getTag &&& 0x1F#64 = BitVec.ofNat 64 BT_INT.val := by
    unfold intToTagged
    split
    next =>
      rw [getTag_tagged, getTag_intToTagged]
      decide
    next => exact (by decide : Tag.int &&& 0x1F#64 = BitVec.ofNat 64 BT_INT.val)
  obtain ⟨_, hx⟩ := shows_int h (shows_code hvalid h htag)
  rw [hx, taggedToInt_intToTagged]

omit [BddIdentity] in
/-- An untagged int that is said to be always in the immediate range is. -/
theorem Operand.Has.int (hvalid : o.Valid dec.compare hashKey nodes) {operand : Operand} {n : Word}
    (h : operand.Has structured dec o nodes (.i64 n) x) {r : IntRepr} (hr : operand.repr = some (.int r))
    (himmediate : r.alwaysInImmediateRange = true) : IsImmediateInt n.toInt := by
  have hx := shows_intToTagged hvalid h.shows
  cases operand with
  | register semType =>
    obtain ⟨c, hc, heq⟩ := semTypeRepr_int hr
    rw [heq] at himmediate
    exact isImmediateInt_of_holds h.wf (hx ▸ h.holds) hc himmediate
  | const semType value =>
    have hconst := h.const semType value rfl
    cases value with
    | int k =>
      cases hr
      have hk : x = .int k := hconst
      have hk : k = n.toInt := by
        rw [hx] at hk
        exact (BasicValue.int.inj hk).symm
      exact hk ▸ of_decide_eq_true himmediate
    | _ => cases hr

omit [BddIdentity] in
theorem buildEqualTaggedBoolean_agrees (hvalid : o.Valid dec.compare hashKey nodes) {b : Bool}
    (hp : (Runtime.Member.tagged p).In nodes) (hb : (LlvmValue.i1 b).tagged.In nodes) :
    SameResult (fun _ => some (buildEqualTaggedBoolean op p b))
        (balEquality dec hashKey o op (.tagged p) (LlvmValue.i1 b).tagged) ∧
      SameResult (fun _ => some (buildEqualTaggedBoolean op p b))
        (balEquality dec hashKey o op (LlvmValue.i1 b).tagged (.tagged p)) := by
  have himmediate : IsImmediate (LlvmValue.i1 b).tagged := ⟨_, rfl, .inr (.inl (getTag_taggedBoolean b))⟩
  refine ⟨(sameResult_iff hvalid hp hb _).mpr ?_, (sameResult_iff hvalid hb hp _).mpr ?_⟩
  · rw [equal_iff_of_immediate (.inr himmediate)]
    exact beq_iff_eq.trans sameBits_tagged.symm
  · rw [equal_iff_of_immediate (.inl himmediate)]
    exact beq_iff_eq.trans (eq_comm.trans sameBits_tagged.symm)

omit [BddIdentity] in
theorem buildEqualTaggedInt_agrees (hvalid : o.Valid dec.compare hashKey nodes) {n : Word} {r : IntRepr}
    (hrange : r.alwaysInImmediateRange = true → IsImmediateInt n.toInt)
    (hp : (Runtime.Member.tagged p).In nodes) (hshows : Shows dec o (.tagged p) x)
    (hn : (intToTagged n).In nodes) :
    SameResult (fun _ => some (buildEqualTaggedInt o op p n r))
        (balEquality dec hashKey o op (.tagged p) (intToTagged n)) ∧
      SameResult (fun _ => some (buildEqualTaggedInt o op p n r))
        (balEquality dec hashKey o op (intToTagged n) (.tagged p)) := by
  obtain ⟨hleft, hright⟩ : (Equal dec o op.isExact (.tagged p) (intToTagged n) ↔
        buildHasTag p Tag.int = true ∧ taggedToInt o.mem (.tagged p) = n) ∧
      (Equal dec o op.isExact (intToTagged n) (.tagged p) ↔
        buildHasTag p Tag.int = true ∧ taggedToInt o.mem (.tagged p) = n) :=
    equal_int_iff hvalid hp hshows n
  have hresult : ∃ b, buildEqualTaggedInt o op p n r = op.result b ∧
      (b = true ↔ buildHasTag p Tag.int = true ∧ taggedToInt o.mem (.tagged p) = n) := by
    unfold buildEqualTaggedInt
    split
    next hr =>
      have himmediate := hrange hr
      refine ⟨_, rfl, ?_⟩
      rw [← hleft, equal_iff_of_immediate (.inr (isImmediate_intToTagged himmediate)),
        intToTagged_eq himmediate]
      exact beq_iff_eq.trans sameBits_tagged.symm
    next =>
      split
      next htag => exact ⟨_, rfl, beq_iff_eq.trans (and_iff_right htag).symm⟩
      next htag => exact ⟨false, rfl, iff_of_false Bool.false_ne_true fun h => htag h.1⟩
  obtain ⟨b, heq, hb⟩ := hresult
  rw [heq]
  exact ⟨(sameResult_iff hvalid hp hn b).mpr (hb.trans hleft.symm),
    (sameResult_iff hvalid hn hp b).mpr (hb.trans hright.symm)⟩

omit [BddIdentity] in
theorem buildEqualTaggedFloat_agrees (hvalid : o.Valid dec.compare hashKey nodes) {d : Word}
    (hp : (Runtime.Member.tagged p).In nodes) (hshows : Shows dec o (.tagged p) x)
    (hd : (Runtime.Member.newFloat d).In nodes) :
    SameResult (fun _ => some (buildEqualTaggedFloat o op p d))
        (balEquality dec hashKey o op (.tagged p) (.newFloat d)) ∧
      SameResult (fun _ => some (buildEqualTaggedFloat o op p d))
        (balEquality dec hashKey o op (.newFloat d) (.tagged p)) := by
  obtain ⟨hleft, hright⟩ : (Equal dec o op.isExact (.tagged p) (.newFloat d) ↔
        getTag p = Tag.float ∧ floatsEqual op.isExact (loadBox o.mem (.tagged p)) d = true) ∧
      (Equal dec o op.isExact (.newFloat d) (.tagged p) ↔
        getTag p = Tag.float ∧ floatsEqual op.isExact (loadBox o.mem (.tagged p)) d = true) :=
    equal_newFloat_iff (.tagged p) d
  have hhas : buildHasTag p Tag.float = true ↔ (Runtime.Member.tagged p).getTag = Tag.float := by
    refine (buildHasTag_iff p BT_FLOAT).trans ⟨fun h => shows_float hshows (shows_code hvalid hshows h), ?_⟩
    intro h
    rw [show getTag p = Tag.float from h]
    decide
  have hresult : ∃ b, buildEqualTaggedFloat o op p d = op.result b ∧
      (b = true ↔ (Runtime.Member.tagged p).getTag = Tag.float ∧
        floatsEqual op.isExact (loadBox o.mem (.tagged p)) d = true) := by
    unfold buildEqualTaggedFloat
    split
    next htag => exact ⟨_, rfl, (and_iff_right (hhas.mp htag)).symm⟩
    next htag => exact ⟨false, rfl, iff_of_false Bool.false_ne_true fun h => htag (hhas.mpr h.1)⟩
  obtain ⟨b, heq, hb⟩ := hresult
  rw [heq]
  exact ⟨(sameResult_iff hvalid hp hd b).mpr (hb.trans hleft.symm),
    (sameResult_iff hvalid hd hp b).mpr (hb.trans hright.symm)⟩

/-- Of two tagged operands the words may be compared unless the blocks are missed. -/
theorem buildEqualityTagged_agrees_iff (hdec : dec.Right) (hvalid : o.Valid dec.compare hashKey nodes)
    (hl : lhs.Has structured dec o nodes (.pointer p1) x)
    (hr : rhs.Has structured dec o nodes (.pointer p2) y) {l r : TaggedRepr}
    (hlhs : lhs.repr = some (.tagged l)) (hrhs : rhs.repr = some (.tagged r)) {code : Nat → Option Bool}
    (hcode : buildEqualityTagged dec hashKey o op lhs.semType rhs.semType l r p1 p2 = some code) :
    SameResult code (balEquality dec hashKey o op (.tagged p1) (.tagged p2)) ↔
      ¬ MissesBlocks dec o op.isExact lhs rhs (.pointer p1) (.pointer p2) := by
  have hin1 : (Runtime.Member.tagged p1).In nodes := hl.node
  have hin2 : (Runtime.Member.tagged p2).In nodes := hr.node
  have hshows1 : Shows dec o (.tagged p1) x := hl.shows
  have hshows2 : Shows dec o (.tagged p2) y := hr.shows
  obtain ⟨words, hwords, hcode⟩ := Option.bind_eq_some_iff.mp hcode
  unfold isWordComparison at hwords
  split at hwords
  next himmediate =>
    -- one of the two is always immediate
    cases hwords
    cases hcode
    have hvalue : IsImmediate (.tagged p1) ∨ IsImmediate (.tagged p2) :=
      (Bool.or_eq_true_iff.mp himmediate).imp (hl.immediate hvalid hlhs) (hr.immediate hvalid hrhs)
    refine iff_of_true ((sameResult_iff hvalid hin1 hin2 _).mpr ?_) ?_
    · rw [equal_iff_of_immediate hvalue]
      exact beq_iff_eq.trans sameBits_tagged.symm
    · rintro ⟨l', r', _, _, _, _, honly, _⟩
      cases hlhs.symm.trans honly.lhsRepr
      cases hrhs.symm.trans honly.rhsRepr
      rw [honly.notLhs, honly.notRhs] at himmediate
      cases himmediate
  next himmediate =>
    cases words with
    | true =>
      cases hcode
      refine (sameResult_iff hvalid hin1 hin2 _).trans ⟨fun h => ?_, fun h => ?_⟩
      · rintro ⟨_, _, _, _, hp1, hp2, _, hblocks⟩
        cases hp1
        cases hp2
        obtain ⟨hne, hequal⟩ := equal_of_equalBlocks hblocks
        exact hne (beq_iff_eq.mp (h.mpr hequal))
      · refine ⟨fun heq => .same p1 rfl (by rw [beq_iff_eq.mp heq]), fun hequal => ?_⟩
        by_contra hne
        have hblocks := equalBlocks_of_equal hdec hvalid hl hr hwords hequal fun heq => hne (beq_iff_eq.mpr heq)
        obtain ⟨hnotl, hnotr⟩ := not_or.mp fun h => himmediate (Bool.or_eq_true_iff.mpr h)
        exact h ⟨l, r, p1, p2, rfl, rfl, ⟨hlhs, hrhs, Bool.eq_false_of_not_eq_true hnotl,
          Bool.eq_false_of_not_eq_true hnotr, hwords⟩, hblocks⟩
    | false =>
      have hnot : ¬ MissesBlocks dec o op.isExact lhs rhs (.pointer p1) (.pointer p2) := by
        rintro ⟨_, _, _, _, _, _, honly, _⟩
        cases hwords.symm.trans honly.intersect
      refine iff_of_true ?_ hnot
      rw [if_neg Bool.false_ne_true] at hcode
      split at hcode
      next hsubtypes =>
        cases hcode
        have hstring : ∀ c : BasicTypeCode, STRING.getLsbD c.val = true → c = BT_STRING := by decide
        have hcode1 := hstring _ (hsubtypes.1 ▸ hl.subtype hlhs)
        have hcode2 := hstring _ (hsubtypes.2 ▸ hr.subtype hrhs)
        obtain ⟨_, s1, hp1, hmem1, _⟩ := shows_string hshows1 hcode1
        obtain ⟨_, s2, hp2, hmem2, _⟩ := shows_string hshows2 hcode2
        cases hp1
        cases hp2
        exact (sameResult_iff hvalid hin1 hin2 _).mpr (equal_string_iff hvalid hmem1 hmem2).symm
      next =>
        split at hcode
        next hsubtypes =>
          cases hcode
          have hdecimal : ∀ c : BasicTypeCode, DECIMAL.getLsbD c.val = true → c = BT_DECIMAL := by decide
          obtain ⟨_, hp1, htag1, _⟩ := shows_decimal hshows1 (hdecimal _ (hsubtypes.1 ▸ hl.subtype hlhs))
          obtain ⟨_, hp2, htag2, _⟩ := shows_decimal hshows2 (hdecimal _ (hsubtypes.2 ▸ hr.subtype hrhs))
          cases hp1
          cases hp2
          exact (sameResult_iff hvalid hin1 hin2 _).mpr (equal_decimal_iff hvalid hin1 htag1 htag2).symm
        next =>
          cases hcode
          obtain ⟨b, _, hrun⟩ := balEquality_total hvalid hin1 hin2 op
          exact ⟨op.result b, _, fun fuel hfuel => ⟨hrun fuel hfuel, hrun fuel hfuel⟩⟩

omit [BddIdentity] in
/-- Untagged floats are compared as such. -/
theorem equal_newFloat_newFloat_iff (exact : Bool) (l r : Word) :
    Equal dec o exact (.newFloat l) (.newFloat r) ↔ floatsEqual exact l r = true :=
  (equal_newFloat_iff (.newFloat l) r).1.trans (and_iff_right rfl)

/-- **The result of an equality is that of the runtime on the tagged values**, unless the words of two
pointers are compared because only the intersection of the types is said to be always immediate. -/
theorem equality_agrees_iff (hdec : dec.Right) (hvalid : o.Valid dec.compare hashKey nodes)
    (hl : lhs.Has structured dec o nodes lhsValue x) (hr : rhs.Has structured dec o nodes rhsValue y)
    {code : Nat → Option Bool}
    (hcode : buildEquality dec hashKey o op lhs rhs lhsValue rhsValue = some code) :
    SameResult code (balEquality dec hashKey o op lhsValue.tagged rhsValue.tagged) ↔
      ¬ MissesBlocks dec o op.isExact lhs rhs lhsValue rhsValue := by
  obtain ⟨lhsRepr, hlhs, hcode⟩ := Option.bind_eq_some_iff.mp hcode
  obtain ⟨rhsRepr, hrhs, hcode⟩ := Option.bind_eq_some_iff.mp hcode
  have hshows1 := hl.shows
  have hshows2 := hr.shows
  have hin1 := hl.node
  have hin2 := hr.node
  have hpointers : (∀ p, lhsValue ≠ .pointer p) ∨ (∀ p, rhsValue ≠ .pointer p) →
      ¬ MissesBlocks dec o op.isExact lhs rhs lhsValue rhsValue := by
    rintro h ⟨_, _, p1, p2, hp1, hp2, _⟩
    exact h.elim (fun h => h p1 hp1) fun h => h p2 hp2
  -- the values are of the representations
  have hfits1 := hl.fits lhsRepr hlhs
  have hfits2 := hr.fits rhsRepr hrhs
  cases lhsRepr with
  | int lhsRepr =>
    cases lhsValue with
    | i64 l =>
      refine iff_of_true ?_ (hpointers (.inl fun _ h => by cases h))
      cases rhsRepr with
      | int rhsRepr =>
        cases rhsValue with
        | i64 r =>
          cases hcode
          exact (sameResult_iff hvalid hin1 hin2 _).mpr (beq_iff_eq.trans (equal_intToTagged_iff l r).symm)
        | _ => exact hfits2.elim
      | tagged rhsRepr =>
        cases rhsValue with
        | pointer r =>
          cases hcode
          exact (buildEqualTaggedInt_agrees hvalid (hl.int hvalid hlhs) hin2 hshows2 hin1).2
        | _ => exact hfits2.elim
      | _ => cases hcode
    | _ => exact hfits1.elim
  | float =>
    cases lhsValue with
    | double l =>
      refine iff_of_true ?_ (hpointers (.inl fun _ h => by cases h))
      cases rhsRepr with
      | float =>
        cases rhsValue with
        | double r =>
          cases hcode
          exact (sameResult_iff hvalid hin1 hin2 _).mpr (equal_newFloat_newFloat_iff _ l r).symm
        | _ => exact hfits2.elim
      | tagged rhsRepr =>
        cases rhsValue with
        | pointer r =>
          cases hcode
          exact (buildEqualTaggedFloat_agrees hvalid hin2 hshows2 hin1).2
        | _ => exact hfits2.elim
      | _ => cases hcode
    | _ => exact hfits1.elim
  | boolean =>
    cases lhsValue with
    | i1 l =>
      refine iff_of_true ?_ (hpointers (.inl fun _ h => by cases h))
      cases rhsRepr with
      | boolean =>
        cases rhsValue with
        | i1 r =>
          cases hcode
          exact (sameResult_iff hvalid hin1 hin2 _).mpr (beq_iff_eq.trans (equal_taggedBoolean_iff l r).symm)
        | _ => exact hfits2.elim
      | tagged rhsRepr =>
        cases rhsValue with
        | pointer r =>
          cases hcode
          exact (buildEqualTaggedBoolean_agrees hvalid hin2 hin1).2
        | _ => exact hfits2.elim
      | _ => cases hcode
    | _ => exact hfits1.elim
  | tagged lhsRepr =>
    cases lhsValue with
    | pointer l =>
      cases rhsRepr with
      | int rhsRepr =>
        cases rhsValue with
        | i64 r =>
          cases hcode
          refine iff_of_true ?_ (hpointers (.inr fun _ h => by cases h))
          exact (buildEqualTaggedInt_agrees hvalid (hr.int hvalid hrhs) hin1 hshows1 hin2).1
        | _ => exact hfits2.elim
      | float =>
        cases rhsValue with
        | double r =>
          cases hcode
          refine iff_of_true ?_ (hpointers (.inr fun _ h => by cases h))
          exact (buildEqualTaggedFloat_agrees hvalid hin1 hshows1 hin2).1
        | _ => exact hfits2.elim
      | boolean =>
        cases rhsValue with
        | i1 r =>
          cases hcode
          refine iff_of_true ?_ (hpointers (.inr fun _ h => by cases h))
          exact (buildEqualTaggedBoolean_agrees hvalid hin1 hin2).1
        | _ => exact hfits2.elim
      | tagged rhsRepr =>
        cases rhsValue with
        | pointer r => exact buildEqualityTagged_agrees_iff hdec hvalid hl hr hlhs hrhs hcode
        | _ => exact hfits2.elim
    | _ => exact hfits1.elim

end Result

/-! ## Two blocks with the same int -/

/-- The pointer to the boxed int at the address. -/
def boxPtr (p : Nat) : TaggedPtr := ptrAddFlags p (Tag.int <<< 56)

/-- The int `2 ^ 60` in two blocks. -/
def boxes : Objects Unit where
  store := ⟨⟨fun p => if p = 0x1007 ∨ p = 0x2007 then 0x10#8 else 0#8, []⟩, []⟩
  list _ := none
  mapping _ := none

/-- Every `decQuad` is canonical and of a number of its own. -/
def quadNumber : DecNumber where
  compare := sameQuad
  canonical := id
  value d := (d.1.toNat * 2 ^ 64 + d.2.toNat : Nat)

theorem quadNumber_right : quadNumber.Right := by
  have hinj : ∀ d1 d2 : DecQuad, quadNumber.value d1 = quadNumber.value d2 → d1 = d2 := by
    intro d1 d2 h
    have h : d1.1.toNat * 2 ^ 64 + d1.2.toNat = d2.1.toNat * 2 ^ 64 + d2.2.toNat := Nat.cast_inj.mp h
    have h1 := d1.2.isLt
    have h2 := d2.2.isLt
    exact Prod.ext (BitVec.eq_of_toNat_eq (by omega)) (BitVec.eq_of_toNat_eq (by omega))
  refine ⟨fun {d1 d2} _ _ => ⟨fun h => ?_, fun h => ?_⟩, fun h => ?_⟩
  · by_cases heq : d1 = d2
    · rw [heq]
    · cases (if_neg heq).symm.trans h
  · exact if_pos (hinj d1 d2 h)
  · exact congrArg quadNumber.value h

theorem boxes_load {p : Nat} (hp : p = 0x1000 ∨ p = 0x2000) : getTag (boxPtr p) = Tag.int ∧
    boxes.mem.loadWord (taggedToPtr (boxPtr p)) = 0x1000000000000000#64 := by
  rcases hp with rfl | rfl <;> decide

theorem boxes_valid : boxes.Valid quadNumber.compare hashDefineKey {boxPtr 0x1000, boxPtr 0x2000} := by
  have hnodes : ∀ tp ∈ ({boxPtr 0x1000, boxPtr 0x2000} : Finset TaggedPtr), getTag tp = Tag.int ∧
      ¬ IsImmediateInt (boxes.mem.loadWord (taggedToPtr tp)).toInt := by
    have hlarge : ¬ IsImmediateInt (0x1000000000000000#64 : Word).toInt := by decide
    intro tp htp
    rcases Finset.mem_insert.mp htp with rfl | htp
    · rw [(boxes_load (.inl rfl)).2]
      exact ⟨(boxes_load (.inl rfl)).1, hlarge⟩
    · rw [Finset.mem_singleton.mp htp, (boxes_load (.inr rfl)).2]
      exact ⟨(boxes_load (.inr rfl)).1, hlarge⟩
  have hother : ∀ {tag : Word}, Tag.int ≠ tag → ∀ tp ∈ ({boxPtr 0x1000, boxPtr 0x2000} : Finset TaggedPtr),
      getTag tp ≠ tag := fun hne tp htp => (hnodes tp htp).1 ▸ hne
  exact {
    reachable := .init _
    int := fun tp htp _ => (hnodes tp htp).2
    decimal := fun tp htp htag => absurd htag (hother (by decide) tp htp)
    string := fun tp htp htag => absurd htag
      (not_or.mpr ⟨hother (by decide) tp htp, hother (by decide) tp htp⟩)
    list := fun tp htp htag => absurd htag (hother (by decide) tp htp)
    mapping := fun tp htp htag => absurd htag (hother (by decide) tp htp) }

/-- A register with the boxed int of one of the two blocks. -/
theorem box_has {b : BasicTypeBitSet} (hb : b.getLsbD BT_INT.val = true)
    (hrepr : ∃ r, semTypeRepr (.bits b) = some (.tagged r)) {p : Nat}
    (hp : p = 0x1000 ∨ p = 0x2000) :
    (Operand.register (.bits b)).Has (fun _ _ => ∅) quadNumber boxes {boxPtr 0x1000, boxPtr 0x2000}
      (.pointer (boxPtr p)) (.int (2 ^ 60)) := by
  obtain ⟨htag, hload⟩ := boxes_load hp
  have hload : taggedToInt boxes.mem (.tagged (boxPtr p)) = 0x1000000000000000#64 :=
    (taggedToInt_of_block (v := .tagged (boxPtr p)) htag).trans hload
  have hshows : Shows quadNumber boxes (.tagged (boxPtr p)) (.int (2 ^ 60)) := by
    have hshows : Shows quadNumber boxes (.tagged (boxPtr p)) _ := .int (.tagged (boxPtr p)) (.inl htag)
    rw [hload] at hshows
    exact hshows
  have hin : boxPtr p ∈ ({boxPtr 0x1000, boxPtr 0x2000} : Finset TaggedPtr) := by
    rcases hp with rfl | rfl
    · exact Finset.mem_insert_self _ _
    · exact Finset.mem_insert_of_mem (Finset.mem_singleton_self _)
  obtain ⟨r, hr⟩ := hrepr
  exact {
    wf := over_bits _ b
    holds := ⟨.bool true, congrArg (fun c => some (SubtypeDataOf.bool c))
      (bne_iff_ne.mpr (and_basicType_ne_zero hb)), rfl⟩
    shows := hshows
    node := .inl hin
    fits := fun r' hr' => by
      cases hr.symm.trans hr'
      trivial
    const := fun t c h => by cases h }

/-- Of two operands of type `int?` the ints are loaded. -/
theorem equality_agrees_boxes :
    let _ := BddIdentity.shared
    let operand := Operand.register (.bits (INT ||| NIL))
    ∃ code, buildEquality quadNumber hashDefineKey boxes .eq operand operand (.pointer (boxPtr 0x1000))
        (.pointer (boxPtr 0x2000)) = some code ∧
      SameResult code (balEquality quadNumber hashDefineKey boxes .eq (.tagged (boxPtr 0x1000))
        (.tagged (boxPtr 0x2000))) := by
  intro _ operand
  refine ⟨_, rfl, ?_⟩
  have hhas : ∀ p, p = 0x1000 ∨ p = 0x2000 → operand.Has (fun _ _ => ∅) quadNumber boxes
      {boxPtr 0x1000, boxPtr 0x2000} (.pointer (boxPtr p)) (.int (2 ^ 60)) :=
    fun p hp => box_has (by decide) ⟨_, rfl⟩ hp
  refine (equality_agrees_iff quadNumber_right boxes_valid (hhas _ (.inl rfl)) (hhas _ (.inr rfl))
    rfl).mpr ?_
  rintro ⟨_, _, _, _, _, _, honly, _⟩
  cases honly.intersect

/-- `int?` and `int|string`: the intersection is `int`, so that the words are compared. -/
theorem buildEquality_int_blocks :
    let _ := BddIdentity.shared
    let lhs := Operand.register (.bits (INT ||| NIL))
    let rhs := Operand.register (.bits (INT ||| STRING))
    lhs.Has (fun _ _ => ∅) quadNumber boxes {boxPtr 0x1000, boxPtr 0x2000} (.pointer (boxPtr 0x1000))
        (.int (2 ^ 60)) ∧
      rhs.Has (fun _ _ => ∅) quadNumber boxes {boxPtr 0x1000, boxPtr 0x2000} (.pointer (boxPtr 0x2000))
        (.int (2 ^ 60)) ∧
      (∀ fuel, (buildEquality quadNumber hashDefineKey boxes .eq lhs rhs (.pointer (boxPtr 0x1000))
        (.pointer (boxPtr 0x2000))).bind (fun code => code fuel) = some false) ∧
      ∀ fuel > 4, balEquality quadNumber hashDefineKey boxes .eq (.tagged (boxPtr 0x1000))
        (.tagged (boxPtr 0x2000)) fuel = some true := by
  intro _
  refine ⟨box_has (by decide) ⟨_, rfl⟩ (.inl rfl), box_has (by decide) ⟨_, rfl⟩ (.inr rfl),
    fun fuel => rfl, fun fuel hfuel => ?_⟩
  have h1 := boxes_load (p := 0x1000) (.inl rfl)
  have h2 := boxes_load (p := 0x2000) (.inr rfl)
  obtain ⟨r, hr, hrun⟩ := balEquality_total boxes_valid (v := .tagged (boxPtr 0x1000))
    (w := .tagged (boxPtr 0x2000)) (.inl (Finset.mem_insert_self _ _))
    (.inl (Finset.mem_insert_of_mem (Finset.mem_singleton_self _))) .eq
  rw [hrun fuel hfuel, hr.mpr (.int h1.1 h2.1 (h1.2.trans h2.2.symm))]
  rfl

end Nballerina.Nback
