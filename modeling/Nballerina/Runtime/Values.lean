import Nballerina.Runtime.EqualityBisim
import Nballerina.Runtime.StringConstant
import Nballerina.Types.Values

/-!
# Tagged pointers as values

Which value of a basic type a tagged pointer is (`Objects.Shows`), and the value of a `double`.

Mirroring notes:
* of the decNumber library, which `runtime/decimal.c` calls, `decQuadCompare` and `decQuadCanonical`
  are parameters, and with them the number that a `decQuad` is.
-/

namespace Nballerina.Runtime

open Nballerina.Lib Nballerina.Types

variable {M : Type}

namespace Tag

def boolean : Word := 0x01#64
def function : Word := 0x09#64

end Tag

/-! ## Numbers -/

/-- What is used of the decNumber library, and the number of a `decQuad` that has one. -/
structure DecNumber where
  compare : DecQuad → DecQuad → DecClass
  canonical : DecQuad → DecQuad
  value : DecQuad → Rat

/-- A `decQuad` is a number if it is equal to itself; numbers are compared by their values, and what
makes them canonical does not change these. -/
structure DecNumber.Right (dec : DecNumber) : Prop where
  compare_iff : ∀ {d1 d2}, dec.compare d1 d1 = .posZero → dec.compare d2 d2 = .posZero →
    (dec.compare d1 d2 = .posZero ↔ dec.value d1 = dec.value d2)
  value_eq : ∀ {d1 d2}, dec.canonical d1 = dec.canonical d2 → dec.value d1 = dec.value d2

/-- The value of the bits of a `double`. -/
def floatValue (d : Word) : FloatValue :=
  let exponent := ((d >>> 52) &&& 0x7FF#64).toNat
  let fraction := (d &&& 0x000FFFFFFFFFFFFF#64).toNat
  let sign : Rat := if d.msb then -1 else 1
  if exponent = 0x7FF then
    if fraction ≠ 0 then .nan else if d.msb then .negInfinity else .posInfinity
  else if exponent = 0 then .finite (sign * fraction / 2 ^ 1074)
  else .finite (sign * (2 ^ 52 + fraction) * 2 ^ exponent / 2 ^ 1075)

/-! ## Tagged pointers -/

/-- `TAGGED_TRUE` and `TAGGED_FALSE`. -/
def taggedBoolean (b : Bool) : TaggedPtr := Tag.boolean <<< 56 ||| if b then 1#64 else 0#64

/-- The basic types from `error` on. -/
def IsStructured (code : BasicTypeCode) : Prop := BT_ERROR ≤ code ∧ code ≤ BT_OBJECT

section Shows

variable (dec : DecNumber) (o : Objects M)

/-- The value that a tagged pointer is, or that a block which is about to be allocated has. -/
inductive Shows : Member → BasicValue TaggedPtr → Prop where
  | nil : Shows (.tagged taggedNil) .nil
  | boolean (b : Bool) : Shows (.tagged (taggedBoolean b)) (.boolean b)
  | int (v : Member) (htag : v.getTag = Tag.int ∨ v.getTag = Tag.int ||| Tag.immediate) :
      Shows v (.int (taggedToInt o.mem v).toInt)
  | float (v : Member) (htag : v.getTag = Tag.float) : Shows v (.float (floatValue (loadBox o.mem v)))
  | decimal (tp : TaggedPtr) (htag : getTag tp = Tag.decimal) :
      Shows (.tagged tp) (.decimal (dec.value (taggedToDecQuad o.mem tp)))
  | string (tp : TaggedPtr) (s : List Char) (hmem : (tp, s) ∈ o.store.strings) :
      Shows (.tagged tp) (.string (String.ofList s))
  | structured (tp : TaggedPtr) (code : BasicTypeCode) (hcode : IsStructured code)
      (htag : getTag tp = BitVec.ofNat 64 code.val) : Shows (.tagged tp) (.structured code tp)

end Shows

theorem getTag_ptrAddFlags {p : Nat} (hal : p % 8 = 0) (hp : p < 2 ^ 56) (flags : Word) :
    getTag (ptrAddFlags p flags) = getTag flags := by
  have hshift : ∀ w : Word, getTag w = (w &&& (0xFF#64 <<< 56)) >>> 56 := by
    intro w
    have hmask : (0xFF#64 <<< 56 : Word) >>> 56 = 0xFF#64 := by decide
    unfold getTag
    rw [BitVec.ushiftRight_and_distrib, hmask]
  rw [hshift, hshift, ptrAddFlags_and hal hp flags (by decide)]

theorem getTag_immediateWord (bs : List Byte) :
    getTag (immediateWord bs) = Tag.string ||| Tag.immediate := by
  have hbyte : byteAt (immediateWord bs) 7 = 0x25#8 := by
    rw [immediateWord, byteAt_wordOf _ (by omega), if_pos rfl]
  have htag : ∀ w : Word, getTag w = (byteAt w 7).setWidth 64 := by
    intro w
    refine BitVec.eq_of_getLsbD_eq fun i hi => ?_
    rw [BitVec.getLsbD_setWidth, decide_eq_true hi, Bool.true_and, getLsbD_byteAt]
    by_cases hlow : i < 8
    · rw [getLsbD_getTag w hlow, decide_eq_true hlow, Bool.true_and]
    · have hmask : ∀ i < 64, ¬ i < 8 → (0xFF#64).getLsbD i = false := by decide
      unfold getTag
      rw [BitVec.getLsbD_and, hmask i hi hlow, Bool.and_false, decide_eq_false hlow, Bool.false_and]
  rw [htag, hbyte]
  decide

/-- A string is immediate if it is small, and has a block otherwise. -/
theorem Represents.getTag_eq {h : Heap} {tp : TaggedPtr} {s : List Char} (hr : Represents h tp s) :
    getTag tp = if Small s then Tag.string ||| Tag.immediate else Tag.string := by
  cases hr with
  | immediate small word => rw [if_pos small, word, getTag_immediateWord]
  | medium p notSmall short block word =>
    have hsize : 0 < mediumStringSize (utf8 s).length := by
      have := le_mediumStringSize (utf8 s).length
      omega
    rw [if_neg notSmall, word, getTag_ptrAddFlags block.aligned (block.lt hsize)]
    decide
  | large p notSmall long block word =>
    have hsize : 0 < largeStringSize (utf8 s).length := by
      have := le_largeStringSize (utf8 s).length
      omega
    rw [if_neg notSmall, word, getTag_ptrAddFlags block.aligned (block.lt hsize)]
    decide

theorem getTag_taggedBoolean (b : Bool) : getTag (taggedBoolean b) = Tag.boolean := by
  cases b <;> decide

end Nballerina.Runtime
