import Nballerina.Runtime.FloatOrder
import Nballerina.Runtime.ListContains

/-!
# Subtypes of the simple basic types

Mirroring `_bal_true_subtype_contains` and `_bal_false_subtype_contains` of `runtime/boolean.c`, the functions
`_bal_int_subtype_contains`, `_bal_float_subtype_contains`, `_bal_decimal_subtype_contains` and
`_bal_string_subtype_contains`, and `complexTypeContainsTagged` of `runtime/balrt.h` over the structures that they
look at.

Each of the functions finds out whether a value is among those that its structure lists, and the flag `included`
says what that means.

Mirroring notes:

* a `UniformSubtype` is here the structure itself with the function `contains` that it begins with; of those of the
  structured basic types only the function is left (`other`);
* the numbers and pointers in the array of a structure are lists. The decimals, which are pointers there, are the
  `decQuad`s that these point to.
-/

namespace Nballerina.Runtime

open Nballerina.Lib Nballerina.Types

inductive UniformSubtype where
  | boolean (value : Bool)
  | int (ranges : List Range)
  | float (floats : List Word) (included : Bool)
  | decimal (decimals : List DecQuad) (included : Bool)
  | string (strs : List TaggedPtr) (isCharInStrsIncluded isNonCharInStrsIncluded : Bool)
  | other (contains : Mem → TaggedPtr → Option Bool)

structure ComplexTypeStruct where
  all : BitSet
  some : BitSet
  subtypes : List UniformSubtype

def balTrueSubtypeContains (tp : TaggedPtr) : Bool := taggedToBoolean tp == true

def balFalseSubtypeContains (tp : TaggedPtr) : Bool := taggedToBoolean tp == false

def balIntSubtypeContains (m : Mem) (ranges : List Range) (tp : TaggedPtr) : Option Bool :=
  intRangeListContains ranges (taggedToInt m (.tagged tp)).toInt

def balFloatSubtypeContains (m : Mem) (floats : List Word) (included : Bool) (tp : TaggedPtr) : Option Bool :=
  floatSubtypeContainsFloat floats included (loadBox m (.tagged tp))

def balStringSubtypeContains (m : Mem) (strs : List TaggedPtr) (isCharInStrsIncluded isNonCharInStrsIncluded : Bool)
    (str : TaggedPtr) : Option Bool := do
  let inStrs ← stringListContains m strs str
  return inStrs == (if taggedStringIsChar str then isCharInStrsIncluded else isNonCharInStrsIncluded)

section Contains

variable (decQuadCompare : DecQuad → DecQuad → CompareClass) (m : Mem)

def balDecimalSubtypeContains (decimals : List DecQuad) (included : Bool) (tp : TaggedPtr) : Option Bool := do
  return (← decimalListContains decQuadCompare decimals (taggedToDecQuad m tp)) == included

/-- `(vp->contains)(vp, p)` -/
def UniformSubtype.contains : UniformSubtype → TaggedPtr → Option Bool
  | .boolean true, p => some (balTrueSubtypeContains p)
  | .boolean false, p => some (balFalseSubtypeContains p)
  | .int ranges, p => balIntSubtypeContains m ranges p
  | .float floats included, p => balFloatSubtypeContains m floats included p
  | .decimal decimals included, p => balDecimalSubtypeContains decQuadCompare m decimals included p
  | .string strs isCharInStrsIncluded isNonCharInStrsIncluded, p =>
    balStringSubtypeContains m strs isCharInStrsIncluded isNonCharInStrsIncluded p
  | .other contains, p => contains m p

def ComplexTypeStruct.containsTagged (ctp : ComplexTypeStruct) (p : TaggedPtr) : Option Bool :=
  if ctp.all.getLsbD (utTag p) then Option.some true
  else if !ctp.some.getLsbD (utTag p) then Option.some false
  else do
    let vp ← ctp.subtypes[popcountBelow ctp.some (utTag p)]?
    vp.contains decQuadCompare m p

end Contains

/-! ## Values -/

section Denotes

variable {α : Type}

/-- The value of a simple basic type or string that a tagged pointer is. -/
inductive Denotes (h : Heap) : TaggedPtr → BasicValue α → Prop where
  | boolean (b : Bool) : Denotes h (taggedBoolean b) (.boolean b)
  | int {tp : TaggedPtr} (htag : getTag tp = Tag.int ∨ getTag tp = Tag.int ||| Tag.immediate) :
      Denotes h tp (.int (taggedToInt h.mem (.tagged tp)).toInt)
  | float {tp : TaggedPtr} (htag : getTag tp = Tag.float) :
      Denotes h tp (.float (floatValue (loadBox h.mem (.tagged tp))))
  | decimal {tp : TaggedPtr} {x : Rat} (htag : getTag tp = Tag.decimal)
      (hx : IsNumber (taggedToDecQuad h.mem tp) x) : Denotes h tp (.decimal x)
  | string {tp : TaggedPtr} {s : List Char} (hs : Represents h tp s) : Denotes h tp (.string (String.ofList s))

theorem utTag_eq (tp : TaggedPtr) : utTag tp = (getTag tp &&& 0x1F#64).toNat := by
  unfold utTag getTag
  rw [BitVec.and_assoc, show (0xFF#64 : Word) &&& 0x1F#64 = 0x1F#64 from rfl]

/-- The tag of a value is its basic type. -/
theorem Denotes.utTag_eq {h : Heap} {tp : TaggedPtr} {v : BasicValue α} (hv : Denotes h tp v) :
    utTag tp = v.code.val := by
  rw [Runtime.utTag_eq]
  cases hv with
  | boolean b =>
    rw [getTag_taggedBoolean]
    rfl
  | int htag => rcases htag with htag | htag <;> rw [htag] <;> rfl
  | float htag =>
    rw [htag]
    rfl
  | decimal htag hx =>
    rw [htag]
    rfl
  | string hs =>
    rw [hs.getTag_eq]
    split <;> rfl

theorem Denotes.code_le {h : Heap} {tp : TaggedPtr} {v : BasicValue α} (hv : Denotes h tp v) : v.code ≤ BT_STRING := by
  cases hv with
  | boolean => exact (by decide : BT_BOOLEAN ≤ BT_STRING)
  | int => exact (by decide : BT_INT ≤ BT_STRING)
  | float => exact (by decide : BT_FLOAT ≤ BT_STRING)
  | decimal => exact (by decide : BT_DECIMAL ≤ BT_STRING)
  | string => exact (by decide : BT_STRING ≤ BT_STRING)

end Denotes

/-! ## What the functions find -/

theorem Finds.congr {result : Option Bool} {P Q : Prop} (h : Finds result P) (hiff : P ↔ Q) : Finds result Q := by
  obtain ⟨found, hfound, hP⟩ := h
  exact ⟨found, hfound, hP.trans hiff⟩

theorem Finds.map_beq {result : Option Bool} {P : Prop} (h : Finds result P) (included : Bool) :
    Finds (do return (← result) == included) (P ↔ included = true) := by
  obtain ⟨found, rfl, hfound⟩ := h
  refine ⟨found == included, rfl, ?_⟩
  rw [beq_iff_eq, ← hfound]
  exact Bool.eq_iff_iff

theorem boolean_contains_finds (decQuadCompare : DecQuad → DecQuad → CompareClass) (m : Mem) (value b : Bool) :
    Finds ((UniformSubtype.boolean value).contains decQuadCompare m (taggedBoolean b)) (b = value) := by
  cases value <;> cases b <;> exact ⟨_, rfl, by decide⟩

section Finds

variable {decQuadCompare : DecQuad → DecQuad → CompareClass} {h : Heap} {tp : TaggedPtr}

theorem int_contains_finds {ranges : List Range} (hne : ranges ≠ [])
    (hranges : ranges.Pairwise fun r s => r.max < s.min) :
    Finds ((UniformSubtype.int ranges).contains decQuadCompare h.mem tp)
      (rangesHave ranges (taggedToInt h.mem (.tagged tp)).toInt) :=
  intRangeListContains_finds hne hranges

theorem float_contains_finds {floats : List Word} {xs : List FloatValue}
    (hfloats : List.Forall₂ (fun d x => floatValue d = x) floats xs) (hne : xs ≠ [])
    (hsorted : xs.Pairwise fun a b => compareFloat a b = .lt) (included : Bool) :
    Finds ((UniformSubtype.float floats included).contains decQuadCompare h.mem tp)
      (floatValue (loadBox h.mem (.tagged tp)) ∈ xs ↔ included = true) := by
  refine ⟨_, floatSubtypeContainsFloat_eq hfloats hne hsorted included _, ?_⟩
  rw [beq_iff_eq, Bool.eq_iff_iff, decide_eq_true_iff]

theorem decimal_contains_finds (hcompare : ComparesDecimals decQuadCompare) {decimals : List DecQuad} {xs : List Rat}
    (hdecimals : List.Forall₂ IsNumber decimals xs) (hsorted : xs.Pairwise (· ≤ ·)) (included : Bool) {x : Rat}
    (hx : IsNumber (taggedToDecQuad h.mem tp) x) :
    Finds ((UniformSubtype.decimal decimals included).contains decQuadCompare h.mem tp) (x ∈ xs ↔ included = true) :=
  (finds_decide (decimalListContains_eq hcompare hdecimals hsorted hx)).map_beq included

/-- The two flags are for strings of one character and for the others. -/
theorem string_contains_finds {strs : List TaggedPtr} {ss : List (List Char)}
    (hstrs : List.Forall₂ (Represents h) strs ss) (hsorted : ss.Pairwise (· ≤ ·)) (char nonChar : Bool)
    {s : List Char} (hs : Represents h tp s) :
    Finds ((UniformSubtype.string strs char nonChar).contains decQuadCompare h.mem tp)
      (s ∈ ss ↔ (if s.length = 1 then char else nonChar) = true) := by
  have hflag : (if taggedStringIsChar tp then char else nonChar) = if s.length = 1 then char else nonChar := by
    by_cases hone : s.length = 1
    · rw [if_pos (hs.isChar_iff.mpr hone), if_pos hone]
    · rw [if_neg (mt hs.isChar_iff.mp hone), if_neg hone]
  rw [← hflag]
  exact (finds_decide (stringListContains_eq hstrs hsorted hs)).map_beq _

end Finds

end Nballerina.Runtime
