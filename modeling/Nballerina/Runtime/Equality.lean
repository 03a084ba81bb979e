import Nballerina.Runtime.MappingRun

/-!
# Equality of values

Mirroring `taggedPtrEq` of `runtime/balrt.h`, `_bal_list_eq_internal` of `runtime/list.c`,
`_bal_mapping_eq_internal` of `runtime/mapping.c` and what they read of a value.

Lists and mappings can contain themselves. `EqStack` has the pairs of lists and of mappings that are
being compared; a pair that is met again is taken to be equal.

Mirroring notes:

* a list or mapping is found by its address, and what `desc->get` does is given by the constructor of
  the array;
* `get` of an array of ints or floats may allocate a block for the member. Such a pointer is equal to
  no other, so it is given by what the block holds;
* `decQuadCompare` followed by `decQuadClass` is a parameter;
* the depth of the recursion is bounded by `fuel`, and `none` if that is not enough. The C stack is
  taken to be large enough.
-/

namespace Nballerina.Runtime

open Nballerina.Lib

variable {M : Type}

/-! ## Tags -/

def getTag (tp : TaggedPtr) : Word := (tp >>> 56) &&& 0xFF#64

namespace Tag

def int : Word := 0x02#64
def float : Word := 0x03#64
def decimal : Word := 0x04#64
def string : Word := 0x05#64
def list : Word := 0x0C#64
def mapping : Word := 0x0D#64

/-- The immediate flag, as a part of a tag. -/
def immediate : Word := 0x20#64

end Tag

/-! ## Members -/

/-- A tagged pointer, or the block with an int or a float that has just been allocated for it. -/
inductive Member where
  | tagged (tp : TaggedPtr)
  | newInt (n : Word)
  | newFloat (d : Word)
deriving DecidableEq

def Member.getTag : Member → Word
  | .tagged tp => Runtime.getTag tp
  | .newInt _ => Tag.int
  | .newFloat _ => Tag.float

/-- `tp1 == tp2`. -/
def Member.sameBits : Member → Member → Bool
  | .tagged tp1, .tagged tp2 => tp1 == tp2
  | _, _ => false

/-- From `IMMEDIATE_INT_MIN` to `IMMEDIATE_INT_MAX`. -/
def IsImmediateInt (n : Int) : Prop := -2 ^ 55 ≤ n ∧ n ≤ 2 ^ 55 - 1

instance (n : Int) : Decidable (IsImmediateInt n) := inferInstanceAs (Decidable (_ ∧ _))

def intToTagged (n : Word) : Member :=
  if IsImmediateInt n.toInt then .tagged ((n &&& pointerMask) ||| immediateFlag ||| Tag.int <<< 56)
  else .newInt n

/-- The array of a list, of tagged pointers or of unboxed members. -/
inductive MemberArray where
  | generic (members : List TaggedPtr)
  | ints (members : List Word)
  | bytes (members : List Byte)
  | floats (members : List Word)

def MemberArray.length : MemberArray → Nat
  | .generic members => members.length
  | .ints members => members.length
  | .bytes members => members.length
  | .floats members => members.length

/-- `desc->get`. -/
def MemberArray.get (i : Nat) : MemberArray → Option Member
  | .generic members => members[i]?.map .tagged
  | .ints members => members[i]?.map intToTagged
  | .bytes members => members[i]?.map fun b => intToTagged (b.setWidth 64)
  | .floats members => members[i]?.map .newFloat

/-- The lists and mappings of a heap by their addresses, and its strings. -/
structure Objects (M : Type) where
  store : Store
  list : Nat → Option MemberArray
  mapping : Nat → Option (Mapping Key M)

def Objects.mem (o : Objects M) : Mem := o.store.heap.mem

/-! ## Leaves -/

/-- `*p` for a boxed int or float. -/
def loadBox (m : Mem) : Member → Word
  | .tagged tp => m.loadWord (taggedToPtr tp)
  | .newInt n => n
  | .newFloat d => d

def taggedToInt (m : Mem) : Member → Word
  | .tagged tp =>
    if tp &&& immediateFlag ≠ 0#64 then ((tp &&& pointerMask) <<< 8).sshiftRight 8
    else m.loadWord (taggedToPtr tp)
  | v => loadBox m v

/-- The bits of a NaN: all bits of the exponent, and one of the fraction. -/
def floatIsNaN (d : Word) : Bool :=
  d &&& 0x7FF0000000000000#64 == 0x7FF0000000000000#64 && d &&& 0x000FFFFFFFFFFFFF#64 != 0#64

/-- Zero, with either sign. -/
def floatIsZero (d : Word) : Bool := d &&& 0x7FFFFFFFFFFFFFFF#64 == 0#64

/-- `fcmp oeq`. -/
def fcmpOeq (d1 d2 : Word) : Bool :=
  !floatIsNaN d1 && !floatIsNaN d2 && (d1 == d2 || (floatIsZero d1 && floatIsZero d2))

def balFloatEq (d1 d2 : Word) : Bool := fcmpOeq d1 d2 || (floatIsNaN d1 && floatIsNaN d2)

abbrev DecQuad := Word × Word

def taggedToDecQuad (m : Mem) (tp : TaggedPtr) : DecQuad :=
  (m.loadWord (taggedToPtr tp), m.loadWord (taggedToPtr tp + 8))

/-- Of the classes of the result of `decQuadCompare`, those that are told apart. -/
inductive DecClass where
  | posZero
  | posNormal
  | other
deriving DecidableEq, Repr

def balDecimalCmp (decQuadCompare : DecQuad → DecQuad → DecClass) (m : Mem) (tp1 tp2 : TaggedPtr) :
    Int :=
  match decQuadCompare (taggedToDecQuad m tp1) (taggedToDecQuad m tp2) with
  | .posZero => 0
  | .posNormal => 1
  | .other => -1

/-! ## Lists and mappings -/

/-- The loop of `_bal_list_eq_internal`, with `n` rounds to go. -/
def listEqLoop (eq : Member → Member → Option Bool) (l1 l2 : MemberArray) (i : Nat) :
    Nat → Option Bool
  | 0 => some true
  | n + 1 => do
    if ← eq (← l1.get i) (← l2.get i) then listEqLoop eq l1 l2 (i + 1) n else some false

def balListEqInternal (o : Objects M) (eq : Member → Member → Option Bool) (p1 p2 : TaggedPtr) :
    Option Bool := do
  let l1 ← o.list (taggedToPtr p1)
  let l2 ← o.list (taggedToPtr p2)
  if l2.length ≠ l1.length then some false else listEqLoop eq l1 l2 0 l1.length

/-- The loop of `_bal_mapping_eq_internal`, over the fields that are left. -/
def mappingEqLoop (hashKey : HashKey) (o : Objects M) (eq : Member → Member → Option Bool)
    (m2 : Mapping Key M) : List (MapField Key) → Option Bool
  | [] => some true
  | f :: fields => do
    let j ← m2.lookup (keyEq o.mem) f.key (keyHash hashKey o.mem f.key)
    if j < 0 then some false
    else
      let f2 ← m2.fields[j.toNat]?
      if ← eq (.tagged f.value) (.tagged f2.value) then mappingEqLoop hashKey o eq m2 fields
      else some false

def balMappingEqInternal (hashKey : HashKey) (o : Objects M) (eq : Member → Member → Option Bool)
    (p1 p2 : TaggedPtr) : Option Bool := do
  let m1 ← o.mapping (taggedToPtr p1)
  let m2 ← o.mapping (taggedToPtr p2)
  if m2.fields.length ≠ m1.fields.length then some false
  else mappingEqLoop hashKey o eq m2 m1.fields

abbrev EqStack := List (TaggedPtr × TaggedPtr)

instance : LawfulBEq (TaggedPtr × TaggedPtr) := inferInstance

section Equality

variable (decQuadCompare : DecQuad → DecQuad → DecClass) (hashKey : HashKey) (o : Objects M)

def taggedPtrEq : Nat → EqStack → Member → Member → Option Bool
  | 0, _, _, _ => none
  | fuel + 1, stackPtr, tp1, tp2 =>
    if tp1.sameBits tp2 then some true
    else if tp1.getTag ≠ tp2.getTag then some false
    else if tp1.getTag = Tag.int then some (loadBox o.mem tp1 == loadBox o.mem tp2)
    else if tp1.getTag = Tag.float then some (balFloatEq (loadBox o.mem tp1) (loadBox o.mem tp2))
    else match tp1, tp2 with
      | .tagged p1, .tagged p2 =>
        if getTag p1 = Tag.string then some (taggedStringEqual o.mem p1 p2)
        else if getTag p1 = Tag.decimal then some (balDecimalCmp decQuadCompare o.mem p1 p2 == 0)
        else if getTag p1 = Tag.list then
          if (p1, p2) ∈ stackPtr then some true
          else balListEqInternal o (taggedPtrEq fuel ((p1, p2) :: stackPtr)) p1 p2
        else if getTag p1 = Tag.mapping then
          if (p1, p2) ∈ stackPtr then some true
          else balMappingEqInternal hashKey o (taggedPtrEq fuel ((p1, p2) :: stackPtr)) p1 p2
        else some false
      -- a new block has one of the tags above
      | _, _ => some false

end Equality

/-! ## Immediate ints -/

theorem getLsbD_getTag (tp : TaggedPtr) {i : Nat} (hi : i < 8) :
    (getTag tp).getLsbD i = tp.getLsbD (56 + i) := by
  have hmask : ∀ i < 8, (0xFF#64).getLsbD i = true := by decide
  unfold getTag
  rw [BitVec.getLsbD_and, BitVec.getLsbD_ushiftRight, hmask i hi, Bool.and_true]

theorem immediate_iff_getTag (tp : TaggedPtr) :
    tp &&& immediateFlag ≠ 0#64 ↔ (getTag tp).getLsbD 5 = true := by
  rw [immediate_iff, getLsbD_getTag tp (by omega)]

theorem getTag_intToTagged (n : Word) :
    getTag ((n &&& pointerMask) ||| immediateFlag ||| Tag.int <<< 56) = Tag.int ||| Tag.immediate := by
  have hhigh : (n &&& pointerMask) >>> 56 = 0#64 := by
    rw [BitVec.ushiftRight_and_distrib]
    exact (congrArg (n >>> 56 &&& ·) (by decide)).trans BitVec.and_zero
  unfold getTag
  rw [BitVec.ushiftRight_or_distrib, BitVec.ushiftRight_or_distrib, hhigh]
  decide

/-- The low bits of an immediate int are those of the pointer. -/
theorem getLsbD_immediateInt (tp : TaggedPtr) {i : Nat} (hi : i < 56) :
    (((tp &&& pointerMask) <<< 8).sshiftRight 8).getLsbD i = tp.getLsbD i := by
  have hmask : ∀ i < 56, pointerMask.getLsbD i = true := by decide
  have h64 : ¬ 64 ≤ i := by omega
  have hsum : 8 + i < 64 := by omega
  have hge : ¬ 8 + i < 8 := by omega
  rw [BitVec.getLsbD_sshiftRight, if_pos hsum, BitVec.getLsbD_shiftLeft, BitVec.getLsbD_and]
  simp only [h64, hsum, hge, decide_false, decide_true, Bool.not_false, Bool.true_and,
    Nat.add_sub_cancel_left, hmask i hi, Bool.and_true]

/-- Immediate ints with the same value are the same pointer. -/
theorem eq_of_immediateInt {tp1 tp2 : TaggedPtr} (htag : getTag tp1 = getTag tp2)
    (h : ((tp1 &&& pointerMask) <<< 8).sshiftRight 8 = ((tp2 &&& pointerMask) <<< 8).sshiftRight 8) :
    tp1 = tp2 := by
  refine BitVec.eq_of_getLsbD_eq fun i hi => ?_
  by_cases hlow : i < 56
  · rw [← getLsbD_immediateInt tp1 hlow, ← getLsbD_immediateInt tp2 hlow, h]
  · have hsum : 56 + (i - 56) = i := by omega
    rw [← hsum, ← getLsbD_getTag tp1 (by omega), ← getLsbD_getTag tp2 (by omega), htag]

theorem isImmediateInt_immediateInt (w : Word) : IsImmediateInt ((w <<< 8).sshiftRight 8).toInt := by
  have hlo := BitVec.le_toInt (w <<< 8)
  have hhi := BitVec.toInt_lt (x := w <<< 8)
  rw [BitVec.toInt_sshiftRight, Int.shiftRight_eq_div_pow]
  unfold IsImmediateInt
  omega

theorem immediateInt_eq {n : Word} (h : IsImmediateInt n.toInt) :
    (n <<< 8).sshiftRight 8 = n := by
  have hlo := BitVec.le_toInt n
  have hhi := BitVec.toInt_lt (x := n)
  unfold IsImmediateInt at h
  refine BitVec.eq_of_toInt_eq ?_
  rw [BitVec.toInt_sshiftRight, Int.shiftRight_eq_div_pow, BitVec.toInt_shiftLeft]
  have hmul : ((n.toNat <<< 8 : Nat) : Int).bmod (2 ^ 64) = n.toInt * 256 := by
    rw [Nat.shiftLeft_eq, Int.natCast_mul, ← Int.bmod_mul_bmod, ← BitVec.toInt_eq_toNat_bmod]
    exact Int.bmod_eq_of_le (by omega) (by omega)
  rw [hmul]
  omega

theorem shift_and_pointerMask (w : Word) : (w &&& pointerMask) <<< 8 = w <<< 8 := by
  have hmask : ∀ i < 56, pointerMask.getLsbD i = true := by decide
  refine BitVec.eq_of_getLsbD_eq fun i hi => ?_
  rw [BitVec.getLsbD_shiftLeft, BitVec.getLsbD_shiftLeft, BitVec.getLsbD_and]
  by_cases hlow : i < 8
  · simp only [hlow, decide_true, Bool.not_true, Bool.and_false, Bool.false_and]
  · rw [hmask (i - 8) (by omega), Bool.and_true]

/-- An int is read back. -/
theorem taggedToInt_intToTagged (m : Mem) (n : Word) : taggedToInt m (intToTagged n) = n := by
  unfold intToTagged
  split
  next h =>
    have hflag : ((n &&& pointerMask) ||| immediateFlag ||| Tag.int <<< 56) &&& immediateFlag ≠
        0#64 := by
      rw [immediate_iff_getTag, getTag_intToTagged]
      decide
    have hshift : ((n &&& pointerMask) ||| immediateFlag ||| Tag.int <<< 56) <<< 8 = n <<< 8 := by
      have hzero : immediateFlag <<< 8 = 0#64 ∧ Tag.int <<< 56 <<< 8 = 0#64 := by decide
      rw [BitVec.shiftLeft_or_distrib, BitVec.shiftLeft_or_distrib, shift_and_pointerMask, hzero.1,
        hzero.2, BitVec.or_zero, BitVec.or_zero]
    unfold taggedToInt
    dsimp only
    rw [if_pos hflag, shift_and_pointerMask, hshift]
    exact immediateInt_eq h
  next => rfl

end Nballerina.Runtime
