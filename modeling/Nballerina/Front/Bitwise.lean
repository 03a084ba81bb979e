import Mathlib
import Nballerina.Front.Arithmetic
import Nballerina.Types.BitSetOps
import Nballerina.Types.TypeQueries

/-!
# Bitwise operators on integers (`front/expr.bal`, `front/eval.bal`)

The type that the front end gives to `a op b` for a bitwise `op`. A type of integers is widened to
the smallest of the built-in unsigned types that it is inside of, or else to `int`
(`widenUnsigned`); the type of the result is one of the two widened types. A result in a wrong type
would let a later pass drop a check, so what is proved is that the integer is always in it
(`bitwise_inType`).

Mirroring notes:
- The integers have 64 bits. The right operand of a shift is taken modulo 64, as in the language and
  in the code that `buildBitwiseBinary` (`nback/number.bal`) makes for the instruction.
- The `i` of the loop in `intSubtypeWidenUnsigned` is 8, 16 and 32.
- `isSubtype` is asked of the `Context`; its answers about the data of a basic type are a parameter.
-/

namespace Nballerina.Front

open Nballerina.Types

/-- `s:BinaryBitwiseOp`: `|`, `^`, `&` and the shifts `<<`, `>>` and `>>>`. -/
inductive BinaryBitwiseOp where
  | or
  | xor
  | and
  | shl
  | shr
  | ushr
deriving DecidableEq, Repr

/-- The number of places that a shift moves by. -/
def shiftCount (right : BitVec 64) : Nat := (right &&& 0x3F#64).toNat

def bitwiseBits (op : BinaryBitwiseOp) (left right : BitVec 64) : BitVec 64 :=
  match op with
  | .or => left ||| right
  | .xor => left ^^^ right
  | .and => left &&& right
  | .shr => left.sshiftRight (shiftCount right)
  | .ushr => left >>> shiftCount right
  | .shl => left <<< shiftCount right

/-- `bitwiseEval` -/
def bitwiseEval (op : BinaryBitwiseOp) (left right : Int) : Int :=
  (bitwiseBits op (BitVec.ofInt 64 left) (BitVec.ofInt 64 right)).toInt

/-! ## Types (`types/int.bal`, `types/core.bal`) -/

def intWidthUnsigned (bits : Nat) : SemType := basicSubtype BT_INT (.int [⟨0, 2 ^ bits - 1⟩])

/-- The `none` is a panic. -/
def intSubtypeWidenUnsigned : SubtypeData → Option SubtypeData
  | .bool b => some (.bool b)
  | .proper (.int v) => do
    let first ← v.head?
    if first.min < 0 then return .bool true
    else
      let r ← v.getLast?
      match [8, 16, 32].find? fun i => decide (r.max < 2 ^ i) with
      | some i => return .proper (.int [⟨0, 2 ^ i - 1⟩])
      | none => return .bool true
  | .proper _ => none

def widenUnsigned (t : SemType) : Option SemType :=
  match t with
  | .bits _ => some t
  | .complex _ =>
    if isSubtypeSimple t INT then do
      match ← intSubtypeWidenUnsigned (← subtypeData t BT_INT) with
      | .bool _ => return .bits INT
      | .proper data => return basicSubtype BT_INT data
    else some t

/-! ## Widened types -/

/-- What a type of integers is widened to: one of the built-in unsigned types or `int`. -/
inductive Width where
  | unsigned (bits : Nat) (builtin : bits ∈ [8, 16, 32])
  | int

namespace Width

def type : Width → SemType
  | unsigned bits _ => intWidthUnsigned bits
  | int => .bits INT

/-- The 64 bits of an integer of the type. -/
def Has : Width → BitVec 64 → Prop
  | unsigned bits _, x => x.toNat < 2 ^ bits
  | int, _ => True

def meet : Width → Width → Width
  | int, w => w
  | w, int => w
  | unsigned a ha, unsigned b hb => if a ≤ b then unsigned a ha else unsigned b hb

def join : Width → Width → Width
  | int, _ => int
  | _, int => int
  | unsigned a ha, unsigned b hb => if a ≤ b then unsigned b hb else unsigned a ha

theorem le_thirtyTwo {bits : Nat} (h : bits ∈ [8, 16, 32]) : bits ≤ 32 := by
  simp only [List.mem_cons, List.not_mem_nil, or_false] at h
  omega

theorem two_pow_lt {bits : Nat} (h : bits ∈ [8, 16, 32]) : 2 ^ bits < 2 ^ 63 :=
  Nat.pow_lt_pow_right (by omega) (Nat.lt_of_le_of_lt (le_thirtyTwo h) (by omega))

theorem two_pow_le {a b : Nat} (h : a ≤ b) : (2 : Int) ^ a ≤ 2 ^ b := by
  exact_mod_cast Nat.pow_le_pow_right (by omega : 0 < 2) h

theorem two_pow_pos (a : Nat) : (0 : Int) < 2 ^ a := by
  exact_mod_cast Nat.two_pow_pos a

/-- The integers from 0 that are less than a power of two, as bits. -/
theorem has_unsigned {n : Int} {bits : Nat} (h : bits ∈ [8, 16, 32]) (hlower : 0 ≤ n)
    (hupper : n < 2 ^ bits) : (unsigned bits h).Has (BitVec.ofInt 64 n) := by
  obtain ⟨k, rfl⟩ := Int.eq_ofNat_of_zero_le hlower
  have hk : k < 2 ^ bits := by exact_mod_cast hupper
  have hlt := two_pow_lt h
  show (BitVec.ofInt 64 k).toNat < 2 ^ bits
  rw [BitVec.ofInt_natCast, BitVec.toNat_ofNat, Nat.mod_eq_of_lt (by omega)]
  exact hk

theorem hasInt_type (w : Width) {x : BitVec 64} (h : w.Has x) : HasInt w.type x.toInt := by
  cases w with
  | int => exact hasInt_int _
  | unsigned bits hbits =>
    have hlt : x.toNat < 2 ^ bits := h
    have hpow := two_pow_lt hbits
    have hint : x.toInt = x.toNat := BitVec.toInt_eq_toNat_of_lt (by omega)
    have hbound : ((2 : Int) ^ bits) < 2 ^ 63 := by exact_mod_cast hpow
    have hupper : (x.toNat : Int) < 2 ^ bits := by exact_mod_cast hlt
    have hdata : subtypeData (type (unsigned bits hbits)) BT_INT =
        some (.proper (.int [⟨0, 2 ^ bits - 1⟩])) := by
      have hsome : (0 ||| basicType BT_INT : BasicTypeBitSet) = INT := by decide
      exact subtypeData_intOnly hsome rfl
    refine ⟨⟨_, hdata, (intSubtypeContains_iff _ _).mpr ⟨_, List.mem_singleton_self _, ?_⟩⟩, ?_⟩
    · rw [hint]
      show (0 : Int) ≤ x.toNat ∧ (x.toNat : Int) ≤ 2 ^ bits - 1
      omega
    · intro v hv
      rw [hdata] at hv
      cases hv
      refine normalised_singleton (by decide) ?_ ?_
      · have := two_pow_pos bits
        omega
      · show (2 : Int) ^ bits - 1 ≤ 2 ^ 63 - 1
        omega

end Width

/-- The least of the built-in unsigned types that a range of integers fits. -/
theorem find_width {n upper : Int} (hlower : 0 ≤ n) (hupper : n ≤ upper) {bits : Nat}
    (h : [8, 16, 32].find? (fun i => decide (upper < 2 ^ i)) = some bits) :
    ∃ hbits, (Width.unsigned bits hbits).Has (BitVec.ofInt 64 n) := by
  have hlt : upper < 2 ^ bits := of_decide_eq_true (@List.find?_some _ (fun i => decide (upper < 2 ^ i)) _ _ h)
  exact ⟨List.mem_of_find?_eq_some h, Width.has_unsigned _ hlower (Int.lt_of_le_of_lt hupper hlt)⟩

theorem intSubtypeWidenUnsigned_spec {v : List Range} {n : Int} (hv : Normalised v)
    (hn : rangesHave v n) :
    intSubtypeWidenUnsigned (.proper (.int v)) = some (.bool true) ∨
      ∃ bits hbits, intSubtypeWidenUnsigned (.proper (.int v)) =
        some (.proper (.int [⟨0, 2 ^ bits - 1⟩])) ∧
          (Width.unsigned bits hbits).Has (BitVec.ofInt 64 n) := by
  obtain ⟨lower, hlower, hle⟩ := head_min_le hv hn
  obtain ⟨upper, hupper, hge⟩ := le_last_max hv hn
  obtain ⟨first, hfirst, rfl⟩ := Option.map_eq_some_iff.mp hlower
  obtain ⟨last, hlast, rfl⟩ := Option.map_eq_some_iff.mp hupper
  unfold intSubtypeWidenUnsigned
  dsimp only
  rw [hfirst, hlast]
  dsimp only [Option.bind_eq_bind, Option.bind_some]
  by_cases hneg : first.min < 0
  · exact Or.inl (if_pos hneg)
  · rw [if_neg hneg]
    cases hfind : [8, 16, 32].find? fun i => decide (last.max < 2 ^ i) with
    | none => exact Or.inl rfl
    | some bits =>
      obtain ⟨hbits, hhas⟩ := find_width (by omega : 0 ≤ n) hge hfind
      exact Or.inr ⟨bits, hbits, rfl, hhas⟩

/-- An integer of a type is in what the type is widened to. -/
theorem widenUnsigned_spec {t : SemType} {n : Int} (hint : isSubtypeSimple t INT = true)
    (h : HasInt t n) :
    ∃ w : Width, widenUnsigned t = some w.type ∧ w.Has (BitVec.ofInt 64 n) := by
  obtain ⟨data, hdata, hcontains⟩ := h.mem
  cases t with
  | bits b =>
    have hbit : b.getLsbD BT_INT.val = true := by
      cases hdata
      have hb : (b &&& basicType BT_INT != 0) = true := Option.some.inj hcontains
      rw [← includes_eq]
      exact hb
    have hsub : b &&& ~~~INT = 0 := beq_iff_eq.mp hint
    have hbits : b = INT := by
      refine BitVec.eq_of_getLsbD_eq fun i hi => ?_
      rw [show INT = BitVec.twoPow 32 BT_INT.val from basicType_eq_twoPow BT_INT, BitVec.getLsbD_twoPow]
      by_cases hcode : BT_INT.val = i
      · subst hcode
        rw [hbit]
        simp [hi]
      · have hzero := congrArg (fun x => x.getLsbD i) hsub
        rw [show INT = BitVec.twoPow 32 BT_INT.val from basicType_eq_twoPow BT_INT] at hzero
        have himp : b[i] = true → i = BT_INT.val := by simpa [hi] using hzero
        have hfalse : b.getLsbD i = false := by
          rw [BitVec.getLsbD_eq_getElem hi]
          exact Bool.eq_false_iff.mpr fun htrue => hcode (himp htrue).symm
        rw [hfalse]
        simp [hcode]
    exact ⟨.int, congrArg (fun b => some (SemTypeOf.bits b)) hbits, trivial⟩
  | complex c =>
    unfold widenUnsigned
    dsimp only
    rw [if_pos hint, hdata]
    obtain rfl | ⟨v, rfl, hv⟩ := intSubtypeContains_cases hcontains
    · exact ⟨.int, rfl, trivial⟩
    · obtain hwhole | ⟨bits, hbits, hwiden, hhas⟩ :=
        intSubtypeWidenUnsigned_spec (h.normalised v hdata) hv
      · refine ⟨.int, ?_, trivial⟩
        dsimp only [Option.bind_eq_bind, Option.bind_some]
        rw [hwhole]
        rfl
      · refine ⟨.unsigned bits hbits, ?_, hhas⟩
        dsimp only [Option.bind_eq_bind, Option.bind_some]
        rw [hwiden]
        rfl

/-! ## Ranges from 0 -/

theorem rangeListUnion_zero {a b : Int} (ha : 0 ≤ a) (hb : 0 ≤ b) :
    rangeListUnion [⟨0, a⟩] [⟨0, b⟩] = [⟨0, max a b⟩] := by
  have hunion : rangeUnion ⟨0, a⟩ ⟨0, b⟩ = .range ⟨0, max a b⟩ := by
    unfold rangeUnion
    rw [if_neg (fun h : a < 0 ∧ a + 1 ≠ 0 => absurd h.1 (by omega)),
      if_neg (fun h : b < 0 ∧ b + 1 ≠ 0 => absurd h.1 (by omega))]
    rfl
  unfold rangeListUnion rangeListUnionLoop
  rw [hunion]
  unfold rangeListUnionLoop
  rfl

theorem rangeListIntersect_zero {a b : Int} (ha : 0 ≤ a) (hb : 0 ≤ b) :
    rangeListIntersect [⟨0, a⟩] [⟨0, b⟩] = [⟨0, min a b⟩] := by
  have hintersect : rangeIntersect ⟨0, a⟩ ⟨0, b⟩ = .range ⟨0, min a b⟩ := by
    unfold rangeIntersect
    rw [if_neg (fun h : a < 0 => absurd h (by omega)), if_neg (fun h : b < 0 => absurd h (by omega))]
    rfl
  unfold rangeListIntersect
  rw [hintersect]
  unfold rangeListIntersect
  rfl

section Operations

variable [BddIdentity]

theorem ops_int : ops BT_INT =
    ⟨intSubtypeUnion, intSubtypeIntersect, none, intSubtypeComplement⟩ := rfl

namespace Width

theorem union_type (w1 w2 : Width) : union ops w1.type w2.type = some (w1.join w2).type := by
  cases w1 with
  | int =>
    cases w2 with
    | int => rfl
    | unsigned => exact (union_basicSubtype_all BT_INT _).2
  | unsigned a ha =>
    cases w2 with
    | int => exact (union_basicSubtype_all BT_INT _).1
    | unsigned b hb =>
      have hapos := two_pow_pos a
      have hbpos := two_pow_pos b
      have hdata : (ops BT_INT).union (.int [⟨0, 2 ^ a - 1⟩]) (.int [⟨0, 2 ^ b - 1⟩]) =
          some (.proper (.int [⟨0, max (2 ^ a - 1) (2 ^ b - 1)⟩])) := by
        rw [ops_int]
        dsimp only [intSubtypeUnion]
        rw [rangeListUnion_zero (by omega) (by omega), if_neg]
        intro h
        cases h
      refine (union_basicSubtype hdata).trans (congrArg some ?_)
      unfold join
      dsimp only
      split
      next hle => rw [max_eq_right (Int.sub_le_sub_right (two_pow_le hle) 1)]; rfl
      next hle => rw [max_eq_left (Int.sub_le_sub_right (two_pow_le (by omega)) 1)]; rfl

theorem intersect_type (w1 w2 : Width) : intersect ops w1.type w2.type = some (w1.meet w2).type := by
  cases w1 with
  | int =>
    cases w2 with
    | int => rfl
    | unsigned => exact (intersect_basicSubtype_all BT_INT _).2
  | unsigned a ha =>
    cases w2 with
    | int => exact (intersect_basicSubtype_all BT_INT _).1
    | unsigned b hb =>
      have hapos := two_pow_pos a
      have hbpos := two_pow_pos b
      have hdata : (ops BT_INT).intersect (.int [⟨0, 2 ^ a - 1⟩]) (.int [⟨0, 2 ^ b - 1⟩]) =
          some (.proper (.int [⟨0, min (2 ^ a - 1) (2 ^ b - 1)⟩])) := by
        rw [ops_int]
        dsimp only [intSubtypeIntersect]
        rw [rangeListIntersect_zero (by omega) (by omega)]
        rfl
      refine (intersect_basicSubtype hdata).trans (congrArg some ?_)
      unfold meet
      dsimp only
      split
      next hle => rw [min_eq_left (Int.sub_le_sub_right (two_pow_le hle) 1)]; rfl
      next hle => rw [min_eq_right (Int.sub_le_sub_right (two_pow_le (by omega)) 1)]; rfl

theorem complement_thirtyTwo : (ops BT_INT).complement (.int [⟨0, 2 ^ 32 - 1⟩]) =
    some (.proper (.int [⟨intMinValue, -1⟩, ⟨2 ^ 32, intMaxValue⟩])) := rfl

/-- The unsigned types are all inside of the widest. -/
theorem isSubtype_unsigned (queries : TypeQueries) (bits : Nat) (h : bits ∈ [8, 16, 32]) :
    queries.isSubtype (unsigned bits h).type (intWidthUnsigned 32) = some true := by
  have hpos := two_pow_pos bits
  have hle : (2 : Int) ^ bits ≤ 2 ^ 32 := two_pow_le (le_thirtyTwo h)
  have hempty : rangeListIntersect [⟨0, 2 ^ bits - 1⟩] [⟨intMinValue, -1⟩, ⟨2 ^ 32, intMaxValue⟩] = [] := by
    have hafter : rangeIntersect ⟨0, 2 ^ bits - 1⟩ ⟨intMinValue, -1⟩ = .after := by
      unfold rangeIntersect
      rw [if_neg (fun h : (2 : Int) ^ bits - 1 < intMinValue => ?_)]
      · rfl
      · have hmin : intMinValue < 0 := by decide
        omega
    have hbefore : rangeIntersect ⟨0, 2 ^ bits - 1⟩ ⟨2 ^ 32, intMaxValue⟩ = .before := by
      unfold rangeIntersect
      exact if_pos (by show (2 : Int) ^ bits - 1 < 2 ^ 32; omega)
    unfold rangeListIntersect
    rw [hafter]
    dsimp only
    unfold rangeListIntersect
    rw [hbefore]
    dsimp only
    unfold rangeListIntersect
    rfl
  have hdata : subtypeDiff ops BT_INT (.int [⟨0, 2 ^ bits - 1⟩]) (.int [⟨0, 2 ^ 32 - 1⟩]) =
      some (.bool false) := by
    unfold subtypeDiff
    rw [complement_thirtyTwo, ops_int]
    dsimp only [Option.bind_eq_bind, Option.bind_some, intSubtypeIntersect]
    rw [hempty]
    rfl
  unfold TypeQueries.isSubtype
  rw [show diff ops (unsigned bits h).type (intWidthUnsigned 32) = some (.bits 0) from
    diff_basicSubtype hdata]
  rfl

end Width

end Operations

/-! ## Results -/

namespace Width

variable {w1 w2 : Width} {x y : BitVec 64}

theorem has_and (hx : w1.Has x) (hy : w2.Has y) : (w1.meet w2).Has (x &&& y) := by
  cases w1 with
  | int =>
    cases w2 with
    | int => exact trivial
    | unsigned b _ =>
      show (x &&& y).toNat < 2 ^ b
      rw [BitVec.toNat_and]
      exact Nat.and_lt_two_pow _ hy
  | unsigned a _ =>
    have hleft : (x &&& y).toNat < 2 ^ a := by
      rw [BitVec.toNat_and, Nat.and_comm]
      exact Nat.and_lt_two_pow _ hx
    cases w2 with
    | int => exact hleft
    | unsigned b _ =>
      unfold meet
      dsimp only
      split
      next => exact hleft
      next =>
        show (x &&& y).toNat < 2 ^ b
        rw [BitVec.toNat_and]
        exact Nat.and_lt_two_pow _ hy

/-- The wider type has what either of them has. -/
theorem has_join (hx : w1.Has x) (hy : w2.Has y) : (w1.join w2).Has x ∧ (w1.join w2).Has y := by
  cases w1 with
  | int => exact ⟨trivial, trivial⟩
  | unsigned a _ =>
    cases w2 with
    | int => exact ⟨trivial, trivial⟩
    | unsigned b _ =>
      have hxa : x.toNat < 2 ^ a := hx
      have hyb : y.toNat < 2 ^ b := hy
      unfold join
      dsimp only
      split
      next hle => exact ⟨Nat.lt_of_lt_of_le hxa (Nat.pow_le_pow_right (by omega) hle), hyb⟩
      next hle => exact ⟨hxa, Nat.lt_of_lt_of_le hyb (Nat.pow_le_pow_right (by omega) (by omega))⟩

theorem has_or {w : Width} (hx : w.Has x) (hy : w.Has y) : w.Has (x ||| y) := by
  cases w with
  | int => trivial
  | unsigned a _ =>
    show (x ||| y).toNat < 2 ^ a
    rw [BitVec.toNat_or]
    exact Nat.or_lt_two_pow hx hy

theorem has_xor {w : Width} (hx : w.Has x) (hy : w.Has y) : w.Has (x ^^^ y) := by
  cases w with
  | int => trivial
  | unsigned a _ =>
    show (x ^^^ y).toNat < 2 ^ a
    rw [BitVec.toNat_xor]
    exact Nat.xor_lt_two_pow hx hy

/-- What is not greater has a type too. -/
theorem has_of_le {w : Width} (hx : w.Has x) (hle : y.toNat ≤ x.toNat) : w.Has y := by
  cases w with
  | int => trivial
  | unsigned a _ => exact Nat.lt_of_le_of_lt hle hx

end Width

theorem toNat_ushr_le (x : BitVec 64) (places : Nat) : (x >>> places).toNat ≤ x.toNat := by
  rw [BitVec.toNat_ushiftRight, Nat.shiftRight_eq_div_pow]
  exact Nat.div_le_self ..

theorem toNat_shr_le {x : BitVec 64} (hx : x.toNat < 2 ^ 63) (places : Nat) :
    (x.sshiftRight places).toNat ≤ x.toNat := by
  have hmsb : x.msb = false := BitVec.msb_eq_false_iff_two_mul_lt.mpr (by omega)
  rw [BitVec.sshiftRight_eq_of_msb_false hmsb]
  exact toNat_ushr_le x places

/-- A shift to the right stays inside of a widened type. -/
theorem Width.has_shr {w : Width} {x : BitVec 64} (hx : w.Has x) (places : Nat) :
    w.Has (x.sshiftRight places) := by
  cases w with
  | int => trivial
  | unsigned a ha =>
    have hlt : x.toNat < 2 ^ a := hx
    have hpow := two_pow_lt ha
    exact has_of_le hx (toNat_shr_le (by omega) places)

/-! ## Code generation -/

/-- `bir:IntBitwiseBinaryInsn` -/
structure IntBitwiseBinaryInsn where
  op : BinaryBitwiseOp
  pos : Int
  lhs : IntOperand
  rhs : IntOperand
  result : Nat
deriving DecidableEq

/-- The operand that has the result, and the instruction added for it. -/
structure BitwiseEffect where
  result : IntOperand
  insn : Option IntBitwiseBinaryInsn
deriving DecidableEq

section CodeGen

variable [BddIdentity] (queries : TypeQueries)

/-- The type of the result; the `none` is a panic. -/
def bitwiseResultType (op : BinaryBitwiseOp) (left right : SemType) : Option SemType := do
  let leftWidenedType ← widenUnsigned left
  let rightWidenedType ← widenUnsigned right
  match op with
  | .shl => return .bits INT
  | .shr | .ushr =>
    if ← queries.isSubtype leftWidenedType (intWidthUnsigned 32) then return leftWidenedType
    else return .bits INT
  | .and => intersect ops leftWidenedType rightWidenedType
  | .or | .xor => union ops leftWidenedType rightWidenedType

def codeGenBitwiseBinaryExpr (op : BinaryBitwiseOp) (pos : Int) (lhs rhs : IntOperand)
    (result : Nat) : Except CodeGenError BitwiseEffect := do
  let (leftValue, leftFlags) ← intOperandValue lhs
  let (rightValue, rightFlags) ← intOperandValue rhs
  let resultFlags := leftFlags &&& rightFlags
  match bitwiseResultType queries op lhs.semType rhs.semType with
  | none => .error .panic
  | some resultType =>
    if resultFlags ≠ 0 then
      let value := bitwiseEval op leftValue rightValue
      let semType := if resultFlags &&& VALUE_SINGLE_SHAPE ≠ 0 then intConst value else resultType
      return ⟨.const value semType, none⟩
    else
      return ⟨.register result resultType, some { op, pos, lhs, rhs, result }⟩

/-- The type of a shift to the right. -/
theorem widened_or_int {w : Width} {x : BitVec 64} (hx : w.Has x) :
    ∃ w' : Width, (do
      if ← queries.isSubtype w.type (intWidthUnsigned 32) then return w.type
      else return .bits INT) = some w'.type ∧ w'.Has x := by
  cases w with
  | int =>
    refine ⟨.int, ?_, trivial⟩
    obtain ⟨answer, hanswer⟩ : ∃ answer,
        queries.isSubtype Width.int.type (intWidthUnsigned 32) = some answer := by
      unfold TypeQueries.isSubtype
      rw [show diff ops Width.int.type (intWidthUnsigned 32) = _ from
        diff_basicSubtype_all Width.complement_thirtyTwo]
      exact ⟨_, rfl⟩
    rw [hanswer]
    cases answer <;> rfl
  | unsigned bits hbits =>
    rw [Width.isSubtype_unsigned queries bits hbits]
    exact ⟨.unsigned bits hbits, rfl, hx⟩

/-- The bits of the result are those of an integer of the result type. -/
theorem bitwiseResultType_spec (op : BinaryBitwiseOp) {left right : SemType} {l r : Int}
    (hleft : isSubtypeSimple left INT = true) (hright : isSubtypeSimple right INT = true)
    (hl : HasInt left l) (hr : HasInt right r) :
    ∃ w : Width, bitwiseResultType queries op left right = some w.type ∧
      w.Has (bitwiseBits op (BitVec.ofInt 64 l) (BitVec.ofInt 64 r)) := by
  obtain ⟨w1, hw1, hhas1⟩ := widenUnsigned_spec hleft hl
  obtain ⟨w2, hw2, hhas2⟩ := widenUnsigned_spec hright hr
  unfold bitwiseResultType
  rw [hw1, hw2]
  dsimp only [Option.bind_eq_bind, Option.bind_some]
  obtain ⟨hjoin1, hjoin2⟩ := Width.has_join hhas1 hhas2
  cases op with
  | and => exact ⟨w1.meet w2, Width.intersect_type w1 w2, Width.has_and hhas1 hhas2⟩
  | or => exact ⟨w1.join w2, Width.union_type w1 w2, Width.has_or hjoin1 hjoin2⟩
  | xor => exact ⟨w1.join w2, Width.union_type w1 w2, Width.has_xor hjoin1 hjoin2⟩
  | shl => exact ⟨.int, rfl, trivial⟩
  | shr => exact widened_or_int queries (Width.has_shr hhas1 _)
  | ushr => exact widened_or_int queries (Width.has_of_le hhas1 (toNat_ushr_le _ _))

omit [BddIdentity] in
theorem intConst_hasInt_toInt (x : BitVec 64) : HasInt (intConst x.toInt) x.toInt := by
  refine hasInt_intConst ⟨?_, ?_⟩
  · have hlower := BitVec.le_toInt x
    show -2 ^ 63 ≤ x.toInt
    simpa using hlower
  · have hupper := BitVec.toInt_lt (x := x)
    show x.toInt ≤ 2 ^ 63 - 1
    omega

/-- **The result of a bitwise operator is in the type that the front end gives it**, and is the
constant that is computed where both operands are known. -/
theorem bitwise_inType (op : BinaryBitwiseOp) (pos : Int) (lhs rhs : IntOperand) (result : Nat)
    (l r : Int) (hlhs : isSubtypeSimple lhs.semType INT = true)
    (hrhs : isSubtypeSimple rhs.semType INT = true) (hl : HasValue lhs l) (hr : HasValue rhs r) :
    ∃ effect, codeGenBitwiseBinaryExpr queries op pos lhs rhs result = .ok effect ∧
      HasValue effect.result (bitwiseEval op l r) := by
  obtain ⟨leftValue, leftFlags, hleft, hleftValue⟩ := intOperandValue_spec hl
  obtain ⟨rightValue, rightFlags, hright, hrightValue⟩ := intOperandValue_spec hr
  obtain ⟨w, hw, hhas⟩ := bitwiseResultType_spec queries op hlhs hrhs hl.hasInt hr.hasInt
  have hresult : HasInt w.type (bitwiseEval op l r) := w.hasInt_type hhas
  unfold codeGenBitwiseBinaryExpr
  rw [hleft, hright]
  dsimp only [bind, Except.bind]
  rw [hw]
  dsimp only
  by_cases hflags : leftFlags &&& rightFlags ≠ 0
  · rw [if_pos hflags]
    obtain ⟨rfl, _⟩ := hleftValue fun h => hflags (by rw [h]; exact BitVec.zero_and)
    obtain ⟨rfl, _⟩ := hrightValue fun h => hflags (by rw [h]; exact BitVec.and_zero)
    refine ⟨_, rfl, ?_, fun value semType hvalue => by cases hvalue; rfl⟩
    show HasInt (if _ then intConst _ else w.type) _
    split
    next => exact intConst_hasInt_toInt _
    next => exact hresult
  · rw [if_neg hflags]
    exact ⟨_, rfl, hresult, fun value semType hvalue => by cases hvalue⟩

end CodeGen

/-- `200 >> n`, with an `n` of which nothing is known. -/
theorem bitwise_inType_shr :
    let _ := BddIdentity.shared
    ∃ effect, codeGenBitwiseBinaryExpr ⟨fun _ _ => false⟩ .shr 0 (.register 0 (intConst 200))
        (.register 1 (.bits INT)) 2 = .ok effect ∧ HasValue effect.result (bitwiseEval .shr 200 (-1)) := by
  intro _
  exact bitwise_inType ⟨fun _ _ => false⟩ .shr 0 (.register 0 (intConst 200)) (.register 1 (.bits INT)) 2
    200 (-1) (by decide) (by decide) ⟨hasInt_intConst (by decide), fun value semType h => by cases h⟩
    ⟨hasInt_int _, fun value semType h => by cases h⟩

end Nballerina.Front
