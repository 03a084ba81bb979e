import Mathlib.Tactic.NormNum
import Mathlib.Tactic.Positivity
import Nballerina.Lib.SortedSearch
import Nballerina.Runtime.Compare
import Nballerina.Runtime.Values

/-!
# The order of floats

Mirroring `floatSubtypeContainsFloat` and `floatListContains` of `runtime/float.c`.

The bits of a float without its sign are in the order of its magnitude (`strictMono_floatScaled`), so that
`fcmp olt` compares values (`fcmpOlt_iff`). The list of a subtype is sorted by value with NaN at its front, which is
why the search looks there first.
-/

namespace Nballerina.Runtime

open Nballerina.Lib Nballerina.Types

/-! ## Magnitudes -/

/-- What the bits of a number without its sign stand for, as a multiple of `2 ^ -1075`. -/
def floatScaled (magnitude : Nat) : Nat :=
  if magnitude / 2 ^ 52 = 0 then 2 * (magnitude % 2 ^ 52)
  else (2 ^ 52 + magnitude % 2 ^ 52) * 2 ^ (magnitude / 2 ^ 52)

theorem floatScaled_of_parts {e f : Nat} (hf : f < 2 ^ 52) :
    floatScaled (2 ^ 52 * e + f) = if e = 0 then 2 * f else (2 ^ 52 + f) * 2 ^ e := by
  have hdiv : (2 ^ 52 * e + f) / 2 ^ 52 = e := by omega
  have hmod : (2 ^ 52 * e + f) % 2 ^ 52 = f := by omega
  rw [floatScaled, hdiv, hmod]

/-- The next number has a larger fraction, or the least fraction with the next exponent. -/
theorem strictMono_floatScaled : StrictMono floatScaled := by
  refine strictMono_nat_of_lt_succ fun m => ?_
  obtain ⟨e, f, hf, rfl⟩ : ∃ e f, f < 2 ^ 52 ∧ m = 2 ^ 52 * e + f :=
    ⟨m / 2 ^ 52, m % 2 ^ 52, Nat.mod_lt _ (by omega), (Nat.div_add_mod _ _).symm⟩
  rw [floatScaled_of_parts hf]
  have hpow : 0 < 2 ^ e := Nat.two_pow_pos e
  rcases Nat.lt_or_ge (f + 1) (2 ^ 52) with hlt | hge
  · rw [Nat.add_assoc, floatScaled_of_parts hlt]
    split
    next => omega
    next => exact Nat.mul_lt_mul_of_pos_right (by omega) hpow
  · rw [show 2 ^ 52 * e + f + 1 = 2 ^ 52 * (e + 1) + 0 by omega, floatScaled_of_parts (by omega),
      if_neg (Nat.succ_ne_zero e), Nat.add_zero, Nat.pow_succ]
    split
    next h =>
      rw [h]
      omega
    next =>
      calc (2 ^ 52 + f) * 2 ^ e < (2 ^ 52 * 2) * 2 ^ e := Nat.mul_lt_mul_of_pos_right (by omega) hpow
        _ = 2 ^ 52 * (2 ^ e * 2) := by rw [Nat.mul_assoc, Nat.mul_comm 2]

theorem floatScaled_zero : floatScaled 0 = 0 := by decide

/-- The same for numbers of either sign. -/
def signedScaled (k : Int) : Int := k.sign * floatScaled k.natAbs

theorem signedScaled_natCast (n : Nat) : signedScaled n = floatScaled n := by
  cases n with
  | zero => rw [floatScaled_zero]; rfl
  | succ n =>
    rw [signedScaled, Int.natAbs_natCast, Int.sign_eq_one_of_pos (by omega), one_mul]

theorem signedScaled_neg (k : Int) : signedScaled (-k) = -signedScaled k := by
  rw [signedScaled, signedScaled, Int.natAbs_neg, Int.sign_neg, neg_mul]

theorem strictMono_signedScaled : StrictMono signedScaled := by
  have hnat : ∀ {a b : Nat}, a < b → signedScaled a < signedScaled b := by
    intro a b h
    rw [signedScaled_natCast, signedScaled_natCast]
    exact Int.ofNat_lt.mpr (strictMono_floatScaled h)
  have hnonneg : ∀ n : Nat, 0 ≤ signedScaled n := fun n => by
    rw [signedScaled_natCast]
    exact Int.natCast_nonneg _
  intro a b h
  obtain ⟨m, rfl | rfl⟩ := Int.eq_nat_or_neg a
  · obtain ⟨n, rfl⟩ := Int.eq_ofNat_of_zero_le (a := b) (by omega)
    exact hnat (Int.ofNat_lt.mp h)
  · obtain ⟨n, rfl | rfl⟩ := Int.eq_nat_or_neg b
    · rw [signedScaled_neg]
      rcases Nat.eq_zero_or_pos m with rfl | hm
      · rw [signedScaled_natCast 0, floatScaled_zero]
        have := hnat (show 0 < n by omega)
        rw [signedScaled_natCast 0, floatScaled_zero] at this
        simpa using this
      · have hpos := hnat hm
        have hn := hnonneg n
        rw [signedScaled_natCast 0, floatScaled_zero] at hpos
        omega
    · rw [signedScaled_neg, signedScaled_neg]
      exact neg_lt_neg (hnat (by omega))

/-! ## The bits of a float -/

section Bits

variable (d : Word)

def floatMagnitude : Nat := (d &&& 0x7FFFFFFFFFFFFFFF#64).toNat

theorem floatMagnitude_eq : floatMagnitude d = d.toNat % 2 ^ 63 := by
  rw [floatMagnitude, BitVec.toNat_and, show (0x7FFFFFFFFFFFFFFF#64).toNat = 2 ^ 63 - 1 from rfl,
    Nat.and_two_pow_sub_one_eq_mod]

theorem floatMagnitude_lt : floatMagnitude d < 2 ^ 63 := by
  rw [floatMagnitude_eq]
  exact Nat.mod_lt _ (by omega)

theorem floatFraction_eq : (d &&& 0x000FFFFFFFFFFFFF#64).toNat = floatMagnitude d % 2 ^ 52 := by
  rw [floatMagnitude_eq, BitVec.toNat_and, show (0x000FFFFFFFFFFFFF#64).toNat = 2 ^ 52 - 1 from rfl,
    Nat.and_two_pow_sub_one_eq_mod]
  omega

theorem floatExponent_eq : ((d >>> 52) &&& 0x7FF#64).toNat = floatMagnitude d / 2 ^ 52 := by
  rw [floatMagnitude_eq, BitVec.toNat_and, show (0x7FF#64).toNat = 2 ^ 11 - 1 from rfl,
    Nat.and_two_pow_sub_one_eq_mod, BitVec.toNat_ushiftRight, Nat.shiftRight_eq_div_pow]
  omega

/-- The bits of the exponent, where they stand. -/
theorem floatExponentBits_eq :
    (d &&& 0x7FF0000000000000#64).toNat = 2 ^ 52 * (floatMagnitude d / 2 ^ 52) := by
  have hdisjoint : (d &&& 0x7FF0000000000000#64) &&& (d &&& 0x000FFFFFFFFFFFFF#64) = 0#64 := by
    rw [BitVec.and_assoc, ← BitVec.and_assoc _ d, BitVec.and_comm _ d, BitVec.and_assoc d,
      show (0x7FF0000000000000#64 : Word) &&& 0x000FFFFFFFFFFFFF#64 = 0#64 from by decide]
    simp
  have hsum : (d &&& 0x7FF0000000000000#64) + (d &&& 0x000FFFFFFFFFFFFF#64) = d &&& 0x7FFFFFFFFFFFFFFF#64 := by
    rw [BitVec.add_eq_or_of_and_eq_zero _ _ hdisjoint, ← BitVec.and_or_distrib_left]
    rfl
  have hnat := congrArg BitVec.toNat hsum
  have hle : (d &&& 0x7FF0000000000000#64).toNat ≤ 0x7FF0000000000000 := Nat.and_le_right
  have hf := floatFraction_eq d
  rw [BitVec.toNat_add, hf] at hnat
  change _ = floatMagnitude d at hnat
  have hlt := floatMagnitude_lt d
  omega

theorem floatIsNaN_iff : floatIsNaN d = true ↔ 0x7FF0000000000000 < floatMagnitude d := by
  have hlt := floatMagnitude_lt d
  unfold floatIsNaN
  rw [Bool.and_eq_true, beq_iff_eq, bne_iff_ne, ← BitVec.toNat_inj, ← BitVec.toNat_ne_iff_ne,
    floatExponentBits_eq, floatFraction_eq]
  show 2 ^ 52 * (floatMagnitude d / 2 ^ 52) = 0x7FF0000000000000 ∧ floatMagnitude d % 2 ^ 52 ≠ 0 ↔ _
  omega

theorem floatIsZero_iff : floatIsZero d = true ↔ floatMagnitude d = 0 := by
  unfold floatIsZero
  rw [beq_iff_eq, ← BitVec.toNat_inj]
  exact Iff.rfl

theorem floatKey_eq : floatKey d = if d.msb then -(floatMagnitude d : Int) else floatMagnitude d := rfl

end Bits

/-! ## Values -/

/-- The value of a float that is not NaN, from where it stands in the order of their bits. -/
def floatOfKey (k : Int) : FloatValue :=
  if k.natAbs = 0x7FF0000000000000 then (if k < 0 then .negInfinity else .posInfinity)
  else .finite (signedScaled k / 2 ^ 1075)

theorem floatValue_of_nan {d : Word} (h : floatIsNaN d = true) : floatValue d = .nan := by
  have hmagnitude := (floatIsNaN_iff d).mp h
  have hlt := floatMagnitude_lt d
  unfold floatValue
  dsimp only
  rw [floatExponent_eq, floatFraction_eq, if_pos (by omega), if_pos (by omega)]

theorem floatValue_eq {d : Word} (h : floatIsNaN d = false) : floatValue d = floatOfKey (floatKey d) := by
  have hmagnitude : ¬ 0x7FF0000000000000 < floatMagnitude d := by
    rw [← floatIsNaN_iff, h]
    exact Bool.false_ne_true
  have hnatAbs : (floatKey d).natAbs = floatMagnitude d := by
    rw [floatKey_eq]
    split
    next => rw [Int.natAbs_neg, Int.natAbs_natCast]
    next => rw [Int.natAbs_natCast]
  have hparts : floatMagnitude d =
      2 ^ 52 * (floatMagnitude d / 2 ^ 52) + floatMagnitude d % 2 ^ 52 := (Nat.div_add_mod _ _).symm
  have hsigned : (signedScaled (floatKey d) : Rat) =
      (if d.msb then -1 else 1) * (floatScaled (floatMagnitude d) : Rat) := by
    rw [floatKey_eq]
    split
    next => rw [signedScaled_neg, signedScaled_natCast]; push_cast; ring
    next => rw [signedScaled_natCast]; push_cast; ring
  unfold floatValue floatOfKey
  dsimp only
  rw [floatExponent_eq, floatFraction_eq, hnatAbs]
  by_cases hinf : floatMagnitude d = 0x7FF0000000000000
  · have hneg : floatKey d < 0 ↔ d.msb = true := by
      rw [floatKey_eq, hinf]
      cases d.msb <;> decide
    rw [if_pos (by omega), if_neg (by omega), if_pos hinf]
    simp only [hneg]
  · rw [if_neg (by omega), if_neg hinf, hsigned]
    by_cases hsub : floatMagnitude d / 2 ^ 52 = 0
    · rw [if_pos hsub, floatScaled, if_pos hsub]
      refine congrArg FloatValue.finite ?_
      push_cast
      rw [show (2 : Rat) ^ 1075 = 2 ^ 1074 * 2 from pow_succ 2 1074]
      field_simp
    · rw [if_neg hsub, floatScaled, if_neg hsub]
      refine congrArg FloatValue.finite ?_
      push_cast
      generalize (2 : Rat) ^ 1075 = scale
      ring

theorem floatValue_nan_iff (d : Word) : floatValue d = .nan ↔ floatIsNaN d = true := by
  refine ⟨fun h => ?_, floatValue_of_nan⟩
  by_contra hnot
  rw [Bool.not_eq_true] at hnot
  rw [floatValue_eq hnot, floatOfKey] at h
  split at h
  next =>
    split at h
    next => cases h
    next => cases h
  next => cases h

theorem floatKey_bounds {d : Word} (h : floatIsNaN d = false) :
    -0x7FF0000000000000 ≤ floatKey d ∧ floatKey d ≤ 0x7FF0000000000000 := by
  have hmagnitude : ¬ 0x7FF0000000000000 < floatMagnitude d := by
    rw [← floatIsNaN_iff, h]
    exact Bool.false_ne_true
  rw [floatKey_eq]
  split <;> omega

/-- Infinities are before and after all other values, which are in the order of their keys. -/
theorem key_floatOfKey_lt {a b : Int} (ha : -0x7FF0000000000000 ≤ a) (hb : b ≤ 0x7FF0000000000000) (hab : a < b) :
    (floatOfKey a).key < (floatOfKey b).key := by
  unfold floatOfKey
  by_cases hfirst : a.natAbs = 0x7FF0000000000000
  · rw [if_pos hfirst, if_pos (by omega)]
    split
    next =>
      rw [if_neg (by omega)]
      exact Prod.Lex.toLex_lt_toLex.mpr (.inl (show 1 < 3 by omega))
    next => exact Prod.Lex.toLex_lt_toLex.mpr (.inl (show 1 < 2 by omega))
  · rw [if_neg hfirst]
    by_cases hlast : b.natAbs = 0x7FF0000000000000
    · rw [if_pos hlast, if_neg (by omega)]
      exact Prod.Lex.toLex_lt_toLex.mpr (.inl (show 2 < 3 by omega))
    · rw [if_neg hlast]
      refine Prod.Lex.toLex_lt_toLex.mpr (.inr ⟨rfl, ?_⟩)
      exact div_lt_div_of_pos_right (by exact_mod_cast strictMono_signedScaled hab) (by positivity)

section Compare

variable {d1 d2 : Word} (h1 : floatIsNaN d1 = false) (h2 : floatIsNaN d2 = false)

include h1 h2

theorem key_floatValue_lt_iff : (floatValue d1).key < (floatValue d2).key ↔ floatKey d1 < floatKey d2 := by
  have hb1 := floatKey_bounds h1
  have hb2 := floatKey_bounds h2
  rw [floatValue_eq h1, floatValue_eq h2]
  refine ⟨fun hlt => ?_, key_floatOfKey_lt hb1.1 hb2.2⟩
  rcases lt_trichotomy (floatKey d1) (floatKey d2) with h | h | h
  · exact h
  · rw [h] at hlt
    exact absurd hlt (lt_irrefl _)
  · exact absurd hlt (lt_asymm (key_floatOfKey_lt hb2.1 hb1.2 h))

theorem key_floatValue_eq_iff : (floatValue d1).key = (floatValue d2).key ↔ floatKey d1 = floatKey d2 := by
  refine ⟨fun heq => ?_, fun heq => by rw [floatValue_eq h1, floatValue_eq h2, heq]⟩
  rcases lt_trichotomy (floatKey d1) (floatKey d2) with h | h | h
  · exact absurd heq (ne_of_lt ((key_floatValue_lt_iff h1 h2).mpr h))
  · exact h
  · exact absurd heq.symm (ne_of_lt ((key_floatValue_lt_iff h2 h1).mpr h))

theorem fcmpOlt_iff : fcmpOlt d1 d2 = true ↔ (floatValue d1).key < (floatValue d2).key := by
  rw [key_floatValue_lt_iff h1 h2, fcmpOlt, h1, h2]
  exact decide_eq_true_iff

theorem fcmpOeq_iff : fcmpOeq d1 d2 = true ↔ (floatValue d1).key = (floatValue d2).key := by
  have hwhole : ∀ d : Word, d.toNat = (if d.msb then 2 ^ 63 else 0) + floatMagnitude d := by
    intro d
    rw [floatMagnitude_eq, BitVec.msb_eq_decide]
    have := d.isLt
    split
    next h =>
      have := of_decide_eq_true h
      omega
    next h =>
      have := of_decide_eq_false (Bool.eq_false_of_not_eq_true h)
      omega
  rw [key_floatValue_eq_iff h1 h2, fcmpOeq, h1, h2]
  simp only [Bool.not_false, Bool.true_and, Bool.or_eq_true, Bool.and_eq_true, beq_iff_eq, floatIsZero_iff]
  have hlt1 := floatMagnitude_lt d1
  have hlt2 := floatMagnitude_lt d2
  rw [floatKey_eq, floatKey_eq, ← BitVec.toNat_inj, hwhole d1, hwhole d2]
  cases d1.msb <;> cases d2.msb <;> simp only [if_true, if_false, Bool.false_eq_true] <;> omega

end Compare

/-! ## The list of a subtype -/

/-- How the search takes a float and a member of the list. -/
def floatOrdering (d mid : Word) : Ordering := if fcmpOeq d mid then .eq else if fcmpOlt d mid then .lt else .gt

def floatListContains (floats : List Word) (d : Word) : Option Bool :=
  sortedSearch (floatOrdering d) floats 0 floats.length

/-- `*start` is read first. -/
def floatSubtypeContainsFloat (floats : List Word) (included : Bool) (d : Word) : Option Bool := do
  let start ← floats[0]?
  if floatIsNaN start then
    if floatIsNaN d then return included
    else return (← floatListContains floats.tail d) == included
  else if floatIsNaN d then return !included
  else return (← floatListContains floats d) == included

variable {xs : List FloatValue}

theorem floatListContains_eq {floats : List Word}
    (hfloats : List.Forall₂ (fun d x => floatValue d = x) floats xs) (hnan : FloatValue.nan ∉ xs)
    (hsorted : xs.Pairwise fun a b => compareFloat a b = .lt) {d : Word} (hd : floatIsNaN d = false) :
    floatListContains floats d = some (decide (floatValue d ∈ xs)) := by
  have hkeys : List.Forall₂ (ComparesTo (floatOrdering d) (floatValue d).key) floats (xs.map FloatValue.key) := by
    refine List.forall₂_map_right_iff.mpr ?_
    clear hsorted
    induction hfloats with
    | nil => exact .nil
    | @cons mid x floats xs hmid hrest ih =>
      have hnot : floatIsNaN mid = false := by
        refine Bool.eq_false_of_not_eq_true fun h => hnan ?_
        rw [← hmid, floatValue_of_nan h]
        exact .head _
      refine .cons ?_ (ih fun h => hnan (.tail _ h))
      rw [← hmid]
      exact .of_ite rfl (fcmpOeq_iff hd hnot) (fcmpOlt_iff hd hnot)
  have hle : (xs.map FloatValue.key).Pairwise (· ≤ ·) := by
    refine List.pairwise_map.mpr (hsorted.imp fun h => le_of_lt ?_)
    rw [compareFloat_key] at h
    exact compareEnumerable_lt.mp h
  rw [floatListContains, sortedSearch_eq hkeys hle]
  refine congrArg some (decide_eq_decide.mpr ?_)
  exact ⟨fun h => by
    obtain ⟨x, hx, heq⟩ := List.mem_map.mp h
    rw [← FloatValue.key_injective heq]
    exact hx, fun h => List.mem_map_of_mem h⟩

/-- NaN is nowhere but at the front. -/
theorem nan_not_mem {x : FloatValue} (hsorted : (x :: xs).Pairwise fun a b => compareFloat a b = .lt) :
    FloatValue.nan ∉ xs := by
  intro hmem
  have h := (List.pairwise_cons.mp hsorted).1 _ hmem
  rw [compareFloat_key, compareEnumerable_lt] at h
  cases x <;> simp only [FloatValue.key, Prod.Lex.toLex_lt_toLex, Nat.not_lt_zero, lt_self_iff_false, and_false,
    false_and, or_false, OfNat.ofNat_ne_zero, one_ne_zero] at h

theorem floatSubtypeContainsFloat_eq {floats : List Word}
    (hfloats : List.Forall₂ (fun d x => floatValue d = x) floats xs) (hne : xs ≠ [])
    (hsorted : xs.Pairwise fun a b => compareFloat a b = .lt) (included : Bool) (d : Word) :
    floatSubtypeContainsFloat floats included d = some (decide (floatValue d ∈ xs) == included) := by
  cases hfloats with
  | nil => exact absurd rfl hne
  | @cons start x floats xs hstart hrest =>
    have hnan := nan_not_mem hsorted
    have hsorted' := (List.pairwise_cons.mp hsorted).2
    unfold floatSubtypeContainsFloat
    rw [List.getElem?_cons_zero, Option.bind_eq_bind, Option.bind_some]
    cases hs : floatIsNaN start with
    | true =>
      have hx : x = .nan := by rw [← hstart, floatValue_of_nan hs]
      rw [if_pos rfl]
      cases hd : floatIsNaN d with
      | true =>
        have hmem : floatValue d ∈ x :: xs := by
          rw [hx, floatValue_of_nan hd]
          exact .head _
        rw [if_pos rfl, decide_eq_true hmem, Bool.true_beq]
        rfl
      | false =>
        have hmem : floatValue d ∈ x :: xs ↔ floatValue d ∈ xs := by
          rw [List.mem_cons, hx, floatValue_nan_iff, hd]
          exact or_iff_right Bool.false_ne_true
        rw [if_neg Bool.false_ne_true, List.tail_cons, floatListContains_eq hrest hnan hsorted' hd]
        rw [Option.bind_eq_bind, Option.bind_some, decide_eq_decide.mpr hmem]
        rfl
    | false =>
      have hx : x ≠ .nan := by
        rw [← hstart, Ne, floatValue_nan_iff, hs]
        exact Bool.false_ne_true
      have hnan' : FloatValue.nan ∉ x :: xs := by
        rw [List.mem_cons, not_or]
        exact ⟨Ne.symm hx, hnan⟩
      rw [if_neg Bool.false_ne_true]
      cases hd : floatIsNaN d with
      | true =>
        rw [if_pos rfl, floatValue_of_nan hd, decide_eq_false hnan', Bool.false_beq]
        rfl
      | false =>
        rw [if_neg Bool.false_ne_true, floatListContains_eq (.cons hstart hrest) hnan' hsorted hd]
        rfl

end Nballerina.Runtime
