import Mathlib

/-!
# The decimal128 format

Numbers of IEEE 754 decimal128 with the densely packed decimal encoding: a sign bit, a combination field
of five bits, twelve more bits of the exponent, and eleven declets of three digits each.
-/

namespace Nballerina.Lib

/-- A finite number: its sign, its coefficient of 34 digits and its exponent. -/
structure Decimal128 where
  negative : Bool
  coefficient : Nat
  exponent : Int
deriving DecidableEq, Repr

namespace Decimal128

def value (d : Decimal128) : Rat := (if d.negative then -1 else 1) * d.coefficient * (10 : Rat) ^ d.exponent

/-- The three digits of ten bits. -/
def decletValue (declet : Nat) : Nat :=
  let b (i : Nat) : Nat := declet / 2 ^ i % 2
  let first := 4 * b 9 + 2 * b 8 + b 7
  let second := 4 * b 6 + 2 * b 5 + b 4
  if b 3 = 0 then 100 * first + 10 * second + (4 * b 2 + 2 * b 1 + b 0)
  else if b 2 = 0 ∧ b 1 = 0 then 100 * first + 10 * second + (8 + b 0)
  else if b 2 = 0 ∧ b 1 = 1 then 100 * first + 10 * (8 + b 4) + (4 * b 6 + 2 * b 5 + b 0)
  else if b 2 = 1 ∧ b 1 = 0 then 100 * (8 + b 7) + 10 * second + (4 * b 9 + 2 * b 8 + b 0)
  else if b 6 = 0 ∧ b 5 = 0 then 100 * (8 + b 7) + 10 * (8 + b 4) + (4 * b 9 + 2 * b 8 + b 0)
  else if b 6 = 0 ∧ b 5 = 1 then 100 * (8 + b 7) + 10 * (4 * b 9 + 2 * b 8 + b 4) + (8 + b 0)
  else if b 6 = 1 ∧ b 5 = 0 then 100 * first + 10 * (8 + b 4) + (8 + b 0)
  else 100 * (8 + b 7) + 10 * (8 + b 4) + (8 + b 0)

/-- The digits of `n` declets. -/
def decletsValue : Nat → Nat → Nat
  | 0, _ => 0
  | n + 1, trailing => 1000 * decletsValue n (trailing / 1024) + decletValue (trailing % 1024)

/-- What the combination field says: the upper two bits of the exponent and the first digit. -/
def combination (field : Nat) : Option (Nat × Nat) :=
  if field / 2 = 15 then none
  else if field / 8 = 3 then some (field / 2 % 4, 8 + field % 2)
  else some (field / 8, field % 8)

/-- Of two words, the less significant one first; infinities and NaNs are `none`. -/
def decode (words : BitVec 64 × BitVec 64) : Option Decimal128 := do
  let high := words.2.toNat
  let (exponent, digit) ← combination (high / 2 ^ 58 % 32)
  return {
    negative := high / 2 ^ 63 = 1
    coefficient := digit * 10 ^ 33 + decletsValue 11 (high % 2 ^ 46 * 2 ^ 64 + words.1.toNat)
    exponent := exponent * 4096 + (high / 2 ^ 46 % 4096 : Nat) - 6176 }

/-! ## Fields -/

/-- Two words by their fields. -/
theorem decode_fields {words : BitVec 64 × BitVec 64} {sign field continuation upper : Nat}
    (hhigh : words.2.toNat = sign * 2 ^ 63 + field * 2 ^ 58 + continuation * 2 ^ 46 + upper)
    (hfield : field < 32) (hcontinuation : continuation < 4096) (hupper : upper < 2 ^ 46) :
    decode words = (combination field).map fun c => {
      negative := sign = 1
      coefficient := c.2 * 10 ^ 33 + decletsValue 11 (upper * 2 ^ 64 + words.1.toNat)
      exponent := c.1 * 4096 + continuation - 6176 } := by
  have hcomb : words.2.toNat / 2 ^ 58 % 32 = field := by omega
  have hsign : words.2.toNat / 2 ^ 63 = sign := by omega
  have hcont : words.2.toNat / 2 ^ 46 % 4096 = continuation := by omega
  have hup : words.2.toNat % 2 ^ 46 = upper := by omega
  unfold decode
  dsimp only
  rw [hcomb, hsign, hcont, hup]
  cases combination field <;> rfl

/-- Declets one after the other, the first being the most significant. -/
def packDeclets (declets : List Nat) : Nat := declets.foldl (fun trailing declet => trailing * 1024 + declet) 0

/-- The value of a list of digit groups in base 1000. -/
def groupsValue (groups : List Nat) : Nat := groups.foldl (fun n group => n * 1000 + group) 0

theorem packDeclets_concat (declets : List Nat) (declet : Nat) :
    packDeclets (declets ++ [declet]) = packDeclets declets * 1024 + declet := by
  unfold packDeclets
  rw [List.foldl_append]
  rfl

theorem groupsValue_concat (groups : List Nat) (group : Nat) :
    groupsValue (groups ++ [group]) = groupsValue groups * 1000 + group := by
  unfold groupsValue
  rw [List.foldl_append]
  rfl

/-- By induction on the declets from the last on. -/
theorem decletsValue_pack (declets : List Nat) : (∀ declet ∈ declets, declet < 1024) →
    decletsValue declets.length (packDeclets declets) = groupsValue (declets.map decletValue) := by
  induction declets using List.reverseRecOn with
  | nil =>
    intro _
    rfl
  | append_singleton declets declet ih =>
    intro hlt
    have hlast : declet < 1024 := hlt declet (List.mem_append_right _ (List.mem_singleton_self _))
    have hrest : ∀ d ∈ declets, d < 1024 := fun d hd => hlt d (List.mem_append_left _ hd)
    have hdiv : (packDeclets declets * 1024 + declet) / 1024 = packDeclets declets := by omega
    have hmod : (packDeclets declets * 1024 + declet) % 1024 = declet := by omega
    rw [List.length_append, List.length_singleton, packDeclets_concat, decletsValue, hdiv, hmod, ih hrest,
      List.map_append, List.map_singleton, groupsValue_concat]
    omega

/-! ## Digits -/

def digitsValue (digits : List Nat) : Nat := digits.foldl (fun n digit => n * 10 + digit) 0

theorem digitsValue_concat (digits : List Nat) (digit : Nat) :
    digitsValue (digits ++ [digit]) = digitsValue digits * 10 + digit := by
  unfold digitsValue
  rw [List.foldl_append]
  rfl

theorem digitsValue_append (xs ys : List Nat) :
    digitsValue (xs ++ ys) = digitsValue xs * 10 ^ ys.length + digitsValue ys := by
  induction ys using List.reverseRecOn with
  | nil =>
    rw [List.append_nil, List.length_nil, pow_zero, mul_one]
    rfl
  | append_singleton ys y ih =>
    rw [← List.append_assoc, digitsValue_concat, digitsValue_concat, ih, List.length_append,
      List.length_singleton, pow_succ]
    ring

theorem digitsValue_cons (digit : Nat) (digits : List Nat) :
    digitsValue (digit :: digits) = digit * 10 ^ digits.length + digitsValue digits := by
  have h := digitsValue_append [digit] digits
  rw [List.singleton_append] at h
  rw [h]
  unfold digitsValue
  rw [List.foldl_cons, List.foldl_nil, zero_mul, zero_add]

theorem digitsValue_replicate_zero (n : Nat) : digitsValue (List.replicate n 0) = 0 := by
  induction n with
  | zero => rfl
  | succ n ih => rw [List.replicate_succ, digitsValue_cons, ih, zero_mul]

theorem digitsValue_lt {digits : List Nat} (h : ∀ digit ∈ digits, digit < 10) :
    digitsValue digits < 10 ^ digits.length := by
  induction digits with
  | nil => exact Nat.one_pos
  | cons digit digits ih =>
    have hdigit : digit ≤ 9 := Nat.le_of_lt_succ (h digit (.head _))
    have hrest := ih fun d hd => h d (.tail _ hd)
    have hmul := Nat.mul_le_mul_right (10 ^ digits.length) hdigit
    rw [digitsValue_cons, List.length_cons, pow_succ]
    omega

/-- Digits taken three at a time. -/
theorem groupsValue_digits (n : Nat) : ∀ digits : List Nat, digits.length = 3 * n →
    groupsValue ((List.range n).map fun i => digitsValue ((digits.drop (i * 3)).take 3)) =
      digitsValue digits := by
  induction n with
  | zero =>
    intro digits hlen
    rw [List.eq_nil_of_length_eq_zero hlen]
    rfl
  | succ n ih =>
    intro digits hlen
    have hfront : (digits.take (3 * n)).length = 3 * n := by
      rw [List.length_take]
      omega
    have hlast : (digits.drop (3 * n)).length = 3 := by
      rw [List.length_drop]
      omega
    have hsame : ∀ i ∈ List.range n, digitsValue ((digits.drop (i * 3)).take 3) =
        digitsValue (((digits.take (3 * n)).drop (i * 3)).take 3) := by
      intro i hi
      have hi := List.mem_range.mp hi
      rw [List.drop_take, List.take_take, min_eq_left (by omega)]
    have hsplit : digitsValue digits =
        digitsValue (digits.take (3 * n)) * 1000 + digitsValue (digits.drop (3 * n)) := by
      have h := digitsValue_append (digits.take (3 * n)) (digits.drop (3 * n))
      rw [List.take_append_drop, hlast] at h
      exact h
    rw [List.range_succ, List.map_append, List.map_singleton, groupsValue_concat,
      List.map_congr_left hsame, ih _ hfront, Nat.mul_comm n 3,
      List.take_of_length_le (Nat.le_of_eq hlast), hsplit]

/-! ## Values -/

/-- Numbers with the same value, at the lesser exponent. -/
theorem eq_of_value_eq {a b : Nat} {p q : Int} (hpq : p ≤ q)
    (h : (a : Rat) * 10 ^ p = (b : Rat) * 10 ^ q) : a = b * 10 ^ (q - p).toNat := by
  have hne : (10 : Rat) ^ p ≠ 0 := zpow_ne_zero p (by norm_num)
  have hq : (10 : Rat) ^ q = 10 ^ (q - p).toNat * 10 ^ p := by
    rw [← zpow_natCast, Int.toNat_of_nonneg (by omega), ← zpow_add₀ (by norm_num : (10 : Rat) ≠ 0)]
    congr 1
    omega
  rw [hq, ← mul_assoc] at h
  have h := mul_right_cancel₀ hne h
  exact_mod_cast h

theorem exponent_eq_of_value_eq {a : Nat} {p q : Int} (ha : a ≠ 0) (h : (a : Rat) * 10 ^ p = a * 10 ^ q) : p = q :=
  zpow_right_injective₀ (by norm_num) (by norm_num) (mul_left_cancel₀ (Nat.cast_ne_zero.mpr ha) h)

/-- Signed numbers are the same when both are zero, or the signs and the absolute values are. -/
theorem signed_eq_iff (m n : Bool) (a b : Nat) (p q : Int) :
    ((if m then -1 else 1) * a * 10 ^ p : Rat) = (if n then -1 else 1) * b * 10 ^ q ↔
      a = 0 ∧ b = 0 ∨ a ≠ 0 ∧ m = n ∧ (a : Rat) * 10 ^ p = b * 10 ^ q := by
  have hp : (0 : Rat) < 10 ^ p := zpow_pos (by norm_num) p
  have hq : (0 : Rat) < 10 ^ q := zpow_pos (by norm_num) q
  have ha : (0 : Rat) ≤ a * 10 ^ p := mul_nonneg (Nat.cast_nonneg a) hp.le
  have hb : (0 : Rat) ≤ b * 10 ^ q := mul_nonneg (Nat.cast_nonneg b) hq.le
  have hazero : a = 0 ↔ (a : Rat) * 10 ^ p = 0 := by
    rw [mul_eq_zero, or_iff_left hp.ne', Nat.cast_eq_zero]
  have hbzero : b = 0 ↔ (b : Rat) * 10 ^ q = 0 := by
    rw [mul_eq_zero, or_iff_left hq.ne', Nat.cast_eq_zero]
  rw [mul_assoc, mul_assoc, Ne, hazero, hbzero]
  generalize (a : Rat) * 10 ^ p = x at *
  generalize (b : Rat) * 10 ^ q = y at *
  cases m <;> cases n <;> simp only [Bool.false_eq_true, if_false, if_true, reduceCtorEq, one_mul, neg_one_mul,
    neg_inj, true_and, false_and, and_false, or_false]
  · constructor
    · intro h
      by_cases hx : x = 0
      · exact .inl ⟨hx, h ▸ hx⟩
      · exact .inr ⟨hx, h⟩
    · rintro (⟨hx, hy⟩ | ⟨_, h⟩)
      · rw [hx, hy]
      · exact h
  · constructor
    · intro h
      constructor <;> linarith
    · rintro ⟨hx, hy⟩
      rw [hx, hy, neg_zero]
  · constructor
    · intro h
      constructor <;> linarith
    · rintro ⟨hx, hy⟩
      rw [hx, hy, neg_zero]
  · constructor
    · intro h
      by_cases hx : x = 0
      · exact .inl ⟨hx, h ▸ hx⟩
      · exact .inr ⟨hx, h⟩
    · rintro (⟨hx, hy⟩ | ⟨_, h⟩)
      · rw [hx, hy]
      · exact h

end Decimal128

end Nballerina.Lib
