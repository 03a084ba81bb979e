import Nballerina.Comm.Decimal

/-!
# The words of a decimal's digits

For which digits and exponents the words of `encodeSignificand` stand for their number. Nothing is lost up to 34
digits, as long as the exponent has its place. Of more digits the first must be zero, and then
`exponent -= leadingZeros` moves the number by as many places. It comes back to its value only when the
exponent, which is cut to its field, goes round (`Encodable`).
-/

namespace Nballerina.Comm

open Nballerina.Lib

/-! ## What the words stand for -/

theorem combination_firstBits : ∀ negative, ∀ expTop < 32, ∀ msd < 10,
    Decimal128.combination (firstBits negative expTop msd % 32) =
      if expTop % 4 < 3 then some (expTop % 4, msd)
      else if msd < 6 then some (msd / 2, 8 + msd % 2) else none := by
  decide +kernel

theorem sign_firstBits (negative : Bool) (expTop : Nat) {msd : Nat} (hmsd : msd < 10) :
    32 ≤ firstBits negative expTop msd ↔
      negative = true ∨ if msd < 8 then 4 ≤ expTop % 8 else 16 ≤ expTop := by
  unfold firstBits
  split
  all_goals
    split
    next h =>
      exact ⟨fun _ => h, fun _ => by omega⟩
    next h =>
      exact ⟨fun _ => by omega, fun h' => absurd h' h⟩

/-- An exponent outside its field can run into the sign. -/
def SetsSign (exponent : Int) (coefficient : Nat) : Prop :=
  if coefficient < 8 * 10 ^ 33 then 16384 ≤ (exponent + 6176) % 32768 else 65536 ≤ (exponent + 6176) % 131072

instance (exponent : Int) (coefficient : Nat) : Decidable (SetsSign exponent coefficient) := by
  unfold SetsSign
  infer_instance

/-- Whatever the exponents are, `8 * 10 ^ 33` is no difference of two numbers with the same digits. -/
theorem reserved_value_ne {msd r : Nat} {p q : Int} (hmsd : msd < 6) (hr : r < 10 ^ 33) :
    ((8 + msd % 2) * 10 ^ 33 + r : Nat) * (10 : Rat) ^ p ≠ (msd * 10 ^ 33 + r : Nat) * 10 ^ q := by
  intro h
  rcases le_total p q with hpq | hpq
  · have h := Decimal128.eq_of_value_eq hpq h
    generalize (q - p).toNat = k at h
    cases k with
    | zero => omega
    | succ k =>
      have hpow : 0 < 10 ^ k := Nat.pow_pos (by norm_num)
      have hnine : 10 ^ k % 9 = 1 := by
        rw [Nat.pow_mod, show 10 % 9 = 1 from rfl, one_pow]
        rfl
      rw [pow_succ 10 k] at h
      generalize 10 ^ k = x at h hpow hnine
      -- the first digit is zero, since a shift by a digit is more than the reserved coefficient
      have hzero : msd = 0 := by
        by_contra hne
        have : (msd * 10 ^ 33 + r) * (1 * 10) ≤ (msd * 10 ^ 33 + r) * (x * 10) :=
          Nat.mul_le_mul_left _ (Nat.mul_le_mul_right _ hpow)
        omega
      subst hzero
      -- then nine divides `8 * 10 ^ 33`
      have hmod : r * (x * 10) % 9 = r % 9 := by
        rw [Nat.mul_mod, Nat.mul_mod x, hnine, show 1 * (10 % 9) % 9 = 1 from rfl, mul_one, Nat.mod_mod]
      rw [zero_mul, zero_add] at h
      omega
  · have h := Decimal128.eq_of_value_eq hpq h.symm
    have hpow : 0 < 10 ^ (p - q).toNat := Nat.pow_pos (by norm_num)
    have : ((8 + msd % 2) * 10 ^ 33 + r) * 1 ≤ ((8 + msd % 2) * 10 ^ 33 + r) * 10 ^ (p - q).toNat :=
      Nat.mul_le_mul_left _ hpow
    omega

/-- Whether the words of 34 digits are right for an exponent `e`, when they were made with another one. -/
theorem packWords_right_iff (negative : Bool) (exponent e : Int) {digits : List Nat} (hlen : digits.length = 34)
    (hdigit : ∀ digit ∈ digits, digit < 10) :
    ((packWords (signWord negative) exponent digits).bind Decimal128.decode).map Decimal128.value =
        some ((if negative then -1 else 1) * Decimal128.digitsValue digits * (10 : Rat) ^ e) ↔
      if Decimal128.digitsValue digits = 0 then (exponent + 6176) % 16384 < 12288
      else (exponent + 6176) % 16384 = e + 6176 ∧ e ≤ 6111 ∧
        (SetsSign exponent (Decimal128.digitsValue digits) → negative = true) := by
  obtain ⟨words, hpack, hdecode⟩ := packWords_decode negative exponent hlen hdigit
  obtain ⟨msd, rest, rfl⟩ : ∃ msd rest, digits = msd :: rest :=
    List.exists_cons_of_ne_nil fun h => by
      rw [h] at hlen
      cases hlen
  have hmsd : msd < 10 := hdigit msd (.head _)
  have hrest : rest.length = 33 := Nat.succ.inj hlen
  have hr := Decimal128.digitsValue_lt fun d hd => hdigit d (.tail _ hd)
  rw [hrest] at hr
  have hcombination := combination_firstBits negative ((exponent + 6176) / 4096 % 32).toNat (by omega) msd hmsd
  have hsign := sign_firstBits negative ((exponent + 6176) / 4096 % 32).toNat hmsd
  rw [hpack, Option.bind_some, hdecode, List.headD_cons, hcombination, List.tail_cons,
    Decimal128.digitsValue_cons, hrest]
  generalize Decimal128.digitsValue rest = r at hr
  have hN : (decide (SetsSign exponent (msd * 10 ^ 33 + r)) = true) ↔
      if msd < 8 then 4 ≤ ((exponent + 6176) / 4096 % 32).toNat % 8
      else 16 ≤ ((exponent + 6176) / 4096 % 32).toNat := by
    rw [decide_eq_true_iff]
    unfold SetsSign
    split <;> split <;> omega
  rw [decide_eq_true_iff] at hN
  rw [← hN] at hsign
  by_cases htop : ((exponent + 6176) / 4096 % 32).toNat % 4 < 3
  · have hscale : (((((exponent + 6176) / 4096 % 32).toNat % 4 : Nat) : Int) * 4096 + (exponent + 6176) % 4096 -
        6176) = (exponent + 6176) % 16384 - 6176 := by omega
    have hfield : (exponent + 6176) % 16384 < 12288 := by omega
    rw [if_pos htop]
    simp only [Option.map_some, Option.some.injEq, Decimal128.value]
    rw [hscale, Decimal128.signed_eq_iff]
    split
    next hzero => exact iff_of_true (.inl ⟨hzero, hzero⟩) hfield
    next hne =>
      constructor
      · rintro (⟨hzero, _⟩ | ⟨_, hsame, hvalue⟩)
        · exact absurd hzero hne
        · have hexp := Decimal128.exponent_eq_of_value_eq hne hvalue
          refine ⟨by omega, by omega, fun hsets => ?_⟩
          rw [← hsame]
          exact decide_eq_true (hsign.mpr (.inr hsets))
      · rintro ⟨hexp, _, hsets⟩
        have hexp : (exponent + 6176) % 16384 - 6176 = e := by omega
        refine .inr ⟨hne, ?_, by rw [hexp]⟩
        cases negative with
        | true => exact decide_eq_true (hsign.mpr (.inl rfl))
        | false =>
          refine decide_eq_false fun h => ?_
          rcases hsign.mp h with h | h
          · cases h
          · exact Bool.false_ne_true (hsets h)
  · have hfield : ¬(exponent + 6176) % 16384 < 12288 := by omega
    have hright : ¬(if msd * 10 ^ 33 + r = 0 then (exponent + 6176) % 16384 < 12288
        else (exponent + 6176) % 16384 = e + 6176 ∧ e ≤ 6111 ∧
          (SetsSign exponent (msd * 10 ^ 33 + r) → negative = true)) := by
      split
      · exact hfield
      · rintro ⟨h, h', _⟩
        omega
    refine iff_of_false ?_ hright
    rw [if_neg htop]
    split
    next hsmall =>
      simp only [Option.map_some, Option.some.injEq, Decimal128.value]
      rw [Decimal128.signed_eq_iff]
      rintro (⟨hzero, _⟩ | ⟨_, _, hvalue⟩)
      · omega
      · exact reserved_value_ne hsmall hr hvalue
    next =>
      intro h
      cases h

/-! ## Dropped and pushed zeros -/

/-- The leading zeros that do not count, being those of more than 34 digits. -/
def leadingZeros (significandBcd : List Nat) : Nat :=
  if significandBcd.length > 34 then (significandBcd.takeWhile (· == 0)).length else 0

/-- The zeros pushed behind the digits. -/
def pushedZeros (exponent : Int) (significandBcd : List Nat) : Nat :=
  (exponent - leadingZeros significandBcd - 6111).toNat

theorem leadingZeros_drop (significandBcd : List Nat) :
    Decimal128.digitsValue (significandBcd.drop (leadingZeros significandBcd)) =
        Decimal128.digitsValue significandBcd ∧
      leadingZeros significandBcd ≤ significandBcd.length := by
  unfold leadingZeros
  split
  · have hzeros : significandBcd.takeWhile (· == 0) =
        List.replicate (significandBcd.takeWhile (· == 0)).length 0 := by
      refine List.eq_replicate_of_mem fun d hd => ?_
      have hd := List.mem_takeWhile_imp hd
      exact eq_of_beq hd
    obtain ⟨rest, hrest⟩ := List.takeWhile_prefix (l := significandBcd) (· == 0)
    have hdrop : significandBcd.drop (significandBcd.takeWhile (· == 0)).length = rest := by
      have h := congrArg (List.drop (significandBcd.takeWhile (· == 0)).length) hrest
      rw [List.drop_left] at h
      exact h.symm
    have hvalue : Decimal128.digitsValue significandBcd = Decimal128.digitsValue rest := by
      conv_lhs => rw [← hrest]
      rw [Decimal128.digitsValue_append, hzeros, Decimal128.digitsValue_replicate_zero, zero_mul, zero_add]
    refine ⟨by rw [hdrop, hvalue], ?_⟩
    exact (List.takeWhile_prefix _).length_le
  · exact ⟨rfl, Nat.zero_le _⟩

theorem checkedInt_lt {n : Int} (hn : n < 2 ^ 63) : checkedInt n = if -2 ^ 63 ≤ n then some n else none :=
  if_congr (and_iff_left hn) rfl rfl

variable {exponent : Int}

theorem dropLeadingZeros_eq (significandBcd : List Nat) (hexp : exponent < 2 ^ 63) :
    dropLeadingZeros exponent significandBcd =
      if leadingZeros significandBcd = 0 ∨ -2 ^ 63 ≤ exponent - leadingZeros significandBcd then
        some (exponent - leadingZeros significandBcd, significandBcd.drop (leadingZeros significandBcd))
      else none := by
  unfold dropLeadingZeros leadingZeros
  by_cases hlong : significandBcd.length > 34
  · obtain ⟨d, ds, rfl⟩ := List.exists_cons_of_length_pos (Nat.zero_lt_of_lt hlong)
    rw [if_pos hlong, List.headD_cons]
    by_cases hd : d = 0
    · have hzeros : ((d :: ds).takeWhile (· == 0)).length ≠ 0 := by
        rw [List.takeWhile_cons, hd, beq_self_eq_true, if_pos rfl]
        exact Nat.succ_ne_zero _
      rw [if_pos ⟨hlong, hd⟩]
      dsimp only
      rw [checkedInt_lt (by omega)]
      simp only [hzeros, false_or]
      split <;> rfl
    · have hnone : (d :: ds).takeWhile (· == 0) = [] := by
        rw [List.takeWhile_cons, beq_eq_false_iff_ne.mpr hd]
        rfl
      rw [if_neg fun h => hd h.2, hnone]
      rw [if_pos (.inl rfl), List.length_nil, List.drop_zero, Nat.cast_zero, sub_zero]
  · rw [if_neg fun h => hlong h.1, if_neg hlong, if_pos (.inl rfl), List.drop_zero, Nat.cast_zero, sub_zero]

theorem encodeSignificand_eq (sign : Word) (significandBcd : List Nat) (hexp : exponent < 2 ^ 63) :
    encodeSignificand sign exponent significandBcd =
      if -2 ^ 63 ≤ exponent - leadingZeros significandBcd - 6111 ∧
          significandBcd.length - leadingZeros significandBcd + pushedZeros exponent significandBcd ≤ 34 then
        packWords sign (exponent - leadingZeros significandBcd - pushedZeros exponent significandBcd)
          (List.replicate (34 - (significandBcd.length - leadingZeros significandBcd +
              pushedZeros exponent significandBcd)) 0 ++
            (significandBcd.drop (leadingZeros significandBcd) ++
              List.replicate (pushedZeros exponent significandBcd) 0))
      else none := by
  unfold encodeSignificand pushedZeros
  rw [dropLeadingZeros_eq significandBcd hexp]
  by_cases hint : -2 ^ 63 ≤ exponent - leadingZeros significandBcd - 6111
  · rw [if_pos (.inr (by omega))]
    simp only [Option.bind_eq_bind, Option.bind_some]
    rw [checkedInt_lt (by omega), if_pos hint]
    simp only [Option.bind_some, List.length_append, List.length_drop, List.length_replicate, hint, true_and]
    rw [← ite_not]
    exact if_congr Nat.not_lt rfl rfl
  · rw [if_neg fun h : _ ∧ _ => hint h.1]
    split
    · simp only [Option.bind_eq_bind, Option.bind_some]
      rw [checkedInt_lt (by omega), if_neg hint]
      rfl
    · rfl

/-- When the words of digits and an exponent stand for their number. -/
def Encodable (negative : Bool) (exponent : Int) (significandBcd : List Nat) : Prop :=
  -2 ^ 63 ≤ exponent - leadingZeros significandBcd - 6111 ∧
    significandBcd.length - leadingZeros significandBcd + pushedZeros exponent significandBcd ≤ 34 ∧
      if Decimal128.digitsValue significandBcd = 0 then
        (min (exponent - leadingZeros significandBcd) 6111 + 6176) % 16384 < 12288
      else -6176 ≤ exponent ∧ (leadingZeros significandBcd = 0 ∨
        exponent ≤ 6111 ∧ leadingZeros significandBcd % 16384 = 0 ∧
          (SetsSign (exponent - leadingZeros significandBcd) (Decimal128.digitsValue significandBcd) →
            negative = true))

instance (negative : Bool) (exponent : Int) (significandBcd : List Nat) :
    Decidable (Encodable negative exponent significandBcd) := by
  unfold Encodable
  infer_instance

theorem encodeSignificand_right_iff (negative : Bool) {significandBcd : List Nat}
    (hexp : exponent < 2 ^ 63) (hdigit : ∀ digit ∈ significandBcd, digit < 10) :
    ((encodeSignificand (signWord negative) exponent significandBcd).bind Decimal128.decode).map
        Decimal128.value =
        some ((if negative then -1 else 1) * Decimal128.digitsValue significandBcd * (10 : Rat) ^ exponent) ↔
      Encodable negative exponent significandBcd := by
  obtain ⟨hvalue, hle⟩ := leadingZeros_drop significandBcd
  have hpushed : pushedZeros exponent significandBcd =
      (exponent - leadingZeros significandBcd - 6111).toNat := rfl
  rw [encodeSignificand_eq _ _ hexp]
  unfold Encodable
  generalize hz : leadingZeros significandBcd = z at *
  generalize hp : pushedZeros exponent significandBcd = pushed at *
  by_cases hfits : -2 ^ 63 ≤ exponent - z - 6111 ∧ significandBcd.length - z + pushed ≤ 34
  · rw [if_pos hfits]
    have hlen : (List.replicate (34 - (significandBcd.length - z + pushed)) 0 ++
        (significandBcd.drop z ++ List.replicate pushed 0)).length = 34 := by
      rw [List.length_append, List.length_append, List.length_replicate, List.length_replicate,
        List.length_drop]
      omega
    have hdigits : ∀ digit ∈ List.replicate (34 - (significandBcd.length - z + pushed)) 0 ++
        (significandBcd.drop z ++ List.replicate pushed 0), digit < 10 := by
      intro digit hmem
      rcases List.mem_append.mp hmem with h | h
      · rw [List.eq_of_mem_replicate h]
        norm_num
      · rcases List.mem_append.mp h with h | h
        · exact hdigit digit (List.mem_of_mem_drop h)
        · rw [List.eq_of_mem_replicate h]
          norm_num
    have hcoefficient : Decimal128.digitsValue (List.replicate (34 - (significandBcd.length - z + pushed)) 0 ++
        (significandBcd.drop z ++ List.replicate pushed 0)) =
          Decimal128.digitsValue significandBcd * 10 ^ pushed := by
      rw [Decimal128.digitsValue_append, Decimal128.digitsValue_append, Decimal128.digitsValue_replicate_zero,
        Decimal128.digitsValue_replicate_zero, List.length_replicate, hvalue, zero_mul, zero_add, add_zero]
    have hshift : ((if negative then -1 else 1) * Decimal128.digitsValue significandBcd * (10 : Rat) ^ exponent) =
        (if negative then -1 else 1) * (Decimal128.digitsValue significandBcd * 10 ^ pushed : Nat) *
          (10 : Rat) ^ (exponent - pushed) := by
      rw [zpow_sub₀ (by norm_num), zpow_natCast]
      push_cast
      field_simp
    have hwords := packWords_right_iff negative (exponent - z - pushed) (exponent - pushed) hlen hdigits
    rw [hcoefficient] at hwords
    have hzero : Decimal128.digitsValue significandBcd * 10 ^ pushed = 0 ↔
        Decimal128.digitsValue significandBcd = 0 := by
      rw [Nat.mul_eq_zero, or_iff_left (Nat.pow_pos (by norm_num)).ne']
    have hmin : min (exponent - z) 6111 = exponent - z - pushed := by omega
    rw [hshift, hwords, hmin]
    simp only [hzero]
    rw [and_iff_right hfits.1, and_iff_right hfits.2]
    by_cases hN : Decimal128.digitsValue significandBcd = 0
    · rw [if_pos hN, if_pos hN]
    · rw [if_neg hN, if_neg hN]
      by_cases hnone : pushed = 0
      · subst hnone
        rw [pow_zero, mul_one, Nat.cast_zero, sub_zero, sub_zero]
        by_cases hz : z = 0
        · subst hz
          have hsets : -6176 ≤ exponent → ¬SetsSign (exponent - (0 : Nat)) (Decimal128.digitsValue significandBcd) := by
            intro hlow h
            unfold SetsSign at h
            split at h <;> omega
          constructor
          · rintro ⟨h, h', _⟩
            exact ⟨by omega, .inl rfl⟩
          · rintro ⟨h, _⟩
            exact ⟨by omega, by omega, fun hs => absurd hs (hsets h)⟩
        · constructor
          · rintro ⟨h, h', hs⟩
            exact ⟨by omega, .inr ⟨h', by omega, hs⟩⟩
          · rintro ⟨h, h' | ⟨h', hround, hs⟩⟩
            · exact absurd h' hz
            · exact ⟨by omega, h', hs⟩
      · have htop : exponent - z - pushed = 6111 := by omega
        have hsets : ¬SetsSign 6111 (Decimal128.digitsValue significandBcd * 10 ^ pushed) := by
          intro h
          unfold SetsSign at h
          split at h <;> omega
        rw [htop]
        constructor
        · rintro ⟨h, h', _⟩
          exact ⟨by omega, .inl (by omega)⟩
        · rintro ⟨h, h' | ⟨h', _⟩⟩
          · exact ⟨by omega, by omega, fun hs => absurd hs hsets⟩
          · omega
  · rw [if_neg hfits]
    refine iff_of_false ?_ fun h => hfits ⟨h.1, h.2.1⟩
    intro h
    cases h

end Nballerina.Comm
