import Nballerina.Lib.Decimal128

/-!
# Decimal constants (`comm.lib/decimal.bal`)

`toLeDpd` turns the text of a decimal into the two words of its decimal128 encoding. A text with more than
34 digits can only start with zeros, which are dropped; but the exponent is lowered by their number, as if
they had been at the end. So the words stand for another number, unless it is zero
(`toLeDpd_right_iff`).

Mirroring notes:
- `toString` of a decimal is given by its text. A panic is `none`, that of an int overflow too.
- The words are 64-bit ints; the digits and declets are small.
-/

namespace Nballerina.Comm

open Nballerina.Lib

abbrev Word := BitVec 64

/-! ## The source -/

/-- An int of the language: outside its range the arithmetic panics. -/
def checkedInt (n : Int) : Option Int := if -2 ^ 63 ≤ n ∧ n < 2 ^ 63 then some n else none

/-- `int:fromString` of one character. -/
def digitFromString (ch : Char) : Option Nat := if ch.isDigit then some (ch.toNat - 48) else none

/-- `int:fromString` -/
def intFromString (str : List Char) : Option Int := do
  let digits := if str[0]? = some '-' ∨ str[0]? = some '+' then str.drop 1 else str
  if digits = [] then none
  else
    let n := Decimal128.digitsValue (← digits.mapM digitFromString)
    checkedInt (if str[0]? = some '-' then -(n : Int) else n)

def bcd3ToDeclet (bcds : List Nat) : Option Nat :=
  match bcds with
  | [bcd0, bcd1, bcd2] =>
    let encoding := ((bcd0 &&& 1) <<< 7) ||| ((bcd1 &&& 1) <<< 4) ||| (bcd2 &&& 1)
    if bcd0 < 8 ∧ bcd1 < 8 then some ((bcd0 <<< 7) ||| (bcd1 <<< 4) ||| bcd2)
    else
      let encoding := encoding ||| (1 <<< 3)
      let de := (bcd1 >>> 1) &&& 3
      let gh := (bcd2 >>> 1) &&& 3
      if bcd0 < 8 ∧ bcd2 < 8 then some (encoding ||| ((bcd0 <<< 7) ||| (gh <<< 5) ||| 2))
      else if bcd1 < 8 ∧ bcd2 < 8 then some (encoding ||| ((gh <<< 8) ||| (de <<< 5) ||| 4))
      else
        -- at least 2 large
        let encoding := encoding ||| 14
        if bcd0 < 8 then some (encoding ||| ((bcd0 <<< 7) ||| 64))
        else if bcd1 < 8 then some (encoding ||| ((de <<< 8) ||| 32))
        else if bcd2 < 8 then some (encoding ||| (gh <<< 8))
        else some (encoding ||| 110)
  | _ => none

def dpdCombinationBits (exponent : Int) (significandBcd : List Nat) : Word :=
  let uExp := BitVec.ofInt 64 (exponent + 6176)
  let expTop := uExp.sshiftRight 12
  let expBottom := uExp &&& 0xfff#64
  let msd := if significandBcd.length ≠ 34 then 0 else significandBcd.headD 0
  let comb := if msd < 8 then expTop <<< 61 else 0x6000000000000000#64 ||| (expTop <<< 59)
  comb ||| ((BitVec.ofNat 64 msd <<< 58) ||| (expBottom <<< 46))

/-- The two words of 34 digits; there are eleven declets after the first digit. -/
def packWords (sign : Word) (exponent : Int) (significandBcd : List Nat) : Option (Word × Word) := do
  let declets ← (List.range 11).mapM fun index =>
    bcd3ToDeclet ((significandBcd.drop (index * 3 + 1)).take 3)
  let dpds (i : Nat) : Word := BitVec.ofNat 64 (declets.getD i 0)
  let mostSignificant := sign ||| dpdCombinationBits exponent significandBcd ||| (dpds 0 <<< 36) |||
    (dpds 1 <<< 26) ||| (dpds 2 <<< 16) ||| (dpds 3 <<< 6) ||| (dpds 4 >>> 4)
  let leastSignificant := ((dpds 4 &&& 0xf#64) <<< 60) ||| (dpds 5 <<< 50) ||| (dpds 6 <<< 40) |||
    (dpds 7 <<< 30) ||| (dpds 8 <<< 20) ||| (dpds 9 <<< 10) ||| dpds 10
  return (leastSignificant, mostSignificant)

/-- `significandBcd.slice(leadingZeros)` when there are more than 34 digits. -/
def dropLeadingZeros (exponent : Int) (significandBcd : List Nat) : Option (Int × List Nat) :=
  if significandBcd.length > 34 ∧ significandBcd.headD 0 = 0 then
    let leadingZeros := (significandBcd.takeWhile (· == 0)).length
    (checkedInt (exponent - leadingZeros)).map (·, significandBcd.drop leadingZeros)
  else some (exponent, significandBcd)

/-- The part of `toLeDpd` after the text has been taken apart. -/
def encodeSignificand (sign : Word) (exponent : Int) (significandBcd : List Nat) : Option (Word × Word) := do
  let (exponent, significandBcd) ← dropLeadingZeros exponent significandBcd
  -- the zeros that the loop pushes while the exponent is too large for its field
  let pushed := (← checkedInt (exponent - 6111)).toNat
  let significandBcd := significandBcd ++ List.replicate pushed 0
  let exponent := exponent - pushed
  if significandBcd.length > 34 then none
  else packWords sign exponent (List.replicate (34 - significandBcd.length) 0 ++ significandBcd)

/-- The number after the `E`. -/
def readExponent (stringRep : List Char) (exponentStartIndex : Option Nat) : Option Int :=
  match exponentStartIndex with
  | none => some 0
  | some i => intFromString (stringRep.drop (i + 1))

/-- `exponent -= (sLast - dot)` if there is a dot in the significand, which ends before `sEnd`. -/
def lowerExponent (sEnd : Nat) (dot : Option Nat) (exponent : Int) : Option Int :=
  match dot with
  | none => some exponent
  | some i => checkedInt (exponent - ((sEnd : Int) - 1 - i))

def toLeDpd (stringRep : List Char) : Option (Word × Word) := do
  let sign : Word := if stringRep[0]? = some '-' then 1#64 <<< 63 else 0#64
  let dot := stringRep.idxOf? '.'
  let sFirst := if stringRep[0]? = some '+' ∨ stringRep[0]? = some '-' then 1 else 0
  let exponentStartIndex := stringRep.idxOf? 'E'
  -- one past the last digit of the significand
  let sEnd := exponentStartIndex.getD stringRep.length
  let exponent ← readExponent stringRep exponentStartIndex
  let exponent ← lowerExponent sEnd dot exponent
  let indices := (List.range' sFirst (sEnd - sFirst)).filter fun i => some i ≠ dot
  let significandBcd ← indices.mapM fun i => stringRep[i]?.bind digitFromString
  encodeSignificand sign exponent significandBcd

/-! ## Declets -/

theorem bcd3ToDeclet_right : ∀ bcd0 < 10, ∀ bcd1 < 10, ∀ bcd2 < 10, ∃ declet < 1024,
    bcd3ToDeclet [bcd0, bcd1, bcd2] = some declet ∧
      Decimal128.decletValue declet = 100 * bcd0 + 10 * bcd1 + bcd2 := by
  have hall : ∀ bcd0 < 10, ∀ bcd1 < 10, ∀ bcd2 < 10,
      (bcd3ToDeclet [bcd0, bcd1, bcd2]).any (fun declet => declet < 1024 ∧
        Decimal128.decletValue declet = 100 * bcd0 + 10 * bcd1 + bcd2) = true := by
    decide +kernel
  intro bcd0 h0 bcd1 h1 bcd2 h2
  have h := hall bcd0 h0 bcd1 h1 bcd2 h2
  cases hdeclet : bcd3ToDeclet [bcd0, bcd1, bcd2] with
  | none =>
    rw [hdeclet] at h
    cases h
  | some declet =>
    rw [hdeclet] at h
    obtain ⟨hlt, hvalue⟩ := of_decide_eq_true h
    exact ⟨declet, hlt, rfl, hvalue⟩

/-! ## Words -/

def signWord (negative : Bool) : Word := if negative then 1#64 <<< 63 else 0#64

/-- The first six bits of the more significant word, of the upper bits of the exponent and the first digit. -/
def firstBits (negative : Bool) (expTop msd : Nat) : Nat :=
  if msd < 8 then (if negative ∨ 4 ≤ expTop % 8 then 32 else 0) + 8 * (expTop % 4) + msd
  else (if negative ∨ 16 ≤ expTop then 32 else 0) + 24 + 2 * (expTop % 4) + msd % 2

theorem firstBits_lt (negative : Bool) (expTop : Nat) {msd : Nat} (hmsd : msd < 10) :
    firstBits negative expTop msd < 64 := by
  unfold firstBits
  split
  all_goals split <;> omega

theorem firstBits_right : ∀ negative, ∀ expTop < 32, ∀ msd < 10,
    signWord negative ||| (if msd < 8 then BitVec.ofNat 64 expTop <<< 61
      else 0x6000000000000000#64 ||| (BitVec.ofNat 64 expTop <<< 59)) ||| (BitVec.ofNat 64 msd <<< 58) =
      BitVec.ofNat 64 (firstBits negative expTop msd * 2 ^ 58) := by
  decide +kernel

theorem toNat_or {x y : Word} (k : Nat) (hx : x.toNat % 2 ^ k = 0) (hy : y.toNat < 2 ^ k) :
    (x ||| y).toNat = x.toNat + y.toNat := by
  have hsplit : x.toNat = 2 ^ k * (x.toNat / 2 ^ k) := by
    have h := Nat.div_add_mod x.toNat (2 ^ k)
    omega
  rw [BitVec.toNat_or, hsplit]
  exact (Nat.two_pow_add_eq_or_of_lt hy _).symm

/-- Only the lower bits of the exponent's upper part are left after the shift. -/
theorem expTop_shift (exponent : Int) {k : Nat} (hk : k = 59 ∨ k = 61) :
    ((BitVec.ofInt 64 (exponent + 6176)).sshiftRight 12) <<< k =
      BitVec.ofNat 64 ((exponent + 6176) / 4096 % 32).toNat <<< k := by
  have hint : ∃ c : Int, ((BitVec.ofInt 64 (exponent + 6176)).sshiftRight 12).toInt =
      (exponent + 6176) / 4096 + c * 2 ^ 52 := by
    rw [BitVec.toInt_sshiftRight, BitVec.toInt_ofInt, Int.shiftRight_eq_div_pow]
    obtain ⟨c, hc⟩ : ∃ c : Int, (exponent + 6176).bmod (2 ^ 64) = exponent + 6176 + c * 2 ^ 64 := by
      obtain ⟨c, hc⟩ := Int.dvd_self_sub_bmod (x := exponent + 6176) (m := 2 ^ 64)
      exact ⟨-c, by omega⟩
    rw [hc]
    exact ⟨c, by omega⟩
  obtain ⟨c, hc⟩ := hint
  generalize (BitVec.ofInt 64 (exponent + 6176)).sshiftRight 12 = top at hc
  have htop := BitVec.toInt_eq_toNat_cond top
  apply BitVec.eq_of_toNat_eq
  rw [BitVec.toNat_shiftLeft, BitVec.toNat_shiftLeft, BitVec.toNat_ofNat, Nat.shiftLeft_eq, Nat.shiftLeft_eq]
  rcases hk with rfl | rfl
  all_goals split at htop <;> omega

theorem expBottom_toNat (exponent : Int) :
    (BitVec.ofInt 64 (exponent + 6176) &&& 0xfff#64).toNat = ((exponent + 6176) % 4096).toNat := by
  rw [BitVec.toNat_and, show (0xfff#64 : Word).toNat = 2 ^ 12 - 1 from rfl, Nat.and_two_pow_sub_one_eq_mod,
    BitVec.toNat_ofInt]
  omega

/-- The sign and the combination field with the rest of the exponent. -/
theorem signCombination_toNat (negative : Bool) (exponent : Int) {significandBcd : List Nat}
    (hlen : significandBcd.length = 34) (hmsd : significandBcd.headD 0 < 10) :
    (signWord negative ||| dpdCombinationBits exponent significandBcd).toNat =
      firstBits negative ((exponent + 6176) / 4096 % 32).toNat (significandBcd.headD 0) * 2 ^ 58 +
        ((exponent + 6176) % 4096).toNat * 2 ^ 46 := by
  have hfirst := firstBits_right negative ((exponent + 6176) / 4096 % 32).toNat (by omega) _ hmsd
  have hlt := firstBits_lt negative ((exponent + 6176) / 4096 % 32).toNat hmsd
  unfold dpdCombinationBits
  dsimp only
  rw [if_neg (not_not.mpr hlen), expTop_shift exponent (.inl rfl), expTop_shift exponent (.inr rfl),
    ← BitVec.or_assoc, ← BitVec.or_assoc, hfirst]
  have hupper : (BitVec.ofNat 64 (firstBits negative ((exponent + 6176) / 4096 % 32).toNat
      (significandBcd.headD 0) * 2 ^ 58)).toNat =
        firstBits negative ((exponent + 6176) / 4096 % 32).toNat (significandBcd.headD 0) * 2 ^ 58 := by
    rw [BitVec.toNat_ofNat]
    omega
  have hlower : ((BitVec.ofInt 64 (exponent + 6176) &&& 0xfff#64) <<< 46).toNat =
      ((exponent + 6176) % 4096).toNat * 2 ^ 46 := by
    rw [BitVec.toNat_shiftLeft, expBottom_toNat, Nat.shiftLeft_eq]
    omega
  rw [toNat_or 58, hupper, hlower]
  · rw [hupper]
    omega
  · rw [hlower]
    omega

theorem mapM_values {α β γ : Type} {f : α → Option β} {P : β → Prop} {g : β → γ} {value : α → γ} {l : List α}
    (h : ∀ x ∈ l, ∃ y, f x = some y ∧ P y ∧ g y = value x) :
    ∃ ys, l.mapM f = some ys ∧ ys.length = l.length ∧ (∀ y ∈ ys, P y) ∧ ys.map g = l.map value := by
  induction l with
  | nil => exact ⟨[], rfl, rfl, fun _ hy => absurd hy List.not_mem_nil, rfl⟩
  | cons x l ih =>
    obtain ⟨y, hy, hP, hg⟩ := h x (.head _)
    obtain ⟨ys, hys, hlen, hPs, hgs⟩ := ih fun z hz => h z (.tail _ hz)
    refine ⟨y :: ys, ?_, ?_, ?_, ?_⟩
    · rw [List.mapM_cons, hy, hys]
      rfl
    · rw [List.length_cons, List.length_cons, hlen]
    · intro z hz
      rcases List.mem_cons.mp hz with rfl | hz
      · exact hP
      · exact hPs z hz
    · rw [List.map_cons, List.map_cons, hg, hgs]

/-- The eleven declets of the digits after the first. -/
theorem declets_right {digits : List Nat} (hlen : digits.length = 34) (hdigit : ∀ digit ∈ digits, digit < 10) :
    ∃ declets : List Nat, ((List.range 11).mapM fun index =>
        bcd3ToDeclet ((digits.drop (index * 3 + 1)).take 3)) = some declets ∧
      declets.length = 11 ∧ (∀ declet ∈ declets, declet < 1024) ∧
        Decimal128.decletsValue 11 (Decimal128.packDeclets declets) = Decimal128.digitsValue digits.tail := by
  have htail : digits.tail.length = 3 * 11 := by
    rw [List.length_tail, hlen]
  have hstep : ∀ index ∈ List.range 11, ∃ declet,
      bcd3ToDeclet ((digits.drop (index * 3 + 1)).take 3) = some declet ∧ declet < 1024 ∧
        Decimal128.decletValue declet =
          Decimal128.digitsValue ((digits.tail.drop (index * 3)).take 3) := by
    intro index hindex
    have hindex := List.mem_range.mp hindex
    have hgroup : (digits.drop (index * 3 + 1)).take 3 = (digits.tail.drop (index * 3)).take 3 := by
      rw [List.drop_tail, Nat.add_comm]
    have hthree : ((digits.drop (index * 3 + 1)).take 3).length = 3 := by
      rw [List.length_take, List.length_drop]
      omega
    obtain ⟨a, b, c, habc⟩ := List.length_eq_three.mp hthree
    have hmem : ∀ d ∈ [a, b, c], d < 10 := by
      intro d hd
      rw [← habc] at hd
      exact hdigit d (List.mem_of_mem_drop (List.mem_of_mem_take hd))
    obtain ⟨declet, hlt, hdeclet, hvalue⟩ := bcd3ToDeclet_right a (hmem a (by simp)) b (hmem b (by simp))
      c (hmem c (by simp))
    refine ⟨declet, ?_, hlt, ?_⟩
    · rw [habc]
      exact hdeclet
    · rw [hvalue, ← hgroup, habc]
      unfold Decimal128.digitsValue
      simp only [List.foldl_cons, List.foldl_nil]
      omega
  obtain ⟨declets, hdeclets, hlength, hlt, hvalues⟩ := mapM_values hstep
  rw [List.length_range] at hlength
  refine ⟨declets, hdeclets, hlength, hlt, ?_⟩
  rw [← hlength, Decimal128.decletsValue_pack declets hlt, hvalues]
  exact Decimal128.groupsValue_digits 11 digits.tail htail

theorem or_declet {x dpd : Word} (k : Nat) (hk : k ≤ 54) (hx : x.toNat % 2 ^ (k + 10) = 0)
    (hdpd : dpd.toNat < 1024) : (x ||| (dpd <<< k)).toNat = x.toNat + dpd.toNat * 2 ^ k := by
  have hlt : dpd.toNat * 2 ^ k < 2 ^ (k + 10) := by
    rw [pow_add, mul_comm (2 ^ k)]
    exact Nat.mul_lt_mul_of_pos_right hdpd (Nat.two_pow_pos k)
  have hshift : (dpd <<< k).toNat = dpd.toNat * 2 ^ k := by
    rw [BitVec.toNat_shiftLeft, Nat.shiftLeft_eq]
    exact Nat.mod_eq_of_lt (lt_of_lt_of_le hlt (Nat.pow_le_pow_right (by norm_num) (by omega)))
  rw [toNat_or (k + 10) hx (by rw [hshift]; exact hlt), hshift]

/-- Each declet lies below the ones before it; the fifth is in both words. -/
theorem pack_declets (dpds : Nat → Word) (hdpds : ∀ i, (dpds i).toNat < 1024) (first : Word)
    (hfirst : first.toNat % 2 ^ 46 = 0) :
    ∃ upper < 2 ^ 46, (first ||| (dpds 0 <<< 36) ||| (dpds 1 <<< 26) ||| (dpds 2 <<< 16) ||| (dpds 3 <<< 6) |||
        (dpds 4 >>> 4)).toNat = first.toNat + upper ∧
      upper * 2 ^ 64 + (((dpds 4 &&& 0xf#64) <<< 60) ||| (dpds 5 <<< 50) ||| (dpds 6 <<< 40) |||
        (dpds 7 <<< 30) ||| (dpds 8 <<< 20) ||| (dpds 9 <<< 10) ||| dpds 10).toNat =
        Decimal128.packDeclets ((List.range 11).map fun i => (dpds i).toNat) := by
  have hhigh : (dpds 4 >>> 4).toNat = (dpds 4).toNat / 16 := by
    rw [BitVec.toNat_ushiftRight, Nat.shiftRight_eq_div_pow]
  have hlow : ((dpds 4 &&& 0xf#64) <<< 60).toNat = (dpds 4).toNat % 16 * 2 ^ 60 := by
    rw [BitVec.toNat_shiftLeft, BitVec.toNat_and, show (0xf#64 : Word).toNat = 2 ^ 4 - 1 from rfl,
      Nat.and_two_pow_sub_one_eq_mod, Nat.shiftLeft_eq]
    omega
  have h0 := hdpds 0
  have h1 := hdpds 1
  have h2 := hdpds 2
  have h3 := hdpds 3
  have h4 := hdpds 4
  have h5 := hdpds 5
  have h6 := hdpds 6
  have h7 := hdpds 7
  have h8 := hdpds 8
  have h9 := hdpds 9
  have h10 := hdpds 10
  refine ⟨(dpds 0).toNat * 2 ^ 36 + (dpds 1).toNat * 2 ^ 26 + (dpds 2).toNat * 2 ^ 16 +
    (dpds 3).toNat * 2 ^ 6 + (dpds 4).toNat / 16, by omega, ?_, ?_⟩
  · have s0 := or_declet (x := first) 36 (by omega) hfirst h0
    have s1 := or_declet 26 (by omega) (by rw [s0]; omega) h1
    have s2 := or_declet 16 (by omega) (by rw [s1]; omega) h2
    have s3 := or_declet 6 (by omega) (by rw [s2]; omega) h3
    rw [toNat_or 6 (by rw [s3]; omega) (by rw [hhigh]; omega), s3, s2, s1, s0, hhigh]
    omega
  · have s5 := or_declet (x := (dpds 4 &&& 0xf#64) <<< 60) 50 (by omega) (by rw [hlow]; omega) h5
    have s6 := or_declet 40 (by omega) (by rw [s5]; omega) h6
    have s7 := or_declet 30 (by omega) (by rw [s6]; omega) h7
    have s8 := or_declet 20 (by omega) (by rw [s7]; omega) h8
    have s9 := or_declet 10 (by omega) (by rw [s8]; omega) h9
    rw [toNat_or 10 (by rw [s9]; omega) h10, s9, s8, s7, s6, s5, hlow]
    simp only [List.range_succ, List.range_zero, List.nil_append, List.cons_append, List.map_cons,
      List.map_nil, Decimal128.packDeclets, List.foldl_cons, List.foldl_nil]
    omega

/-- What the words of 34 digits stand for, whatever the exponent. -/
theorem packWords_decode (negative : Bool) (exponent : Int) {digits : List Nat} (hlen : digits.length = 34)
    (hdigit : ∀ digit ∈ digits, digit < 10) :
    ∃ words, packWords (signWord negative) exponent digits = some words ∧
      Decimal128.decode words =
        (Decimal128.combination (firstBits negative ((exponent + 6176) / 4096 % 32).toNat (digits.headD 0) % 32)).map
          fun c => {
            negative := 32 ≤ firstBits negative ((exponent + 6176) / 4096 % 32).toNat (digits.headD 0)
            coefficient := c.2 * 10 ^ 33 + Decimal128.digitsValue digits.tail
            exponent := c.1 * 4096 + (exponent + 6176) % 4096 - 6176 } := by
  obtain ⟨declets, hdeclets, hlength, hlt, hvalue⟩ := declets_right hlen hdigit
  have hmsd : digits.headD 0 < 10 := by
    cases digits with
    | nil => norm_num
    | cons d ds => exact hdigit d (.head _)
  have hget : ∀ i, declets.getD i 0 < 1024 := by
    intro i
    rw [List.getD_eq_getElem?_getD]
    cases hget : declets[i]? with
    | none => norm_num
    | some declet => exact hlt declet (List.mem_of_getElem? hget)
  have htoNat : ∀ i, (BitVec.ofNat 64 (declets.getD i 0)).toNat = declets.getD i 0 := by
    intro i
    have h := hget i
    rw [BitVec.toNat_ofNat]
    omega
  have hsame : (List.range 11).map (fun i => (BitVec.ofNat 64 (declets.getD i 0)).toNat) = declets := by
    refine List.ext_getElem (by rw [List.length_map, List.length_range, hlength]) ?_
    intro i _ hi
    rw [List.getElem_map, List.getElem_range, htoNat, List.getD_eq_getElem _ _ hi]
  have hfirst := signCombination_toNat negative exponent hlen hmsd
  have hbits := firstBits_lt negative ((exponent + 6176) / 4096 % 32).toNat hmsd
  obtain ⟨upper, hupper, hhigh, hlow⟩ := pack_declets (fun i => BitVec.ofNat 64 (declets.getD i 0))
    (fun i => by rw [htoNat]; exact hget i) _ (by rw [hfirst]; omega)
  rw [hsame] at hlow
  have hwords : ∃ words, packWords (signWord negative) exponent digits = some words ∧
      words.2.toNat = (signWord negative ||| dpdCombinationBits exponent digits).toNat + upper ∧
        upper * 2 ^ 64 + words.1.toNat = Decimal128.packDeclets declets := by
    unfold packWords
    rw [hdeclets]
    exact ⟨_, rfl, hhigh, hlow⟩
  obtain ⟨words, hpack, hhigh, hlow⟩ := hwords
  refine ⟨words, hpack, ?_⟩
  rw [hfirst] at hhigh
  generalize firstBits negative ((exponent + 6176) / 4096 % 32).toNat (digits.headD 0) = bits at hhigh hbits ⊢
  have hfields : words.2.toNat = bits / 32 * 2 ^ 63 + bits % 32 * 2 ^ 58 +
      ((exponent + 6176) % 4096).toNat * 2 ^ 46 + upper := by
    have hsplit : bits * 2 ^ 58 = bits / 32 * 2 ^ 63 + bits % 32 * 2 ^ 58 := by
      clear * -
      omega
    rw [hhigh, hsplit]
  have hsign : (bits / 32 = 1) = (32 ≤ bits) := propext (by omega)
  have hcontinuation : (((exponent + 6176) % 4096).toNat : Int) = (exponent + 6176) % 4096 := by omega
  have hdecode := Decimal128.decode_fields hfields (by omega) (by omega) hupper
  simp only [hlow, hvalue, hcontinuation, hsign] at hdecode
  exact hdecode

end Nballerina.Comm
