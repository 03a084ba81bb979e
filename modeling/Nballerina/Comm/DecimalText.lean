import Nballerina.Comm.DecimalEncoding

/-!
# The words of a decimal's text

The texts of the `toString` form `[+-]d+[.d+][E[+-]d+]`, how `toLeDpd` reads them, and for which of them the
words stand for the number of the text.
-/

namespace Nballerina.Comm

open Nballerina.Lib

/-! ## Texts -/

/-- `some true` is a minus; no dot stands before an empty fraction. -/
structure DecimalText where
  sign : Option Bool
  whole : List (Fin 10)
  fraction : List (Fin 10)
  exponentPart : Option (Option Bool × List (Fin 10))
  whole_ne : whole ≠ []
  exponentPart_ne : ∀ part ∈ exponentPart, part.2 ≠ []

def signChars : Option Bool → List Char
  | none => []
  | some true => ['-']
  | some false => ['+']

def digitChar (digit : Fin 10) : Char := Char.ofNat (48 + digit)

namespace DecimalText

def significandChars (t : DecimalText) : List Char :=
  t.whole.map digitChar ++ if t.fraction = [] then [] else '.' :: t.fraction.map digitChar

def exponentChars (t : DecimalText) : List Char :=
  (t.exponentPart.map fun part => 'E' :: (signChars part.1 ++ part.2.map digitChar)).getD []

def chars (t : DecimalText) : List Char := signChars t.sign ++ t.significandChars ++ t.exponentChars

def negative (t : DecimalText) : Bool := t.sign = some true

def digits (t : DecimalText) : List Nat := (t.whole ++ t.fraction).map (·.val)

def coefficient (t : DecimalText) : Nat := Decimal128.digitsValue t.digits

/-- The number after the `E`. -/
def written (t : DecimalText) : Int :=
  (t.exponentPart.map fun part =>
    let n : Int := Decimal128.digitsValue (part.2.map (·.val))
    if part.1 = some true then -n else n).getD 0

def exponent (t : DecimalText) : Int := t.written - t.fraction.length

def value (t : DecimalText) : Rat := (if t.negative then -1 else 1) * t.coefficient * (10 : Rat) ^ t.exponent

end DecimalText

/-! ## Reading a text -/

theorem digitFromString_digitChar : ∀ digit : Fin 10, digitFromString (digitChar digit) = some digit.val := by
  decide

theorem digitChar_ne : ∀ digit : Fin 10,
    digitChar digit ≠ '-' ∧ digitChar digit ≠ '+' ∧ digitChar digit ≠ '.' ∧ digitChar digit ≠ 'E' := by
  decide

theorem mapM_digitFromString (digits : List (Fin 10)) :
    (digits.map digitChar).mapM digitFromString = some (digits.map (·.val)) := by
  induction digits with
  | nil => rfl
  | cons digit digits ih =>
    rw [List.map_cons, List.mapM_cons, digitFromString_digitChar, ih]
    rfl

theorem intFromString_eq {str digits : List Char} {ds : List Nat} (hne : digits ≠ [])
    (hdigits : (if str[0]? = some '-' ∨ str[0]? = some '+' then str.drop 1 else str) = digits)
    (hread : digits.mapM digitFromString = some ds) :
    intFromString str = checkedInt (if str[0]? = some '-' then -(Decimal128.digitsValue ds : Int)
      else (Decimal128.digitsValue ds : Int)) := by
  unfold intFromString
  simp only [hdigits, if_neg hne, hread, Option.bind_eq_bind, Option.bind_some]

/-- A number with its sign, as it stands after the `E`. -/
theorem intFromString_digits (sign : Option Bool) {digits : List (Fin 10)} (hne : digits ≠ []) :
    intFromString (signChars sign ++ digits.map digitChar) =
      checkedInt (if sign = some true then -(Decimal128.digitsValue (digits.map (·.val)) : Int)
        else (Decimal128.digitsValue (digits.map (·.val)) : Int)) := by
  have hmap : digits.map digitChar ≠ [] := fun h => hne (List.map_eq_nil_iff.mp h)
  have hread := mapM_digitFromString digits
  obtain ⟨digit, rest, hcons⟩ := List.exists_cons_of_ne_nil hne
  rcases sign with _ | _ | _
  · have hfirst : (signChars none ++ digits.map digitChar)[0]? = some (digitChar digit) := by
      rw [hcons]
      rfl
    have hminus : (signChars none ++ digits.map digitChar)[0]? ≠ some '-' := fun h =>
      (digitChar_ne digit).1 (Option.some.inj (hfirst.symm.trans h))
    have hplus : (signChars none ++ digits.map digitChar)[0]? ≠ some '+' := fun h =>
      (digitChar_ne digit).2.1 (Option.some.inj (hfirst.symm.trans h))
    rw [intFromString_eq hmap (if_neg (not_or.mpr ⟨hminus, hplus⟩)) hread, if_neg hminus,
      if_neg (Option.some_ne_none true).symm]
  · have hminus : ¬(signChars (some false) ++ digits.map digitChar)[0]? = some '-' := fun h =>
      absurd (Option.some.inj h) (by decide)
    have hplus : (signChars (some false) ++ digits.map digitChar)[0]? = some '+' := rfl
    rw [intFromString_eq hmap (if_pos (.inr hplus)) hread, if_neg hminus,
      if_neg (fun h => Bool.false_ne_true (Option.some.inj h))]
  · have hminus : (signChars (some true) ++ digits.map digitChar)[0]? = some '-' := rfl
    rw [intFromString_eq hmap (if_pos (.inl hminus)) hread, if_pos hminus, if_pos rfl]

theorem idxOf?_none {c : Char} {l : List Char} (h : c ∉ l) : l.idxOf? c = none :=
  List.idxOf?_eq_none_iff.mpr h

theorem idxOf?_append_cons {c : Char} {l r : List Char} (h : c ∉ l) : (l ++ c :: r).idxOf? c = some l.length := by
  induction l with
  | nil => rw [List.nil_append, List.idxOf?_cons, beq_self_eq_true, if_pos rfl, List.length_nil]
  | cons x l ih =>
    have hx : (x == c) = false := beq_eq_false_iff_ne.mpr fun hx => h (hx ▸ (.head _))
    rw [List.cons_append, List.idxOf?_cons, hx, ih fun hmem => h (.tail _ hmem)]
    rfl

/-- Reading a segment by its indices. -/
theorem mapM_segment {β : Type} (f : Char → Option β) (post : List Char) (seg : List Char) : ∀ pre : List Char,
    ((List.range' pre.length seg.length).mapM fun i => (pre ++ seg ++ post)[i]?.bind f) = seg.mapM f := by
  induction seg with
  | nil =>
    intro pre
    rfl
  | cons c seg ih =>
    intro pre
    have hnext := ih (pre ++ [c])
    rw [List.length_append, List.length_singleton, List.append_assoc pre, List.singleton_append] at hnext
    have hget : (pre ++ c :: seg ++ post)[pre.length]? = some c := by
      rw [List.append_assoc, List.getElem?_append_right (Nat.le_refl _), Nat.sub_self]
      rfl
    rw [List.length_cons, List.range'_succ, List.mapM_cons, List.mapM_cons, hget, hnext]
    rfl

namespace DecimalText

variable (t : DecimalText)

theorem significandChars_head : ∃ digit rest, t.significandChars = digitChar digit :: rest := by
  obtain ⟨digit, whole, hwhole⟩ := List.exists_cons_of_ne_nil t.whole_ne
  refine ⟨digit, whole.map digitChar ++ (if t.fraction = [] then [] else '.' :: t.fraction.map digitChar), ?_⟩
  unfold significandChars
  rw [hwhole]
  rfl

theorem not_mem_digits {c : Char} (hc : ∀ digit, digitChar digit ≠ c) (digits : List (Fin 10)) :
    c ∉ digits.map digitChar := by
  intro hmem
  obtain ⟨digit, _, h⟩ := List.mem_map.mp hmem
  exact hc digit h

theorem not_mem_sign {c : Char} (hminus : '-' ≠ c) (hplus : '+' ≠ c) (sign : Option Bool) :
    c ∉ signChars sign := by
  intro hmem
  rcases sign with _ | _ | _
  · exact absurd hmem List.not_mem_nil
  · exact hplus (List.mem_singleton.mp hmem).symm
  · exact hminus (List.mem_singleton.mp hmem).symm

theorem chars_first : t.chars[0]? = some '-' ↔ t.negative = true := by
  obtain ⟨digit, rest, hrest⟩ := t.significandChars_head
  unfold chars negative
  rw [hrest]
  rcases t.sign with _ | _ | _
  · constructor
    · intro h
      exact absurd (Option.some.inj h) (digitChar_ne digit).1
    · intro h
      cases of_decide_eq_true h
  · constructor
    · intro h
      exact absurd (Option.some.inj h) (by decide)
    · intro h
      cases of_decide_eq_true h
  · exact ⟨fun _ => rfl, fun _ => rfl⟩

theorem chars_signed : (if t.chars[0]? = some '+' ∨ t.chars[0]? = some '-' then 1 else 0) =
    (signChars t.sign).length := by
  obtain ⟨digit, rest, hrest⟩ := t.significandChars_head
  unfold chars
  rw [hrest]
  rcases t.sign with _ | _ | _
  · refine if_neg ?_
    rintro (h | h)
    · exact (digitChar_ne digit).2.1 (Option.some.inj h)
    · exact (digitChar_ne digit).1 (Option.some.inj h)
  · exact if_pos (.inl rfl)
  · exact if_pos (.inr rfl)

theorem not_mem_significand {c : Char} (hc : ∀ digit, digitChar digit ≠ c) (hdot : c ≠ '.') :
    c ∉ t.significandChars := by
  unfold significandChars
  intro hmem
  rcases List.mem_append.mp hmem with hwhole | hfraction
  · exact not_mem_digits hc _ hwhole
  · split at hfraction
    · exact absurd hfraction List.not_mem_nil
    · rcases List.mem_cons.mp hfraction with h | h
      · exact hdot h
      · exact not_mem_digits hc _ h

theorem exponentStart : t.chars.idxOf? 'E' =
    t.exponentPart.map fun _ => (signChars t.sign ++ t.significandChars).length := by
  have hbefore : 'E' ∉ signChars t.sign ++ t.significandChars := by
    intro hmem
    rcases List.mem_append.mp hmem with h | h
    · exact not_mem_sign (by decide) (by decide) _ h
    · exact t.not_mem_significand (fun d => (digitChar_ne d).2.2.2) (by decide) h
  unfold chars exponentChars
  cases t.exponentPart with
  | none =>
    rw [Option.map_none, Option.getD_none, List.append_nil]
    exact idxOf?_none hbefore
  | some part => exact idxOf?_append_cons hbefore

theorem exponentStart_getD :
    (t.chars.idxOf? 'E').getD t.chars.length = (signChars t.sign ++ t.significandChars).length := by
  rw [exponentStart]
  unfold chars exponentChars
  cases t.exponentPart with
  | none => rw [Option.map_none, Option.map_none, Option.getD_none, Option.getD_none, List.append_nil]
  | some part => rfl

theorem exponent_read : readExponent t.chars (t.chars.idxOf? 'E') = checkedInt t.written := by
  rw [exponentStart]
  unfold written chars exponentChars
  cases hpart : t.exponentPart with
  | none => rfl
  | some part =>
    have hdrop : (signChars t.sign ++ t.significandChars ++ 'E' :: (signChars part.1 ++ part.2.map digitChar)).drop
        ((signChars t.sign ++ t.significandChars).length + 1) = signChars part.1 ++ part.2.map digitChar := by
      rw [List.drop_length_add_append]
      rfl
    simp only [Option.map_some, Option.getD_some, readExponent]
    rw [hdrop]
    exact intFromString_digits part.1 (t.exponentPart_ne part (Option.mem_def.mpr hpart))

theorem dot_index : t.chars.idxOf? '.' =
    if t.fraction = [] then none else some ((signChars t.sign).length + t.whole.length) := by
  have hbefore : '.' ∉ signChars t.sign ++ t.whole.map digitChar := by
    intro hmem
    rcases List.mem_append.mp hmem with h | h
    · exact not_mem_sign (by decide) (by decide) _ h
    · exact not_mem_digits (fun d => (digitChar_ne d).2.2.1) _ h
  unfold chars significandChars
  split
  next hfraction =>
    rw [List.append_nil]
    refine idxOf?_none fun hmem => ?_
    rcases List.mem_append.mp hmem with h | h
    · exact hbefore h
    · unfold exponentChars at h
      cases hpart : t.exponentPart with
      | none =>
        rw [hpart] at h
        exact absurd h List.not_mem_nil
      | some part =>
        rw [hpart] at h
        rcases List.mem_cons.mp h with h | h
        · exact absurd h (by decide)
        · rcases List.mem_append.mp h with h | h
          · exact not_mem_sign (by decide) (by decide) _ h
          · exact not_mem_digits (fun d => (digitChar_ne d).2.2.1) _ h
  next hfraction =>
    rw [← List.append_assoc, List.append_assoc _ ('.' :: _), List.cons_append, idxOf?_append_cons hbefore,
      List.length_append, List.length_map]

/-- All indices but that of the dot. -/
theorem filter_dot (s w f : Nat) :
    (List.range' s (w + (1 + f))).filter (fun i => some i ≠ some (s + w)) =
      List.range' s w ++ List.range' (s + w + 1) f := by
  have hbefore : ∀ i ∈ List.range' s w, decide (some i ≠ some (s + w)) = true := by
    intro i hi
    have hi := List.mem_range'_1.mp hi
    exact decide_eq_true fun h => by
      have h := Option.some.inj h
      omega
  have hafter : ∀ i ∈ List.range' (s + w + 1) f, decide (some i ≠ some (s + w)) = true := by
    intro i hi
    have hi := List.mem_range'_1.mp hi
    exact decide_eq_true fun h => by
      have h := Option.some.inj h
      omega
  have hdot : decide (some (s + w) ≠ some (s + w)) = false := decide_eq_false (not_not.mpr rfl)
  rw [← List.range'_append_1, ← List.range'_append_1, List.filter_append, List.filter_append,
    List.filter_eq_self.mpr hbefore, List.filter_eq_self.mpr hafter]
  simp only [List.range'_one, List.filter_cons, hdot, Bool.false_eq_true, if_false, List.filter_nil,
    List.nil_append]

theorem significand_read :
    (((List.range' (signChars t.sign).length
        ((signChars t.sign ++ t.significandChars).length - (signChars t.sign).length)).filter
      fun i => some i ≠ t.chars.idxOf? '.').mapM fun i => t.chars[i]?.bind digitFromString) = some t.digits := by
  have hlen : (signChars t.sign ++ t.significandChars).length - (signChars t.sign).length =
      t.significandChars.length := by
    rw [List.length_append, Nat.add_sub_cancel_left]
  have hwhole : ∀ post, ((List.range' (signChars t.sign).length t.whole.length).mapM fun i =>
      (signChars t.sign ++ t.whole.map digitChar ++ post)[i]?.bind digitFromString) =
        some (t.whole.map (·.val)) := by
    intro post
    have h := mapM_segment digitFromString post (t.whole.map digitChar) (signChars t.sign)
    rw [List.length_map] at h
    rw [h, mapM_digitFromString]
  rw [hlen, dot_index]
  unfold chars digits significandChars
  split
  next hfraction =>
    have hall : ∀ i ∈ List.range' (signChars t.sign).length t.whole.length,
        decide (some i ≠ (none : Option Nat)) = true := fun i _ => decide_eq_true (Option.some_ne_none i)
    rw [List.append_nil, List.length_map, List.filter_eq_self.mpr hall, hwhole, hfraction, List.append_nil]
  next hfraction =>
    have hsecond := mapM_segment digitFromString t.exponentChars (t.fraction.map digitChar)
      (signChars t.sign ++ (t.whole.map digitChar ++ ['.']))
    have hstart : (signChars t.sign ++ (t.whole.map digitChar ++ ['.'])).length =
        (signChars t.sign).length + t.whole.length + 1 := by
      rw [List.length_append, List.length_append, List.length_map, List.length_singleton, Nat.add_assoc]
    have hlength : (t.whole.map digitChar ++ '.' :: t.fraction.map digitChar).length =
        t.whole.length + (1 + t.fraction.length) := by
      rw [List.length_append, List.length_map, List.length_cons, List.length_map, Nat.add_comm 1]
    rw [hstart, List.length_map, mapM_digitFromString] at hsecond
    have hchars : signChars t.sign ++ (t.whole.map digitChar ++ '.' :: t.fraction.map digitChar) ++
        t.exponentChars = signChars t.sign ++ (t.whole.map digitChar ++ ['.']) ++
          t.fraction.map digitChar ++ t.exponentChars := by
      simp only [List.append_assoc, List.singleton_append]
    have hchars' : signChars t.sign ++ (t.whole.map digitChar ++ '.' :: t.fraction.map digitChar) ++
        t.exponentChars = signChars t.sign ++ t.whole.map digitChar ++
          ('.' :: t.fraction.map digitChar ++ t.exponentChars) := by
      simp only [List.append_assoc]
    rw [hlength, filter_dot, List.mapM_append, hchars, hsecond, ← hchars, hchars', hwhole, List.map_append]
    rfl

theorem exponent_lower (exponent : Int) :
    lowerExponent (signChars t.sign ++ t.significandChars).length (t.chars.idxOf? '.') exponent =
      if t.fraction = [] then some exponent else checkedInt (exponent - t.fraction.length) := by
  rw [dot_index]
  split
  next => rfl
  next hfraction =>
    have hplaces : ((signChars t.sign ++ t.significandChars).length : Int) - 1 -
        ((signChars t.sign).length + t.whole.length : Nat) = t.fraction.length := by
      unfold significandChars
      rw [if_neg hfraction, List.length_append, List.length_append, List.length_map, List.length_cons,
        List.length_map]
      omega
    unfold lowerExponent
    dsimp only
    rw [hplaces]

/-- A text as it is read; each step stays an int. -/
theorem toLeDpd_chars : toLeDpd t.chars =
    (checkedInt t.written).bind fun written =>
      (if t.fraction = [] then some written else checkedInt (written - t.fraction.length)).bind fun exponent =>
        encodeSignificand (signWord t.negative) exponent t.digits := by
  have hsign : (if t.chars[0]? = some '-' then 1#64 <<< 63 else 0#64) = signWord t.negative := by
    unfold signWord
    exact if_congr t.chars_first rfl rfl
  unfold toLeDpd
  simp only [chars_signed, exponentStart_getD, significand_read, exponent_read, exponent_lower, hsign]
  rfl

/-- Of a text: its exponent can be read, and its digits can be encoded. -/
def Encodable (t : DecimalText) : Prop :=
  t.written < 2 ^ 63 ∧ Comm.Encodable t.negative t.exponent t.digits

instance : Decidable t.Encodable := by
  unfold Encodable
  infer_instance

end DecimalText

/-- The words stand for the value of the text exactly when it can be encoded. -/
theorem toLeDpd_encodes_iff (t : DecimalText) :
    ((toLeDpd t.chars).bind Decimal128.decode).map Decimal128.value = some t.value ↔ t.Encodable := by
  have hdigit : ∀ digit ∈ t.digits, digit < 10 := by
    intro digit hmem
    obtain ⟨i, _, rfl⟩ := List.mem_map.mp hmem
    exact i.isLt
  have hexponent : t.exponent = t.written - t.fraction.length := rfl
  rw [DecimalText.toLeDpd_chars]
  unfold DecimalText.Encodable
  by_cases hwritten : -2 ^ 63 ≤ t.written ∧ t.written < 2 ^ 63
  · have hchecked : checkedInt t.written = some t.written := if_pos hwritten
    rw [hchecked, Option.bind_some, and_iff_right hwritten.2]
    by_cases hlow : -2 ^ 63 ≤ t.exponent
    · have hlowered : (if t.fraction = [] then some t.written else checkedInt (t.written - t.fraction.length)) =
          some t.exponent := by
        split
        next hfraction => rw [hexponent, hfraction, List.length_nil, Nat.cast_zero, sub_zero]
        next => exact if_pos ⟨hlow, by omega⟩
      rw [hlowered, Option.bind_some]
      exact encodeSignificand_right_iff t.negative (by omega) hdigit
    · have hfraction : t.fraction ≠ [] := by
        intro h
        rw [hexponent, h, List.length_nil, Nat.cast_zero, sub_zero] at hlow
        exact hlow hwritten.1
      have hlowered : checkedInt (t.written - t.fraction.length) = none := if_neg fun h => hlow h.1
      rw [if_neg hfraction, hlowered]
      refine iff_of_false (fun h => by cases h) fun h => hlow ?_
      have h := h.1
      omega
  · have hchecked : checkedInt t.written = none := if_neg hwritten
    rw [hchecked]
    refine iff_of_false (fun h => by cases h) fun h => hwritten ⟨?_, h.1⟩
    have h := h.2.1
    omega

/-- The words of a text that denotes `d` stand for `d` exactly for the texts that can be encoded. -/
theorem toLeDpd_right_iff (d : Decimal128) (t : DecimalText) (hd : t.value = d.value) :
    ((toLeDpd t.chars).bind Decimal128.decode).map Decimal128.value = some d.value ↔ t.Encodable := by
  rw [← hd]
  exact toLeDpd_encodes_iff t

/-- `-12.50E+3` -/
def minusTwelveThousand : DecimalText where
  sign := some true
  whole := [1, 2]
  fraction := [5, 0]
  exponentPart := some (some false, [3])
  whole_ne := List.cons_ne_nil _ _
  exponentPart_ne := fun _ h => by cases h; exact List.cons_ne_nil _ _

theorem toLeDpd_minusTwelveThousand :
    minusTwelveThousand.chars = "-12.50E+3".toList ∧
      ((toLeDpd minusTwelveThousand.chars).bind Decimal128.decode).map Decimal128.value =
        some (Decimal128.value ⟨true, 1250, 1⟩) := by
  refine ⟨by decide, (toLeDpd_right_iff ⟨true, 1250, 1⟩ minusTwelveThousand ?_).mpr (by decide)⟩
  unfold DecimalText.value
  rw [show minusTwelveThousand.coefficient = 1250 from rfl,
    show minusTwelveThousand.exponent = 1 from rfl]
  rfl

/-- 34 digits after `0.` -/
def thirtyFourPlaces : DecimalText where
  sign := none
  whole := [0]
  fraction := [1, 2, 3, 4, 5, 6, 7, 8, 9, 0, 1, 2, 3, 4, 5, 6, 7, 8, 9, 0, 1, 2, 3, 4, 5, 6, 7, 8, 9, 0, 1, 2, 3, 4]
  exponentPart := none
  whole_ne := List.cons_ne_nil _ _
  exponentPart_ne := fun _ h => by cases h

/-- The text of a number of 34 digits gets the words of a tenth of it. -/
theorem toLeDpd_thirtyFourPlaces :
    thirtyFourPlaces.chars = "0.1234567890123456789012345678901234".toList ∧
      thirtyFourPlaces.value = Decimal128.value ⟨false, 1234567890123456789012345678901234, -34⟩ ∧
        (toLeDpd thirtyFourPlaces.chars).bind Decimal128.decode =
          some ⟨false, 1234567890123456789012345678901234, -35⟩ ∧
          Decimal128.value ⟨false, 1234567890123456789012345678901234, -35⟩ ≠ thirtyFourPlaces.value := by
  have hvalue : thirtyFourPlaces.value = Decimal128.value ⟨false, 1234567890123456789012345678901234, -34⟩ := by
    unfold DecimalText.value
    rw [show thirtyFourPlaces.coefficient = 1234567890123456789012345678901234 from rfl,
      show thirtyFourPlaces.exponent = -34 from rfl]
    rfl
  refine ⟨by decide, hvalue, by decide +kernel, ?_⟩
  rw [hvalue]
  intro h
  rcases (Decimal128.signed_eq_iff false false _ _ _ _).mp h with ⟨hzero, _⟩ | ⟨hne, _, hsame⟩
  · cases hzero
  · exact absurd (Decimal128.exponent_eq_of_value_eq hne hsame) (by decide)

/-- `-0.5` -/
def minusHalf : DecimalText where
  sign := some true
  whole := [0]
  fraction := [5]
  exponentPart := none
  whole_ne := List.cons_ne_nil _ _
  exponentPart_ne := fun _ h => by cases h

end Nballerina.Comm
