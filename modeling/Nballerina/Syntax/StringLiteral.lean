import Nballerina.Syntax.Lossless

/-!
# Literals of strings (`front.syntax/syntaxNode.bal`)

`stringLiteral` writes a string as a literal. What is not a printable ASCII character is written as an escape, which
ends at its brace or after one letter; so the scanner finds the end of every escape whatever follows it, and
the tokenizer puts the string together again (`stringLiteral_token`).
-/

namespace Nballerina.Syntax

def REVERSE_ESCAPES : Char → Option Char
  | '\\' => some '\\'
  | '\x22' => some '\x22'
  | '\n' => some 'n'
  | '\r' => some 'r'
  | '\t' => some 't'
  | _ => none

def hexDigitChar (digit : Nat) : Char := if digit < 10 then Char.ofNat (48 + digit) else Char.ofNat (87 + digit)

/-- `toHexString()` of an int that is not negative. -/
def toHexString (n : Nat) : Text :=
  if n < 16 then [hexDigitChar n] else toHexString (n / 16) ++ [hexDigitChar (n % 16)]

def toUpperAscii (s : Text) : Text := s.map Char.toUpper

/-- The chunks of one character. -/
def escapeChar (ch : Char) : Text :=
  match REVERSE_ESCAPES ch with
  | none =>
    let cp := ch.toNat
    if 0x20 ≤ cp ∧ cp < 0x7F then [ch]
    else ['\\', 'u', '\x7b'] ++ toUpperAscii (toHexString cp) ++ ['\x7d']
  | some singleEscaped => ['\\', singleEscaped]

def stringLiteral (str : Text) : Text := ['\x22'] ++ str.flatMap escapeChar ++ ['\x22']

/-! ## Hexadecimal digits -/

theorem hexDigitChar_right : ∀ digit < 16,
    isHexDigit (hexDigitChar digit).toUpper = true ∧ hexDigitValue (hexDigitChar digit).toUpper = digit ∧
      (hexDigitChar digit).toUpper ≠ '\x7d' := by
  decide

theorem toHexString_ne_nil (n : Nat) : toHexString n ≠ [] := by
  unfold toHexString
  split
  next => exact List.cons_ne_nil _ _
  next => exact List.append_ne_nil_of_right_ne_nil _ (List.cons_ne_nil _ _)

theorem toHexString_digits (n : Nat) : ∀ cp ∈ toUpperAscii (toHexString n), isHexDigit cp = true := by
  induction n using toHexString.induct with
  | case1 n hn =>
    unfold toHexString toUpperAscii
    rw [if_pos hn]
    exact List.forall_mem_singleton.mpr (hexDigitChar_right n hn).1
  | case2 n hn ih =>
    unfold toUpperAscii at ih
    unfold toHexString toUpperAscii
    rw [if_neg hn, List.map_append]
    exact List.forall_mem_append.mpr ⟨ih,
      List.forall_mem_singleton.mpr (hexDigitChar_right _ (Nat.mod_lt _ (by omega))).1⟩

theorem toHexString_value (n : Nat) :
    (toUpperAscii (toHexString n)).foldl (fun n cp => n * 16 + hexDigitValue cp) 0 = n := by
  induction n using toHexString.induct with
  | case1 n hn =>
    unfold toHexString toUpperAscii
    rw [if_pos hn, List.map_singleton, List.foldl_cons, List.foldl_nil, (hexDigitChar_right n hn).2.1]
    omega
  | case2 n hn ih =>
    unfold toUpperAscii at ih
    unfold toHexString toUpperAscii
    rw [if_neg hn, List.map_append, List.foldl_append, ih, List.map_singleton, List.foldl_cons, List.foldl_nil,
      (hexDigitChar_right _ (Nat.mod_lt _ (by omega))).2.1]
    omega

/-- The escape of a code point is read as the character. -/
theorem unicodeEscapeValue_right (ch : Char) :
    unicodeEscapeValue (['\\', 'u', '\x7b'] ++ toUpperAscii (toHexString ch.toNat) ++ ['\x7d']) = some (some ch) := by
  have hsub := substring_append ['\\', 'u', '\x7b'] (toUpperAscii (toHexString ch.toNat)) ['\x7d']
  have hlength : (['\\', 'u', '\x7b'] ++ toUpperAscii (toHexString ch.toNat) ++ ['\x7d']).length - 1 =
      ['\\', 'u', '\x7b'].length + (toUpperAscii (toHexString ch.toNat)).length := by
    rw [List.length_append, List.length_append, List.length_singleton, Nat.add_sub_cancel]
  have hne : toUpperAscii (toHexString ch.toNat) ≠ [] :=
    fun h => toHexString_ne_nil _ (List.map_eq_nil_iff.mp h)
  have hvalid : ch.toNat.isValidChar := ch.valid
  have hlt : ch.toNat < 2 ^ 63 := by
    rcases hvalid with h | h <;> omega
  unfold unicodeEscapeValue
  rw [hlength, show 3 = ['\\', 'u', '\x7b'].length from rfl, hsub]
  show some ((intFromHexString _).bind _) = _
  unfold intFromHexString
  rw [if_pos ⟨hne, List.all_eq_true.mpr (toHexString_digits _)⟩, toHexString_value]
  dsimp only
  rw [if_pos hlt, Option.bind_some]
  unfold stringFromCodePointInt
  rw [if_pos hvalid, Char.ofNat_toNat]

/-! ## Fragments of a literal -/

/-- With enough steps the text up to a closing quote is these fragments. -/
def Closes (cs : Text) (fragments : List Fragment) (rest : Text) : Prop :=
  ∀ fuel, cs.length ≤ fuel → scanStringLoop fuel cs = some (fragments, rest)

theorem Closes.quote (rest : Text) : Closes ('\x22' :: rest) [⟨.stringClose, ['\x22']⟩] rest := by
  intro fuel hfuel
  cases fuel with
  | zero => exact absurd hfuel (Nat.not_succ_le_zero _)
  | succ fuel =>
    unfold scanStringLoop
    exact if_pos rfl

variable {cs rest : Text} {fragments : List Fragment}

/-- A step that is not a character. -/
theorem Closes.escape {cp : Char} {code : FragCode} {n : Nat} (hquote : cp ≠ '\x22')
    (hstep : scanStringFragment cp cs = (code, n)) (hcode : code ≠ .stringChars)
    (h : Closes (cs.drop n) fragments rest) :
    Closes (cp :: cs) (⟨code, cp :: cs.take n⟩ :: fragments) rest := by
  intro fuel hfuel
  cases fuel with
  | zero => exact absurd hfuel (Nat.not_succ_le_zero _)
  | succ fuel =>
    have hlen : (cs.drop n).length ≤ fuel := by
      rw [List.length_drop]
      rw [List.length_cons] at hfuel
      omega
    unfold scanStringLoop
    rw [if_neg hquote, hstep]
    dsimp only
    rw [h fuel hlen]
    dsimp only [Option.bind_eq_bind, Option.bind_some]
    rw [if_neg hcode]
    rfl

theorem Closes.char {cp : Char} (hquote : cp ≠ '\x22') (hescape : cp ≠ '\\')
    (h : Closes cs fragments rest) :
    Closes (cp :: cs) (mergeChars cp fragments) rest := by
  intro fuel hfuel
  cases fuel with
  | zero => exact absurd hfuel (Nat.not_succ_le_zero _)
  | succ fuel =>
    have hstep : scanStringFragment cp cs = (.stringChars, 0) := if_neg hescape
    unfold scanStringLoop
    rw [if_neg hquote, hstep]
    dsimp only
    rw [List.drop_zero, h fuel (Nat.le_of_succ_le_succ hfuel)]
    rfl

theorem lexString_cons {f : Fragment} {chars : Text} (hclose : f.code ≠ .stringClose) (hchars : f.chars = .ok chars)
    (str : Text) (fragments : List Fragment) :
    lexString str (f :: fragments) = lexString (str ++ chars) fragments := by
  conv => lhs; unfold lexString
  rw [if_neg hclose, hchars]

theorem lexString_mergeChars (cp : Char) (str : Text) (fragments more : List Fragment) :
    lexString str (mergeChars cp fragments ++ more) = lexString (str ++ [cp]) (fragments ++ more) := by
  have hchars (text : Text) (f : List Fragment) :
      lexString str (⟨.stringChars, text⟩ :: f) = lexString (str ++ text) f :=
    lexString_cons (fun h => by cases h) rfl str f
  unfold mergeChars
  split
  next text fragments =>
    rw [List.cons_append, List.cons_append, hchars,
      lexString_cons (f := ⟨.stringChars, text⟩) (fun h => by cases h) rfl, List.append_assoc]
    rfl
  next => rw [List.cons_append, hchars]

theorem scanNumericEscape_hex (digits rest : Text) (hne : digits ≠ []) (hhex : ∀ cp ∈ digits, isHexDigit cp = true) :
    scanNumericEscape ('\x7b' :: (digits ++ '\x7d' :: rest)) = some (1 + digits.length + 1) := by
  have htake : (digits ++ '\x7d' :: rest).takeWhile isHexDigit = digits := by
    rw [List.takeWhile_append_of_pos hhex]
    show digits ++ [] = digits
    exact List.append_nil digits
  have hdigits : scanHexDigits (digits ++ '\x7d' :: rest) = some digits.length := by
    unfold scanHexDigits
    rw [htake]
    exact if_neg fun h => hne (List.length_eq_zero_iff.mp h)
  have hclose : (digits ++ '\x7d' :: rest)[digits.length]? = some '\x7d' := by
    rw [List.getElem?_append_right (Nat.le_refl _), Nat.sub_self]
    rfl
  unfold scanNumericEscape
  dsimp only
  rw [if_pos rfl, hdigits]
  dsimp only [Option.bind_eq_bind, Option.bind_some]
  rw [hclose]
  rfl

theorem numericEscape_chars {text : Text} {ch : Char} (h : unicodeEscapeValue text = some (some ch)) :
    Fragment.chars ⟨.stringNumericEscape, text⟩ = .ok [ch] := by
  unfold Fragment.chars
  dsimp only
  rw [h]

/-- The chunks of one character are read as the character. -/
theorem escapeChar_closes (ch : Char) (h : Closes cs fragments rest) :
    ∃ fragments', Closes (escapeChar ch ++ cs) fragments' rest ∧
      ∀ str more, lexString str (fragments' ++ more) = lexString (str ++ [ch]) (fragments ++ more) := by
  have hletter (letter : Char) (code : FragCode)
      (hstep : scanStringFragment '\\' (letter :: cs) = (code, 1)) (hcode : code ≠ .stringChars)
      (hclose : code ≠ .stringClose) (hchars : Fragment.chars ⟨code, ['\\', letter]⟩ = .ok [ch]) :
      ∃ fragments', Closes (['\\', letter] ++ cs) fragments' rest ∧
        ∀ str more, lexString str (fragments' ++ more) = lexString (str ++ [ch]) (fragments ++ more) :=
    ⟨_, Closes.escape (by decide) hstep hcode h, fun str more => lexString_cons hclose hchars str _⟩
  unfold escapeChar
  split
  next hnone =>
    dsimp only
    split
    next =>
      have hquote : ch ≠ '\x22' := by
        rintro rfl
        cases hnone
      have hescape : ch ≠ '\\' := by
        rintro rfl
        cases hnone
      exact ⟨_, h.char hquote hescape, fun str more => lexString_mergeChars ch str _ _⟩
    next =>
      have hne : toUpperAscii (toHexString ch.toNat) ≠ [] :=
        fun h => toHexString_ne_nil _ (List.map_eq_nil_iff.mp h)
      have hread := unicodeEscapeValue_right ch
      have hhex := scanNumericEscape_hex _ cs hne (toHexString_digits ch.toNat)
      generalize toUpperAscii (toHexString ch.toNat) = digits at hne hread hhex
      have hstep : scanStringFragment '\\' ('u' :: '\x7b' :: (digits ++ '\x7d' :: cs)) =
          (.stringNumericEscape, digits.length + 3) := by
        unfold scanStringFragment
        dsimp only
        rw [if_pos rfl, if_neg (by decide), if_neg (by decide), if_pos rfl, hhex]
        refine Prod.ext rfl ?_
        dsimp only
        omega
      have htext : ['u', '\x7b'] ++ digits ++ ['\x7d'] ++ cs = 'u' :: '\x7b' :: (digits ++ '\x7d' :: cs) := by
        simp only [List.append_assoc, List.cons_append, List.nil_append]
      have hlength : (['u', '\x7b'] ++ digits ++ ['\x7d']).length = digits.length + 3 := by
        simp only [List.length_append, List.length_cons, List.length_nil]
        omega
      have hrest : Closes (('u' :: '\x7b' :: (digits ++ '\x7d' :: cs)).drop (digits.length + 3)) fragments rest := by
        rw [← htext, ← hlength, List.drop_left]
        exact h
      have hclosed := Closes.escape (by decide) hstep (by decide) hrest
      rw [← htext, ← hlength, List.take_left] at hclosed
      refine ⟨⟨.stringNumericEscape, '\\' :: (['u', '\x7b'] ++ digits ++ ['\x7d'])⟩ :: fragments, ?_,
        fun str more => lexString_cons (fun h => by cases h) (numericEscape_chars hread) str _⟩
      simp only [List.append_assoc, List.cons_append, List.nil_append] at hclosed ⊢
      exact hclosed
  next singleEscaped hsome =>
    unfold REVERSE_ESCAPES at hsome
    split at hsome
    all_goals cases hsome
    · exact hletter '\\' .stringCharEscape rfl (by decide) (by decide) rfl
    · exact hletter '\x22' .stringCharEscape rfl (by decide) (by decide) rfl
    · exact hletter 'n' .stringControlEscape rfl (by decide) (by decide) rfl
    · exact hletter 'r' .stringControlEscape rfl (by decide) (by decide) rfl
    · exact hletter 't' .stringControlEscape rfl (by decide) (by decide) rfl

theorem escaped_closes (s : Text) (rest : Text) :
    ∃ fragments, Closes (s.flatMap escapeChar ++ '\x22' :: rest) fragments rest ∧
      ∀ str more, lexString str (fragments ++ more) = .ok (str ++ s, more) := by
  induction s with
  | nil =>
    refine ⟨_, Closes.quote rest, fun str more => ?_⟩
    rw [List.append_nil]
    rfl
  | cons ch s ih =>
    obtain ⟨fragments, hclosed, hread⟩ := ih
    obtain ⟨fragments', hclosed', hread'⟩ := escapeChar_closes ch hclosed
    refine ⟨fragments', ?_, fun str more => ?_⟩
    · rw [List.flatMap_cons, List.append_assoc]
      exact hclosed'
    · rw [hread', hread, List.append_assoc]
      rfl

/-! ## The token of a literal -/

theorem scanNormal_mono : ∀ (fuel more : Nat) (cs : Text) {fragments : List Fragment},
    scanNormal fuel cs = some fragments → scanNormal (fuel + more) cs = some fragments
  | _, _, [], _, h => by
    unfold scanNormal at h ⊢
    exact h
  | 0, _, _ :: _, _, h => by cases h
  | fuel + 1, more, cp :: cs, fragments, h => by
    rw [Nat.add_right_comm]
    unfold scanNormal at h ⊢
    split at h
    next hquote =>
      rw [if_pos hquote]
      cases hstring : scanString cs with
      | mk string after =>
      rw [hstring] at h
      obtain ⟨rest, hrest, h⟩ := Option.bind_eq_some_iff.mp h
      cases h
      dsimp only
      rw [scanNormal_mono fuel more _ hrest]
      rfl
    next hquote =>
      obtain ⟨r, hr, h⟩ := Option.bind_eq_some_iff.mp h
      obtain ⟨rest, hrest, h⟩ := Option.bind_eq_some_iff.mp h
      cases h
      rw [if_neg hquote, hr]
      dsimp only [Option.bind_eq_bind, Option.bind_some]
      rw [scanNormal_mono fuel more _ hrest]
      rfl

/-- A line that starts with a literal. -/
theorem scanNormal_literal (s after : Text) (hafter : InLine after) :
    ∃ fragments rest, scanNormal (stringLiteral s ++ after).length (stringLiteral s ++ after) =
        some (⟨.stringOpen, ['\x22']⟩ :: fragments ++ rest) ∧
      scanNormal after.length after = some rest ∧ lexString [] (fragments ++ rest) = .ok (s, rest) := by
  obtain ⟨fragments, hclosed, hread⟩ := escaped_closes s after
  obtain ⟨rest, hrest⟩ := scanNormal_some after.length after hafter (Nat.le_refl _)
  have hline : stringLiteral s ++ after = '\x22' :: (s.flatMap escapeChar ++ '\x22' :: after) := by
    simp only [stringLiteral, List.append_assoc, List.cons_append, List.nil_append]
  have hfuel : (s.flatMap escapeChar ++ '\x22' :: after).length =
      after.length + ((s.flatMap escapeChar).length + 1) := by
    rw [List.length_append, List.length_cons]
    omega
  have hstring : scanString (s.flatMap escapeChar ++ '\x22' :: after) =
      (⟨.stringOpen, ['\x22']⟩ :: fragments, after) := by
    unfold scanString
    rw [hclosed _ (Nat.le_refl _)]
  refine ⟨fragments, rest, ?_, hrest, hread [] rest⟩
  rw [hline, List.length_cons]
  unfold scanNormal
  rw [if_pos rfl, hstring]
  dsimp only
  rw [hfuel, scanNormal_mono _ _ _ hrest]
  rfl

theorem mapM_scanLineAt {texts : List Text} (h : ∀ text ∈ texts, InLine text) :
    ∃ lines : List (List Fragment), texts.mapM scanLineAt = some (lines.map ScannedLine.ofFragments) ∧
      ∀ line ∈ lines, Lexed line := by
  induction texts with
  | nil => exact ⟨[], rfl, fun _ h => absurd h List.not_mem_nil⟩
  | cons text texts ih =>
    obtain ⟨htext, htexts⟩ := List.forall_mem_cons.mp h
    obtain ⟨lines, hlines, hlexed⟩ := ih htexts
    obtain ⟨fragments, hscan⟩ := scanNormal_some text.length text htext (Nat.le_refl _)
    refine ⟨fragments :: lines, ?_, List.forall_mem_cons.mpr ⟨scanNormal_lexed _ _ hscan, hlexed⟩⟩
    rw [List.mapM_cons, scanLineAt_eq hscan, hlines]
    rfl

/-- **A literal is the token of its string.** It is the first token of a line that starts with it, whatever else
the line and those after it have, and what is left of the line is what scanning finds after the
literal. -/
theorem stringLiteral_token (file : Nat) (s after : Text) (later : List Text) (hafter : InLine after)
    (hlater : ∀ line ∈ later, InLine line) :
    ∃ lines tok rest others, ((stringLiteral s ++ after) :: later).mapM scanLineAt = some lines ∧
      (Tokenizer.init file lines).advance = .ok tok ∧ tok.curTok = some (.stringLiteral s) ∧
        scanNormal after.length after = some rest ∧ At tok rest others := by
  obtain ⟨fragments, rest, hscan, hrest, hread⟩ := scanNormal_literal s after hafter
  obtain ⟨others, hothers, hlexed⟩ := mapM_scanLineAt hlater
  have hline : Lexed (⟨.stringOpen, ['\x22']⟩ :: fragments ++ rest) := scanNormal_lexed _ _ hscan
  have hat : At (Tokenizer.init file (((⟨.stringOpen, ['\x22']⟩ :: fragments ++ rest) :: others).map
      ScannedLine.ofFragments)) [] ((⟨.stringOpen, ['\x22']⟩ :: fragments ++ rest) :: others) :=
    ⟨rfl, List.nil_prefix, rfl⟩
  have hadvance := advance_lex hat .nil (List.forall_mem_cons.mpr ⟨hline, hlexed⟩)
  have hlex : lex (Tokenizer.init file (((⟨.stringOpen, ['\x22']⟩ :: fragments ++ rest) :: others).map
      ScannedLine.ofFragments)).mode [] ((⟨.stringOpen, ['\x22']⟩ :: fragments ++ rest) :: others) =
      .token (.stringLiteral s) rest others := by
    show lex .normal (⟨.stringOpen, ['\x22']⟩ :: (fragments ++ rest)) others = _
    rw [lex_cons .normal rfl]
    show stringOutcome others (lexString [] (fragments ++ rest)) = _
    rw [hread]
    rfl
  rw [hlex] at hadvance
  have hlines : ((stringLiteral s ++ after) :: later).mapM scanLineAt =
      some (((⟨.stringOpen, ['\x22']⟩ :: fragments ++ rest) :: others).map ScannedLine.ofFragments) := by
    rw [List.mapM_cons, scanLineAt_eq hscan, hothers]
    rfl
  cases htok : (Tokenizer.init file (((⟨.stringOpen, ['\x22']⟩ :: fragments ++ rest) :: others).map
      ScannedLine.ofFragments)).advance with
  | ok tok =>
    rw [htok] at hadvance
    exact ⟨_, tok, rest, others, hlines, htok, hadvance.1, hrest, hadvance.2.1⟩
  | error stop =>
    rw [htok] at hadvance
    exact hadvance.elim

/-- A quote, and an escape before what looks like one of its digits. -/
theorem stringLiteral_token_sample : ∃ lines tok rest others,
    ((stringLiteral ['\x22', 'é', 'A'] ++ [' ', '+']) :: [['x']]).mapM scanLineAt = some lines ∧
      (Tokenizer.init 0 lines).advance = .ok tok ∧ tok.curTok = some (.stringLiteral ['\x22', 'é', 'A']) ∧
        scanNormal 2 [' ', '+'] = some rest ∧ At tok rest others :=
  stringLiteral_token 0 ['\x22', 'é', 'A'] [' ', '+'] [['x']] (by unfold InLine; simp) (by unfold InLine; simp)

end Nballerina.Syntax
