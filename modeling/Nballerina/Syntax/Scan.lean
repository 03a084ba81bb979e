import Nballerina.Syntax.Token

/-!
# Fragments of a line (`front.syntax/scan.bal`)

What `scanLine` makes of the code points of a line. The tokenizer relies on more than the codes show:
that a string that opens is closed on the line with nothing but string fragments before that, and that
the texts of the fragments are long enough to be cut as it does. Both hold of every line
(`scanLine_lexed`).

Mirroring notes:
- An index into the code points is here the number of code points after the first of the fragment, and
  the ones that are left are the rest of the list. So `endIndex` of the source is not kept: a fragment
  has its text, and `scanLine` drops the texts that are always the same.
- `isCodePointUnicodeIdentifier` is false for every code point.
-/

namespace Nballerina.Syntax

/-- A fragment that has been ended, with its text. -/
structure Fragment where
  code : FragCode
  text : Text
deriving DecidableEq

def isHexDigit (cp : Char) : Bool :=
  cp.isDigit || (decide ('A' ≤ cp) && decide (cp ≤ 'F')) || (decide ('a' ≤ cp) && decide (cp ≤ 'f'))

def isCodePointIdentifierFollowing (cp : Char) : Bool :=
  cp.isUpper || cp.isLower || cp.isDigit || cp == '_'

/-! ## Numbers -/

/-- The number of digits that follow. -/
def scanOptDigits (cs : Text) : Nat := (cs.takeWhile Char.isDigit).length

def scanHexDigits (cs : Text) : Option Nat :=
  let i := (cs.takeWhile isHexDigit).length
  if i = 0 then none else some i

/-- `cs` follows the `e`. -/
def scanExponent : Text → Option Nat
  | [] => none
  | cp :: cs =>
    if cp = '-' ∨ cp = '+' then
      match cs with
      | [] => none
      | cp :: cs => if cp.isDigit then some (2 + scanOptDigits cs) else none
    else if cp.isDigit then some (1 + scanOptDigits cs)
    else none

/-- `cs` follows the point. -/
def scanFractionExponent : Text → Option Nat
  | [] => none
  | cp :: cs =>
    if cp.isDigit then
      let i := 1 + scanOptDigits cs
      match (cp :: cs).drop i with
      | [] => some i
      | cp :: cs =>
        if cp = 'E' ∨ cp = 'e' then
          match scanExponent cs with
          | some n => some (i + 1 + n)
          | none => some i
        else some i
    else none

/-- The end of a decimal number after `i` code points, where `cs` follows. -/
def endDecimal (fragCodeIfNoSuffix : FragCode) (i : Nat) (cs : Text) : FragCode × Nat :=
  match cs with
  | [] => (fragCodeIfNoSuffix, i)
  | cp :: _ =>
    if cp = 'F' ∨ cp = 'f' then (.decimalFpNumberF, i + 1)
    else if cp = 'D' ∨ cp = 'd' then (.decimalFpNumberD, i + 1)
    else (fragCodeIfNoSuffix, i)

/-- `cs` follows the first digit. -/
def scanDecimal (cs : Text) : FragCode × Nat :=
  let i := scanOptDigits cs
  let rest := cs.drop i
  match rest with
  | [] => endDecimal .decimalNumber i rest
  | cp :: after =>
    if cp = '.' then
      match scanFractionExponent after with
      | some n => endDecimal .decimalFpNumber (i + 1 + n) (after.drop n)
      | none => endDecimal .decimalNumber i rest
    else if cp = 'E' ∨ cp = 'e' then
      match scanExponent after with
      | some n => endDecimal .decimalFpNumber (i + 1 + n) (after.drop n)
      | none => endDecimal .decimalNumber i rest
    else endDecimal .decimalNumber i rest

/-! ## Identifiers -/

def scanIdentifier (cs : Text) : Nat := (cs.takeWhile isCodePointIdentifierFollowing).length

/-- `keywordIndex`, with the keyword itself. -/
def keywordOf (text : Text) : Option FixedToken := keywords.find? fun k => k.text == text

def endIdentifierOrKeyword (text : Text) : FragCode :=
  match keywordOf text with
  | none => .identifier
  | some k => .fixed k

/-- An identifier or keyword that starts with a lower case letter. -/
def scanLower (cp : Char) (cs : Text) : FragCode × Nat :=
  let i := (cs.takeWhile Char.isLower).length
  match cs.drop i with
  | [] => (endIdentifierOrKeyword (cp :: cs.take i), i)
  | next :: after =>
    if isCodePointIdentifierFollowing next then (.identifier, i + 1 + scanIdentifier after)
    else (endIdentifierOrKeyword (cp :: cs.take i), i)

/-! ## Strings -/

/-- `cs` follows the `u`. -/
def scanNumericEscape : Text → Option Nat
  | [] => none
  | cp :: cs =>
    if cp = '{' then do
      let i ← scanHexDigits cs
      let close ← cs[i]?
      if close = '}' then some (1 + i + 1) else none
    else none

/-- `endFragmentMerge`, before the fragments that follow. -/
def mergeChars (cp : Char) : List Fragment → List Fragment
  | ⟨.stringChars, text⟩ :: fragments => ⟨.stringChars, cp :: text⟩ :: fragments
  | fragments => ⟨.stringChars, [cp]⟩ :: fragments

/-- One step inside of a string: the fragment that ends, and the number of code points after its
first. -/
def scanStringFragment (cp : Char) (cs : Text) : FragCode × Nat :=
  if cp = '\\' then
    match cs with
    | [] => (.invalid, 0)
    | cp2 :: after =>
      if cp2 = 'r' ∨ cp2 = 'n' ∨ cp2 = 't' then (.stringControlEscape, 1)
      else if cp2 = '\\' ∨ cp2 = '\x22' then (.stringCharEscape, 1)
      else if cp2 = 'u' then
        match scanNumericEscape after with
        | some i => (.stringNumericEscape, 1 + i)
        | none => (.invalid, 0)
      else (.invalid, 0)
  else (.stringChars, 0)

/-- The loop of `scanString`: the fragments up to the closing quote and what follows it, if there is a
closing quote. The first argument bounds the number of steps. -/
def scanStringLoop : Nat → Text → Option (List Fragment × Text)
  | 0, _ => none
  | _, [] => none
  | fuel + 1, cp :: cs =>
    if cp = '\x22' then some ([⟨.stringClose, [cp]⟩], cs)
    else do
      let (code, n) := scanStringFragment cp cs
      let (fragments, rest) ← scanStringLoop fuel (cs.drop n)
      if code = .stringChars then return (mergeChars cp fragments, rest)
      else return (⟨code, cp :: cs.take n⟩ :: fragments, rest)

/-- `cs` follows the opening quote, which is invalid if no quote closes it. -/
def scanString (cs : Text) : List Fragment × Text :=
  match scanStringLoop cs.length cs with
  | some (fragments, rest) => (⟨.stringOpen, ['\x22']⟩ :: fragments, rest)
  | none => ([⟨.invalid, ['\x22']⟩], cs)

/-! ## Lines -/

/-- The code of a delimiter that may be followed by `=`. -/
def endFragmentCompoundAssign (cs : Text) (code codeIfEqual : FixedToken) : FragCode × Nat :=
  match cs with
  | '=' :: _ => (.fixed codeIfEqual, 1)
  | _ => (.fixed code, 0)

/-- The body of the loop of `scanNormal`, other than for a quote: the fragment that starts with `cp`,
and the number of code points of `cs` in it. The `none` is a panic. -/
def scanFragment (cp : Char) (cs : Text) : Option (FragCode × Nat) :=
  match cp with
  | '\n' | '\r' => none
  | ' ' | '\t' => some (.whitespace, (cs.takeWhile fun c => c == ' ' || c == '\t').length)
  | '/' =>
    match cs with
    | '=' :: _ => some (.fixed .slashEqual, 1)
    | '/' :: _ => some (.comment, cs.length)
    | _ => some (.fixed .slash, 0)
  | '{' =>
    match cs with
    | '|' :: _ => some (.fixed .leftCurlyVbar, 1)
    | _ => some (.fixed .leftCurly, 0)
  | '|' =>
    match cs with
    | '}' :: _ => some (.fixed .vbarRightCurly, 1)
    | '=' :: _ => some (.fixed .vbarEqual, 1)
    | '|' :: _ => some (.fixed .vbarVbar, 1)
    | _ => some (.fixed .vbar, 0)
  | '.' =>
    match cs with
    | '.' :: '.' :: _ => some (.fixed .dotDotDot, 2)
    | '.' :: '<' :: _ => some (.fixed .dotDotLessThan, 2)
    | _ =>
      match scanFractionExponent cs with
      | some n => some (endDecimal .decimalFpNumber n (cs.drop n))
      | none => some (.fixed .dot, 0)
  | '=' =>
    match cs with
    | '=' :: '=' :: _ => some (.fixed .equalEqualEqual, 2)
    | '=' :: _ => some (.fixed .equalEqual, 1)
    | '>' :: _ => some (.fixed .equalGreaterThan, 1)
    | _ => some (.fixed .equal, 0)
  | '!' =>
    match cs with
    | '=' :: '=' :: _ => some (.fixed .notEqualEqual, 2)
    | '=' :: _ => some (.fixed .notEqual, 1)
    | _ => some (.fixed .exclam, 0)
  | '<' =>
    match cs with
    | '<' :: '=' :: _ => some (.fixed .lessThanLessThanEqual, 2)
    | '<' :: _ => some (.fixed .lessThanLessThan, 1)
    | '=' :: _ => some (.fixed .lessThanEqual, 1)
    | _ => some (.fixed .lessThan, 0)
  | '>' =>
    match cs with
    | '=' :: _ => some (.fixed .greaterThanEqual, 1)
    | '>' :: '>' :: '=' :: _ => some (.fixed .greaterThanGreaterThanGreaterThanEqual, 3)
    | '>' :: '=' :: _ => some (.fixed .greaterThanGreaterThanEqual, 2)
    -- whether several of them are one token depends on the lexical mode
    | _ => some (.greaterThan, 0)
  | '0' =>
    match cs with
    | [] => some (scanDecimal cs)
    | cp2 :: after =>
      if cp2 = 'X' ∨ cp2 = 'x' then
        match scanHexDigits after with
        | some n => some (.hexNumber, 1 + n)
        | none => some (scanDecimal cs)
      else if cp2.isDigit then some (.decimalNumber, 0)
      else some (scanDecimal cs)
  | '%' => some (.fixed .percent, 0)
  | '(' => some (.fixed .leftParen, 0)
  | ')' => some (.fixed .rightParen, 0)
  | ',' => some (.fixed .comma, 0)
  | ':' => some (.fixed .colon, 0)
  | ';' => some (.fixed .semicolon, 0)
  | '?' => some (.fixed .question, 0)
  | '[' => some (.fixed .leftSquare, 0)
  | ']' => some (.fixed .rightSquare, 0)
  | '}' => some (.fixed .rightCurly, 0)
  | '~' => some (.fixed .tilde, 0)
  | '^' => some (endFragmentCompoundAssign cs .circumflex .circumflexEqual)
  | '+' => some (endFragmentCompoundAssign cs .plus .plusEqual)
  | '-' => some (endFragmentCompoundAssign cs .minus .minusEqual)
  | '*' => some (endFragmentCompoundAssign cs .asterisk .asteriskEqual)
  | '&' =>
    match cs with
    | '&' :: _ => some (.fixed .ampersandAmpersand, 1)
    | _ => some (endFragmentCompoundAssign cs .ampersand .ampersandEqual)
  | '_' =>
    match cs with
    | next :: after =>
      if isCodePointIdentifierFollowing next then some (.identifier, 1 + scanIdentifier after)
      else some (.fixed .underscore, 0)
    | [] => some (.fixed .underscore, 0)
  | _ =>
    if cp.isDigit then some (scanDecimal cs)
    else if cp.isLower then some (scanLower cp cs)
    else if cp.isUpper then some (.identifier, scanIdentifier cs)
    else some (.invalid, 0)

/-- The first argument bounds the number of fragments. -/
def scanNormal : Nat → Text → Option (List Fragment)
  | _, [] => some []
  | 0, _ => none
  | fuel + 1, cp :: cs =>
    if cp = '\x22' then do
      let (fragments, rest) := scanString cs
      return fragments ++ (← scanNormal fuel rest)
    else do
      let (code, n) ← scanFragment cp cs
      return ⟨code, cp :: cs.take n⟩ :: (← scanNormal fuel (cs.drop n))

/-- The texts that are kept. -/
def fragmentTexts (fragments : List Fragment) : List Text :=
  (fragments.filter fun f => f.code.isVar).map (·.text)

def ScannedLine.ofFragments (fragments : List Fragment) : ScannedLine :=
  ⟨fragments.map (·.code), fragmentTexts fragments⟩

/-- The `none` is a panic: there is a line end in the line. -/
def scanLine (line : Text) : Option ScannedLine :=
  (scanNormal line.length line).map ScannedLine.ofFragments

/-! ## What holds of the fragments of a line -/

/-- The text of a fragment can be cut as the tokenizer does. -/
def Fragment.Cut (f : Fragment) : Prop :=
  match f.code with
  | .stringControlEscape => ∃ cp, (cp = 'r' ∨ cp = 'n' ∨ cp = 't') ∧ f.text = ['\\', cp]
  | .stringCharEscape => ∃ cp, f.text = ['\\', cp]
  | .stringNumericEscape => 4 ≤ f.text.length
  | .hexNumber => 2 ≤ f.text.length
  | _ => True

/-- A code outside of strings with any text, which is not the end of the line. -/
def FragCode.simple : FragCode → Bool
  | .hexNumber => false
  | .comment => false
  | code => code.plain

variable {code : FragCode}

theorem endDecimal_simple (h : code.simple = true) (i : Nat) (cs : Text) :
    (endDecimal code i cs).1.simple = true := by
  unfold endDecimal
  split
  next => exact h
  next =>
    split
    next => exact rfl
    next =>
      split
      next => exact rfl
      next => exact h

theorem scanDecimal_simple (cs : Text) : (scanDecimal cs).1.simple = true := by
  have hnumber (i : Nat) (cs : Text) : (endDecimal .decimalNumber i cs).1.simple = true :=
    endDecimal_simple rfl i cs
  have hfp (i : Nat) (cs : Text) : (endDecimal .decimalFpNumber i cs).1.simple = true :=
    endDecimal_simple rfl i cs
  unfold scanDecimal
  dsimp only
  split
  next => exact hnumber _ _
  next =>
    split
    next => split <;> first | exact hfp _ _ | exact hnumber _ _
    next =>
      split
      next => split <;> first | exact hfp _ _ | exact hnumber _ _
      next => exact hnumber _ _

theorem fixed_simple (t : FixedToken) : (FragCode.fixed t).simple = true := rfl

theorem endIdentifierOrKeyword_simple (text : Text) : (endIdentifierOrKeyword text).simple = true := by
  unfold endIdentifierOrKeyword
  split
  next => exact rfl
  next => exact fixed_simple _

theorem scanLower_simple (cp : Char) (cs : Text) : (scanLower cp cs).1.simple = true := by
  unfold scanLower
  dsimp only
  split
  next => exact endIdentifierOrKeyword_simple _
  next =>
    split
    next => exact rfl
    next => exact endIdentifierOrKeyword_simple _

theorem endFragmentCompoundAssign_simple (cs : Text) (code codeIfEqual : FixedToken) :
    (endFragmentCompoundAssign cs code codeIfEqual).1.simple = true := by
  unfold endFragmentCompoundAssign
  split <;> exact fixed_simple _

/-- Every branch ends a fragment of its own kind. A hex number has a text that must be long enough, and a
comment is the rest of the line. -/
theorem scanFragment_code {cp : Char} {cs : Text} {n : Nat} (h : scanFragment cp cs = some (code, n)) :
    code.simple = true ∨ (code = .hexNumber ∧ 1 ≤ n ∧ cs ≠ []) ∨ (code = .comment ∧ n = cs.length) := by
  unfold scanFragment at h
  have hends {r : FragCode × Nat} (hr : r.1.simple = true) (h : some r = some (code, n)) : code.simple = true := by
    cases h
    exact hr
  have hplain {c : FragCode} {i : Nat} (hc : c.simple = true) (h : some (c, i) = some (code, n)) :
      code.simple = true := hends (r := (c, i)) hc h
  have hhex {i : Nat} {cp2 : Char} {after : Text} (hi : scanHexDigits after = some i)
      (h : some (FragCode.hexNumber, 1 + i) = some (code, n)) :
      code = .hexNumber ∧ 1 ≤ n ∧ cp2 :: after ≠ [] := by
    cases h
    exact ⟨rfl, Nat.le_add_right .., nofun⟩
  have hcomment {i : Nat} (h : some (FragCode.comment, i) = some (code, n)) :
      code = .comment ∧ n = i := by
    cases h
    exact ⟨rfl, rfl⟩
  repeat' split at h
  all_goals
    first
    | contradiction
    | exact Or.inl (hplain (fixed_simple _) h)
    | exact Or.inr (Or.inl (hhex ‹_› h))
    | exact Or.inr (Or.inr (hcomment h))
    | exact Or.inl (hplain rfl h)
    | exact Or.inl (hends (scanDecimal_simple _) h)
    | exact Or.inl (hends (scanLower_simple _ _) h)
    | exact Or.inl (hends (endFragmentCompoundAssign_simple _ _ _) h)
    | exact Or.inl (hends (endDecimal_simple rfl _ _) h)

/-- The fragments of a line: a fragment outside of strings, or a string that is closed, or a comment at
the end. -/
inductive Lexed : List Fragment → Prop where
  | nil : Lexed []
  | plain {f : Fragment} {fragments : List Fragment} :
      f.code.plain = true → f.code ≠ .comment → f.Cut → Lexed fragments → Lexed (f :: fragments)
  | comment {text : Text} : Lexed [⟨.comment, text⟩]
  | string {opened closed : Text} {body fragments : List Fragment} :
      (∀ f ∈ body, f.code.inString = true ∧ f.Cut) → Lexed fragments →
      Lexed (⟨.stringOpen, opened⟩ :: body ++ ⟨.stringClose, closed⟩ :: fragments)

theorem FragCode.plain_of_simple (h : code.simple = true) :
    code.plain = true ∧ code ≠ .comment := by
  cases code <;> simp_all [FragCode.simple, FragCode.plain]

theorem FragCode.cut_of_simple (h : code.simple = true) (text : Text) :
    Fragment.Cut ⟨code, text⟩ := by
  cases code <;> first | exact trivial | cases h

/-- The shortest escape has one digit. -/
theorem scanNumericEscape_length {cs : Text} {i : Nat} (h : scanNumericEscape cs = some i) :
    3 ≤ i ∧ i ≤ cs.length := by
  unfold scanNumericEscape at h
  split at h
  next => cases h
  next cp cs =>
    split at h
    next =>
      obtain ⟨n, hn, h⟩ := Option.bind_eq_some_iff.mp h
      obtain ⟨close, hclose, h⟩ := Option.bind_eq_some_iff.mp h
      split at h
      next =>
        cases h
        have hpos : 1 ≤ n := by
          unfold scanHexDigits at hn
          dsimp only at hn
          split at hn
          next => cases hn
          next => cases hn; omega
        have hlt := (List.getElem?_eq_some_iff.mp hclose).1
        rw [List.length_cons]
        omega
      next => cases h
    next => cases h

/-- A step inside of a string. -/
theorem scanStringFragment_cut {cp : Char} {cs : Text} {n : Nat}
    (h : scanStringFragment cp cs = (code, n)) :
    code.inString = true ∧ Fragment.Cut ⟨code, cp :: cs.take n⟩ := by
  unfold scanStringFragment at h
  split at h
  next hcp =>
    subst hcp
    split at h
    next =>
      cases h
      exact ⟨rfl, trivial⟩
    next cp2 after =>
      split at h
      next hcontrol =>
        cases h
        refine ⟨rfl, cp2, ?_, rfl⟩
        omega
      next =>
        split at h
        next =>
          cases h
          exact ⟨rfl, cp2, rfl⟩
        next =>
          split at h
          next =>
            split at h
            next i hi =>
              cases h
              obtain ⟨hlower, hupper⟩ := scanNumericEscape_length hi
              refine ⟨rfl, ?_⟩
              show 4 ≤ ('\\' :: (cp2 :: after).take (1 + i)).length
              rw [List.length_cons, List.length_take, List.length_cons]
              omega
            next =>
              cases h
              exact ⟨rfl, trivial⟩
          next =>
            cases h
            exact ⟨rfl, trivial⟩
  next =>
    cases h
    exact ⟨rfl, trivial⟩

/-- Fragments that end a string. -/
def ClosesString (fragments : List Fragment) : Prop :=
  ∃ body closed, fragments = body ++ [⟨.stringClose, closed⟩] ∧
    ∀ f ∈ body, f.code.inString = true ∧ f.Cut

theorem ClosesString.cons {f : Fragment} {fragments : List Fragment} (h : ClosesString fragments)
    (hcode : f.code.inString = true) (hcut : f.Cut) : ClosesString (f :: fragments) := by
  obtain ⟨body, closed, rfl, hbody⟩ := h
  exact ⟨f :: body, closed, rfl, List.forall_mem_cons.mpr ⟨⟨hcode, hcut⟩, hbody⟩⟩

theorem ClosesString.mergeChars {fragments : List Fragment} (cp : Char) (h : ClosesString fragments) :
    ClosesString (mergeChars cp fragments) := by
  unfold Syntax.mergeChars
  split
  next text fragments =>
    obtain ⟨body, closed, heq, hbody⟩ := h
    cases body with
    | nil => cases heq
    | cons f body =>
      obtain ⟨rfl, rfl⟩ := List.cons.inj heq
      exact ⟨⟨.stringChars, cp :: text⟩ :: body, closed, rfl,
        List.forall_mem_cons.mpr ⟨⟨rfl, trivial⟩, (List.forall_mem_cons.mp hbody).2⟩⟩
  next => exact h.cons rfl trivial

theorem scanStringLoop_closes : ∀ (fuel : Nat) (cs : Text) {fragments : List Fragment} {rest : Text},
    scanStringLoop fuel cs = some (fragments, rest) → ClosesString fragments
  | 0, _, _, _, h => by cases h
  | _ + 1, [], _, _, h => by cases h
  | fuel + 1, cp :: cs, fragments, rest, h => by
    unfold scanStringLoop at h
    split at h
    next =>
      cases h
      exact ⟨[], [cp], rfl, fun f hf => by cases hf⟩
    next =>
      cases hstep : scanStringFragment cp cs with
      | mk code n =>
      obtain ⟨hcode, hcut⟩ := scanStringFragment_cut hstep
      rw [hstep] at h
      obtain ⟨⟨fragments', rest'⟩, hloop, h⟩ := Option.bind_eq_some_iff.mp h
      have ih := scanStringLoop_closes fuel _ hloop
      dsimp only at h
      split at h
      next =>
        cases h
        exact ih.mergeChars cp
      next =>
        cases h
        exact ih.cons hcode hcut

theorem scanString_lexed (cs : Text) {fragments : List Fragment} (h : Lexed fragments) :
    Lexed ((scanString cs).1 ++ fragments) := by
  unfold scanString
  split
  next body rest hloop =>
    obtain ⟨body, closed, rfl, hbody⟩ := scanStringLoop_closes _ _ hloop
    rw [List.cons_append, List.append_assoc]
    exact .string hbody h
  next => exact .plain rfl nofun trivial h

theorem scanNormal_lexed : ∀ (fuel : Nat) (cs : Text) {fragments : List Fragment},
    scanNormal fuel cs = some fragments → Lexed fragments
  | _, [], _, h => by
    unfold scanNormal at h
    cases h
    exact .nil
  | 0, _ :: _, _, h => by cases h
  | fuel + 1, cp :: cs, fragments, h => by
    unfold scanNormal at h
    split at h
    next =>
      obtain ⟨rest, hrest, h⟩ := Option.bind_eq_some_iff.mp h
      cases h
      exact scanString_lexed cs (scanNormal_lexed fuel _ hrest)
    next =>
      obtain ⟨⟨code, n⟩, hcode, h⟩ := Option.bind_eq_some_iff.mp h
      obtain ⟨rest, hrest, h⟩ := Option.bind_eq_some_iff.mp h
      cases h
      have hlexed := scanNormal_lexed fuel _ hrest
      rcases scanFragment_code hcode with hsimple | ⟨rfl, hn, hcs⟩ | ⟨rfl, rfl⟩
      · obtain ⟨hplain, hcomment⟩ := FragCode.plain_of_simple hsimple
        exact .plain hplain hcomment (FragCode.cut_of_simple hsimple _) hlexed
      · refine .plain rfl nofun ?_ hlexed
        have hlength := List.length_pos_iff.mpr hcs
        show 2 ≤ (cp :: cs.take n).length
        rw [List.length_cons, List.length_take]
        omega
      · rw [List.drop_length] at hrest
        unfold scanNormal at hrest
        cases hrest
        exact .comment

/-- What `scanLine` returns is the fragments of a line. -/
theorem scanLine_lexed {text : Text} {line : ScannedLine} (h : scanLine text = some line) :
    ∃ fragments, line = .ofFragments fragments ∧ Lexed fragments := by
  obtain ⟨fragments, hscan, rfl⟩ := Option.map_eq_some_iff.mp h
  exact ⟨fragments, rfl, scanNormal_lexed _ _ hscan⟩

end Nballerina.Syntax
