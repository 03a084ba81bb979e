import Nballerina.Comm.Decimal

/-!
# Reading s-expressions (`comm.sexpr/parse.bal`)

The tokenizer steps over white space and comments in front of a token, and keeps reading a symbol or a
number until white space or a closing parenthesis. Between the lists at top level it is not asked for
tokens at all: `hasNext` looks for the next opening parenthesis, whatever it stands in.

Mirroring notes:
- The tokenizer's `src` and `pos` are here the code points not read yet. Where the source steps back by one,
  the code point stays in front of the others.
- A read past the end panics, and so does `unescape` after a last backslash (`Failure.indexOutOfRange`).
  `int:fromString` gives an error for a text that is not an int. The code points of a string always make a
  string, so `fromCodePointInts` has no error here.
- A string is the list of its code points. Floats and decimals, which `Data` has too, are never read and are
  left out.
-/

namespace Nballerina.Sexpr

open Nballerina.Lib Nballerina.Comm

abbrev LINE_FEED : Char := '\x0a'
abbrev QUOTE : Char := '\x22'
abbrev OPEN_PAREN : Char := '\x28'
abbrev CLOSE_PAREN : Char := '\x29'
abbrev MINUS : Char := '\x2d'
abbrev SEMICOLON : Char := '\x3b'
abbrev BACKSLASH : Char := '\x5c'

abbrev Text := List Char

inductive Data where
  | symbol (s : Text)
  | boolean (b : Bool)
  | int (n : Int)
  | string (s : Text)
  | list (items : List Data)

inductive Failure where
  | indexOutOfRange
  | notInt
  /-- The model's own: `parse_fuel` shows that it does not occur. -/
  | outOfFuel
deriving DecidableEq

/-- What `next` returns. -/
inductive Token where
  | openParen
  | closeParen
  | symbol (s : Text)
  | string (s : Text)
  | int (n : Int)
deriving DecidableEq

/-- Tab, line feed, carriage return and space. -/
def isWS (c : Char) : Bool := c = '\x09' || c = '\x0a' || c = '\x0d' || c = '\x20'

/-! ## The tokenizer -/

/-- `while self.nextChar() != LINE_FEED` -/
def skipComment : Text → Option Text
  | [] => none
  | c :: rest => if c = LINE_FEED then some rest else skipComment rest

variable {cs rest : Text}

theorem skipComment_length (h : skipComment cs = some rest) : rest.length < cs.length := by
  induction cs with
  | nil => cases h
  | cons c cs ih =>
    unfold skipComment at h
    split at h
    · cases h
      exact Nat.lt_succ_self _
    · exact Nat.lt_succ_of_lt (ih h)

/-- The first loop of `next`: the first character of the token, and what follows it. -/
def tokenStart : Text → Option (Char × Text)
  | [] => none
  | c :: rest =>
    if c = SEMICOLON then
      match _h : skipComment rest with
      | none => none
      | some [] => none
      | some (c :: rest) => if isWS c then tokenStart rest else some (c, rest)
    else if isWS c then tokenStart rest
    else some (c, rest)
termination_by cs => cs.length
decreasing_by
  · have := skipComment_length _h
    simp only [List.length_cons] at this ⊢
    omega
  · exact Nat.lt_succ_self _

/-- The loop after a quote: the characters up to the closing quote, and what follows it. -/
def quotedLoop : Bool → Text → Text → Option (Text × Text)
  | _, _, [] => none
  | escaped, quoted, q :: rest =>
    if q = QUOTE ∧ escaped = false then some (quoted, rest)
    else quotedLoop (q = BACKSLASH && !escaped) (quoted ++ [q]) rest

/-- The loop that ends before white space or a closing parenthesis. -/
def unquotedLoop : Text → Text → Option (Text × Text)
  | _, [] => none
  | unquoted, u :: rest =>
    if isWS u = true ∨ u = CLOSE_PAREN then some (unquoted, u :: rest)
    else unquotedLoop (unquoted ++ [u]) rest

def unescape : Text → Option Text
  | [] => some []
  | c :: rest =>
    if c = BACKSLASH then
      match rest with
      | [] => none
      | c :: rest => (unescape rest).map ((if c = 'n' then LINE_FEED else c) :: ·)
    else (unescape rest).map (c :: ·)

/-- Symbols can't start with numbers. -/
def startsNumber (c : Char) : Bool := c.isDigit || c = MINUS

/-- The token of the characters from `c` on, none of which is white space or a closing parenthesis. -/
def unquotedToken (c : Char) (unquoted : Text) : Except Failure Token :=
  if startsNumber c then
    match intFromString unquoted with
    | some n => .ok (.int n)
    | none => .error .notInt
  else .ok (.symbol unquoted)

def next (cs : Text) : Except Failure (Token × Text) :=
  match tokenStart cs with
  | none => .error .indexOutOfRange
  | some (c, rest) =>
    if c = OPEN_PAREN then .ok (.openParen, rest)
    else if c = CLOSE_PAREN then .ok (.closeParen, rest)
    else if c = QUOTE then
      match quotedLoop false [] rest with
      | none => .error .indexOutOfRange
      | some (quoted, rest) =>
        match unescape quoted with
        | none => .error .indexOutOfRange
        | some s => .ok (.string s, rest)
    else
      match unquotedLoop [c] rest with
      | none => .error .indexOutOfRange
      | some (unquoted, rest) => (unquotedToken c unquoted).map (·, rest)

/-- Past the next opening parenthesis; nothing is read where there is none. -/
def hasNext : Text → Option Text
  | [] => none
  | c :: rest => if c = OPEN_PAREN then some rest else hasNext rest

/-! ## The parser -/

/-- What a token of one item is in the list. -/
def symbolData (s : Text) : Data :=
  if s = ['t', 'r', 'u', 'e'] then .boolean true
  else if s = ['f', 'a', 'l', 's', 'e'] then .boolean false
  else .symbol s

/-- `parseList` with the items found so far. -/
def parseListLoop : Nat → Text → List Data → Except Failure (Data × Text)
  | 0, _, _ => .error .outOfFuel
  | fuel + 1, cs, result =>
    match next cs with
    | .error e => .error e
    | .ok (token, rest) =>
      match token with
      | .openParen =>
        match parseListLoop fuel rest [] with
        | .error e => .error e
        | .ok (item, rest) => parseListLoop fuel rest (result ++ [item])
      | .closeParen => .ok (.list result, rest)
      | .symbol s => parseListLoop fuel rest (result ++ [symbolData s])
      | .string s => parseListLoop fuel rest (result ++ [.string s])
      | .int n => parseListLoop fuel rest (result ++ [.int n])

def parseList (fuel : Nat) (cs : Text) : Except Failure (Data × Text) := parseListLoop fuel cs []

/-- `parse` with the lists found so far. -/
def parseLoop : Nat → Text → List Data → Except Failure (List Data)
  | 0, _, _ => .error .outOfFuel
  | fuel + 1, cs, topLevel =>
    match hasNext cs with
    | none => .ok topLevel
    | some rest =>
      match parseList fuel rest with
      | .error e => .error e
      | .ok (data, rest) => parseLoop fuel rest (topLevel ++ [data])

def parse (input : Text) : Except Failure (List Data) := parseLoop (input.length + 1) input []

/-! ## Token by token -/

/-- Where the loop of `tokenStart` goes on after a comment: the next character is not looked at as the start
of another one. -/
def afterComment : Text → Option (Char × Text)
  | [] => none
  | c :: rest => if isWS c then tokenStart rest else some (c, rest)

theorem tokenStart_semicolon (cs : Text) : tokenStart (SEMICOLON :: cs) = (skipComment cs).bind afterComment := by
  rw [tokenStart, if_pos rfl]
  split
  · next h => rw [h, Option.bind_none]
  · next h => rw [h, Option.bind_some, afterComment]
  · next h => rw [h, Option.bind_some, afterComment]

theorem tokenStart_blank {c : Char} (h : isWS c = true) (rest : Text) :
    tokenStart (c :: rest) = tokenStart rest := by
  have hc : c ≠ SEMICOLON := by
    intro hc
    rw [hc] at h
    revert h
    decide
  rw [tokenStart, if_neg hc, if_pos h]

theorem tokenStart_char {c : Char} (h : isWS c = false) (hc : c ≠ SEMICOLON) (rest : Text) :
    tokenStart (c :: rest) = some (c, rest) := by
  rw [tokenStart, if_neg hc, if_neg (by rw [h]; exact Bool.false_ne_true)]

/-- By induction on the length: a comment is stepped over at once. -/
theorem tokenStart_length {c : Char} (h : tokenStart cs = some (c, rest)) :
    rest.length < cs.length := by
  induction hn : cs.length using Nat.strongRecOn generalizing cs with
  | ind n ih =>
    subst hn
    cases cs with
    | nil =>
      rw [tokenStart] at h
      cases h
    | cons d cs =>
      by_cases hd : d = SEMICOLON
      · rw [hd, tokenStart_semicolon] at h
        obtain ⟨cs', hskip, hafter⟩ := Option.bind_eq_some_iff.mp h
        have hlt := skipComment_length hskip
        cases cs' with
        | nil => cases hafter
        | cons e cs' =>
          rw [List.length_cons] at hlt ⊢
          rw [afterComment] at hafter
          by_cases hws : isWS e = true
          · rw [if_pos hws] at hafter
            have := ih cs'.length (by rw [List.length_cons]; omega) hafter rfl
            omega
          · rw [if_neg hws] at hafter
            cases hafter
            omega
      · cases hws : isWS d with
        | true =>
          rw [tokenStart_blank hws] at h
          exact Nat.lt_succ_of_lt (ih cs.length (Nat.lt_succ_self _) h rfl)
        | false =>
          rw [tokenStart_char hws hd] at h
          cases h
          exact Nat.lt_succ_self _

theorem quotedLoop_length : ∀ {escaped : Bool} {quoted chars rest : Text},
    quotedLoop escaped quoted cs = some (chars, rest) → rest.length < cs.length := by
  induction cs with
  | nil =>
    intro escaped quoted chars rest h
    cases h
  | cons q cs ih =>
    intro escaped quoted chars rest h
    unfold quotedLoop at h
    split at h
    · cases h
      exact Nat.lt_succ_self _
    · exact Nat.lt_succ_of_lt (ih h)

theorem unquotedLoop_length : ∀ {unquoted chars rest : Text},
    unquotedLoop unquoted cs = some (chars, rest) → rest.length ≤ cs.length := by
  induction cs with
  | nil =>
    intro unquoted chars rest h
    cases h
  | cons u cs ih =>
    intro unquoted chars rest h
    unfold unquotedLoop at h
    split at h
    · cases h
      exact Nat.le_refl _
    · exact Nat.le_succ_of_le (ih h)

/-- Every token takes a character. -/
theorem next_length {token : Token} (h : next cs = .ok (token, rest)) : rest.length < cs.length := by
  unfold next at h
  split at h
  · cases h
  next c afterStart hstart =>
  have hlt := tokenStart_length hstart
  split at h
  · cases h
    exact hlt
  split at h
  · cases h
    exact hlt
  split at h
  · split at h
    · cases h
    next quoted afterQuote hquoted =>
    have hle := quotedLoop_length hquoted
    split at h
    · cases h
    · cases h
      omega
  · split at h
    · cases h
    next unquoted afterToken hunquoted =>
    have hle := unquotedLoop_length hunquoted
    cases htoken : unquotedToken c unquoted with
    | error e =>
      rw [htoken] at h
      cases h
    | ok t =>
      rw [htoken] at h
      cases h
      omega

theorem hasNext_length : ∀ {rest : Text}, hasNext cs = some rest → rest.length < cs.length := by
  induction cs with
  | nil =>
    intro rest h
    cases h
  | cons c cs ih =>
    intro rest h
    unfold hasNext at h
    split at h
    · cases h
      exact Nat.lt_succ_self _
    · exact Nat.lt_succ_of_lt (ih h)

theorem next_ne_outOfFuel (cs : Text) : next cs ≠ .error .outOfFuel := by
  intro h
  unfold next at h
  split at h
  · cases h
  next c afterStart hstart =>
  split at h
  · cases h
  split at h
  · cases h
  split at h
  · split at h
    · cases h
    split at h <;> cases h
  · split at h
    · cases h
    next unquoted afterToken hunquoted =>
    unfold unquotedToken at h
    split at h
    · split at h <;> cases h
    · cases h

/-- One unit of fuel for each character that is left is enough, and a list takes at least its closing
parenthesis. -/
theorem parseListLoop_fuel (fuel : Nat) : ∀ (cs : Text) (result : List Data), cs.length < fuel →
    parseListLoop fuel cs result ≠ .error .outOfFuel ∧
      ∀ data rest, parseListLoop fuel cs result = .ok (data, rest) → rest.length < cs.length := by
  induction fuel with
  | zero =>
    intro cs result hfuel
    omega
  | succ fuel ih =>
    intro cs result hfuel
    cases hnext : next cs with
    | error e =>
      rw [parseListLoop, hnext]
      refine ⟨?_, fun data rest h => by cases h⟩
      intro h
      cases h
      exact next_ne_outOfFuel cs hnext
    | ok p =>
      obtain ⟨token, rest⟩ := p
      have hlt := next_length hnext
      have hgo : ∀ (after : Text) (result : List Data), after.length ≤ rest.length →
          parseListLoop fuel after result ≠ .error .outOfFuel ∧
            ∀ data last, parseListLoop fuel after result = .ok (data, last) → last.length < cs.length := by
        intro after result hle
        obtain ⟨hne, hlast⟩ := ih after result (by omega)
        refine ⟨hne, fun data last h => ?_⟩
        have := hlast data last h
        omega
      rw [parseListLoop, hnext]
      cases token with
      | openParen =>
        obtain ⟨hne, hinner⟩ := ih rest [] (by omega)
        dsimp only
        cases hlist : parseListLoop fuel rest [] with
        | error e =>
          refine ⟨?_, fun data last h => by cases h⟩
          intro h
          cases h
          exact hne hlist
        | ok p =>
          have := hinner p.1 p.2 hlist
          exact hgo p.2 _ (by omega)
      | closeParen =>
        refine ⟨?_, fun data last h => ?_⟩
        · intro h
          cases h
        · cases h
          exact hlt
      | symbol s => exact hgo rest _ (Nat.le_refl _)
      | string s => exact hgo rest _ (Nat.le_refl _)
      | int n => exact hgo rest _ (Nat.le_refl _)

theorem parseLoop_fuel (fuel : Nat) : ∀ (cs : Text) (topLevel : List Data), cs.length < fuel →
    parseLoop fuel cs topLevel ≠ .error .outOfFuel := by
  induction fuel with
  | zero =>
    intro cs topLevel hfuel
    omega
  | succ fuel ih =>
    intro cs topLevel hfuel
    rw [parseLoop]
    split
    · intro h
      cases h
    next rest hrest =>
    have hlt := hasNext_length hrest
    obtain ⟨hne, hlast⟩ := parseListLoop_fuel fuel rest [] (by omega)
    unfold parseList
    split
    · next e he =>
      intro h
      cases h
      exact hne he
    · next data last hdata =>
      have := hlast data last hdata
      exact ih last _ (by omega)

/-- Every text is read to its end, to a panic or to an error. -/
theorem parse_fuel (input : Text) : parse input ≠ .error .outOfFuel :=
  parseLoop_fuel (input.length + 1) input [] (Nat.lt_succ_self _)

end Nballerina.Sexpr
