import Nballerina.Syntax.Scan

/-!
# The tokenizer (`front.syntax/token.bal`)

The state of a `Tokenizer` and the operations of its class.

Mirroring notes:
- `file` is the identity of the source file; `lines` are its scanned lines.
- `advance` loops until there is a token. The loop has a bound on its steps here, which is more than the
  fragments and lines that are left (`advanceFuel`).
- An error has its message and range. An index or a `substring` out of range, a missing key and a failed
  cast are a panic.
-/

namespace Nballerina.Syntax

/-- `type Mode` -/
inductive Mode where
  | normal
  | typeDesc
deriving DecidableEq

/-- `type Position` -/
abbrev Position := Nat

def createPosition (line column : Nat) : Position := (line <<< 32) ||| column

/-- How an operation of the tokenizer, or the parser, stops. -/
inductive Stop where
  /-- `err:Syntax`, with its location -/
  | error (message : Text) (startPos endPos : Position)
  | panic
deriving DecidableEq

/-- `class Tokenizer` -/
structure Tokenizer where
  file : Nat
  lines : List ScannedLine
  /-- of the next line to be scanned -/
  lineIndex : Nat
  fragCodes : List FragCode
  fragments : List Text
  fragCodeIndex : Nat
  codePointIndex : Nat
  fragmentIndex : Nat
  tokenStartCodePointIndex : Nat
  prevTokenEndCodePointIndex : Nat
  prevTokenEndLineIndex : Nat
  mode : Mode
  curTok : Option Token
deriving DecidableEq

/-- `new(file)` -/
def Tokenizer.init (file : Nat) (lines : List ScannedLine) : Tokenizer where
  file := file
  lines := lines
  lineIndex := 0
  fragCodes := []
  fragments := []
  fragCodeIndex := 0
  codePointIndex := 0
  fragmentIndex := 0
  tokenStartCodePointIndex := 0
  prevTokenEndCodePointIndex := 0
  prevTokenEndLineIndex := 0
  mode := .normal
  curTok := none

/-- `s.substring(start, end)` -/
def substring (s : Text) (start stop : Nat) : Option Text :=
  if start ≤ stop ∧ stop ≤ s.length then some ((s.drop start).take (stop - start)) else none

/-- `ESCAPES` -/
def ESCAPES : Char → Option Char
  | '\\' => some '\\'
  | '\x22' => some '\x22'
  | 'n' => some '\n'
  | 'r' => some '\r'
  | 't' => some '\t'
  | _ => none

def hexDigitValue (cp : Char) : Nat :=
  if cp.isDigit then cp.toNat - '0'.toNat
  else if 'a' ≤ cp then cp.toNat - 'a'.toNat + 10
  else cp.toNat - 'A'.toNat + 10

/-- `int:fromHexString` of hex digits; an error is `none`. -/
def intFromHexString (digits : Text) : Option Nat :=
  if digits ≠ [] ∧ digits.all isHexDigit then
    let n := digits.foldl (fun n cp => n * 16 + hexDigitValue cp) 0
    if n < 2 ^ 63 then some n else none
  else none

/-- `string:fromCodePointInt`; an error is `none`. -/
def stringFromCodePointInt (codePoint : Nat) : Option Char :=
  if codePoint.isValidChar then some (Char.ofNat codePoint) else none

/-- The outer `none` is a panic, the inner one an error. -/
def unicodeEscapeValue (fragment : Text) : Option (Option Char) := do
  let hexDigits ← substring fragment 3 (fragment.length - 1)
  return (intFromHexString hexDigits).bind stringFromCodePointInt

/-- A hex number, without the `0x`. -/
def hexToken (fragment : Text) : Option Token :=
  (substring fragment 2 fragment.length).map .hexIntLiteral

/-- A number, without its suffix. -/
def suffixedToken (suffix : FpTypeSuffix) (number : Text) : Option Token :=
  (substring number 0 (number.length - 1)).map fun number => .decimalFpNumber number (some suffix)

namespace Tokenizer

variable (tok : Tokenizer)

def currentStartPos : Position := createPosition tok.lineIndex tok.tokenStartCodePointIndex

def currentEndPos : Position := createPosition tok.lineIndex tok.codePointIndex

/-- `err`, as what the caller returns. -/
def err (message : Text) : Stop := .error message tok.currentStartPos tok.currentEndPos

/-- `getFragment`: the fragment, and the tokenizer after it. -/
def getFragment : Option (Text × Tokenizer) := do
  let fragment ← tok.fragments[tok.fragmentIndex]?
  return (fragment, { tok with
    codePointIndex := tok.codePointIndex + fragment.length
    fragmentIndex := tok.fragmentIndex + 1 })

def advanceLine : Option Tokenizer := do
  let scannedLine ← tok.lines[tok.lineIndex]?
  return { tok with
    fragCodes := scannedLine.fragCodes
    fragments := scannedLine.fragments
    lineIndex := tok.lineIndex + 1
    fragCodeIndex := 0
    fragmentIndex := 0
    codePointIndex := 0
    tokenStartCodePointIndex := 0 }

/-- One or more `>` in normal mode, or one in a type descriptor. The tokenizer is after the first. -/
def greaterThanToken : FixedToken × Nat :=
  if tok.mode = .normal ∧ tok.fragCodes[tok.fragCodeIndex]? = some .greaterThan then
    if tok.fragCodes[tok.fragCodeIndex + 1]? = some .greaterThan then
      (.greaterThanGreaterThanGreaterThan, 2)
    else (.greaterThanGreaterThan, 1)
  else (.greaterThan, 0)

/-- What the loop of `advance` does with a fragment. -/
inductive FragmentStep where
  /-- on to the next fragment, with the string so far -/
  | next (str : Text) (tok : Tokenizer)
  | token (t : Token) (tok : Tokenizer)
  | stop (s : Stop)

/-- A fragment that is a token, made of its text. -/
def tokenOf (make : Text → Option Token) : Option FragmentStep := do
  let (fragment, tok) ← tok.getFragment
  return .token (← make fragment) tok

/-- A fragment of a string. -/
def inStringStep (str : Text) (chars : Text → Option Text) : Option FragmentStep := do
  let (fragment, tok) ← tok.getFragment
  return .next (str ++ (← chars fragment)) tok

/-- A token that is always spelled the same way. -/
def fixedStep (t : FixedToken) : FragmentStep :=
  .token (.fixed t) { tok with codePointIndex := tok.codePointIndex + t.text.length }

/-- The `match` in `advance`, where the tokenizer is already after the fragment. The `none` is a
panic. -/
def fragmentStep (str : Text) : FragCode → Option FragmentStep
  | .stringOpen => some (.next str { tok with codePointIndex := tok.codePointIndex + 1 })
  | .stringClose =>
    some (.token (.stringLiteral str) { tok with codePointIndex := tok.codePointIndex + 1 })
  | .stringChars => tok.inStringStep str some
  | .stringCharEscape => tok.inStringStep str fun fragment => fragment[1]?.map fun cp => [cp]
  | .stringControlEscape =>
    tok.inStringStep str fun fragment => (fragment[1]?.bind ESCAPES).map fun cp => [cp]
  | .stringNumericEscape => do
    let (fragment, tok) ← tok.getFragment
    match ← unicodeEscapeValue fragment with
    | some ch => return .next (str ++ [ch]) tok
    | none =>
      return .stop ({ tok with
        tokenStartCodePointIndex := tok.codePointIndex - fragment.length }.err
          "invalid numeric escape".toList)
  | .greaterThan =>
    let (t, more) := tok.greaterThanToken
    some (.token (.fixed t) { tok with
      fragCodeIndex := tok.fragCodeIndex + more
      codePointIndex := tok.codePointIndex + 1 + more })
  | .invalid => some (.stop (tok.err "invalid token".toList))
  | .whitespace => do
    let (_, tok) ← tok.getFragment
    return .next str { tok with tokenStartCodePointIndex := tok.codePointIndex }
  | .comment => some (.next str tok)
  | .decimalNumber => tok.tokenOf fun fragment => some (.decimalNumber fragment)
  | .identifier => tok.tokenOf fun fragment => some (.identifier fragment)
  | .hexNumber => tok.tokenOf hexToken
  | .decimalFpNumberF => tok.tokenOf (suffixedToken .f)
  | .decimalFpNumber => tok.tokenOf fun fragment => some (.decimalFpNumber fragment none)
  | .decimalFpNumberD => tok.tokenOf (suffixedToken .d)
  | .fixed t => some (tok.fixedStep t)

/-- What is done after a fragment, where `loop` is the rest of the loop. -/
def afterStep (loop : Text → Tokenizer → Except Stop Tokenizer) :
    Option FragmentStep → Except Stop Tokenizer
  | none => .error .panic
  | some (.next str tok) => loop str tok
  | some (.token t tok) => .ok { tok with curTok := some t }
  | some (.stop s) => .error s

/-- The loop of `advance`. -/
def advanceLoop : Nat → Text → Tokenizer → Except Stop Tokenizer
  | 0, _, _ => .error .panic
  | fuel + 1, str, tok =>
    match tok.fragCodes[tok.fragCodeIndex]? with
    | none =>
      match tok.advanceLine with
      | none => .ok { tok with curTok := none }
      | some tok => advanceLoop fuel str tok
    | some fragCode =>
      afterStep (advanceLoop fuel)
        ({ tok with fragCodeIndex := tok.fragCodeIndex + 1 }.fragmentStep str fragCode)

/-- More than the fragments and lines that are left. -/
def advanceFuel : Nat :=
  (tok.fragCodes.length - tok.fragCodeIndex) +
    ((tok.lines.drop tok.lineIndex).map fun line => line.fragCodes.length + 1).sum + 1

def advance : Except Stop Tokenizer :=
  advanceLoop tok.advanceFuel [] { tok with
    tokenStartCodePointIndex := tok.codePointIndex
    prevTokenEndCodePointIndex := tok.codePointIndex
    prevTokenEndLineIndex := tok.lineIndex }

/-- What `peek` makes of a fragment: an answer, or this many more fragments to skip after it. The `none`
is a panic. -/
def peekFragment (skipQualIdent : Bool) (fragCodes : List FragCode) (fragCodeIndex : Nat) :
    FragCode → Option (Option TokenKind ⊕ Nat)
  | .whitespace | .comment => some (.inr 0)
  | .stringOpen => some (.inl (some .stringLiteral))
  | .stringClose | .stringChars | .stringCharEscape | .stringControlEscape
  | .stringNumericEscape => none
  | .invalid => some (.inl none)
  | .decimalNumber => some (.inl (some .decimalNumber))
  | .greaterThan =>
    -- `fragCodeIndex` is still that of the fragment itself
    if tok.mode = .normal ∧ fragCodes[fragCodeIndex]? = some .greaterThan then
      if fragCodes[fragCodeIndex + 1]? = some .greaterThan then
        some (.inl (some (.fixed .greaterThanGreaterThanGreaterThan)))
      else some (.inl (some (.fixed .greaterThanGreaterThan)))
    else some (.inl (some (.fixed .greaterThan)))
  | .identifier => some (.inl (some .identifier))
  | .hexNumber => some (.inl (some .hexIntLiteral))
  | .decimalFpNumber | .decimalFpNumberF | .decimalFpNumberD =>
    some (.inl (some .decimalFpNumber))
  | .fixed .colon =>
    if skipQualIdent ∧ fragCodes[fragCodeIndex + 1]? = some .identifier then some (.inr 1)
    else some (.inl (some (.fixed .colon)))
  | .fixed t => some (.inl (some (.fixed t)))

/-- What is done with what `peek` makes of a fragment, where `loop` is the rest of the loop. -/
def afterPeek (loop : Nat → Option (Option TokenKind)) :
    Option (Option TokenKind ⊕ Nat) → Option (Option TokenKind)
  | none => none
  | some (.inl kind) => some kind
  | some (.inr more) => loop more

/-- The loop of `peek`. -/
def peekLoop (skipQualIdent : Bool) : Nat → List FragCode → Nat → Nat → Option (Option TokenKind)
  | 0, _, _, _ => none
  | fuel + 1, fragCodes, fragCodeIndex, lineIndex =>
    match fragCodes[fragCodeIndex]? with
    | none =>
      match tok.lines[lineIndex]? with
      | none => some none
      | some line => peekLoop skipQualIdent fuel line.fragCodes 0 (lineIndex + 1)
    | some fragCode =>
      afterPeek
        (fun more => peekLoop skipQualIdent fuel fragCodes (fragCodeIndex + 1 + more) lineIndex)
        (tok.peekFragment skipQualIdent fragCodes fragCodeIndex fragCode)

/-- The outer `none` is a panic. -/
def peek (skipQualIdent : Bool) : Option (Option TokenKind) :=
  tok.peekLoop skipQualIdent tok.advanceFuel tok.fragCodes tok.fragCodeIndex tok.lineIndex

end Tokenizer

/-- `type TokenizerState` -/
structure TokenizerState where
  file : Nat
  lineIndex : Nat
  fragCodeIndex : Nat
  codePointIndex : Nat
  fragmentIndex : Nat
  tokenStartCodePointIndex : Nat
  prevTokenEndCodePointIndex : Nat
  prevTokenEndLineIndex : Nat
  mode : Mode
  curTok : Option Token

namespace Tokenizer

variable (tok : Tokenizer)

def save : TokenizerState where
  file := tok.file
  lineIndex := tok.lineIndex
  fragCodeIndex := tok.fragCodeIndex
  codePointIndex := tok.codePointIndex
  fragmentIndex := tok.fragmentIndex
  tokenStartCodePointIndex := tok.tokenStartCodePointIndex
  prevTokenEndCodePointIndex := tok.prevTokenEndCodePointIndex
  prevTokenEndLineIndex := tok.prevTokenEndLineIndex
  mode := tok.mode
  curTok := tok.curTok

/-- The `none` is a panic. -/
def restore (s : TokenizerState) : Option Tokenizer :=
  if s.file ≠ tok.file then none
  else
    -- at line 0 `advance` has not been called, or there are no lines
    let scannedLine := if s.lineIndex = 0 then some ⟨[], []⟩ else tok.lines[s.lineIndex - 1]?
    scannedLine.map fun scannedLine => { tok with
      lineIndex := s.lineIndex
      fragCodes := scannedLine.fragCodes
      fragments := scannedLine.fragments
      fragCodeIndex := s.fragCodeIndex
      codePointIndex := s.codePointIndex
      fragmentIndex := s.fragmentIndex
      tokenStartCodePointIndex := s.tokenStartCodePointIndex
      prevTokenEndCodePointIndex := s.prevTokenEndCodePointIndex
      prevTokenEndLineIndex := s.prevTokenEndLineIndex
      mode := s.mode
      curTok := s.curTok }

def setMode (m : Mode) : Tokenizer := { tok with mode := m }

end Tokenizer

end Nballerina.Syntax
