import Mathlib

/-!
# Tokens (`front.syntax/token.bal`, `front.syntax/scan.bal`)

A line of source is first cut into fragments, without regard to the lines before it (`scan.bal`);
the tokenizer then makes tokens of the fragments. They are nearly the same, but for strings, which are
several fragments, and for the character `>`: whether two of them are the token `>>` depends on
where the parser is, so each is a fragment of its own.

Mirroring notes:
- A token that is always spelled the same way is a `FixedToken` in place of its spelling, which is
  `FixedToken.text`.
- A `FragCode` of the source is a byte; from `FRAG_FIXED_TOKEN` on it stands for a fixed token, which
  is looked up in `fragTokens`. Here it has the token in it.
- A `string` is the list of its code points.
-/

namespace Nballerina.Syntax

/-- A `string` of the source. -/
abbrev Text := List Char

/-- `type FixedToken`: a `SingleCharDelim`, a `MultiCharDelim` or a `Keyword`. -/
inductive FixedToken where
  | semicolon
  | plus
  | minus
  | asterisk
  | leftParen
  | rightParen
  | leftSquare
  | rightSquare
  | leftCurly
  | rightCurly
  | lessThan
  | greaterThan
  | question
  | ampersand
  | circumflex
  | vbar
  | exclam
  | colon
  | comma
  | slash
  | percent
  | equal
  | dot
  | tilde
  | leftCurlyVbar
  | vbarRightCurly
  | dotDotDot
  | dotDotLessThan
  | equalEqual
  | notEqual
  | greaterThanEqual
  | lessThanEqual
  | equalEqualEqual
  | notEqualEqual
  | lessThanLessThan
  | greaterThanGreaterThan
  | greaterThanGreaterThanGreaterThan
  | equalGreaterThan
  | ampersandAmpersand
  | vbarVbar
  | plusEqual
  | minusEqual
  | slashEqual
  | asteriskEqual
  | ampersandEqual
  | vbarEqual
  | circumflexEqual
  | lessThanLessThanEqual
  | greaterThanGreaterThanEqual
  | greaterThanGreaterThanGreaterThanEqual
  | underscore
  | anyKeyword
  | anydataKeyword
  | asKeyword
  | booleanKeyword
  | breakKeyword
  | byteKeyword
  | checkKeyword
  | checkpanicKeyword
  | constKeyword
  | continueKeyword
  | decimalKeyword
  | elseKeyword
  | errorKeyword
  | falseKeyword
  | finalKeyword
  | floatKeyword
  | foreachKeyword
  | functionKeyword
  | handleKeyword
  | ifKeyword
  | importKeyword
  | inKeyword
  | intKeyword
  | isKeyword
  | jsonKeyword
  | mapKeyword
  | matchKeyword
  | neverKeyword
  | nullKeyword
  | objectKeyword
  | panicKeyword
  | publicKeyword
  | readonlyKeyword
  | recordKeyword
  | returnKeyword
  | returnsKeyword
  | stringKeyword
  | tableKeyword
  | trueKeyword
  | typeKeyword
  | typedescKeyword
  | whileKeyword
  | xmlKeyword
deriving DecidableEq

def FixedToken.text : FixedToken → Text
  | .semicolon => ";".toList
  | .plus => "+".toList
  | .minus => "-".toList
  | .asterisk => "*".toList
  | .leftParen => "(".toList
  | .rightParen => ")".toList
  | .leftSquare => "[".toList
  | .rightSquare => "]".toList
  | .leftCurly => "\x7b".toList
  | .rightCurly => "\x7d".toList
  | .lessThan => "<".toList
  | .greaterThan => ">".toList
  | .question => "?".toList
  | .ampersand => "&".toList
  | .circumflex => "^".toList
  | .vbar => "|".toList
  | .exclam => "!".toList
  | .colon => ":".toList
  | .comma => ",".toList
  | .slash => "/".toList
  | .percent => "%".toList
  | .equal => "=".toList
  | .dot => ".".toList
  | .tilde => "~".toList
  | .leftCurlyVbar => "\x7b|".toList
  | .vbarRightCurly => "|\x7d".toList
  | .dotDotDot => "...".toList
  | .dotDotLessThan => "..<".toList
  | .equalEqual => "==".toList
  | .notEqual => "!=".toList
  | .greaterThanEqual => ">=".toList
  | .lessThanEqual => "<=".toList
  | .equalEqualEqual => "===".toList
  | .notEqualEqual => "!==".toList
  | .lessThanLessThan => "<<".toList
  | .greaterThanGreaterThan => ">>".toList
  | .greaterThanGreaterThanGreaterThan => ">>>".toList
  | .equalGreaterThan => "=>".toList
  | .ampersandAmpersand => "&&".toList
  | .vbarVbar => "||".toList
  | .plusEqual => "+=".toList
  | .minusEqual => "-=".toList
  | .slashEqual => "/=".toList
  | .asteriskEqual => "*=".toList
  | .ampersandEqual => "&=".toList
  | .vbarEqual => "|=".toList
  | .circumflexEqual => "^=".toList
  | .lessThanLessThanEqual => "<<=".toList
  | .greaterThanGreaterThanEqual => ">>=".toList
  | .greaterThanGreaterThanGreaterThanEqual => ">>>=".toList
  | .underscore => "_".toList
  | .anyKeyword => "any".toList
  | .anydataKeyword => "anydata".toList
  | .asKeyword => "as".toList
  | .booleanKeyword => "boolean".toList
  | .breakKeyword => "break".toList
  | .byteKeyword => "byte".toList
  | .checkKeyword => "check".toList
  | .checkpanicKeyword => "checkpanic".toList
  | .constKeyword => "const".toList
  | .continueKeyword => "continue".toList
  | .decimalKeyword => "decimal".toList
  | .elseKeyword => "else".toList
  | .errorKeyword => "error".toList
  | .falseKeyword => "false".toList
  | .finalKeyword => "final".toList
  | .floatKeyword => "float".toList
  | .foreachKeyword => "foreach".toList
  | .functionKeyword => "function".toList
  | .handleKeyword => "handle".toList
  | .ifKeyword => "if".toList
  | .importKeyword => "import".toList
  | .inKeyword => "in".toList
  | .intKeyword => "int".toList
  | .isKeyword => "is".toList
  | .jsonKeyword => "json".toList
  | .mapKeyword => "map".toList
  | .matchKeyword => "match".toList
  | .neverKeyword => "never".toList
  | .nullKeyword => "null".toList
  | .objectKeyword => "object".toList
  | .panicKeyword => "panic".toList
  | .publicKeyword => "public".toList
  | .readonlyKeyword => "readonly".toList
  | .recordKeyword => "record".toList
  | .returnKeyword => "return".toList
  | .returnsKeyword => "returns".toList
  | .stringKeyword => "string".toList
  | .tableKeyword => "table".toList
  | .trueKeyword => "true".toList
  | .typeKeyword => "type".toList
  | .typedescKeyword => "typedesc".toList
  | .whileKeyword => "while".toList
  | .xmlKeyword => "xml".toList

/-- The `keywords`, in the order of their codes. -/
def keywords : List FixedToken :=
  [.underscore, .anyKeyword, .anydataKeyword, .asKeyword, .booleanKeyword, .breakKeyword,
    .byteKeyword, .checkKeyword, .checkpanicKeyword, .constKeyword, .continueKeyword,
    .decimalKeyword, .elseKeyword, .errorKeyword, .falseKeyword, .finalKeyword, .floatKeyword,
    .foreachKeyword, .functionKeyword, .handleKeyword, .ifKeyword, .importKeyword, .inKeyword,
    .intKeyword, .isKeyword, .jsonKeyword, .mapKeyword, .matchKeyword, .neverKeyword,
    .nullKeyword, .objectKeyword, .panicKeyword, .publicKeyword, .readonlyKeyword, .recordKeyword,
    .returnKeyword, .returnsKeyword, .stringKeyword, .tableKeyword, .trueKeyword, .typeKeyword,
    .typedescKeyword, .whileKeyword, .xmlKeyword]

/-- `type FpTypeSuffix` -/
inductive FpTypeSuffix where
  | f
  | d
deriving DecidableEq

/-- `type Token` -/
inductive Token where
  | fixed (t : FixedToken)
  | identifier (name : Text)
  | decimalNumber (digits : Text)
  | stringLiteral (value : Text)
  | hexIntLiteral (digits : Text)
  | decimalFpNumber (number : Text) (suffix : Option FpTypeSuffix)
deriving DecidableEq

/-- `VariableTokenCode|FixedToken`: what `peek` tells of a token. -/
inductive TokenKind where
  | fixed (t : FixedToken)
  | identifier
  | decimalNumber
  | stringLiteral
  | hexIntLiteral
  | decimalFpNumber
deriving DecidableEq

def Token.kind : Token → TokenKind
  | .fixed t => .fixed t
  | .identifier _ => .identifier
  | .decimalNumber _ => .decimalNumber
  | .stringLiteral _ => .stringLiteral
  | .hexIntLiteral _ => .hexIntLiteral
  | .decimalFpNumber .. => .decimalFpNumber

/-- `type FragCode` -/
inductive FragCode where
  | whitespace
  | comment
  | invalid
  | identifier
  | decimalNumber
  | hexNumber
  | decimalFpNumber
  | decimalFpNumberF
  | decimalFpNumberD
  | stringChars
  | stringControlEscape
  | stringCharEscape
  | stringNumericEscape
  | greaterThan
  | stringOpen
  | stringClose
  | fixed (t : FixedToken)
deriving DecidableEq

/-- `code <= VAR_FRAG_MAX`: the text of the fragment is kept. -/
def FragCode.isVar : FragCode → Bool
  | .greaterThan => false
  | .stringOpen => false
  | .stringClose => false
  | .fixed _ => false
  | _ => true

/-- A code between those of a string that opens and one that closes. -/
def FragCode.inString : FragCode → Bool
  | .stringChars => true
  | .stringControlEscape => true
  | .stringCharEscape => true
  | .stringNumericEscape => true
  | .invalid => true
  | _ => false

/-- A code of a fragment that is outside of strings. -/
def FragCode.plain : FragCode → Bool
  | .stringChars => false
  | .stringControlEscape => false
  | .stringCharEscape => false
  | .stringNumericEscape => false
  | .stringOpen => false
  | .stringClose => false
  | _ => true

/-- The fragments of a line, and the texts of those that are not always the same. -/
structure ScannedLine where
  fragCodes : List FragCode
  fragments : List Text
deriving DecidableEq

end Nballerina.Syntax
