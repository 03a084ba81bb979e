import Mathlib.Data.List.TakeWhile
import Mathlib.Data.List.Infix

/-!
# Mangled names of public symbols

The compiler gives a public symbol of a module a linker name (`manglePublicSymbol`,
`nback/symbol.bal`), and the runtime turns such a name back into text when it prints a
stack trace (`_bal_print_mangled_name`, `runtime/error.c`). The format is `_B`, the
organisation, the names of the module and the identifier; every part but the last is
preceded by its length.

The two sides disagree about one thing. A part that starts with a digit needs something
between it and its length, and the compiler writes a `_`; the runtime drops a `_` after
any length. No name that an import accepts starts with a `_`, but what is left of an
organisation `ballerina_x` without its first nine letters does.

Mirroring notes:
- A string is the list of its characters, and so is a C string, less its terminator. All
  characters here are ASCII, so the bytes that the runtime counts are the characters that
  the compiler counts.
- A pointer into the mangled name is the text that is left from there on.
- `demangleCountedName` may step over the terminator of the string; such a run ends with
  `overrun`.
- `sscanf` overflows for numbers from 2^63 on. No part of a name has so many characters,
  and with a larger number the loop that follows runs into the terminator all the same.
- `demangle` is called with `fp` set only where it succeeds; here it always returns what it
  would print.
-/

namespace Nballerina.Nback

/-- A string, by its characters. -/
abbrev Text := List Char

/-! ## Names accepted in an import -/

/-- `isCodePointIdentifierFollowing`. -/
def isIdentifierFollowing (c : Char) : Bool := c.isAlphanum || c == '_'

/-- The text of an identifier fragment of the scanner. -/
def isIdentifier : Text → Bool
  | [] => false
  | c :: cs => (c.isAlpha || c == '_') && cs.all isIdentifierFollowing

/-- The loop of `validImportPart`: the last character. -/
def importPartLoop : Option Char → Text → Except String (Option Char)
  | prevChar, [] => .ok prevChar
  | prevChar, ch :: identifier =>
    if ch = '_' then
      if prevChar = none then
        .error "identifier in an import must not have leading underscores"
      else if prevChar = some '_' then
        .error "identifier in an import must not have consecutive underscores"
      else importPartLoop (some ch) identifier
    else importPartLoop (some ch) identifier

/-- `validImportPart`, from the identifier that the tokenizer returned. -/
def validImportPart (identifier : Text) : Except String Text := do
  let prevChar ← importPartLoop none identifier
  if prevChar = some '_' then
    .error "identifier in an import must not have tailing underscores"
  else return identifier

/-- A part of the name of a module in an import declaration. -/
def IsImportPart (part : Text) : Prop :=
  isIdentifier part = true ∧ (validImportPart part).toOption = some part

instance (part : Text) : Decidable (IsImportPart part) :=
  inferInstanceAs (Decidable (_ ∧ _))

/-- A `ModuleId` whose parts can stand in an import. -/
structure ModuleId where
  /-- empty when the import names no organisation -/
  org : Text
  names : List Text
  org_part : org = [] ∨ IsImportPart org
  names_ne : names ≠ []
  names_part : ∀ name ∈ names, IsImportPart name

/-- A public symbol: its module and its own name there. -/
structure PublicSymbol where
  modId : ModuleId
  identifier : Text
  isIdentifier : isIdentifier identifier = true

/-! ## The compiler: `nback/symbol.bal` -/

def isDigit (ch : Char) : Bool := decide ('0' ≤ ch) && decide (ch ≤ '9')

def delimitName (name : Text) : Text :=
  let len := name.length
  let delimited := Nat.toDigits 10 len
  (if name.head?.any isDigit then delimited ++ ['_'] else delimited) ++ name

/-- `"ballerina"`. -/
def BALLERINA : Text := ['b', 'a', 'l', 'l', 'e', 'r', 'i', 'n', 'a']

def mangleOrg (org : Text) : Text :=
  if BALLERINA.isPrefixOf org then 'b' :: delimitName (org.drop BALLERINA.length)
  else delimitName org

/-- `mangleModuleNames(names, i)`, from the names that are left. -/
def mangleModuleNames : List Text → Text
  | [] => []
  | [name] => delimitName name
  | name :: names => 'm' :: (delimitName name ++ mangleModuleNames names)

def manglePublicSymbol (s : PublicSymbol) : Text :=
  ['_', 'B'] ++ mangleOrg s.modId.org ++ mangleModuleNames s.modId.names ++ s.identifier

/-! ## The runtime: `runtime/error.c` -/

/-- Why a part of a name is not returned: `false`, or a read behind the terminator. -/
inductive Stop where
  | bad
  | overrun
deriving DecidableEq, Repr

/-- `isspace` in the C locale. -/
def isSpace (c : Char) : Bool := c == ' ' || (decide ('\t' ≤ c) && decide (c ≤ '\r'))

/-- The digits at the start of a text, and what is left after them. -/
def scanDigits (p : Text) : Option (Nat × Text) :=
  let digits := p.takeWhile Char.isDigit
  if digits = [] then none
  else some (Nat.ofDigitChars 10 digits 0, p.dropWhile Char.isDigit)

/-- `sscanf(p, "%ld%n", &nChars, &nRead)`: the number, and what is left after it. -/
def scanLong (p : Text) : Option (Int × Text) :=
  let p := p.dropWhile isSpace
  if p.head? = some '-' then (scanDigits p.tail).map fun r => (-(r.1 : Int), r.2)
  else (scanDigits (if p.head? = some '+' then p.tail else p)).map fun r => ((r.1 : Int), r.2)

/-- The loop of `demangleCountedName`: the characters it steps over, and what is left. -/
def stepChars : Nat → Text → Except Stop (Text × Text)
  | 0, p => .ok ([], p)
  | _ + 1, [] => .error .overrun
  | nChars + 1, c :: p =>
    if p = [] then .error .bad
    else (stepChars nChars p).map fun r => (c :: r.1, r.2)

def demangleCountedName (p : Text) : Except Stop (Text × Text) :=
  match scanLong p with
  | none => .error .bad
  | some (nChars, name) =>
    stepChars nChars.toNat (if name.head? = some '_' then name.tail else name)

theorem stepChars_suffix : ∀ {nChars : Nat} {p : Text} {r : Text × Text},
    stepChars nChars p = .ok r → r.2 <:+ p
  | 0, p, r, h => by
    cases h
    exact List.suffix_refl p
  | nChars + 1, [], _, h => by cases h
  | nChars + 1, c :: p, r, h => by
    rw [stepChars] at h
    split at h
    next => cases h
    next =>
      cases hstep : stepChars nChars p with
      | error e => rw [hstep] at h; cases h
      | ok r' =>
        rw [hstep] at h
        cases h
        show r'.2 <:+ c :: p
        exact (stepChars_suffix hstep).trans (List.suffix_cons c p)

theorem scanDigits_suffix {p : Text} {r : Nat × Text} (h : scanDigits p = some r) :
    r.2 <:+ p := by
  simp only [scanDigits] at h
  split at h
  next => cases h
  next =>
    cases h
    exact List.dropWhile_suffix _

theorem scanLong_suffix {p : Text} {r : Int × Text} (h : scanLong p = some r) : r.2 <:+ p := by
  have hspace : p.dropWhile isSpace <:+ p := List.dropWhile_suffix _
  simp only [scanLong] at h
  split at h
  next =>
    obtain ⟨q, hq, rfl⟩ := Option.map_eq_some_iff.mp h
    exact (scanDigits_suffix hq).trans ((List.tail_suffix _).trans hspace)
  next =>
    obtain ⟨q, hq, rfl⟩ := Option.map_eq_some_iff.mp h
    refine (scanDigits_suffix hq).trans (List.IsSuffix.trans ?_ hspace)
    split
    · exact List.tail_suffix _
    · exact List.suffix_refl _

/-- What is left after a part is a suffix of the text. -/
theorem demangleCountedName_suffix {p : Text} {r : Text × Text}
    (h : demangleCountedName p = .ok r) : r.2 <:+ p := by
  unfold demangleCountedName at h
  cases hscan : scanLong p with
  | none => rw [hscan] at h; cases h
  | some q =>
    rw [hscan] at h
    refine (stepChars_suffix h).trans (List.IsSuffix.trans (?_ : _ <:+ q.2) (scanLong_suffix hscan))
    split
    · exact List.tail_suffix _
    · exact List.suffix_refl _

/-- What is printed of the modules before the last one, and what is left. -/
def demangleModules (p : Text) : Except Stop (Text × Text) :=
  if p.head? = some 'm' then
    match _h : demangleCountedName p.tail with
    | .error e => .error e
    | .ok r => (demangleModules r.2).map fun s => (r.1 ++ '.' :: s.1, s.2)
  else .ok ([], p)
termination_by p.length
decreasing_by
  have hle := (demangleCountedName_suffix _h).length_le
  have hp : p ≠ [] := by
    intro hnil
    subst hnil
    contradiction
  have := List.length_pos_iff.mpr hp
  rw [List.length_tail] at hle
  omega

/-- `enum DemangleResult`, with `*localName` and what is printed to `fp`. -/
inductive DemangleResult where
  | publicBallerinaName (localName printed : Text)
  | nonPublicBallerinaName (localName : Text)
  | nonBallerinaName
  | badBallerinaName

/-- The part of a name that stands before the modules. -/
def demangleOrg (mangledName : Text) : Except Stop (Text × Text) :=
  if mangledName.head? = some '0' then .ok ([], mangledName.tail)
  else demangleCountedName mangledName

/-- What is printed of the organisation; `org` is `[]` for `NULL`. -/
def printOrg (ballerinaOrg : Bool) (org : Text) : Text :=
  (if ballerinaOrg then BALLERINA else []) ++ org ++
    (if ballerinaOrg || !org.isEmpty then ['/'] else [])

/-- `demangle`, from the modules on. -/
def demangleNames (printedOrg mangledName : Text) : Except Stop DemangleResult :=
  match demangleModules mangledName with
  | .error .overrun => .error .overrun
  | .error .bad => .ok .nonBallerinaName
  | .ok modules =>
    match demangleCountedName modules.2 with
    | .error .overrun => .error .overrun
    | .error .bad => .ok .nonBallerinaName
    | .ok last => .ok (.publicBallerinaName last.2 (printedOrg ++ modules.1 ++ last.1))

/-- `demangle`, from the organisation on. -/
def demanglePublic (ballerinaOrg : Bool) (mangledName : Text) : Except Stop DemangleResult :=
  match demangleOrg mangledName with
  | .error .overrun => .error .overrun
  | .error .bad => .ok .badBallerinaName
  | .ok org => demangleNames (printOrg ballerinaOrg org.1) org.2

def demangle (mangledName : Text) : Except Stop DemangleResult :=
  if mangledName.head? ≠ some '_' ∨ mangledName.tail.head? ≠ some 'B' then
    .ok .nonBallerinaName
  else
    let mangledName := mangledName.drop 2
    if mangledName.head? = some '_' then .ok (.nonPublicBallerinaName mangledName.tail)
    else if mangledName.head? = some 'b' then demanglePublic true mangledName.tail
    else demanglePublic false mangledName

/-- `_bal_print_mangled_name`: what is written to `fp`. -/
def printMangledName (mangledName : Text) : Except Stop Text :=
  match demangle mangledName with
  | .error e => .error e
  | .ok (.nonPublicBallerinaName localName) => .ok localName
  | .ok (.publicBallerinaName localName printed) =>
    .ok (localName ++ [' ', '('] ++ printed ++ [')'])
  | .ok .nonBallerinaName => .ok mangledName
  | .ok .badBallerinaName => .ok mangledName

end Nballerina.Nback
