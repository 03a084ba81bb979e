import Nballerina.Syntax.Tokenizer

/-!
# The tokens of a list of fragments

What the tokenizer does is best said of the fragments that are left: those of the line, and the lines
after it. `lex` is the next token of them, and `advance_lex` says that it is the one that `advance`
makes current, from every state between tokens. The indices into the line, the bound on the steps and the
panics do not come up again after this.
-/

namespace Nballerina.Syntax

/-- What comes of an `advance`: the fragments that are left after a token, in the line and in the lines
after it. -/
inductive Outcome where
  | ended
  | token (t : Token) (fragments : List Fragment) (later : List (List Fragment))
  | stopped (message : Text)

/-- The token that a fragment is, for the fragments that are one whatever is around them. -/
def Fragment.token (f : Fragment) : Option Token :=
  match f.code with
  | .decimalNumber => some (.decimalNumber f.text)
  | .identifier => some (.identifier f.text)
  | .hexNumber => hexToken f.text
  | .decimalFpNumberF => suffixedToken .f f.text
  | .decimalFpNumber => some (.decimalFpNumber f.text none)
  | .decimalFpNumberD => suffixedToken .d f.text
  | .fixed t => some (.fixed t)
  | _ => none

/-- The characters that a fragment of a string stands for; the message of an error. -/
def Fragment.chars (f : Fragment) : Except Text Text :=
  match f.code with
  | .stringChars => .ok f.text
  | .stringCharEscape => .ok (f.text.drop 1)
  | .stringControlEscape => .ok (((f.text[1]?).bind ESCAPES).toList)
  | .stringNumericEscape =>
    match unicodeEscapeValue f.text with
    | some (some ch) => .ok [ch]
    | _ => .error "invalid numeric escape".toList
  | _ => .error "invalid token".toList

/-- The value of a string and what follows its closing quote. -/
def lexString (str : Text) : List Fragment → Except Text (Text × List Fragment)
  | [] => .ok (str, [])
  | f :: fragments =>
    if f.code = .stringClose then .ok (str, fragments)
    else
      match f.chars with
      | .ok chars => lexString (str ++ chars) fragments
      | .error message => .error message

/-- The token `>`, or those of several, with the number of fragments after the first. -/
def lexGreaterThan (mode : Mode) (fragments : List Fragment) : FixedToken × Nat :=
  if mode = .normal ∧ fragments[0]?.map (·.code) = some .greaterThan then
    if fragments[1]?.map (·.code) = some .greaterThan then (.greaterThanGreaterThanGreaterThan, 2)
    else (.greaterThanGreaterThan, 1)
  else (.greaterThan, 0)

def FragCode.blank : FragCode → Bool
  | .whitespace => true
  | .comment => true
  | _ => false

/-- What is left from the next fragment on that is not white space or a comment. -/
def skipBlank : List Fragment → List (List Fragment) → List Fragment × List (List Fragment)
  | fragments, [] => (fragments.dropWhile fun f => f.code.blank, [])
  | fragments, line :: later =>
    match fragments.dropWhile fun f => f.code.blank with
    | [] => skipBlank line later
    | f :: fragments => (f :: fragments, line :: later)

/-- A string as an outcome. -/
def stringOutcome (later : List (List Fragment)) : Except Text (Text × List Fragment) → Outcome
  | .ok (str, fragments) => .token (.stringLiteral str) fragments later
  | .error message => .stopped message

/-- The token that starts with the first of the fragments, which is not blank. -/
def lexHead (mode : Mode) (later : List (List Fragment)) : List Fragment → Outcome
  | [] => .ended
  | f :: fragments =>
    match f.code with
    | .greaterThan =>
      let (t, more) := lexGreaterThan mode fragments
      .token (.fixed t) (fragments.drop more) later
    | .stringOpen => stringOutcome later (lexString [] fragments)
    | _ =>
      match f.token with
      | some t => .token t fragments later
      | none => .stopped "invalid token".toList

def lex (mode : Mode) (fragments : List Fragment) (later : List (List Fragment)) : Outcome :=
  lexHead mode (skipBlank fragments later).2 (skipBlank fragments later).1

/-! ## The fragments that a tokenizer has left -/

/-- The fragments that are left of the line, and the lines after it. -/
structure At (tok : Tokenizer) (fragments : List Fragment) (later : List (List Fragment)) : Prop where
  codes : tok.fragCodes.drop tok.fragCodeIndex = fragments.map (·.code)
  /-- the text of a comment is not read -/
  texts : fragmentTexts fragments <+: tok.fragments.drop tok.fragmentIndex
  lines : tok.lines.drop tok.lineIndex = later.map ScannedLine.ofFragments

/-- A state between two tokens: what is left of the line starts where a fragment outside of strings or a
string does. -/
def Tokenizer.BetweenTokens (tok : Tokenizer) : Prop :=
  ∃ fragments later, At tok fragments later ∧ Lexed fragments ∧ ∀ line ∈ later, Lexed line

section At

variable {tok : Tokenizer} {f : Fragment} {fragments line : List Fragment}
  {later : List (List Fragment)}

theorem getElem?_of_drop {α : Type} {xs ys : List α} {i : Nat} {x : α} (h : xs.drop i = x :: ys) :
    xs[i]? = some x ∧ xs.drop (i + 1) = ys := by
  have hget : (xs.drop i)[0]? = some x := by rw [h]; rfl
  rw [List.getElem?_drop] at hget
  refine ⟨hget, ?_⟩
  rw [← List.drop_drop, h]
  rfl

theorem getElem?_of_drop_nil {α : Type} {xs : List α} {i : Nat} (h : xs.drop i = []) :
    xs[i]? = none :=
  List.getElem?_eq_none (List.drop_eq_nil_iff.mp h)

theorem At.code (h : At tok (f :: fragments) later) :
    tok.fragCodes[tok.fragCodeIndex]? = some f.code := (getElem?_of_drop h.codes).1

/-- The fragments after the first are found behind it. -/
theorem At.code_after (h : At tok (f :: fragments) later) (i : Nat) :
    tok.fragCodes[tok.fragCodeIndex + 1 + i]? = fragments[i]?.map (·.code) := by
  rw [← List.getElem?_drop, (getElem?_of_drop h.codes).2, List.getElem?_map]

theorem At.no_code (h : At tok [] later) : tok.fragCodes[tok.fragCodeIndex]? = none :=
  getElem?_of_drop_nil h.codes

/-- Past a fragment whose text is not kept. -/
theorem At.pass (h : At tok (f :: fragments) later) (hvar : f.code.isVar = false) :
    At { tok with fragCodeIndex := tok.fragCodeIndex + 1 } fragments later where
  codes := (getElem?_of_drop h.codes).2
  texts := by
    have htexts := h.texts
    unfold fragmentTexts at htexts
    rw [List.filter_cons_of_neg (by simp [hvar])] at htexts
    exact htexts
  lines := h.lines

/-- Past a fragment whose text is kept. -/
theorem At.take (h : At tok (f :: fragments) later) (hvar : f.code.isVar = true) :
    ∃ tok', { tok with fragCodeIndex := tok.fragCodeIndex + 1 }.getFragment = some (f.text, tok') ∧
      At tok' fragments later ∧ tok'.mode = tok.mode := by
  have htexts := h.texts
  unfold fragmentTexts at htexts
  rw [List.filter_cons_of_pos (by simp [hvar]), List.map_cons] at htexts
  obtain ⟨texts, htexts⟩ := htexts
  obtain ⟨htext, hrest⟩ := getElem?_of_drop htexts.symm
  refine ⟨{ tok with
    fragCodeIndex := tok.fragCodeIndex + 1
    codePointIndex := tok.codePointIndex + f.text.length
    fragmentIndex := tok.fragmentIndex + 1 }, ?_, ⟨(getElem?_of_drop h.codes).2, ⟨texts, hrest.symm⟩, h.lines⟩, rfl⟩
  unfold Tokenizer.getFragment
  dsimp only
  rw [htext]
  rfl

/-- On to the next line. -/
theorem At.toLine (h : At tok [] (line :: later)) :
    ∃ tok', tok.advanceLine = some tok' ∧ At tok' line later ∧ tok'.mode = tok.mode := by
  obtain ⟨hline, hlater⟩ := getElem?_of_drop h.lines
  refine ⟨{ tok with
    fragCodes := line.map (·.code)
    fragments := fragmentTexts line
    lineIndex := tok.lineIndex + 1
    fragCodeIndex := 0
    fragmentIndex := 0
    codePointIndex := 0
    tokenStartCodePointIndex := 0 }, ?_, ⟨rfl, List.prefix_rfl, hlater⟩, rfl⟩
  unfold Tokenizer.advanceLine
  rw [hline]
  rfl

theorem At.no_line (h : At tok [] []) : tok.advanceLine = none := by
  unfold Tokenizer.advanceLine
  rw [getElem?_of_drop_nil h.lines]
  rfl

end At

/-! ## What `advance` does -/

/-- The result of an `advance` is as the outcome says. -/
def Outcome.Describes (mode : Mode) : Outcome → Except Stop Tokenizer → Prop
  | .ended, .ok tok => tok.curTok = none ∧ At tok [] [] ∧ tok.mode = mode
  | .token t fragments later, .ok tok =>
    tok.curTok = some t ∧ At tok fragments later ∧ tok.mode = mode
  | .stopped message, .error (.error message' _ _) => message' = message
  | _, _ => False

section Advance

variable {tok : Tokenizer} {f : Fragment} {fragments line : List Fragment}
  {later : List (List Fragment)} {fuel : Nat} {str : Text}

/-- One step of the loop. -/
theorem advanceLoop_step (h : At tok (f :: fragments) later) :
    Tokenizer.advanceLoop (fuel + 1) str tok =
      Tokenizer.afterStep (Tokenizer.advanceLoop fuel)
        ({ tok with fragCodeIndex := tok.fragCodeIndex + 1 }.fragmentStep str f.code) := by
  conv => lhs; unfold Tokenizer.advanceLoop
  rw [h.code]

/-- A fragment whose text is a token. -/
theorem advanceLoop_tokenOf (make : Text → Option Token) {t : Token} (h : At tok (f :: fragments) later)
    (hvar : f.code.isVar = true) (hmake : make f.text = some t)
    (hstep : { tok with fragCodeIndex := tok.fragCodeIndex + 1 }.fragmentStep str f.code =
      { tok with fragCodeIndex := tok.fragCodeIndex + 1 }.tokenOf make) :
    (Outcome.token t fragments later).Describes tok.mode (Tokenizer.advanceLoop (fuel + 1) str tok) := by
  obtain ⟨tok', htake, hat, hmode⟩ := h.take hvar
  rw [advanceLoop_step h, hstep]
  unfold Tokenizer.tokenOf
  rw [htake]
  dsimp only [Option.bind_eq_bind, Option.bind_some]
  rw [hmake]
  exact ⟨rfl, ⟨hat.codes, hat.texts, hat.lines⟩, hmode⟩

/-- The characters of a fragment of a string are added to those before it, or it is an error. -/
theorem advanceLoop_inString (h : At tok (f :: fragments) later) (hcode : f.code.inString = true)
    (hcut : f.Cut) :
    (∃ chars tok', f.chars = .ok chars ∧
      Tokenizer.advanceLoop (fuel + 1) str tok = Tokenizer.advanceLoop fuel (str ++ chars) tok' ∧
      At tok' fragments later ∧ tok'.mode = tok.mode) ∨
    ∃ message startPos endPos, f.chars = .error message ∧
      Tokenizer.advanceLoop (fuel + 1) str tok = .error (.error message startPos endPos) := by
  rw [advanceLoop_step h]
  obtain ⟨code, text⟩ := f
  cases code with
  | stringChars =>
    obtain ⟨tok', htake, hat, hmode⟩ := h.take rfl
    refine Or.inl ⟨text, tok', rfl, ?_, hat, hmode⟩
    dsimp only [Tokenizer.fragmentStep, Tokenizer.inStringStep]
    rw [htake]
    rfl
  | stringCharEscape =>
    obtain ⟨tok', htake, hat, hmode⟩ := h.take rfl
    obtain ⟨cp, rfl⟩ := hcut
    refine Or.inl ⟨[cp], tok', rfl, ?_, hat, hmode⟩
    dsimp only [Tokenizer.fragmentStep, Tokenizer.inStringStep]
    rw [htake]
    rfl
  | stringControlEscape =>
    obtain ⟨tok', htake, hat, hmode⟩ := h.take rfl
    obtain ⟨cp, hcp, rfl⟩ := hcut
    obtain ⟨control, hcontrol⟩ : ∃ control, ESCAPES cp = some control := by
      rcases hcp with rfl | rfl | rfl <;> exact ⟨_, rfl⟩
    refine Or.inl ⟨[control], tok', ?_, ?_, hat, hmode⟩
    · show Except.ok (ESCAPES cp).toList = _
      rw [hcontrol]
      rfl
    · dsimp only [Tokenizer.fragmentStep, Tokenizer.inStringStep]
      rw [htake]
      dsimp only [Option.bind_eq_bind, Option.bind_some]
      rw [show [('\\' : Char), cp][1]? = some cp from rfl, Option.bind_some, hcontrol]
      rfl
  | stringNumericEscape =>
    obtain ⟨tok', htake, hat, hmode⟩ := h.take rfl
    have hlength : 4 ≤ text.length := hcut
    obtain ⟨value, hvalue⟩ : ∃ value, unicodeEscapeValue text = some value := by
      unfold unicodeEscapeValue substring
      rw [if_pos (by omega)]
      exact ⟨_, rfl⟩
    cases value with
    | some ch =>
      refine Or.inl ⟨[ch], tok', ?_, ?_, hat, hmode⟩
      · dsimp only [Fragment.chars]
        rw [hvalue]
      · dsimp only [Tokenizer.fragmentStep]
        rw [htake]
        dsimp only [Option.bind_eq_bind, Option.bind_some]
        rw [hvalue]
        rfl
    | none =>
      have hstep : ({ tok with fragCodeIndex := tok.fragCodeIndex + 1 }.fragmentStep str
          .stringNumericEscape) = some (.stop ({ tok' with
            tokenStartCodePointIndex := tok'.codePointIndex - text.length }.err
              "invalid numeric escape".toList)) := by
        dsimp only [Tokenizer.fragmentStep]
        rw [htake]
        dsimp only [Option.bind_eq_bind, Option.bind_some]
        rw [hvalue]
        rfl
      refine Or.inr ⟨"invalid numeric escape".toList, _, _, ?_, congrArg _ hstep⟩
      dsimp only [Fragment.chars]
      rw [hvalue]
  | invalid => exact Or.inr ⟨_, _, _, rfl, rfl⟩
  | _ => cases hcode

/-- From inside of a string to its end. -/
theorem advanceLoop_string {closed : Text} {rest : List Fragment} :
    ∀ (body : List Fragment) (fuel : Nat) (str : Text) (tok : Tokenizer),
      (∀ f ∈ body, f.code.inString = true ∧ f.Cut) →
      At tok (body ++ ⟨.stringClose, closed⟩ :: rest) later → body.length < fuel →
      (stringOutcome later (lexString str (body ++ ⟨.stringClose, closed⟩ :: rest))).Describes tok.mode
        (Tokenizer.advanceLoop fuel str tok)
  | [], fuel + 1, str, tok, _, hat, _ => by
    rw [List.nil_append] at hat ⊢
    rw [advanceLoop_step hat]
    have hpass := hat.pass rfl
    exact ⟨rfl, ⟨hpass.codes, hpass.texts, hpass.lines⟩, rfl⟩
  | f :: body, fuel + 1, str, tok, hbody, hat, hfuel => by
    obtain ⟨⟨hcode, hcut⟩, hbody⟩ := List.forall_mem_cons.mp hbody
    rw [List.cons_append] at hat ⊢
    have hne : f.code ≠ .stringClose := by
      rintro hclose
      rw [hclose] at hcode
      cases hcode
    unfold lexString
    rw [if_neg hne]
    have hhead : (∃ chars tok', f.chars = .ok chars ∧
        Tokenizer.advanceLoop (fuel + 1) str tok = Tokenizer.advanceLoop fuel (str ++ chars) tok' ∧
        At tok' (body ++ ⟨.stringClose, closed⟩ :: rest) later ∧ tok'.mode = tok.mode) ∨
        ∃ message startPos endPos, f.chars = .error message ∧
          Tokenizer.advanceLoop (fuel + 1) str tok = .error (.error message startPos endPos) :=
      advanceLoop_inString hat hcode hcut
    rcases hhead with
      ⟨chars, tok', hchars, hstep, hat', hmode⟩ | ⟨message, startPos, endPos, hchars, hstep⟩
    · rw [hchars, hstep, ← hmode]
      exact advanceLoop_string body fuel _ tok' hbody hat' (by simp at hfuel; omega)
    · rw [hchars, hstep]
      rfl

variable {text : Text}

/-- One or more `>`. -/
theorem advanceLoop_greaterThan (h : At tok (⟨.greaterThan, text⟩ :: fragments) later) :
    (lexHead tok.mode later (⟨.greaterThan, text⟩ :: fragments)).Describes tok.mode
      (Tokenizer.advanceLoop (fuel + 1) str tok) := by
  have hpass := h.pass rfl
  rw [advanceLoop_step h]
  dsimp only [lexHead, Tokenizer.fragmentStep, Tokenizer.afterStep]
  have hnext := h.code_after 0
  have hnext2 := h.code_after 1
  unfold Tokenizer.greaterThanToken lexGreaterThan
  dsimp only
  rw [show tok.fragCodes[tok.fragCodeIndex + 1]? = _ from hnext,
    show tok.fragCodes[tok.fragCodeIndex + 1 + 1]? = _ from hnext2]
  split
  next hone =>
    obtain ⟨g, hg, hgcode⟩ := Option.map_eq_some_iff.mp hone.2
    cases fragments with
    | nil => cases hg
    | cons g' fragments =>
    cases hg
    have hpass2 := hpass.pass (by rw [hgcode]; rfl)
    split
    next htwo =>
      obtain ⟨g2, hg2, hg2code⟩ := Option.map_eq_some_iff.mp htwo
      cases fragments with
      | nil => cases hg2
      | cons g2' fragments =>
      cases hg2
      have hpass3 := hpass2.pass (by rw [hg2code]; rfl)
      exact ⟨rfl, ⟨hpass3.codes, hpass3.texts, hpass3.lines⟩, rfl⟩
    next => exact ⟨rfl, ⟨hpass2.codes, hpass2.texts, hpass2.lines⟩, rfl⟩
  next => exact ⟨rfl, ⟨hpass.codes, hpass.texts, hpass.lines⟩, rfl⟩

theorem hexToken_of_le (h : 2 ≤ text.length) :
    ∃ cut, hexToken text = some (.hexIntLiteral cut) := by
  unfold hexToken substring
  rw [if_pos ⟨h, Nat.le_refl _⟩]
  exact ⟨_, rfl⟩

theorem suffixedToken_eq (suffix : FpTypeSuffix) (text : Text) :
    ∃ cut, suffixedToken suffix text = some (.decimalFpNumber cut (some suffix)) := by
  unfold suffixedToken substring
  rw [if_pos ⟨Nat.zero_le _, Nat.sub_le _ 1⟩]
  exact ⟨_, rfl⟩

/-- A fragment outside of strings that is not blank. -/
theorem advanceLoop_plain (hplain : f.code.plain = true) (hblank : f.code.blank = false) (hcut : f.Cut)
    (h : At tok (f :: fragments) later) :
    (lexHead tok.mode later (f :: fragments)).Describes tok.mode
      (Tokenizer.advanceLoop (fuel + 1) str tok) := by
  obtain ⟨code, text⟩ := f
  cases code with
  | invalid =>
    rw [advanceLoop_step h]
    rfl
  | identifier =>
    exact advanceLoop_tokenOf (fun fragment => some (.identifier fragment)) h rfl rfl rfl
  | decimalNumber =>
    exact advanceLoop_tokenOf (fun fragment => some (.decimalNumber fragment)) h rfl rfl rfl
  | decimalFpNumber =>
    exact advanceLoop_tokenOf (fun fragment => some (.decimalFpNumber fragment none)) h rfl rfl rfl
  | hexNumber =>
    obtain ⟨t, hmake⟩ := hexToken_of_le hcut
    dsimp only [lexHead, Fragment.token]
    rw [hmake]
    exact advanceLoop_tokenOf hexToken h rfl hmake rfl
  | decimalFpNumberF =>
    obtain ⟨t, hmake⟩ := suffixedToken_eq .f text
    dsimp only [lexHead, Fragment.token]
    rw [hmake]
    exact advanceLoop_tokenOf (suffixedToken .f) h rfl hmake rfl
  | decimalFpNumberD =>
    obtain ⟨t, hmake⟩ := suffixedToken_eq .d text
    dsimp only [lexHead, Fragment.token]
    rw [hmake]
    exact advanceLoop_tokenOf (suffixedToken .d) h rfl hmake rfl
  | greaterThan => exact advanceLoop_greaterThan h
  | fixed t =>
    rw [advanceLoop_step h]
    have hpass := h.pass rfl
    exact ⟨rfl, ⟨hpass.codes, hpass.texts, hpass.lines⟩, rfl⟩
  | whitespace => cases hblank
  | comment => cases hblank
  | _ => cases hplain

theorem skipBlank_cons_of_blank (hblank : f.code.blank = true) (fragments : List Fragment) :
    skipBlank (f :: fragments) later = skipBlank fragments later := by
  have hdrop : (f :: fragments).dropWhile (fun f => f.code.blank) =
      fragments.dropWhile fun f => f.code.blank := List.dropWhile_cons_of_pos hblank
  cases later with
  | nil =>
    unfold skipBlank
    rw [hdrop]
  | cons line later =>
    unfold skipBlank
    rw [hdrop]

theorem skipBlank_cons (hblank : f.code.blank = false) (fragments : List Fragment) :
    skipBlank (f :: fragments) later = (f :: fragments, later) := by
  have hdrop : (f :: fragments).dropWhile (fun f => f.code.blank) = f :: fragments :=
    List.dropWhile_cons_of_neg (by rw [hblank]; nofun)
  cases later with
  | nil =>
    unfold skipBlank
    rw [hdrop]
  | cons line later =>
    unfold skipBlank
    rw [hdrop]

theorem lex_cons (mode : Mode) (hblank : f.code.blank = false) (fragments : List Fragment) :
    lex mode (f :: fragments) later = lexHead mode later (f :: fragments) := by
  unfold lex
  rw [skipBlank_cons hblank]

/-- The fragments and line ends that are left. -/
def left (fragments : List Fragment) (later : List (List Fragment)) : Nat :=
  fragments.length + (later.map fun line => line.length + 1).sum

theorem lex_cons_of_blank (mode : Mode) (hblank : f.code.blank = true) (fragments : List Fragment) :
    lex mode (f :: fragments) later = lex mode fragments later := by
  unfold lex
  rw [skipBlank_cons_of_blank hblank]

/-- Past white space. -/
theorem advanceLoop_whitespace (h : At tok (⟨.whitespace, text⟩ :: fragments) later) :
    ∃ tok', Tokenizer.advanceLoop (fuel + 1) str tok = Tokenizer.advanceLoop fuel str tok' ∧
      At tok' fragments later ∧ tok'.mode = tok.mode := by
  obtain ⟨tok', htake, hat, hmode⟩ := h.take rfl
  refine ⟨{ tok' with tokenStartCodePointIndex := tok'.codePointIndex }, ?_,
    ⟨hat.codes, hat.texts, hat.lines⟩, hmode⟩
  rw [advanceLoop_step h]
  dsimp only [Tokenizer.fragmentStep]
  rw [htake]
  rfl

/-- Past a comment, which is the end of its line. -/
theorem advanceLoop_comment (h : At tok [⟨.comment, text⟩] later) :
    ∃ tok', Tokenizer.advanceLoop (fuel + 1) str tok = Tokenizer.advanceLoop fuel str tok' ∧
      At tok' [] later ∧ tok'.mode = tok.mode := by
  refine ⟨{ tok with fragCodeIndex := tok.fragCodeIndex + 1 }, ?_,
    ⟨(getElem?_of_drop h.codes).2, List.nil_prefix, h.lines⟩, rfl⟩
  rw [advanceLoop_step h]
  rfl

/-- From the end of a line to the next one. -/
theorem advanceLoop_line (h : At tok [] (line :: later)) :
    ∃ tok', Tokenizer.advanceLoop (fuel + 1) str tok = Tokenizer.advanceLoop fuel str tok' ∧
      At tok' line later ∧ tok'.mode = tok.mode := by
  obtain ⟨tok', hline, hat, hmode⟩ := h.toLine
  refine ⟨tok', ?_, hat, hmode⟩
  conv => lhs; unfold Tokenizer.advanceLoop
  rw [h.no_code]
  dsimp only
  rw [hline]

theorem advanceLoop_ended (h : At tok [] []) :
    Outcome.ended.Describes tok.mode (Tokenizer.advanceLoop (fuel + 1) str tok) := by
  conv => rhs; unfold Tokenizer.advanceLoop
  rw [h.no_code]
  dsimp only
  rw [h.no_line]
  exact ⟨rfl, ⟨h.codes, h.texts, h.lines⟩, rfl⟩

/-- A string. -/
theorem advanceLoop_stringOpen {opened closed : Text} {body rest : List Fragment}
    (hbody : ∀ f ∈ body, f.code.inString = true ∧ f.Cut)
    (h : At tok (⟨.stringOpen, opened⟩ :: body ++ ⟨.stringClose, closed⟩ :: rest) later)
    (hfuel : body.length < fuel) :
    (lexHead tok.mode later (⟨.stringOpen, opened⟩ :: body ++ ⟨.stringClose, closed⟩ :: rest)).Describes
      tok.mode (Tokenizer.advanceLoop (fuel + 1) [] tok) := by
  rw [List.cons_append] at h ⊢
  have hpass := h.pass rfl
  rw [advanceLoop_step h]
  exact advanceLoop_string body fuel [] _ hbody ⟨hpass.codes, hpass.texts, hpass.lines⟩ hfuel

/-- The fragments of a line, where the loop is known to go right from the end of it. -/
theorem advanceLoop_fragments
    (hend : ∀ (fuel : Nat) (tok : Tokenizer), At tok [] later → left [] later < fuel →
      (lex tok.mode [] later).Describes tok.mode (Tokenizer.advanceLoop fuel [] tok)) :
    ∀ (fragments : List Fragment), Lexed fragments → ∀ (fuel : Nat) (tok : Tokenizer),
      At tok fragments later → left fragments later < fuel →
        (lex tok.mode fragments later).Describes tok.mode (Tokenizer.advanceLoop fuel [] tok) := by
  intro fragments hlexed
  induction hlexed with
  | nil => exact hend
  | @plain f fragments hplain hcomment hcut hrest ih =>
    intro fuel tok hat hfuel
    unfold left at hfuel
    rw [List.length_cons] at hfuel
    obtain ⟨fuel, rfl⟩ := Nat.exists_eq_add_of_lt (Nat.lt_of_le_of_lt (Nat.zero_le _) hfuel)
    cases hblank : f.code.blank with
    | false =>
      rw [lex_cons _ hblank]
      exact advanceLoop_plain hplain hblank hcut hat
    | true =>
      obtain ⟨code, text⟩ := f
      have hcode : code = .whitespace := by
        cases code <;> first | rfl | contradiction
      subst hcode
      obtain ⟨tok', hstep, hat', hmode⟩ := advanceLoop_whitespace hat
      rw [lex_cons_of_blank _ hblank, Nat.zero_add, hstep, ← hmode]
      exact ih _ tok' hat' (by unfold left; omega)
  | comment =>
    intro fuel tok hat hfuel
    unfold left at hfuel
    rw [List.length_cons] at hfuel
    obtain ⟨fuel, rfl⟩ := Nat.exists_eq_add_of_lt (Nat.lt_of_le_of_lt (Nat.zero_le _) hfuel)
    obtain ⟨tok', hstep, hat', hmode⟩ := advanceLoop_comment hat
    rw [lex_cons_of_blank _ rfl, Nat.zero_add, hstep, ← hmode]
    exact hend _ tok' hat' (by unfold left; rw [List.length_nil] at hfuel ⊢; omega)
  | string hbody hrest ih =>
    intro fuel tok hat hfuel
    unfold left at hfuel
    rw [List.length_append, List.length_cons, List.length_cons] at hfuel
    obtain ⟨fuel, rfl⟩ := Nat.exists_eq_add_of_lt (Nat.lt_of_le_of_lt (Nat.zero_le _) hfuel)
    rw [List.cons_append, lex_cons tok.mode rfl]
    exact advanceLoop_stringOpen hbody hat (by omega)

/-- From between two tokens to the next one. -/
theorem advanceLoop_lex : ∀ (later : List (List Fragment)), (∀ line ∈ later, Lexed line) →
    ∀ (fragments : List Fragment), Lexed fragments → ∀ (fuel : Nat) (tok : Tokenizer),
      At tok fragments later → left fragments later < fuel →
        (lex tok.mode fragments later).Describes tok.mode (Tokenizer.advanceLoop fuel [] tok) := by
  intro later
  induction later with
  | nil =>
    intro _
    refine advanceLoop_fragments fun fuel tok hat hfuel => ?_
    obtain ⟨fuel, rfl⟩ := Nat.exists_eq_add_of_lt hfuel
    exact advanceLoop_ended hat
  | cons line later ih =>
    intro hlater
    obtain ⟨hline, hlater⟩ := List.forall_mem_cons.mp hlater
    refine advanceLoop_fragments fun fuel tok hat hfuel => ?_
    unfold left at hfuel
    rw [List.map_cons, List.sum_cons, List.length_nil] at hfuel
    obtain ⟨fuel, rfl⟩ := Nat.exists_eq_add_of_lt (Nat.lt_of_le_of_lt (Nat.zero_le _) hfuel)
    obtain ⟨tok', hstep, hat', hmode⟩ := advanceLoop_line hat
    rw [Nat.zero_add, hstep, ← hmode]
    exact ih hlater line hline _ tok' hat' (by unfold left; omega)

end Advance

/-- The bound on the steps is more than what is left. -/
theorem At.advanceFuel {tok : Tokenizer} {fragments : List Fragment} {later : List (List Fragment)}
    (h : At tok fragments later) : tok.advanceFuel = left fragments later + 1 := by
  have hcodes := congrArg List.length h.codes
  rw [List.length_drop, List.length_map] at hcodes
  unfold Tokenizer.advanceFuel left
  rw [hcodes, h.lines, List.map_map]
  simp [Function.comp_def, ScannedLine.ofFragments]

/-- **`advance` makes current the next token of the fragments that are left.** -/
theorem advance_lex {tok : Tokenizer} {fragments : List Fragment} {later : List (List Fragment)}
    (h : At tok fragments later) (hlexed : Lexed fragments) (hlater : ∀ line ∈ later, Lexed line) :
    (lex tok.mode fragments later).Describes tok.mode tok.advance := by
  unfold Tokenizer.advance
  rw [h.advanceFuel]
  have hat : At { tok with
      tokenStartCodePointIndex := tok.codePointIndex
      prevTokenEndCodePointIndex := tok.codePointIndex
      prevTokenEndLineIndex := tok.lineIndex } fragments later := ⟨h.codes, h.texts, h.lines⟩
  exact advanceLoop_lex later hlater fragments hlexed _ _ hat (Nat.lt_succ_self _)

end Nballerina.Syntax
