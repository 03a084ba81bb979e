import Nballerina.Syntax.Lexer

/-!
# The states that a tokenizer gets to

A tokenizer starts before its first line, advances, changes its mode, and goes back to a state that was
saved. What it holds of the current line is always what was scanned of that line, although `save` does
not keep it: so `restore` puts every field back (`restore_save`), and every state is between two tokens
(`Reached.betweenTokens`).
-/

namespace Nballerina.Syntax

namespace Tokenizer

/-- The states of a tokenizer of these lines. -/
inductive Reached (file : Nat) (lines : List ScannedLine) : Tokenizer → Prop where
  | init : Reached file lines (Tokenizer.init file lines)
  | advance {tok tok' : Tokenizer} :
      Reached file lines tok → tok.advance = .ok tok' → Reached file lines tok'
  | setMode {tok : Tokenizer} (m : Mode) : Reached file lines tok → Reached file lines (tok.setMode m)
  | restore {tok saved tok' : Tokenizer} :
      Reached file lines tok → Reached file lines saved → tok.restore saved.save = some tok' →
      Reached file lines tok'

/-- What the tokenizer holds of a line is that of the line before `lineIndex`. -/
structure OnLine (file : Nat) (lines : List ScannedLine) (tok : Tokenizer) : Prop where
  file_eq : tok.file = file
  lines_eq : tok.lines = lines
  line : (if tok.lineIndex = 0 then some ⟨[], []⟩ else lines[tok.lineIndex - 1]?) =
    some ⟨tok.fragCodes, tok.fragments⟩

/-- The two are in the same line. -/
structure SameLine (tok tok' : Tokenizer) : Prop where
  file_eq : tok'.file = tok.file
  lines_eq : tok'.lines = tok.lines
  lineIndex_eq : tok'.lineIndex = tok.lineIndex
  fragCodes_eq : tok'.fragCodes = tok.fragCodes
  fragments_eq : tok'.fragments = tok.fragments

section OnLine

variable {file : Nat} {lines : List ScannedLine} {tok tok' tok1 tok2 tok3 : Tokenizer}

theorem SameLine.trans (h : SameLine tok1 tok2) (h' : SameLine tok2 tok3) : SameLine tok1 tok3 :=
  ⟨h'.file_eq.trans h.file_eq, h'.lines_eq.trans h.lines_eq, h'.lineIndex_eq.trans h.lineIndex_eq,
    h'.fragCodes_eq.trans h.fragCodes_eq, h'.fragments_eq.trans h.fragments_eq⟩

theorem SameLine.onLine (hsame : SameLine tok tok') (h : OnLine file lines tok) :
    OnLine file lines tok' where
  file_eq := hsame.file_eq.trans h.file_eq
  lines_eq := hsame.lines_eq.trans h.lines_eq
  line := by
    rw [hsame.lineIndex_eq, hsame.fragCodes_eq, hsame.fragments_eq]
    exact h.line

theorem getFragment_sameLine {fragment : Text} (h : tok.getFragment = some (fragment, tok')) :
    SameLine tok tok' := by
  obtain ⟨text, -, htok⟩ := Option.bind_eq_some_iff.mp h
  cases htok
  exact ⟨rfl, rfl, rfl, rfl, rfl⟩

/-- A step of the loop of `advance` goes on in the line. -/
def FragmentStep.SameLine (tok : Tokenizer) : FragmentStep → Prop
  | .next _ tok' => tok.SameLine tok'
  | .token _ tok' => tok.SameLine tok'
  | .stop _ => True

variable {step : FragmentStep}

theorem tokenOf_sameLine {make : Text → Option Token} (h : tok.tokenOf make = some step) :
    step.SameLine tok := by
  obtain ⟨⟨fragment, tok'⟩, hget, h⟩ := Option.bind_eq_some_iff.mp h
  obtain ⟨t, -, hstep⟩ := Option.bind_eq_some_iff.mp h
  cases hstep
  exact getFragment_sameLine hget

theorem inStringStep_sameLine {chars : Text → Option Text} {str : Text}
    (h : tok.inStringStep str chars = some step) : step.SameLine tok := by
  obtain ⟨⟨fragment, tok'⟩, hget, h⟩ := Option.bind_eq_some_iff.mp h
  obtain ⟨t, -, hstep⟩ := Option.bind_eq_some_iff.mp h
  cases hstep
  exact getFragment_sameLine hget

theorem fragmentStep_sameLine {str : Text} {fragCode : FragCode}
    (h : tok.fragmentStep str fragCode = some step) : step.SameLine tok := by
  cases fragCode with
  | stringChars =>
    unfold fragmentStep at h
    exact inStringStep_sameLine h
  | stringCharEscape =>
    unfold fragmentStep at h
    exact inStringStep_sameLine h
  | stringControlEscape =>
    unfold fragmentStep at h
    exact inStringStep_sameLine h
  | stringNumericEscape =>
    obtain ⟨⟨fragment, tok'⟩, hget, h⟩ := Option.bind_eq_some_iff.mp h
    obtain ⟨value, -, h⟩ := Option.bind_eq_some_iff.mp h
    cases value with
    | some ch =>
      cases h
      exact getFragment_sameLine hget
    | none =>
      cases h
      exact trivial
  | whitespace =>
    obtain ⟨⟨fragment, tok'⟩, hget, h⟩ := Option.bind_eq_some_iff.mp h
    cases h
    exact (getFragment_sameLine hget).trans ⟨rfl, rfl, rfl, rfl, rfl⟩
  | identifier =>
    unfold fragmentStep at h
    exact tokenOf_sameLine h
  | decimalNumber =>
    unfold fragmentStep at h
    exact tokenOf_sameLine h
  | hexNumber =>
    unfold fragmentStep at h
    exact tokenOf_sameLine h
  | decimalFpNumber =>
    unfold fragmentStep at h
    exact tokenOf_sameLine h
  | decimalFpNumberF =>
    unfold fragmentStep at h
    exact tokenOf_sameLine h
  | decimalFpNumberD =>
    unfold fragmentStep at h
    exact tokenOf_sameLine h
  | invalid =>
    cases h
    exact trivial
  | _ =>
    cases h
    exact ⟨rfl, rfl, rfl, rfl, rfl⟩

theorem advanceLine_onLine (h : OnLine file lines tok) (hline : tok.advanceLine = some tok') :
    OnLine file lines tok' := by
  obtain ⟨scannedLine, hget, htok⟩ := Option.bind_eq_some_iff.mp hline
  cases htok
  refine ⟨h.file_eq, h.lines_eq, ?_⟩
  rw [if_neg (Nat.succ_ne_zero _), ← h.lines_eq]
  exact hget

theorem advanceLoop_onLine : ∀ (fuel : Nat) (str : Text) (tok tok' : Tokenizer),
    OnLine file lines tok → advanceLoop fuel str tok = .ok tok' → OnLine file lines tok' := by
  intro fuel
  induction fuel with
  | zero =>
    intro str tok tok' _ hloop
    cases hloop
  | succ fuel ih =>
    intro str tok tok' h hloop
    unfold advanceLoop at hloop
    split at hloop
    next hend =>
      split at hloop
      next hline =>
        cases hloop
        exact ⟨h.file_eq, h.lines_eq, h.line⟩
      next tok2 hline => exact ih _ _ _ (advanceLine_onLine h hline) hloop
    next fragCode hcode =>
      have hhere : OnLine file lines { tok with fragCodeIndex := tok.fragCodeIndex + 1 } :=
        ⟨h.file_eq, h.lines_eq, h.line⟩
      cases hstep : { tok with fragCodeIndex := tok.fragCodeIndex + 1 }.fragmentStep str fragCode with
      | none =>
        rw [hstep] at hloop
        cases hloop
      | some step =>
        rw [hstep] at hloop
        have hsame := fragmentStep_sameLine hstep
        cases step with
        | next str tok2 => exact ih _ _ _ (SameLine.onLine hsame hhere) hloop
        | token t tok2 =>
          cases hloop
          have hthere := SameLine.onLine hsame hhere
          exact ⟨hthere.file_eq, hthere.lines_eq, hthere.line⟩
        | stop s => cases hloop

theorem advance_onLine (h : OnLine file lines tok) (hadvance : tok.advance = .ok tok') :
    OnLine file lines tok' := by
  have hhere : OnLine file lines { tok with
      tokenStartCodePointIndex := tok.codePointIndex
      prevTokenEndCodePointIndex := tok.codePointIndex
      prevTokenEndLineIndex := tok.lineIndex } := ⟨h.file_eq, h.lines_eq, h.line⟩
  exact advanceLoop_onLine _ _ _ _ hhere hadvance

/-- **`restore` puts a saved state back in full.** -/
theorem restore_save {saved : Tokenizer} (h : OnLine file lines tok) (hsaved : OnLine file lines saved) :
    tok.restore saved.save = some saved := by
  have hfile : saved.save.file = tok.file := hsaved.file_eq.trans h.file_eq.symm
  have hline : (if saved.save.lineIndex = 0 then some ⟨[], []⟩ else
      tok.lines[saved.save.lineIndex - 1]?) = some ⟨saved.fragCodes, saved.fragments⟩ := by
    rw [h.lines_eq]
    exact hsaved.line
  unfold restore
  rw [if_neg (not_not_intro hfile), hline, h.lines_eq, ← hsaved.lines_eq, ← hfile]
  rfl

theorem Reached.onLine (h : Reached file lines tok) : OnLine file lines tok := by
  induction h with
  | init => exact ⟨rfl, rfl, rfl⟩
  | advance _ hadvance ih => exact advance_onLine ih hadvance
  | setMode m _ ih => exact ⟨ih.file_eq, ih.lines_eq, ih.line⟩
  | restore _ _ hrestore ih ihSaved =>
    rw [restore_save ih ihSaved] at hrestore
    cases hrestore
    exact ihSaved

end OnLine

end Tokenizer

/-! ## Between two tokens -/

/-- What an outcome leaves is made of fragments and strings. -/
def Outcome.Lexed : Outcome → Prop
  | .token _ fragments later => Syntax.Lexed fragments ∧ ∀ line ∈ later, Syntax.Lexed line
  | _ => True

section Between

variable {file : Nat} {lines : List ScannedLine} {tok : Tokenizer} {f : Fragment}
  {fragments : List Fragment} {later : List (List Fragment)}

theorem Lexed.tail_greaterThan (h : Lexed (f :: fragments)) (hcode : f.code = .greaterThan) :
    Lexed fragments := by
  cases h with
  | plain _ _ _ hrest => exact hrest
  | comment => cases hcode
  | string => cases hcode

theorem lexGreaterThan_lexed (mode : Mode) (h : Lexed fragments) :
    Lexed (fragments.drop (lexGreaterThan mode fragments).2) := by
  unfold lexGreaterThan
  split
  next hone =>
    obtain ⟨f, hf, hfcode⟩ := Option.map_eq_some_iff.mp hone.2
    cases fragments with
    | nil => cases hf
    | cons g fragments =>
      cases hf
      have hrest := h.tail_greaterThan hfcode
      split
      next htwo =>
        obtain ⟨f2, hf2, hf2code⟩ := Option.map_eq_some_iff.mp htwo
        cases fragments with
        | nil => cases hf2
        | cons g2 fragments =>
          cases hf2
          exact hrest.tail_greaterThan hf2code
      next => exact hrest
  next => exact h

theorem lexString_lexed (hlater : ∀ line ∈ later, Lexed line) {closed : Text} {rest : List Fragment}
    (hrest : Lexed rest) :
    ∀ (body : List Fragment) (str : Text), (∀ f ∈ body, f.code.inString = true ∧ f.Cut) →
      (stringOutcome later (lexString str (body ++ ⟨.stringClose, closed⟩ :: rest))).Lexed
  | [], _, _ => ⟨hrest, hlater⟩
  | f :: body, str, hbody => by
    obtain ⟨⟨hcode, -⟩, hbody⟩ := List.forall_mem_cons.mp hbody
    have hne : f.code ≠ .stringClose := by
      intro hclose
      rw [hclose] at hcode
      cases hcode
    rw [List.cons_append]
    unfold lexString
    rw [if_neg hne]
    cases f.chars with
    | ok chars => exact lexString_lexed hlater hrest body _ hbody
    | error message => exact trivial

theorem lexHead_lexed (mode : Mode) (hlater : ∀ line ∈ later, Lexed line) (h : Lexed fragments) :
    (lexHead mode later fragments).Lexed := by
  cases h with
  | nil => exact trivial
  | comment => exact trivial
  | string hbody hrest => exact lexString_lexed hlater hrest _ [] hbody
  | @plain f fragments hplain _ _ hrest =>
    unfold lexHead
    dsimp only
    split
    next => exact ⟨lexGreaterThan_lexed mode hrest, hlater⟩
    next hcode =>
      rw [hcode] at hplain
      cases hplain
    next =>
      split
      next => exact ⟨hrest, hlater⟩
      next => exact trivial

/-- The rest of a line, where the lines after it are known to be right. -/
theorem lex_lexed_fragments {mode : Mode} (hlater : ∀ line ∈ later, Lexed line)
    (hend : (lex mode [] later).Lexed) :
    ∀ (fragments : List Fragment), Lexed fragments → (lex mode fragments later).Lexed := by
  intro fragments hlexed
  induction hlexed with
  | nil => exact hend
  | @plain f fragments hplain hcomment hcut hrest ih =>
    cases hblank : f.code.blank with
    | false =>
      rw [lex_cons _ hblank]
      exact lexHead_lexed mode hlater (.plain hplain hcomment hcut hrest)
    | true =>
      rw [lex_cons_of_blank _ hblank]
      exact ih
  | comment =>
    rw [lex_cons_of_blank _ rfl]
    exact hend
  | @string opened closed body fragments hbody hrest ih =>
    have hstring : (lexHead mode later
        (⟨.stringOpen, opened⟩ :: body ++ ⟨.stringClose, closed⟩ :: fragments)).Lexed :=
      lexHead_lexed mode hlater (.string hbody hrest)
    rw [List.cons_append] at hstring ⊢
    rw [lex_cons _ rfl]
    exact hstring

theorem lex_lexed (mode : Mode) : ∀ (later : List (List Fragment)), (∀ line ∈ later, Lexed line) →
    ∀ (fragments : List Fragment), Lexed fragments → (lex mode fragments later).Lexed
  | [], hlater => lex_lexed_fragments hlater trivial
  | line :: later, hlater =>
    have ⟨hline, hrest⟩ := List.forall_mem_cons.mp hlater
    lex_lexed_fragments hlater (lex_lexed mode later hrest line hline)

/-- After a token the tokenizer is between two again. -/
theorem Tokenizer.BetweenTokens.advance {tok' : Tokenizer} (h : tok.BetweenTokens)
    (hadvance : tok.advance = .ok tok') : tok'.BetweenTokens := by
  obtain ⟨fragments, later, hat, hlexed, hlater⟩ := h
  have hdescribes := advance_lex hat hlexed hlater
  have hleft := lex_lexed tok.mode later hlater fragments hlexed
  rw [hadvance] at hdescribes
  cases hlex : lex tok.mode fragments later with
  | ended =>
    rw [hlex] at hdescribes
    exact ⟨[], [], hdescribes.2.1, .nil, nofun⟩
  | token t fragments later =>
    rw [hlex] at hdescribes hleft
    exact ⟨fragments, later, hdescribes.2.1, hleft.1, hleft.2⟩
  | stopped message =>
    rw [hlex] at hdescribes
    cases hdescribes

/-- Scanned lines are lines of fragments. -/
theorem lexed_of_scanned : ∀ (lines : List ScannedLine),
    (∀ line ∈ lines, ∃ text, scanLine text = some line) →
      ∃ later : List (List Fragment), lines = later.map ScannedLine.ofFragments ∧
        ∀ line ∈ later, Lexed line
  | [], _ => ⟨[], rfl, nofun⟩
  | line :: lines, h => by
    obtain ⟨⟨text, hscan⟩, hlines⟩ := List.forall_mem_cons.mp h
    obtain ⟨fragments, rfl, hlexed⟩ := scanLine_lexed hscan
    obtain ⟨later, rfl, hlater⟩ := lexed_of_scanned lines hlines
    exact ⟨fragments :: later, rfl, List.forall_mem_cons.mpr ⟨hlexed, hlater⟩⟩

/-- **A tokenizer of scanned lines is always between two tokens.** -/
theorem Tokenizer.Reached.betweenTokens (hlines : ∀ line ∈ lines, ∃ text, scanLine text = some line)
    (h : Tokenizer.Reached file lines tok) : tok.BetweenTokens := by
  induction h with
  | init =>
    obtain ⟨later, hlater, hlexed⟩ := lexed_of_scanned lines hlines
    exact ⟨[], later, ⟨rfl, List.nil_prefix, hlater⟩, .nil, hlexed⟩
  | advance _ hadvance ih => exact ih.advance hadvance
  | setMode m _ ih =>
    obtain ⟨fragments, later, hat, hlexed, hlater⟩ := ih
    exact ⟨fragments, later, ⟨hat.codes, hat.texts, hat.lines⟩, hlexed, hlater⟩
  | restore h hsaved hrestore _ ihSaved =>
    rw [Tokenizer.restore_save h.onLine hsaved.onLine] at hrestore
    cases hrestore
    exact ihSaved

end Between

end Nballerina.Syntax
