import Nballerina.Syntax.Reached

/-!
# `peek` and `advance` (`front.syntax/token.bal`)

`peek` tells the kind of the next token without making it current: it walks over the fragments itself.
It should tell what `advance` is going to do. It does not always (`peek_agrees_iff`): before it looks at
what follows a `>` it does not step over the `>`, so that outside of type descriptors one `>` is taken
for `>>` and two for `>>>`; and of a string it only sees the opening quote, so that it tells of a string
where `advance` is going to report an error inside of it.
-/

namespace Nballerina.Syntax

/-- The kind of token that a fragment is by its code alone. -/
def FragCode.kind : FragCode → Option TokenKind
  | .stringOpen => some .stringLiteral
  | .decimalNumber => some .decimalNumber
  | .identifier => some .identifier
  | .hexNumber => some .hexIntLiteral
  | .decimalFpNumber => some .decimalFpNumber
  | .decimalFpNumberF => some .decimalFpNumber
  | .decimalFpNumberD => some .decimalFpNumber
  | .fixed t => some (.fixed t)
  | _ => none

/-- What `peek` takes one or more `>` for. -/
def peekGreaterThan (mode : Mode) (fragments : List Fragment) : FixedToken :=
  if mode = .normal then
    if fragments[0]?.map (·.code) = some .greaterThan then .greaterThanGreaterThanGreaterThan
    else .greaterThanGreaterThan
  else .greaterThan

/-- What `peek` tells of fragments of which the first is not blank. -/
def peekHead (mode : Mode) : List Fragment → Option TokenKind
  | [] => none
  | f :: fragments =>
    if f.code = .greaterThan then some (.fixed (peekGreaterThan mode fragments)) else f.code.kind

/-! ## What `peek` does -/

section Peek

variable {tok : Tokenizer} {f : Fragment} {fragments : List Fragment} {later : List (List Fragment)}
  {codes : List FragCode} {i lineIndex fuel : Nat}

theorem peekLoop_step (h : codes.drop i = (f :: fragments).map (·.code)) :
    tok.peekLoop false (fuel + 1) codes i lineIndex =
      Tokenizer.afterPeek (fun more => tok.peekLoop false fuel codes (i + 1 + more) lineIndex)
        (tok.peekFragment false codes i f.code) := by
  have hcode : codes[i]? = some f.code := (getElem?_of_drop h).1
  conv => lhs; unfold Tokenizer.peekLoop
  rw [hcode]

theorem peekLoop_blank (hblank : f.code.blank = true) (h : codes.drop i = (f :: fragments).map (·.code)) :
    tok.peekLoop false (fuel + 1) codes i lineIndex = tok.peekLoop false fuel codes (i + 1) lineIndex := by
  rw [peekLoop_step h]
  obtain ⟨code, text⟩ := f
  cases code <;> first | rfl | contradiction

theorem peekFragment_greaterThan (hcode : codes[i]? = some .greaterThan)
    (hnext : codes[i + 1]? = fragments[0]?.map (·.code)) :
    tok.peekFragment false codes i .greaterThan =
      some (.inl (some (.fixed (peekGreaterThan tok.mode fragments)))) := by
  unfold Tokenizer.peekFragment peekGreaterThan
  dsimp only
  rw [hnext]
  by_cases hmode : tok.mode = .normal
  · rw [if_pos hmode, if_pos ⟨hmode, hcode⟩]
    by_cases htwo : fragments[0]?.map (·.code) = some .greaterThan
    · rw [if_pos htwo, if_pos htwo]
    · rw [if_neg htwo, if_neg htwo]
  · rw [if_neg hmode, if_neg fun h => hmode h.1]

theorem peekLoop_head (hblank : f.code.blank = false) (hstart : f.code.plain = true ∨ f.code = .stringOpen)
    (h : codes.drop i = (f :: fragments).map (·.code)) :
    tok.peekLoop false (fuel + 1) codes i lineIndex = some (peekHead tok.mode (f :: fragments)) := by
  have hcode : codes[i]? = some f.code := (getElem?_of_drop h).1
  have hnext : codes[i + 1]? = fragments[0]?.map (·.code) := by
    rw [← List.getElem?_map, ← (getElem?_of_drop h).2, List.getElem?_drop]
  rw [peekLoop_step h]
  obtain ⟨code, text⟩ := f
  cases code with
  | greaterThan =>
    rw [peekFragment_greaterThan hcode hnext]
    rfl
  | fixed t =>
    cases t <;> rfl
  | _ =>
    first
    | rfl
    | exact absurd hblank (by decide)
    | exact absurd hstart (by rintro (hplain | hopen) <;> contradiction)

/-- The fragments of a line, where the loop is known to go right from the end of it. -/
theorem peekLoop_fragments
    (hend : ∀ (fuel : Nat) (codes : List FragCode) (i : Nat), codes.drop i = [] → left [] later < fuel →
      tok.peekLoop false fuel codes i lineIndex = some (peekHead tok.mode (skipBlank [] later).1)) :
    ∀ (fragments : List Fragment), Lexed fragments → ∀ (fuel : Nat) (codes : List FragCode) (i : Nat),
      codes.drop i = fragments.map (·.code) → left fragments later < fuel →
        tok.peekLoop false fuel codes i lineIndex =
          some (peekHead tok.mode (skipBlank fragments later).1) := by
  intro fragments hlexed
  induction hlexed with
  | nil => exact hend
  | @plain f fragments hplain hcomment hcut hrest ih =>
    intro fuel codes i hcodes hfuel
    unfold left at hfuel
    rw [List.length_cons] at hfuel
    obtain ⟨fuel, rfl⟩ := Nat.exists_eq_add_of_lt (Nat.lt_of_le_of_lt (Nat.zero_le _) hfuel)
    cases hblank : f.code.blank with
    | false =>
      rw [skipBlank_cons hblank]
      exact peekLoop_head hblank (Or.inl hplain) hcodes
    | true =>
      rw [skipBlank_cons_of_blank hblank, peekLoop_blank hblank hcodes]
      exact ih _ codes (i + 1) (getElem?_of_drop hcodes).2 (by unfold left; omega)
  | comment =>
    intro fuel codes i hcodes hfuel
    unfold left at hfuel
    rw [List.length_cons] at hfuel
    obtain ⟨fuel, rfl⟩ := Nat.exists_eq_add_of_lt (Nat.lt_of_le_of_lt (Nat.zero_le _) hfuel)
    rw [skipBlank_cons_of_blank rfl, peekLoop_blank rfl hcodes]
    exact hend _ codes (i + 1) (getElem?_of_drop hcodes).2 (by unfold left; omega)
  | @string opened closed body fragments hbody hrest ih =>
    intro fuel codes i hcodes hfuel
    obtain ⟨fuel, rfl⟩ := Nat.exists_eq_add_of_lt (Nat.lt_of_le_of_lt (Nat.zero_le _) hfuel)
    rw [List.cons_append] at hcodes ⊢
    rw [skipBlank_cons rfl]
    exact peekLoop_head rfl (Or.inr rfl) hcodes

/-- From between two tokens to the next one. -/
theorem peekLoop_lex : ∀ (later : List (List Fragment)), (∀ line ∈ later, Lexed line) →
    ∀ (lineIndex : Nat), tok.lines.drop lineIndex = later.map ScannedLine.ofFragments →
      ∀ (fragments : List Fragment), Lexed fragments → ∀ (fuel : Nat) (codes : List FragCode) (i : Nat),
        codes.drop i = fragments.map (·.code) → left fragments later < fuel →
          tok.peekLoop false fuel codes i lineIndex =
            some (peekHead tok.mode (skipBlank fragments later).1) := by
  intro later
  induction later with
  | nil =>
    intro _ lineIndex hlines
    refine peekLoop_fragments fun fuel codes i hcodes hfuel => ?_
    obtain ⟨fuel, rfl⟩ := Nat.exists_eq_add_of_lt hfuel
    conv => lhs; unfold Tokenizer.peekLoop
    rw [getElem?_of_drop_nil hcodes, getElem?_of_drop_nil hlines]
    rfl
  | cons line later ih =>
    intro hlater lineIndex hlines
    obtain ⟨hline, hlater⟩ := List.forall_mem_cons.mp hlater
    obtain ⟨hthis, hlines⟩ := getElem?_of_drop hlines
    refine peekLoop_fragments fun fuel codes i hcodes hfuel => ?_
    unfold left at hfuel
    rw [List.map_cons, List.sum_cons, List.length_nil] at hfuel
    obtain ⟨fuel, rfl⟩ := Nat.exists_eq_add_of_lt (Nat.lt_of_le_of_lt (Nat.zero_le _) hfuel)
    conv => lhs; unfold Tokenizer.peekLoop
    rw [getElem?_of_drop_nil hcodes, hthis]
    exact ih hlater _ hlines line hline _ _ 0 rfl (by unfold left; omega)

/-- **`peek` tells of the next fragment that is not blank, by its code.** -/
theorem peek_lex (h : At tok fragments later) (hlexed : Lexed fragments)
    (hlater : ∀ line ∈ later, Lexed line) :
    tok.peek false = some (peekHead tok.mode (skipBlank fragments later).1) := by
  unfold Tokenizer.peek
  rw [h.advanceFuel]
  exact peekLoop_lex later hlater _ h.lines fragments hlexed _ _ _ h.codes (Nat.lt_succ_self _)

end Peek

/-! ## When `peek` is right -/

/-- The fragments of a line, from its codes and the texts that are kept. -/
def pairUp : List FragCode → List Text → List Fragment
  | [], _ => []
  | code :: codes, texts =>
    if code.isVar then ⟨code, texts.headD []⟩ :: pairUp codes texts.tail
    else ⟨code, []⟩ :: pairUp codes texts

/-- The fragments of the line of the next token, from that token on. -/
def Tokenizer.upcoming (tok : Tokenizer) : List Fragment :=
  (skipBlank (pairUp (tok.fragCodes.drop tok.fragCodeIndex) (tok.fragments.drop tok.fragmentIndex))
    ((tok.lines.drop tok.lineIndex).map fun line => pairUp line.fragCodes line.fragments)).1

/-- A fragment that does not belong in a string. -/
def Fragment.Faulty (f : Fragment) : Prop :=
  f.code = .invalid ∨ f.code = .stringNumericEscape ∧ unicodeEscapeValue f.text = some none

/-- What follows is a `>` of three or more, or a string without faults, or something else. -/
def PeekRight (mode : Mode) : List Fragment → Prop
  | [] => True
  | f :: fragments =>
    (f.code = .greaterThan → mode = .normal → fragments[0]?.map (·.code) = some .greaterThan ∧
      fragments[1]?.map (·.code) = some .greaterThan) ∧
    (f.code = .stringOpen → ∀ g ∈ fragments.takeWhile fun g => g.code ≠ .stringClose, ¬ g.Faulty)

/-- What an `advance` makes current, where an error is nothing. -/
def advancedKind : Except Stop Tokenizer → Option TokenKind
  | .ok tok => tok.curTok.map Token.kind
  | .error _ => none

/-- `peek` tells the kind of the token that `advance` makes current, and nothing iff there is no more or
there is an error. -/
def Tokenizer.PeekAgrees (tok : Tokenizer) : Prop :=
  tok.peek false = some (advancedKind tok.advance)

def Outcome.kind : Outcome → Option TokenKind
  | .token t _ _ => some t.kind
  | _ => none

theorem Outcome.Describes.kind {outcome : Outcome} {mode : Mode} {result : Except Stop Tokenizer}
    (h : outcome.Describes mode result) : advancedKind result = outcome.kind := by
  cases outcome with
  | ended =>
    cases result with
    | error => cases h
    | ok tok =>
      unfold advancedKind Outcome.kind
      dsimp only
      rw [h.1]
      rfl
  | token t fragments later =>
    cases result with
    | error => cases h
    | ok tok =>
      unfold advancedKind Outcome.kind
      dsimp only
      rw [h.1]
      rfl
  | stopped message =>
    cases result with
    | error => rfl
    | ok tok => cases h

section Right

variable {f : Fragment} {fragments : List Fragment} {later : List (List Fragment)}

/-- A fragment without its text, where that is always the same. -/
def Fragment.strip (f : Fragment) : Fragment := if f.code.isVar then f else ⟨f.code, []⟩

theorem Fragment.strip_code (f : Fragment) : f.strip.code = f.code := by
  unfold Fragment.strip
  split <;> rfl

theorem Fragment.strip_faulty (f : Fragment) : f.strip.Faulty ↔ f.Faulty := by
  unfold Fragment.strip
  split
  next => exact Iff.rfl
  next hvar =>
    unfold Fragment.Faulty
    constructor <;> intro hfaulty <;> exfalso
    · rcases hfaulty with hcode | ⟨hcode, -⟩ <;> rw [show f.code = _ from hcode] at hvar <;>
        exact hvar rfl
    · rcases hfaulty with hcode | ⟨hcode, -⟩ <;> rw [hcode] at hvar <;> exact hvar rfl

theorem pairUp_codes : ∀ (fragments : List Fragment) (texts : List Text),
    fragmentTexts fragments <+: texts →
      pairUp (fragments.map (·.code)) texts = fragments.map Fragment.strip
  | [], _, _ => rfl
  | f :: fragments, texts, h => by
    unfold fragmentTexts at h
    rw [List.map_cons, List.map_cons]
    unfold pairUp Fragment.strip
    cases hvar : f.code.isVar with
    | true =>
      rw [List.filter_cons_of_pos (by exact hvar), List.map_cons] at h
      obtain ⟨rest, rfl⟩ := h
      rw [if_pos rfl, if_pos rfl]
      exact congrArg (f :: ·) (pairUp_codes fragments _ (List.prefix_append _ _))
    | false =>
      rw [List.filter_cons_of_neg (by simp [hvar])] at h
      rw [if_neg nofun, if_neg nofun]
      exact congrArg (_ :: ·) (pairUp_codes fragments texts h)

theorem dropWhile_blank_strip (fragments : List Fragment) :
    (fragments.map Fragment.strip).dropWhile (fun f => f.code.blank) =
      (fragments.dropWhile fun f => f.code.blank).map Fragment.strip := by
  rw [List.dropWhile_map]
  congr 2
  funext f
  exact congrArg FragCode.blank f.strip_code

theorem skipBlank_strip : ∀ (later : List (List Fragment)) (fragments : List Fragment),
    (skipBlank (fragments.map Fragment.strip) (later.map fun line => line.map Fragment.strip)).1 =
      (skipBlank fragments later).1.map Fragment.strip
  | [], fragments => dropWhile_blank_strip fragments
  | line :: later, fragments => by
    rw [List.map_cons]
    unfold skipBlank
    rw [dropWhile_blank_strip]
    cases fragments.dropWhile fun f => f.code.blank with
    | nil => exact skipBlank_strip later line
    | cons f fragments => rfl

theorem PeekRight.strip (mode : Mode) (fragments : List Fragment) :
    PeekRight mode (fragments.map Fragment.strip) ↔ PeekRight mode fragments := by
  cases fragments with
  | nil => exact Iff.rfl
  | cons f fragments =>
    have hcodes : ∀ i : Nat, (fragments.map Fragment.strip)[i]?.map (·.code) =
        fragments[i]?.map (·.code) := by
      intro i
      rw [List.getElem?_map, Option.map_map]
      exact congrArg (fun code => fragments[i]?.map code) (funext Fragment.strip_code)
    have hbody : (fragments.map Fragment.strip).takeWhile (fun g => decide (g.code ≠ .stringClose)) =
        (fragments.takeWhile fun g => g.code ≠ .stringClose).map Fragment.strip := by
      rw [List.takeWhile_map]
      congr 2
      funext g
      show decide (g.strip.code ≠ .stringClose) = _
      rw [g.strip_code]
    rw [List.map_cons]
    unfold PeekRight
    dsimp only
    rw [hcodes 0, hcodes 1, f.strip_code, hbody]
    simp only [List.forall_mem_map, Fragment.strip_faulty]

/-- What is read off the tokenizer is what is left. -/
theorem At.upcoming {tok : Tokenizer} (h : At tok fragments later) :
    tok.upcoming = (skipBlank fragments later).1.map Fragment.strip := by
  have hlines : (later.map ScannedLine.ofFragments).map
      (fun line => pairUp line.fragCodes line.fragments) =
        later.map fun line => line.map Fragment.strip := by
    rw [List.map_map]
    exact List.map_congr_left fun line _ => pairUp_codes line _ List.prefix_rfl
  unfold Tokenizer.upcoming
  rw [h.codes, pairUp_codes fragments _ h.texts, h.lines, hlines, skipBlank_strip]

/-- A fragment of a string has characters iff it belongs there. -/
theorem Fragment.chars_error_iff (hcode : f.code.inString = true) (hcut : f.Cut) :
    (∃ message, f.chars = .error message) ↔ f.Faulty := by
  obtain ⟨code, text⟩ := f
  unfold Fragment.chars Fragment.Faulty
  cases code with
  | stringNumericEscape =>
    have hlength : 4 ≤ text.length := hcut
    obtain ⟨value, hvalue⟩ : ∃ value, unicodeEscapeValue text = some value := by
      unfold unicodeEscapeValue substring
      rw [if_pos (by omega)]
      exact ⟨_, rfl⟩
    dsimp only
    rw [hvalue]
    cases value <;> simp
  | invalid => simp
  | stringChars => simp
  | stringCharEscape => simp
  | stringControlEscape => simp
  | _ => cases hcode

/-- A string is one iff nothing in it is at fault. -/
theorem lexString_kind {closed : Text} {rest : List Fragment} :
    ∀ (body : List Fragment) (str : Text), (∀ f ∈ body, f.code.inString = true ∧ f.Cut) →
      ((stringOutcome later (lexString str (body ++ ⟨.stringClose, closed⟩ :: rest))).kind =
          some .stringLiteral ↔ ∀ g ∈ body, ¬ g.Faulty) := by
  intro body
  induction body with
  | nil =>
    intro str _
    rw [List.nil_append]
    exact ⟨fun _ g hg => absurd hg List.not_mem_nil, fun _ => rfl⟩
  | cons f body ih =>
    intro str hbody
    obtain ⟨⟨hcode, hcut⟩, hbody⟩ := List.forall_mem_cons.mp hbody
    have hne : f.code ≠ .stringClose := by
      intro hclose
      rw [hclose] at hcode
      cases hcode
    rw [List.cons_append, List.forall_mem_cons]
    unfold lexString
    rw [if_neg hne]
    cases hchars : f.chars with
    | ok chars =>
      have hright : ¬ f.Faulty := by
        rw [← Fragment.chars_error_iff hcode hcut, hchars]
        rintro ⟨message, h⟩
        cases h
      exact ⟨fun h => ⟨hright, (ih _ hbody).mp h⟩, fun h => (ih _ hbody).mpr h.2⟩
    | error message =>
      have hfaulty : f.Faulty := (Fragment.chars_error_iff hcode hcut).mp ⟨message, hchars⟩
      exact ⟨fun h => (by cases h), fun h => absurd hfaulty h.1⟩

/-- Of several `>` the two tell the same iff there are three, in normal mode. -/
theorem lexGreaterThan_eq_peek (mode : Mode) (fragments : List Fragment) :
    (lexGreaterThan mode fragments).1 = peekGreaterThan mode fragments ↔
      (mode = .normal → fragments[0]?.map (·.code) = some .greaterThan ∧
        fragments[1]?.map (·.code) = some .greaterThan) := by
  unfold lexGreaterThan peekGreaterThan
  by_cases hmode : mode = .normal
  · rw [if_pos hmode]
    by_cases hone : fragments[0]?.map (·.code) = some .greaterThan
    · rw [if_pos ⟨hmode, hone⟩, if_pos hone]
      by_cases htwo : fragments[1]?.map (·.code) = some .greaterThan
      · rw [if_pos htwo]
        exact ⟨fun _ _ => ⟨hone, htwo⟩, fun _ => rfl⟩
      · rw [if_neg htwo]
        exact ⟨nofun, fun h => absurd (h hmode).2 htwo⟩
    · rw [if_neg fun h => hone h.2, if_neg hone]
      exact ⟨nofun, fun h => absurd (h hmode).1 hone⟩
  · rw [if_neg hmode, if_neg fun h => hmode h.1]
    exact ⟨fun _ h => absurd h hmode, fun _ => rfl⟩

/-- A fragment outside of strings that is not blank. -/
theorem lexHead_plain (mode : Mode) (hplain : f.code.plain = true) (hblank : f.code.blank = false)
    (hcut : f.Cut) :
    (lexHead mode later (f :: fragments)).kind = peekHead mode (f :: fragments) ↔
      PeekRight mode (f :: fragments) := by
  obtain ⟨code, text⟩ := f
  have hright : code ≠ .greaterThan → code ≠ .stringOpen →
      PeekRight mode (⟨code, text⟩ :: fragments) :=
    fun hgreater hopen => ⟨fun h => absurd h hgreater, fun h => absurd h hopen⟩
  cases code with
  | greaterThan =>
    unfold PeekRight
    show some (TokenKind.fixed (lexGreaterThan mode fragments).1) =
      some (.fixed (peekGreaterThan mode fragments)) ↔ _
    rw [Option.some_inj, TokenKind.fixed.injEq, lexGreaterThan_eq_peek]
    exact ⟨fun h => ⟨fun _ => h, nofun⟩, fun h => h.1 rfl⟩
  | hexNumber =>
    obtain ⟨cut, hmake⟩ := hexToken_of_le hcut
    refine iff_of_true ?_ (hright nofun nofun)
    dsimp only [lexHead, Fragment.token]
    rw [hmake]
    rfl
  | decimalFpNumberF =>
    obtain ⟨cut, hmake⟩ := suffixedToken_eq .f text
    refine iff_of_true ?_ (hright nofun nofun)
    dsimp only [lexHead, Fragment.token]
    rw [hmake]
    rfl
  | decimalFpNumberD =>
    obtain ⟨cut, hmake⟩ := suffixedToken_eq .d text
    refine iff_of_true ?_ (hright nofun nofun)
    dsimp only [lexHead, Fragment.token]
    rw [hmake]
    rfl
  | whitespace => cases hblank
  | comment => cases hblank
  | stringChars => cases hplain
  | stringControlEscape => cases hplain
  | stringCharEscape => cases hplain
  | stringNumericEscape => cases hplain
  | stringOpen => cases hplain
  | stringClose => cases hplain
  | _ => exact iff_of_true rfl (hright nofun nofun)

/-- A string. -/
theorem lexHead_string (mode : Mode) {opened closed : Text} {body rest : List Fragment}
    (hbody : ∀ f ∈ body, f.code.inString = true ∧ f.Cut) :
    (lexHead mode later (⟨.stringOpen, opened⟩ :: body ++ ⟨.stringClose, closed⟩ :: rest)).kind =
        peekHead mode (⟨.stringOpen, opened⟩ :: body ++ ⟨.stringClose, closed⟩ :: rest) ↔
      PeekRight mode (⟨.stringOpen, opened⟩ :: body ++ ⟨.stringClose, closed⟩ :: rest) := by
  have htake : (body ++ ⟨.stringClose, closed⟩ :: rest).takeWhile
      (fun g => decide (g.code ≠ .stringClose)) = body := by
    rw [List.takeWhile_append_of_pos]
    · rw [List.takeWhile_cons_of_neg (by simp), List.append_nil]
    · intro f hf
      refine decide_eq_true fun hclose => ?_
      have hcode := (hbody f hf).1
      rw [hclose] at hcode
      cases hcode
  rw [List.cons_append]
  unfold PeekRight
  dsimp only
  rw [htake]
  exact (lexString_kind body [] hbody).trans ⟨fun h => ⟨nofun, fun _ => h⟩, fun h => h.2 rfl⟩

/-- The two tell the same of what is left iff it is right. -/
def LexRight (mode : Mode) (fragments : List Fragment) (later : List (List Fragment)) : Prop :=
  (lex mode fragments later).kind = peekHead mode (skipBlank fragments later).1 ↔
    PeekRight mode (skipBlank fragments later).1

/-- The fragments of a line, where it is so at the end of it. -/
theorem lexRight_fragments {mode : Mode} (hend : LexRight mode [] later) :
    ∀ (fragments : List Fragment), Lexed fragments → LexRight mode fragments later := by
  intro fragments hlexed
  induction hlexed with
  | nil => exact hend
  | @plain f fragments hplain hcomment hcut hrest ih =>
    unfold LexRight at ih ⊢
    cases hblank : f.code.blank with
    | false =>
      rw [lex_cons _ hblank, skipBlank_cons hblank]
      exact lexHead_plain mode hplain hblank hcut
    | true =>
      rw [lex_cons_of_blank _ hblank, skipBlank_cons_of_blank hblank]
      exact ih
  | comment =>
    unfold LexRight at hend ⊢
    rw [lex_cons_of_blank _ rfl, skipBlank_cons_of_blank rfl]
    exact hend
  | @string opened closed body fragments hbody hrest ih =>
    unfold LexRight
    have hstring := @lexHead_string later mode opened closed body fragments hbody
    rw [List.cons_append] at hstring ⊢
    rw [lex_cons _ rfl, skipBlank_cons rfl]
    exact hstring

theorem lexRight : ∀ (mode : Mode) (later : List (List Fragment)), (∀ line ∈ later, Lexed line) →
    ∀ (fragments : List Fragment), Lexed fragments → LexRight mode fragments later
  | _, [], _ => lexRight_fragments ⟨fun _ => trivial, fun _ => rfl⟩
  | mode, line :: later, hlater =>
    have ⟨hline, hlater⟩ := List.forall_mem_cons.mp hlater
    lexRight_fragments (lexRight mode later hlater line hline)

end Right

/-- **`peek` tells what `advance` is going to do iff what follows is not one or two `>` in normal mode, nor
a string with a fault in it.** -/
theorem peek_agrees_iff (tok : Tokenizer) (h : tok.BetweenTokens) :
    tok.PeekAgrees ↔ PeekRight tok.mode tok.upcoming := by
  obtain ⟨fragments, later, hat, hlexed, hlater⟩ := h
  unfold Tokenizer.PeekAgrees
  rw [peek_lex hat hlexed hlater, (advance_lex hat hlexed hlater).kind, hat.upcoming,
    PeekRight.strip, Option.some_inj, eq_comm]
  exact lexRight tok.mode later hlater fragments hlexed

/-- After the `x` of `x>>>y`. -/
theorem peek_agrees_iff_unsignedShift :
    ∃ line tok, scanLine ['x', '>', '>', '>', 'y'] = some line ∧
      (Tokenizer.init 0 [line]).advance = .ok tok ∧
      (tok.PeekAgrees ↔ PeekRight tok.mode tok.upcoming) := by
  have hscan : ∃ line, scanLine ['x', '>', '>', '>', 'y'] = some line := ⟨_, rfl⟩
  obtain ⟨line, hline⟩ := hscan
  have hlines : ∀ l ∈ [line], ∃ text, scanLine text = some l := by
    intro l hl
    cases List.mem_singleton.mp hl
    exact ⟨_, hline⟩
  have hadvance : ∃ tok, (Tokenizer.init 0 [line]).advance = .ok tok := by
    cases hline
    exact ⟨_, rfl⟩
  obtain ⟨tok, htok⟩ := hadvance
  exact ⟨line, tok, hline, htok,
    peek_agrees_iff tok ((Tokenizer.Reached.init.advance htok).betweenTokens hlines)⟩

/-- After the `x` of `x > y`, `peek` tells of a `>>` and `advance` makes `>` current. -/
theorem peek_wrong_greaterThan :
    ∃ line tok, scanLine ['x', ' ', '>', ' ', 'y'] = some line ∧
      Tokenizer.Reached 0 [line] tok ∧ tok.curTok = some (.identifier ['x']) ∧
      tok.peek false = some (some (.fixed .greaterThanGreaterThan)) ∧
      advancedKind tok.advance = some (.fixed .greaterThan) ∧ ¬ tok.PeekAgrees := by
  refine ⟨_, _, rfl, Tokenizer.Reached.init.advance rfl, rfl, rfl, rfl, ?_⟩
  unfold Tokenizer.PeekAgrees
  decide

end Nballerina.Syntax
