import Nballerina.Syntax.Lossless
import Nballerina.Syntax.Reached

/-!
# Going back to a position (`moveToPos`)

`moveToPos` finds the fragment that starts at a position by adding up the lengths of the fragments of the
line, and scans the token again. The indices that `advance` keeps are those sums at every start of a token
(`Placed`), so the token is the same and the tokenizer is where it was (`moveToPos_start`). Only the end of
the token before is not put back; the next `advance` does not look at it.

A position is a line and a column in one int, with 32 bits for the column. So a token further to the right
is not found again (`not_moveToPos`).

Mirroring notes:
- `currentStartPos` puts the two together without a bound; the 64 bits of a position are cut here.
- `scanLineFragIndex` takes one off both indices for a position within a fragment, and an index of the texts
  can get to -1. It is one past the last text here: a read at either is a panic.
-/

namespace Nballerina.Syntax

/-- The line is negative from 2^31 lines on. -/
def unpackPosition (pos : Position) : Int × Nat :=
  ((BitVec.ofNat 64 pos).toInt >>> (32 : Nat), (BitVec.ofNat 64 pos &&& 0xFFFFFFFF#64).toNat)

/-- `scannedLine` of the file. -/
def scannedLine (lines : List ScannedLine) (lineNumber : Int) : Option ScannedLine :=
  if lineNumber < 1 then none else lines[(lineNumber - 1).toNat]?

/-- The length of a fragment whose text is not kept: that of its token, or one. -/
def FragCode.fixedLength : FragCode → Nat
  | .fixed ft => ft.text.length
  | _ => 1

/-- The loop of `scanLineFragIndex`, with the codes that are left. -/
def scanLineFragIndexLoop (fragments : List Text) (codePointIndex : Nat) :
    List FragCode → Nat → Nat → Nat → Option (Nat × Int)
  | [], fragCodeIndex, fragmentIndex, i =>
    if i < codePointIndex then none
    else if codePointIndex < i then some (fragCodeIndex - 1, (fragmentIndex : Int) - 1)
    else some (fragCodeIndex, fragmentIndex)
  | code :: codes, fragCodeIndex, fragmentIndex, i =>
    if i < codePointIndex then
      if code.isVar then
        match fragments[fragmentIndex]? with
        | none => none
        | some fragment =>
          scanLineFragIndexLoop fragments codePointIndex codes (fragCodeIndex + 1) (fragmentIndex + 1)
            (i + fragment.length)
      else
        scanLineFragIndexLoop fragments codePointIndex codes (fragCodeIndex + 1) fragmentIndex (i + code.fixedLength)
    else if codePointIndex < i then some (fragCodeIndex - 1, (fragmentIndex : Int) - 1)
    else some (fragCodeIndex, fragmentIndex)

def scanLineFragIndex (line : ScannedLine) (codePointIndex : Nat) : Option (Nat × Int) :=
  if codePointIndex = 0 then some (0, 0)
  else scanLineFragIndexLoop line.fragments codePointIndex line.fragCodes 0 0 0

namespace Tokenizer

/-- What `moveToPos` does before it scans the token; `none` is a panic. -/
def moveToStart (tok : Tokenizer) (pos : Position) (mode : Mode) : Option Tokenizer := do
  let (lineIndex, codePointIndex) := unpackPosition pos
  let line ← scannedLine tok.lines lineIndex
  let (fragIndex, fragmentIndex) ← scanLineFragIndex line codePointIndex
  let tok := { tok with mode := mode, lineIndex := (lineIndex - 1).toNat }
  -- an `advanceLine` at the end of the file does nothing
  let tok := tok.advanceLine.getD tok
  return { tok with
    fragCodeIndex := fragIndex
    codePointIndex := codePointIndex
    fragmentIndex := if 0 ≤ fragmentIndex then fragmentIndex.toNat else tok.fragments.length }

def moveToPos (tok : Tokenizer) (pos : Position) (mode : Mode) : Except Stop Tokenizer :=
  match tok.moveToStart pos mode with
  | none => .error .panic
  | some tok => tok.advance

end Tokenizer

/-! ## Positions -/

theorem createPosition_eq (line : Nat) {column : Nat} (h : column < 2 ^ 32) :
    createPosition line column = line * 2 ^ 32 + column := by
  unfold createPosition
  rw [Nat.shiftLeft_eq, Nat.mul_comm, Nat.two_pow_add_eq_or_of_lt h]

theorem unpackPosition_createPosition {line column : Nat} (hline : line < 2 ^ 31) (hcolumn : column < 2 ^ 32) :
    unpackPosition (createPosition line column) = ((line : Int), column) := by
  rw [createPosition_eq line hcolumn]
  have hlt : line * 2 ^ 32 + column < 2 ^ 63 := by omega
  have hnat : (BitVec.ofNat 64 (line * 2 ^ 32 + column)).toNat = line * 2 ^ 32 + column := by
    rw [BitVec.toNat_ofNat]
    omega
  have hint : (BitVec.ofNat 64 (line * 2 ^ 32 + column)).toInt = (line * 2 ^ 32 + column : Nat) := by
    rw [BitVec.toInt_eq_toNat_of_lt (by omega), hnat]
  unfold unpackPosition
  rw [hint, BitVec.toNat_and, hnat]
  refine Prod.ext ?_ ?_
  · show ((line * 2 ^ 32 + column : Nat) : Int) >>> (32 : Nat) = line
    rw [Int.shiftRight_eq_div_pow]
    omega
  · show (line * 2 ^ 32 + column) &&& (2 ^ 32 - 1) = column
    rw [Nat.and_two_pow_sub_one_eq_mod]
    omega

theorem scannedLine_succ (lines : List ScannedLine) (index : Nat) :
    scannedLine lines ((index + 1 : Nat) : Int) = lines[index]? := by
  unfold scannedLine
  rw [if_neg (by omega), show ((index + 1 : Nat) : Int) - 1 = index by omega]
  rfl

/-! ## Fragments of a line -/

theorem fragmentsText_concat (fragments : List Fragment) (f : Fragment) :
    (fragmentsText (fragments ++ [f])).length = (fragmentsText fragments).length + f.text.length := by
  rw [fragmentsText_append, List.length_append, fragmentsText_cons, List.length_append]
  rfl

/-- The text of a fragment that is kept is the next one. -/
theorem fragmentTexts_get {before after : List Fragment} {f : Fragment} (hvar : f.code.isVar = true) :
    (fragmentTexts (before ++ f :: after))[(fragmentTexts before).length]? = some f.text := by
  have hsplit : fragmentTexts (before ++ f :: after) = fragmentTexts before ++ (f.text :: fragmentTexts after) := by
    unfold fragmentTexts
    rw [List.filter_append, List.map_append, List.filter_cons_of_pos (by exact hvar), List.map_cons]
  rw [hsplit, List.getElem?_append_right (Nat.le_refl _), Nat.sub_self]
  rfl

theorem fragmentTexts_concat_length (before : List Fragment) (f : Fragment) :
    (fragmentTexts (before ++ [f])).length = (fragmentTexts before).length + if f.code.isVar = true then 1 else 0 := by
  rw [fragmentTexts_concat, List.length_append]
  split <;> rfl

theorem Fragment.Right.length_fixed {f : Fragment} (h : f.Right) (hvar : f.code.isVar = false) :
    f.text.length = f.code.fixedLength := by
  obtain ⟨code, text⟩ := f
  cases code with
  | fixed ft => exact congrArg List.length (h.fixed _ rfl)
  | greaterThan => exact congrArg List.length (h.fixed _ rfl)
  | stringOpen => exact congrArg List.length (h.fixed _ rfl)
  | stringClose => exact congrArg List.length (h.fixed _ rfl)
  | _ => cases hvar

/-- The loop stops at the fragments up to which the lengths are added. By induction on those that are left
of them. -/
theorem scanLineFragIndexLoop_eq (todo : List Fragment) : ∀ (done after : List Fragment),
    (∀ f ∈ todo, f.Right) →
      scanLineFragIndexLoop (fragmentTexts (done ++ todo ++ after)) (fragmentsText (done ++ todo)).length
          ((todo ++ after).map (·.code)) done.length (fragmentTexts done).length (fragmentsText done).length =
        some ((done ++ todo).length, ((fragmentTexts (done ++ todo)).length : Int)) := by
  induction todo with
  | nil =>
    intro done after _
    rw [List.append_nil, List.nil_append]
    cases after with
    | nil => rw [List.map_nil, scanLineFragIndexLoop, if_neg (Nat.lt_irrefl _), if_neg (Nat.lt_irrefl _)]
    | cons f after => rw [List.map_cons, scanLineFragIndexLoop, if_neg (Nat.lt_irrefl _), if_neg (Nat.lt_irrefl _)]
  | cons f todo ih =>
    intro done after hright
    obtain ⟨hf, htodo⟩ := List.forall_mem_cons.mp hright
    have hpos := List.length_pos_iff.mpr hf.nonempty
    have hlt : (fragmentsText done).length < (fragmentsText (done ++ f :: todo)).length := by
      rw [fragmentsText_append, fragmentsText_cons, List.length_append, List.length_append]
      omega
    have hstep := ih (done ++ [f]) after htodo
    rw [← List.append_cons, List.length_append, List.length_singleton, fragmentTexts_concat_length,
      fragmentsText_concat] at hstep
    rw [List.cons_append, List.map_cons, scanLineFragIndexLoop, if_pos hlt]
    cases hvar : f.code.isVar with
    | true =>
      rw [hvar, if_pos rfl] at hstep
      rw [if_pos rfl, List.append_assoc, List.cons_append, fragmentTexts_get hvar]
      rw [List.append_assoc, List.cons_append] at hstep
      exact hstep
    | false =>
      rw [hvar, if_neg Bool.false_ne_true, Nat.add_zero] at hstep
      rw [hf.length_fixed hvar] at hstep
      exact hstep

/-- The indices of the fragment where the code points before it end. -/
theorem scanLineFragIndex_eq (before after : List Fragment) (hright : ∀ f ∈ before, f.Right) :
    scanLineFragIndex (.ofFragments (before ++ after)) (fragmentsText before).length =
      some (before.length, ((fragmentTexts before).length : Int)) := by
  unfold scanLineFragIndex
  split
  next hzero =>
    cases before with
    | nil => rfl
    | cons f before =>
      have hpos := List.length_pos_iff.mpr (hright f (.head _)).nonempty
      rw [fragmentsText_cons, List.length_append] at hzero
      omega
  next => exact scanLineFragIndexLoop_eq before [] after hright

/-! ## Where a tokenizer is in its line -/

/-- The tokenizer is between the fragments `before` it and those `after` it. -/
structure Placed (tok : Tokenizer) (before after : List Fragment) : Prop where
  codes : tok.fragCodes = (before ++ after).map (·.code)
  texts : tok.fragments = fragmentTexts (before ++ after)
  fragCodeIndex : tok.fragCodeIndex = before.length
  fragmentIndex : tok.fragmentIndex = (fragmentTexts before).length
  codePointIndex : tok.codePointIndex = (fragmentsText before).length
  right : ∀ f ∈ before ++ after, f.Right

/-- Past some fragments of the line. -/
def Tokenizer.past (tok : Tokenizer) (done : List Fragment) : Tokenizer :=
  { tok with
    fragCodeIndex := tok.fragCodeIndex + done.length
    codePointIndex := tok.codePointIndex + (fragmentsText done).length
    fragmentIndex := tok.fragmentIndex + (fragmentTexts done).length }

section Placed

variable {tok tok' : Tokenizer} {f : Fragment} {before after done : List Fragment}

theorem fragmentTexts_append_length (fragments fragments' : List Fragment) :
    (fragmentTexts (fragments ++ fragments')).length = (fragmentTexts fragments).length + (fragmentTexts fragments').length := by
  unfold fragmentTexts
  rw [List.filter_append, List.map_append, List.length_append]

theorem fragmentsText_append_length (fragments fragments' : List Fragment) :
    (fragmentsText (fragments ++ fragments')).length =
      (fragmentsText fragments).length + (fragmentsText fragments').length := by
  rw [fragmentsText_append, List.length_append]

theorem Tokenizer.past_past (tok : Tokenizer) (done done' : List Fragment) :
    (tok.past done).past done' = tok.past (done ++ done') := by
  unfold past
  rw [fragmentTexts_append_length, fragmentsText_append_length, List.length_append, Nat.add_assoc, Nat.add_assoc,
    Nat.add_assoc]

theorem Placed.past (h : Placed tok before (done ++ after)) : Placed (tok.past done) (before ++ done) after where
  codes := by
    rw [List.append_assoc]
    exact h.codes
  texts := by
    rw [List.append_assoc]
    exact h.texts
  fragCodeIndex := by
    rw [List.length_append, ← h.fragCodeIndex]
    rfl
  fragmentIndex := by
    rw [fragmentTexts_append_length, ← h.fragmentIndex]
    rfl
  codePointIndex := by
    rw [fragmentsText_append_length, ← h.codePointIndex]
    rfl
  right := by
    rw [List.append_assoc]
    exact h.right

theorem Placed.past_one (h : Placed tok before (f :: after)) : Placed (tok.past [f]) (before ++ [f]) after :=
  Placed.past h

/-- The other fields do not matter. -/
theorem Placed.same (h : Placed tok before after) (hcodes : tok'.fragCodes = tok.fragCodes)
    (htexts : tok'.fragments = tok.fragments) (hcodeIndex : tok'.fragCodeIndex = tok.fragCodeIndex)
    (htextIndex : tok'.fragmentIndex = tok.fragmentIndex) (hcolumn : tok'.codePointIndex = tok.codePointIndex) :
    Placed tok' before after :=
  ⟨hcodes.trans h.codes, htexts.trans h.texts, hcodeIndex.trans h.fragCodeIndex, htextIndex.trans h.fragmentIndex,
    hcolumn.trans h.codePointIndex, h.right⟩

theorem Placed.right_head (h : Placed tok before (f :: after)) : f.Right :=
  h.right f (List.mem_append_right _ (.head _))

theorem Placed.code (h : Placed tok before (f :: after)) : tok.fragCodes[tok.fragCodeIndex]? = some f.code := by
  rw [h.codes, h.fragCodeIndex, List.getElem?_map, List.getElem?_append_right (Nat.le_refl _), Nat.sub_self]
  rfl

/-- The codes after the first. -/
theorem Placed.code_after (h : Placed tok before (f :: after)) (i : Nat) :
    tok.fragCodes[tok.fragCodeIndex + 1 + i]? = after[i]?.map (·.code) := by
  rw [h.codes, h.fragCodeIndex, List.getElem?_map, List.getElem?_append_right (by omega),
    show before.length + 1 + i - before.length = i + 1 by omega]
  rfl

theorem Placed.no_code (h : Placed tok before []) : tok.fragCodes[tok.fragCodeIndex]? = none := by
  rw [h.codes, h.fragCodeIndex, List.append_nil]
  exact List.getElem?_eq_none (by rw [List.length_map])

theorem Placed.getFragment (h : Placed tok before (f :: after)) (hvar : f.code.isVar = true) :
    { tok with fragCodeIndex := tok.fragCodeIndex + 1 }.getFragment = some (f.text, tok.past [f]) := by
  have htext : tok.fragments[tok.fragmentIndex]? = some f.text := by
    rw [h.texts, h.fragmentIndex]
    exact fragmentTexts_get hvar
  have hone : (fragmentTexts [f]).length = 1 := by
    have := fragmentTexts_concat_length [] f
    rw [hvar] at this
    exact this
  have hlength : (fragmentsText [f]).length = f.text.length := by
    rw [fragmentsText_cons, List.length_append]
    rfl
  unfold Tokenizer.getFragment Tokenizer.past
  dsimp only
  rw [htext, hone, hlength]
  rfl

/-- Past a fragment whose text is not kept. -/
theorem Placed.past_fixed (h : Placed tok before (f :: after)) (hvar : f.code.isVar = false) :
    { tok with
      fragCodeIndex := tok.fragCodeIndex + 1
      codePointIndex := tok.codePointIndex + f.code.fixedLength } = tok.past [f] := by
  have hnone : (fragmentTexts [f]).length = 0 := by
    have := fragmentTexts_concat_length [] f
    rw [hvar] at this
    exact this
  have hlength : (fragmentsText [f]).length = f.code.fixedLength := by
    rw [fragmentsText_cons, List.length_append, h.right_head.length_fixed hvar]
    rfl
  unfold Tokenizer.past
  rw [hnone, hlength]
  rfl

/-! ## The token that starts where the tokenizer is -/

/-- What `advance` makes current goes up to the end of a fragment outside of strings or of a string, and nothing
but the indices of the line has moved. -/
def EndsToken (tok : Tokenizer) (after : List Fragment) (tok' : Tokenizer) : Prop :=
  ∃ done rest t, after = done ++ rest ∧ Lexed rest ∧ tok' = { tok.past done with curTok := some t }

theorem tokenOf_ends (h : Placed tok before (f :: after)) (hvar : f.code.isVar = true) (hafter : Lexed after)
    {fuel : Nat} {make : Text → Option Token}
    (hloop : Tokenizer.afterStep (Tokenizer.advanceLoop fuel)
      ({ tok with fragCodeIndex := tok.fragCodeIndex + 1 }.tokenOf make) = .ok tok') :
    EndsToken tok (f :: after) tok' := by
  unfold Tokenizer.tokenOf at hloop
  rw [h.getFragment hvar] at hloop
  dsimp only [Option.bind_eq_bind, Option.bind_some] at hloop
  cases hmake : make f.text with
  | none =>
    rw [hmake] at hloop
    cases hloop
  | some t =>
    rw [hmake] at hloop
    cases hloop
    exact ⟨[f], after, t, rfl, hafter, rfl⟩

end Placed

section Token

variable {tok tok' : Tokenizer} {f : Fragment} {before after rest : List Fragment}

theorem advanceLoop_code {code : FragCode} (h : tok.fragCodes[tok.fragCodeIndex]? = some code) (fuel : Nat)
    (str : Text) : Tokenizer.advanceLoop (fuel + 1) str tok =
      Tokenizer.afterStep (Tokenizer.advanceLoop fuel)
        ({ tok with fragCodeIndex := tok.fragCodeIndex + 1 }.fragmentStep str code) := by
  rw [Tokenizer.advanceLoop, h]

theorem EndsToken.past_one (h : EndsToken (tok.past [f]) after tok') : EndsToken tok (f :: after) tok' := by
  obtain ⟨done, rest, t, rfl, hrest, rfl⟩ := h
  refine ⟨f :: done, rest, t, rfl, hrest, ?_⟩
  rw [Tokenizer.past_past]
  rfl

theorem inStringStep_ends (h : Placed tok before (f :: after)) (hvar : f.code.isVar = true) {fuel : Nat} {str : Text}
    {chars : Text → Option Text}
    (hloop : Tokenizer.afterStep (Tokenizer.advanceLoop fuel)
      ({ tok with fragCodeIndex := tok.fragCodeIndex + 1 }.inStringStep str chars) = .ok tok') :
    ∃ str', Tokenizer.advanceLoop fuel str' (tok.past [f]) = .ok tok' := by
  unfold Tokenizer.inStringStep at hloop
  rw [h.getFragment hvar] at hloop
  dsimp only [Option.bind_eq_bind, Option.bind_some] at hloop
  cases hchars : chars f.text with
  | none =>
    rw [hchars] at hloop
    cases hloop
  | some cs =>
    rw [hchars] at hloop
    exact ⟨_, hloop⟩

/-- A fragment of a string is passed over, or stops the tokenizer. -/
theorem inString_ends (h : Placed tok before (f :: after)) (hcode : f.code.inString = true) {fuel : Nat} {str : Text}
    (hloop : Tokenizer.advanceLoop (fuel + 1) str tok = .ok tok') :
    ∃ str', Tokenizer.advanceLoop fuel str' (tok.past [f]) = .ok tok' := by
  rw [advanceLoop_code h.code] at hloop
  obtain ⟨code, text⟩ := f
  cases code with
  | stringChars =>
    unfold Tokenizer.fragmentStep at hloop
    exact inStringStep_ends h rfl hloop
  | stringCharEscape =>
    unfold Tokenizer.fragmentStep at hloop
    exact inStringStep_ends h rfl hloop
  | stringControlEscape =>
    unfold Tokenizer.fragmentStep at hloop
    exact inStringStep_ends h rfl hloop
  | stringNumericEscape =>
    unfold Tokenizer.fragmentStep at hloop
    rw [h.getFragment rfl] at hloop
    dsimp only [Option.bind_eq_bind, Option.bind_some] at hloop
    cases hvalue : unicodeEscapeValue text with
    | none =>
      rw [hvalue] at hloop
      cases hloop
    | some value =>
      rw [hvalue] at hloop
      cases value with
      | none => cases hloop
      | some ch => exact ⟨_, hloop⟩
  | invalid => cases hloop
  | _ => cases hcode

/-- By induction on the fragments of the string that are left. -/
theorem string_ends {closed : Text} (hrest : Lexed rest) (body : List Fragment) :
    ∀ (tok : Tokenizer) (before : List Fragment) (fuel : Nat) (str : Text), (∀ f ∈ body, f.code.inString = true ∧ f.Cut) →
      Placed tok before (body ++ ⟨.stringClose, closed⟩ :: rest) →
      Tokenizer.advanceLoop fuel str tok = .ok tok' →
      EndsToken tok (body ++ ⟨.stringClose, closed⟩ :: rest) tok' := by
  induction body with
  | nil =>
    intro tok before fuel str _ h hloop
    cases fuel with
    | zero => cases hloop
    | succ fuel =>
      rw [advanceLoop_code h.code] at hloop
      cases hloop
      refine ⟨[⟨.stringClose, closed⟩], rest, .stringLiteral str, rfl, hrest, ?_⟩
      rw [← h.past_fixed rfl]
      rfl
  | cons f body ih =>
    intro tok before fuel str hbody h hloop
    obtain ⟨⟨hcode, -⟩, hbody⟩ := List.forall_mem_cons.mp hbody
    cases fuel with
    | zero => cases hloop
    | succ fuel =>
      obtain ⟨str', hloop⟩ := inString_ends h hcode hloop
      exact (ih _ _ fuel str' hbody h.past_one hloop).past_one

/-- The fragments that `greaterThanToken` takes after the first are all `>`. -/
theorem greaterThanToken_more (h : Placed tok before (f :: after)) (hlexed : Lexed after) :
    ∃ done rest, after = done ++ rest ∧ Lexed rest ∧ (∀ g ∈ done, g.code = .greaterThan) ∧
      { tok with fragCodeIndex := tok.fragCodeIndex + 1 }.greaterThanToken.2 = done.length := by
  have hfirst := h.code_after 0
  have hsecond := h.code_after 1
  unfold Tokenizer.greaterThanToken
  dsimp only
  rw [Nat.add_zero] at hfirst
  rw [hfirst, hsecond]
  split
  next hone =>
    obtain ⟨g, hg, hcode⟩ := Option.map_eq_some_iff.mp hone.2
    obtain ⟨after, rfl⟩ : ∃ after', after = g :: after' := by
      cases after with
      | nil => cases hg
      | cons g' after' =>
        cases hg
        exact ⟨after', rfl⟩
    have hafter := hlexed.tail_greaterThan hcode
    split
    next htwo =>
      obtain ⟨g2, hg2, hcode2⟩ := Option.map_eq_some_iff.mp htwo
      obtain ⟨after, rfl⟩ : ∃ after', after = g2 :: after' := by
        cases after with
        | nil => cases hg2
        | cons g' after' =>
          cases hg2
          exact ⟨after', rfl⟩
      exact ⟨[g, g2], after, rfl, hafter.tail_greaterThan hcode2,
        List.forall_mem_cons.mpr ⟨hcode, List.forall_mem_singleton.mpr hcode2⟩, rfl⟩
    next => exact ⟨[g], after, rfl, hafter, List.forall_mem_singleton.mpr hcode, rfl⟩
  next => exact ⟨[], after, rfl, hlexed, List.forall_mem_nil _, rfl⟩

/-- One code point for each. -/
theorem past_greaterThan (done : List Fragment) : (∀ g ∈ done, g.code = .greaterThan ∧ g.Right) →
    ∀ tok : Tokenizer, tok.past done = { tok with
      fragCodeIndex := tok.fragCodeIndex + done.length
      codePointIndex := tok.codePointIndex + done.length } := by
  induction done with
  | nil =>
    intro _ tok
    rfl
  | cons g done ih =>
    intro hdone tok
    obtain ⟨⟨hcode, hright⟩, hdone⟩ := List.forall_mem_cons.mp hdone
    have hvar : g.code.isVar = false := by rw [hcode]; rfl
    have hone : (fragmentTexts [g]).length = 0 := by
      have := fragmentTexts_concat_length [] g
      rw [hvar] at this
      exact this
    have hlength : (fragmentsText [g]).length = 1 := by
      rw [fragmentsText_cons, List.length_append, hright.length_fixed hvar, hcode]
      rfl
    have hgone : tok.past [g] = { tok with
        fragCodeIndex := tok.fragCodeIndex + 1
        codePointIndex := tok.codePointIndex + 1 } := by
      unfold Tokenizer.past
      rw [hone, hlength]
      rfl
    rw [show g :: done = [g] ++ done from rfl, ← Tokenizer.past_past, ih hdone, hgone, List.length_append,
      List.length_singleton, Nat.add_assoc, Nat.add_assoc]

/-- The token of the fragment that the tokenizer is in front of. -/
theorem head_ends {fragments : List Fragment} (hlexed : Lexed fragments) (hfragments : fragments = f :: after)
    (h : Placed tok before (f :: after)) (hblank : f.code.blank = false) {fuel : Nat}
    (hloop : Tokenizer.advanceLoop fuel [] tok = .ok tok') : EndsToken tok (f :: after) tok' := by
  cases fuel with
  | zero => cases hloop
  | succ fuel =>
  rw [advanceLoop_code h.code] at hloop
  cases hlexed with
  | nil => cases hfragments
  | comment =>
    cases hfragments
    cases hblank
  | @string opened closed body rest hbody hrest =>
    cases hfragments
    have hopen := h.past_fixed rfl
    dsimp only [FragCode.fixedLength] at hopen
    dsimp only [Tokenizer.fragmentStep, Tokenizer.afterStep] at hloop
    rw [hopen] at hloop
    exact (string_ends hrest body _ _ fuel [] hbody h.past_one hloop).past_one
  | @plain f rest hplain hcomment hcut hrest =>
    cases hfragments
    obtain ⟨code, text⟩ := f
    cases code with
    | whitespace => cases hblank
    | comment => cases hblank
    | invalid => cases hloop
    | identifier =>
      unfold Tokenizer.fragmentStep at hloop
      exact tokenOf_ends h rfl hrest hloop
    | decimalNumber =>
      unfold Tokenizer.fragmentStep at hloop
      exact tokenOf_ends h rfl hrest hloop
    | hexNumber =>
      unfold Tokenizer.fragmentStep at hloop
      exact tokenOf_ends h rfl hrest hloop
    | decimalFpNumber =>
      unfold Tokenizer.fragmentStep at hloop
      exact tokenOf_ends h rfl hrest hloop
    | decimalFpNumberF =>
      unfold Tokenizer.fragmentStep at hloop
      exact tokenOf_ends h rfl hrest hloop
    | decimalFpNumberD =>
      unfold Tokenizer.fragmentStep at hloop
      exact tokenOf_ends h rfl hrest hloop
    | fixed ft =>
      have hpast := h.past_fixed rfl
      dsimp only [FragCode.fixedLength] at hpast
      dsimp only [Tokenizer.fragmentStep, Tokenizer.fixedStep, Tokenizer.afterStep] at hloop
      cases hloop
      exact ⟨[⟨.fixed ft, text⟩], after, .fixed ft, rfl, hrest, by rw [← hpast]⟩
    | greaterThan =>
      obtain ⟨done, rest, rfl, hlast, hdone, hmore⟩ := greaterThanToken_more h hrest
      have hright : ∀ g ∈ done, g.code = .greaterThan ∧ g.Right := fun g hg =>
        ⟨hdone g hg, h.right g (List.mem_append_right _ (.tail _ (List.mem_append_left _ hg)))⟩
      have hpast := past_greaterThan (⟨.greaterThan, text⟩ :: done)
        (List.forall_mem_cons.mpr ⟨⟨rfl, h.right_head⟩, hright⟩) tok
      dsimp only [Tokenizer.fragmentStep, Tokenizer.afterStep] at hloop
      rw [hmore] at hloop
      cases hloop
      refine ⟨⟨.greaterThan, text⟩ :: done, rest,
        .fixed { tok with fragCodeIndex := tok.fragCodeIndex + 1 }.greaterThanToken.1, rfl, hlast, ?_⟩
      rw [hpast, List.length_cons, Nat.add_comm done.length 1, ← Nat.add_assoc, ← Nat.add_assoc]
    | stringChars => cases hplain
    | stringControlEscape => cases hplain
    | stringCharEscape => cases hplain
    | stringNumericEscape => cases hplain
    | stringOpen => cases hplain
    | stringClose => cases hplain

end Token

/-! ## Up to the start of the token -/

/-- The lines are lines of fragments with their texts. -/
def LinesRight (lines : List ScannedLine) : Prop :=
  ∀ line ∈ lines, ∃ fragments, line = .ofFragments fragments ∧ Lexed fragments ∧ ∀ f ∈ fragments, f.Right

/-- In front of a token, which has not been looked at. -/
structure TokenStart (file : Nat) (lines : List ScannedLine) (start : Tokenizer) (before : List Fragment)
    (f : Fragment) (after : List Fragment) : Prop where
  onLine : start.OnLine file lines
  placed : Placed start before (f :: after)
  lexed : Lexed (f :: after)
  not_blank : f.code.blank = false
  tokenStart_eq : start.tokenStartCodePointIndex = start.codePointIndex

/-- Between two fragments, or at the end of a line; the indices of the texts are not kept up after a comment. -/
def Resting (tok : Tokenizer) : Prop :=
  (∃ before after, Placed tok before after ∧ Lexed after) ∨ tok.fragCodes[tok.fragCodeIndex]? = none

section Skip

variable {file : Nat} {lines : List ScannedLine} {tok tok' : Tokenizer} {f : Fragment} {after : List Fragment}

theorem Lexed.tail_whitespace {fragments : List Fragment} (h : Lexed fragments) (hfragments : fragments = f :: after)
    (hcode : f.code = .whitespace) : Lexed after := by
  cases h with
  | nil => cases hfragments
  | comment =>
    cases hfragments
    cases hcode
  | string hbody hrest =>
    cases hfragments
    cases hcode
  | plain _ _ _ hrest =>
    cases hfragments
    exact hrest

theorem Lexed.tail_comment {fragments : List Fragment} (h : Lexed fragments) (hfragments : fragments = f :: after)
    (hcode : f.code = .comment) : after = [] := by
  cases h with
  | nil => cases hfragments
  | comment =>
    cases hfragments
    rfl
  | string hbody hrest =>
    cases hfragments
    cases hcode
  | plain _ hcomment _ _ =>
    cases hfragments
    exact absurd hcode hcomment

/-- One fragment takes one unit of the fuel. -/
theorem advanceFuel_fragment (h : tok.fragCodeIndex < tok.fragCodes.length) :
    tok.advanceFuel = { tok with fragCodeIndex := tok.fragCodeIndex + 1 }.advanceFuel + 1 := by
  unfold Tokenizer.advanceFuel
  dsimp only
  omega

/-- So does the end of a line. -/
theorem advanceFuel_line {tok2 : Tokenizer} (hend : tok.fragCodes[tok.fragCodeIndex]? = none)
    (h : tok.advanceLine = some tok2) : tok.advanceFuel = tok2.advanceFuel + 1 := by
  obtain ⟨line, hline, htok⟩ := Option.bind_eq_some_iff.mp h
  cases htok
  have hlength := List.getElem?_eq_none_iff.mp hend
  obtain ⟨hlt, hget⟩ := List.getElem?_eq_some_iff.mp hline
  unfold Tokenizer.advanceFuel
  dsimp only
  rw [List.drop_eq_getElem_cons hlt, List.map_cons, List.sum_cons, hget]
  omega

theorem code_lt {code : FragCode} (h : tok.fragCodes[tok.fragCodeIndex]? = some code) :
    tok.fragCodeIndex < tok.fragCodes.length := (List.getElem?_eq_some_iff.mp h).1

/-- The loop of `advance` passes the start of the token, if there is one, with what it needs of the fuel. By
induction on the fuel. -/
theorem advanceLoop_start (hlines : LinesRight lines) (fuel : Nat) : ∀ (tok : Tokenizer), fuel = tok.advanceFuel →
    tok.OnLine file lines →
    ((∃ before after, Placed tok before after ∧ Lexed after ∧ tok.tokenStartCodePointIndex = tok.codePointIndex) ∨
      tok.fragCodes[tok.fragCodeIndex]? = none) →
    Tokenizer.advanceLoop fuel [] tok = .ok tok' → tok'.curTok ≠ none →
      ∃ start before f after, TokenStart file lines start before f after ∧ start.mode = tok.mode ∧
        Tokenizer.advanceLoop start.advanceFuel [] start = .ok tok' := by
  induction fuel with
  | zero =>
    intro tok _ _ _ hloop
    cases hloop
  | succ fuel ih =>
    intro tok hfuel honLine hplace hloop htoken
    have hend (hnone : tok.fragCodes[tok.fragCodeIndex]? = none) :
        ∃ start before f after, TokenStart file lines start before f after ∧ start.mode = tok.mode ∧
          Tokenizer.advanceLoop start.advanceFuel [] start = .ok tok' := by
      unfold Tokenizer.advanceLoop at hloop
      rw [hnone] at hloop
      dsimp only at hloop
      cases hline : tok.advanceLine with
      | none =>
        rw [hline] at hloop
        cases hloop
        exact absurd rfl htoken
      | some tok2 =>
        rw [hline] at hloop
        have hfuel2 := advanceFuel_line hnone hline
        have honLine2 := Tokenizer.advanceLine_onLine honLine hline
        obtain ⟨line, hget, htok⟩ := Option.bind_eq_some_iff.mp hline
        rw [honLine.lines_eq] at hget
        obtain ⟨fragments, rfl, hlexed, hright⟩ := hlines line (List.mem_of_getElem? hget)
        cases htok
        obtain ⟨start, before, f, after, hstart, hmode, hgo⟩ := ih _ (by omega) honLine2
          (.inl ⟨[], fragments, ⟨rfl, rfl, rfl, rfl, rfl, hright⟩, hlexed, rfl⟩) hloop htoken
        exact ⟨start, before, f, after, hstart, hmode, hgo⟩
    rcases hplace with ⟨before, after, hplaced, hlexed, htokenStart⟩ | hnone
    · cases after with
      | nil => exact hend hplaced.no_code
      | cons f after =>
        have hlt := code_lt hplaced.code
        have hfuel2 := advanceFuel_fragment hlt
        cases hblank : f.code.blank with
        | false =>
          refine ⟨tok, before, f, after, ⟨honLine, hplaced, hlexed, hblank, htokenStart⟩, rfl, ?_⟩
          rw [← hfuel]
          exact hloop
        | true =>
          rw [advanceLoop_code hplaced.code] at hloop
          have hkind : f.code = .whitespace ∨ f.code = .comment := by
            cases hcode : f.code with
            | whitespace => exact .inl rfl
            | comment => exact .inr rfl
            | _ =>
              rw [hcode] at hblank
              cases hblank
          rcases hkind with hcode | hcode
          · rw [hcode] at hloop
            dsimp only [Tokenizer.fragmentStep] at hloop
            rw [hplaced.getFragment (by rw [hcode]; rfl)] at hloop
            have hpast := hplaced.past_one
            obtain ⟨start, before2, f2, after2, hstart, hmode, hgo⟩ := ih
              { tok.past [f] with tokenStartCodePointIndex := (tok.past [f]).codePointIndex }
              (by
                have : { tok.past [f] with tokenStartCodePointIndex := (tok.past [f]).codePointIndex }.advanceFuel =
                  { tok with fragCodeIndex := tok.fragCodeIndex + 1 }.advanceFuel := rfl
                omega)
              ⟨honLine.file_eq, honLine.lines_eq, honLine.line⟩
              (.inl ⟨before ++ [f], after, hpast.same rfl rfl rfl rfl rfl, hlexed.tail_whitespace rfl hcode, rfl⟩)
              hloop htoken
            exact ⟨start, before2, f2, after2, hstart, hmode, hgo⟩
          · rw [hcode] at hloop
            have hnil := hlexed.tail_comment rfl hcode
            subst hnil
            obtain ⟨start, before2, f2, after2, hstart, hmode, hgo⟩ := ih
              { tok with fragCodeIndex := tok.fragCodeIndex + 1 } (by omega)
              ⟨honLine.file_eq, honLine.lines_eq, honLine.line⟩
              (.inr hplaced.past_one.no_code) hloop htoken
            exact ⟨start, before2, f2, after2, hstart, hmode, hgo⟩
    · exact hend hnone

end Skip

/-! ## The end of the token before -/

/-- With another end of the token before, and another current token. -/
def Tokenizer.since (tok : Tokenizer) (column line : Nat) (t : Option Token) : Tokenizer :=
  { tok with prevTokenEndCodePointIndex := column, prevTokenEndLineIndex := line, curTok := t }

namespace Tokenizer

variable {tok : Tokenizer} {column line : Nat} {t : Option Token}

def FragmentStep.since (column line : Nat) (t : Option Token) : FragmentStep → FragmentStep
  | .next str tok => .next str (tok.since column line t)
  | .token cur tok => .token cur (tok.since column line t)
  | .stop s => .stop s

theorem getFragment_since :
    (tok.since column line t).getFragment = tok.getFragment.map fun p => (p.1, p.2.since column line t) := by
  unfold getFragment
  show (tok.fragments[tok.fragmentIndex]?).bind _ = _
  cases tok.fragments[tok.fragmentIndex]? <;> rfl

theorem tokenOf_since (make : Text → Option Token) :
    (tok.since column line t).tokenOf make = (tok.tokenOf make).map (FragmentStep.since column line t) := by
  unfold tokenOf
  rw [getFragment_since]
  cases tok.getFragment with
  | none => rfl
  | some p =>
    show (make p.1).bind _ = ((make p.1).bind _).map _
    cases make p.1 <;> rfl

theorem inStringStep_since (str : Text) (chars : Text → Option Text) :
    (tok.since column line t).inStringStep str chars =
      (tok.inStringStep str chars).map (FragmentStep.since column line t) := by
  unfold inStringStep
  rw [getFragment_since]
  cases tok.getFragment with
  | none => rfl
  | some p =>
    show (chars p.1).bind _ = ((chars p.1).bind _).map _
    cases chars p.1 <;> rfl

/-- Neither is looked at. -/
theorem fragmentStep_since (str : Text) (code : FragCode) :
    (tok.since column line t).fragmentStep str code =
      (tok.fragmentStep str code).map (FragmentStep.since column line t) := by
  cases code with
  | stringChars =>
    dsimp only [fragmentStep]
    exact inStringStep_since str _
  | stringCharEscape =>
    dsimp only [fragmentStep]
    exact inStringStep_since str _
  | stringControlEscape =>
    dsimp only [fragmentStep]
    exact inStringStep_since str _
  | stringNumericEscape =>
    dsimp only [fragmentStep]
    rw [getFragment_since]
    cases tok.getFragment with
    | none => rfl
    | some p =>
      dsimp only [Option.map_some, Option.bind_eq_bind, Option.bind_some]
      cases unicodeEscapeValue p.1 with
      | none => rfl
      | some value => cases value <;> rfl
  | whitespace =>
    dsimp only [fragmentStep]
    rw [getFragment_since]
    cases tok.getFragment <;> rfl
  | identifier =>
    dsimp only [fragmentStep]
    exact tokenOf_since _
  | decimalNumber =>
    dsimp only [fragmentStep]
    exact tokenOf_since _
  | hexNumber =>
    dsimp only [fragmentStep]
    exact tokenOf_since _
  | decimalFpNumber =>
    dsimp only [fragmentStep]
    exact tokenOf_since _
  | decimalFpNumberF =>
    dsimp only [fragmentStep]
    exact tokenOf_since _
  | decimalFpNumberD =>
    dsimp only [fragmentStep]
    exact tokenOf_since _
  | _ => rfl

theorem advanceLoop_since (fuel : Nat) : ∀ (str : Text) (tok : Tokenizer),
    advanceLoop fuel str (tok.since column line t) =
      (advanceLoop fuel str tok).map fun tok' => tok'.since column line tok'.curTok := by
  induction fuel with
  | zero =>
    intro str tok
    rfl
  | succ fuel ih =>
    intro str tok
    cases hcode : tok.fragCodes[tok.fragCodeIndex]? with
    | none =>
      have hsince : (tok.since column line t).fragCodes[(tok.since column line t).fragCodeIndex]? = none := hcode
      have hline : (tok.since column line t).advanceLine = tok.advanceLine.map (Tokenizer.since · column line t) := by
        unfold advanceLine
        show (tok.lines[tok.lineIndex]?).bind _ = _
        cases tok.lines[tok.lineIndex]? <;> rfl
      rw [advanceLoop, advanceLoop, hsince, hcode]
      dsimp only
      rw [hline]
      cases tok.advanceLine with
      | none => rfl
      | some tok2 => exact ih str tok2
    | some code =>
      have hsince : (tok.since column line t).fragCodes[(tok.since column line t).fragCodeIndex]? = some code := hcode
      have hstep := @fragmentStep_since { tok with fragCodeIndex := tok.fragCodeIndex + 1 } column line t str code
      rw [advanceLoop_code hsince, advanceLoop_code hcode]
      refine (congrArg (afterStep (advanceLoop fuel)) hstep).trans ?_
      cases { tok with fragCodeIndex := tok.fragCodeIndex + 1 }.fragmentStep str code with
      | none => rfl
      | some step =>
        cases step with
        | next str tok2 => exact ih str tok2
        | token cur tok2 => rfl
        | stop s => rfl

end Tokenizer

/-! ## The states of a tokenizer -/

/-- The states, each with the mode in which the current token was scanned. A tokenizer is moved to where a token
starts, and not necessarily in the mode of that token. -/
inductive Tokenizer.Scans (file : Nat) (lines : List ScannedLine) : Option Mode → Tokenizer → Prop where
  | init : Scans file lines none (Tokenizer.init file lines)
  | advance {m : Option Mode} {tok tok' : Tokenizer} :
      Scans file lines m tok → tok.advance = .ok tok' → Scans file lines (some tok.mode) tok'
  | setMode {m : Option Mode} {tok : Tokenizer} (mode : Mode) :
      Scans file lines m tok → Scans file lines m (tok.setMode mode)
  | restore {m m' : Option Mode} {tok saved tok' : Tokenizer} :
      Scans file lines m tok → Scans file lines m' saved → tok.restore saved.save = some tok' →
      Scans file lines m' tok'
  | moveToPos {m m' : Option Mode} {tok other tok' : Tokenizer} (mode : Mode) :
      Scans file lines m tok → Scans file lines m' other → other.curTok ≠ none →
      tok.moveToPos other.currentStartPos mode = .ok tok' → Scans file lines (some mode) tok'

/-- At the same token, and on from there to the same states: an `advance` in any mode gives the same one. -/
structure Tokenizer.AtSameToken (tok moved : Tokenizer) : Prop where
  curTok_eq : moved.curTok = tok.curTok
  lineIndex_eq : moved.lineIndex = tok.lineIndex
  fragCodeIndex_eq : moved.fragCodeIndex = tok.fragCodeIndex
  fragmentIndex_eq : moved.fragmentIndex = tok.fragmentIndex
  codePointIndex_eq : moved.codePointIndex = tok.codePointIndex
  tokenStart_eq : moved.tokenStartCodePointIndex = tok.tokenStartCodePointIndex
  advance_eq : ∀ mode, (moved.setMode mode).advance = (tok.setMode mode).advance

/-- The lines are short enough for positions. -/
def LinesShort (lines : List ScannedLine) : Prop :=
  lines.length < 2 ^ 31 ∧ ∀ fragments, ScannedLine.ofFragments fragments ∈ lines →
    (∀ f ∈ fragments, f.Right) → (fragmentsText fragments).length ≤ 2 ^ 32

/-- The current token is the one that starts at `start`, scanned in the mode. -/
def ScannedFrom (file : Nat) (lines : List ScannedLine) (m : Mode) (tok : Tokenizer) : Prop :=
  ∃ start before f after, TokenStart file lines start before f after ∧ start.mode = m ∧
    Tokenizer.advanceLoop start.advanceFuel [] start = .ok { tok with mode := m }

section States

variable {file : Nat} {lines : List ScannedLine} {tok tok' other : Tokenizer} {m : Mode}

/-- Where the token starts is kept. -/
theorem ScannedFrom.same (h : ScannedFrom file lines m tok) :
    ∃ start before f after, TokenStart file lines start before f after ∧ start.mode = m ∧
      Tokenizer.advanceLoop start.advanceFuel [] start = .ok { tok with mode := m } ∧
      EndsToken start (f :: after) { tok with mode := m } := by
  obtain ⟨start, before, f, after, hstart, hmode, hloop⟩ := h
  exact ⟨start, before, f, after, hstart, hmode, hloop, head_ends hstart.lexed rfl hstart.placed hstart.not_blank hloop⟩

theorem ScannedFrom.resting (h : ScannedFrom file lines m tok) : Resting tok := by
  obtain ⟨start, before, f, after, hstart, -, -, done, rest, t, hafter, hrest, htok⟩ := h.same
  have hplaced := hstart.placed
  rw [hafter] at hplaced
  have hpast := hplaced.past
  exact .inl ⟨before ++ done, rest, hpast.same (congrArg Tokenizer.fragCodes htok :)
    (congrArg Tokenizer.fragments htok :) (congrArg Tokenizer.fragCodeIndex htok :)
    (congrArg Tokenizer.fragmentIndex htok :) (congrArg Tokenizer.codePointIndex htok :), hrest⟩

theorem advanceLoop_none (fuel : Nat) : ∀ (str : Text) (tok : Tokenizer),
    Tokenizer.advanceLoop fuel str tok = .ok tok' → tok'.curTok = none →
      tok'.fragCodes[tok'.fragCodeIndex]? = none := by
  induction fuel with
  | zero =>
    intro str tok hloop _
    cases hloop
  | succ fuel ih =>
    intro str tok hloop hnone
    cases hcode : tok.fragCodes[tok.fragCodeIndex]? with
    | none =>
      rw [Tokenizer.advanceLoop, hcode] at hloop
      dsimp only at hloop
      cases hline : tok.advanceLine with
      | none =>
        rw [hline] at hloop
        cases hloop
        exact hcode
      | some tok2 =>
        rw [hline] at hloop
        exact ih _ _ hloop hnone
    | some code =>
      rw [advanceLoop_code hcode] at hloop
      cases hstep : { tok with fragCodeIndex := tok.fragCodeIndex + 1 }.fragmentStep str code with
      | none =>
        rw [hstep] at hloop
        cases hloop
      | some step =>
        rw [hstep] at hloop
        cases step with
        | next str tok2 => exact ih _ _ hloop hnone
        | token t tok2 =>
          cases hloop
          cases hnone
        | stop s => cases hloop

/-- What `advance` writes down before its loop. -/
def Tokenizer.begun (tok : Tokenizer) : Tokenizer :=
  { tok with
    tokenStartCodePointIndex := tok.codePointIndex
    prevTokenEndCodePointIndex := tok.codePointIndex
    prevTokenEndLineIndex := tok.lineIndex }

/-- What is kept of a state from one operation to the next. -/
structure Known (file : Nat) (lines : List ScannedLine) (m : Option Mode) (tok : Tokenizer) : Prop where
  onLine : tok.OnLine file lines
  resting : Resting tok
  scanned : tok.curTok ≠ none → ∃ mode, m = some mode ∧ ScannedFrom file lines mode tok

theorem Known.advance {m : Option Mode} (hlines : LinesRight lines) (h : Known file lines m tok)
    (hadvance : tok.advance = .ok tok') : Known file lines (some tok.mode) tok' := by
  have honLine := Tokenizer.advance_onLine h.onLine hadvance
  unfold Tokenizer.advance at hadvance
  have hscanned : tok'.curTok ≠ none → ScannedFrom file lines tok.mode tok' := by
    intro htoken
    have hplace : (∃ before after, Placed tok.begun before after ∧ Lexed after ∧
        tok.begun.tokenStartCodePointIndex = tok.begun.codePointIndex) ∨
          tok.begun.fragCodes[tok.begun.fragCodeIndex]? = none := by
      rcases h.resting with ⟨before, after, hplaced, hlexed⟩ | hend
      · exact .inl ⟨before, after, hplaced.same rfl rfl rfl rfl rfl, hlexed, rfl⟩
      · exact .inr hend
    obtain ⟨start, before, f, after, hstart, hmode, hloop⟩ := advanceLoop_start hlines tok.advanceFuel tok.begun rfl
      ⟨h.onLine.file_eq, h.onLine.lines_eq, h.onLine.line⟩ hplace hadvance htoken
    obtain ⟨done, rest, t, -, -, htok⟩ := head_ends hstart.lexed rfl hstart.placed hstart.not_blank hloop
    have hsame : tok'.mode = tok.mode := (congrArg Tokenizer.mode htok).trans hmode
    refine ⟨start, before, f, after, hstart, hmode, ?_⟩
    rw [hloop, ← hsame]
  refine ⟨honLine, ?_, fun htoken => ⟨_, rfl, hscanned htoken⟩⟩
  by_cases hnone : tok'.curTok = none
  · exact .inr (advanceLoop_none _ _ _ hadvance hnone)
  · exact (hscanned hnone).resting

theorem Known.setMode {m : Option Mode} (h : Known file lines m tok) (mode : Mode) :
    Known file lines m (tok.setMode mode) where
  onLine := ⟨h.onLine.file_eq, h.onLine.lines_eq, h.onLine.line⟩
  resting := by
    rcases h.resting with ⟨before, after, hplaced, hlexed⟩ | hend
    · exact .inl ⟨before, after, hplaced.same rfl rfl rfl rfl rfl, hlexed⟩
    · exact .inr hend
  scanned := h.scanned

end States

/-! ## Moving -/

section Moving

variable {file : Nat} {lines : List ScannedLine} {tok tok' start other : Tokenizer} {m : Mode}
  {before after : List Fragment} {f : Fragment}

/-- The line of a token, and that its position has room for line and column. -/
theorem TokenStart.line (hshort : LinesShort lines) (h : TokenStart file lines start before f after) :
    ∃ index, start.lineIndex = index + 1 ∧ lines[index]? = some (.ofFragments (before ++ f :: after)) ∧
      index + 1 < 2 ^ 31 ∧ start.codePointIndex < 2 ^ 32 := by
  have hcodes := h.placed.codes
  have hline := h.onLine.line
  have hne : start.lineIndex ≠ 0 := by
    intro hzero
    rw [if_pos hzero] at hline
    have hnil : ([] : List FragCode) = start.fragCodes := (ScannedLine.mk.inj (Option.some.inj hline)).1
    rw [hcodes, List.map_append, List.map_cons] at hnil
    exact absurd hnil.symm (List.append_ne_nil_of_right_ne_nil _ (List.cons_ne_nil _ _))
  rw [if_neg hne, hcodes, h.placed.texts] at hline
  obtain ⟨index, hindex⟩ := Nat.exists_eq_add_one_of_ne_zero hne
  rw [hindex, Nat.add_sub_cancel] at hline
  have hlt := (List.getElem?_eq_some_iff.mp hline).1
  have hcount := hshort.1
  have hlength := hshort.2 (before ++ f :: after) (List.mem_of_getElem? hline) h.placed.right
  have hpos := List.length_pos_iff.mpr h.placed.right_head.nonempty
  have hcolumn := h.placed.codePointIndex
  rw [fragmentsText_append_length, fragmentsText_cons, List.length_append] at hlength
  exact ⟨index, hindex, hline, by omega, by omega⟩

theorem moveToStart_eq (hshort : LinesShort lines) (h : TokenStart file lines start before f after)
    (hfile : tok.file = file) (hother : tok.lines = lines) (m : Mode) :
    tok.moveToStart (createPosition start.lineIndex start.tokenStartCodePointIndex) m =
      some { start with
        mode := m
        tokenStartCodePointIndex := 0
        prevTokenEndCodePointIndex := tok.prevTokenEndCodePointIndex
        prevTokenEndLineIndex := tok.prevTokenEndLineIndex
        curTok := tok.curTok } := by
  obtain ⟨index, hindex, hline, hlt, hcolumn⟩ := h.line hshort
  have hbefore : ∀ g ∈ before, g.Right := fun g hg => h.placed.right g (List.mem_append_left _ hg)
  have hfrag := scanLineFragIndex_eq before (f :: after) hbefore
  rw [← h.placed.codePointIndex, ← h.placed.fragCodeIndex, ← h.placed.fragmentIndex] at hfrag
  have hline' : tok.lines[index]? = some (.ofFragments (before ++ f :: after)) := by rw [hother]; exact hline
  unfold Tokenizer.moveToStart
  rw [h.tokenStart_eq, hindex, unpackPosition_createPosition hlt hcolumn]
  dsimp only [Option.bind_eq_bind]
  rw [scannedLine_succ, hline', Option.bind_some, hfrag, Option.bind_some]
  dsimp only
  rw [if_pos (Int.natCast_nonneg _), show (((index + 1 : Nat) : Int) - 1).toNat = index by omega]
  unfold Tokenizer.advanceLine
  dsimp only
  rw [hline', Option.bind_eq_bind, Option.bind_some, Int.toNat_natCast]
  have hcodes : (ScannedLine.ofFragments (before ++ f :: after)).fragCodes = start.fragCodes := h.placed.codes.symm
  have htexts : (ScannedLine.ofFragments (before ++ f :: after)).fragments = start.fragments := h.placed.texts.symm
  rw [hcodes, htexts]
  show some _ = some _
  rw [← hindex, hfile, ← h.onLine.file_eq, hother, ← h.onLine.lines_eq]
  rfl

/-- The token is scanned again from its start, whatever the tokenizer was doing. -/
theorem moveToPos_start (hshort : LinesShort lines) (h : TokenStart file lines start before f after)
    (hfile : tok.file = file) (hother : tok.lines = lines) (m : Mode) :
    tok.moveToPos (createPosition start.lineIndex start.tokenStartCodePointIndex) m =
      Tokenizer.advanceLoop start.advanceFuel []
        (({ start with mode := m } : Tokenizer).since start.codePointIndex start.lineIndex tok.curTok) := by
  unfold Tokenizer.moveToPos
  rw [moveToStart_eq hshort h hfile hother m]
  dsimp only
  unfold Tokenizer.advance Tokenizer.since
  dsimp only
  rw [h.tokenStart_eq]
  rfl

end Moving

section Moved

variable {file : Nat} {lines : List ScannedLine} {tok tok' other : Tokenizer} {m : Mode}

/-- The start of the current token is at its position. -/
theorem ScannedFrom.startPos {start : Tokenizer} {after : List Fragment}
    (hends : EndsToken start after { tok with mode := m }) : tok.currentStartPos =
      createPosition start.lineIndex start.tokenStartCodePointIndex := by
  obtain ⟨done, rest, t, -, -, htok⟩ := hends
  have hline : tok.lineIndex = start.lineIndex := (congrArg Tokenizer.lineIndex htok :)
  have hcolumn : tok.tokenStartCodePointIndex = start.tokenStartCodePointIndex :=
    (congrArg Tokenizer.tokenStartCodePointIndex htok :)
  unfold Tokenizer.currentStartPos
  rw [hline, hcolumn]

theorem Known.moveToPos (hshort : LinesShort lines) (h : tok.OnLine file lines)
    (hother : ScannedFrom file lines m other) (mode : Mode)
    (hmove : tok.moveToPos other.currentStartPos mode = .ok tok') : Known file lines (some mode) tok' := by
  obtain ⟨start, before, f, after, hstart, -, -, hends⟩ := hother.same
  rw [ScannedFrom.startPos hends, moveToPos_start hshort hstart h.file_eq h.lines_eq mode] at hmove
  have hmoved : TokenStart file lines
      (({ start with mode := mode } : Tokenizer).since start.codePointIndex start.lineIndex tok.curTok) before f after :=
    ⟨⟨hstart.onLine.file_eq, hstart.onLine.lines_eq, hstart.onLine.line⟩, hstart.placed.same rfl rfl rfl rfl rfl,
      hstart.lexed, hstart.not_blank, hstart.tokenStart_eq⟩
  have honLine := Tokenizer.advanceLoop_onLine _ _ _ _ hmoved.onLine hmove
  obtain ⟨done, rest, t, -, -, htok⟩ := head_ends hmoved.lexed rfl hmoved.placed hmoved.not_blank hmove
  have hmode : tok'.mode = mode := (congrArg Tokenizer.mode htok :)
  have hscanned : ScannedFrom file lines mode tok' := by
    refine ⟨_, before, f, after, hmoved, rfl, ?_⟩
    rw [← hmode] at hmove ⊢
    exact hmove
  exact ⟨honLine, hscanned.resting, fun _ => ⟨mode, rfl, hscanned⟩⟩

theorem Tokenizer.Scans.known {m : Option Mode} (hlines : LinesRight lines) (hshort : LinesShort lines)
    (h : Tokenizer.Scans file lines m tok) : Known file lines m tok := by
  induction h with
  | init => exact ⟨⟨rfl, rfl, rfl⟩, .inr rfl, fun h => absurd rfl h⟩
  | advance _ hadvance ih => exact ih.advance hlines hadvance
  | setMode mode _ ih => exact ih.setMode mode
  | restore _ _ hrestore ih ihSaved =>
    rw [Tokenizer.restore_save ih.onLine ihSaved.onLine] at hrestore
    cases hrestore
    exact ihSaved
  | moveToPos mode _ _ htoken hmove ih ihOther =>
    obtain ⟨scanned, -, hscanned⟩ := ihOther.scanned htoken
    exact Known.moveToPos hshort ih.onLine hscanned mode hmove

/-- Scanned lines have all that is asked of lines, if they are not too many and not too long. -/
theorem linesRight_of_scanned (hlines : ∀ line ∈ lines, ∃ text, scanLine text = some line) : LinesRight lines := by
  intro line hline
  obtain ⟨text, hscan⟩ := hlines line hline
  obtain ⟨fragments, hfragments, rfl⟩ := Option.map_eq_some_iff.mp hscan
  exact ⟨fragments, rfl, scanNormal_lexed _ _ hfragments, (scanNormal_covers _ _ hfragments).2⟩

/-- The fragments of a line can be told from what is kept of them. -/
theorem ofFragments_injective (fragments : List Fragment) : ∀ fragments' : List Fragment,
    (∀ f ∈ fragments, f.Right) → (∀ f ∈ fragments', f.Right) →
      ScannedLine.ofFragments fragments = ScannedLine.ofFragments fragments' → fragments = fragments' := by
  induction fragments with
  | nil =>
    intro fragments' _ _ h
    have hcodes : [] = fragments'.map (·.code) := (ScannedLine.mk.inj h).1
    exact (List.map_eq_nil_iff.mp hcodes.symm).symm
  | cons f fragments ih =>
    intro fragments' hright hright' h
    obtain ⟨hcodes, htexts⟩ := ScannedLine.mk.inj h
    cases fragments' with
    | nil => cases hcodes
    | cons g fragments' =>
      obtain ⟨hf, hfragments⟩ := List.forall_mem_cons.mp hright
      obtain ⟨hg, hfragments'⟩ := List.forall_mem_cons.mp hright'
      rw [List.map_cons, List.map_cons] at hcodes
      obtain ⟨hcode, hrest⟩ := List.cons.inj hcodes
      obtain ⟨code, text⟩ := f
      obtain ⟨code', text'⟩ := g
      have hcode : code = code' := hcode
      subst hcode
      cases hvar : code.isVar with
      | true =>
        unfold fragmentTexts at htexts
        rw [List.filter_cons_of_pos (by exact hvar), List.filter_cons_of_pos (by exact hvar), List.map_cons,
          List.map_cons] at htexts
        obtain ⟨htext, htexts⟩ := List.cons.inj htexts
        have htext : text = text' := htext
        rw [htext, ih fragments' hfragments hfragments' (congrArg₂ ScannedLine.mk hrest htexts)]
      | false =>
        have hne : ¬code.isVar = true := by rw [hvar]; exact Bool.false_ne_true
        unfold fragmentTexts at htexts
        rw [List.filter_cons_of_neg (by exact hne), List.filter_cons_of_neg (by exact hne)] at htexts
        have hfixed : ∃ fixed, code.fixedText = some fixed := by
          rw [FragCode.isVar_eq] at hvar
          exact Option.isSome_iff_exists.mp (Option.isNone_eq_false_iff.mp hvar)
        obtain ⟨fixed, hfixed⟩ := hfixed
        have htext : text = text' := (hf.fixed fixed hfixed).trans (hg.fixed fixed hfixed).symm
        rw [htext, ih fragments' hfragments hfragments' (congrArg₂ ScannedLine.mk hrest htexts)]

theorem linesShort_of_scanned (hcount : lines.length < 2 ^ 31)
    (hlines : ∀ line ∈ lines, ∃ text, scanLine text = some line ∧ text.length ≤ 2 ^ 32) : LinesShort lines := by
  refine ⟨hcount, fun fragments hmem hright => ?_⟩
  obtain ⟨text, hscan, hlength⟩ := hlines _ hmem
  obtain ⟨fragments', hfragments, heq⟩ := Option.map_eq_some_iff.mp hscan
  obtain ⟨htext, hright'⟩ := scanNormal_covers _ _ hfragments
  rw [ofFragments_injective fragments fragments' hright hright' heq.symm, htext]
  exact hlength

/-- **`moveToPos` goes back to a token**, from wherever the tokenizer is. -/
theorem moveToPos_currentStartPos (hcount : lines.length < 2 ^ 31)
    (hlines : ∀ line ∈ lines, ∃ text, scanLine text = some line ∧ text.length ≤ 2 ^ 32)
    (h : Tokenizer.Scans file lines (some m) tok) (htoken : tok.curTok ≠ none) (hfile : other.file = file)
    (hother : other.lines = lines) :
    ∃ moved, other.moveToPos tok.currentStartPos m = .ok moved ∧ tok.AtSameToken moved := by
  have hshort := linesShort_of_scanned hcount hlines
  have hright := linesRight_of_scanned fun line hline => (hlines line hline).imp fun _ => And.left
  obtain ⟨mode, hmode, hscanned⟩ := (h.known hright hshort).scanned htoken
  cases hmode
  obtain ⟨start, before, f, after, hstart, hmode, hloop, hends⟩ := hscanned.same
  refine ⟨({ tok with mode := m } : Tokenizer).since start.codePointIndex start.lineIndex tok.curTok, ?_,
    ⟨rfl, rfl, rfl, rfl, rfl, rfl, fun mode => rfl⟩⟩
  rw [ScannedFrom.startPos hends, moveToPos_start hshort hstart hfile hother m, Tokenizer.advanceLoop_since, ← hmode]
  rw [← hmode] at hloop
  exact congrArg (Except.map _) hloop

end Moved

/-- `a>>` -/
def angleLines : List ScannedLine := [⟨[.identifier, .greaterThan, .greaterThan], [['a']]⟩]

/-- After the first `>`, which is a token of its own in a type descriptor. -/
def angleTok : Tokenizer :=
  { Tokenizer.init 0 angleLines with
    lineIndex := 1
    fragCodes := [.identifier, .greaterThan, .greaterThan]
    fragments := [['a']]
    fragCodeIndex := 2
    codePointIndex := 2
    fragmentIndex := 1
    tokenStartCodePointIndex := 1
    prevTokenEndCodePointIndex := 1
    prevTokenEndLineIndex := 1
    mode := .typeDesc
    curTok := some (.fixed .greaterThan) }

theorem angleTok_scans : Tokenizer.Scans 0 angleLines (some .typeDesc) angleTok :=
  .advance (.setMode .typeDesc (.advance .init rfl)) rfl

theorem moveToPos_angleTok : ∃ moved,
    (Tokenizer.init 0 angleLines).moveToPos angleTok.currentStartPos .typeDesc = .ok moved ∧
      angleTok.AtSameToken moved := by
  refine moveToPos_currentStartPos (by decide) ?_ angleTok_scans (by decide) rfl rfl
  exact List.forall_mem_singleton.mpr ⟨['a', '>', '>'], rfl, by decide⟩

/-! ## A token that is too far to the right -/

/-- An empty line, and `a` after `n` spaces. -/
def wideLines (n : Nat) : List ScannedLine :=
  [⟨[], []⟩, ⟨[.whitespace, .identifier], [List.replicate n ' ', ['a']]⟩]

/-- After the `a`. -/
def wideTok (n : Nat) : Tokenizer :=
  { Tokenizer.init 0 (wideLines n) with
    lineIndex := 2
    fragCodes := [.whitespace, .identifier]
    fragments := [List.replicate n ' ', ['a']]
    fragCodeIndex := 2
    codePointIndex := n + 1
    fragmentIndex := 2
    tokenStartCodePointIndex := n
    curTok := some (.identifier ['a']) }

theorem wideTok_scans (n : Nat) : Tokenizer.Scans 0 (wideLines n) (some .normal) (wideTok n) := by
  have hadvance : (Tokenizer.init 0 (wideLines n)).advance = .ok { wideTok n with
      codePointIndex := 0 + (List.replicate n ' ').length + 1
      tokenStartCodePointIndex := 0 + (List.replicate n ' ').length } := rfl
  rw [List.length_replicate, Nat.zero_add] at hadvance
  exact .advance .init hadvance

theorem wideLines_scanned (k : Nat) : ∀ line ∈ wideLines (k + 1), ∃ text, scanLine text = some line := by
  refine List.forall_mem_cons.mpr ⟨⟨[], rfl⟩, List.forall_mem_singleton.mpr ⟨List.replicate (k + 1) ' ' ++ ['a'], ?_⟩⟩
  have hwhile : (List.replicate k ' ' ++ ['a']).takeWhile (fun c => c == ' ' || c == '\t') = List.replicate k ' ' := by
    rw [List.takeWhile_append_of_pos]
    · exact List.append_nil _
    · intro c hc
      rw [(List.mem_replicate.mp hc).2]
      rfl
  have hfragment : scanFragment ' ' (List.replicate k ' ' ++ ['a']) = some (.whitespace, k) := by
    show some (FragCode.whitespace, ((List.replicate k ' ' ++ ['a']).takeWhile _).length) = _
    rw [hwhile, List.length_replicate]
  have htake : (List.replicate k ' ' ++ ['a']).take k = List.replicate k ' ' :=
    List.take_left' List.length_replicate
  have hdrop : (List.replicate k ' ' ++ ['a']).drop k = ['a'] := List.drop_left' List.length_replicate
  have hidentifier : scanFragment 'a' [] = some (.identifier, 0) := by decide
  have hlast (fuel : Nat) : scanNormal (fuel + 1) ['a'] = some [⟨.identifier, ['a']⟩] := by
    rw [scanNormal, if_neg (by decide), hidentifier]
    dsimp only [Option.bind_eq_bind, Option.bind_some]
    rw [List.drop_zero, scanNormal]
    rfl
  unfold scanLine
  rw [List.length_append, List.length_replicate, List.length_singleton, List.replicate_succ, List.cons_append, scanNormal,
    if_neg (by decide), hfragment]
  dsimp only [Option.bind_eq_bind, Option.bind_some]
  rw [htake, hdrop, hlast k]
  rfl

/-- The position of the `a` in column 2^32 of line 2 is that of column 0 in line 3, which there is not. -/
theorem not_moveToPos : ¬∀ (file : Nat) (lines : List ScannedLine),
    (∀ line ∈ lines, ∃ text, scanLine text = some line) → ∀ (tok : Tokenizer) (m : Mode),
      Tokenizer.Scans file lines (some m) tok → tok.curTok ≠ none → ∀ other : Tokenizer, other.file = file →
        other.lines = lines → ∃ moved, other.moveToPos tok.currentStartPos m = .ok moved ∧ tok.AtSameToken moved := by
  intro h
  have hscanned := wideLines_scanned (2 ^ 32 - 1)
  rw [Nat.sub_add_cancel (Nat.one_le_two_pow)] at hscanned
  obtain ⟨moved, hmove, -⟩ := h 0 (wideLines (2 ^ 32)) hscanned (wideTok (2 ^ 32)) .normal (wideTok_scans _)
    (Option.some_ne_none _) (Tokenizer.init 0 (wideLines (2 ^ 32))) rfl rfl
  have hpos : (wideTok (2 ^ 32)).currentStartPos = 3 * 2 ^ 32 := by
    show createPosition 2 (2 ^ 32) = _
    decide
  have hunpack : unpackPosition (3 * 2 ^ 32) = (3, 0) := by decide
  have hnone : (Tokenizer.init 0 (wideLines (2 ^ 32))).moveToStart (3 * 2 ^ 32) .normal = none := by
    unfold Tokenizer.moveToStart
    rw [hunpack]
    rfl
  rw [hpos] at hmove
  unfold Tokenizer.moveToPos at hmove
  rw [hnone] at hmove
  cases hmove

end Nballerina.Syntax
