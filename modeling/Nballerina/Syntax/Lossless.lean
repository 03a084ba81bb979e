import Nballerina.Syntax.Covers
import Nballerina.Syntax.Lexer

/-!
# Scanning by indices

How `scanLine` keeps what it finds: the codes of the fragments and the index where each ends, which the line
is then cut by. An unterminated string is undone by cutting both arrays back, and a character of a string
moves the end of the fragment before it. What comes of that is the fragments of `Syntax.Scan`
(`scanNormalAt_eq`), so the texts that `scanLineFragments` puts together again are the line
(`scanLineAt_lossless`).

Mirroring notes:
- The branches of `scanNormal` are those of `scanFragment`, but for `endIdentifierOrKeyword`, which looks for the
  start of the keyword in `endIndex`.
- An index or a `substring` out of range is a panic, which is `none`.
-/

namespace Nballerina.Syntax

/-- `type Scanned` -/
structure Scanned where
  fragCodes : List FragCode
  endIndex : List Nat

def Scanned.endFragment (result : Scanned) (fragCode : FragCode) (endIndex : Nat) : Scanned where
  fragCodes := result.fragCodes ++ [fragCode]
  endIndex := result.endIndex ++ [endIndex]

def Scanned.endFragmentMerge (result : Scanned) (fragCode : FragCode) (endIndex : Nat) : Scanned :=
  if result.fragCodes.getLast? = some fragCode then
    { result with endIndex := result.endIndex.set (result.fragCodes.length - 1) endIndex }
  else result.endFragment fragCode endIndex

def Scanned.setLength (result : Scanned) (length : Nat) : Scanned where
  fragCodes := result.fragCodes.take length
  endIndex := result.endIndex.take length

/-- The loop of `scanString`: the index after the closing quote, if there is one. -/
def scanStringLoopAt (codePoints : Text) : Nat → Nat → Scanned → Option Nat × Scanned
  | 0, _, result => (none, result)
  | fuel + 1, i, result =>
    match codePoints[i]? with
    | none => (none, result)
    | some cp =>
      if cp = '\x22' then (some (i + 1), result.endFragment .stringClose (i + 1))
      else
        let (code, n) := scanStringFragment cp (codePoints.drop (i + 1))
        if code = .stringChars then
          scanStringLoopAt codePoints fuel (i + 1) (result.endFragmentMerge .stringChars (i + 1))
        else scanStringLoopAt codePoints fuel (i + 1 + n) (result.endFragment code (i + 1 + n))

def scanStringAt (codePoints : Text) (startIndex : Nat) (result : Scanned) : Nat × Scanned :=
  let startResultLength := result.fragCodes.length
  match scanStringLoopAt codePoints (codePoints.length - startIndex) startIndex
      (result.endFragment .stringOpen startIndex) with
  | (some i, result) => (i, result)
  -- no closing quote: mark the opening quote as invalid
  | (none, result) => (startIndex, (result.setLength startResultLength).endFragment .invalid startIndex)

/-- `endIdentifierOrKeyword`: the code of the fragment that ends at `i`. -/
def endIdentifierOrKeywordAt (codePoints : Text) (i : Nat) (result : Scanned) : FragCode :=
  let startIndex := result.endIndex.getLast?.getD 0
  endIdentifierOrKeyword ((codePoints.drop startIndex).take (i - startIndex))

/-- The branch for a lower case letter, which is before `i`: the code and the end of the fragment. -/
def scanLowerAt (codePoints : Text) (i : Nat) (result : Scanned) : FragCode × Nat :=
  let j := i + ((codePoints.drop i).takeWhile Char.isLower).length
  match codePoints[j]? with
  | none => (endIdentifierOrKeywordAt codePoints j result, j)
  | some cp =>
    if isCodePointIdentifierFollowing cp then
      (.identifier, j + 1 + scanIdentifier (codePoints.drop (j + 1)))
    else (endIdentifierOrKeywordAt codePoints j result, j)

/-- The first argument after the code points bounds the number of fragments. -/
def scanNormalAt (codePoints : Text) : Nat → Nat → Scanned → Option Scanned
  | fuel, i, result =>
    match codePoints[i]? with
    | none => some result
    | some cp =>
      match fuel with
      | 0 => none
      | fuel + 1 =>
        if cp = '\x22' then
          let (i, result) := scanStringAt codePoints (i + 1) result
          scanNormalAt codePoints fuel i result
        else if cp.isLower then
          let (code, endIndex) := scanLowerAt codePoints (i + 1) result
          scanNormalAt codePoints fuel endIndex (result.endFragment code endIndex)
        else do
          let (code, n) ← scanFragment cp (codePoints.drop (i + 1))
          scanNormalAt codePoints fuel (i + 1 + n) (result.endFragment code (i + 1 + n))

/-- The loop of `splitString`. -/
def splitStringLoop (str : Text) : Nat → List Nat → Option (List Text)
  | startIndex, [] => do return [← substring str startIndex str.length]
  | startIndex, index :: endIndex => do
    return (← substring str startIndex index) :: (← splitStringLoop str index endIndex)

def splitString (str : Text) (endIndex : List Nat) : Option (List Text) := splitStringLoop str 0 endIndex

/-- The loop that moves the texts of the variable fragments to the front. -/
def moveVarFragments (fragCodes : List FragCode) : List Nat → List Text → Nat → Option (List Text × Nat)
  | [], fragments, nVarFragments => some (fragments, nVarFragments)
  | i :: indices, fragments, nVarFragments => do
    if (← fragCodes[i]?).isVar then
      let fragment ← fragments[i]?
      moveVarFragments fragCodes indices (fragments.set nVarFragments fragment) (nVarFragments + 1)
    else moveVarFragments fragCodes indices fragments nVarFragments

/-- The texts of all fragments. -/
def cutLine (line : Text) (endIndex : List Nat) : Option (List Text) :=
  if endIndex.length > 0 then splitString line endIndex.dropLast else some []

def scanLineAt (line : Text) : Option ScannedLine := do
  let result ← scanNormalAt line line.length 0 ⟨[], []⟩
  let fragments ← cutLine line result.endIndex
  let (fragments, nVarFragments) ←
    moveVarFragments result.fragCodes (List.range result.fragCodes.length) fragments 0
  return ⟨result.fragCodes, fragments.take nVarFragments⟩

/-- The loop of `scanLineFragments`. -/
def lineContent (fragments : List Text) : List FragCode → Nat → Option (List Text)
  | [], _ => some []
  | code :: fragCodes, fragmentIndex =>
    if code.isVar then do
      return (← fragments[fragmentIndex]?) :: (← lineContent fragments fragCodes (fragmentIndex + 1))
    else do
      return (← code.fixedText) :: (← lineContent fragments fragCodes fragmentIndex)

def scanLineFragments (line : ScannedLine) : Option (List Text) := lineContent line.fragments line.fragCodes 0

/-! ## Ends of fragments -/

/-- Where the fragments end that start at an index. -/
def ends : Nat → List Fragment → List Nat
  | _, [] => []
  | i, f :: fragments => (i + f.text.length) :: ends (i + f.text.length) fragments

/-- The fragments are put after those that there are. -/
def Scanned.extend (result : Scanned) (i : Nat) (fragments : List Fragment) : Scanned where
  fragCodes := result.fragCodes ++ fragments.map (·.code)
  endIndex := result.endIndex ++ ends i fragments

/-- As in a string: characters are put to those that come before. -/
def Scanned.extendMerge (result : Scanned) (i : Nat) : List Fragment → Scanned
  | ⟨.stringChars, text⟩ :: fragments =>
    (result.endFragmentMerge .stringChars (i + text.length)).extend (i + text.length) fragments
  | fragments => result.extend i fragments

section Ends

variable {result : Scanned} {i j : Nat} {fragments : List Fragment}

theorem extend_cons (f : Fragment) :
    result.extend i (f :: fragments) =
      (result.endFragment f.code (i + f.text.length)).extend (i + f.text.length) fragments := by
  simp only [Scanned.extend, Scanned.endFragment, ends, List.map_cons, List.append_assoc, List.singleton_append]

theorem extend_nil : result.extend i [] = result := by
  simp only [Scanned.extend, ends, List.map_nil, List.append_nil]

theorem ends_append (fragments' : List Fragment) :
    ends i (fragments ++ fragments') = ends i fragments ++ ends (i + (fragmentsText fragments).length) fragments' := by
  induction fragments generalizing i with
  | nil => rfl
  | cons f fragments ih =>
    rw [List.cons_append, ends, ends, ih, fragmentsText_cons, List.length_append, Nat.add_assoc, List.cons_append]

theorem extend_extend (fragments' : List Fragment) :
    (result.extend i fragments).extend (i + (fragmentsText fragments).length) fragments' =
      result.extend i (fragments ++ fragments') := by
  simp only [Scanned.extend, ends_append, List.map_append, List.append_assoc]

/-- The index where the last fragment ends. -/
def Scanned.lastEnd (result : Scanned) : Nat := result.endIndex.getLast?.getD 0

theorem lastEnd_endFragment (code : FragCode) : (result.endFragment code i).lastEnd = i := by
  unfold Scanned.lastEnd Scanned.endFragment
  rw [List.getLast?_append, List.getLast?_singleton]
  rfl

theorem lastEnd_extend (h : result.lastEnd = i) :
    (result.extend i fragments).lastEnd = i + (fragmentsText fragments).length := by
  induction fragments generalizing result i with
  | nil =>
    rw [extend_nil, h]
    rfl
  | cons f fragments ih =>
    rw [extend_cons, ih (lastEnd_endFragment _), fragmentsText_cons, List.length_append, Nat.add_assoc]

/-- Each fragment has its end. -/
def Scanned.Aligned (result : Scanned) : Prop := result.endIndex.length = result.fragCodes.length

theorem Scanned.Aligned.endFragment (h : result.Aligned) (code : FragCode) (i : Nat) :
    (result.endFragment code i).Aligned := by
  unfold Scanned.Aligned Scanned.endFragment
  rw [List.length_append, List.length_append, h, List.length_singleton, List.length_singleton]

theorem Scanned.Aligned.endFragmentMerge (h : result.Aligned) (code : FragCode) (i : Nat) :
    (result.endFragmentMerge code i).Aligned := by
  unfold Scanned.endFragmentMerge
  split
  next => exact (List.length_set ..).trans h
  next => exact h.endFragment code i

theorem Scanned.Aligned.extend (h : result.Aligned) (i : Nat) (fragments : List Fragment) :
    (result.extend i fragments).Aligned := by
  induction fragments generalizing result i with
  | nil =>
    rw [extend_nil]
    exact h
  | cons f fragments ih =>
    rw [extend_cons]
    exact ih (h.endFragment _ _) _

/-- Moving the end of the characters twice is moving it to the later index. -/
theorem endFragmentMerge_twice (h : result.Aligned) :
    (result.endFragmentMerge .stringChars i).endFragmentMerge .stringChars j =
      result.endFragmentMerge .stringChars j := by
  unfold Scanned.endFragmentMerge
  by_cases hlast : result.fragCodes.getLast? = some .stringChars
  · rw [if_pos hlast, if_pos hlast]
    dsimp only
    rw [if_pos hlast, List.set_set]
  · have hpushed : (result.endFragment .stringChars i).fragCodes.getLast? = some .stringChars := by
      unfold Scanned.endFragment
      rw [List.getLast?_append, List.getLast?_singleton]
      rfl
    rw [if_neg hlast, if_neg hlast, if_pos hpushed]
    unfold Scanned.endFragment
    have hlen : result.endIndex.length = (result.fragCodes ++ [FragCode.stringChars]).length - 1 := by
      rw [List.length_append, List.length_singleton, Nat.add_sub_cancel]
      exact h
    dsimp only
    rw [← hlen, List.set_append_right _ _ (Nat.le_refl _), Nat.sub_self]
    rfl

/-- After another code the characters start a fragment of their own. -/
theorem extendMerge_of_last {code : FragCode} (hcode : code ≠ .stringChars)
    (hlast : result.fragCodes.getLast? = some code) : result.extendMerge i fragments = result.extend i fragments := by
  unfold Scanned.extendMerge
  split
  next text fragments =>
    have hne : ¬result.fragCodes.getLast? = some .stringChars := by
      rw [hlast]
      exact fun h => hcode (Option.some.inj h)
    unfold Scanned.endFragmentMerge
    rw [if_neg hne, extend_cons]
  next => rfl

theorem extendMerge_of_cons {f : Fragment} (hcode : f.code ≠ .stringChars) :
    result.extendMerge i (f :: fragments) = result.extend i (f :: fragments) := by
  unfold Scanned.extendMerge
  split
  next heq =>
    cases heq
    exact absurd rfl hcode
  next => rfl

theorem getLast?_endFragment (code : FragCode) :
    (result.endFragment code i).fragCodes.getLast? = some code := by
  unfold Scanned.endFragment
  rw [List.getLast?_append, List.getLast?_singleton]
  rfl

/-- A character, and then fragments that may start with characters. -/
theorem extendMerge_mergeChars (h : result.Aligned) (cp : Char) :
    (result.endFragmentMerge .stringChars (i + 1)).extendMerge (i + 1) fragments =
      result.extendMerge i (mergeChars cp fragments) := by
  unfold mergeChars
  split
  next text fragments =>
    have hend : i + 1 + text.length = i + (cp :: text).length := by
      rw [List.length_cons]
      omega
    show ((result.endFragmentMerge .stringChars (i + 1)).endFragmentMerge .stringChars
        (i + 1 + text.length)).extend (i + 1 + text.length) fragments =
      (result.endFragmentMerge .stringChars (i + (cp :: text).length)).extend (i + (cp :: text).length) fragments
    rw [endFragmentMerge_twice h, hend]
  next hne =>
    show _ = (result.endFragmentMerge .stringChars (i + 1)).extend (i + 1) fragments
    unfold Scanned.extendMerge
    split
    next text fragments => exact absurd rfl (hne text fragments)
    next => rfl

theorem setLength_endFragment {n : Nat} (h : result.Aligned) (hn : n ≤ result.fragCodes.length)
    (code : FragCode) (i : Nat) : (result.endFragment code i).setLength n = result.setLength n := by
  unfold Scanned.setLength Scanned.endFragment
  rw [List.take_append_of_le_length hn, List.take_append_of_le_length (h.symm ▸ hn)]

theorem setLength_endFragmentMerge {n : Nat} (h : result.Aligned) (hn : n < result.fragCodes.length)
    (code : FragCode) (i : Nat) : (result.endFragmentMerge code i).setLength n = result.setLength n := by
  unfold Scanned.endFragmentMerge
  split
  next =>
    unfold Scanned.setLength
    rw [List.take_set_of_le (by omega)]
  next => exact setLength_endFragment h (Nat.le_of_lt hn) code i

theorem setLength_self (h : result.Aligned) : result.setLength result.fragCodes.length = result := by
  unfold Scanned.setLength
  rw [List.take_length, ← h, List.take_length]

theorem length_endFragment (code : FragCode) :
    (result.endFragment code i).fragCodes.length = result.fragCodes.length + 1 := by
  unfold Scanned.endFragment
  rw [List.length_append, List.length_singleton]

theorem length_endFragmentMerge_le (code : FragCode) :
    result.fragCodes.length ≤ (result.endFragmentMerge code i).fragCodes.length := by
  unfold Scanned.endFragmentMerge
  split
  next => exact Nat.le_refl _
  next =>
    rw [length_endFragment]
    exact Nat.le_succ _

end Ends

/-! ## Strings -/

section Strings

variable (codePoints : Text)

/-- A string that is closed. -/
theorem scanStringLoopAt_some : ∀ (fuel i : Nat) (result : Scanned) {fragments : List Fragment} {rest : Text},
    result.Aligned → scanStringLoop fuel (codePoints.drop i) = some (fragments, rest) →
      scanStringLoopAt codePoints fuel i result =
        (some (i + (fragmentsText fragments).length), result.extendMerge i fragments)
  | 0, _, _, _, _, _, h => by cases h
  | fuel + 1, i, result, fragments, rest, haligned, h => by
    cases hdrop : codePoints.drop i with
    | nil =>
      rw [hdrop] at h
      cases h
    | cons cp cs =>
      obtain ⟨hget, hafter⟩ := getElem?_of_drop hdrop
      rw [hdrop] at h
      unfold scanStringLoop at h
      unfold scanStringLoopAt
      rw [hget]
      dsimp only
      split at h
      next hquote =>
        cases h
        rw [if_pos hquote]
        rfl
      next hquote =>
        rw [if_neg hquote, hafter]
        cases hstep : scanStringFragment cp cs with
        | mk code n =>
        obtain ⟨hn, _⟩ := scanStringFragment_le hstep
        rw [hstep] at h
        obtain ⟨⟨fragments', rest'⟩, hloop, h⟩ := Option.bind_eq_some_iff.mp h
        dsimp only at h ⊢
        rw [← hafter, List.drop_drop] at hloop
        split at h
        next hchars =>
          cases h
          have hzero : n = 0 := scanStringFragment_chars (hchars ▸ hstep)
          subst hzero
          rw [if_pos hchars, scanStringLoopAt_some fuel (i + 1) _ (haligned.endFragmentMerge _ _) hloop,
            extendMerge_mergeChars haligned, mergeChars_text, List.length_cons]
          congr 2
          omega
        next hchars =>
          cases h
          rw [if_neg hchars, scanStringLoopAt_some fuel (i + 1 + n) _ (haligned.endFragment _ _) hloop,
            extendMerge_of_last hchars (getLast?_endFragment _),
            extendMerge_of_cons hchars, extend_cons, fragmentsText_cons, List.length_append,
            List.length_cons, List.length_take, min_eq_left hn]
          refine Prod.ext (congrArg some ?_) ?_
          · omega
          · dsimp only
            rw [show i + 1 + n = i + (n + 1) by omega]

/-- A string that is not closed: what was there before it is still there. -/
theorem scanStringLoopAt_none : ∀ (fuel i : Nat) (result : Scanned), result.Aligned →
    scanStringLoop fuel (codePoints.drop i) = none →
      ∃ result', scanStringLoopAt codePoints fuel i result = (none, result') ∧
        ∀ n < result.fragCodes.length, result'.setLength n = result.setLength n
  | 0, _, result, _, _ => ⟨result, rfl, fun _ _ => rfl⟩
  | fuel + 1, i, result, haligned, h => by
    cases hdrop : codePoints.drop i with
    | nil =>
      unfold scanStringLoopAt
      rw [getElem?_of_drop_nil hdrop]
      exact ⟨result, rfl, fun _ _ => rfl⟩
    | cons cp cs =>
      obtain ⟨hget, hafter⟩ := getElem?_of_drop hdrop
      rw [hdrop] at h
      unfold scanStringLoop at h
      unfold scanStringLoopAt
      rw [hget]
      dsimp only
      split at h
      next => cases h
      next hquote =>
        rw [if_neg hquote, hafter]
        cases hstep : scanStringFragment cp cs with
        | mk code n =>
        rw [hstep] at h
        dsimp only at h ⊢
        have hloop : scanStringLoop fuel (cs.drop n) = none := by
          cases hloop : scanStringLoop fuel (cs.drop n) with
          | none => rfl
          | some r =>
            rw [hloop] at h
            dsimp only [Option.bind_eq_bind, Option.bind_some] at h
            split at h <;> cases h
        rw [← hafter, List.drop_drop] at hloop
        split
        next hchars =>
          have hzero : n = 0 := scanStringFragment_chars (hchars ▸ hstep)
          subst hzero
          obtain ⟨result', hresult, hsame⟩ :=
            scanStringLoopAt_none fuel (i + 1) _ (haligned.endFragmentMerge .stringChars (i + 1)) hloop
          refine ⟨result', hresult, fun m hm => ?_⟩
          rw [hsame m (Nat.lt_of_lt_of_le hm (length_endFragmentMerge_le _)), setLength_endFragmentMerge haligned hm]
        next =>
          obtain ⟨result', hresult, hsame⟩ :=
            scanStringLoopAt_none fuel (i + 1 + n) _ (haligned.endFragment code (i + 1 + n)) hloop
          refine ⟨result', hresult, fun m hm => ?_⟩
          rw [hsame m (by rw [length_endFragment]; omega), setLength_endFragment haligned (Nat.le_of_lt hm)]

/-- A string, closed or not, whose opening quote is before `i`. -/
theorem scanStringAt_eq {i : Nat} {result : Scanned} (haligned : result.Aligned) :
    scanStringAt codePoints (i + 1) result =
      (i + (fragmentsText (scanString (codePoints.drop (i + 1))).1).length,
        result.extend i (scanString (codePoints.drop (i + 1))).1) := by
  have hopened := haligned.endFragment .stringOpen (i + 1)
  unfold scanStringAt scanString
  rw [List.length_drop]
  cases hloop : scanStringLoop (codePoints.length - (i + 1)) (codePoints.drop (i + 1)) with
  | some r =>
    obtain ⟨fragments, rest⟩ := r
    dsimp only
    rw [scanStringLoopAt_some codePoints _ _ _ hopened hloop,
      extendMerge_of_last (show FragCode.stringOpen ≠ .stringChars by decide) (getLast?_endFragment _), extend_cons,
      fragmentsText_cons, List.length_append]
    refine Prod.ext ?_ rfl
    show i + 1 + _ = i + (1 + _)
    omega
  | none =>
    obtain ⟨result', hresult, hsame⟩ := scanStringLoopAt_none codePoints _ _ _ hopened hloop
    dsimp only
    rw [hresult]
    dsimp only
    rw [hsame _ (by rw [length_endFragment]; omega), setLength_endFragment haligned (Nat.le_refl _),
      setLength_self haligned, extend_cons, extend_nil]
    rfl

end Strings

/-! ## Lines -/

section Lines

variable (codePoints : Text)

theorem scanFragment_lower {cp : Char} (hlower : cp.isLower = true) (cs : Text) :
    scanFragment cp cs = some (scanLower cp cs) := by
  have hdigit : ¬cp.isDigit = true := by
    intro hdigit
    unfold Char.isLower at hlower
    unfold Char.isDigit at hdigit
    rw [Bool.and_eq_true, decide_eq_true_iff, decide_eq_true_iff] at hlower hdigit
    exact absurd (UInt32.le_trans hlower.1 hdigit.2) (by decide)
  unfold scanFragment
  split
  case h_31 => rw [if_neg hdigit, if_pos hlower]
  all_goals exact absurd hlower (by decide)

/-- The keyword starts where the fragment before it ends. -/
theorem scanLowerAt_eq {i : Nat} {cp : Char} {cs : Text} {result : Scanned} (hdrop : codePoints.drop i = cp :: cs)
    (hend : result.lastEnd = i) :
    scanLowerAt codePoints (i + 1) result = ((scanLower cp cs).1, i + 1 + (scanLower cp cs).2) := by
  obtain ⟨_, hafter⟩ := getElem?_of_drop hdrop
  have hkeyword : endIdentifierOrKeywordAt codePoints (i + 1 + (cs.takeWhile Char.isLower).length) result =
      endIdentifierOrKeyword (cp :: cs.take (cs.takeWhile Char.isLower).length) := by
    unfold endIdentifierOrKeywordAt
    rw [show result.endIndex.getLast?.getD 0 = i from hend]
    dsimp only
    rw [hdrop, show i + 1 + (cs.takeWhile Char.isLower).length - i = (cs.takeWhile Char.isLower).length + 1 by omega,
      List.take_succ_cons]
  unfold scanLowerAt scanLower
  rw [hafter]
  dsimp only
  rw [hkeyword]
  cases hrest : cs.drop (cs.takeWhile Char.isLower).length with
  | nil =>
    rw [← hafter, List.drop_drop, hafter] at hrest
    rw [getElem?_of_drop_nil hrest]
  | cons next after =>
    rw [← hafter, List.drop_drop, hafter] at hrest
    obtain ⟨hget, hnext⟩ := getElem?_of_drop hrest
    rw [hget, hnext]
    dsimp only
    split
    next =>
      refine Prod.ext rfl ?_
      dsimp only
      omega
    next => rfl

/-- **The codes and ends are those of the fragments.** -/
theorem scanNormalAt_eq : ∀ (fuel i : Nat) (result : Scanned) {fragments : List Fragment},
    result.Aligned → result.lastEnd = i → scanNormal fuel (codePoints.drop i) = some fragments →
      scanNormalAt codePoints fuel i result = some (result.extend i fragments)
  | fuel, i, result, fragments, haligned, hend, h => by
    cases hdrop : codePoints.drop i with
    | nil =>
      rw [hdrop] at h
      unfold scanNormal at h
      cases h
      unfold scanNormalAt
      rw [getElem?_of_drop_nil hdrop, extend_nil]
    | cons cp cs =>
      obtain ⟨hget, hafter⟩ := getElem?_of_drop hdrop
      rw [hdrop] at h
      cases fuel with
      | zero => cases h
      | succ fuel =>
        unfold scanNormal at h
        unfold scanNormalAt
        rw [hget]
        dsimp only
        split at h
        next hquote =>
          rw [if_pos hquote, scanStringAt_eq codePoints haligned, hafter]
          obtain ⟨rest, hrest, h⟩ := Option.bind_eq_some_iff.mp h
          cases h
          have hcovers := (scanString_covers cs).1
          have hrest' : codePoints.drop (i + (fragmentsText (scanString cs).1).length) = (scanString cs).2 := by
            rw [← List.drop_drop, hdrop, hquote, ← hcovers, List.drop_left]
          rw [← extend_extend]
          exact scanNormalAt_eq fuel _ _ (haligned.extend i _) (lastEnd_extend hend) (hrest' ▸ hrest)
        next hquote =>
          rw [if_neg hquote, hafter]
          obtain ⟨⟨code, n⟩, hcode, h⟩ := Option.bind_eq_some_iff.mp h
          obtain ⟨rest, hrest, h⟩ := Option.bind_eq_some_iff.mp h
          cases h
          have hn : n ≤ cs.length := (scanFragment_covers hcode).1
          have hlength : i + 1 + n = i + (cp :: cs.take n).length := by
            rw [List.length_cons, List.length_take, min_eq_left hn]
            omega
          rw [← hafter, List.drop_drop] at hrest
          have hnext := scanNormalAt_eq fuel (i + 1 + n) _ (haligned.endFragment code (i + 1 + n))
            (lastEnd_endFragment code) hrest
          rw [extend_cons, ← hlength, ← hnext]
          split
          next hlower =>
            rw [scanFragment_lower hlower] at hcode
            rw [scanLowerAt_eq codePoints hdrop hend, Option.some.inj hcode]
          next =>
            rw [hcode]
            rfl

end Lines

/-! ## The texts that are kept -/

theorem substring_append (pre text post : Text) :
    substring (pre ++ text ++ post) pre.length (pre.length + text.length) = some text := by
  have hle : pre.length ≤ pre.length + text.length ∧ pre.length + text.length ≤ (pre ++ text ++ post).length := by
    rw [List.length_append, List.length_append]
    omega
  unfold substring
  rw [if_pos hle, List.append_assoc, List.drop_left, Nat.add_sub_cancel_left, List.take_left]

/-- The line is cut where the fragments end. -/
theorem splitStringLoop_eq (f : Fragment) (fragments : List Fragment) : ∀ pre : Text,
    splitStringLoop (pre ++ fragmentsText (f :: fragments)) pre.length (ends pre.length (f :: fragments)).dropLast =
      some ((f :: fragments).map (·.text)) := by
  induction fragments generalizing f with
  | nil =>
    intro pre
    have hsub := substring_append pre f.text []
    rw [← List.length_append, List.append_nil] at hsub
    show splitStringLoop (pre ++ (f.text ++ [])) pre.length [] = _
    unfold splitStringLoop
    rw [List.append_nil, hsub]
    rfl
  | cons g fragments ih =>
    intro pre
    have hsub := substring_append pre f.text (fragmentsText (g :: fragments))
    have hrest := ih g (pre ++ f.text)
    rw [List.append_assoc, List.length_append] at hrest
    rw [List.append_assoc] at hsub
    show splitStringLoop (pre ++ (f.text ++ fragmentsText (g :: fragments))) pre.length
      ((pre.length + f.text.length) :: (ends (pre.length + f.text.length) (g :: fragments)).dropLast) = _
    unfold splitStringLoop
    rw [hsub, hrest]
    rfl

theorem fragmentTexts_concat (fragments : List Fragment) (f : Fragment) :
    fragmentTexts (fragments ++ [f]) = fragmentTexts fragments ++ if f.code.isVar = true then [f.text] else [] := by
  unfold fragmentTexts
  rw [List.filter_append, List.map_append]
  split
  next hvar => simp only [List.filter_cons, hvar, if_true, List.filter_nil, List.map_singleton]
  next hvar => simp only [List.filter_cons, hvar, Bool.false_eq_true, if_false, List.filter_nil, List.map_nil]

/-- The texts that have been moved are those of the variable fragments, and the others are where they were. -/
theorem moveVarFragments_eq (done todo : List Fragment) (fragments : List Text) (n : Nat)
    (hn : n ≤ done.length) (hmoved : fragments.take n = fragmentTexts done)
    (hrest : fragments.drop done.length = todo.map (·.text)) :
    ∃ fragments' n', moveVarFragments ((done ++ todo).map (·.code)) (List.range' done.length todo.length)
        fragments n = some (fragments', n') ∧ fragments'.take n' = fragmentTexts (done ++ todo) := by
  induction todo generalizing done fragments n with
  | nil =>
    refine ⟨fragments, n, rfl, ?_⟩
    rw [List.append_nil, hmoved]
  | cons f todo ih =>
    have hcode : ((done ++ f :: todo).map (·.code))[done.length]? = some f.code := by
      rw [List.getElem?_map, List.getElem?_append_right (Nat.le_refl _), Nat.sub_self]
      rfl
    obtain ⟨htext, hafter⟩ := getElem?_of_drop hrest
    have hdone : done ++ f :: todo = (done ++ [f]) ++ todo := List.append_cons done f todo
    have hlength : (done ++ [f]).length = done.length + 1 := by
      rw [List.length_append, List.length_singleton]
    have hinside := (List.getElem?_eq_some_iff.mp htext).1
    rw [List.length_cons, List.range'_succ]
    unfold moveVarFragments
    rw [hcode]
    dsimp only [Option.bind_eq_bind, Option.bind_some]
    split
    next hvar =>
      rw [htext, hdone]
      dsimp only [Option.bind_some]
      have hstep := ih (done ++ [f]) (fragments.set n f.text) (n + 1)
      rw [hlength] at hstep
      refine hstep (by omega) ?_ ?_
      · rw [List.take_add_one, List.take_set_of_le (Nat.le_refl n), hmoved, List.getElem?_set_self (by omega),
          fragmentTexts_concat, if_pos hvar]
        rfl
      · rw [List.drop_set_of_lt (by omega), hafter]
    next hvar =>
      rw [hdone]
      have hstep := ih (done ++ [f]) fragments n
      rw [hlength] at hstep
      refine hstep (by omega) ?_ hafter
      rw [hmoved, fragmentTexts_concat, if_neg hvar, List.append_nil]

variable {fragments : List Fragment}

/-- Scanning by indices finds what scanning by texts does. -/
theorem scanLineAt_eq {text : Text} (h : scanNormal text.length text = some fragments) :
    scanLineAt text = some (.ofFragments fragments) := by
  have hscan := scanNormalAt_eq text text.length 0 ⟨[], []⟩ rfl rfl h
  unfold scanLineAt
  rw [hscan]
  have hcut : cutLine text (ends 0 fragments) = some (fragments.map (·.text)) := by
    cases fragments with
    | nil => rfl
    | cons f fragments =>
      have htext := (scanNormal_covers _ _ h).1
      have hsplit := splitStringLoop_eq f fragments []
      rw [List.nil_append, htext] at hsplit
      exact hsplit
  obtain ⟨texts, n, hmove, htexts⟩ := moveVarFragments_eq [] fragments (fragments.map (·.text)) 0
    (Nat.le_refl 0) rfl rfl
  rw [List.nil_append] at hmove htexts
  have hextend : (⟨[], []⟩ : Scanned).extend 0 fragments = ⟨fragments.map (·.code), ends 0 fragments⟩ := rfl
  rw [hextend]
  dsimp only [Option.bind_eq_bind, Option.bind_some]
  rw [hcut, List.length_map, List.range_eq_range']
  dsimp only [Option.bind_some]
  rw [List.length_nil] at hmove
  rw [hmove]
  dsimp only [Option.bind_some]
  rw [htexts]
  rfl

/-- Put together again, the texts of the fragments. -/
theorem lineContent_eq (hright : ∀ f ∈ fragments, f.Right) (texts : List Text) :
    ∀ i, texts.drop i = fragmentTexts fragments →
      lineContent texts (fragments.map (·.code)) i = some (fragments.map (·.text)) := by
  induction fragments with
  | nil =>
    intro i _
    rfl
  | cons f fragments ih =>
    intro i htexts
    obtain ⟨hf, hright⟩ := List.forall_mem_cons.mp hright
    rw [List.map_cons, List.map_cons]
    unfold lineContent
    unfold fragmentTexts at htexts
    split
    next hvar =>
      simp only [List.filter_cons, hvar, if_true, List.map_cons] at htexts
      obtain ⟨htext, hafter⟩ := getElem?_of_drop htexts
      rw [htext, ih hright (i + 1) hafter]
      rfl
    next hvar =>
      simp only [List.filter_cons, hvar, Bool.false_eq_true, if_false] at htexts
      rw [FragCode.isVar_eq, Option.isNone_iff_eq_none] at hvar
      obtain ⟨text, htext⟩ := Option.ne_none_iff_exists'.mp hvar
      rw [htext, ih hright i htexts, hf.fixed text htext]
      rfl

/-- The ends go up, up to the end of the line, and between two of them is the text of a fragment. -/
theorem ends_covers (hright : ∀ f ∈ fragments, f.Right) : ∀ pre : Text,
    (pre.length :: ends pre.length fragments).Pairwise (· < ·) ∧
      (pre.length :: ends pre.length fragments).getLast? = some (pre ++ fragmentsText fragments).length ∧
        ∀ (j : Nat) (f : Fragment), fragments[j]? = some f → ∃ start stop,
          (pre.length :: ends pre.length fragments)[j]? = some start ∧
            (ends pre.length fragments)[j]? = some stop ∧
              substring (pre ++ fragmentsText fragments) start stop = some f.text := by
  induction fragments with
  | nil =>
    intro pre
    refine ⟨List.pairwise_singleton _ _, ?_, fun j f h => by cases h⟩
    show some pre.length = some (pre ++ []).length
    rw [List.append_nil]
  | cons f fragments ih =>
    intro pre
    obtain ⟨hf, hright⟩ := List.forall_mem_cons.mp hright
    obtain ⟨hordered, hlast, hcover⟩ := ih hright (pre ++ f.text)
    have htext : pre ++ fragmentsText (f :: fragments) = pre ++ f.text ++ fragmentsText fragments := by
      rw [fragmentsText_cons, List.append_assoc]
    have hpos := List.length_pos_iff.mpr hf.nonempty
    rw [List.length_append] at hordered hlast hcover
    rw [htext]
    refine ⟨List.pairwise_cons.mpr ⟨?_, hordered⟩, ?_, ?_⟩
    · intro i hi
      rcases List.mem_cons.mp hi with rfl | hi
      · omega
      · have hlt := (List.pairwise_cons.mp hordered).1 i hi
        omega
    · unfold ends
      rw [List.getLast?_cons_cons]
      exact hlast
    · intro j g hg
      cases j with
      | zero =>
        cases hg
        exact ⟨_, _, rfl, rfl, substring_append pre f.text _⟩
      | succ j => exact hcover j g hg

/-- A scanned line and the ends of its fragments, with nothing of the line lost. -/
structure LosslessScan (line : Text) (result : Scanned) (scanned : ScannedLine) : Prop where
  codes : scanned.fragCodes = result.fragCodes
  /-- the fragments that are put together again -/
  content : (scanLineFragments scanned).map List.flatten = some line
  kept : scanned.fragments.length = scanned.fragCodes.countP FragCode.isVar
  aligned : result.endIndex.length = result.fragCodes.length
  ordered : (0 :: result.endIndex).Pairwise (· < ·)
  last : (0 :: result.endIndex).getLast? = some line.length
  /-- a code that has always the same text stands where the line has that text -/
  fixed : ∀ (j : Nat) (code : FragCode) (text : Text), scanned.fragCodes[j]? = some code →
    code.fixedText = some text → ∃ start stop, (0 :: result.endIndex)[j]? = some start ∧
      result.endIndex[j]? = some stop ∧ substring line start stop = some text

/-- **A line is scanned to its end without a loss.** -/
theorem scanLineAt_lossless (line : Text) (hline : InLine line) :
    ∃ result scanned, scanNormalAt line line.length 0 ⟨[], []⟩ = some result ∧
      scanLineAt line = some scanned ∧ LosslessScan line result scanned := by
  obtain ⟨fragments, hscan⟩ := scanNormal_some line.length line hline (Nat.le_refl _)
  obtain ⟨htext, hright⟩ := scanNormal_covers _ _ hscan
  have hresult := scanNormalAt_eq line line.length 0 ⟨[], []⟩ rfl rfl hscan
  obtain ⟨hordered, hlast, hcover⟩ := ends_covers hright []
  rw [List.nil_append, htext] at hlast hcover
  have hcontent : scanLineFragments (.ofFragments fragments) = some (fragments.map (·.text)) :=
    lineContent_eq hright _ 0 rfl
  refine ⟨_, _, hresult, scanLineAt_eq hscan, ?_⟩
  refine { codes := rfl, content := ?_, kept := ?_, aligned := ?_, ordered := hordered, last := hlast, fixed := ?_ }
  · rw [hcontent]
    exact congrArg some htext
  · show (fragmentTexts fragments).length = (fragments.map (·.code)).countP FragCode.isVar
    unfold fragmentTexts
    rw [List.length_map, List.countP_map, ← List.countP_eq_length_filter]
    rfl
  · have hempty : Scanned.Aligned ⟨[], []⟩ := rfl
    exact hempty.extend 0 fragments
  · intro j code text hcode htext
    change (fragments.map (·.code))[j]? = some code at hcode
    rw [List.getElem?_map] at hcode
    obtain ⟨f, hf, rfl⟩ := Option.map_eq_some_iff.mp hcode
    obtain ⟨start, stop, hstart, hstop, hsub⟩ := hcover j f hf
    rw [(hright f (List.mem_of_getElem? hf)).fixed text htext] at hsub
    exact ⟨start, stop, hstart, hstop, hsub⟩

/-- An unterminated string with a malformed escape, after a number without its digits. -/
def unterminated : Text := ['0', 'x', ' ', '+', '\x22', 'a', '\\', 'q']

theorem scanLineAt_unterminated :
    ∃ result scanned, scanNormalAt unterminated unterminated.length 0 ⟨[], []⟩ = some result ∧
      scanLineAt unterminated = some scanned ∧ LosslessScan unterminated result scanned :=
  scanLineAt_lossless unterminated (by unfold InLine unterminated; simp)

end Nballerina.Syntax
