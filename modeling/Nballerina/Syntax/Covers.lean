import Nballerina.Syntax.Scan

/-!
# The fragments cover the line

Each branch of the scanner ends a fragment within the line, and a code with no text of its own only where
the text is the one that the code stands for (`scanFragment_covers`). So the texts of the fragments of a line
are together the line (`scanNormal_covers`), and every line without line terminators is scanned to its
end.
-/

namespace Nballerina.Syntax

/-- `fragFixed` and `fragTokens`: the text that a code always stands for. -/
def FragCode.fixedText : FragCode → Option Text
  | .greaterThan => some ">".toList
  | .stringOpen => some ['\x22']
  | .stringClose => some ['\x22']
  | .fixed t => some t.text
  | _ => none

theorem FragCode.isVar_eq (code : FragCode) : code.isVar = code.fixedText.isNone := by
  cases code <;> rfl

/-- A fragment that starts with `cp` and has `n` of the code points that follow is within the line, and has the
text of its code. -/
def Covers (cp : Char) (cs : Text) (r : FragCode × Nat) : Prop :=
  r.2 ≤ cs.length ∧ ∀ text, r.1.fixedText = some text → cp :: cs.take r.2 = text

section Covers

variable {cp : Char} {cs : Text}

variable {n : Nat} {code : FragCode}

theorem Covers.of_var (hvar : code.fixedText = none) (hn : n ≤ cs.length) :
    Covers cp cs (code, n) := by
  refine ⟨hn, fun text htext => ?_⟩
  rw [hvar] at htext
  cases htext

theorem Covers.of_text (hn : n ≤ cs.length) (htext : code.fixedText = some (cp :: cs.take n)) :
    Covers cp cs (code, n) :=
  ⟨hn, fun _ h => Option.some.inj (htext.symm.trans h)⟩

theorem takeWhile_length_le (p : Char → Bool) (cs : Text) : (cs.takeWhile p).length ≤ cs.length :=
  (List.takeWhile_prefix p).length_le

theorem scanOptDigits_le (cs : Text) : scanOptDigits cs ≤ cs.length := takeWhile_length_le _ _

theorem scanHexDigits_le (h : scanHexDigits cs = some n) : n ≤ cs.length := by
  unfold scanHexDigits at h
  dsimp only at h
  split at h
  next => cases h
  next =>
    cases h
    exact takeWhile_length_le _ _

theorem scanExponent_le (h : scanExponent cs = some n) : n ≤ cs.length := by
  unfold scanExponent at h
  split at h
  next => cases h
  next cp cs =>
    split at h
    next =>
      split at h
      next => cases h
      next cp2 after =>
        split at h
        next =>
          cases h
          have hle := scanOptDigits_le after
          rw [List.length_cons, List.length_cons]
          omega
        next => cases h
    next =>
      split at h
      next =>
        cases h
        have hle := scanOptDigits_le cs
        rw [List.length_cons]
        omega
      next => cases h

theorem scanFractionExponent_le (h : scanFractionExponent cs = some n) : n ≤ cs.length := by
  unfold scanFractionExponent at h
  split at h
  next => cases h
  next cp cs =>
    have hle := scanOptDigits_le cs
    have hdigits : 1 + scanOptDigits cs ≤ (cp :: cs).length := by
      rw [List.length_cons]
      omega
    split at h
    next =>
      dsimp only at h
      split at h
      next =>
        cases h
        exact hdigits
      next cp2 after hdrop =>
        have hlen := congrArg List.length hdrop
        rw [List.length_drop] at hlen
        have hcons : (cp2 :: after).length = after.length + 1 := List.length_cons
        split at h
        next =>
          split at h
          next m hm =>
            cases h
            have hexp := scanExponent_le hm
            omega
          next =>
            cases h
            exact hdigits
        next =>
          cases h
          exact hdigits
    next => cases h

theorem endDecimal_covers {i : Nat} (hvar : code.fixedText = none) (hi : i ≤ cs.length) :
    Covers cp cs (endDecimal code i (cs.drop i)) := by
  unfold endDecimal
  split
  next => exact .of_var hvar hi
  next next after hdrop =>
    have hlen := congrArg List.length hdrop
    rw [List.length_drop, List.length_cons] at hlen
    split
    next => exact .of_var rfl (by omega)
    next =>
      split
      next => exact .of_var rfl (by omega)
      next => exact .of_var hvar hi

theorem scanDecimal_covers : Covers cp cs (scanDecimal cs) := by
  have hle := scanOptDigits_le cs
  have hint : Covers cp cs (endDecimal .decimalNumber (scanOptDigits cs) (cs.drop (scanOptDigits cs))) :=
    endDecimal_covers rfl hle
  unfold scanDecimal
  dsimp only
  split
  next => exact hint
  next next after hdrop =>
    have hlen := congrArg List.length hdrop
    rw [List.length_drop, List.length_cons] at hlen
    -- what follows the point or the `e` is what is left of the line
    have hafter (n : Nat) : after.drop n = cs.drop (scanOptDigits cs + 1 + n) := by
      rw [← List.drop_drop, ← List.drop_drop, hdrop]
      rfl
    split
    next =>
      split
      next n hn =>
        have hfraction := scanFractionExponent_le hn
        rw [hafter]
        exact endDecimal_covers rfl (by omega)
      next => exact hint
    next =>
      split
      next =>
        split
        next n hn =>
          have hexp := scanExponent_le hn
          rw [hafter]
          exact endDecimal_covers rfl (by omega)
        next => exact hint
      next => exact hint

theorem endIdentifierOrKeyword_text {text text' : Text} (h : (endIdentifierOrKeyword text).fixedText = some text') :
    text = text' := by
  unfold endIdentifierOrKeyword at h
  split at h
  next => cases h
  next k hk =>
    cases h
    have hk := List.find?_some hk
    exact (eq_of_beq hk).symm

theorem scanLower_covers : Covers cp cs (scanLower cp cs) := by
  have hle := takeWhile_length_le Char.isLower cs
  unfold scanLower
  dsimp only
  split
  next => exact ⟨hle, fun _ h => endIdentifierOrKeyword_text h⟩
  next next after hdrop =>
    have hlen := congrArg List.length hdrop
    rw [List.length_drop, List.length_cons] at hlen
    have hrest := takeWhile_length_le isCodePointIdentifierFollowing after
    split
    next => exact .of_var rfl (by unfold scanIdentifier; omega)
    next => exact ⟨hle, fun _ h => endIdentifierOrKeyword_text h⟩

theorem endFragmentCompoundAssign_covers {code codeIfEqual : FixedToken} (htext : code.text = [cp])
    (hequal : codeIfEqual.text = [cp, '=']) : Covers cp cs (endFragmentCompoundAssign cs code codeIfEqual) := by
  unfold endFragmentCompoundAssign
  split
  next => exact .of_text (Nat.succ_le_succ (Nat.zero_le _)) (congrArg some hequal)
  next => exact .of_text (Nat.zero_le _) (congrArg some htext)

/-- **Every branch ends its fragment where the text of its code does.** -/
theorem scanFragment_covers {r : FragCode × Nat} (h : scanFragment cp cs = some r) : Covers cp cs r := by
  unfold scanFragment at h
  repeat' split at h
  all_goals
    first
    | contradiction
    | cases h
  all_goals
    first
    | exact .of_text (by simp) rfl
    | exact endFragmentCompoundAssign_covers rfl rfl
    | exact scanDecimal_covers
    | exact scanLower_covers
    | exact endDecimal_covers rfl (scanFractionExponent_le ‹_›)
    | exact .of_var rfl (Nat.zero_le _)
    | exact .of_var rfl (Nat.le_refl _)
    | exact .of_var rfl (takeWhile_length_le _ _)
    | exact .of_var rfl (Nat.add_comm 1 _ ▸ Nat.succ_le_succ (takeWhile_length_le _ _))
    | exact .of_var rfl (Nat.add_comm 1 _ ▸ Nat.succ_le_succ (scanHexDigits_le ‹_›))

/-- Only a line terminator is a panic. -/
theorem scanFragment_some (hlf : cp ≠ '\n') (hcr : cp ≠ '\r') : ∃ r, scanFragment cp cs = some r := by
  have hsome {r : FragCode × Nat} : ∃ r', some r = some r' := ⟨r, rfl⟩
  unfold scanFragment
  repeat' split
  all_goals first | exact hsome | contradiction

end Covers

/-! ## Strings -/

/-- The texts of the fragments, one after the other. -/
def fragmentsText (fragments : List Fragment) : Text := (fragments.map (·.text)).flatten

theorem fragmentsText_cons (f : Fragment) (fragments : List Fragment) :
    fragmentsText (f :: fragments) = f.text ++ fragmentsText fragments := rfl

theorem fragmentsText_append (fragments fragments' : List Fragment) :
    fragmentsText (fragments ++ fragments') = fragmentsText fragments ++ fragmentsText fragments' := by
  unfold fragmentsText
  rw [List.map_append, List.flatten_append]

/-- The text is that of the code, and there is one. -/
structure Fragment.Right (f : Fragment) : Prop where
  fixed : ∀ text, f.code.fixedText = some text → f.text = text
  nonempty : f.text ≠ []

theorem mergeChars_text (cp : Char) (fragments : List Fragment) :
    fragmentsText (mergeChars cp fragments) = cp :: fragmentsText fragments := by
  unfold mergeChars
  split
  next => rfl
  next => rfl

theorem mergeChars_right (cp : Char) {fragments : List Fragment} (h : ∀ f ∈ fragments, f.Right) :
    ∀ f ∈ mergeChars cp fragments, f.Right := by
  have hchars (text : Text) : Fragment.Right ⟨.stringChars, cp :: text⟩ := by
    refine ⟨fun text' htext => ?_, List.cons_ne_nil _ _⟩
    cases htext
  unfold mergeChars
  split
  next => exact List.forall_mem_cons.mpr ⟨hchars _, (List.forall_mem_cons.mp h).2⟩
  next => exact List.forall_mem_cons.mpr ⟨hchars _, h⟩

theorem scanStringFragment_le {cp : Char} {cs : Text} {code : FragCode} {n : Nat}
    (h : scanStringFragment cp cs = (code, n)) : n ≤ cs.length ∧ code.fixedText = none := by
  unfold scanStringFragment at h
  have hends {c : FragCode} {i : Nat} (h : (c, i) = (code, n)) (hi : i ≤ cs.length) (hc : c.fixedText = none) :
      n ≤ cs.length ∧ code.fixedText = none := by
    cases h
    exact ⟨hi, hc⟩
  split at h
  next =>
    split at h
    next => exact hends h (Nat.le_refl _) rfl
    next cp2 after =>
      have hone : 1 ≤ (cp2 :: after).length := Nat.succ_le_succ (Nat.zero_le _)
      split at h
      next => exact hends h hone rfl
      next =>
        split at h
        next => exact hends h hone rfl
        next =>
          split at h
          next =>
            split at h
            next i hi =>
              have hle := (scanNumericEscape_length hi).2
              exact hends h (by rw [List.length_cons]; omega) rfl
            next => exact hends h (Nat.zero_le _) rfl
          next => exact hends h (Nat.zero_le _) rfl
  next => exact hends h (Nat.zero_le _) rfl

/-- A character that is merged is the only one of its step. -/
theorem scanStringFragment_chars {cp : Char} {cs : Text} {n : Nat}
    (h : scanStringFragment cp cs = (.stringChars, n)) : n = 0 := by
  unfold scanStringFragment at h
  repeat' split at h
  all_goals cases h
  rfl

/-- The fragments of a string up to its end, and what follows it, are what there is after the quote. -/
theorem scanStringLoop_covers : ∀ (fuel : Nat) (cs : Text) {fragments : List Fragment} {rest : Text},
    scanStringLoop fuel cs = some (fragments, rest) →
      fragmentsText fragments ++ rest = cs ∧ ∀ f ∈ fragments, f.Right
  | 0, _, _, _, h => by cases h
  | _ + 1, [], _, _, h => by cases h
  | fuel + 1, cp :: cs, fragments, rest, h => by
    unfold scanStringLoop at h
    split at h
    next hquote =>
      cases h
      subst hquote
      refine ⟨rfl, List.forall_mem_singleton.mpr ⟨fun text htext => ?_, List.cons_ne_nil _ _⟩⟩
      cases htext
      rfl
    next =>
      cases hstep : scanStringFragment cp cs with
      | mk code n =>
      obtain ⟨hn, hcode⟩ := scanStringFragment_le hstep
      rw [hstep] at h
      obtain ⟨⟨fragments', rest'⟩, hloop, h⟩ := Option.bind_eq_some_iff.mp h
      obtain ⟨htext, hright⟩ := scanStringLoop_covers fuel _ hloop
      dsimp only at h
      split at h
      next hchars =>
        cases h
        have hzero : n = 0 := scanStringFragment_chars (hchars ▸ hstep)
        subst hzero
        refine ⟨?_, mergeChars_right cp hright⟩
        rw [mergeChars_text, List.cons_append, htext]
        rfl
      next =>
        cases h
        refine ⟨?_, List.forall_mem_cons.mpr ⟨⟨fun text h => ?_, List.cons_ne_nil _ _⟩, hright⟩⟩
        · rw [fragmentsText_cons, List.append_assoc, htext, List.cons_append, List.take_append_drop]
        · rw [hcode] at h
          cases h

theorem scanString_covers (cs : Text) :
    fragmentsText (scanString cs).1 ++ (scanString cs).2 = '\x22' :: cs ∧ ∀ f ∈ (scanString cs).1, f.Right := by
  unfold scanString
  split
  next fragments rest hloop =>
    obtain ⟨htext, hright⟩ := scanStringLoop_covers _ _ hloop
    refine ⟨congrArg _ htext, List.forall_mem_cons.mpr ⟨⟨fun text htext => ?_, List.cons_ne_nil _ _⟩, hright⟩⟩
    cases htext
    rfl
  next =>
    refine ⟨rfl, List.forall_mem_singleton.mpr ⟨fun text htext => ?_, List.cons_ne_nil _ _⟩⟩
    cases htext

/-! ## Lines -/

/-- The fragments of a line are the line. -/
theorem scanNormal_covers : ∀ (fuel : Nat) (cs : Text) {fragments : List Fragment},
    scanNormal fuel cs = some fragments → fragmentsText fragments = cs ∧ ∀ f ∈ fragments, f.Right
  | _, [], _, h => by
    unfold scanNormal at h
    cases h
    exact ⟨rfl, fun f hf => absurd hf List.not_mem_nil⟩
  | 0, _ :: _, _, h => by cases h
  | fuel + 1, cp :: cs, fragments, h => by
    unfold scanNormal at h
    split at h
    next hquote =>
      obtain ⟨rest, hrest, h⟩ := Option.bind_eq_some_iff.mp h
      cases h
      subst hquote
      obtain ⟨htext, hright⟩ := scanNormal_covers fuel _ hrest
      obtain ⟨htext', hright'⟩ := scanString_covers cs
      refine ⟨?_, List.forall_mem_append.mpr ⟨hright', hright⟩⟩
      rw [fragmentsText_append, htext]
      exact htext'
    next =>
      obtain ⟨⟨code, n⟩, hcode, h⟩ := Option.bind_eq_some_iff.mp h
      obtain ⟨rest, hrest, h⟩ := Option.bind_eq_some_iff.mp h
      cases h
      obtain ⟨htext, hright⟩ := scanNormal_covers fuel _ hrest
      obtain ⟨_, hfixed⟩ := scanFragment_covers hcode
      refine ⟨?_, List.forall_mem_cons.mpr ⟨⟨hfixed, List.cons_ne_nil _ _⟩, hright⟩⟩
      rw [fragmentsText_cons, htext, List.cons_append, List.take_append_drop]

/-- There is no line terminator in the text. -/
def InLine (text : Text) : Prop := ∀ cp ∈ text, cp ≠ '\n' ∧ cp ≠ '\r'

theorem InLine.of_suffix {text text' : Text} (h : InLine text) (hsuffix : text' <:+ text) : InLine text' :=
  fun cp hcp => h cp (hsuffix.subset hcp)

/-- What follows a string is a part of what follows its quote. -/
theorem scanString_suffix (cs : Text) : (scanString cs).2 <:+ cs := by
  unfold scanString
  split
  next fragments rest hloop =>
    exact ⟨fragmentsText fragments, (scanStringLoop_covers _ _ hloop).1⟩
  next => exact List.suffix_rfl

/-- Every line is scanned to its end. -/
theorem scanNormal_some : ∀ (fuel : Nat) (cs : Text), InLine cs → cs.length ≤ fuel →
    ∃ fragments, scanNormal fuel cs = some fragments
  | fuel, [], _, _ => by
    unfold scanNormal
    exact ⟨[], rfl⟩
  | 0, _ :: _, _, hfuel => absurd hfuel (Nat.not_succ_le_zero _)
  | fuel + 1, cp :: cs, hline, hfuel => by
    have hcs : cs.length ≤ fuel := Nat.le_of_succ_le_succ hfuel
    have htail : InLine cs := hline.of_suffix (List.suffix_cons cp cs)
    unfold scanNormal
    split
    next =>
      have hsuffix := scanString_suffix cs
      obtain ⟨rest, hrest⟩ := scanNormal_some fuel _ (htail.of_suffix hsuffix) (hsuffix.length_le.trans hcs)
      dsimp only
      rw [hrest]
      exact ⟨_, rfl⟩
    next =>
      obtain ⟨hlf, hcr⟩ := hline cp List.mem_cons_self
      obtain ⟨r, hr⟩ : ∃ r, scanFragment cp cs = some r := scanFragment_some hlf hcr
      have hsuffix := List.drop_suffix r.2 cs
      obtain ⟨rest, hrest⟩ := scanNormal_some fuel _ (htail.of_suffix hsuffix) (hsuffix.length_le.trans hcs)
      rw [hr]
      dsimp only [Option.bind_eq_bind, Option.bind_some]
      rw [hrest]
      exact ⟨_, rfl⟩

end Nballerina.Syntax
