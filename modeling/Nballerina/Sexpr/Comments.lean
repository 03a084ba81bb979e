import Nballerina.Sexpr.RoundTrip

/-!
# Comments

The parser does not read every text as if the comments were not there. A comment directly after another one
in a list is read as a symbol, and one directly after a symbol or a number as a part of it; between the
lists at top level a comment is not a comment at all, and an opening parenthesis in it opens a list. Without
such comments nothing is lost, and with one of the first two kinds, or the last after all lists, the data
always differs (`parse_erase_iff`).
-/

namespace Nballerina.Sexpr

open Nballerina.Lib Nballerina.Comm

/-! ## What has been read stays -/

theorem parseListLoop_extends (fuel : Nat) : ∀ {cs : Text} {result : List Data} {d : Data} {rest : Text},
    parseListLoop fuel cs result = .ok (d, rest) → ∃ more, d = .list (result ++ more) := by
  induction fuel with
  | zero =>
    intro cs result d rest h
    cases h
  | succ fuel ih =>
    intro cs result d rest h
    have hpush : ∀ {item : Data} {after : Text}, parseListLoop fuel after (result ++ [item]) = .ok (d, rest) →
        ∃ more, d = .list (result ++ more) := by
      intro item after h
      obtain ⟨more, hd⟩ := ih h
      exact ⟨[item] ++ more, by rw [hd, List.append_assoc]⟩
    cases hnext : next cs with
    | error e =>
      rw [parseListLoop, hnext] at h
      cases h
    | ok p =>
      rw [parseListLoop, hnext] at h
      obtain ⟨token, after⟩ := p
      cases token with
      | openParen =>
        dsimp only at h
        cases hinner : parseListLoop fuel after [] with
        | error e =>
          rw [hinner] at h
          cases h
        | ok p =>
          rw [hinner] at h
          exact hpush h
      | closeParen =>
        cases h
        exact ⟨[], by rw [List.append_nil]⟩
      | symbol s => exact hpush h
      | string s => exact hpush h
      | int n => exact hpush h

theorem parseLoop_extends (fuel : Nat) : ∀ {cs : Text} {topLevel ds : List Data},
    parseLoop fuel cs topLevel = .ok ds → ∃ more, ds = topLevel ++ more := by
  induction fuel with
  | zero =>
    intro cs topLevel ds h
    cases h
  | succ fuel ih =>
    intro cs topLevel ds h
    rw [parseLoop] at h
    split at h
    · cases h
      exact ⟨[], by rw [List.append_nil]⟩
    · split at h
      · cases h
      next data rest hdata =>
      obtain ⟨more, hds⟩ := ih h
      exact ⟨[data] ++ more, by rw [hds, List.append_assoc]⟩

/-! ## A comment read as a symbol -/

/-- After a comment, or in front of it, the second of two comments is where the token starts. -/
theorem gap_start_semicolon (gap : Gap) (after : Text) :
    (¬gap.Apart → ∃ more, tokenStart (gap.text ++ after) = some (SEMICOLON, more)) ∧
      (gap.startsWithComment ∨ ¬gap.Apart → ∃ more, afterComment (gap.text ++ after) = some (SEMICOLON, more)) := by
  induction gap with
  | nil =>
    refine ⟨fun h => absurd trivial h, ?_⟩
    rintro (⟨filler, hmem, -⟩ | h)
    · cases hmem
    · exact absurd trivial h
  | cons filler gap ih =>
    rw [Gap.text_cons, List.append_assoc]
    cases filler with
    | blank c hc =>
      have hrest : ¬Gap.Apart (.blank c hc :: gap) → ¬Gap.Apart gap := by
        intro h hapart
        exact h ⟨Bool.noConfusion, hapart⟩
      constructor
      · intro h
        show ∃ more, tokenStart (c :: (Gap.text gap ++ after)) = _
        rw [tokenStart_blank hc]
        exact ih.1 (hrest h)
      · rintro (⟨filler, hmem, hcomment⟩ | h)
        · cases hmem
          cases hcomment
        · show ∃ more, afterComment (c :: (Gap.text gap ++ after)) = _
          rw [afterComment, if_pos hc]
          exact ih.1 (hrest h)
    | comment cs hcs =>
      constructor
      · intro h
        have hrest : Gap.startsWithComment gap ∨ ¬Gap.Apart gap := by
          by_cases hstart : Gap.startsWithComment gap
          · exact .inl hstart
          · exact .inr fun hapart => h ⟨fun _ => hstart, hapart⟩
        show ∃ more, tokenStart (SEMICOLON :: ((cs ++ [LINE_FEED]) ++ (Gap.text gap ++ after))) = _
        rw [List.append_assoc, List.singleton_append, tokenStart_comment hcs]
        exact ih.2 hrest
      · intro _
        exact ⟨_, afterComment_char (by decide) _⟩

variable {cs rest : Text}

theorem unquotedLoop_extends : ∀ {unquoted chars rest : Text},
    unquotedLoop unquoted cs = some (chars, rest) → ∃ more, chars = unquoted ++ more := by
  induction cs with
  | nil =>
    intro unquoted chars rest h
    cases h
  | cons u cs ih =>
    intro unquoted chars rest h
    unfold unquotedLoop at h
    split at h
    · cases h
      exact ⟨[], by rw [List.append_nil]⟩
    · obtain ⟨more, hchars⟩ := ih h
      exact ⟨[u] ++ more, by rw [hchars, List.append_assoc]⟩

theorem next_semicolon {more : Text} {token : Token} (hstart : tokenStart cs = some (SEMICOLON, more))
    (h : next cs = .ok (token, rest)) : ∃ s, token = .symbol (SEMICOLON :: s) := by
  rw [next, hstart] at h
  dsimp only at h
  rw [if_neg (by decide), if_neg (by decide), if_neg (by decide)] at h
  split at h
  · cases h
  next unquoted after hunquoted =>
  obtain ⟨s, hs⟩ := unquotedLoop_extends hunquoted
  have htoken : unquotedToken SEMICOLON unquoted = .ok (.symbol unquoted) := if_neg (by decide)
  rw [htoken] at h
  cases h
  exact ⟨s, by rw [hs, List.singleton_append]⟩

theorem symbolData_semicolon {s : Text} (h : SEMICOLON ∈ s) : symbolData s = .symbol s := by
  have htrue : s ≠ ['t', 'r', 'u', 'e'] := by
    intro hs
    rw [hs] at h
    revert h
    decide
  have hfalse : s ≠ ['f', 'a', 'l', 's', 'e'] := by
    intro hs
    rw [hs] at h
    revert h
    decide
  rw [symbolData, if_neg htrue, if_neg hfalse]

/-- No item of a text is a symbol that starts as a comment does. -/
theorem Items.data_ne_semicolon (items : Items) (s : Text) (ds : List Data) :
    items.data ≠ .symbol (SEMICOLON :: s) :: ds := by
  intro h
  cases items with
  | close gap => cases h
  | quoted gap q rest => cases h
  | list gap inner rest => cases h
  | unquoted gap u rest =>
    have hdata : u.data = .symbol (SEMICOLON :: s) := (List.cons.inj h).1
    have hreads := u.reads
    rw [hdata] at hreads
    unfold unquotedData unquotedToken at hreads
    cases hnumber : startsNumber u.first with
    | true =>
      rw [hnumber, if_pos rfl] at hreads
      cases hint : intFromString (u.first :: u.others) with
      | none =>
        rw [hint] at hreads
        cases hreads
      | some n =>
        rw [hint] at hreads
        cases hreads
    | false =>
      rw [hnumber] at hreads
      have hsymbol : symbolData (u.first :: u.others) = .symbol (SEMICOLON :: s) := Except.ok.inj hreads
      have hfirst : u.first :: u.others = SEMICOLON :: s := by
        unfold symbolData at hsymbol
        split at hsymbol
        · cases hsymbol
        split at hsymbol
        · cases hsymbol
        · exact Data.symbol.inj hsymbol
      exact u.first_starts.2.2.2.2 (List.cons.inj hfirst).1

/-- Two comments of a gap that are not apart give an item that no text has there. -/
theorem gap_differs (items : Items) (hgap : ¬items.gap.Apart) {fuel : Nat} {result : List Data}
    {after : Text} {d : Data} (h : parseListLoop fuel (items.text ++ after) result = .ok (d, rest)) :
    d ≠ .list (result ++ items.data) := by
  obtain ⟨more, htext⟩ := items.text_gap
  obtain ⟨start, hstart⟩ := (gap_start_semicolon items.gap (more ++ after)).1 hgap
  rw [← List.append_assoc, ← htext] at hstart
  cases fuel with
  | zero => cases h
  | succ fuel =>
    rw [parseListLoop] at h
    cases hnext : next (items.text ++ after) with
    | error e =>
      rw [hnext] at h
      cases h
    | ok p =>
      rw [hnext] at h
      obtain ⟨token, last⟩ := p
      obtain ⟨s, rfl⟩ := next_semicolon hstart hnext
      obtain ⟨tail, hd⟩ := parseListLoop_extends fuel h
      rw [symbolData_semicolon (.head _), List.append_assoc] at hd
      intro heq
      rw [hd] at heq
      exact items.data_ne_semicolon s tail (List.append_cancel_left (Data.list.inj heq)).symm

/-! ## A comment read as a part of a symbol or a number -/

theorem mapM_digit_none (h : SEMICOLON ∈ cs) : cs.mapM digitFromString = none := by
  induction cs with
  | nil => cases h
  | cons c cs ih =>
    rw [List.mapM_cons]
    rcases List.mem_cons.mp h with rfl | h
    · rfl
    · rw [ih h]
      cases digitFromString c <;> rfl

/-- A sign at the start does not take the semicolon away. -/
theorem intFromString_semicolon (cs others : Text) : intFromString (cs ++ SEMICOLON :: others) = none := by
  have hmem : SEMICOLON ∈ (if (cs ++ SEMICOLON :: others)[0]? = some '-' ∨ (cs ++ SEMICOLON :: others)[0]? = some '+' then
      (cs ++ SEMICOLON :: others).drop 1 else cs ++ SEMICOLON :: others) := by
    split
    · next hsign =>
      cases cs with
      | nil =>
        have hne : ¬(some SEMICOLON = some '-' ∨ some SEMICOLON = some '+') := by decide
        exact absurd hsign hne
      | cons c cs => exact List.mem_append_right cs (.head _)
    · exact List.mem_append_right cs (.head _)
  unfold intFromString
  dsimp only
  rw [mapM_digit_none hmem, if_neg (List.ne_nil_of_mem hmem)]
  rfl

/-- What a symbol or a number becomes with more characters, the first of them a semicolon. -/
theorem unquotedData_semicolon (u : Unquoted) (others : Text) :
    unquotedData u.first (u.first :: (u.others ++ SEMICOLON :: others)) ≠ .ok u.data := by
  have hreads := u.reads
  unfold unquotedData unquotedToken at hreads ⊢
  cases hnumber : startsNumber u.first with
  | true =>
    rw [if_pos rfl, ← List.cons_append, intFromString_semicolon]
    exact fun h => by cases h
  | false =>
    rw [hnumber] at hreads
    have hsymbol : symbolData (u.first :: u.others) = u.data := Except.ok.inj hreads
    have hmem : SEMICOLON ∈ u.first :: (u.others ++ SEMICOLON :: others) :=
      .tail _ (List.mem_append_right _ (.head _))
    show Except.ok (symbolData (u.first :: (u.others ++ SEMICOLON :: others))) ≠ _
    rw [symbolData_semicolon hmem, ← hsymbol]
    intro h
    have h : Data.symbol (u.first :: (u.others ++ SEMICOLON :: others)) = symbolData (u.first :: u.others) :=
      Except.ok.inj h
    unfold symbolData at h
    split at h
    · cases h
    split at h
    · cases h
    · have hlen := congrArg List.length (Data.symbol.inj h)
      rw [List.length_cons, List.length_append, List.length_cons, List.length_cons] at hlen
      omega

theorem unquotedLoop_append (after : Text) : ∀ (unquoted : Text), (∀ c ∈ cs, ¬endsUnquoted c) →
    unquotedLoop unquoted (cs ++ after) = unquotedLoop (unquoted ++ cs) after := by
  induction cs with
  | nil =>
    intro unquoted _
    rw [List.nil_append, List.append_nil]
  | cons c cs ih =>
    intro unquoted h
    have hc : ¬(isWS c = true ∨ c = CLOSE_PAREN) := h c (.head _)
    rw [List.cons_append, unquotedLoop, if_neg hc, ih _ fun d hd => h d (.tail _ hd),
      List.append_assoc, List.singleton_append]

/-- A comment directly after a symbol or a number gives another item. -/
theorem unquoted_differs {gap : Gap} (hapart : gap.Apart) (u : Unquoted) (more : Text) {fuel : Nat}
    {result : List Data} {d : Data}
    (h : parseListLoop fuel (gap.text ++ u.first :: (u.others ++ SEMICOLON :: more)) result = .ok (d, rest))
    (ds : List Data) : d ≠ .list (result ++ u.data :: ds) := by
  obtain ⟨hws, hopen, hclose, hquote, hsemicolon⟩ := u.first_starts
  have hloop : unquotedLoop [u.first] (u.others ++ SEMICOLON :: more) =
      unquotedLoop (u.first :: (u.others ++ [SEMICOLON])) more := by
    rw [unquotedLoop_append _ _ u.others_in, unquotedLoop, if_neg (by decide), List.singleton_append, List.cons_append]
  cases fuel with
  | zero => cases h
  | succ fuel =>
    rw [parseListLoop, next, (gap_start gap hws _).1 hapart hsemicolon] at h
    dsimp only at h
    rw [if_neg hopen, if_neg hclose, if_neg hquote, hloop] at h
    cases hunquoted : unquotedLoop (u.first :: (u.others ++ [SEMICOLON])) more with
    | none =>
      rw [hunquoted] at h
      cases h
    | some p =>
      obtain ⟨unquoted, after⟩ := p
      obtain ⟨others, hothers⟩ := unquotedLoop_extends hunquoted
      have htext : unquoted = u.first :: (u.others ++ SEMICOLON :: others) := by
        rw [hothers, List.cons_append, List.append_assoc, List.singleton_append]
      have hne := unquotedData_semicolon u others
      rw [← htext] at hne
      unfold unquotedData at hne
      rw [hunquoted] at h
      dsimp only at h
      cases htoken : unquotedToken u.first unquoted with
      | error e =>
        rw [htoken] at h
        cases h
      | ok token =>
        rw [htoken] at h hne
        have hitem : ∀ {item : Data}, .ok item ≠ (Except.ok u.data : Except Failure Data) →
            parseListLoop fuel after (result ++ [item]) = .ok (d, rest) → d ≠ .list (result ++ u.data :: ds) := by
          intro item hitem h heq
          obtain ⟨tail, hd⟩ := parseListLoop_extends fuel h
          rw [hd, List.append_assoc] at heq
          exact hitem (congrArg _ (List.cons.inj (List.append_cancel_left (Data.list.inj heq))).1)
        unfold unquotedToken at htoken
        split at htoken
        · split at htoken
          · cases htoken
            exact hitem hne h
          · cases htoken
        · cases htoken
          exact hitem hne h

/-! ## Which texts are read as without their comments -/

theorem startsWithComment_text {items : Items} (h : items.gap.startsWithComment) :
    ∃ more, items.text = SEMICOLON :: more := by
  obtain ⟨more, htext⟩ := items.text_gap
  obtain ⟨filler, hmem, hcomment⟩ := h
  obtain ⟨gap, hgap⟩ := List.head?_eq_some_iff.mp hmem
  rw [hgap, Gap.text_cons, List.append_assoc] at htext
  cases filler with
  | blank c hc => cases hcomment
  | comment cs hcs => exact ⟨_, htext⟩

/-- By induction on the items: the first comment that is not stepped over gives another item. -/
theorem items_differ (items : Items) : items.Separated → ¬items.CommentsApart →
    ∀ (fuel : Nat) (result : List Data) (after rest : Text) (d : Data), items.text.length ≤ fuel →
      parseListLoop fuel (items.text ++ after) result = .ok (d, rest) → d ≠ .list (result ++ items.data) := by
  induction items with
  | close gap =>
    intro _ hapart fuel result after last d _ h
    exact gap_differs (.close gap) hapart h
  | quoted gap q rest ih =>
    intro hsep hapart fuel result after last d hfuel h
    by_cases hgap : gap.Apart
    · rw [Items.text, List.length_append, List.length_cons, List.length_append, List.length_cons] at hfuel
      obtain ⟨fuel, rfl⟩ := Nat.exists_eq_add_of_le' (show 1 ≤ fuel by omega)
      rw [Items.text, List.append_assoc, List.cons_append, List.append_assoc, List.cons_append, parseListLoop,
        next_quoted hgap] at h
      have := ih hsep (fun hrest => hapart ⟨hgap, hrest⟩) fuel _ after last d (by omega) h
      rw [List.append_assoc] at this
      exact this
    · exact gap_differs (.quoted gap q rest) hgap h
  | unquoted gap u rest ih =>
    intro hsep hapart fuel result after last d hfuel h
    by_cases hgap : gap.Apart
    · by_cases hstart : rest.gap.startsWithComment
      · obtain ⟨more, htext⟩ := startsWithComment_text hstart
        rw [Items.text, htext, List.append_assoc, List.cons_append, List.append_assoc, List.cons_append] at h
        exact unquoted_differs hgap u (more ++ after) h rest.data
      · obtain ⟨e, more, htext, he⟩ := Items.text_ends hsep.1 hstart
        rw [Items.text, List.length_append, List.length_cons, List.length_append] at hfuel
        obtain ⟨fuel, rfl⟩ := Nat.exists_eq_add_of_le' (show 1 ≤ fuel by omega)
        have hrest : rest.text ++ after = e :: (more ++ after) := by rw [htext, List.cons_append]
        have hnext := next_unquoted hgap (more ++ after) u.first_starts u.others_in he
        rw [← hrest] at hnext
        rw [Items.text, List.append_assoc, List.cons_append, List.append_assoc,
          parseListLoop_unquoted fuel result hnext] at h
        have := ih hsep.2 (fun hrest => hapart ⟨hgap, hstart, hrest⟩) fuel _ after last d (by omega) h
        rw [List.append_assoc] at this
        exact this
    · exact gap_differs (.unquoted gap u rest) hgap h
  | list gap inner rest ihInner ihRest =>
    intro hsep hapart fuel result after last d hfuel h
    by_cases hgap : gap.Apart
    · rw [Items.text, List.length_append, List.length_cons, List.length_append] at hfuel
      obtain ⟨fuel, rfl⟩ := Nat.exists_eq_add_of_le' (show 1 ≤ fuel by omega)
      rw [Items.text, List.append_assoc, List.cons_append, List.append_assoc, parseListLoop, next_open hgap] at h
      dsimp only at h
      by_cases hinner : inner.CommentsApart
      · rw [parseListLoop_items inner hsep.1 hinner fuel [] (rest.text ++ after) (by omega)] at h
        have := ihRest hsep.2 (fun hrest => hapart ⟨hgap, hinner, hrest⟩) fuel _ after last d (by omega) h
        rw [List.append_assoc] at this
        exact this
      · cases hlist : parseListLoop fuel (inner.text ++ (rest.text ++ after)) [] with
        | error e =>
          rw [hlist] at h
          cases h
        | ok p =>
          obtain ⟨item, next⟩ := p
          rw [hlist] at h
          have hne := ihInner hsep.1 hinner fuel [] _ next item (by omega) hlist
          obtain ⟨tail, hd⟩ := parseListLoop_extends fuel h
          intro heq
          rw [hd, List.append_assoc] at heq
          exact hne (List.cons.inj (List.append_cancel_left (Data.list.inj heq))).1
    · exact gap_differs (.list gap inner rest) hgap h

theorem hasNext_of_mem (h : OPEN_PAREN ∈ cs) : ∃ rest, hasNext cs = some rest := by
  induction cs with
  | nil => cases h
  | cons c cs ih =>
    by_cases hc : c = OPEN_PAREN
    · exact ⟨cs, if_pos hc⟩
    · obtain ⟨rest, hrest⟩ := ih ((List.mem_cons.mp h).resolve_left (Ne.symm hc))
      exact ⟨rest, by rw [hasNext, if_neg hc, hrest]⟩

/-- By induction on the lists, with another list in place of the first that is not read as it is, or one list
too many at the end. -/
theorem document_differs (d : Document) : d.Separated → d.LeadQuiet → ¬(d.CommentsApart ∧ d.TailQuiet) →
    ∀ (fuel : Nat) (topLevel : List Data), d.text.length < fuel →
      parseLoop fuel d.text topLevel ≠ .ok (topLevel ++ d.data) := by
  induction d with
  | done gap =>
    intro _ _ hbad fuel topLevel hfuel h
    obtain ⟨fuel, rfl⟩ := Nat.exists_eq_add_of_le' (show 1 ≤ fuel by omega)
    have hmem : OPEN_PAREN ∈ gap.text := Classical.byContradiction fun hquiet => hbad ⟨trivial, hquiet⟩
    obtain ⟨rest, hrest⟩ := hasNext_of_mem hmem
    rw [parseLoop, Document.text, hrest] at h
    dsimp only at h
    split at h
    · cases h
    · obtain ⟨more, hds⟩ := parseLoop_extends fuel h
      have hlen := congrArg List.length hds
      rw [Document.data, List.append_nil, List.length_append, List.length_append, List.length_singleton] at hlen
      omega
  | list gap inner rest ih =>
    intro hsep hlead hbad fuel topLevel hfuel h
    rw [Document.text, List.length_append, List.length_cons, List.length_append] at hfuel
    obtain ⟨fuel, rfl⟩ := Nat.exists_eq_add_of_le' (show 1 ≤ fuel by omega)
    rw [parseLoop, Document.text, hasNext_some hlead.1] at h
    dsimp only at h
    rw [parseList] at h
    by_cases hinner : inner.CommentsApart
    · rw [parseListLoop_items inner hsep.1 hinner fuel [] rest.text (by omega)] at h
      refine ih hsep.2 hlead.2 (fun hrest => hbad ⟨⟨hinner, hrest.1⟩, hrest.2⟩) fuel (topLevel ++ [.list inner.data])
        (by omega) ?_
      rw [List.append_assoc]
      exact h
    · cases hlist : parseListLoop fuel (inner.text ++ rest.text) [] with
      | error e =>
        rw [hlist] at h
        cases h
      | ok p =>
        obtain ⟨item, next⟩ := p
        rw [hlist] at h
        have hne := items_differ inner hsep.1 hinner fuel [] rest.text next item (by omega) hlist
        obtain ⟨more, hds⟩ := parseLoop_extends fuel h
        rw [List.append_assoc] at hds
        exact hne (List.cons.inj (List.append_cancel_left hds)).1.symm

theorem parse_erase {d : Document} (hsep : d.Separated) : parse d.erase.text = .ok d.data := by
  have hplain := d.erase_plain
  rw [parse_document hsep.erase hplain.commentsApart hplain.leadQuiet hplain.tailQuiet, d.erase_data]

/-- As long as no comment in front of a list has an opening parenthesis. -/
theorem parse_erase_iff (d : Document) (hsep : d.Separated) (hlead : d.LeadQuiet) :
    parse d.text = parse d.erase.text ↔ d.CommentsApart ∧ d.TailQuiet := by
  rw [parse_erase hsep]
  constructor
  · intro h
    refine Classical.byContradiction fun hbad => ?_
    exact document_differs d hsep hlead hbad _ [] (Nat.lt_succ_self _) h
  · exact fun h => parse_document hsep h.1 hlead h.2

def digitOne : Unquoted where
  first := '1'
  others := []
  data := .int 1
  first_starts := by unfold startsUnquoted; decide
  others_in := List.forall_mem_nil _
  reads := rfl

def commentA : Filler := .comment ['a'] (by decide)

def commentB : Filler := .comment ['b'] (by decide)

/-- A comment in front of the list and two in it, with a line feed between them. -/
def commentsApart : Document :=
  .list [commentA] (.unquoted [commentA, .blank LINE_FEED rfl, commentB] digitOne (.close [])) (.done [])

theorem parse_commentsApart : parse commentsApart.text = parse commentsApart.erase.text := by
  have hapart : Gap.Apart [commentA, .blank LINE_FEED rfl, commentB] := by
    refine ⟨fun _ => ?_, Bool.noConfusion, fun _ => ?_, trivial⟩
    · rintro ⟨filler, hmem, hcomment⟩
      cases hmem
      cases hcomment
    · rintro ⟨filler, hmem, -⟩
      cases hmem
  have hend : ¬Gap.startsWithComment [] := by
    rintro ⟨filler, hmem, -⟩
    cases hmem
  exact (parse_erase_iff commentsApart ⟨⟨.inl ⟨[], rfl⟩, trivial⟩, trivial⟩ ⟨by decide, trivial⟩).mpr
    ⟨⟨⟨hapart, hend, trivial⟩, trivial⟩, List.not_mem_nil⟩

/-- The list of one int, with a comment in it that follows another one: what `parse` returns has the symbol `;b`
in front of the int. -/
def commentAfterComment : Document := .list [] (.unquoted [commentA, commentB] digitOne (.close [])) (.done [])

theorem not_parse_erase : ¬∀ d : Document, d.Separated → parse d.text = parse d.erase.text := by
  intro h
  have hsep : commentAfterComment.Separated := ⟨⟨.inl ⟨[], rfl⟩, trivial⟩, trivial⟩
  have heq := h commentAfterComment hsep
  rw [parse_erase hsep] at heq
  refine document_differs commentAfterComment hsep ⟨by decide, trivial⟩ ?_ _ [] (Nat.lt_succ_self _) heq
  rintro ⟨⟨⟨⟨hapart, -⟩, -⟩, -⟩, -⟩
  exact hapart rfl ⟨commentB, rfl, rfl⟩

end Nballerina.Sexpr
