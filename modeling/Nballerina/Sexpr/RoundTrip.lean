import Nballerina.Sexpr.Print

/-!
# Printing and reading again

What the printer writes for a list, whatever the indenter answers, is the text of a document without
comments (`append_items`), and its data is what was printed. So the parser returns it (`parse_prettyPrint`).
-/

namespace Nballerina.Sexpr

open Nballerina.Lib Nballerina.Comm

/-- A symbol that is read as one token, and as nothing else. -/
structure IsSymbol (s : Text) : Prop where
  nonempty : s ≠ []
  chars : ∀ c ∈ s, isWS c = false ∧ c ≠ CLOSE_PAREN
  first : ∀ c ∈ s.head?, c.isDigit = false ∧ c ≠ MINUS ∧ c ≠ OPEN_PAREN ∧ c ≠ QUOTE ∧ c ≠ SEMICOLON
  not_true : s ≠ ['t', 'r', 'u', 'e']
  not_false : s ≠ ['f', 'a', 'l', 's', 'e']

/-- Data that can be written and read again. -/
inductive Readable : Data → Prop
  | symbol (s : Text) (h : IsSymbol s) : Readable (.symbol s)
  | boolean (b : Bool) : Readable (.boolean b)
  | int (n : Int) (h : -2 ^ 63 ≤ n ∧ n < 2 ^ 63) : Readable (.int n)
  | string (s : Text) : Readable (.string s)
  | list (items : List Data) (h : ∀ d ∈ items, Readable d) : Readable (.list items)

/-! ## Single tokens -/

theorem startsUnquoted_digit {c : Char} (h : c.isDigit = true) : startsUnquoted c := by
  refine ⟨?_, isDigit_ne h (by decide), isDigit_ne h (by decide), isDigit_ne h (by decide), isDigit_ne h (by decide)⟩
  cases hws : isWS c with
  | false => rfl
  | true =>
    unfold isWS at hws
    simp only [Bool.or_eq_true, decide_eq_true_eq] at hws
    rcases hws with ((rfl | rfl) | rfl) | rfl <;> revert h <;> decide

theorem not_ends_digit {c : Char} (h : c.isDigit = true) : ¬endsUnquoted c := by
  obtain ⟨hws, -, hclose, -⟩ := startsUnquoted_digit h
  rintro (hend | hend)
  · rw [hws] at hend
    cases hend
  · exact hclose hend

theorem unquotedData_symbol {c : Char} (h : startsNumber c = false) (unquoted : Text) :
    unquotedData c unquoted = .ok (symbolData unquoted) := by
  have htoken : unquotedToken c unquoted = .ok (.symbol unquoted) := by
    unfold unquotedToken
    rw [h]
    rfl
  unfold unquotedData
  rw [htoken]

/-- The token of a symbol. -/
theorem IsSymbol.unquoted {s : Text} (h : IsSymbol s) :
    ∃ u : Unquoted, u.first :: u.others = s ∧ u.data = .symbol s := by
  obtain ⟨c, cs, rfl⟩ := List.exists_cons_of_ne_nil h.nonempty
  obtain ⟨hdigit, hminus, hopen, hquote, hsemicolon⟩ := h.first c rfl
  obtain ⟨hws, hclose⟩ := h.chars c (.head _)
  have hnumber : startsNumber c = false := by
    unfold startsNumber
    rw [hdigit, decide_eq_false hminus]
    rfl
  refine ⟨{
    first := c
    others := cs
    data := .symbol (c :: cs)
    first_starts := ⟨hws, hopen, hclose, hquote, hsemicolon⟩
    others_in := ?_
    reads := ?_ }, rfl, rfl⟩
  · intro d hd hend
    obtain ⟨hdws, hdclose⟩ := h.chars d (.tail _ hd)
    rcases hend with hend | hend
    · rw [hdws] at hend
      cases hend
    · exact hdclose hend
  · rw [unquotedData_symbol hnumber, symbolData, if_neg h.not_true, if_neg h.not_false]

theorem boolean_unquoted (b : Bool) : ∃ u : Unquoted, u.first :: u.others = booleanToString b ∧ u.data = .boolean b := by
  cases b with
  | true =>
    exact ⟨{
      first := 't'
      others := ['r', 'u', 'e']
      data := .boolean true
      first_starts := by unfold startsUnquoted; decide +kernel
      others_in := by simp [endsUnquoted, isWS, CLOSE_PAREN]
      reads := unquotedData_symbol (by decide) _ }, rfl, rfl⟩
  | false =>
    exact ⟨{
      first := 'f'
      others := ['a', 'l', 's', 'e']
      data := .boolean false
      first_starts := by unfold startsUnquoted; decide +kernel
      others_in := by simp [endsUnquoted, isWS, CLOSE_PAREN]
      reads := unquotedData_symbol (by decide) _ }, rfl, rfl⟩

theorem int_unquoted {n : Int} (h : -2 ^ 63 ≤ n ∧ n < 2 ^ 63) :
    ∃ u : Unquoted, u.first :: u.others = intToString n ∧ u.data = .int n := by
  have hread := intFromString_intToString h
  obtain ⟨c, cs, hcons, hc, hcs⟩ := toDigits_cons n.natAbs
  have hdata : ∀ {first : Char} {others : Text}, startsNumber first = true → first :: others = intToString n →
      unquotedData first (first :: others) = .ok (.int n) := by
    intro first others hfirst htext
    unfold unquotedData unquotedToken
    rw [if_pos hfirst, htext, hread]
  by_cases hn : n < 0
  · have htext : MINUS :: Nat.toDigits 10 n.natAbs = intToString n := by rw [intToString, if_pos hn]
    exact ⟨{
      first := MINUS
      others := Nat.toDigits 10 n.natAbs
      data := .int n
      first_starts := by unfold startsUnquoted; decide +kernel
      others_in := fun d hd => not_ends_digit (isDigit_toDigits hd)
      reads := hdata rfl htext }, htext, rfl⟩
  · have htext : c :: cs = intToString n := by rw [intToString, if_neg hn, hcons]
    exact ⟨{
      first := c
      others := cs
      data := .int n
      first_starts := startsUnquoted_digit hc
      others_in := fun d hd => not_ends_digit (hcs d hd)
      reads := hdata (by unfold startsNumber; rw [hc]; rfl) htext }, htext, rfl⟩

theorem appendEscaped_cons (c : Char) (s : Text) : appendEscaped (c :: s) = appendEscaped [c] ++ appendEscaped s := by
  unfold appendEscaped
  rw [← List.flatMap_append]
  rfl

/-- No character of a string ends it, and each is the character it was. -/
theorem appendEscaped_spec (s : Text) : ClosedAt false (appendEscaped s) ∧ unescape (appendEscaped s) = some s := by
  induction s with
  | nil => exact ⟨rfl, rfl⟩
  | cons c s ih =>
    obtain ⟨hclosed, hunescape⟩ := ih
    rw [appendEscaped_cons]
    by_cases hbackslash : c = BACKSLASH
    · rw [hbackslash]
      refine ⟨⟨by decide, fun _ => rfl, hclosed⟩, ?_⟩
      show unescape (BACKSLASH :: BACKSLASH :: appendEscaped s) = _
      rw [unescape_escape, hunescape]
      rfl
    by_cases hlf : c = LINE_FEED
    · rw [hlf]
      refine ⟨⟨by decide, fun _ => rfl, hclosed⟩, ?_⟩
      show unescape (BACKSLASH :: 'n' :: appendEscaped s) = _
      rw [unescape_escape, hunescape]
      rfl
    by_cases hquote : c = QUOTE
    · rw [hquote]
      refine ⟨⟨by decide, fun _ => rfl, hclosed⟩, ?_⟩
      show unescape (BACKSLASH :: QUOTE :: appendEscaped s) = _
      rw [unescape_escape, hunescape]
      rfl
    · have hself : appendEscaped [c] = [c] := by
        unfold appendEscaped
        rw [List.flatMap_singleton, if_neg hbackslash, if_neg hlf, if_neg hquote]
      rw [hself, List.singleton_append]
      refine ⟨⟨fun h => absurd h hquote, ?_⟩, ?_⟩
      · rw [decide_eq_false hbackslash]
        exact hclosed
      · rw [unescape_char hbackslash, hunescape]
        rfl

theorem string_quoted (s : Text) : ∃ q : Quoted, q.chars = appendEscaped s ∧ q.value = s := by
  obtain ⟨hclosed, hunescape⟩ := appendEscaped_spec s
  refine ⟨⟨appendEscaped s, hclosed⟩, rfl, ?_⟩
  unfold Quoted.value
  rw [hunescape]
  rfl

/-! ## The printer -/

/-- Induction over the items of a list and of the lists among them. -/
theorem items_induction {Q : List Data → Prop} (nil : Q [])
    (atom : ∀ d ds, (∀ items, d ≠ .list items) → Q ds → Q (d :: ds))
    (list : ∀ inner ds, Q inner → Q ds → Q (.list inner :: ds)) (ds : List Data) : Q ds := by
  refine @Data.rec_1 (fun d => ∀ items, d = .list items → Q items) Q ?_ ?_ ?_ ?_ ?_ nil ?_ ds
  · intro s items h
    cases h
  · intro b items h
    cases h
  · intro n items h
    cases h
  · intro s items h
    cases h
  · intro items hitems inner h
    cases h
    exact hitems
  · intro d ds hd hds
    by_cases hlist : ∃ inner, d = .list inner
    · obtain ⟨inner, rfl⟩ := hlist
      exact list inner ds (hd inner rfl) hds
    · exact atom d ds (fun items h => hlist ⟨items, h⟩) hds

section
variable {σ : Type} (indentAt : Option (Indenter σ))

theorem askIndenter_buf (p : Printer σ) : (askIndenter indentAt p).2.buf = p.buf := by
  cases indentAt <;> rfl

/-- In front of a list: what is written, and the printer after it. -/
def startList (p : Printer σ) (level : Int) (space topLevel : Bool) : Printer σ :=
  let (breaks, p) := askIndenter indentAt p
  let p :=
    if breaks then (p.push [LINE_FEED]).push (List.replicate level.toNat [' ', ' ', ' ', ' ']).flatten
    else p.pushIf space [' ']
  p.pushIf (!topLevel) [OPEN_PAREN]

theorem append_list (p : Printer σ) (items : List Data) (level : Int) (space topLevel : Bool) :
    append indentAt p (.list items) level space topLevel =
      let start := startList indentAt p level space topLevel
      let last := appendItems indentAt { start with index := start.index ++ [0] } items level start.index.length false
      ({ last with index := last.index.dropLast } : Printer σ).pushIf (!topLevel) [CLOSE_PAREN] := by
  rw [append]
  dsimp only [startList]
  rw [List.length_append, List.length_singleton, Nat.add_sub_cancel]

/-! ## What is written -/

theorem pushIf_buf (p : Printer σ) (cond : Bool) (s : Text) :
    (p.pushIf cond s).buf = p.buf ++ if cond then s else [] := by
  cases cond
  · exact (List.append_nil p.buf).symm
  · rfl

def spaceGap (space : Bool) : Gap := if space then [.blank ' ' rfl] else []

theorem spaceGap_text (space : Bool) : (spaceGap space).text = if space then [' '] else [] := by cases space <;> rfl

theorem spaceGap_plain (space : Bool) : (spaceGap space).Plain := by
  cases space with
  | false => exact List.forall_mem_nil _
  | true => exact List.forall_mem_singleton.mpr rfl

theorem spaceGap_hasBlank {space : Bool} (h : space = true) : (spaceGap space).hasBlank := by
  rw [h]
  exact ⟨_, List.mem_singleton_self _, rfl⟩

/-- Whatever the indenter answers, there is nothing but white space in front of a list. -/
theorem startList_buf (p : Printer σ) (level : Int) (space topLevel : Bool) : ∃ gap : Gap, gap.Plain ∧
    (space = true → gap.hasBlank) ∧
      (startList indentAt p level space topLevel).buf = p.buf ++ (gap.text ++ if topLevel then [] else [OPEN_PAREN]) := by
  unfold startList
  dsimp only
  rw [pushIf_buf]
  have hparen : (if (!topLevel) = true then [OPEN_PAREN] else []) = if topLevel = true then [] else [OPEN_PAREN] := by
    cases topLevel <;> rfl
  rw [hparen]
  split
  · have hblank : ∀ c ∈ [LINE_FEED] ++ (List.replicate level.toNat [' ', ' ', ' ', ' ']).flatten, isWS c = true := by
      intro c hc
      rcases List.mem_append.mp hc with hc | hc
      · rw [List.mem_singleton.mp hc]
        rfl
      · obtain ⟨spaces, hspaces, hc⟩ := List.mem_flatten.mp hc
        rw [(List.mem_replicate.mp hspaces).2] at hc
        have : c = ' ' := by simpa using hc
        rw [this]
        rfl
    obtain ⟨gap, htext, hplain, hhas⟩ := Gap.exists_plain hblank
    refine ⟨gap, hplain, fun _ => hhas (List.cons_ne_nil _ _), ?_⟩
    show ((askIndenter indentAt p).2.buf ++ [LINE_FEED] ++ _) ++ _ = _
    rw [askIndenter_buf, htext, List.append_assoc p.buf, List.append_assoc p.buf]
  · refine ⟨spaceGap space, spaceGap_plain space, spaceGap_hasBlank, ?_⟩
    rw [pushIf_buf, askIndenter_buf, spaceGap_text, List.append_assoc]

/-- One item that is not a list, as a token. -/
theorem append_atom {d : Data} (hread : Readable d) (hd : ∀ items, d ≠ .list items) :
    (∃ u : Unquoted, u.data = d ∧ ∀ (p : Printer σ) level space topLevel,
      (append indentAt p d level space topLevel).buf =
        p.buf ++ ((spaceGap space).text ++ u.first :: u.others)) ∨
    ∃ q : Quoted, .string q.value = d ∧ ∀ (p : Printer σ) level space topLevel,
      (append indentAt p d level space topLevel).buf =
        p.buf ++ ((spaceGap space).text ++ QUOTE :: (q.chars ++ [QUOTE])) := by
  have htoken : ∀ (p : Printer σ) (space : Bool) (s : Text),
      ((p.pushIf space [' ']).push s).buf = p.buf ++ ((spaceGap space).text ++ s) := by
    intro p space s
    rw [spaceGap_text, ← List.append_assoc, ← pushIf_buf]
    rfl
  cases hread with
  | list items h => exact absurd rfl (hd items)
  | symbol s h =>
    obtain ⟨u, htext, hdata⟩ := h.unquoted
    exact .inl ⟨u, hdata, fun p level space topLevel => by rw [htext]; exact htoken p space s⟩
  | boolean b =>
    obtain ⟨u, htext, hdata⟩ := boolean_unquoted b
    exact .inl ⟨u, hdata, fun p level space topLevel => by rw [htext]; exact htoken p space _⟩
  | int n h =>
    obtain ⟨u, htext, hdata⟩ := int_unquoted h
    exact .inl ⟨u, hdata, fun p level space topLevel => by rw [htext]; exact htoken p space _⟩
  | string s =>
    obtain ⟨q, hchars, hvalue⟩ := string_quoted s
    refine .inr ⟨q, by rw [hvalue], fun p level space topLevel => ?_⟩
    rw [hchars]
    show ((((p.pushIf space [' ']).push [QUOTE]).push (appendEscaped s)).push [QUOTE]).buf = _
    rw [spaceGap_text, ← List.append_assoc, ← pushIf_buf]
    show (((p.pushIf space [' ']).buf ++ [QUOTE]) ++ appendEscaped s) ++ [QUOTE] = _
    rw [List.append_assoc, List.append_assoc]
    rfl

/-- The items and the closing parenthesis are written as those of a document without comments, with white space
in front of all but the first. -/
def WritesItems (ds : List Data) : Prop :=
  ∀ (p : Printer σ) (level : Int) (indexLast : Nat) (afterFirst : Bool), ∃ (items : Items) (cs : Text),
    (appendItems indentAt p ds level indexLast afterFirst).buf = p.buf ++ cs ∧
      items.text = cs ++ [CLOSE_PAREN] ∧ items.data = ds ∧ items.Separated ∧ items.Plain ∧
        (afterFirst = true → (∃ gap, items = .close gap) ∨ items.gap.hasBlank)

theorem append_list_items {inner : List Data} (h : WritesItems indentAt inner) (p : Printer σ) (level : Int)
    (space : Bool) : ∃ (gap : Gap) (items : Items), gap.Plain ∧ (space = true → gap.hasBlank) ∧
      (append indentAt p (.list inner) level space false).buf = p.buf ++ (gap.text ++ OPEN_PAREN :: items.text) ∧
        items.data = inner ∧ items.Separated ∧ items.Plain := by
  obtain ⟨gap, hblank, hhas, hstart⟩ := startList_buf indentAt p level space false
  obtain ⟨items, cs, hbuf, htext, hdata, hsep, hplain, -⟩ :=
    h { startList indentAt p level space false with index := (startList indentAt p level space false).index ++ [0] }
      level (startList indentAt p level space false).index.length false
  refine ⟨gap, items, hblank, hhas, ?_, hdata, hsep, hplain⟩
  rw [append_list]
  dsimp only
  rw [pushIf_buf]
  dsimp only
  rw [hbuf]
  dsimp only
  rw [hstart, htext]
  show ((p.buf ++ (gap.text ++ [OPEN_PAREN])) ++ cs) ++ [CLOSE_PAREN] = _
  rw [List.append_assoc, List.append_assoc, List.append_assoc, List.singleton_append]

/-- By induction on the items. -/
theorem append_items (ds : List Data) : (∀ d ∈ ds, Readable d) → WritesItems indentAt ds := by
  induction ds using items_induction with
  | nil =>
    intro _ p level indexLast afterFirst
    refine ⟨.close [], [], ?_, rfl, rfl, trivial, List.forall_mem_nil _, fun _ => .inl ⟨[], rfl⟩⟩
    rw [appendItems, List.append_nil]
  | atom d ds hd ih =>
    intro hread p level indexLast afterFirst
    obtain ⟨rest, cs, hbuf, htext, hdata, hsep, hplain, hgap⟩ :=
      ih (fun d hd => hread d (.tail _ hd))
        { append indentAt p d (level + 1) afterFirst false with
          index := (append indentAt p d (level + 1) afterFirst false).index.modify indexLast (· + 1) }
        level indexLast true
    rcases append_atom indentAt (hread d (.head _)) hd with ⟨u, hu, happend⟩ | ⟨q, hq, happend⟩
    · refine ⟨.unquoted (spaceGap afterFirst) u rest, ((spaceGap afterFirst).text ++ u.first :: u.others) ++ cs, ?_, ?_,
        ?_, ⟨hgap rfl, hsep⟩, ⟨spaceGap_plain afterFirst, hplain⟩, fun h => .inr (spaceGap_hasBlank h)⟩
      · rw [appendItems, hbuf, ← List.append_assoc, ← happend p (level + 1) afterFirst false]
      · rw [Items.text, htext, List.append_assoc, List.append_assoc, List.cons_append]
      · rw [Items.data, hu, hdata]
    · refine ⟨.quoted (spaceGap afterFirst) q rest, ((spaceGap afterFirst).text ++ QUOTE :: (q.chars ++ [QUOTE])) ++ cs,
        ?_, ?_, ?_, hsep, ⟨spaceGap_plain afterFirst, hplain⟩, fun h => .inr (spaceGap_hasBlank h)⟩
      · rw [appendItems, hbuf, ← List.append_assoc, ← happend p (level + 1) afterFirst false]
      · rw [Items.text, htext, List.append_assoc, List.append_assoc, List.cons_append, List.append_assoc,
          List.singleton_append]
      · rw [Items.data, hq, hdata]
  | list inner ds ihInner ih =>
    intro hread p level indexLast afterFirst
    have hinner : ∀ d ∈ inner, Readable d := by
      cases hread (.list inner) List.mem_cons_self with
      | list items h => exact h
    obtain ⟨gap, items, hblank, hhas, happend, hdata, hsep, hplain⟩ :=
      append_list_items indentAt (ihInner hinner) p (level + 1) afterFirst
    obtain ⟨rest, cs, hbuf, htext, hdataRest, hsepRest, hplainRest, -⟩ :=
      ih (fun d hd => hread d (.tail _ hd))
        { append indentAt p (.list inner) (level + 1) afterFirst false with
          index := (append indentAt p (.list inner) (level + 1) afterFirst false).index.modify indexLast (· + 1) }
        level indexLast true
    refine ⟨.list gap items rest, (gap.text ++ OPEN_PAREN :: items.text) ++ cs, ?_, ?_, ?_, ⟨hsep, hsepRest⟩,
      ⟨hblank, hplain, hplainRest⟩, fun h => .inr (hhas h)⟩
    · rw [appendItems, hbuf]
      dsimp only
      rw [happend, List.append_assoc p.buf]
    · rw [Items.text, htext, List.append_assoc, List.append_assoc, List.cons_append]
    · rw [Items.data, hdata, hdataRest]

/-- The lists at top level, after some white space. -/
theorem append_topLevel (lists : List (List Data)) : (∀ items ∈ lists, ∀ d ∈ items, Readable d) →
    ∀ (lead : Gap) (p : Printer σ) (level : Int) (indexLast : Nat) (afterFirst : Bool), lead.Plain →
      ∃ (doc : Document) (cs : Text),
        (appendItems indentAt p (lists.map .list) level indexLast afterFirst).buf = p.buf ++ cs ∧
          doc.text = lead.text ++ cs ∧ doc.data = lists.map .list ∧ doc.Separated ∧ doc.Plain := by
  induction lists with
  | nil =>
    intro _ lead p level indexLast afterFirst hlead
    refine ⟨.done lead, [], ?_, (List.append_nil _).symm, rfl, trivial, hlead⟩
    rw [List.map_nil, appendItems, List.append_nil]
  | cons inner lists ih =>
    intro hread lead p level indexLast afterFirst hlead
    obtain ⟨gap, items, hblank, -, happend, hdata, hsep, hplain⟩ :=
      append_list_items indentAt (append_items indentAt inner (hread inner (.head _))) p (level + 1) afterFirst
    obtain ⟨rest, cs, hbuf, htext, hdataRest, hsepRest, hplainRest⟩ :=
      ih (fun items hitems => hread items (.tail _ hitems)) []
        { append indentAt p (.list inner) (level + 1) afterFirst false with
          index := (append indentAt p (.list inner) (level + 1) afterFirst false).index.modify indexLast (· + 1) }
        level indexLast true (List.forall_mem_nil _)
    have hlead : Gap.Plain (lead ++ gap) := by
      intro filler hmem
      exact (List.mem_append.mp hmem).elim (hlead filler) (hblank filler)
    have hgap : Gap.text (lead ++ gap) = lead.text ++ gap.text := List.flatMap_append
    refine ⟨.list (lead ++ gap) items rest, (gap.text ++ OPEN_PAREN :: items.text) ++ cs, ?_, ?_, ?_, ⟨hsep, hsepRest⟩,
      ⟨hlead, hplain, hplainRest⟩⟩
    · rw [List.map_cons, appendItems, hbuf]
      dsimp only
      rw [happend, List.append_assoc p.buf]
    · rw [Document.text, htext, hgap, List.append_assoc, List.append_assoc, List.cons_append]
      rfl
    · rw [Document.data, hdata, hdataRest, List.map_cons]

/-- The text of a document without comments that has the lists. -/
theorem prettyPrint_document {lists : List (List Data)} (h : ∀ items ∈ lists, ∀ d ∈ items, Readable d) (own : σ) :
    ∃ doc : Document, doc.text = prettyPrint (lists.map .list) indentAt own ∧ doc.data = lists.map .list ∧
      doc.Separated ∧ doc.Plain := by
  obtain ⟨lead, hlead, -, hstart⟩ :=
    startList_buf indentAt { buf := [], index := [], own := own } (-1) false true
  obtain ⟨doc, cs, hbuf, htext, hdata, hsep, hplain⟩ := append_topLevel indentAt lists h lead
    { startList indentAt { buf := [], index := [], own := own } (-1) false true with
      index := (startList indentAt { buf := [], index := [], own := own } (-1) false true).index ++ [0] }
    (-1) (startList indentAt { buf := [], index := [], own := own } (-1) false true).index.length false hlead
  refine ⟨doc, ?_, hdata, hsep, hplain⟩
  unfold prettyPrint
  rw [append_list]
  dsimp only
  rw [pushIf_buf]
  dsimp only
  rw [hbuf]
  dsimp only
  rw [hstart, htext]
  show lead.text ++ cs = (([] ++ (lead.text ++ [])) ++ cs) ++ []
  rw [List.append_nil, List.append_nil, List.nil_append]

/-- What is printed is read again, wherever the indenter breaks the lines. -/
theorem parse_prettyPrint (lists : List (List Data)) (h : ∀ items ∈ lists, ∀ d ∈ items, Readable d) (own : σ) :
    parse (prettyPrint (lists.map .list) indentAt own) = .ok (lists.map .list) := by
  obtain ⟨doc, htext, hdata, hsep, hplain⟩ := prettyPrint_document indentAt h own
  rw [← htext, ← hdata]
  exact parse_document hsep hplain.commentsApart hplain.leadQuiet hplain.tailQuiet

end

/-- An indenter that breaks at every other list it is asked about. -/
theorem parse_prettyPrint_nested :
    parse (prettyPrint
      ([[.symbol ['a', SEMICOLON], .list [.string [BACKSLASH, QUOTE, LINE_FEED], .list []], .int (-5)],
        [.boolean true]].map .list)
      (some fun (n : Nat) _ => (n % 2 = 1, n + 1)) 0) =
    .ok ([[.symbol ['a', SEMICOLON], .list [.string [BACKSLASH, QUOTE, LINE_FEED], .list []], .int (-5)],
      [.boolean true]].map .list) := by
  refine parse_prettyPrint _ _ ?_ 0
  have hsymbol : Readable (.symbol ['a', SEMICOLON]) := by
    refine .symbol _ ⟨by decide, ?_, ?_, by decide, by decide⟩
    · simp [isWS, SEMICOLON, CLOSE_PAREN]
    · simp [Char.isDigit, MINUS, OPEN_PAREN, QUOTE, SEMICOLON]
  have hstring : Readable (.list [.string [BACKSLASH, QUOTE, LINE_FEED], .list []]) :=
    .list _ (List.forall_mem_cons.mpr
      ⟨.string _, List.forall_mem_singleton.mpr (.list _ (List.forall_mem_nil _))⟩)
  refine List.forall_mem_cons.mpr ⟨?_, List.forall_mem_singleton.mpr ?_⟩
  · exact List.forall_mem_cons.mpr ⟨hsymbol, List.forall_mem_cons.mpr
      ⟨hstring, List.forall_mem_singleton.mpr (.int _ (by omega))⟩⟩
  · exact List.forall_mem_singleton.mpr (.boolean true)

end Nballerina.Sexpr
