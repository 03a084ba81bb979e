import Nballerina.Sexpr.Parse

/-!
# Texts of s-expressions

A text is written here as its tokens with what stands between them, white space and comments; `text` puts
them together, `data` says what they stand for. `parse` returns the data of a text with no comment that it
cannot step over (`parse_document`).
-/

namespace Nballerina.Sexpr

open Nballerina.Lib Nballerina.Comm

/-! ## White space and comments -/

/-- A piece of what stands between two tokens. -/
inductive Filler where
  | blank (c : Char) (h : isWS c = true)
  | comment (cs : Text) (h : LINE_FEED ∉ cs)

namespace Filler

def text : Filler → Text
  | blank c _ => [c]
  | comment cs _ => SEMICOLON :: (cs ++ [LINE_FEED])

def isComment : Filler → Bool
  | blank _ _ => false
  | comment _ _ => true

end Filler

abbrev Gap := List Filler

namespace Gap

def text (gap : Gap) : Text := gap.flatMap Filler.text

theorem text_cons (filler : Filler) (gap : Gap) : Gap.text (filler :: gap) = filler.text ++ gap.text :=
  List.flatMap_cons

/-- Without the comments. -/
def erase (gap : Gap) : Gap := gap.filter fun filler => !filler.isComment

def hasBlank (gap : Gap) : Prop := ∃ filler ∈ gap, filler.isComment = false

def startsWithComment (gap : Gap) : Prop := ∃ filler ∈ gap.head?, filler.isComment = true

/-- No comment follows another one directly. -/
def Apart : Gap → Prop
  | [] => True
  | filler :: gap => (filler.isComment = true → ¬startsWithComment gap) ∧ Apart gap

theorem hasBlank_erase (gap : Gap) : gap.erase.hasBlank ↔ gap.hasBlank := by
  unfold hasBlank erase
  constructor
  · rintro ⟨filler, hmem, h⟩
    exact ⟨filler, (List.mem_filter.mp hmem).1, h⟩
  · rintro ⟨filler, hmem, h⟩
    exact ⟨filler, List.mem_filter.mpr ⟨hmem, by rw [h]; rfl⟩, h⟩

/-- Without comments. -/
def Plain (gap : Gap) : Prop := ∀ filler ∈ gap, filler.isComment = false

theorem erase_plain (gap : Gap) : gap.erase.Plain := by
  intro filler h
  have hfilter := (List.mem_filter.mp h).2
  cases hc : filler.isComment with
  | false => rfl
  | true =>
    rw [hc] at hfilter
    cases hfilter

theorem Plain.isWS {gap : Gap} (h : gap.Plain) {c : Char} (hc : c ∈ gap.text) : isWS c = true := by
  obtain ⟨filler, hmem, hin⟩ := List.mem_flatMap.mp hc
  have hblank := h filler hmem
  cases filler with
  | blank d hd =>
    rw [List.mem_singleton.mp hin]
    exact hd
  | comment cs hcs => cases hblank

theorem Plain.quiet {gap : Gap} (h : gap.Plain) : OPEN_PAREN ∉ gap.text := by
  intro hmem
  have := h.isWS hmem
  revert this
  decide

theorem Plain.not_startsWithComment {gap : Gap} (h : gap.Plain) : ¬gap.startsWithComment := by
  rintro ⟨filler, hmem, hc⟩
  rw [h filler (List.mem_of_mem_head? hmem)] at hc
  cases hc

theorem Plain.apart {gap : Gap} : gap.Plain → gap.Apart := by
  induction gap with
  | nil => exact fun _ => trivial
  | cons filler gap ih =>
    intro h
    refine ⟨fun hc => ?_, ih fun filler hmem => h filler (.tail _ hmem)⟩
    rw [h filler (.head _)] at hc
    cases hc

/-- White space is a gap. -/
theorem exists_plain {cs : Text} : (∀ c ∈ cs, Sexpr.isWS c = true) →
    ∃ gap : Gap, gap.text = cs ∧ gap.Plain ∧ (cs ≠ [] → gap.hasBlank) := by
  induction cs with
  | nil => exact fun _ => ⟨[], rfl, List.forall_mem_nil _, fun h => absurd rfl h⟩
  | cons c cs ih =>
    intro h
    obtain ⟨gap, htext, hplain, -⟩ := ih fun d hd => h d (.tail _ hd)
    refine ⟨.blank c (h c (.head _)) :: gap, ?_, ?_, fun _ => ⟨_, .head _, rfl⟩⟩
    · rw [text_cons, htext]
      rfl
    · intro filler hmem
      rcases List.mem_cons.mp hmem with rfl | hmem
      · rfl
      · exact hplain filler hmem

end Gap

/-! ## Tokens of one item -/

/-- What `parseList` makes of the characters of a symbol or a number. -/
def unquotedData (c : Char) (unquoted : Text) : Except Failure Data :=
  match unquotedToken c unquoted with
  | .ok (.symbol s) => .ok (symbolData s)
  | .ok (.int n) => .ok (.int n)
  | .ok _ => .error .notInt
  | .error e => .error e

/-- The characters `c` starts a symbol or a number with. -/
def startsUnquoted (c : Char) : Prop :=
  isWS c = false ∧ c ≠ OPEN_PAREN ∧ c ≠ CLOSE_PAREN ∧ c ≠ QUOTE ∧ c ≠ SEMICOLON

def endsUnquoted (c : Char) : Prop := isWS c = true ∨ c = CLOSE_PAREN

/-- A symbol, a boolean or a number. -/
structure Unquoted where
  first : Char
  others : Text
  data : Data
  first_starts : startsUnquoted first
  others_in : ∀ c ∈ others, ¬endsUnquoted c
  reads : unquotedData first (first :: others) = .ok data

/-- Whether the characters between two quotes end before the second one. -/
def ClosedAt : Bool → Text → Prop
  | escaped, [] => escaped = false
  | escaped, c :: cs => (c = QUOTE → escaped = true) ∧ ClosedAt (c = BACKSLASH && !escaped) cs

/-- A string, by the characters between its quotes. -/
structure Quoted where
  chars : Text
  closed : ClosedAt false chars

theorem unescape_escape (c : Char) (rest : Text) :
    unescape (BACKSLASH :: c :: rest) = (unescape rest).map ((if c = 'n' then LINE_FEED else c) :: ·) := rfl

theorem unescape_char {c : Char} (h : c ≠ BACKSLASH) (rest : Text) :
    unescape (c :: rest) = (unescape rest).map (c :: ·) := by
  rw [unescape.eq_def (c :: rest)]
  exact if_neg h

/-- What is escaped, or at the end of an escape, is not the last character. -/
theorem unescape_closed (cs : Text) : (ClosedAt false cs → ∃ s, unescape cs = some s) ∧
    (ClosedAt true cs → ∃ c rest s, cs = c :: rest ∧ unescape rest = some s) := by
  induction cs with
  | nil => exact ⟨fun _ => ⟨[], rfl⟩, fun h => by cases h⟩
  | cons c cs ih =>
    constructor
    · rintro ⟨-, hrest⟩
      by_cases hc : c = BACKSLASH
      · rw [hc] at hrest ⊢
        obtain ⟨d, rest, s, rfl, hs⟩ := ih.2 hrest
        refine ⟨(if d = 'n' then LINE_FEED else d) :: s, ?_⟩
        rw [unescape_escape, hs, Option.map_some]
      · rw [decide_eq_false hc] at hrest
        obtain ⟨s, hs⟩ := ih.1 hrest
        exact ⟨c :: s, by rw [unescape_char hc, hs, Option.map_some]⟩
    · rintro ⟨-, hrest⟩
      rw [Bool.not_true, Bool.and_false] at hrest
      obtain ⟨s, hs⟩ := ih.1 hrest
      exact ⟨c, cs, s, rfl, hs⟩

def Quoted.value (q : Quoted) : Text := (unescape q.chars).getD []

theorem Quoted.unescape_chars (q : Quoted) : unescape q.chars = some q.value := by
  obtain ⟨s, hs⟩ := (unescape_closed q.chars).1 q.closed
  unfold Quoted.value
  rw [hs]
  rfl

/-! ## Lists and texts -/

/-- The rest of a list, up to its closing parenthesis. -/
inductive Items where
  | close (gap : Gap)
  | quoted (gap : Gap) (q : Quoted) (rest : Items)
  | unquoted (gap : Gap) (u : Unquoted) (rest : Items)
  | list (gap : Gap) (inner rest : Items)

/-- The rest of a text. -/
inductive Document where
  | done (gap : Gap)
  | list (gap : Gap) (inner : Items) (rest : Document)

namespace Items

/-- What stands before the next token. -/
def gap : Items → Gap
  | close gap => gap
  | quoted gap _ _ => gap
  | unquoted gap _ _ => gap
  | list gap _ _ => gap

def text : Items → Text
  | close gap => gap.text ++ [CLOSE_PAREN]
  | quoted gap q rest => gap.text ++ QUOTE :: (q.chars ++ QUOTE :: rest.text)
  | unquoted gap u rest => gap.text ++ u.first :: (u.others ++ rest.text)
  | list gap inner rest => gap.text ++ OPEN_PAREN :: (inner.text ++ rest.text)

def data : Items → List Data
  | close _ => []
  | quoted _ q rest => .string q.value :: rest.data
  | unquoted _ u rest => u.data :: rest.data
  | list _ inner rest => .list inner.data :: rest.data

/-- Without the comments. -/
def erase : Items → Items
  | close gap => close gap.erase
  | quoted gap q rest => quoted gap.erase q rest.erase
  | unquoted gap u rest => unquoted gap.erase u rest.erase
  | list gap inner rest => list gap.erase inner.erase rest.erase

/-- White space follows a symbol or a number, or the end of the list does. -/
def Separated : Items → Prop
  | close _ => True
  | quoted _ _ rest => rest.Separated
  | unquoted _ _ rest => ((∃ gap, rest = close gap) ∨ rest.gap.hasBlank) ∧ rest.Separated
  | list _ inner rest => inner.Separated ∧ rest.Separated

/-- Without comments. -/
def Plain : Items → Prop
  | close gap => gap.Plain
  | quoted gap _ rest => gap.Plain ∧ rest.Plain
  | unquoted gap _ rest => gap.Plain ∧ rest.Plain
  | list gap inner rest => gap.Plain ∧ inner.Plain ∧ rest.Plain

/-- No comment follows another one, a symbol or a number directly. -/
def CommentsApart : Items → Prop
  | close gap => gap.Apart
  | quoted gap _ rest => gap.Apart ∧ rest.CommentsApart
  | unquoted gap _ rest => gap.Apart ∧ ¬rest.gap.startsWithComment ∧ rest.CommentsApart
  | list gap inner rest => gap.Apart ∧ inner.CommentsApart ∧ rest.CommentsApart

theorem Plain.gap {items : Items} (h : items.Plain) : items.gap.Plain := by
  cases items with
  | close gap => exact h
  | quoted gap q rest => exact h.1
  | unquoted gap u rest => exact h.1
  | list gap inner rest => exact h.1

theorem Plain.commentsApart {items : Items} : items.Plain → items.CommentsApart := by
  induction items with
  | close gap => exact Gap.Plain.apart
  | quoted gap q rest ih => exact fun h => ⟨h.1.apart, ih h.2⟩
  | unquoted gap u rest ih => exact fun h => ⟨h.1.apart, h.2.gap.not_startsWithComment, ih h.2⟩
  | list gap inner rest ihInner ihRest => exact fun h => ⟨h.1.apart, ihInner h.2.1, ihRest h.2.2⟩

theorem erase_plain (items : Items) : items.erase.Plain := by
  induction items with
  | close gap => exact gap.erase_plain
  | quoted gap q rest ih => exact ⟨gap.erase_plain, ih⟩
  | unquoted gap u rest ih => exact ⟨gap.erase_plain, ih⟩
  | list gap inner rest ihInner ihRest => exact ⟨gap.erase_plain, ihInner, ihRest⟩

theorem erase_data (items : Items) : items.erase.data = items.data := by
  induction items with
  | close gap => rfl
  | quoted gap q rest ih => rw [erase, data, data, ih]
  | unquoted gap u rest ih => rw [erase, data, data, ih]
  | list gap inner rest ihInner ihRest => rw [erase, data, data, ihInner, ihRest]

theorem Separated.erase {items : Items} : items.Separated → items.erase.Separated := by
  induction items with
  | close gap => exact id
  | quoted gap q rest ih => exact ih
  | unquoted gap u rest ih =>
    intro h
    refine ⟨?_, ih h.2⟩
    rcases h.1 with ⟨gap, rfl⟩ | hblank
    · exact .inl ⟨_, rfl⟩
    · refine .inr ?_
      have hgap : rest.erase.gap = rest.gap.erase := by cases rest <;> rfl
      rw [hgap]
      exact (Gap.hasBlank_erase _).mpr hblank
  | list gap inner rest ihInner ihRest => exact fun h => ⟨ihInner h.1, ihRest h.2⟩

end Items

namespace Document

def text : Document → Text
  | done gap => gap.text
  | list gap inner rest => gap.text ++ OPEN_PAREN :: (inner.text ++ rest.text)

def data : Document → List Data
  | done _ => []
  | list _ inner rest => .list inner.data :: rest.data

def erase : Document → Document
  | done gap => done gap.erase
  | list gap inner rest => list gap.erase inner.erase rest.erase

def Separated : Document → Prop
  | done _ => True
  | list _ inner rest => inner.Separated ∧ rest.Separated

def CommentsApart : Document → Prop
  | done _ => True
  | list _ inner rest => inner.CommentsApart ∧ rest.CommentsApart

/-- No comment in front of a list opens one. -/
def LeadQuiet : Document → Prop
  | done _ => True
  | list gap _ rest => OPEN_PAREN ∉ gap.text ∧ rest.LeadQuiet

/-- No comment after the last list opens one. -/
def TailQuiet : Document → Prop
  | done gap => OPEN_PAREN ∉ gap.text
  | list _ _ rest => rest.TailQuiet

def Plain : Document → Prop
  | done gap => gap.Plain
  | list gap inner rest => gap.Plain ∧ inner.Plain ∧ rest.Plain

theorem Plain.commentsApart {d : Document} : d.Plain → d.CommentsApart := by
  induction d with
  | done gap => exact fun _ => trivial
  | list gap inner rest ih => exact fun h => ⟨h.2.1.commentsApart, ih h.2.2⟩

theorem Plain.leadQuiet {d : Document} : d.Plain → d.LeadQuiet := by
  induction d with
  | done gap => exact fun _ => trivial
  | list gap inner rest ih => exact fun h => ⟨h.1.quiet, ih h.2.2⟩

theorem Plain.tailQuiet {d : Document} : d.Plain → d.TailQuiet := by
  induction d with
  | done gap => exact Gap.Plain.quiet
  | list gap inner rest ih => exact fun h => ih h.2.2

theorem erase_plain (d : Document) : d.erase.Plain := by
  induction d with
  | done gap => exact gap.erase_plain
  | list gap inner rest ih => exact ⟨gap.erase_plain, inner.erase_plain, ih⟩

theorem erase_data (d : Document) : d.erase.data = d.data := by
  induction d with
  | done gap => rfl
  | list gap inner rest ih => rw [erase, data, data, inner.erase_data, ih]

theorem Separated.erase {d : Document} : d.Separated → d.erase.Separated := by
  induction d with
  | done gap => exact id
  | list gap inner rest ih => exact fun h => ⟨h.1.erase, ih h.2⟩

end Document

/-! ## Reading a token -/

variable {cs : Text}

theorem skipComment_text (h : LINE_FEED ∉ cs) (after : Text) :
    skipComment (cs ++ LINE_FEED :: after) = some after := by
  induction cs with
  | nil => rw [List.nil_append, skipComment, if_pos rfl]
  | cons c cs ih =>
    obtain ⟨hc, hcs⟩ := List.ne_and_not_mem_of_not_mem_cons h
    rw [List.cons_append, skipComment, if_neg (Ne.symm hc), ih hcs]

theorem tokenStart_comment (h : LINE_FEED ∉ cs) (after : Text) :
    tokenStart (SEMICOLON :: (cs ++ LINE_FEED :: after)) = afterComment after := by
  rw [tokenStart_semicolon, skipComment_text h, Option.bind_some]

theorem afterComment_char {c : Char} (h : isWS c = false) (after : Text) :
    afterComment (c :: after) = some (c, after) := by
  rw [afterComment, if_neg (by rw [h]; exact Bool.false_ne_true)]

/-- The gap is stepped over, in front of the loop of `tokenStart` and after a comment in it. -/
theorem gap_start (gap : Gap) {c : Char} (hws : isWS c = false) (after : Text) :
    (gap.Apart → c ≠ SEMICOLON → tokenStart (gap.text ++ c :: after) = some (c, after)) ∧
      (gap.Apart → ¬gap.startsWithComment → c ≠ SEMICOLON →
        afterComment (gap.text ++ c :: after) = some (c, after)) := by
  induction gap with
  | nil => exact ⟨fun _ hc => tokenStart_char hws hc after, fun _ _ _ => afterComment_char hws after⟩
  | cons filler gap ih =>
    rw [Gap.text_cons, List.append_assoc]
    cases filler with
    | blank d hd =>
      refine ⟨fun hapart hc => ?_, fun hapart _ hc => ?_⟩
      · show tokenStart (d :: (Gap.text gap ++ c :: after)) = _
        rw [tokenStart_blank hd]
        exact ih.1 hapart.2 hc
      · show afterComment (d :: (Gap.text gap ++ c :: after)) = _
        rw [afterComment, if_pos hd]
        exact ih.1 hapart.2 hc
    | comment cs hcs =>
      refine ⟨fun hapart hc => ?_, fun _ hstart _ => absurd ⟨_, rfl, rfl⟩ hstart⟩
      show tokenStart (SEMICOLON :: ((cs ++ [LINE_FEED]) ++ (Gap.text gap ++ c :: after))) = _
      rw [List.append_assoc, List.singleton_append, tokenStart_comment hcs]
      exact ih.2 hapart.2 (hapart.1 rfl) hc

theorem quotedLoop_chars (after : Text) : ∀ {escaped : Bool} (quoted : Text), ClosedAt escaped cs →
    quotedLoop escaped quoted (cs ++ QUOTE :: after) = some (quoted ++ cs, after) := by
  induction cs with
  | nil =>
    intro escaped quoted h
    rw [List.nil_append, quotedLoop, if_pos ⟨rfl, h⟩, List.append_nil]
  | cons c cs ih =>
    intro escaped quoted h
    have hopen : ¬(c = QUOTE ∧ escaped = false) := by
      rintro ⟨hc, hescaped⟩
      rw [h.1 hc] at hescaped
      cases hescaped
    rw [List.cons_append, quotedLoop, if_neg hopen, ih _ h.2, List.append_assoc, List.singleton_append]

theorem unquotedLoop_chars {e : Char} (he : endsUnquoted e) (after : Text) : ∀ (unquoted : Text),
    (∀ c ∈ cs, ¬endsUnquoted c) → unquotedLoop unquoted (cs ++ e :: after) = some (unquoted ++ cs, e :: after) := by
  induction cs with
  | nil =>
    intro unquoted _
    rw [List.nil_append, unquotedLoop, if_pos (show isWS e = true ∨ e = CLOSE_PAREN from he), List.append_nil]
  | cons c cs ih =>
    intro unquoted h
    have hc : ¬(isWS c = true ∨ c = CLOSE_PAREN) := h c (.head _)
    rw [List.cons_append, unquotedLoop, if_neg hc, ih _ fun d hd => h d (.tail _ hd),
      List.append_assoc, List.singleton_append]

section
variable {gap : Gap} (hapart : gap.Apart) (after : Text)
include hapart

theorem next_open : next (gap.text ++ OPEN_PAREN :: after) = .ok (.openParen, after) := by
  rw [next, (gap_start gap (by decide) after).1 hapart (by decide)]
  exact if_pos rfl

theorem next_close : next (gap.text ++ CLOSE_PAREN :: after) = .ok (.closeParen, after) := by
  rw [next, (gap_start gap (by decide) after).1 hapart (by decide)]
  rfl

theorem next_quoted (q : Quoted) :
    next (gap.text ++ QUOTE :: (q.chars ++ QUOTE :: after)) = .ok (.string q.value, after) := by
  have hloop := quotedLoop_chars after [] q.closed
  rw [next, (gap_start gap (by decide) _).1 hapart (by decide)]
  dsimp only
  rw [if_neg (by decide), if_neg (by decide), if_pos rfl, hloop]
  dsimp only
  rw [List.nil_append, q.unescape_chars]

theorem next_unquoted {c : Char} (hc : startsUnquoted c) {others : Text} (hin : ∀ d ∈ others, ¬endsUnquoted d) {e : Char}
    (he : endsUnquoted e) : next (gap.text ++ c :: (others ++ e :: after)) =
      (unquotedToken c (c :: others)).map (·, e :: after) := by
  obtain ⟨hws, hopen, hclose, hquote, hsemicolon⟩ := hc
  have hloop := unquotedLoop_chars he after [c] hin
  rw [next, (gap_start gap hws _).1 hapart hsemicolon]
  dsimp only
  rw [if_neg hopen, if_neg hclose, if_neg hquote, hloop]
  rfl

end

/-! ## Reading a text -/

theorem Items.text_gap (items : Items) : ∃ more, items.text = items.gap.text ++ more := by
  cases items with
  | close gap => exact ⟨_, rfl⟩
  | quoted gap q rest => exact ⟨_, rfl⟩
  | unquoted gap u rest => exact ⟨_, rfl⟩
  | list gap inner rest => exact ⟨_, rfl⟩

/-- What follows a symbol or a number ends it, unless it is a comment. -/
theorem Items.text_ends {items : Items} (hsep : (∃ gap, items = close gap) ∨ items.gap.hasBlank)
    (hstart : ¬items.gap.startsWithComment) : ∃ e more, items.text = e :: more ∧ endsUnquoted e := by
  obtain ⟨more, htext⟩ := items.text_gap
  cases hgap : items.gap with
  | nil =>
    rcases hsep with ⟨gap, rfl⟩ | ⟨filler, hmem, -⟩
    · refine ⟨CLOSE_PAREN, [], ?_, .inr rfl⟩
      rw [show gap = [] from hgap]
      rfl
    · rw [hgap] at hmem
      cases hmem
  | cons filler gap =>
    rw [hgap] at htext hstart
    cases filler with
    | blank c hc => exact ⟨c, Gap.text gap ++ more, htext, .inl hc⟩
    | comment cs hcs => exact absurd ⟨_, rfl, rfl⟩ hstart

theorem parseListLoop_unquoted {u : Unquoted} {rest : Text} (fuel : Nat) (result : List Data)
    (hnext : next cs = (unquotedToken u.first (u.first :: u.others)).map (·, rest)) :
    parseListLoop (fuel + 1) cs result = parseListLoop fuel rest (result ++ [u.data]) := by
  have hreads := u.reads
  unfold unquotedData at hreads
  rw [parseListLoop, hnext]
  cases htoken : unquotedToken u.first (u.first :: u.others) with
  | error e =>
    rw [htoken] at hreads
    cases hreads
  | ok token =>
    rw [htoken] at hreads
    cases token with
    | openParen => cases hreads
    | closeParen => cases hreads
    | string s => cases hreads
    | symbol s =>
      injection hreads with hreads
      rw [← hreads]
      rfl
    | int n =>
      injection hreads with hreads
      rw [← hreads]
      rfl

/-- By induction on the items, with a unit of fuel for each character. -/
theorem parseListLoop_items (items : Items) : items.Separated → items.CommentsApart →
    ∀ (fuel : Nat) (result : List Data) (after : Text), items.text.length ≤ fuel →
      parseListLoop fuel (items.text ++ after) result = .ok (.list (result ++ items.data), after) := by
  induction items with
  | close gap =>
    intro hsep hapart fuel result after hfuel
    rw [Items.text, List.length_append, List.length_singleton] at hfuel
    obtain ⟨fuel, rfl⟩ := Nat.exists_eq_add_of_le' (show 1 ≤ fuel by omega)
    rw [Items.text, List.append_assoc, List.singleton_append, parseListLoop, next_close hapart, Items.data,
      List.append_nil]
  | quoted gap q rest ih =>
    intro hsep hapart fuel result after hfuel
    rw [Items.text, List.length_append, List.length_cons, List.length_append, List.length_cons] at hfuel
    obtain ⟨fuel, rfl⟩ := Nat.exists_eq_add_of_le' (show 1 ≤ fuel by omega)
    rw [Items.text, List.append_assoc, List.cons_append, List.append_assoc, List.cons_append, parseListLoop,
      next_quoted hapart.1]
    show parseListLoop fuel (rest.text ++ after) (result ++ [.string q.value]) = _
    rw [ih hsep hapart.2 fuel _ after (by omega), List.append_assoc]
    rfl
  | unquoted gap u rest ih =>
    intro hsep hapart fuel result after hfuel
    obtain ⟨e, more, htext, he⟩ := Items.text_ends hsep.1 hapart.2.1
    rw [Items.text, List.length_append, List.length_cons, List.length_append] at hfuel
    obtain ⟨fuel, rfl⟩ := Nat.exists_eq_add_of_le' (show 1 ≤ fuel by omega)
    have hrest : rest.text ++ after = e :: (more ++ after) := by rw [htext, List.cons_append]
    have hnext := next_unquoted hapart.1 (more ++ after) u.first_starts u.others_in he
    rw [← hrest] at hnext
    rw [Items.text, List.append_assoc, List.cons_append, List.append_assoc, parseListLoop_unquoted fuel result hnext, ih hsep.2 hapart.2.2 fuel _ after (by omega), List.append_assoc]
    rfl
  | list gap inner rest ihInner ihRest =>
    intro hsep hapart fuel result after hfuel
    rw [Items.text, List.length_append, List.length_cons, List.length_append] at hfuel
    obtain ⟨fuel, rfl⟩ := Nat.exists_eq_add_of_le' (show 1 ≤ fuel by omega)
    rw [Items.text, List.append_assoc, List.cons_append, List.append_assoc, parseListLoop, next_open hapart.1]
    dsimp only
    rw [ihInner hsep.1 hapart.2.1 fuel [] (rest.text ++ after) (by omega)]
    show parseListLoop fuel (rest.text ++ after) (result ++ [.list ([] ++ inner.data)]) = _
    rw [List.nil_append, ihRest hsep.2 hapart.2.2 fuel _ after (by omega), List.append_assoc]
    rfl

theorem hasNext_none (h : OPEN_PAREN ∉ cs) : hasNext cs = none := by
  induction cs with
  | nil => rfl
  | cons c cs ih =>
    obtain ⟨hc, hcs⟩ := List.ne_and_not_mem_of_not_mem_cons h
    rw [hasNext, if_neg (Ne.symm hc), ih hcs]

theorem hasNext_some (h : OPEN_PAREN ∉ cs) (after : Text) :
    hasNext (cs ++ OPEN_PAREN :: after) = some after := by
  induction cs with
  | nil => exact if_pos rfl
  | cons c cs ih =>
    obtain ⟨hc, hcs⟩ := List.ne_and_not_mem_of_not_mem_cons h
    rw [List.cons_append, hasNext, if_neg (Ne.symm hc), ih hcs]

theorem parseLoop_document (d : Document) : d.Separated → d.CommentsApart → d.LeadQuiet → d.TailQuiet →
    ∀ (fuel : Nat) (topLevel : List Data), d.text.length < fuel →
      parseLoop fuel d.text topLevel = .ok (topLevel ++ d.data) := by
  induction d with
  | done gap =>
    intro _ _ _ htail fuel topLevel hfuel
    obtain ⟨fuel, rfl⟩ := Nat.exists_eq_add_of_le' (show 1 ≤ fuel by omega)
    rw [parseLoop, Document.text, hasNext_none htail, Document.data, List.append_nil]
  | list gap inner rest ih =>
    intro hsep hapart hlead htail fuel topLevel hfuel
    rw [Document.text, List.length_append, List.length_cons, List.length_append] at hfuel
    obtain ⟨fuel, rfl⟩ := Nat.exists_eq_add_of_le' (show 1 ≤ fuel by omega)
    rw [parseLoop, Document.text, hasNext_some hlead.1]
    dsimp only
    rw [parseList, parseListLoop_items inner hsep.1 hapart.1 fuel [] rest.text (by omega)]
    show parseLoop fuel rest.text (topLevel ++ [.list ([] ++ inner.data)]) = _
    rw [List.nil_append, ih hsep.2 hapart.2 hlead.2 htail fuel _ (by omega), List.append_assoc]
    rfl

/-- What the parser reads. -/
theorem parse_document {d : Document} (hsep : d.Separated) (hapart : d.CommentsApart) (hlead : d.LeadQuiet)
    (htail : d.TailQuiet) : parse d.text = .ok d.data :=
  parseLoop_document d hsep hapart hlead htail _ [] (Nat.lt_succ_self _)

end Nballerina.Sexpr
