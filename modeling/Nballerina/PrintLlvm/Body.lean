import Mathlib.Data.List.Induction
import Mathlib.Data.List.Perm.Basic
import Nballerina.PrintLlvm.Built
import Nballerina.PrintLlvm.Output

/-!
# Identifiers in a printed body (`print.llvm`)

What the LLVM assembler reads where the body of a function mentions a value or a block (`readings`), and
when that is right (`Assembles`): everything is known by one identifier of its own, and the definitions
and labels that have no name are numbered without a gap.

All of that holds but for one thing. `concat` leaves no blank after a word that ends in `.`, since
metadata is printed in such pieces, and a value may have such a name. In most places punctuation comes
next. In a conversion it is the word `to`, which LLVM takes for a part of the name
(`outputBody_assembles_iff`).
-/

namespace Nballerina.PrintLlvm

/-! ## Mentions -/

inductive Site where
  | definition
  | label
  | operand
  | branch
deriving DecidableEq, Repr

/-- A place where a value or a block is mentioned, with the name it is used by. -/
structure Mention where
  site : Site
  name : Name
deriving DecidableEq, Repr

def Word.mention? : Word → Option Mention
  | .lexeme _ => none
  | .result reg => some ⟨.definition, reg⟩
  | .operand name => some ⟨.operand, name⟩
  | .block label => some ⟨.branch, ref label⟩

def Emission.mentions : Emission → List Mention
  | .label name => [⟨.label, ref name⟩]
  | .insn words => words.filterMap Word.mention?

/-- The mentions in the order of the text. -/
def FunctionDefn.mentions (f : FunctionDefn) : List Mention := f.emissions.flatMap Emission.mentions

/-- The first block has no name and is not branched to, every other block is, and an unnamed value is
mentioned first where it is defined. -/
structure Admissible (f : FunctionDefn) : Prop where
  first : ∀ b ∈ f.basicBlocks.head?, (∃ n, b.label = .unnamed n) ∧ b.isReferenced = false
  others : ∀ b ∈ f.basicBlocks.tail, b.isReferenced = true
  definedFirst : ∀ (before : List Mention) (n : Nat) (after : List Mention),
    f.mentions = before ++ ⟨.operand, .unnamed n⟩ :: after → ⟨.definition, .unnamed n⟩ ∈ before

/-! ## Readings -/

/-- The text of a line after the words `before`. -/
def textAt (line : Text) (before : List Text) : Text :=
  (line.drop (createLine before INDENT).length).dropWhile isWhiteSpace

/-- What LLVM reads at the mentions in the line of an instruction. -/
def readInsn (unnamed : Nat → Text) (line : Text) (before : List Text) : List Word → List (Mention × Option LocalName)
  | [] => []
  | w :: ws => (w.mention?.map fun m => (m, readLocal (textAt line before))).toList ++
      readInsn unnamed line (before ++ [w.name.print unnamed]) ws

def Emission.readings (unnamed : Nat → Text) : Emission → Text → List (Mention × Option LocalName)
  | .label name, line => [(⟨.label, ref name⟩, readLabel line)]
  | .insn words, line => readInsn unnamed line [] words

/-- What LLVM reads at the parameters, as they are printed in the header, and at the mentions in the body. -/
def FunctionDefn.readings (f : FunctionDefn) (lines : List Text) (st : Numbering) :
    List (Mention × Option LocalName) :=
  ((paramValues f.paramTypes).filterMap Value.local?).map (fun name =>
      (⟨.definition, name⟩, readLocal (name.print fun _ => []))) ++
    (List.zipWith (Emission.readings fun n => st.nameTranslation[n]?.getD []) f.emissions lines).flatten

/-- A definition or label without a name. -/
def Mention.isNumbered (m : Mention) : Bool := m.name.isUnnamed && (m.site == .definition || m.site == .label)

/-- The body can be assembled: values and blocks are told apart, each of them is read as the same
identifier wherever it is mentioned and no other one is, and those without a name are numbered
consecutively after the parameters and the first block. How LLVM reads an empty name, or a NUL byte in
a name, is not considered. -/
structure Assembles (f : FunctionDefn) (lines : List Text) (st : Numbering) : Prop where
  printed : lines.length = f.emissions.length
  names : f.names.Nodup
  agree : ∀ r ∈ f.readings lines st, ∀ r' ∈ f.readings lines st,
    r.2.isSome = true ∧ (r.2 = r'.2 ↔ r.1.name = r'.1.name)
  consecutive : ∃ count, ((f.readings lines st).filter fun r => r.1.isNumbered).map Prod.snd =
    (List.range' (f.paramTypes.length + 1) count).map fun n => some (.numbered n)

/-! ## Reading a line -/

section Line

variable {unnamed : Nat → Text}

/-- The readings of a line, from the text of the words that are left. -/
def tailReadings (unnamed : Nat → Text) : List Word → List (Mention × Option LocalName)
  | [] => []
  | w :: ws => (w.mention?.map fun m => (m, readLocal (w.name.print unnamed ++
      joinFrom (omitAfter (w.name.print unnamed)) (ws.map fun w => w.name.print unnamed)))).toList ++
      tailReadings unnamed ws

/-- A mention starts with `%`. -/
def Percent (unnamed : Nat → Text) (w : Word) : Prop :=
  w.isMention = true → ∃ cs, w.name.print unnamed = '%' :: cs

theorem mention?_isMention {w : Word} {m : Mention} (h : w.mention? = some m) : w.isMention = true ∧ w.name = m.name := by
  cases w with
  | lexeme l => cases h
  | result reg =>
    obtain rfl := Option.some.inj h
    exact ⟨rfl, rfl⟩
  | operand name =>
    obtain rfl := Option.some.inj h
    exact ⟨rfl, rfl⟩
  | block label =>
    obtain rfl := Option.some.inj h
    exact ⟨rfl, rfl⟩

theorem readInsn_eq {u : Nat → Text} (words : List Word) : ∀ (before : List Text),
    (∀ s ∈ before, Solid s) → (∀ w ∈ words, Solid (w.name.print unnamed)) → (∀ w ∈ words, Percent unnamed w) →
    (∀ w ∈ words, w.name.print u = w.name.print unnamed) →
    readInsn u (INDENT ++ joinFrom true (before ++ words.map fun w => w.name.print unnamed)) before words =
      tailReadings unnamed words := by
  induction words with
  | nil => exact fun _ _ _ _ _ => rfl
  | cons w words ih =>
    intro before hbefore hwords hpercent hsame
    have hw : Solid (w.name.print unnamed) := hwords w (.head _)
    have hrest := ih (before ++ [w.name.print unnamed])
      (fun s hs => by
        rcases List.mem_append.mp hs with hs | hs
        · exact hbefore s hs
        · exact List.mem_singleton.mp hs ▸ hw)
      (fun v hv => hwords v (.tail _ hv)) (fun v hv => hpercent v (.tail _ hv))
      (fun v hv => hsame v (.tail _ hv))
    rw [List.append_assoc] at hrest
    rw [readInsn, hsame w (.head _), tailReadings]
    refine congrArg₂ (· ++ ·) ?_ hrest
    cases hm : w.mention? with
    | none => rfl
    | some m =>
      obtain ⟨cs, hcs⟩ := hpercent w List.mem_cons_self (mention?_isMention hm).1
      rw [Option.map_some, Option.map_some]
      refine congrArg (fun text => [(m, readLocal text)]) ?_
      rw [textAt, createLine, concat_solid hbefore, joinFrom_append, ← List.append_assoc, List.drop_left, List.map_cons,
        joinFrom, hcs]
      split
      · rfl
      · rfl

theorem mem_tailReadings {words before after : List Word} {w : Word} {m : Mention} (h : words = before ++ w :: after)
    (hm : w.mention? = some m) :
    (m, readLocal (w.name.print unnamed ++
      joinFrom (omitAfter (w.name.print unnamed)) (after.map fun w => w.name.print unnamed))) ∈
        tailReadings unnamed words := by
  subst h
  induction before with
  | nil =>
    rw [List.nil_append, tailReadings, hm]
    exact List.mem_append_left _ (.head _)
  | cons v before ih => exact List.mem_append_right _ ih

end Line

/-! ## Reading a mention -/

/-- The text of a mention. -/
def IsLocal (s : Text) : Prop := (∃ n, s = '%' :: Nat.toDigits 10 n) ∨ ∃ raw, s = '%' :: escapeIdent raw

variable {s : Text}

/-- A mention is read alone when no letter comes after it. -/
theorem readLocal_append {after : Text} (h : IsLocal s)
    (hafter : ∀ ch ∈ after.head?, isIdentFollow ch = false) :
    readLocal (s ++ after) = readLocal s := by
  rcases h with ⟨n, rfl⟩ | ⟨raw, rfl⟩
  · have hdigit : ∀ ch ∈ after.head?, isDigit ch = false := by
      intro ch hch
      by_contra h
      have := isIdentFollow_of_isDigit (eq_true_of_ne_false h)
      rw [hafter ch hch] at this
      cases this
    rw [readLocal_toDigits, List.cons_append, readLocal, readName_toDigits n after hdigit]
    rfl
  · rw [readLocal_escapeIdent, List.cons_append, readLocal, readName_escapeIdent raw after fun _ => hafter]
    rfl

/-- A label is read as the block is where it is branched to. -/
theorem readLabel_local {cs : Text} (h : IsLocal ('%' :: cs)) : readLabel (cs ++ [':']) = readLocal ('%' :: cs) := by
  rcases h with ⟨n, h⟩ | ⟨raw, h⟩
  · obtain rfl := (List.cons.inj h).2
    rw [readLabel, readLocal_toDigits, readName_toDigits n [':'] fun ch hch => Option.some.inj hch ▸ rfl]
    rfl
  · obtain rfl := (List.cons.inj h).2
    rw [readLabel, readLocal_escapeIdent, readName_escapeIdent raw [':'] fun _ ch hch => Option.some.inj hch ▸ rfl]
    rfl

/-- Neither punctuation nor a blank is a letter. -/
theorem joinFrom_head {tight : Bool} {l : Lexeme} (h : l ∈ punctuation ∨ (l = TO ∧ tight = false)) (rest : List Text) :
    ∀ ch ∈ (joinFrom tight (l.text :: rest)).head?, isIdentFollow ch = false := by
  intro ch hch
  rcases h with h | ⟨rfl, rfl⟩
  · simp only [punctuation, List.mem_cons, List.not_mem_nil, or_false] at h
    rcases h with rfl | rfl | rfl | rfl <;> cases tight <;> obtain rfl := Option.some.inj hch <;> rfl
  · obtain rfl := Option.some.inj hch
    rfl

theorem escapeIdent_last (raw : Text) : (isIdent raw = true ∧ escapeIdent raw = raw) ∨
    (escapeIdent raw).getLast? = some '"' := by
  unfold escapeIdent
  split
  next h => exact .inl ⟨h, rfl⟩
  next =>
    right
    rw [← List.cons_append, List.getLast?_append]
    rfl

/-- A number does not end in a dot. -/
theorem toDigits_last (n : Nat) : ('%' :: Nat.toDigits 10 n).getLast? ≠ some '.' := by
  intro hdot
  have hmem : '.' ∈ Nat.toDigits 10 n := by
    rcases List.mem_cons.mp (List.mem_of_mem_getLast? hdot) with h | h
    · exact absurd h (by decide)
    · exact h
  exact absurd (Nat.isDigit_of_mem_toDigits (by omega) (by omega) hmem) (by decide)

theorem isLocal_last (h : IsLocal s) :
    ∃ ch, s.getLast? = some ch ∧ (isIdentFollow ch = true ∨ ch = '"') := by
  rcases h with ⟨n, rfl⟩ | ⟨raw, rfl⟩
  · cases hlast : (Nat.toDigits 10 n).getLast? with
    | none => exact absurd (List.getLast?_eq_none_iff.mp hlast) Nat.toDigits_ne_nil
    | some ch =>
      refine ⟨ch, by rw [List.getLast?_cons, hlast]; rfl, .inl (isIdentFollow_of_isDigit ?_)⟩
      exact Nat.isDigit_of_mem_toDigits (by omega) (by omega) (List.mem_of_mem_getLast? hlast)
  · rcases escapeIdent_last raw with ⟨hident, heq⟩ | hlast
    · obtain ⟨ch, cs, hcons, -, -, hall⟩ := isIdent_cons hident
      rw [heq]
      cases hlast : raw.getLast? with
      | none =>
        rw [List.getLast?_eq_none_iff.mp hlast] at hcons
        cases hcons
      | some last =>
        refine ⟨last, by rw [List.getLast?_cons, hlast]; rfl, .inl (hall last (List.mem_of_mem_getLast? hlast))⟩
    · exact ⟨'"', by rw [List.getLast?_cons, hlast]; rfl, .inr rfl⟩

theorem isLocal_solid (h : IsLocal s) : Solid s := by
  obtain ⟨last, hlast, hch⟩ := isLocal_last h
  obtain ⟨cs, hcs, hne⟩ : ∃ cs, s = '%' :: cs ∧ cs ≠ [] := by
    rcases h with ⟨n, rfl⟩ | ⟨raw, rfl⟩
    · exact ⟨_, rfl, Nat.toDigits_ne_nil⟩
    · refine ⟨_, rfl, fun hnil => ?_⟩
      have hread := readLocal_escapeIdent raw
      rw [hnil] at hread
      cases hread
  refine ⟨hcs ▸ List.cons_ne_nil _ _, ?_, ?_, ?_⟩
  · intro ch hhead
    rw [hcs] at hhead
    obtain rfl := Option.some.inj hhead
    rfl
  · intro ch hmem
    obtain rfl := Option.some.inj (hlast.symm.trans hmem)
    rcases hch with hfollow | rfl
    · exact isWhiteSpace_of_isIdentFollow hfollow
    · rfl
  · intro hquote
    rw [hcs] at hquote
    exact absurd (List.cons.inj hquote).1 (by decide)

/-- A blank goes after a mention, unless it ends in a dot or the next word does without. -/
theorem omitAfter_local (h : IsLocal s) (hdot : s.getLast? ≠ some '.') : omitAfter s = false := by
  obtain ⟨last, hlast, hch⟩ := isLocal_last h
  have hsolid := isLocal_solid h
  obtain ⟨cs, rfl⟩ := List.getLast?_eq_some_iff.mp hlast
  rw [omitAfter_solid hsolid, Bool.and_eq_false_iff]
  rcases hch with hfollow | rfl
  · right
    by_contra hafter
    have hmem := List.contains_iff_mem.mp (eq_true_of_ne_false hafter)
    simp only [List.mem_cons, List.cons.injEq, and_true, List.not_mem_nil, or_false] at hmem
    rcases hmem with rfl | rfl | rfl | rfl | rfl | rfl
    · exact absurd hfollow (by decide)
    · exact absurd hfollow (by decide)
    · exact absurd hfollow (by decide)
    · exact absurd hfollow (by decide)
    · exact hdot hlast
    · exact absurd hfollow (by decide)
  · exact .inl rfl

/-- Without a blank, `to` is read as a part of the name. -/
theorem readLocal_dot (h : IsLocal s) (hdot : s.getLast? = some '.') (rest : List Text) :
    readLocal (s ++ joinFrom (omitAfter s) (TO.text :: rest)) ≠ readLocal s := by
  have hafter : omitAfter s = true := by
    rw [omitAfter, hdot]
    exact Bool.or_true _
  rcases h with ⟨n, rfl⟩ | ⟨raw, rfl⟩
  · exact absurd hdot (toDigits_last n)
  · rcases escapeIdent_last raw with ⟨hident, heq⟩ | hlast
    · obtain ⟨ch, cs, hcons, hquote, hdigit, hall⟩ := isIdent_cons hident
      rw [readLocal_escapeIdent, hafter, heq]
      have hto : (TO.text ++ joinFrom (omitAfter TO.text) rest).takeWhile isIdentFollow =
          't' :: ('o' :: joinFrom (omitAfter TO.text) rest).takeWhile isIdentFollow := rfl
      have htake : (raw ++ joinFrom true (TO.text :: rest)).takeWhile isIdentFollow =
          raw ++ 't' :: ('o' :: joinFrom (omitAfter TO.text) rest).takeWhile isIdentFollow := by
        rw [List.takeWhile_append_of_pos hall, joinFrom, Bool.true_or, if_pos rfl, List.nil_append, hto]
      intro hread
      have hname : readName (raw ++ joinFrom true (TO.text :: rest)) =
          some (.named (Lib.utf8 ((raw ++ joinFrom true (TO.text :: rest)).takeWhile isIdentFollow)),
            (raw ++ joinFrom true (TO.text :: rest)).dropWhile isIdentFollow) := by
        rw [hcons, List.cons_append, readName, if_neg hquote, if_neg (by rw [hdigit]; exact Bool.false_ne_true),
          if_pos (hall ch (hcons ▸ (.head _)))]
      rw [List.cons_append, readLocal, hname, htake, Option.map_some, Option.some.injEq, LocalName.named.injEq] at hread
      have hlen := congrArg List.length (Lib.utf8_injective hread)
      rw [List.length_append, List.length_cons] at hlen
      omega
    · rw [List.getLast?_cons, hlast] at hdot
      exact absurd (Option.some.inj hdot) (by decide)

/-! ## The lines of a function -/

/-- What `follows_line` says of a line without a conversion of a value whose name ends in a dot. -/
def Clear (w : Word) (l : Lexeme) : Prop :=
  l ∈ punctuation ∨ (l = TO ∧ (w.isMention = true → ∀ s, w.name = .text s → s.getLast? ≠ some '.'))

/-- After the register of the result comes punctuation. -/
def ResultClear (w : Word) (l : Lexeme) : Prop := l ∈ punctuation ∨ w.result? = none

theorem follows_at {P : Word → Lexeme → Prop} {before after : List Word} {w : Word}
    (h : Follows P (before ++ w :: after)) (hmention : w.isMention = true) :
    ∀ next ∈ after.head?, ∃ l, next = .lexeme l ∧ P w l := by
  induction before with
  | nil => exact h.1 hmention
  | cons v before ih => exact ih h.2

theorem separated_of_follows {P : Word → Lexeme → Prop} {ws : List Word} (h : Follows P ws) :
    Separated (ws.map Word.name) := by
  induction ws with
  | nil => trivial
  | cons w ws ih =>
    refine ⟨fun hw next hnext => ?_, ih h.2⟩
    rw [List.head?_map] at hnext
    obtain ⟨v, hv, rfl⟩ := Option.map_eq_some_iff.mp hnext
    have hmention : w.isMention = true := by
      cases w with
      | lexeme l => cases hw
      | result reg => rfl
      | operand name => rfl
      | block label => rfl
    obtain ⟨l, rfl, -⟩ := h.1 hmention v hv
    rfl

section Function

variable {f : FunctionDefn}

theorem issued_print (name : Name) (h : f.Issued name) : IsLocal (name.print f.unnamedText) := by
  rcases h with ⟨i, -, rfl⟩ | ⟨raw, -, rfl⟩ | ⟨n, -, rfl⟩
  · exact .inl ⟨i, rfl⟩
  · exact .inr ⟨raw, rfl⟩
  · exact .inl ⟨_, rfl⟩

variable {w : Word} {insns : List Insn} {after ws : List Word} {st : Numbering}

theorem known_name (h : w.Known f) (hw : w.isMention = true) : w.name ∈ f.names := by
  cases w with
  | lexeme l => cases hw
  | result reg => exact List.mem_append_left _ h
  | operand name => exact List.mem_append_left _ h
  | block label =>
    obtain ⟨b, hb, -, rfl⟩ := mem_referenced.mp h
    exact List.mem_append_right _ (List.mem_map_of_mem hb)

theorem mem_insns {b : BasicBlock} (hb : b ∈ f.basicBlocks) (hws : ws ∈ b.insns) : ws ∈ f.insns :=
  List.mem_flatMap.mpr ⟨b, hb, hws⟩

variable (hf : Built f)
include hf

theorem word_local (hws : ws ∈ f.insns) (hw : w ∈ ws) (hmention : w.isMention = true) :
    IsLocal (w.name.print f.unnamedText) :=
  issued_print _ (hf.issued _ (known_name (hf.known ws hws w hw) hmention))

theorem word_solid (hws : ws ∈ f.insns) (hw : w ∈ ws) :
    Solid (w.name.print f.unnamedText) := by
  cases hm : w.isMention with
  | true => exact isLocal_solid (word_local hf hws hw hm)
  | false =>
    cases w with
    | lexeme l => exact l.solid
    | result reg => cases hm
    | operand name => cases hm
    | block label => cases hm

theorem word_percent (hws : ws ∈ f.insns) (hw : w ∈ ws) : Percent f.unnamedText w := by
  intro hmention
  rcases word_local hf hws hw hmention with ⟨n, h⟩ | ⟨raw, h⟩
  · exact ⟨_, h⟩
  · exact ⟨_, h⟩

/-- An unnamed value or block that is mentioned has a number. -/
theorem word_numbered (hws : ws ∈ f.insns) (hw : w ∈ ws) {n : Nat} (hn : w.name = .unnamed n) :
    n ∈ f.order ∧ n < f.isBasicBlock.length := by
  have hknown := hf.known ws hws w hw
  have hvalue : .unnamed n ∈ f.valueNames → n ∈ f.order ∧ n < f.isBasicBlock.length := by
    intro hmem
    have hmark := hf.valuesMarked n hmem
    refine ⟨?_, (List.getElem?_eq_some_iff.mp hmark).1⟩
    obtain ⟨b, hb, hmemb⟩ := List.mem_flatMap.mp hws
    refine mem_numberAll.mpr (.inr (List.mem_flatMap.mpr ⟨b, hb, List.mem_append_right _ ?_⟩))
    refine List.mem_flatMap.mpr ⟨ws, hmemb, List.mem_filterMap.mpr ⟨.unnamed n, ?_, ?_⟩⟩
    · exact hn ▸ List.mem_map_of_mem hw
    · rw [valueNumber, if_pos hmark]
  cases w with
  | lexeme l => cases hn
  | result reg => exact hvalue (hn ▸ hknown)
  | operand name => exact hvalue (hn ▸ hknown)
  | block label =>
    obtain ⟨b, hb, href, rfl⟩ := mem_referenced.mp hknown
    have hlabel : b.label = .unnamed n := by
      cases hl : b.label with
      | text s =>
        rw [Word.name, hl] at hn
        cases hn
      | unnamed m =>
        rw [Word.name, hl] at hn
        exact hn
    refine ⟨mem_numberAll.mpr (.inr (List.mem_flatMap.mpr ⟨b, hb, List.mem_append_left _ ?_⟩)),
      (List.getElem?_eq_some_iff.mp (hf.blocksMarked b hb n hlabel)).1⟩
    rw [hlabel, href]
    exact List.mem_singleton_self n

theorem labels_of_built : Labels f.isBasicBlock f.basicBlocks := by
  refine ⟨?_, hf.blocksMarked⟩
  have hnodup := (List.nodup_append.mp hf.nodup).2.1
  have hmap : f.basicBlocks.map (fun b => ref b.label) = (f.basicBlocks.map BasicBlock.label).map ref := by
    rw [List.map_map]
    rfl
  rw [hmap] at hnodup
  exact hnodup.of_map

/-- The body of a function that was built. -/
theorem outputBody_built (hlines : LinesOf f insns)
    (hreferenced : ∀ b ∈ f.basicBlocks.tail, b.isReferenced = true) :
    ∃ st, f.outputBody = some (f.emissions.map (Emission.print f.unnamedText), st) ∧
      Numbered (f.paramTypes.length + 1) st f.order := by
  refine f.outputBody_eq (labels_of_built hf) (fun b hb ws hws => ?_)
    (fun b hb ws hws w hw n hn => word_numbered hf (mem_insns hb hws) hw hn) hreferenced
  have hmem := mem_insns hb hws
  obtain ⟨insn, -, label, dbLocation, reg, heq⟩ := hlines.made ws hmem
  have hfollows : Follows (fun _ _ => True) ws :=
    heq ▸ follows_line (fun _ _ _ => trivial) insn (fun _ _ => trivial) label dbLocation reg
  exact ⟨separated_of_follows hfollows, fun w hw => word_solid hf hmem hw⟩

/-! ## Readings of a function -/

/-- The readings of a line, from the texts of its words. -/
theorem insn_readings (hst : Numbered (f.paramTypes.length + 1) st f.order) (hws : ws ∈ f.insns) :
    (Emission.insn ws).readings (fun n => st.nameTranslation[n]?.getD []) ((Emission.insn ws).print f.unnamedText) =
      tailReadings f.unnamedText ws := by
  have h := readInsn_eq (u := fun n => st.nameTranslation[n]?.getD []) ws [] (List.forall_mem_nil _)
    (fun w hw => word_solid hf hws hw) (fun w hw => word_percent hf hws hw) fun w hw => ?_
  · exact h
  · cases hn : w.name with
    | text s => rfl
    | unnamed n =>
      rw [Name.print, Name.print, hst.named n (word_numbered hf hws hw hn).1]
      rfl

theorem label_readings (unnamed : Nat → Text) {b : BasicBlock} (hb : b ∈ f.basicBlocks) :
    (Emission.label b.label).readings unnamed ((Emission.label b.label).print f.unnamedText) =
      [(⟨.label, ref b.label⟩, readLocal ((ref b.label).print f.unnamedText))] := by
  have hlocal := issued_print _ (hf.issued (ref b.label) (List.mem_append_right _ (List.mem_map_of_mem hb)))
  refine congrArg (fun reading => [(Mention.mk .label (ref b.label), reading)]) ?_
  cases hl : b.label with
  | text s =>
    rw [hl] at hlocal
    exact readLabel_local hlocal
  | unnamed n =>
    rw [hl] at hlocal
    exact readLabel_local hlocal

/-- A mention with what is read at it when it stands alone. -/
def FunctionDefn.bare (f : FunctionDefn) (m : Mention) : Mention × Option LocalName :=
  (m, readLocal (m.name.print f.unnamedText))

/-- The word after a mention does not change how it is read. -/
theorem read_clear (hws : ws ∈ f.insns) (hw : w ∈ ws) (hmention : w.isMention = true)
    (hnext : ∀ next ∈ after.head?, ∃ l, next = .lexeme l ∧ Clear w l) :
    readLocal (w.name.print f.unnamedText ++
        joinFrom (omitAfter (w.name.print f.unnamedText)) (after.map fun w => w.name.print f.unnamedText)) =
      readLocal (w.name.print f.unnamedText) := by
  have hlocal := word_local hf hws hw hmention
  refine readLocal_append hlocal ?_
  cases after with
  | nil =>
    intro ch hch
    cases hch
  | cons next after =>
    obtain ⟨l, rfl, hclear⟩ := hnext next (Option.mem_some_self _)
    rw [List.map_cons]
    refine joinFrom_head (hclear.imp_right fun ⟨hto, hdot⟩ => ⟨hto, omitAfter_local hlocal ?_⟩) _
    cases hn : w.name with
    | text s => exact hdot hmention s hn
    | unnamed n => exact toDigits_last _

/-- In a line where that holds of all mentions, each of them is read as when it stands alone. -/
theorem tailReadings_clear (hws : ws ∈ f.insns) (hclear : Follows Clear ws) :
    tailReadings f.unnamedText ws = (ws.filterMap Word.mention?).map f.bare := by
  have hsuffix : ∀ after before : List Word, ws = before ++ after → Follows Clear after →
      tailReadings f.unnamedText after = (after.filterMap Word.mention?).map f.bare := by
    intro after
    induction after with
    | nil => exact fun _ _ _ => rfl
    | cons w after ih =>
      intro before heq hclear
      have hrest := ih (before ++ [w]) (by rw [heq, List.append_assoc]; rfl) hclear.2
      rw [tailReadings, hrest]
      cases hm : w.mention? with
      | none =>
        rw [List.filterMap_cons_none hm]
        rfl
      | some m =>
        obtain ⟨hmention, hname⟩ := mention?_isMention hm
        have hw : w ∈ ws := heq ▸ List.mem_append_right _ (.head _)
        rw [List.filterMap_cons_some hm, Option.map_some, read_clear hf hws hw hmention (hclear.1 hmention),
          List.map_cons, FunctionDefn.bare, hname]
        rfl
  exact hsuffix ws [] rfl hclear

omit hf in
theorem mem_emissions {e : Emission} (h : e ∈ f.emissions) :
    (∃ b ∈ f.basicBlocks, b.isReferenced = true ∧ e = .label b.label) ∨ ∃ ws ∈ f.insns, e = .insn ws := by
  obtain ⟨b, hb, he⟩ := List.mem_flatMap.mp h
  rcases List.mem_append.mp he with he | he
  · split at he
    next href => exact .inl ⟨b, hb, href, List.mem_singleton.mp he⟩
    next => cases he
  · obtain ⟨ws, hws, rfl⟩ := List.mem_map.mp he
    exact .inr ⟨ws, mem_insns hb hws, rfl⟩

/-- The name of a mention is the function's, and has a number if it has no text. -/
theorem mention_name {m : Mention} (h : m ∈ f.mentions) :
    m.name ∈ f.names ∧ ∀ n, m.name = .unnamed n → n ∈ f.order := by
  obtain ⟨e, he, hm⟩ := List.mem_flatMap.mp h
  rcases mem_emissions he with ⟨b, hb, href, rfl⟩ | ⟨ws, hws, rfl⟩
  · obtain rfl := List.mem_singleton.mp hm
    refine ⟨List.mem_append_right _ (List.mem_map_of_mem hb), fun n hn => ?_⟩
    refine mem_numberAll.mpr (.inr (List.mem_flatMap.mpr ⟨b, hb, List.mem_append_left _ ?_⟩))
    cases hl : b.label with
    | text s =>
      dsimp only at hn
      rw [hl] at hn
      cases hn
    | unnamed k =>
      dsimp only at hn
      rw [hl] at hn
      obtain rfl := Name.unnamed.inj hn
      dsimp only
      rw [if_pos href]
      exact List.mem_singleton_self _
  · obtain ⟨w, hw, hwm⟩ := List.mem_filterMap.mp hm
    obtain ⟨hmention, hname⟩ := mention?_isMention hwm
    rw [← hname]
    exact ⟨known_name (hf.known ws hws w hw) hmention, fun n hn => (word_numbered hf hws hw hn).1⟩

omit hf in
/-- Different names are read differently. -/
theorem read_injective {a b : Name} (ha : f.Issued a) (hb : f.Issued b) (hna : ∀ n, a = .unnamed n → n ∈ f.order)
    (hnb : ∀ n, b = .unnamed n → n ∈ f.order)
    (h : readLocal (a.print f.unnamedText) = readLocal (b.print f.unnamedText)) : a = b := by
  have hnumber : ∀ n, readLocal ((Name.unnamed n).print f.unnamedText) =
      some (.numbered (f.paramTypes.length + 1 + f.order.idxOf n)) := fun n => readLocal_toDigits _
  have hdigits : ∀ i, readLocal ((Name.text ('%' :: Nat.toDigits 10 i)).print f.unnamedText) = some (.numbered i) :=
    fun i => readLocal_toDigits i
  have hraw : ∀ raw, readLocal ((Name.text ('%' :: escapeIdent raw)).print f.unnamedText) =
      some (.named (Lib.utf8 raw)) := fun raw => readLocal_escapeIdent raw
  rcases ha with ⟨i, hi, rfl⟩ | ⟨raw, -, rfl⟩ | ⟨n, -, rfl⟩ <;> rcases hb with ⟨j, hj, rfl⟩ | ⟨raw', -, rfl⟩ | ⟨k, -, rfl⟩ <;>
    simp only [hnumber, hdigits, hraw, Option.some.injEq, LocalName.numbered.injEq, LocalName.named.injEq,
      reduceCtorEq] at h
  · rw [h]
  · omega
  · rw [Lib.utf8_injective h]
  · omega
  · have hidx : f.order.idxOf n = f.order.idxOf k := by omega
    rw [(List.idxOf_inj (hna n rfl)).mp hidx]

/-- The parameters, as they are mentioned in the header. -/
def FunctionDefn.paramMentions (f : FunctionDefn) : List Mention :=
  ((paramValues f.paramTypes).filterMap Value.local?).map fun name => ⟨.definition, name⟩

/-- The readings of a line, from the texts of what it is printed for. -/
def FunctionDefn.lineReadings (f : FunctionDefn) : Emission → List (Mention × Option LocalName)
  | .label name => [f.bare ⟨.label, ref name⟩]
  | .insn ws => tailReadings f.unnamedText ws

theorem readings_eq (hst : Numbered (f.paramTypes.length + 1) st f.order) :
    f.readings (f.emissions.map (Emission.print f.unnamedText)) st =
      f.paramMentions.map f.bare ++ f.emissions.flatMap f.lineReadings := by
  have hparams : (paramValues f.paramTypes).filterMap Value.local? =
      (List.range f.paramTypes.length).map fun i => .text ('%' :: Nat.toDigits 10 i) := valueNames_init f.paramTypes
  rw [FunctionDefn.readings, FunctionDefn.paramMentions, hparams, List.map_map, List.map_map, List.map_map]
  refine congrArg₂ (· ++ ·) rfl ?_
  rw [List.zipWith_map_right, List.zipWith_self, List.flatMap_def]
  refine congrArg List.flatten (List.map_congr_left fun e he => ?_)
  rcases mem_emissions he with ⟨b, hb, href, rfl⟩ | ⟨ws, hws, rfl⟩
  · exact label_readings hf _ hb
  · exact insn_readings hf hst hws

theorem readings_clear (hst : Numbered (f.paramTypes.length + 1) st f.order)
    (hclear : ∀ ws ∈ f.insns, Follows Clear ws) :
    f.readings (f.emissions.map (Emission.print f.unnamedText)) st =
      (f.paramMentions ++ f.mentions).map f.bare := by
  rw [readings_eq hf hst, List.map_append, FunctionDefn.mentions, List.map_flatMap, List.flatMap_def, List.flatMap_def]
  refine congrArg (fun readings => _ ++ List.flatten readings) (List.map_congr_left fun e he => ?_)
  rcases mem_emissions he with ⟨b, hb, href, rfl⟩ | ⟨ws, hws, rfl⟩
  · rfl
  · exact tailReadings_clear hf hws (hclear ws hws)

theorem mention_issued {m : Mention} (h : m ∈ f.paramMentions ++ f.mentions) :
    m.name ∈ f.names ∧ ∀ n, m.name = .unnamed n → n ∈ f.order := by
  rcases List.mem_append.mp h with h | h
  · obtain ⟨name, hname, rfl⟩ := List.mem_map.mp h
    refine ⟨?_, ?_⟩
    · obtain ⟨v, hv, hlocal⟩ := List.mem_filterMap.mp hname
      exact List.mem_append_left _ (List.mem_filterMap.mpr ⟨v, hf.params v hv, hlocal⟩)
    · rintro n rfl
      rw [show (paramValues f.paramTypes).filterMap Value.local? = _ from valueNames_init f.paramTypes] at hname
      obtain ⟨i, -, hi⟩ := List.mem_map.mp hname
      cases hi
  · exact mention_name hf h

/-! ## Numbers -/

/-- A mention that the numbering looks at, and whether it is a definition or a label. -/
def Mention.event? (m : Mention) : Option (Bool × Nat) :=
  match m.name with
  | .text _ => none
  | .unnamed n => if m.site = .branch then none else some (m.isNumbered, n)

omit hf in
/-- When every use comes after its definition, the numbers are given in the order of the definitions. -/
theorem numberAll_events (events : List (Bool × Nat)) :
    (∀ before n after, events = before ++ (false, n) :: after → (true, n) ∈ before) →
    ((events.filter Prod.fst).map Prod.snd).Nodup →
    numberAll [] (events.map Prod.snd) = (events.filter Prod.fst).map Prod.snd := by
  induction events using List.reverseRecOn with
  | nil => exact fun _ _ => rfl
  | append_singleton events event ih =>
    intro hfirst hnodup
    obtain ⟨isDefinition, n⟩ := event
    rw [List.filter_append, List.map_append] at hnodup ⊢
    have hrest := ih (fun before k after heq => hfirst before k (after ++ [(isDefinition, n)]) (by rw [heq, List.append_assoc]; rfl))
      (List.nodup_append.mp hnodup).1
    rw [List.map_append, numberAll_append, hrest]
    change number _ n = _
    cases isDefinition with
    | true =>
      rw [number, if_neg fun hmem => (List.nodup_append.mp hnodup).2.2 n hmem n (List.mem_singleton_self n) rfl]
      rfl
    | false =>
      have hmem := hfirst events n [] rfl
      rw [number, if_pos (List.mem_map.mpr ⟨_, List.mem_filter.mpr ⟨hmem, rfl⟩, rfl⟩)]
      exact (List.append_nil _).symm

omit hf in
/-- The mentions of a function, block by block. -/
theorem mentions_filterMap {α : Type} (g : Mention → Option α) : f.mentions.filterMap g =
    f.basicBlocks.flatMap fun b => (if b.isReferenced then [⟨.label, ref b.label⟩] else []).filterMap g ++
      b.insns.flatMap fun ws => ws.filterMap fun w => w.mention?.bind g := by
  rw [FunctionDefn.mentions, FunctionDefn.emissions, List.flatMap_assoc, List.filterMap_flatMap]
  refine List.flatMap_congr fun b _ => ?_
  rw [BasicBlock.emissions, List.flatMap_append, List.filterMap_append]
  refine congrArg₂ (· ++ ·) ?_ ?_
  · cases b.isReferenced <;> rfl
  · rw [List.flatMap_map, List.filterMap_flatMap]
    exact List.flatMap_congr fun ws _ => List.filterMap_filterMap

/-- The order of the numbers is that of the mentions. -/
theorem order_eq : f.order = numberAll [] ((f.mentions.filterMap Mention.event?).map Prod.snd) := by
  rw [List.map_filterMap, mentions_filterMap, FunctionDefn.order]
  refine congrArg (numberAll []) (List.flatMap_congr fun b hb => ?_)
  rw [BasicBlock.numbers]
  refine congrArg₂ (· ++ ·) ?_ (List.flatMap_congr fun ws hws => ?_)
  · cases hl : b.label <;> cases b.isReferenced <;> rfl
  · rw [lineNumbers, List.filterMap_map]
    refine List.filterMap_congr fun w hw => ?_
    have hknown := hf.known ws (mem_insns hb hws) w hw
    have hvalue : ∀ (site : Site) (name : Name), site ≠ .branch → name ∈ f.valueNames →
        valueNumber f.isBasicBlock name = (Mention.event? ⟨site, name⟩).map Prod.snd := by
      intro site name hsite hname
      cases name with
      | text s => rfl
      | unnamed n =>
        rw [valueNumber, if_pos (hf.valuesMarked n hname), Mention.event?]
        dsimp only
        rw [if_neg hsite]
        rfl
    cases w with
    | lexeme l => rfl
    | result reg => exact hvalue .definition reg (by decide) hknown
    | operand name => exact hvalue .operand name (by decide) hknown
    | block label =>
      -- a label is not numbered where it is branched to
      obtain ⟨b', hb', -, rfl⟩ := mem_referenced.mp hknown
      have hnone : (Mention.event? ⟨.branch, ref b'.label⟩).map Prod.snd = none := by
        cases b'.label <;> rfl
      refine Eq.trans ?_ hnone.symm
      change valueNumber f.isBasicBlock (ref b'.label) = none
      cases hl : b'.label with
      | text s => rfl
      | unnamed n =>
        change valueNumber f.isBasicBlock (.unnamed n) = none
        rw [valueNumber, hf.blocksMarked b' hb' n hl, if_neg (by decide)]

/-- A definition or a label. -/
def Mention.defined? (m : Mention) : Option Name :=
  if m.site = .definition ∨ m.site = .label then some m.name else none

omit hf in
theorem flatMap_sublist {α β : Type} (p : α → Bool) (g : α → β) (l : List α) :
    (l.flatMap fun a => if p a then [g a] else []).Sublist (l.map g) := by
  induction l with
  | nil => exact List.Sublist.slnil
  | cons a l ih =>
    rw [List.flatMap_cons, List.map_cons]
    cases p a with
    | true => exact ih.cons_cons (g a)
    | false => exact ih.cons (g a)

/-- Every value and every block is defined once. -/
theorem defined_nodup : (f.mentions.filterMap Mention.defined?).Nodup := by
  have hblocks : ∀ b ∈ f.basicBlocks, (if b.isReferenced then [⟨.label, ref b.label⟩] else []).filterMap Mention.defined? ++
      b.insns.flatMap (fun ws => ws.filterMap fun w => w.mention?.bind Mention.defined?) =
        (if b.isReferenced then [ref b.label] else []) ++ b.insns.flatMap fun ws => ws.filterMap Word.result? := by
    intro b _
    refine congrArg₂ (· ++ ·) ?_ (List.flatMap_congr fun ws _ => List.filterMap_congr fun w _ => ?_)
    · cases b.isReferenced <;> rfl
    · cases w <;> rfl
  rw [mentions_filterMap, List.flatMap_congr hblocks]
  refine (List.flatMap_append_perm _ _ _).nodup_iff.mp (List.nodup_append.mpr ⟨?_, ?_, ?_⟩)
  · exact (List.nodup_append.mp hf.nodup).2.1.sublist (flatMap_sublist _ _ _)
  · have hdefinitions : f.definitions =
        f.basicBlocks.flatMap fun b => b.insns.flatMap fun ws => ws.filterMap Word.result? := by
      rw [FunctionDefn.definitions, FunctionDefn.insns, List.filterMap_flatten, ← List.flatMap_def, List.flatMap_assoc]
    exact hdefinitions ▸ hf.definitions_nodup
  · -- a block is no value
    intro a ha b hb
    obtain ⟨block, hblock, ha⟩ := List.mem_flatMap.mp ha
    obtain ⟨block', hblock', hb⟩ := List.mem_flatMap.mp hb
    obtain ⟨ws, hws, hb⟩ := List.mem_flatMap.mp hb
    obtain ⟨w, hw, hb⟩ := List.mem_filterMap.mp hb
    have hvalue : b ∈ f.valueNames := by
      have hknown := hf.known ws (mem_insns hblock' hws) w hw
      cases w with
      | result reg => exact Option.some.inj hb ▸ hknown
      | lexeme l => cases hb
      | operand name => cases hb
      | block label => cases hb
    have hlabel : a ∈ f.basicBlocks.map fun b => ref b.label := by
      split at ha
      next => exact List.mem_singleton.mp ha ▸ List.mem_map_of_mem hblock
      next => cases ha
    exact fun heq => (List.nodup_append.mp hf.nodup).2.2 b hvalue a hlabel heq.symm

omit hf in
theorem event?_isNumbered (m : Mention) : (m.isNumbered = true ∧ ∃ n, m.name = .unnamed n ∧ m.event? = some (true, n) ∧
      m.defined? = some m.name) ∨
    (m.isNumbered = false ∧ ∀ event, m.event? = some event → event.1 = false ∧ m = ⟨.operand, .unnamed event.2⟩) := by
  obtain ⟨site, name⟩ := m
  cases name with
  | text s => exact .inr ⟨rfl, fun event h => by cases h⟩
  | unnamed n =>
    cases site with
    | definition => exact .inl ⟨rfl, n, rfl, rfl, rfl⟩
    | label => exact .inl ⟨rfl, n, rfl, rfl, rfl⟩
    | operand => exact .inr ⟨rfl, fun event h => Option.some.inj h ▸ ⟨rfl, rfl⟩⟩
    | branch => exact .inr ⟨rfl, fun event h => by cases h⟩

omit hf in
theorem filter_isNumbered (ms : List Mention) :
    ((ms.filterMap Mention.event?).filter Prod.fst).map (fun event => Name.unnamed event.2) =
        (ms.filter Mention.isNumbered).map Mention.name ∧
      ((ms.filter Mention.isNumbered).map Mention.name).Sublist (ms.filterMap Mention.defined?) := by
  induction ms with
  | nil => exact ⟨rfl, List.Sublist.slnil⟩
  | cons m ms ih =>
    rcases event?_isNumbered m with ⟨hm, n, hname, hevent, hdefined⟩ | ⟨hm, hevent⟩
    · rw [List.filterMap_cons_some hevent, List.filterMap_cons_some hdefined, List.filter_cons_of_pos hm,
        List.filter_cons_of_pos rfl, List.map_cons, List.map_cons, ih.1]
      exact ⟨congrArg (· :: _) hname.symm, ih.2.cons_cons _⟩
    · rw [List.filter_cons_of_neg (by rw [hm]; exact Bool.false_ne_true)]
      refine ⟨?_, ?_⟩
      · cases he : m.event? with
        | none => rw [List.filterMap_cons_none he, ih.1]
        | some event =>
          rw [List.filterMap_cons_some he,
            List.filter_cons_of_neg (by rw [(hevent event he).1]; exact Bool.false_ne_true), ih.1]
      · cases hd : m.defined? with
        | none =>
          rw [List.filterMap_cons_none hd]
          exact ih.2
        | some name =>
          rw [List.filterMap_cons_some hd]
          exact ih.2.cons name

/-- The unnamed definitions and labels come in the order of the numbers. -/
theorem numbered_eq (hadm : Admissible f) :
    (f.mentions.filter Mention.isNumbered).map Mention.name = f.order.map Name.unnamed := by
  obtain ⟨heq, hsublist⟩ := filter_isNumbered f.mentions
  have hnodup := (defined_nodup hf).sublist hsublist
  rw [← heq, show (fun event : Bool × Nat => Name.unnamed event.2) = Name.unnamed ∘ Prod.snd from rfl,
    ← List.map_map] at hnodup ⊢
  rw [order_eq hf, numberAll_events _ ?_ hnodup.of_map]
  -- the first mention is the definition
  intro before n after hevents
  obtain ⟨ms, ms', hms, rfl, hms'⟩ := List.filterMap_eq_append_iff.mp hevents
  obtain ⟨skipped, m, rest, rfl, hskipped, hm, -⟩ := List.filterMap_eq_cons_iff.mp hms'
  rcases event?_isNumbered m with ⟨-, k, -, hk, -⟩ | ⟨-, hoperand⟩
  · rw [hm] at hk
    cases hk
  · have hoperand := (hoperand _ hm).2
    rw [hoperand, ← List.append_assoc] at hms
    have hdefined := hadm.definedFirst _ n rest hms
    rcases List.mem_append.mp hdefined with hdefined | hdefined
    · exact List.mem_filterMap.mpr ⟨_, hdefined, rfl⟩
    · cases hskipped _ hdefined

/-! ## Right bodies -/

omit hf in
theorem isLocal_read {s : Text} (h : IsLocal s) : (readLocal s).isSome = true := by
  rcases h with ⟨n, rfl⟩ | ⟨raw, rfl⟩
  · rw [readLocal_toDigits]
    rfl
  · rw [readLocal_escapeIdent]
    rfl

/-- A body is right when all lines are clear. -/
theorem assembles_of_clear (hadm : Admissible f) (hst : Numbered (f.paramTypes.length + 1) st f.order)
    (hclear : ∀ ws ∈ f.insns, Follows Clear ws) :
    Assembles f (f.emissions.map (Emission.print f.unnamedText)) st := by
  have hreadings := readings_clear hf hst hclear
  refine ⟨List.length_map _, hf.nodup, ?_, f.order.length, ?_⟩
  · rw [hreadings]
    intro r hr r' hr'
    obtain ⟨m, hm, rfl⟩ := List.mem_map.mp hr
    obtain ⟨m', hm', rfl⟩ := List.mem_map.mp hr'
    obtain ⟨hname, hnumber⟩ := mention_issued hf hm
    obtain ⟨hname', hnumber'⟩ := mention_issued hf hm'
    refine ⟨isLocal_read (issued_print _ (hf.issued _ hname)), ?_, fun h => ?_⟩
    · exact read_injective (hf.issued _ hname) (hf.issued _ hname') hnumber hnumber'
    · exact congrArg (fun name => readLocal (Name.print f.unnamedText name)) h
  · have hparams : f.paramMentions.filter Mention.isNumbered = [] := by
      refine List.filter_eq_nil_iff.mpr fun m hm => ?_
      obtain ⟨name, hname, rfl⟩ := List.mem_map.mp hm
      rw [show (paramValues f.paramTypes).filterMap Value.local? = _ from valueNames_init f.paramTypes] at hname
      obtain ⟨i, -, rfl⟩ := List.mem_map.mp hname
      exact Bool.false_ne_true
    rw [hreadings, List.filter_map, List.map_map,
      show (fun r : Mention × Option LocalName => r.1.isNumbered) ∘ f.bare = Mention.isNumbered from rfl,
      List.filter_append, hparams, List.nil_append,
      show Prod.snd ∘ f.bare = (fun name => readLocal (Name.print f.unnamedText name)) ∘ Mention.name from rfl,
      ← List.map_map, numbered_eq hf hadm, List.map_map]
    have hnodup : f.order.Nodup := numberAll_nodup List.nodup_nil _
    refine List.ext_getElem (by rw [List.length_map, List.length_map, List.length_range']) fun i hi hi' => ?_
    rw [List.getElem_map, List.getElem_map, List.getElem_range']
    refine (readLocal_toDigits _).trans ?_
    rw [hnodup.idxOf_getElem, Nat.one_mul]

/-! ## Wrong bodies -/

/-- What is read at a word of a line. -/
theorem mem_readings (hst : Numbered (f.paramTypes.length + 1) st f.order) {before : List Word}
    (hws : ws ∈ f.insns) (heq : ws = before ++ w :: after) {m : Mention} (hm : w.mention? = some m) :
    (m, readLocal (w.name.print f.unnamedText ++
      joinFrom (omitAfter (w.name.print f.unnamedText)) (after.map fun w => w.name.print f.unnamedText))) ∈
        f.readings (f.emissions.map (Emission.print f.unnamedText)) st := by
  rw [readings_eq hf hst]
  obtain ⟨b, hb, hmem⟩ := List.mem_flatMap.mp hws
  have hemission : Emission.insn ws ∈ f.emissions :=
    List.mem_flatMap.mpr ⟨b, hb, List.mem_append_right _ (List.mem_map_of_mem hmem)⟩
  exact List.mem_append_right _ (List.mem_flatMap.mpr ⟨_, hemission, mem_tailReadings heq hm⟩)

/-- A result is read right where it is defined. -/
theorem read_definition (hlines : LinesOf f insns) {before : List Word} (hws : ws ∈ f.insns)
    {reg : Name} (heq : ws = before ++ .result reg :: after) :
    readLocal (reg.print f.unnamedText ++
        joinFrom (omitAfter (reg.print f.unnamedText)) (after.map fun w => w.name.print f.unnamedText)) =
      readLocal (reg.print f.unnamedText) := by
  obtain ⟨insn, -, label, dbLocation, reg', hline⟩ := hlines.made ws hws
  have hfollows : Follows ResultClear ws := by
    rw [hline]
    refine follows_line (fun _ l hl => .inl hl) insn (fun val _ => .inr ?_) label dbLocation reg'
    cases val <;> rfl
  have hnext := follows_at (heq ▸ hfollows) rfl
  refine read_clear hf hws (w := .result reg) (heq ▸ List.mem_append_right _ (.head _)) rfl fun next hmem => ?_
  obtain ⟨l, hl, hclear⟩ := hnext next hmem
  refine ⟨l, hl, .inl ?_⟩
  rcases hclear with hclear | hclear
  · exact hclear
  · cases hclear

/-- A value whose name ends in a dot is read wrong in a conversion. -/
theorem not_assembles (hlines : LinesOf f insns) {insn : Insn} (hinsn : insn ∈ insns) {ty : Lexeme}
    {s : Text} (hcast : insn.castOperand = some (.data ty (.text s))) (hdot : s.getLast? = some '.')
    (hst : Numbered (f.paramTypes.length + 1) st f.order) :
    ¬Assembles f (f.emissions.map (Emission.print f.unnamedText)) st := by
  intro hassembles
  obtain ⟨label, dbLocation, reg, hmem⟩ := hlines.kept insn hinsn
  obtain ⟨opcode, destTy, hwords, hresult⟩ := castOperand_words hcast label
  have hline : insn.line label dbLocation reg =
      [.result reg, .lexeme EQUALS, .lexeme opcode, .lexeme ty] ++
        .operand (.text s) :: (.lexeme TO :: .lexeme destTy :: dbWords dbLocation) := by
    rw [Insn.line, if_pos hresult, hwords]
    rfl
  have hoperand : Word.operand (.text s) ∈ insn.line label dbLocation reg := by
    rw [hline]
    exact List.mem_append_right _ (.head _)
  have hvalue : .text s ∈ f.valueNames := hf.known _ hmem _ hoperand
  have hlocal : IsLocal s := issued_print _ (hf.issued _ (List.mem_append_left _ hvalue))
  have huse := mem_readings hf hst hmem hline (m := ⟨.operand, .text s⟩) rfl
  rcases hf.defined _ hvalue with ⟨i, -, hi⟩ | hdefined
  · exact toDigits_last i (Name.text.inj hi ▸ hdot)
  · obtain ⟨w, hw, hr⟩ := List.mem_filterMap.mp hdefined
    obtain ⟨ws, hws, hw⟩ := List.mem_flatten.mp hw
    have hwresult : w = .result (.text s) := by
      cases w with
      | result reg' => exact congrArg Word.result (Option.some.inj hr)
      | lexeme l => cases hr
      | operand name => cases hr
      | block label => cases hr
    obtain ⟨before, after, hsplit⟩ := List.append_of_mem hw
    rw [hwresult] at hsplit
    have hdefinition := mem_readings hf hst hws hsplit (m := ⟨.definition, .text s⟩) rfl
    have hread := read_definition hf hlines hws hsplit
    have hagree := (hassembles.agree _ huse _ hdefinition).2.mpr rfl
    exact readLocal_dot hlocal hdot _ (hagree.trans hread)

end Function

theorem not_outputBody_assembles {paramTypes : List Lexeme} {ops : List Op} {st : State}
    (hrun : run (State.init paramTypes) ops = some st) (hadm : Admissible st.defn) {insn : Insn}
    (hinsn : insn ∈ insnsOf ops) {ty : Lexeme} (hcast : insn.castOperand = some (.data ty (.text s)))
    (hdot : s.getLast? = some '.') :
    ¬∃ lines numbering, st.defn.outputBody = some (lines, numbering) ∧ Assembles st.defn lines numbering := by
  obtain ⟨hf, hlines⟩ := run_invariant hrun
  obtain ⟨numbering, hout, hst⟩ := outputBody_built hf hlines hadm.others
  rintro ⟨lines, numbering', hout', hassembles⟩
  rw [hout, Option.some.injEq, Prod.mk.injEq] at hout'
  obtain ⟨rfl, rfl⟩ := hout'
  exact not_assembles hf hlines hinsn hcast hdot hst hassembles

/-- The body of a function can be assembled if and only if no conversion is asked for of a value whose
name ends in a dot. -/
theorem outputBody_assembles_iff {paramTypes : List Lexeme} {ops : List Op} {st : State}
    (hrun : run (State.init paramTypes) ops = some st) (hadm : Admissible st.defn) :
    (∃ lines numbering, st.defn.outputBody = some (lines, numbering) ∧ Assembles st.defn lines numbering) ↔
      ∀ insn ∈ insnsOf ops, ∀ ty s, insn.castOperand = some (.data ty (.text s)) → s.getLast? ≠ some '.' := by
  refine ⟨fun h insn hinsn ty s hcast hdot => not_outputBody_assembles hrun hadm hinsn hcast hdot h, fun hdots => ?_⟩
  obtain ⟨hf, hlines⟩ := run_invariant hrun
  obtain ⟨numbering, hout, hst⟩ := outputBody_built hf hlines hadm.others
  refine ⟨_, numbering, hout, assembles_of_clear hf hadm hst fun ws hws => ?_⟩
  obtain ⟨insn, hinsn, label, dbLocation, reg, hline⟩ := hlines.made ws hws
  rw [hline]
  refine follows_line (fun _ l hl => .inl hl) insn (fun val hcast => .inr ⟨rfl, fun hmention s hs => ?_⟩)
    label dbLocation reg
  cases val with
  | const ty operand => cases hmention
  | data ty operand =>
    obtain rfl : operand = .text s := hs
    exact hdots insn hinsn ty s hcast

/-! ## Two bodies -/

theorem admissible_of_all {f : FunctionDefn}
    (first : ∀ b ∈ f.basicBlocks.head?, b.label.isUnnamed = true ∧ b.isReferenced = false)
    (others : ∀ b ∈ f.basicBlocks.tail, b.isReferenced = true)
    (definedFirst : ∀ i ∈ List.range f.mentions.length, ∀ m ∈ f.mentions[i]?, m.site = .operand →
      m.name.isUnnamed = true → ⟨.definition, m.name⟩ ∈ f.mentions.take i) : Admissible f := by
  refine ⟨fun b hb => ?_, others, fun before n after hsplit => ?_⟩
  · obtain ⟨hlabel, href⟩ := first b hb
    refine ⟨?_, href⟩
    cases hl : b.label with
    | text s =>
      rw [hl] at hlabel
      cases hlabel
    | unnamed n => exact ⟨n, rfl⟩
  · have hget : f.mentions[before.length]? = some ⟨.operand, .unnamed n⟩ := by
      rw [hsplit, List.getElem?_append_right (Nat.le_refl _), Nat.sub_self]
      rfl
    have hmem := definedFirst before.length (List.mem_range.mpr (List.getElem?_eq_some_iff.mp hget).1) _ hget rfl rfl
    rwa [hsplit, List.take_left] at hmem

def i64 : Lexeme := ⟨['i', '6', '4'], by decide⟩
def i1 : Lexeme := ⟨['i', '1'], by decide⟩
def param0 : Value := .data i64 (.text ['%', '0'])

/-- Twice the parameter under the name `x.`. -/
def doubled : Value := .data i64 (.text ['%', 'x', '.'])

/-- A body with two blocks, a name that is asked for twice and names that are not given. -/
def branchOps : List Op :=
  [.appendBasicBlock none, .appendBasicBlock none, .positionAtEnd 0,
    .build (.binaryOpWrap (.int .add) param0 param0) (some ['x', '.']),
    .build (.iCmp .eq doubled param0) (some ['x', '.']),
    .build (.iCmp .eq doubled param0) none,
    .build (.condBr (.data i1 (.unnamed 2)) 1 1) none, .positionAtEnd 1, .build (.ret (some doubled)) none]

/-- `trunc` of the value `x.`. -/
def truncOps : List Op :=
  [.appendBasicBlock none, .positionAtEnd 0,
    .build (.binaryOpWrap (.int .add) param0 param0) (some ['x', '.']),
    .build (.trunc doubled i1) none, .build (.ret none) none]

example : ((run (State.init [i64]) truncOps).bind fun st => st.defn.outputBody).map Prod.fst =
    some ["  %x.= add i64 %0, %0".toList, "  %2 = trunc i64 %x.to i1".toList, "  ret void".toList] := by
  decide

theorem outputBody_branchOps : ∃ st, run (State.init [i64]) branchOps = some st ∧
    ∃ lines numbering, st.defn.outputBody = some (lines, numbering) ∧ Assembles st.defn lines numbering := by
  have hrun : run (State.init [i64]) branchOps = some ((run (State.init [i64]) branchOps).get (by decide)) := rfl
  refine ⟨_, hrun, (outputBody_assembles_iff hrun ?_).mpr ?_⟩
  · exact admissible_of_all (by decide) (by decide) (by decide)
  · have hcasts : ∀ insn ∈ insnsOf branchOps, insn.castOperand = none := by decide
    intro insn hinsn ty s hcast
    rw [hcasts insn hinsn] at hcast
    cases hcast

/-- The name `x.to` is read where `x.` is meant. -/
theorem not_outputBody_truncOps : ∃ st, run (State.init [i64]) truncOps = some st ∧ Admissible st.defn ∧
    ¬∃ lines numbering, st.defn.outputBody = some (lines, numbering) ∧ Assembles st.defn lines numbering := by
  have hrun : run (State.init [i64]) truncOps = some ((run (State.init [i64]) truncOps).get (by decide)) := rfl
  have hadm := admissible_of_all (f := ((run (State.init [i64]) truncOps).get (by decide)).defn)
    (by decide) (by decide) (by decide)
  exact ⟨_, hrun, hadm, not_outputBody_assembles hrun hadm (List.mem_of_getElem? (i := 1) rfl) rfl rfl⟩

end Nballerina.PrintLlvm
