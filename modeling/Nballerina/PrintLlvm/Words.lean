import Nballerina.PrintLlvm.Ident

/-!
# Words and lines (`print.llvm`)

A line of LLVM is printed from its words: `concat` puts a blank between two words unless a bracket or a
point of punctuation makes that unnecessary. What it decides depends on the last character of one word
and the first one of the next (`joinFrom`), so a line that is put together in chunks, as `addInsn` does
it, comes out the same (`concat_chunks`).

Mirroring notes:
- `concat` looks at the last of the parts it has so far; that is the last word, never a blank.
- `addInsn` joins the words between two unnamed ones at once. The chunks it makes are a function of
  the words.
-/

namespace Nballerina.PrintLlvm

/-- `string|Unnamed`: a text, or the number of an unnamed value or block. -/
inductive Name where
  | text (s : Text)
  | unnamed (n : Nat)
deriving DecidableEq, Repr

/-! ## `concat` -/

def omitSpaceBefore (word : Text) : Bool :=
  [[','], ['('], [')'], ['}'], ['"'], [']'], ['*'], [':'], ['.']].contains word

def omitSpaceAfter (word : Text) : Bool :=
  [['('], ['{'], ['"'], ['['], ['.'], ['!']].contains word

/-- White space of `string:trim`. -/
def isWhiteSpace (ch : Char) : Bool := (decide (0x9 ≤ ch.toNat) && decide (ch.toNat ≤ 0xD)) || ch == ' '

def trim (cs : Text) : Text := ((cs.dropWhile isWhiteSpace).reverse.dropWhile isWhiteSpace).reverse

variable {ch : Char} {word : Text} {words : List Text}

theorem isIdentFollow_of_isDigit (h : isDigit ch = true) : isIdentFollow ch = true := by
  rw [isIdentFollow, isAlnum, h, Bool.or_true, Bool.true_or]

theorem isWhiteSpace_of_isIdentFollow (h : isIdentFollow ch = true) : isWhiteSpace ch = false := by
  have hge : 0x21 ≤ ch.toNat := by
    simp only [isIdentFollow, isAlnum, isAlpha, isDigit, isIdentOther, Bool.or_eq_true, Bool.and_eq_true,
      decide_eq_true_eq, beq_iff_eq] at h
    rcases h with ((⟨hle, -⟩ | ⟨hle, -⟩) | ⟨hle, -⟩) | ((rfl | rfl) | rfl) | rfl
    · exact Nat.le_trans (by decide) (show 'a'.toNat ≤ ch.toNat from hle)
    · exact Nat.le_trans (by decide) (show 'A'.toNat ≤ ch.toNat from hle)
    · exact Nat.le_trans (by decide) (show '0'.toNat ≤ ch.toNat from hle)
    · decide
    · decide
    · decide
    · decide
  refine Bool.or_eq_false_iff.mpr ⟨Bool.and_eq_false_iff.mpr (.inr (decide_eq_false (by omega))), ?_⟩
  refine beq_eq_false_iff_ne.mpr ?_
  rintro rfl
  exact absurd hge (by decide)

/-- No blank goes before the word. -/
def omitBefore (word : Text) : Bool :=
  let head := word.take 1
  omitSpaceBefore word || (head != ['"'] && omitSpaceBefore head)

/-- No blank goes after the word. -/
def omitAfter (part : Text) : Bool :=
  let lastTail := part.getLast?.toList
  omitSpaceAfter part || (lastTail != ['"'] && omitSpaceAfter lastTail)

/-- A round of the loop of `concat`. -/
def concatStep (parts : List Text) (word : Text) : List Text :=
  match parts.getLast? with
  | none => parts ++ [word]
  | some part =>
    if !omitBefore word && !omitAfter part then parts ++ [[' ']] ++ [word] else parts ++ [word]

def concat (words : List Text) : Text := trim (words.foldl concatStep []).flatten

def createLine (words : List Text) (indent : Text) : Text := indent ++ concat words

def INDENT : Text := [' ', ' ']

/-- The loop of `addInsn`, from the current chunk and the words that are left. -/
def chunksLoop (currentChunk : List Text) : List Name → List Name
  | [] => if currentChunk.length > 0 then [.text (concat currentChunk)] else []
  | .text s :: words => chunksLoop (currentChunk ++ [s]) words
  | .unnamed n :: words => .text (concat currentChunk) :: .unnamed n :: chunksLoop [] words

/-- What `addInsn` adds to the lines of a block. -/
def chunks (words : List Name) : List Name := chunksLoop [] words

/-! ## Words joined -/

/-- The words with the blanks between them; `tight` when none goes before the first one. -/
def joinFrom (tight : Bool) : List Text → Text
  | [] => []
  | word :: words => (if tight || omitBefore word then [] else [' ']) ++ word ++ joinFrom (omitAfter word) words

/-- Whether a blank is left out after the words. -/
def tightAfter (tight : Bool) : List Text → Bool
  | [] => tight
  | word :: words => tightAfter (omitAfter word) words

theorem joinFrom_append (tight : Bool) (words others : List Text) :
    joinFrom tight (words ++ others) = joinFrom tight words ++ joinFrom (tightAfter tight words) others := by
  induction words generalizing tight with
  | nil => rfl
  | cons word words ih => rw [List.cons_append, joinFrom, ih, joinFrom, tightAfter, ← List.append_assoc]

theorem foldl_concatStep (words : List Text) (parts : List Text) (part : Text) (hlast : parts.getLast? = some part) :
    (words.foldl concatStep parts).flatten = parts.flatten ++ joinFrom (omitAfter part) words := by
  induction words generalizing parts part with
  | nil => exact (List.append_nil _).symm
  | cons word words ih =>
    have hstep : (concatStep parts word).getLast? = some word ∧ (concatStep parts word).flatten =
        parts.flatten ++ ((if omitAfter part || omitBefore word then [] else [' ']) ++ word) := by
      simp only [concatStep, hlast]
      cases omitBefore word <;> cases omitAfter part <;>
        simp only [Bool.not_true, Bool.not_false, Bool.and_true, Bool.and_false, Bool.or_true, Bool.or_false,
          ↓reduceIte, Bool.false_eq_true, List.getLast?_append, List.getLast?_singleton, Option.some_or,
          List.flatten_append, List.flatten_cons, List.flatten_nil, List.append_nil, List.append_assoc,
          List.nil_append, true_and]
    rw [List.foldl_cons, ih _ _ hstep.1, hstep.2, joinFrom, List.append_assoc]

theorem concat_eq (words : List Text) : concat words = trim (joinFrom true words) := by
  cases words with
  | nil => rfl
  | cons word words =>
    have h := foldl_concatStep words [word] word List.getLast?_singleton
    rw [concat, List.foldl_cons, show concatStep [] word = [word] from rfl, h, joinFrom, Bool.true_or, if_pos rfl,
      List.flatten_singleton, List.nil_append]

/-! ## Words that are not blank at their ends -/

/-- A word that `trim` leaves alone, and that is not a lone quote. -/
def Solid (word : Text) : Prop :=
  word ≠ [] ∧ (∀ ch ∈ word.head?, isWhiteSpace ch = false) ∧
    (∀ ch ∈ word.getLast?, isWhiteSpace ch = false) ∧ word ≠ ['"']

def isSolid (word : Text) : Bool :=
  !word.isEmpty && !word.head?.any isWhiteSpace && !word.getLast?.any isWhiteSpace && word != ['"']

theorem isSolid_iff (word : Text) : isSolid word = true ↔ Solid word := by
  have hany : ∀ o : Option Char, (!o.any isWhiteSpace) = true ↔ ∀ ch ∈ o, isWhiteSpace ch = false := by
    intro o
    cases o with
    | none => exact iff_of_true rfl fun ch hch => by cases hch
    | some c =>
      rw [Option.any_some, Bool.not_eq_true']
      refine ⟨fun h ch hch => ?_, fun h => h c rfl⟩
      rwa [← Option.some.inj hch]
  unfold isSolid Solid
  rw [Bool.and_eq_true, Bool.and_eq_true, Bool.and_eq_true, hany, hany, bne_iff_ne, Bool.not_eq_true',
    List.isEmpty_eq_false_iff]
  exact and_assoc.trans and_assoc

instance (word : Text) : Decidable (Solid word) := decidable_of_iff _ (isSolid_iff word)

theorem trim_solid (hhead : ∀ ch ∈ word.head?, isWhiteSpace ch = false)
    (hlast : ∀ ch ∈ word.getLast?, isWhiteSpace ch = false) : trim word = word := by
  have hdrop : ∀ cs : Text, (∀ ch ∈ cs.head?, isWhiteSpace ch = false) → cs.dropWhile isWhiteSpace = cs := by
    intro cs h
    cases cs with
    | nil => rfl
    | cons ch cs =>
      refine List.dropWhile_cons_of_neg ?_
      rw [h ch (Option.mem_some_self ch)]
      exact Bool.false_ne_true
  rw [trim, hdrop word hhead, hdrop word.reverse fun ch h => hlast ch (List.head?_reverse ▸ h), List.reverse_reverse]

theorem contains_singletons (h : ∀ w ∈ words, w.length = 1) (hlen : 2 ≤ word.length) :
    words.contains word = false := by
  by_contra hc
  have hmem : word ∈ words := List.contains_iff_mem.mp (eq_true_of_ne_false hc)
  have := h word hmem
  omega

theorem omitSpaceBefore_long (h : 2 ≤ word.length) : omitSpaceBefore word = false :=
  contains_singletons (by decide) h

theorem omitSpaceAfter_long (h : 2 ≤ word.length) : omitSpaceAfter word = false :=
  contains_singletons (by decide) h

/-- What goes before a word is decided by its first character. -/
theorem omitBefore_solid {cs : Text} (h : Solid (ch :: cs)) :
    omitBefore (ch :: cs) = (ch != '"' && omitSpaceBefore [ch]) := by
  unfold omitBefore
  cases cs with
  | nil =>
    have hne : ch ≠ '"' := fun hc => h.2.2.2 (congrArg (· :: []) hc)
    rw [bne_iff_ne.mpr hne, Bool.true_and]
    dsimp only [List.take]
    rw [bne_iff_ne.mpr h.2.2.2, Bool.true_and, Bool.or_self]
  | cons next cs =>
    rw [omitSpaceBefore_long (by rw [List.length_cons, List.length_cons]; omega), Bool.false_or]
    dsimp only [List.take]
    congr 1
    rw [Bool.eq_iff_iff, bne_iff_ne, bne_iff_ne, ne_eq, ne_eq, List.cons.injEq, and_iff_left rfl]

/-- What goes after a word is decided by its last character. -/
theorem omitAfter_solid {cs : Text} (h : Solid (cs ++ [ch])) :
    omitAfter (cs ++ [ch]) = (ch != '"' && omitSpaceAfter [ch]) := by
  unfold omitAfter
  rw [List.getLast?_append, List.getLast?_singleton, Option.some_or]
  dsimp only [Option.toList]
  cases cs with
  | nil =>
    rw [List.nil_append] at h ⊢
    have hne : ch ≠ '"' := fun hc => h.2.2.2 (congrArg (· :: []) hc)
    rw [bne_iff_ne.mpr hne, bne_iff_ne.mpr h.2.2.2, Bool.true_and, Bool.or_self]
  | cons first cs =>
    rw [omitSpaceAfter_long (by rw [List.length_append, List.length_cons, List.length_singleton]; omega),
      Bool.false_or]
    congr 1
    rw [Bool.eq_iff_iff, bne_iff_ne, bne_iff_ne, ne_eq, ne_eq, List.cons.injEq, and_iff_left rfl]

theorem omitBefore_congr {v w : Text} (hv : Solid v) (hw : Solid w) (h : v.head? = w.head?) :
    omitBefore v = omitBefore w := by
  cases v with
  | nil => exact absurd rfl hv.1
  | cons c cs =>
    cases w with
    | nil => exact absurd rfl hw.1
    | cons d ds =>
      obtain rfl : c = d := Option.some.inj h
      rw [omitBefore_solid hv, omitBefore_solid hw]

theorem omitAfter_congr {v w : Text} (hv : Solid v) (hw : Solid w) (h : v.getLast? = w.getLast?) :
    omitAfter v = omitAfter w := by
  rcases List.eq_nil_or_concat v with rfl | ⟨cs, c, rfl⟩
  · exact absurd rfl hv.1
  · rcases List.eq_nil_or_concat w with rfl | ⟨ds, d, rfl⟩
    · exact absurd rfl hw.1
    · rw [List.concat_eq_append] at hv h ⊢
      rw [List.concat_eq_append] at hw h ⊢
      rw [List.getLast?_append, List.getLast?_append] at h
      obtain rfl : c = d := Option.some.inj h
      rw [omitAfter_solid hv, omitAfter_solid hw]

/-- Solid words joined are a solid word, which starts like the first one and ends like the last. -/
theorem joinFrom_solid (word : Text) (words : List Text) (h : ∀ w ∈ word :: words, Solid w) :
    Solid (joinFrom true (word :: words)) ∧ (joinFrom true (word :: words)).head? = word.head? ∧
      omitAfter (joinFrom true (word :: words)) = tightAfter true (word :: words) := by
  have hlast : ∀ (words : List Text) (word : Text) (tight : Bool), (∀ w ∈ word :: words, Solid w) →
      ∃ last, Solid last ∧ (joinFrom tight (word :: words)).getLast? = last.getLast? ∧
        omitAfter last = tightAfter tight (word :: words) := by
    intro words
    induction words with
    | nil =>
      intro word tight h
      have hword := h word (.head _)
      refine ⟨word, hword, ?_, rfl⟩
      rw [joinFrom, joinFrom, List.append_nil, List.getLast?_append]
      cases hw : word.getLast? with
      | none => exact absurd (List.getLast?_eq_none_iff.mp hw) hword.1
      | some ch => rfl
    | cons next words ih =>
      intro word tight h
      obtain ⟨last, hsolid, heq, hafter⟩ := ih next (omitAfter word) fun w hw => h w (.tail _ hw)
      refine ⟨last, hsolid, ?_, hafter⟩
      rw [joinFrom, List.getLast?_append, heq]
      cases hl : last.getLast? with
      | none => exact absurd (List.getLast?_eq_none_iff.mp hl) hsolid.1
      | some ch => rfl
  have hword := h word (.head _)
  obtain ⟨last, hsolid, heq, hafter⟩ := hlast words word true h
  have hcons : joinFrom true (word :: words) = word ++ joinFrom (omitAfter word) words := by
    rw [joinFrom, Bool.true_or, if_pos rfl, List.nil_append]
  have hhead : (joinFrom true (word :: words)).head? = word.head? := by
    rw [hcons]
    exact List.head?_append_of_ne_nil _ hword.1
  have hjoin : Solid (joinFrom true (word :: words)) := by
    refine ⟨?_, ?_, ?_, ?_⟩
    · rw [hcons]
      exact List.append_ne_nil_of_left_ne_nil hword.1 _
    · rw [hhead]
      exact hword.2.1
    · rw [heq]
      exact hsolid.2.2.1
    · rw [hcons]
      intro hquote
      cases word with
      | nil => exact hword.1 rfl
      | cons ch cs =>
        obtain ⟨rfl, hrest⟩ := List.cons.inj hquote
        exact hword.2.2.2 (congrArg (_ :: ·) (List.append_eq_nil_iff.mp hrest).1)
  exact ⟨hjoin, hhead, (omitAfter_congr hjoin hsolid heq).trans hafter⟩

/-- Solid words joined can be joined again. -/
theorem joinFrom_group (tight : Bool) (hne : words ≠ []) (h : ∀ w ∈ words, Solid w) (others : List Text) :
    joinFrom tight (joinFrom true words :: others) = joinFrom tight (words ++ others) := by
  cases words with
  | nil => exact absurd rfl hne
  | cons word words =>
    obtain ⟨hsolid, hhead, hafter⟩ := joinFrom_solid word words h
    rw [joinFrom_append, joinFrom, hafter, omitBefore_congr hsolid (h word (.head _)) hhead]
    rw [joinFrom, joinFrom, Bool.true_or, if_pos rfl, List.nil_append]
    simp only [List.append_assoc]
    rfl

theorem concat_solid (h : ∀ w ∈ words, Solid w) : concat words = joinFrom true words := by
  rw [concat_eq]
  cases words with
  | nil => rfl
  | cons word words =>
    obtain ⟨hsolid, -, -⟩ := joinFrom_solid word words h
    exact trim_solid hsolid.2.1 hsolid.2.2.1

/-! ## Chunks -/

def Name.isUnnamed : Name → Bool
  | .text _ => false
  | .unnamed _ => true

/-- No two unnamed words come one after the other. -/
def Separated : List Name → Prop
  | [] => True
  | word :: words => (word.isUnnamed = true → ∀ next ∈ words.head?, next.isUnnamed = false) ∧ Separated words

section Chunks

variable (unnamed : Nat → Text)

/-- The text of a word, from what is printed for the unnamed values and blocks. -/
def Name.print : Name → Text
  | .text s => s
  | .unnamed n => unnamed n

variable {unnamed}

theorem joinFrom_chunksLoop {words : List Name} (hsep : Separated words)
    (hwords : ∀ w ∈ words, Solid (w.print unnamed)) {currentChunk : List Text}
    (hstart : currentChunk ≠ [] ∨ ∀ w ∈ words.head?, w.isUnnamed = false)
    (hcurrent : ∀ w ∈ currentChunk, Solid w) (tight : Bool) :
    joinFrom tight ((chunksLoop currentChunk words).map (Name.print unnamed)) =
      joinFrom tight (currentChunk ++ words.map (Name.print unnamed)) := by
  induction words generalizing currentChunk tight with
  | nil =>
    rw [chunksLoop]
    split
    next hlen =>
      rw [concat_solid hcurrent]
      exact joinFrom_group tight (List.length_pos_iff.mp hlen) hcurrent []
    next hlen =>
      rw [List.length_eq_zero_iff.mp (by omega : currentChunk.length = 0)]
      rfl
  | cons word words ih =>
    have hwords' : ∀ w ∈ words, Solid (w.print unnamed) := fun w hw => hwords w (.tail _ hw)
    cases word with
    | text s =>
      have hs : Solid s := hwords _ (.head _)
      have hcurrent' : ∀ w ∈ currentChunk ++ [s], Solid w := by
        intro w hw
        rcases List.mem_append.mp hw with hw | hw
        · exact hcurrent w hw
        · rw [List.mem_singleton.mp hw]
          exact hs
      have hne : currentChunk ++ [s] ≠ [] := List.append_ne_nil_of_right_ne_nil _ (List.cons_ne_nil _ _)
      rw [chunksLoop, ih hsep.2 hwords' (.inl hne) hcurrent', List.append_assoc]
      rfl
    | unnamed n =>
      have hne : currentChunk ≠ [] := by
        rcases hstart with hne | hstart
        · exact hne
        · cases hstart _ (Option.mem_some_self _)
      -- the words after it begin a chunk of their own
      have hrest : ∀ tight, joinFrom tight ((chunksLoop [] words).map (Name.print unnamed)) = _ :=
        ih hsep.2 hwords' (.inr (hsep.1 rfl)) (List.forall_mem_nil _)
      have hchunk : (Name.text (concat currentChunk)).print unnamed = joinFrom true currentChunk :=
        concat_solid hcurrent
      rw [chunksLoop, List.map_cons, List.map_cons, List.map_cons, hchunk, joinFrom_group tight hne hcurrent,
        joinFrom_append, joinFrom_append, joinFrom, joinFrom, hrest, List.nil_append]

/-- A line comes out of its chunks as it does of its words. -/
theorem concat_chunks {words : List Name} (hsep : Separated words)
    (hwords : ∀ w ∈ words, Solid (w.print unnamed))
    (hpercent : ∀ n, ∃ cs, unnamed n = '%' :: cs) :
    concat ((chunks words).map (Name.print unnamed)) = joinFrom true (words.map (Name.print unnamed)) := by
  have hsolid : ∀ w ∈ words.map (Name.print unnamed), Solid w := by
    intro w hw
    obtain ⟨word, hword, rfl⟩ := List.mem_map.mp hw
    exact hwords word hword
  rw [concat_eq, chunks]
  by_cases hstart : ∀ w ∈ words.head?, w.isUnnamed = false
  · rw [joinFrom_chunksLoop hsep hwords (.inr hstart) (List.forall_mem_nil _), List.nil_append,
      ← concat_eq, concat_solid hsolid]
  · -- the chunk before the first word is empty, and `trim` drops the blank after it
    cases words with
    | nil =>
      refine absurd (fun w hw => ?_) hstart
      cases hw
    | cons word words =>
      cases word with
      | text s =>
        refine absurd (fun w hw => ?_) hstart
        rw [← Option.some.inj hw]
        rfl
      | unnamed n =>
        have hrest : joinFrom _ ((chunksLoop [] words).map (Name.print unnamed)) = _ :=
          joinFrom_chunksLoop hsep.2 (fun w hw => hwords w (.tail _ hw)) (.inr (hsep.1 rfl))
            (List.forall_mem_nil _) (omitAfter (unnamed n))
        obtain ⟨cs, hcs⟩ := hpercent n
        have hbefore : omitBefore (unnamed n) = false := by
          rw [hcs, omitBefore_solid (hcs ▸ hwords _ (.head _))]
          rfl
        have hline : joinFrom true ((chunksLoop [] (.unnamed n :: words)).map (Name.print unnamed)) =
            ' ' :: joinFrom true ((Name.unnamed n :: words).map (Name.print unnamed)) := by
          rw [chunksLoop, List.map_cons, List.map_cons, List.map_cons, show concat [] = [] from rfl]
          simp only [Name.print, joinFrom, hbefore, hrest, Bool.true_or, if_pos, List.nil_append]
          rfl
        obtain ⟨hjoin, -, -⟩ := joinFrom_solid ((Name.unnamed n).print unnamed) (words.map (Name.print unnamed)) hsolid
        rw [hline]
        exact trim_solid hjoin.2.1 hjoin.2.2.1

end Chunks

end Nballerina.PrintLlvm
