import Mathlib.Data.List.Nodup
import Nballerina.PrintLlvm.Builder

/-!
# Printing a body (`print.llvm`)

`outputBody` goes over the blocks twice. The first pass numbers the labels that are branched to and the
unnamed values in the order in which it comes to them; a branch to an unnamed block has to wait for the
second one, since its label may come later. What a name is printed as is then a function of the order in
which the unnamed ones were numbered (`outputBody_eq`).

Mirroring notes:
- `nameCounter` and `nameTranslation` change in these passes only, and are a state of their own here
  (`Numbering`). A member of `nameTranslation` that is not assigned to is the empty string.
- A panic has no result.
-/

namespace Nballerina.PrintLlvm

structure Numbering where
  nameCounter : Nat
  nameTranslation : List Text
deriving DecidableEq

/-- A block after the first pass. -/
structure UpdatedBlock where
  label : Name
  lines : List (List Name)
  isReferenced : Bool
deriving DecidableEq

/-- Each member of a list in turn, with a state. -/
def mapState {σ α β : Type} (f : σ → α → Option (β × σ)) : σ → List α → Option (List β × σ)
  | s, [] => some ([], s)
  | s, x :: xs => do
    let (y, s) ← f s x
    let (ys, s) ← mapState f s xs
    return (y :: ys, s)

def updateBasicBlockLabel (st : Numbering) (label : Nat) : Text × Numbering :=
  let newLabel := Nat.toDigits 10 st.nameCounter
  (newLabel, ⟨st.nameCounter + 1, arraySet [] st.nameTranslation label ('%' :: newLabel)⟩)

def updateUnnamed (isBasicBlock : List Bool) (st : Numbering) : Name → Option (Name × Numbering)
  | .text s => some (.text s, st)
  | .unnamed name =>
    match isBasicBlock[name]? with
    | none => none
    | some true => some (.unnamed name, st)
    | some false =>
      match st.nameTranslation[name]? with
      | some (ch :: cs) => some (.text (ch :: cs), st)
      | _ =>
        let newName := '%' :: Nat.toDigits 10 st.nameCounter
        some (.text newName, ⟨st.nameCounter + 1, arraySet [] st.nameTranslation name newName⟩)

def updateBasicBlockRef (isBasicBlock : List Bool) (st : Numbering) : Name → Option Text
  | .text s => some s
  | .unnamed name =>
    match isBasicBlock[name]? with
    | some true => st.nameTranslation[name]?
    | _ => none

/-- `BasicBlock.updateUnnamed`. -/
def BasicBlock.updateUnnamed (isBasicBlock : List Bool) (st : Numbering) (b : BasicBlock) :
    Option (UpdatedBlock × Numbering) := do
  let (label, st) := match b.label with
    | .unnamed n =>
      if b.isReferenced then
        let (newLabel, st) := updateBasicBlockLabel st n
        (Name.text newLabel, st)
      else (b.label, st)
    | .text _ => (b.label, st)
  let (lines, st) ← mapState (mapState (PrintLlvm.updateUnnamed isBasicBlock)) st b.lines
  return (⟨label, lines, b.isReferenced⟩, st)

/-- The label that `BasicBlock.output` starts with. -/
def UpdatedBlock.labelLines (isFirst : Bool) (b : UpdatedBlock) : Option (List Text) :=
  if b.isReferenced then
    match b.label with
    | .text label => some [label ++ [':']]
    | .unnamed _ => none
  else if isFirst then some []
  else none

/-- `BasicBlock.output`. -/
def UpdatedBlock.output (isBasicBlock : List Bool) (st : Numbering) (isFirst : Bool) (b : UpdatedBlock) :
    Option (List Text) := do
  let labelLines ← b.labelLines isFirst
  let lines ← b.lines.mapM fun line => do
    let newLine ← line.mapM (updateBasicBlockRef isBasicBlock st)
    return createLine [concat newLine] INDENT
  return labelLines ++ lines

/-- The second loop of `outputBody`. -/
def outputBlocks (isBasicBlock : List Bool) (st : Numbering) : Bool → List UpdatedBlock → Option (List Text)
  | _, [] => some []
  | isFirst, b :: bs => do
    let lines ← b.output isBasicBlock st isFirst
    let others ← outputBlocks isBasicBlock st false bs
    return lines ++ others

/-- `outputBody`: the lines, and what the unnamed values and blocks were printed as. -/
def FunctionDefn.outputBody (f : FunctionDefn) : Option (List Text × Numbering) := do
  let (blocks, st) ← mapState (BasicBlock.updateUnnamed f.isBasicBlock) ⟨f.paramTypes.length + 1, []⟩ f.basicBlocks
  let lines ← outputBlocks f.isBasicBlock st true blocks
  return (lines, st)

/-! ## The order of the numbers -/

/-- One more number is given, unless there is one already. -/
def number (order : List Nat) (n : Nat) : List Nat := if n ∈ order then order else order ++ [n]

def numberAll (order ns : List Nat) : List Nat := ns.foldl number order

theorem prefix_number (order : List Nat) (n : Nat) : order <+: number order n := by
  unfold number
  split
  · exact List.prefix_rfl
  · exact List.prefix_append _ _

theorem prefix_numberAll (order ns : List Nat) : order <+: numberAll order ns := by
  induction ns generalizing order with
  | nil => exact List.prefix_rfl
  | cons n ns ih => exact (prefix_number order n).trans (ih _)

theorem numberAll_append (order ns ms : List Nat) : numberAll order (ns ++ ms) = numberAll (numberAll order ns) ms :=
  List.foldl_append

theorem mem_numberAll {order ns : List Nat} {m : Nat} : m ∈ numberAll order ns ↔ m ∈ order ∨ m ∈ ns := by
  induction ns generalizing order with
  | nil => exact ⟨.inl, fun h => h.resolve_right List.not_mem_nil⟩
  | cons n ns ih =>
    rw [show numberAll order (n :: ns) = numberAll (number order n) ns from rfl, ih, List.mem_cons]
    unfold number
    split
    next hn =>
      refine ⟨fun h => h.imp_right .inr, ?_⟩
      rintro (h | rfl | h)
      · exact .inl h
      · exact .inl hn
      · exact .inr h
    next hn => rw [List.mem_append, List.mem_singleton, or_assoc]

theorem numberAll_nodup {order : List Nat} (h : order.Nodup) (ns : List Nat) : (numberAll order ns).Nodup := by
  induction ns generalizing order with
  | nil => exact h
  | cons n ns ih =>
    refine ih ?_
    unfold number
    split
    next => exact h
    next hn => exact List.nodup_append.mpr ⟨h, List.nodup_singleton n, fun a ha b hb hab =>
        hn (List.mem_singleton.mp hb ▸ hab ▸ ha)⟩

/-- What the members of the order are printed as: the first one has the number `start`. -/
def numberText (start : Nat) (order : List Nat) (n : Nat) : Text := '%' :: Nat.toDigits 10 (start + order.idxOf n)

variable {n start : Nat} {α β : Type} {final : List Nat} {isBasicBlock : List Bool} {st : Numbering}

theorem numberText_mono {order : List Nat} (h : order <+: final) (hn : n ∈ order) :
    numberText start final n = numberText start order n := by
  obtain ⟨rest, rfl⟩ := h
  rw [numberText, numberText, List.idxOf_append_of_mem hn]

/-- The state of the numbering after the members of `order` got their numbers. -/
structure Numbered (start : Nat) (st : Numbering) (order : List Nat) : Prop where
  counter : st.nameCounter = start + order.length
  named : ∀ n ∈ order, st.nameTranslation[n]? = some (numberText start order n)
  unnamed : ∀ n ∉ order, ∀ s ∈ st.nameTranslation[n]?, s = []

theorem getElem?_arraySet_self (filler : α) (array : List α) (index : Nat) (value : α) :
    (arraySet filler array index value)[index]? = some value := by
  unfold arraySet
  split
  next h => rw [List.getElem?_set_self h]
  next h =>
    rw [List.getElem?_append_right (by rw [List.length_append, List.length_replicate]; omega),
      List.length_append, List.length_replicate, show index - (array.length + (index - array.length)) = 0 by omega]
    rfl

theorem getElem?_arraySet_ne (filler : α) (array : List α) {index i : Nat} (h : i ≠ index) (value : α) :
    (arraySet filler array index value)[i]? = array[i]? ∨
      (array[i]? = none ∧ ∀ x ∈ (arraySet filler array index value)[i]?, x = filler) := by
  unfold arraySet
  split
  next => exact .inl (List.getElem?_set_ne (Ne.symm h))
  next hlen =>
    rcases Nat.lt_or_ge i array.length with hi | hi
    · left
      rw [List.append_assoc, List.getElem?_append_left hi]
    · right
      refine ⟨List.getElem?_eq_none hi, ?_⟩
      intro x hx
      rw [List.append_assoc, List.getElem?_append_right hi] at hx
      rcases Nat.lt_or_ge i index with hlt | hge
      · rw [List.getElem?_append_left (by rw [List.length_replicate]; omega)] at hx
        exact List.eq_of_mem_replicate (List.mem_of_getElem? hx)
      · rw [List.getElem?_eq_none (by rw [List.length_append, List.length_replicate, List.length_singleton]; omega)] at hx
        cases hx

theorem Numbered.assign {order : List Nat} (h : Numbered start st order) (hn : n ∉ order) :
    '%' :: Nat.toDigits 10 st.nameCounter = numberText start (order ++ [n]) n ∧
      Numbered start ⟨st.nameCounter + 1, arraySet [] st.nameTranslation n ('%' :: Nat.toDigits 10 st.nameCounter)⟩
        (order ++ [n]) := by
  have htext : '%' :: Nat.toDigits 10 st.nameCounter = numberText start (order ++ [n]) n := by
    rw [numberText, List.idxOf_append_of_notMem hn, List.idxOf_cons_self, h.counter, Nat.add_zero]
  refine ⟨htext, ⟨?_, ?_, ?_⟩⟩
  · simp only [h.counter, List.length_append, List.length_singleton]
    omega
  · intro m hm
    by_cases hmn : m = n
    · rw [hmn, htext]
      exact getElem?_arraySet_self _ _ _ _
    · have hmem : m ∈ order := by
        rcases List.mem_append.mp hm with hm | hm
        · exact hm
        · exact absurd (List.mem_singleton.mp hm) hmn
      rw [numberText_mono (List.prefix_append _ _) hmem, ← h.named m hmem]
      rcases getElem?_arraySet_ne [] st.nameTranslation hmn ('%' :: Nat.toDigits 10 st.nameCounter) with heq | ⟨heq, -⟩
      · exact heq
      · rw [h.named m hmem] at heq
        cases heq
  · intro m hm s hs
    have hmn : m ≠ n := fun heq => hm (List.mem_append_right _ (List.mem_singleton.mpr heq))
    rcases getElem?_arraySet_ne [] st.nameTranslation hmn ('%' :: Nat.toDigits 10 st.nameCounter) with heq | ⟨-, heq⟩
    · exact h.unnamed m (fun hmem => hm (List.mem_append_left _ hmem)) s (heq ▸ hs)
    · exact heq s hs

/-! ## The first pass -/

/-- The unnamed value that a name stands for. -/
def valueNumber (isBasicBlock : List Bool) : Name → Option Nat
  | .text _ => none
  | .unnamed n => if isBasicBlock[n]? = some false then some n else none

/-- A name after the first pass, when `order` is the order of the numbers in the end. -/
def Name.update (isBasicBlock : List Bool) (unnamed : Nat → Text) : Name → Name
  | .text s => .text s
  | .unnamed n => if isBasicBlock[n]? = some false then .text (unnamed n) else .unnamed n

theorem mapState_numbers {f : Numbering → α → Option (β × Numbering)} {numbersOf : α → List Nat}
    {g : α → β} (xs : List α)
    (hf : ∀ x ∈ xs, ∀ st order, Numbered start st order → numberAll order (numbersOf x) <+: final →
      ∃ st', f st x = some (g x, st') ∧ Numbered start st' (numberAll order (numbersOf x)))
    {order : List Nat} (h : Numbered start st order)
    (hfinal : numberAll order (xs.flatMap numbersOf) <+: final) :
    ∃ st', mapState f st xs = some (xs.map g, st') ∧ Numbered start st' (numberAll order (xs.flatMap numbersOf)) := by
  induction xs generalizing st order with
  | nil => exact ⟨st, rfl, h⟩
  | cons x xs ih =>
    rw [List.flatMap_cons, numberAll_append] at hfinal ⊢
    obtain ⟨st1, hx, h1⟩ := hf x List.mem_cons_self st order h ((prefix_numberAll _ _).trans hfinal)
    obtain ⟨st2, hxs, h2⟩ := ih (fun y hy => hf y (.tail _ hy)) h1 hfinal
    refine ⟨st2, ?_, h2⟩
    simp only [mapState, hx, hxs, Option.bind_eq_bind, Option.bind_some]
    rfl

theorem mapState_map {σ γ : Type} (f : σ → β → Option (γ × σ)) (k : α → β) (s : σ) (xs : List α) :
    mapState f s (xs.map k) = mapState (fun s x => f s (k x)) s xs := by
  induction xs generalizing s with
  | nil => rfl
  | cons x xs ih => simp only [List.map_cons, mapState, ih]

theorem updateUnnamed_numbers (name : Name) (hname : ∀ n, name = .unnamed n → n < isBasicBlock.length)
    (st : Numbering) (order : List Nat) (h : Numbered start st order)
    (hfinal : numberAll order (valueNumber isBasicBlock name).toList <+: final) :
    ∃ st', updateUnnamed isBasicBlock st name = some (name.update isBasicBlock (numberText start final), st') ∧
      Numbered start st' (numberAll order (valueNumber isBasicBlock name).toList) := by
  cases name with
  | text s => exact ⟨st, rfl, h⟩
  | unnamed n =>
    have hlen := hname n rfl
    cases hb : isBasicBlock[n]? with
    | none => exact absurd (List.getElem?_eq_none_iff.mp hb) (by omega)
    | some b =>
      cases b with
      | true =>
        have hnone : valueNumber isBasicBlock (.unnamed n) = none := by
          rw [valueNumber, hb]
          rfl
        rw [hnone]
        refine ⟨st, ?_, h⟩
        simp only [updateUnnamed, Name.update, hb]
        rfl
      | false =>
        have hsome : valueNumber isBasicBlock (.unnamed n) = some n := by
          rw [valueNumber, hb]
          rfl
        have hupdate : (Name.unnamed n).update isBasicBlock (numberText start final) =
            .text (numberText start final n) := by
          rw [Name.update, hb]
          rfl
        rw [hsome] at hfinal ⊢
        rw [hupdate]
        change number order n <+: final at hfinal
        change ∃ st', updateUnnamed isBasicBlock st (.unnamed n) = some (.text (numberText start final n), st') ∧
          Numbered start st' (number order n)
        unfold number at hfinal ⊢
        by_cases hmem : n ∈ order
        · -- it was mentioned before
          rw [if_pos hmem] at hfinal ⊢
          refine ⟨st, ?_, h⟩
          rw [numberText_mono hfinal hmem]
          simp only [updateUnnamed, hb, h.named n hmem, numberText]
        · rw [if_neg hmem] at hfinal ⊢
          obtain ⟨htext, hst⟩ := h.assign hmem
          refine ⟨_, ?_, hst⟩
          rw [numberText_mono hfinal (List.mem_append_right _ (List.mem_singleton_self n)), ← htext]
          have hempty := h.unnamed n hmem
          simp only [updateUnnamed, hb]
          cases ht : st.nameTranslation[n]? with
          | none => rfl
          | some s =>
            rw [hempty s ht]

def Name.number? : Name → Option Nat
  | .text _ => none
  | .unnamed n => some n

/-- The unnamed words of a line are those of its chunks. -/
theorem filterMap_chunksLoop {g : Name → Option α} (hg : ∀ s, g (.text s) = none) (words : List Name)
    (currentChunk : List Text) : (chunksLoop currentChunk words).filterMap g = words.filterMap g := by
  induction words generalizing currentChunk with
  | nil =>
    rw [chunksLoop]
    split
    · rw [List.filterMap_cons, hg]
    · rfl
  | cons word words ih =>
    cases word with
    | text s => rw [chunksLoop, ih, List.filterMap_cons, hg]
    | unnamed n => rw [chunksLoop, List.filterMap_cons, hg, List.filterMap_cons, List.filterMap_cons, ih]

theorem mem_chunks_unnamed {words : List Name} (h : .unnamed n ∈ chunks words) :
    .unnamed n ∈ words := by
  have hmem : n ∈ (chunks words).filterMap Name.number? := List.mem_filterMap.mpr ⟨_, h, rfl⟩
  rw [chunks, filterMap_chunksLoop (fun _ => rfl)] at hmem
  obtain ⟨name, hname, hn⟩ := List.mem_filterMap.mp hmem
  cases name with
  | text s => cases hn
  | unnamed m =>
    obtain rfl := Option.some.inj hn
    exact hname

/-- The unnamed values of a line, in the order in which they are mentioned. -/
def lineNumbers (isBasicBlock : List Bool) (words : List Word) : List Nat :=
  (words.map Word.name).filterMap (valueNumber isBasicBlock)

theorem updateLine_numbers (words : List Word)
    (hwords : ∀ w ∈ words, ∀ n, w.name = .unnamed n → n < isBasicBlock.length) (st : Numbering)
    (order : List Nat) (h : Numbered start st order)
    (hfinal : numberAll order (lineNumbers isBasicBlock words) <+: final) :
    ∃ st', mapState (updateUnnamed isBasicBlock) st (chunks (words.map Word.name)) =
        some ((chunks (words.map Word.name)).map (Name.update isBasicBlock (numberText start final)), st') ∧
      Numbered start st' (numberAll order (lineNumbers isBasicBlock words)) := by
  have hnumbers : (chunks (words.map Word.name)).flatMap (fun name => (valueNumber isBasicBlock name).toList) =
      lineNumbers isBasicBlock words := by
    rw [← List.filterMap_eq_flatMap_toList, chunks, filterMap_chunksLoop (fun _ => rfl)]
    rfl
  rw [← hnumbers] at hfinal ⊢
  refine mapState_numbers _ (fun name hmem st order h hfinal => ?_) h hfinal
  refine updateUnnamed_numbers name (fun n hn => ?_) st order h hfinal
  obtain ⟨w, hw, hname⟩ := List.mem_map.mp (mem_chunks_unnamed (hn ▸ hmem))
  exact hwords w hw n hname

/-- The unnamed label and values of a block, in the order in which they are mentioned. -/
def BasicBlock.numbers (isBasicBlock : List Bool) (b : BasicBlock) : List Nat :=
  (match b.label with
    | .unnamed n => if b.isReferenced then [n] else []
    | .text _ => []) ++ b.insns.flatMap (lineNumbers isBasicBlock)

/-- A block after the first pass. -/
def BasicBlock.update (isBasicBlock : List Bool) (unnamed : Nat → Text) (b : BasicBlock) : UpdatedBlock where
  label := match b.label with
    | .unnamed n => if b.isReferenced then .text (unnamed n).tail else .unnamed n
    | .text s => .text s
  lines := b.lines.map fun line => line.map (Name.update isBasicBlock unnamed)
  isReferenced := b.isReferenced

theorem updateLines_numbers (b : BasicBlock)
    (hwords : ∀ words ∈ b.insns, ∀ w ∈ words, ∀ n, w.name = .unnamed n → n < isBasicBlock.length)
    {order : List Nat} (h : Numbered start st order)
    (hfinal : numberAll order (b.insns.flatMap (lineNumbers isBasicBlock)) <+: final) :
    ∃ st', mapState (mapState (updateUnnamed isBasicBlock)) st b.lines =
        some (b.lines.map fun line => line.map (Name.update isBasicBlock (numberText start final)), st') ∧
      Numbered start st' (numberAll order (b.insns.flatMap (lineNumbers isBasicBlock))) := by
  rw [BasicBlock.lines, mapState_map, List.map_map]
  exact mapState_numbers b.insns
    (fun words hmem st order h hfinal => updateLine_numbers words (hwords words hmem) st order h hfinal) h hfinal

theorem updateBlock_numbers (b : BasicBlock)
    (hwords : ∀ words ∈ b.insns, ∀ w ∈ words, ∀ n, w.name = .unnamed n → n < isBasicBlock.length)
    {order : List Nat} (h : Numbered start st order) (hfresh : ∀ n, b.label = .unnamed n → n ∉ order)
    (hfinal : numberAll order (b.numbers isBasicBlock) <+: final) :
    ∃ st', b.updateUnnamed isBasicBlock st = some (b.update isBasicBlock (numberText start final), st') ∧
      Numbered start st' (numberAll order (b.numbers isBasicBlock)) := by
  unfold BasicBlock.updateUnnamed BasicBlock.update
  unfold BasicBlock.numbers at hfinal ⊢
  cases hlabel : b.label with
  | text s =>
    simp only [hlabel, List.nil_append] at hfinal ⊢
    obtain ⟨st', hst, h'⟩ := updateLines_numbers b hwords h hfinal
    refine ⟨st', ?_, h'⟩
    simp only [hst, Option.bind_eq_bind, Option.bind_some]
    rfl
  | unnamed n =>
    cases href : b.isReferenced with
    | false =>
      simp only [hlabel, href, Bool.false_eq_true, if_false, List.nil_append] at hfinal ⊢
      obtain ⟨st', hst, h'⟩ := updateLines_numbers b hwords h hfinal
      refine ⟨st', ?_, h'⟩
      simp only [hst, Option.bind_eq_bind, Option.bind_some]
      rfl
    | true =>
      have hn := hfresh n hlabel
      simp only [hlabel, href, if_true] at hfinal ⊢
      rw [numberAll_append, show numberAll order [n] = number order n from rfl, number, if_neg hn] at hfinal ⊢
      obtain ⟨htext, h1⟩ := h.assign hn
      obtain ⟨st', hst, h'⟩ := updateLines_numbers b hwords h1 hfinal
      refine ⟨st', ?_, h'⟩
      have hlabel' : Nat.toDigits 10 st.nameCounter = (numberText start final n).tail := by
        have hmem : n ∈ order ++ [n] := List.mem_append_right _ (List.mem_singleton_self n)
        rw [numberText_mono ((prefix_numberAll _ _).trans hfinal) hmem, ← htext]
        rfl
      simp only [updateBasicBlockLabel, hst, Option.bind_eq_bind, Option.bind_some, ← hlabel']
      rfl

theorem mem_lineNumbers {words : List Word} :
    n ∈ lineNumbers isBasicBlock words →
      isBasicBlock[n]? = some false ∧ ∃ w ∈ words, w.name = .unnamed n := by
  intro h
  obtain ⟨name, hname, hn⟩ := List.mem_filterMap.mp h
  obtain ⟨w, hw, rfl⟩ := List.mem_map.mp hname
  cases hwn : w.name with
  | text s =>
    rw [hwn] at hn
    cases hn
  | unnamed m =>
    rw [hwn, valueNumber] at hn
    split at hn
    next hb =>
      obtain rfl := Option.some.inj hn
      exact ⟨hb, w, hw, hwn⟩
    next => cases hn

/-- The labels of the blocks are all different, and known to be labels. -/
structure Labels (isBasicBlock : List Bool) (blocks : List BasicBlock) : Prop where
  nodup : (blocks.map BasicBlock.label).Nodup
  marked : ∀ b ∈ blocks, ∀ n, b.label = .unnamed n → isBasicBlock[n]? = some true

theorem updateBlocks_numbers (blocks : List BasicBlock) (hlabels : Labels isBasicBlock blocks)
    (hwords : ∀ b ∈ blocks, ∀ words ∈ b.insns, ∀ w ∈ words, ∀ n, w.name = .unnamed n → n < isBasicBlock.length)
    {order : List Nat} (h : Numbered start st order)
    (hfresh : ∀ b ∈ blocks, ∀ n, b.label = .unnamed n → n ∉ order)
    (hfinal : numberAll order (blocks.flatMap (BasicBlock.numbers isBasicBlock)) <+: final) :
    ∃ st', mapState (BasicBlock.updateUnnamed isBasicBlock) st blocks =
        some (blocks.map (BasicBlock.update isBasicBlock (numberText start final)), st') ∧
      Numbered start st' (numberAll order (blocks.flatMap (BasicBlock.numbers isBasicBlock))) := by
  induction blocks generalizing st order with
  | nil => exact ⟨st, rfl, h⟩
  | cons b blocks ih =>
    rw [List.flatMap_cons, numberAll_append] at hfinal ⊢
    obtain ⟨st1, hb, h1⟩ := updateBlock_numbers b (hwords b (.head _)) h (hfresh b (.head _))
      ((prefix_numberAll _ _).trans hfinal)
    obtain ⟨hne, hnodup⟩ := List.nodup_cons.mp hlabels.nodup
    have hfresh' : ∀ b' ∈ blocks, ∀ n, b'.label = .unnamed n → n ∉ numberAll order (b.numbers isBasicBlock) := by
      intro b' hb' n hn hmem
      rcases mem_numberAll.mp hmem with hmem | hmem
      · exact hfresh b' (.tail _ hb') n hn hmem
      rcases List.mem_append.mp hmem with hmem | hmem
      · -- it would be the label of both
        refine hne (List.mem_map.mpr ⟨b', hb', ?_⟩)
        cases hlabel : b.label with
        | text s =>
          simp only [hlabel] at hmem
          cases hmem
        | unnamed m =>
          simp only [hlabel] at hmem
          split at hmem
          next =>
            rw [hn, List.mem_singleton.mp hmem]
          next => cases hmem
      · -- it would be a value
        obtain ⟨words, -, hmem⟩ := List.mem_flatMap.mp hmem
        have hmarked := hlabels.marked b' (.tail _ hb') n hn
        rw [(mem_lineNumbers hmem).1] at hmarked
        cases hmarked
    obtain ⟨st2, hbs, h2⟩ := ih ⟨hnodup, fun b' hb' => hlabels.marked b' (.tail _ hb')⟩
      (fun b' hb' => hwords b' (.tail _ hb')) h1 hfresh' hfinal
    refine ⟨st2, ?_, h2⟩
    simp only [mapState, hb, hbs, Option.bind_eq_bind, Option.bind_some]
    rfl

/-! ## The second pass -/

/-- What a line of the body is printed for. -/
inductive Emission where
  | label (name : Name)
  | insn (words : List Word)

/-- The lines of a block, in order. -/
def BasicBlock.emissions (b : BasicBlock) : List Emission :=
  (if b.isReferenced then [.label b.label] else []) ++ b.insns.map .insn

def FunctionDefn.emissions (f : FunctionDefn) : List Emission := f.basicBlocks.flatMap BasicBlock.emissions

/-- The text of a line, from what is printed for the unnamed values and blocks. -/
def Emission.print (unnamed : Nat → Text) : Emission → Text
  | .label (.text s) => s ++ [':']
  | .label (.unnamed n) => (unnamed n).tail ++ [':']
  | .insn words => INDENT ++ joinFrom true (words.map fun w => w.name.print unnamed)

theorem mapM_some {f : α → Option β} {g : α → β} {xs : List α} (h : ∀ x ∈ xs, f x = some (g x)) :
    xs.mapM f = some (xs.map g) := by
  induction xs with
  | nil => rfl
  | cons x xs ih =>
    rw [List.mapM_cons, h x (.head _), ih fun y hy => h y (.tail _ hy)]
    rfl

/-- A line whose unnamed words come apart and whose words are not blank at their ends. -/
structure LineRight (unnamed : Nat → Text) (words : List Word) : Prop where
  separated : Separated (words.map Word.name)
  solid : ∀ w ∈ words, Solid (w.name.print unnamed)

theorem output_line (h : Numbered start st final) {words : List Word}
    (hline : LineRight (numberText start final) words)
    (hwords : ∀ w ∈ words, ∀ n, w.name = .unnamed n → n ∈ final ∧ n < isBasicBlock.length) :
    (((chunks (words.map Word.name)).map (Name.update isBasicBlock (numberText start final))).mapM
        (updateBasicBlockRef isBasicBlock st)).map (fun newLine => createLine [concat newLine] INDENT) =
      some ((Emission.insn words).print (numberText start final)) := by
  have hmap : ((chunks (words.map Word.name)).map (Name.update isBasicBlock (numberText start final))).mapM
      (updateBasicBlockRef isBasicBlock st) =
        some ((chunks (words.map Word.name)).map (Name.print (numberText start final))) := by
    rw [List.mapM_map]
    refine mapM_some fun name hname => ?_
    cases name with
    | text s => rfl
    | unnamed n =>
      obtain ⟨w, hw, hwn⟩ := List.mem_map.mp (mem_chunks_unnamed hname)
      obtain ⟨hn, hlen⟩ := hwords w hw n hwn
      simp only [Function.comp, Name.update, Name.print]
      split
      next => rfl
      next hb =>
        have htrue : isBasicBlock[n]? = some true := by
          rw [List.getElem?_eq_getElem hlen] at hb ⊢
          exact congrArg some (eq_true_of_ne_false fun h => hb (congrArg some h))
        simp only [updateBasicBlockRef, htrue]
        exact h.named n hn
  have hsolid : ∀ w ∈ (words.map Word.name).map (Name.print (numberText start final)), Solid w := by
    intro w hw
    obtain ⟨name, hname, rfl⟩ := List.mem_map.mp hw
    obtain ⟨v, hv, rfl⟩ := List.mem_map.mp hname
    exact hline.solid v hv
  rw [hmap, Option.map_some, concat_chunks hline.separated
      (fun w hw => hsolid _ (List.mem_map_of_mem hw)) fun n => ⟨_, rfl⟩]
  rw [createLine, Emission.print, List.map_map]
  rw [List.map_map] at hsolid
  cases words with
  | nil => rfl
  | cons w words =>
    obtain ⟨hjoin, -, -⟩ := joinFrom_solid _ _ hsolid
    have hone : concat [joinFrom true ((w :: words).map (Name.print (numberText start final) ∘ Word.name))] =
        joinFrom true [joinFrom true ((w :: words).map (Name.print (numberText start final) ∘ Word.name))] :=
      concat_solid fun v hv => List.mem_singleton.mp hv ▸ hjoin
    rw [hone, joinFrom, Bool.true_or, if_pos rfl, List.nil_append, joinFrom, List.append_nil]
    rfl

theorem output_block (h : Numbered start st final) (b : BasicBlock)
    (hlines : ∀ words ∈ b.insns, LineRight (numberText start final) words)
    (hwords : ∀ words ∈ b.insns, ∀ w ∈ words, ∀ n, w.name = .unnamed n → n ∈ final ∧ n < isBasicBlock.length)
    {isFirst : Bool} (hfirst : isFirst = true ∨ b.isReferenced = true) :
    (b.update isBasicBlock (numberText start final)).output isBasicBlock st isFirst =
      some (b.emissions.map (Emission.print (numberText start final))) := by
  have hinsns : b.lines.mapM (fun line => ((line.map (Name.update isBasicBlock (numberText start final))).mapM
      (updateBasicBlockRef isBasicBlock st)).map fun newLine => createLine [concat newLine] INDENT) =
        some ((b.insns.map Emission.insn).map (Emission.print (numberText start final))) := by
    rw [BasicBlock.lines, List.mapM_map, List.map_map]
    exact mapM_some fun words hmem => output_line h (hlines words hmem) (hwords words hmem)
  have hlabel : (b.update isBasicBlock (numberText start final)).labelLines isFirst =
      some ((if b.isReferenced then [Emission.label b.label] else []).map (Emission.print (numberText start final))) := by
    unfold UpdatedBlock.labelLines BasicBlock.update
    cases href : b.isReferenced with
    | false =>
      rw [href] at hfirst
      rw [hfirst.resolve_right Bool.false_ne_true]
      rfl
    | true =>
      simp only [if_true]
      cases b.label with
      | text s => rfl
      | unnamed n => rfl
  have hbind : ∀ o : Option (List Text), (o.bind fun newLine => some (createLine [concat newLine] INDENT)) =
      o.map fun newLine => createLine [concat newLine] INDENT := fun o => Option.map_eq_bind.symm
  have hlines' : (b.update isBasicBlock (numberText start final)).lines.mapM (fun line =>
      (line.mapM (updateBasicBlockRef isBasicBlock st)).bind fun newLine => some (createLine [concat newLine] INDENT)) =
        some ((b.insns.map Emission.insn).map (Emission.print (numberText start final))) := by
    simp only [hbind]
    rw [← hinsns, BasicBlock.update, List.mapM_map]
    rfl
  rw [UpdatedBlock.output, BasicBlock.emissions, List.map_append]
  simp only [Option.bind_eq_bind, Option.pure_def]
  rw [hlabel, hlines']
  rfl

theorem output_blocks (h : Numbered start st final) (blocks : List BasicBlock)
    (hlines : ∀ b ∈ blocks, ∀ words ∈ b.insns, LineRight (numberText start final) words)
    (hwords : ∀ b ∈ blocks, ∀ words ∈ b.insns, ∀ w ∈ words, ∀ n, w.name = .unnamed n →
      n ∈ final ∧ n < isBasicBlock.length) {isFirst : Bool}
    (hfirst : ∀ b ∈ if isFirst then blocks.tail else blocks, b.isReferenced = true) :
    outputBlocks isBasicBlock st isFirst (blocks.map (BasicBlock.update isBasicBlock (numberText start final))) =
      some ((blocks.flatMap BasicBlock.emissions).map (Emission.print (numberText start final))) := by
  induction blocks generalizing isFirst with
  | nil => rfl
  | cons b blocks ih =>
    have hb : isFirst = true ∨ b.isReferenced = true := by
      cases isFirst with
      | true => exact .inl rfl
      | false => exact .inr (hfirst b (.head _))
    have hrest : ∀ b' ∈ blocks, b'.isReferenced = true := by
      intro b' hb'
      cases isFirst with
      | true => exact hfirst b' hb'
      | false => exact hfirst b' (.tail _ hb')
    have hblock := output_block h b (hlines b (.head _)) (hwords b (.head _)) hb
    have hblocks := ih (fun b' hb' => hlines b' (.tail _ hb'))
      (fun b' hb' => hwords b' (.tail _ hb')) (show ∀ b' ∈ if false then _ else blocks, _ from hrest)
    rw [List.map_cons, outputBlocks, hblock, List.flatMap_cons, List.map_append]
    simp only [Option.bind_eq_bind, Option.bind_some, hblocks]
    rfl

/-- The unnamed values and labels of a function, in the order of their first mentions. -/
def FunctionDefn.order (f : FunctionDefn) : List Nat :=
  numberAll [] (f.basicBlocks.flatMap (BasicBlock.numbers f.isBasicBlock))

/-- What an unnamed value or block of the function is printed as. -/
def FunctionDefn.unnamedText (f : FunctionDefn) : Nat → Text := numberText (f.paramTypes.length + 1) f.order

/-- The body of a function, line by line. -/
theorem FunctionDefn.outputBody_eq (f : FunctionDefn) (hlabels : Labels f.isBasicBlock f.basicBlocks)
    (hlines : ∀ b ∈ f.basicBlocks, ∀ words ∈ b.insns, LineRight f.unnamedText words)
    (hwords : ∀ b ∈ f.basicBlocks, ∀ words ∈ b.insns, ∀ w ∈ words, ∀ n, w.name = .unnamed n →
      n ∈ f.order ∧ n < f.isBasicBlock.length)
    (hreferenced : ∀ b ∈ f.basicBlocks.tail, b.isReferenced = true) :
    ∃ st, f.outputBody = some (f.emissions.map (Emission.print f.unnamedText), st) ∧
      Numbered (f.paramTypes.length + 1) st f.order := by
  have h0 : Numbered (f.paramTypes.length + 1) ⟨f.paramTypes.length + 1, []⟩ [] :=
    ⟨rfl, List.forall_mem_nil _, fun n _ s hs => by cases hs⟩
  obtain ⟨st, hst, h⟩ := updateBlocks_numbers f.basicBlocks hlabels
    (fun b hb words hmem w hw n hn => (hwords b hb words hmem w hw n hn).2) h0
    (fun b _ n _ => List.not_mem_nil) List.prefix_rfl
  have hout : outputBlocks f.isBasicBlock st true _ = _ := output_blocks h f.basicBlocks hlines hwords hreferenced
  refine ⟨st, ?_, h⟩
  rw [outputBody, hst]
  simp only [Option.bind_eq_bind, Option.bind_some]
  rw [hout]
  rfl

end Nballerina.PrintLlvm
