import Nballerina.PrintLlvm.Lines
import Nballerina.PrintLlvm.Names

/-!
# What a builder leaves behind (`print.llvm`)

An invariant of functions under construction: names are given out once, every word of an instruction
stands for something the function knows, and every result is defined by one instruction (`Built`). All
operations keep it (`run_invariant`).
-/

namespace Nballerina.PrintLlvm

/-- The lines of all blocks. -/
def FunctionDefn.insns (f : FunctionDefn) : List (List Word) := f.basicBlocks.flatMap BasicBlock.insns

def Value.local? : Value → Option Name
  | .const _ _ => none
  | .data _ operand => some operand

def FunctionDefn.valueNames (f : FunctionDefn) : List Name := f.values.filterMap Value.local?

/-- The names of the values and the blocks, as they are used. -/
def FunctionDefn.names (f : FunctionDefn) : List Name := f.valueNames ++ f.basicBlocks.map fun b => ref b.label

/-- The labels of the blocks that are branched to. -/
def FunctionDefn.referenced (f : FunctionDefn) : List Name :=
  f.basicBlocks.filterMap fun b => if b.isReferenced then some b.label else none

def Word.result? : Word → Option Name
  | .result reg => some reg
  | _ => none

/-- The registers that instructions define. -/
def FunctionDefn.definitions (f : FunctionDefn) : List Name := f.insns.flatten.filterMap Word.result?

/-- A word stands for a value or a block of the function, or for neither. -/
def Word.Known (f : FunctionDefn) : Word → Prop
  | .lexeme _ => True
  | .result reg => reg ∈ f.valueNames
  | .operand name => name ∈ f.valueNames
  | .block label => label ∈ f.referenced

variable {block : Nat} {insns : List Insn} {f f' : FunctionDefn} {dbLocation : Option Lexeme}

theorem Word.Known.mono {w : Word} (h : w.Known f)
    (hvalues : ∀ name ∈ f.valueNames, name ∈ f'.valueNames)
    (hreferenced : ∀ label ∈ f.referenced, label ∈ f'.referenced) : w.Known f' := by
  cases w with
  | lexeme l => trivial
  | result reg => exact hvalues reg h
  | operand name => exact hvalues name h
  | block label => exact hreferenced label h

/-- A parameter's name. -/
def FunctionDefn.IsParam (f : FunctionDefn) (name : Name) : Prop :=
  ∃ i < f.paramTypes.length, name = .text ('%' :: Nat.toDigits 10 i)

structure Built (f : FunctionDefn) : Prop where
  nodup : f.names.Nodup
  issued : ∀ name ∈ f.names, f.Issued name
  count : f.isBasicBlock.length = f.unnamedLabelCount
  valuesMarked : ∀ n : Nat, .unnamed n ∈ f.valueNames → f.isBasicBlock[n]? = some false
  blocksMarked : ∀ b ∈ f.basicBlocks, ∀ n : Nat, b.label = .unnamed n → f.isBasicBlock[n]? = some true
  known : ∀ ws ∈ f.insns, ∀ w ∈ ws, w.Known f
  definitions_nodup : f.definitions.Nodup
  defined : ∀ name ∈ f.valueNames, f.IsParam name ∨ name ∈ f.definitions
  params : ∀ v ∈ paramValues f.paramTypes, v ∈ f.values

/-! ## New names -/

theorem Named.built {flag : Bool} {name : Name} (h : Named f flag name f') (hf : Built f) :
    Built f' := by
  have hvalues : f'.valueNames = f.valueNames := congrArg (List.filterMap Value.local?) h.values
  have hnames : f'.names = f.names := by
    rw [FunctionDefn.names, FunctionDefn.names, hvalues, h.basicBlocks]
  have hinsns : f'.insns = f.insns := congrArg (List.flatMap BasicBlock.insns) h.basicBlocks
  have hreferenced : f'.referenced = f.referenced := by
    rw [FunctionDefn.referenced, FunctionDefn.referenced, h.basicBlocks]
  have hdefinitions : f'.definitions = f.definitions := by
    rw [FunctionDefn.definitions, FunctionDefn.definitions, hinsns]
  refine
    { nodup := hnames ▸ hf.nodup
      issued := fun name hname => h.issued name (.inl (hf.issued name (hnames ▸ hname)))
      count := h.count
      valuesMarked := fun n hn => h.marks n false (hf.valuesMarked n (hvalues ▸ hn))
      blocksMarked := fun b hb n hn => h.marks n true (hf.blocksMarked b (h.basicBlocks ▸ hb) n hn)
      known := fun ws hws w hw => (hf.known ws (hinsns ▸ hws) w hw).mono (fun n hn => hvalues ▸ hn)
        fun l hl => hreferenced ▸ hl
      definitions_nodup := hdefinitions ▸ hf.definitions_nodup
      defined := fun name hname => ?_
      params := h.paramTypes.symm ▸ h.values.symm ▸ hf.params }
  rw [FunctionDefn.IsParam, h.paramTypes, hdefinitions]
  exact hf.defined name (hvalues ▸ hname)

theorem valueNames_init (paramTypes : List Lexeme) : (FunctionDefn.init paramTypes).valueNames =
    (List.range paramTypes.length).map fun i => .text ('%' :: Nat.toDigits 10 i) := by
  rw [FunctionDefn.valueNames, FunctionDefn.init, paramValues, List.mapIdx_eq_zipIdx_map, List.filterMap_map,
    List.range_eq_range', ← List.zipIdx_map_snd, List.map_map]
  exact List.filterMap_eq_map' ▸ rfl

theorem init_built (paramTypes : List Lexeme) : Built (FunctionDefn.init paramTypes) := by
  have hvalues := valueNames_init paramTypes
  have hnames : (FunctionDefn.init paramTypes).names = (FunctionDefn.init paramTypes).valueNames := List.append_nil _
  have hparam : ∀ name ∈ (FunctionDefn.init paramTypes).valueNames, (FunctionDefn.init paramTypes).IsParam name := by
    intro name hname
    rw [hvalues] at hname
    obtain ⟨i, hi, rfl⟩ := List.mem_map.mp hname
    exact ⟨i, List.mem_range.mp hi, rfl⟩
  refine
    { nodup := ?_
      issued := fun name hname => .inl (hparam name (hnames ▸ hname))
      count := rfl
      valuesMarked := fun n hn => ?_
      blocksMarked := fun b hb => absurd hb List.not_mem_nil
      known := fun ws hws => absurd hws List.not_mem_nil
      definitions_nodup := List.nodup_nil
      defined := fun name hname => .inl (hparam name hname)
      params := fun v hv => hv }
  · rw [hnames, hvalues]
    exact List.Nodup.map (fun a b hab => toDigits_injective (List.cons.inj (Name.text.inj hab)).2) List.nodup_range
  · obtain ⟨i, -, hi⟩ := hparam _ hn
    cases hi

theorem Built.appendBasicBlock {f : FunctionDefn} (hf : Built f) (name : Option Text) :
    Built (f.appendBasicBlock name) := by
  have h := genMarked_named hf.count true name
  rw [appendBasicBlock_eq]
  generalize (f.genMarked true name).1 = label at h ⊢
  generalize (f.genMarked true name).2 = f' at h ⊢
  have hf' := h.built hf
  have hfresh : ref label ∉ f'.names := by
    intro hmem
    have hnames : f'.names = f.names := by
      rw [FunctionDefn.names, FunctionDefn.names, FunctionDefn.valueNames, FunctionDefn.valueNames, h.values,
        h.basicBlocks]
    exact h.fresh (hf.issued _ (hnames ▸ hmem))
  have hnames : ({ f' with basicBlocks := f'.basicBlocks ++ [⟨label, [], false⟩] } : FunctionDefn).names =
      f'.names ++ [ref label] := by
    simp only [FunctionDefn.names, List.map_append, List.map_cons, List.map_nil, List.append_assoc]
    rfl
  have hinsns : ({ f' with basicBlocks := f'.basicBlocks ++ [⟨label, [], false⟩] } : FunctionDefn).insns =
      f'.insns := by
    simp only [FunctionDefn.insns, List.flatMap_append, List.flatMap_cons, List.flatMap_nil, List.append_nil]
  refine
    { nodup := ?_
      issued := ?_
      count := hf'.count
      valuesMarked := hf'.valuesMarked
      blocksMarked := ?_
      known := ?_
      definitions_nodup := ?_
      defined := ?_
      params := hf'.params }
  · rw [hnames]
    exact List.nodup_append.mpr ⟨hf'.nodup, List.nodup_singleton _, fun a ha b hb hab =>
      hfresh (List.mem_singleton.mp hb ▸ hab ▸ ha)⟩
  · intro other hother
    rw [hnames] at hother
    rcases List.mem_append.mp hother with hother | hother
    · exact hf'.issued other hother
    · rw [List.mem_singleton.mp hother]
      exact h.issued _ (.inr rfl)
  · intro b hb n hn
    rcases List.mem_append.mp hb with hb | hb
    · exact hf'.blocksMarked b hb n hn
    · rw [List.mem_singleton.mp hb] at hn
      exact h.marked n (by rw [show label = .unnamed n from hn]; rfl)
  · intro ws hws w hw
    refine (hf'.known ws (hinsns ▸ hws) w hw).mono (fun _ hn => hn) fun l hl => ?_
    simp only [FunctionDefn.referenced, List.filterMap_append]
    exact List.mem_append_left _ hl
  · rw [FunctionDefn.definitions, hinsns]
    exact hf'.definitions_nodup
  · intro name' hname'
    rw [FunctionDefn.definitions, hinsns]
    exact hf'.defined name' hname'

/-! ## Instructions -/

theorem filterMap_modify {α β : Type} {g : α → Option β} {k : α → α} (h : ∀ a, g (k a) = g a) (l : List α) (i : Nat) :
    (l.modify i k).filterMap g = l.filterMap g := by
  induction l generalizing i with
  | nil => rw [List.modify_nil]
  | cons a l ih =>
    cases i with
    | zero => rw [List.modify_zero_cons, List.filterMap_cons, List.filterMap_cons, h]
    | succ i => rw [List.modify_succ_cons, List.filterMap_cons, List.filterMap_cons, ih]

theorem map_modify {α β : Type} {g : α → β} {k : α → α} (h : ∀ a, g (k a) = g a) (l : List α) (i : Nat) :
    (l.modify i k).map g = l.map g := by
  rw [← List.filterMap_eq_map']
  exact filterMap_modify (g := fun a => some (g a)) (fun a => congrArg some (h a)) l i

theorem addInsn_insns (h : block < f.basicBlocks.length) (ws : List Word) :
    (f.addInsn block ws).insns.Perm (ws :: f.insns) := by
  have hmodify : ∀ (blocks : List BasicBlock) (i : Nat), i < blocks.length →
      ((blocks.modify i fun b => { b with insns := b.insns ++ [ws] }).flatMap BasicBlock.insns).Perm
        (ws :: blocks.flatMap BasicBlock.insns) := by
    intro blocks
    induction blocks with
    | nil => exact fun i hi => absurd hi (Nat.not_lt_zero i)
    | cons b blocks ih =>
      intro i hi
      cases i with
      | zero =>
        rw [List.modify_zero_cons, List.flatMap_cons, List.flatMap_cons, List.append_assoc]
        exact List.perm_middle
      | succ i =>
        rw [List.modify_succ_cons, List.flatMap_cons, List.flatMap_cons]
        exact ((ih i (Nat.lt_of_succ_lt_succ hi)).append_left _).trans List.perm_middle
  exact hmodify f.basicBlocks block h

theorem addInsn_definitions (h : block < f.basicBlocks.length) (ws : List Word) :
    (f.addInsn block ws).definitions.Perm (ws.filterMap Word.result? ++ f.definitions) := by
  have hperm := ((addInsn_insns h ws).flatten).filterMap Word.result?
  rwa [List.flatten_cons, List.filterMap_append] at hperm

theorem addInsn_names (f : FunctionDefn) (block : Nat) (ws : List Word) :
    (f.addInsn block ws).names = f.names ∧ (f.addInsn block ws).referenced = f.referenced := by
  refine ⟨?_, ?_⟩
  · rw [FunctionDefn.names, FunctionDefn.names]
    exact congrArg (f.valueNames ++ ·) (map_modify (g := fun b : BasicBlock => ref b.label)
      (k := fun b => { b with insns := b.insns ++ [ws] }) (fun _ => rfl) f.basicBlocks block)
  · exact filterMap_modify (g := fun b : BasicBlock => if b.isReferenced then some b.label else none)
      (k := fun b => { b with insns := b.insns ++ [ws] }) (fun _ => rfl) f.basicBlocks block

/-- The blocks keep their labels. -/
theorem addInsn_label {ws : List Word} {b : BasicBlock} (h : b ∈ (f.addInsn block ws).basicBlocks) :
    ∃ b' ∈ f.basicBlocks, b'.label = b.label := by
  have hmem : b.label ∈ (f.addInsn block ws).basicBlocks.map BasicBlock.label := List.mem_map_of_mem h
  rw [show (f.addInsn block ws).basicBlocks.map BasicBlock.label = f.basicBlocks.map BasicBlock.label from
    map_modify (k := fun b => { b with insns := b.insns ++ [ws] }) (fun _ => rfl) f.basicBlocks block] at hmem
  obtain ⟨b', hb', heq⟩ := List.mem_map.mp hmem
  exact ⟨b', hb', heq⟩

theorem Built.addInsn {f : FunctionDefn} (hf : Built f) {block : Nat} (hblock : block < f.basicBlocks.length)
    {ws : List Word} (hws : ∀ w ∈ ws, w.Known f) (hresult : ws.filterMap Word.result? = []) :
    Built (f.addInsn block ws) := by
  obtain ⟨hnames, hreferenced⟩ := addInsn_names f block ws
  have hdefinitions := addInsn_definitions hblock ws
  rw [hresult, List.nil_append] at hdefinitions
  refine
    { nodup := hnames ▸ hf.nodup
      issued := fun name hname => hf.issued name (hnames ▸ hname)
      count := hf.count
      valuesMarked := hf.valuesMarked
      blocksMarked := fun b hb n hn => ?_
      known := fun ws' hws' w hw => ?_
      definitions_nodup := hdefinitions.nodup_iff.mpr hf.definitions_nodup
      defined := fun name hname => (hf.defined name hname).imp_right hdefinitions.mem_iff.mpr
      params := hf.params }
  · obtain ⟨b', hb', heq⟩ := addInsn_label hb
    exact hf.blocksMarked b' hb' n (heq.trans hn)
  · have hknown : w.Known f := by
      rcases List.mem_cons.mp ((addInsn_insns hblock ws).mem_iff.mp hws') with rfl | hws'
      · exact hws w hw
      · exact hf.known ws' hws' w hw
    exact hknown.mono (fun _ h => h) fun l hl => hreferenced ▸ hl

/-- An instruction with a result has a new name for it. -/
theorem Built.addResult (hf : Built f) {reg : Name} (h : Named f false reg f')
    (hblock : block < f.basicBlocks.length) {ws : List Word} (hws : ∀ w ∈ ws, w.Known f)
    (hresult : ws.filterMap Word.result? = []) (ty : Lexeme) :
    Built { f'.addInsn block (.result reg :: ws) with values := f'.values ++ [.data ty reg] } := by
  have hf' := h.built hf
  have hvalues : f'.valueNames = f.valueNames := congrArg (List.filterMap Value.local?) h.values
  have hreferenced : f'.referenced = f.referenced := by
    rw [FunctionDefn.referenced, FunctionDefn.referenced, h.basicBlocks]
  have hfresh : reg ∉ f'.names := by
    intro hmem
    have hnames : f'.names = f.names := by
      rw [FunctionDefn.names, FunctionDefn.names, hvalues, h.basicBlocks]
    exact h.fresh (hf.issued _ (hnames ▸ hmem))
  have hblock' : block < f'.basicBlocks.length := by rwa [h.basicBlocks]
  have hdefinitions := addInsn_definitions hblock' (.result reg :: ws)
  rw [List.filterMap_cons, hresult] at hdefinitions
  generalize hg : f'.addInsn block (.result reg :: ws) = g at hdefinitions
  have hgnames : g.names = f'.names ∧ g.referenced = f'.referenced := hg ▸ addInsn_names f' block _
  have hgvalues : g.values = f'.values := hg ▸ rfl
  have hnew : ({ g with values := f'.values ++ [.data ty reg] } : FunctionDefn).valueNames = f'.valueNames ++ [reg] := by
    simp only [FunctionDefn.valueNames, List.filterMap_append]
    rfl
  have hrefs : g.basicBlocks.map (fun b => ref b.label) = f'.basicBlocks.map fun b => ref b.label := by
    have := hgnames.1
    rw [FunctionDefn.names, FunctionDefn.names, FunctionDefn.valueNames, FunctionDefn.valueNames, hgvalues] at this
    exact List.append_cancel_left this
  have hnames : ({ g with values := f'.values ++ [.data ty reg] } : FunctionDefn).names =
      f'.valueNames ++ reg :: f'.basicBlocks.map fun b => ref b.label := by
    rw [FunctionDefn.names, hnew, List.append_assoc]
    exact congrArg (fun refs => f'.valueNames ++ ([reg] ++ refs)) hrefs
  have hmono : ∀ w : Word, w.Known f → w.Known ({ g with values := f'.values ++ [.data ty reg] } : FunctionDefn) := by
    intro w hw
    refine hw.mono (fun n hn => ?_) fun l hl => ?_
    · rw [hnew, hvalues]
      exact List.mem_append_left _ hn
    · rw [show ({ g with values := f'.values ++ [.data ty reg] } : FunctionDefn).referenced = g.referenced from rfl,
        hgnames.2, hreferenced]
      exact hl
  refine
    { nodup := ?_
      issued := ?_
      count := ?_
      valuesMarked := ?_
      blocksMarked := ?_
      known := ?_
      definitions_nodup := ?_
      defined := ?_
      params := ?_ }
  · rw [hnames]
    exact List.nodup_middle.mpr (List.nodup_cons.mpr ⟨hfresh, hf'.nodup⟩)
  · intro name hname
    rw [hnames] at hname
    have hissued : f'.Issued name := by
      rcases List.mem_cons.mp (List.perm_middle.mem_iff.mp hname) with rfl | hname
      · exact h.issued _ (.inr rfl)
      · exact hf'.issued name hname
    rw [← hg]
    exact hissued
  · rw [← hg]
    exact hf'.count
  · intro n hn
    rw [hnew] at hn
    have hmarked : f'.isBasicBlock[n]? = some false := by
      rcases List.mem_append.mp hn with hn | hn
      · exact hf'.valuesMarked n hn
      · exact h.marked n (List.mem_singleton.mp hn).symm
    rw [← hg]
    exact hmarked
  · intro b hb n hn
    rw [← hg] at hb ⊢
    obtain ⟨b', hb', heq⟩ := addInsn_label hb
    exact hf'.blocksMarked b' hb' n (heq.trans hn)
  · intro ws' hws' w hw
    rw [show ({ g with values := f'.values ++ [.data ty reg] } : FunctionDefn).insns = g.insns from rfl, ← hg] at hws'
    rcases List.mem_cons.mp ((addInsn_insns hblock' _).mem_iff.mp hws') with rfl | hws'
    · rcases List.mem_cons.mp hw with rfl | hw
      · rw [Word.Known, hnew]
        exact List.mem_append_right _ (List.mem_singleton_self reg)
      · exact hmono w (hws w hw)
    · have hinsns : f'.insns = f.insns := congrArg (List.flatMap BasicBlock.insns) h.basicBlocks
      exact hmono w (hf.known ws' (hinsns ▸ hws') w hw)
  · refine hdefinitions.nodup_iff.mpr (List.nodup_cons.mpr ⟨fun hmem => ?_, hf'.definitions_nodup⟩)
    -- a register that an instruction defines is a value
    obtain ⟨w, hw, hresult'⟩ := List.mem_filterMap.mp hmem
    obtain ⟨ws', hws', hw⟩ := List.mem_flatten.mp hw
    have hknown := hf'.known ws' hws' w hw
    cases w with
    | result reg' =>
      obtain rfl := Option.some.inj hresult'
      exact hfresh (List.mem_append_left _ hknown)
    | lexeme l => cases hresult'
    | operand name => cases hresult'
    | block label => cases hresult'
  · intro name hname
    rw [hnew] at hname
    have hdefined : f'.IsParam name ∨ name ∈ g.definitions := by
      rcases List.mem_append.mp hname with hname | hname
      · exact (hf'.defined name hname).imp_right fun hmem => hdefinitions.mem_iff.mpr (.tail _ hmem)
      · rw [List.mem_singleton.mp hname]
        exact .inr (hdefinitions.mem_iff.mpr (.head _))
    rw [← hg] at hdefined ⊢
    exact hdefined
  · intro v hv
    rw [← hg] at hv
    exact List.mem_append_left _ (hf'.params v hv)

/-! ## Branches -/

theorem map_mapIdx {α β : Type} {g : α → β} {k : Nat → α → α} (h : ∀ i a, g (k i a) = g a) (l : List α) :
    (l.mapIdx k).map g = l.map g := by
  rw [List.mapIdx_eq_zipIdx_map, List.map_map]
  conv_rhs => rw [← List.zipIdx_map_fst 0 l]
  rw [List.map_map]
  exact List.map_congr_left fun a _ => h a.2 a.1

/-- A block is as it was, but for its mark when it is branched to. -/
theorem reference_mem {blocks : List Nat} {b : BasicBlock} :
    b ∈ (f.reference blocks).basicBlocks ↔ ∃ (i : Nat) (b' : BasicBlock), f.basicBlocks[i]? = some b' ∧
      b = { b' with isReferenced := b'.isReferenced || blocks.contains i } := by
  rw [List.mem_iff_getElem?, FunctionDefn.reference]
  simp only [List.getElem?_mapIdx, Option.map_eq_some_iff]
  constructor
  · rintro ⟨i, b', hb', rfl⟩
    exact ⟨i, b', hb', rfl⟩
  · rintro ⟨i, b', hb', rfl⟩
    exact ⟨i, b', hb', rfl⟩

theorem mem_referenced {label : Name} :
    label ∈ f.referenced ↔ ∃ b ∈ f.basicBlocks, b.isReferenced = true ∧ b.label = label := by
  rw [FunctionDefn.referenced, List.mem_filterMap]
  constructor
  · rintro ⟨b, hb, h⟩
    split at h
    next href => exact ⟨b, hb, href, Option.some.inj h⟩
    next => cases h
  · rintro ⟨b, hb, href, h⟩
    exact ⟨b, hb, by rw [if_pos href, h]⟩

theorem reference_insns (f : FunctionDefn) (blocks : List Nat) : (f.reference blocks).insns = f.insns := by
  rw [FunctionDefn.insns, FunctionDefn.insns, List.flatMap_def, List.flatMap_def]
  exact congrArg List.flatten (map_mapIdx (g := BasicBlock.insns)
    (k := fun i b => { b with isReferenced := b.isReferenced || blocks.contains i }) (fun _ _ => rfl) f.basicBlocks)

theorem reference_referenced (blocks : List Nat) {label : Name} (h : label ∈ f.referenced) :
    label ∈ (f.reference blocks).referenced := by
  obtain ⟨b, hb, href, heq⟩ := mem_referenced.mp h
  obtain ⟨i, hi⟩ := List.mem_iff_getElem?.mp hb
  refine mem_referenced.mpr ⟨_, reference_mem.mpr ⟨i, b, hi, rfl⟩, ?_, heq⟩
  dsimp only
  rw [href, Bool.true_or]

/-- A block that is branched to is marked. -/
theorem label_referenced {blocks : List Nat} {i : Nat} (hi : i ∈ blocks)
    (hlen : i < f.basicBlocks.length) : f.label i ∈ (f.reference blocks).referenced := by
  have hget := List.getElem?_eq_getElem hlen
  refine mem_referenced.mpr ⟨_, reference_mem.mpr ⟨i, f.basicBlocks[i], hget, rfl⟩, ?_, ?_⟩
  · dsimp only
    rw [List.contains_iff_mem.mpr hi, Bool.or_true]
  · rw [FunctionDefn.label, hget]
    rfl

theorem Built.reference {f : FunctionDefn} (hf : Built f) (blocks : List Nat) : Built (f.reference blocks) := by
  have hnames : (f.reference blocks).names = f.names := by
    rw [FunctionDefn.names, FunctionDefn.names]
    exact congrArg (f.valueNames ++ ·) (map_mapIdx (g := fun b : BasicBlock => ref b.label)
      (k := fun i b => { b with isReferenced := b.isReferenced || blocks.contains i }) (fun _ _ => rfl) f.basicBlocks)
  have hinsns := reference_insns f blocks
  refine
    { nodup := hnames ▸ hf.nodup
      issued := fun name hname => hf.issued name (hnames ▸ hname)
      count := hf.count
      valuesMarked := hf.valuesMarked
      blocksMarked := fun b hb n hn => ?_
      known := fun ws hws w hw => (hf.known ws (hinsns ▸ hws) w hw).mono (fun _ h => h) fun _ h =>
        reference_referenced blocks h
      definitions_nodup := ?_
      defined := fun name hname => ?_
      params := hf.params }
  · obtain ⟨i, b', hb', rfl⟩ := reference_mem.mp hb
    exact hf.blocksMarked b' (List.mem_of_getElem? hb') n hn
  · rw [FunctionDefn.definitions, hinsns]
    exact hf.definitions_nodup
  · rw [FunctionDefn.definitions, hinsns]
    exact hf.defined name hname

/-! ## Runs -/

/-- What an operation does to the function: a line of words is added to a block, after a new name is given
out if there is a result. -/
theorem build_cases (hcount : f.isBasicBlock.length = f.unnamedLabelCount) (block : Nat)
    (dbLocation : Option Lexeme) (insn : Insn) (name : Option Text) :
    (∃ ty reg f', insn.resultTy = some ty ∧ Named f false reg f' ∧
      f.build block dbLocation insn name =
        { f'.addInsn block (insn.line f.label dbLocation reg) with values := f'.values ++ [.data ty reg] }) ∨
    (insn.resultTy = none ∧ ∀ reg,
      f.build block dbLocation insn name =
        (f.reference insn.destinations).addInsn block (insn.line f.label dbLocation reg)) := by
  cases hty : insn.resultTy with
  | none =>
    refine .inr ⟨rfl, fun reg => ?_⟩
    rw [FunctionDefn.build, Insn.line, hty]
    rfl
  | some ty =>
    left
    have h := genMarked_named hcount false name
    refine ⟨ty, _, _, rfl, h, ?_⟩
    have hlabel : (f.genMarked false name).2.label = f.label := by
      unfold FunctionDefn.label
      rw [h.basicBlocks]
    rw [FunctionDefn.build, Insn.line, hty]
    dsimp only
    rw [genReg_eq]
    dsimp only
    rw [hlabel]
    rfl

theorem destinations_result {insn : Insn} (h : insn.resultTy.isSome = true) : insn.destinations = [] := by
  cases insn with
  | br destination => cases h
  | condBr condition ifTrue ifFalse => cases h
  | _ => rfl

theorem lexeme_dbWords : ∀ w ∈ dbWords dbLocation, ∃ l, w = .lexeme l := by
  cases dbLocation with
  | none => exact List.forall_mem_nil _
  | some l =>
    simp only [dbWords, List.forall_mem_cons]
    exact ⟨⟨_, rfl⟩, ⟨_, rfl⟩, ⟨_, rfl⟩, List.forall_mem_nil _⟩

/-- No word of an operation is a result. -/
theorem words_result (insn : Insn) (label : Nat → Name) (dbLocation : Option Lexeme) :
    (insn.words label ++ dbWords dbLocation).filterMap Word.result? = [] := by
  refine List.filterMap_eq_nil_iff.mpr fun w hw => ?_
  have hstands : Stands insn.values (insn.destinations.map label) w := by
    rcases List.mem_append.mp hw with hw | hw
    · exact stands_words insn label w hw
    · exact .inl (lexeme_dbWords w hw)
  rcases hstands with ⟨l, rfl⟩ | ⟨val, -, rfl⟩ | ⟨l, -, rfl⟩
  · rfl
  · cases val <;> rfl
  · rfl

theorem words_known {g : FunctionDefn} {insn : Insn} {label : Nat → Name}
    (hvalues : insn.values.all f.has = true) (hmono : ∀ name ∈ f.valueNames, name ∈ g.valueNames)
    (hblocks : ∀ b ∈ insn.destinations, label b ∈ g.referenced) :
    ∀ w ∈ insn.words label ++ dbWords dbLocation, w.Known g := by
  intro w hw
  have hstands : Stands insn.values (insn.destinations.map label) w := by
    rcases List.mem_append.mp hw with hw | hw
    · exact stands_words insn label w hw
    · exact .inl (lexeme_dbWords w hw)
  rcases hstands with ⟨l, rfl⟩ | ⟨val, hval, rfl⟩ | ⟨l, hl, rfl⟩
  · trivial
  · have hhas := List.all_eq_true.mp hvalues val hval
    cases val with
    | const ty operand => trivial
    | data ty operand =>
      exact hmono operand (List.mem_filterMap.mpr ⟨_, List.contains_iff_mem.mp hhas, rfl⟩)
  · obtain ⟨b, hb, rfl⟩ := List.mem_map.mp hl
    exact hblocks b hb

theorem Built.build {f : FunctionDefn} (hf : Built f) {block : Nat} (hblock : block < f.basicBlocks.length)
    (dbLocation : Option Lexeme) {insn : Insn} (name : Option Text) (hvalues : insn.values.all f.has = true)
    (hdestinations : ∀ b ∈ insn.destinations, b < f.basicBlocks.length) :
    Built (f.build block dbLocation insn name) := by
  rcases build_cases hf.count block dbLocation insn name with ⟨ty, reg, f', hty, h, heq⟩ | ⟨hty, heq⟩
  · rw [heq, Insn.line, hty]
    refine hf.addResult h hblock (words_known hvalues (fun _ h => h) ?_) (words_result _ _ _) ty
    rw [destinations_result (by rw [hty]; rfl)]
    exact List.forall_mem_nil _
  · rw [heq (.text []), Insn.line, hty]
    have hlen : (f.reference insn.destinations).basicBlocks.length = f.basicBlocks.length := List.length_mapIdx
    refine (hf.reference insn.destinations).addInsn (by rwa [hlen]) ?_ (words_result _ _ _)
    exact words_known hvalues (fun _ h => h) fun b hb => label_referenced hb (hdestinations b hb)

/-- The current block is a block of the function. -/
def State.Placed (st : State) : Prop := ∀ block ∈ st.builder.currentBlock, block < st.defn.basicBlocks.length

theorem build_length (f : FunctionDefn) (hcount : f.isBasicBlock.length = f.unnamedLabelCount) (block : Nat)
    (dbLocation : Option Lexeme) (insn : Insn) (name : Option Text) :
    (f.build block dbLocation insn name).basicBlocks.length = f.basicBlocks.length := by
  rcases build_cases hcount block dbLocation insn name with ⟨ty, reg, f', -, h, heq⟩ | ⟨-, heq⟩
  · rw [heq, ← h.basicBlocks]
    exact List.length_modify _ _ _
  · rw [heq (.text [])]
    exact (List.length_modify _ _ _).trans List.length_mapIdx

theorem step_built {st st' : State} {op : Op} (hf : Built st.defn) (hplaced : st.Placed) (h : step st op = some st') :
    Built st'.defn ∧ st'.Placed := by
  cases op with
  | appendBasicBlock name =>
    obtain rfl := Option.some.inj h
    refine ⟨hf.appendBasicBlock name, fun block hblock => ?_⟩
    have hlen : (st.defn.appendBasicBlock name).basicBlocks.length = st.defn.basicBlocks.length + 1 := by
      rw [appendBasicBlock_eq, ← (genMarked_named hf.count true name).basicBlocks]
      exact List.length_append
    exact hlen ▸ Nat.lt_succ_of_lt (hplaced block hblock)
  | genReg name =>
    obtain rfl := Option.some.inj h
    have hnamed := genMarked_named hf.count false name
    dsimp only
    rw [genReg_eq]
    refine ⟨hnamed.built hf, fun block hblock => ?_⟩
    dsimp only
    rw [hnamed.basicBlocks]
    exact hplaced block hblock
  | positionAtEnd block =>
    simp only [step] at h
    split at h
    next hlen =>
      obtain rfl := Option.some.inj h
      exact ⟨hf, fun block' hblock => (Option.some.inj hblock) ▸ hlen⟩
    next => cases h
  | setCurrentDebugLocation dbLocation =>
    obtain rfl := Option.some.inj h
    exact ⟨hf, hplaced⟩
  | build insn name =>
    simp only [step] at h
    cases hblock : st.builder.currentBlock with
    | none =>
      rw [hblock] at h
      cases h
    | some block =>
      rw [hblock] at h
      dsimp only at h
      split at h
      next hguard =>
        obtain rfl := Option.some.inj h
        have hlen := hplaced block hblock
        refine ⟨hf.build hlen st.builder.dbLocation name hguard.1 hguard.2, fun block' hblock' => ?_⟩
        dsimp only
        rw [build_length st.defn hf.count]
        exact hplaced block' hblock'
      next => cases h

/-- The instructions that are asked for. -/
def insnsOf (ops : List Op) : List Insn := ops.filterMap fun
  | .build insn _ => some insn
  | _ => none

/-- The lines of a function are those of some operations. -/
structure LinesOf (f : FunctionDefn) (insns : List Insn) : Prop where
  made : ∀ ws ∈ f.insns, ∃ insn ∈ insns, ∃ label dbLocation reg, ws = insn.line label dbLocation reg
  kept : ∀ insn ∈ insns, ∃ label dbLocation reg, insn.line label dbLocation reg ∈ f.insns

theorem LinesOf.add (h : LinesOf f insns) {insn : Insn} {label : Nat → Name} {reg : Name}
    (hperm : f'.insns.Perm (insn.line label dbLocation reg :: f.insns)) :
    LinesOf f' (insns ++ [insn]) := by
  refine ⟨fun ws hws => ?_, fun insn' hinsn => ?_⟩
  · rcases List.mem_cons.mp (hperm.mem_iff.mp hws) with rfl | hws
    · exact ⟨insn, List.mem_append_right _ (List.mem_singleton_self _), label, dbLocation, reg, rfl⟩
    · obtain ⟨insn', hinsn, hline⟩ := h.made ws hws
      exact ⟨insn', List.mem_append_left _ hinsn, hline⟩
  · rcases List.mem_append.mp hinsn with hinsn | hinsn
    · obtain ⟨label', dbLocation', reg', hmem⟩ := h.kept insn' hinsn
      exact ⟨label', dbLocation', reg', hperm.mem_iff.mpr (.tail _ hmem)⟩
    · rw [List.mem_singleton.mp hinsn]
      exact ⟨label, dbLocation, reg, hperm.mem_iff.mpr (.head _)⟩

theorem LinesOf.congr (h : LinesOf f insns) (heq : f'.insns = f.insns) :
    LinesOf f' insns :=
  ⟨heq ▸ h.made, heq ▸ h.kept⟩

theorem step_linesOf {st st' : State} {op : Op} (hf : Built st.defn) (hplaced : st.Placed)
    (hlines : LinesOf st.defn insns) (h : step st op = some st') :
    LinesOf st'.defn (insns ++ insnsOf [op]) := by
  cases op with
  | appendBasicBlock name =>
    obtain rfl := Option.some.inj h
    refine (List.append_nil insns).symm ▸ hlines.congr ?_
    dsimp only
    rw [appendBasicBlock_eq, FunctionDefn.insns, List.flatMap_append, (genMarked_named hf.count true name).basicBlocks]
    exact List.append_nil _
  | genReg name =>
    obtain rfl := Option.some.inj h
    refine (List.append_nil insns).symm ▸ hlines.congr ?_
    dsimp only
    rw [genReg_eq, FunctionDefn.insns, (genMarked_named hf.count false name).basicBlocks]
    rfl
  | positionAtEnd block =>
    simp only [step] at h
    split at h
    next =>
      obtain rfl := Option.some.inj h
      exact (List.append_nil insns).symm ▸ hlines
    next => cases h
  | setCurrentDebugLocation dbLocation =>
    obtain rfl := Option.some.inj h
    exact (List.append_nil insns).symm ▸ hlines
  | build insn name =>
    simp only [step] at h
    cases hblock : st.builder.currentBlock with
    | none =>
      rw [hblock] at h
      cases h
    | some block =>
      rw [hblock] at h
      dsimp only at h
      split at h
      next hguard =>
        obtain rfl := Option.some.inj h
        have hlen := hplaced block hblock
        dsimp only
        rcases build_cases hf.count block st.builder.dbLocation insn name with ⟨ty, reg, f', -, hnamed, heq⟩ | ⟨-, heq⟩
        · have hinsns : f'.insns = st.defn.insns := congrArg (List.flatMap BasicBlock.insns) hnamed.basicBlocks
          rw [heq]
          exact hlines.add (hinsns ▸ addInsn_insns (f := f') (by rwa [hnamed.basicBlocks]) _)
        · rw [heq (.text [])]
          refine hlines.add (reference_insns st.defn insn.destinations ▸ addInsn_insns ?_ _)
          rwa [show (st.defn.reference insn.destinations).basicBlocks.length = st.defn.basicBlocks.length from
            List.length_mapIdx]
      next => cases h

theorem run_invariant {paramTypes : List Lexeme} {ops : List Op} {st : State}
    (h : run (State.init paramTypes) ops = some st) : Built st.defn ∧ LinesOf st.defn (insnsOf ops) := by
  have hrun : ∀ (ops : List Op) (st st' : State) (insns : List Insn), Built st.defn → st.Placed → LinesOf st.defn insns →
      run st ops = some st' → Built st'.defn ∧ LinesOf st'.defn (insns ++ insnsOf ops) := by
    intro ops
    induction ops with
    | nil =>
      intro st st' insns hf _ hlines h
      obtain rfl := Option.some.inj h
      exact ⟨hf, (List.append_nil insns).symm ▸ hlines⟩
    | cons op ops ih =>
      intro st st' insns hf hplaced hlines h
      rw [run, List.foldlM_cons, Option.bind_eq_bind, Option.bind_eq_some_iff] at h
      obtain ⟨st1, hstep, h⟩ := h
      obtain ⟨hf1, hplaced1⟩ := step_built hf hplaced hstep
      have hlines1 := step_linesOf hf hplaced hlines hstep
      have hcons : insnsOf (op :: ops) = insnsOf [op] ++ insnsOf ops := by
        rw [insnsOf, show op :: ops = [op] ++ ops from rfl, List.filterMap_append]
        rfl
      rw [hcons, ← List.append_assoc]
      exact ih st1 st' _ hf1 hplaced1 hlines1 h
  refine hrun ops _ st [] (init_built paramTypes) (fun block hblock => by cases hblock) ⟨?_, ?_⟩ h
  · exact fun ws hws => absurd hws List.not_mem_nil
  · exact List.forall_mem_nil _

end Nballerina.PrintLlvm
