import Nballerina.CodeGen.Operands

/-!
# The exits of a condition

The code of a condition leaves through the exits of its `CondExprEffect`. `CondOk` says what was
emitted between two states: only the block it started in and new blocks were written, and from a
state that agrees with the bindings the code runs to the exit of the value of the condition. When
there are two exits, it comes there by a branch that the exit has recorded, with bindings that
agree.

A constant condition is diverted into the exit that was passed down without a record of the branch
(`codeGenConstCond`); for the single exit of such a condition nothing is said about its branches.
-/

namespace Nballerina.CodeGen

open Nballerina.Lib

variable {T V : Type}

/-! ## Mergers -/

/-- A merger while conditions are generated: its block is empty, and the branches into it come from
blocks that have been written. -/
structure MergerOk (limit : BindingChain T) (g : Gen T V) (merger : TypeMerger T) : Prop where
  dest_lt : merger.dest < g.blockCount
  empty : g.blocks merger.dest = []
  branches : Branches limit g.registers.length merger.origins
  written : ∀ o ∈ merger.origins, g.blocks o.label ≠ []

/-- A merger that is passed down to the code that starts in `block`. -/
structure PrevOk (limit : BindingChain T) (block : Nat) (g : Gen T V) (prev : TypeMerger T) :
    Prop where
  merger : MergerOk limit g prev
  dest_ne : prev.dest ≠ block
  label_ne : ∀ o ∈ prev.origins, o.label ≠ block

/-- What code generation for a condition starts with. -/
structure CondReady (limit bindings : BindingChain T) (block : Nat)
    (prevs : Option (PrevTypeMergers T)) (g : Gen T V) : Prop where
  block_lt : block < g.blockCount
  tidy : g.Tidy
  fits : Fits g.registers.length bindings
  proper : Proper bindings
  onLimit : Over limit bindings
  prevs : ∀ p, prevs = some p → PrevOk limit block g p.merger

/-- An exit that has been made, or the one that was passed down with more branches. -/
inductive ExitOk (limit bindings : BindingChain T) (g g' : Gen T V) :
    Option (TypeMerger T) → TypeMerger T → Prop where
  | new {merger : TypeMerger T} : MergerOk bindings g' merger → g.blockCount ≤ merger.dest →
      ExitOk limit bindings g g' none merger
  | prev {prev merger : TypeMerger T} : MergerOk limit g' merger → merger.dest = prev.dest →
      prev.origins ⊆ merger.origins → ExitOk limit bindings g g' (some prev) merger

/-- The exits of a condition. A single exit is the one that was passed down; when none was, the
code goes on in a block that has been reached. -/
inductive EffectOk (limit bindings : BindingChain T) (block : Nat) (g g' : Gen T V) :
    Option (PrevTypeMergers T) → CondExprEffect T → Prop where
  | both {prevs : Option (PrevTypeMergers T)} {trueMerger falseMerger : TypeMerger T} :
      ExitOk limit bindings g g' (prevMerger prevs true) trueMerger →
      ExitOk limit bindings g g' (prevMerger prevs false) falseMerger →
      trueMerger.dest ≠ falseMerger.dest →
      EffectOk limit bindings block g g' prevs (.both trueMerger falseMerger)
  | diverted {p : PrevTypeMergers T} {merger : TypeMerger T} :
      ExitOk limit bindings g g' (some p.merger) merger →
      EffectOk limit bindings block g g' (some p) (.only p.side merger)
  | single {side : Bool} {merger : TypeMerger T} : merger.dest < g'.blockCount →
      (merger.dest = block ∨ g.blockCount ≤ merger.dest) →
      EffectOk limit bindings block g g' none (.only side merger)

def CondExprEffect.isConst : CondExprEffect T → Bool
  | .only .. => true
  | .both .. => false

section Mergers

variable {limit limit' bindings : BindingChain T} {block : Nat}
  {prevs : Option (PrevTypeMergers T)} {g g1 : Gen T V} {W : Nat → Prop}

theorem MergerOk.mono {merger : TypeMerger T} (h : MergerOk limit g merger) (hg : Grows W g g1)
    (hW : ¬ W merger.dest) : MergerOk limit g1 merger where
  dest_lt := Nat.lt_of_lt_of_le h.dest_lt hg.count
  empty := (hg.same _ h.dest_lt hW).trans h.empty
  branches := ⟨h.branches.onLimit, fun o ho => (h.branches.fits o ho).mono hg.length_le,
    h.branches.nodup⟩
  written o ho := by
    intro hnil
    have hprefix := hg.blocks o.label
    rw [hnil, List.prefix_nil] at hprefix
    exact h.written o ho hprefix

theorem MergerOk.onLimit {merger : TypeMerger T} (h : MergerOk limit g merger)
    (hover : Over limit' limit) : MergerOk limit' g merger :=
  ⟨h.dest_lt, h.empty, ⟨fun o ho => hover.trans (h.branches.onLimit o ho), h.branches.fits,
    h.branches.nodup⟩, h.written⟩

/-- The branches into a merger do not come from an empty block. -/
theorem MergerOk.label_ne {merger : TypeMerger T} (h : MergerOk limit g merger) {b : Nat}
    (hb : g.blocks b = []) : ∀ o ∈ merger.origins, o.label ≠ b := by
  intro o ho heq
  exact h.written o ho (heq ▸ hb)

theorem PrevOk.mono {prev : TypeMerger T} (h : PrevOk limit block g prev)
    (hg : Grows (· = block) g g1) : PrevOk limit block g1 prev :=
  ⟨h.merger.mono hg h.dest_ne, h.dest_ne, h.label_ne⟩

theorem CondReady.mono (h : CondReady limit bindings block prevs g) (hg : Grows (· = block) g g1) :
    CondReady limit bindings block prevs g1 where
  block_lt := Nat.lt_of_lt_of_le h.block_lt hg.count
  tidy := hg.tidy h.tidy
  fits := h.fits.mono hg.length_le
  proper := h.proper
  onLimit := h.onLimit
  prevs p hp := (h.prevs p hp).mono hg

theorem prevMerger_eq_some {side : Bool} {prev : TypeMerger T}
    (h : prevMerger prevs side = some prev) : ∃ p, prevs = some p ∧ p.merger = prev := by
  cases prevs with
  | none => cases h
  | some p =>
    have h' : (if p.side = side then some p.merger else none) = some prev := h
    split at h'
    next =>
      cases h'
      exact ⟨p, rfl, rfl⟩
    next => cases h'

/-- More branches may go into an exit. -/
theorem ExitOk.extend {prev : Option (TypeMerger T)} {merger : TypeMerger T}
    (h : ExitOk limit bindings g g1 prev merger) (hover : Over limit bindings) :
    ∃ limit', MergerOk limit' g1 merger ∧ Over limit' bindings ∧
      ∀ {g2 : Gen T V} {merger' : TypeMerger T}, MergerOk limit' g2 merger' →
        merger'.dest = merger.dest → merger.origins ⊆ merger'.origins →
        ExitOk limit bindings g g2 prev merger' := by
  cases h with
  | new hmerger hdest => exact ⟨bindings, hmerger, .refl, fun h hd _ => .new h (hd ▸ hdest)⟩
  | prev hmerger hdest horigins =>
    exact ⟨limit, hmerger, hover,
      fun h hd ho => .prev h (hd.trans hdest) (List.Subset.trans horigins ho)⟩

/-- The exit that was passed down is one of the exits. -/
theorem EffectOk.passed {side : Bool} {kept : TypeMerger T} {effect : CondExprEffect T}
    (h : EffectOk limit bindings block g g1 (some ⟨side, kept⟩) effect) :
    ∃ merger, effect.exit side = some merger ∧
      ExitOk limit bindings g g1 (some kept) merger := by
  cases h with
  | both ht hf _ =>
    cases side with
    | true => exact ⟨_, rfl, ht⟩
    | false => exact ⟨_, rfl, hf⟩
  | diverted hp => exact ⟨_, if_pos rfl, hp⟩

/-- A narrowing keeps a chain as it is in a function. -/
theorem Proper.narrow {b b' : Binding T} (h : Proper bindings) (reg : NarrowRegister T)
    (hlookup : lookup b.name bindings = some b') (hun : b'.unnarrow = b.unnarrow) :
    Proper (narrow bindings b reg) := by
  obtain ⟨hmem, hname⟩ := mem_of_lookup hlookup
  -- the new binding is as good as one that was there
  have hold : ∀ c, .binding c ∈ CodeGen.narrow bindings b reg →
      ∃ c', .binding c' ∈ bindings ∧ c'.name = c.name ∧ c'.unnarrow = c.unnarrow := by
    intro c hc
    rcases List.mem_cons.mp hc with heq | hc
    · cases heq
      exact ⟨b', hmem, hname, hun⟩
    · exact ⟨c, hc, rfl, rfl⟩
  refine ⟨fun c hc => ?_, fun c d hc hd heq => ?_, fun c d hc hd heq => ?_⟩
  · obtain ⟨c', hc', hcname, hcun⟩ := hold c hc
    rw [← hcun, ← hcname]
    exact h.name_eq c' hc'
  · obtain ⟨c', hc', _, hcun⟩ := hold c hc
    obtain ⟨d', hd', _, hdun⟩ := hold d hd
    rw [← hcun, ← hdun] at heq ⊢
    exact h.unnarrow_eq c' d' hc' hd' heq
  · obtain ⟨c', hc', hcname, hcun⟩ := hold c hc
    obtain ⟨d', hd', hdname, hdun⟩ := hold d hd
    rw [← hcname, ← hdname] at heq
    rw [← hcun, ← hdun]
    exact h.name_unnarrow c' d' hc' hd' heq

theorem Over.proper {chain : BindingChain T} (h : Over limit chain) (hproper : Proper limit) :
    Proper chain := by
  induction h with
  | refl => exact hproper
  | narrow reg _ hlookup hun ih => exact ih.narrow reg hlookup hun

end Mergers

/-! ## Branches -/

/-- The merger that a branch from `block` goes into, with the branch recorded. -/
inductive Made (bindings : BindingChain T) (block : Nat) (g : Gen T V) :
    Option (TypeMerger T) → TypeMerger T → Gen T V → Prop where
  | new : Made bindings block g none ⟨[⟨block, bindings⟩], g.blockCount⟩ g.addBlock
  | prev (prev : TypeMerger T) :
      Made bindings block g (some prev) ⟨⟨block, bindings⟩ :: prev.origins, prev.dest⟩ g

theorem createMergerWithBindings_made (bindings : BindingChain T) (block : Nat) (g : Gen T V)
    (prev : Option (TypeMerger T)) :
    After (createMergerWithBindings bindings block prev) g
      (fun merger g' => Made bindings block g prev merger g') (fun _ _ => False) := by
  cases prev with
  | none => exact Made.new
  | some prev => exact Made.prev prev

namespace Made

variable {limit bindings : BindingChain T} {block : Nat} {prevs : Option (PrevTypeMergers T)}
  {g g0 g1 g2 : Gen T V} {narrowed : BindingChain T}
  {prev : Option (TypeMerger T)} {merger : TypeMerger T}

theorem grows (h : Made narrowed block g prev merger g1) (W : Nat → Prop) : Grows W g g1 := by
  cases h with
  | new => exact Grows.addBlock W g
  | prev => exact Grows.refl W g

theorem unchanged (h : Made narrowed block g prev merger g1) :
    g1.blocks = g.blocks ∧ g1.registers = g.registers := by
  cases h with
  | new => exact ⟨rfl, rfl⟩
  | prev => exact ⟨rfl, rfl⟩

/-- A new block, or the one that was passed down. -/
theorem dest (h : Made narrowed block g prev merger g1) :
    (prev = none ∧ merger.dest = g.blockCount ∧ g1.blockCount = g.blockCount + 1) ∨
      ∃ p, prev = some p ∧ merger.dest = p.dest ∧ g1.blockCount = g.blockCount := by
  cases h with
  | new => exact .inl ⟨rfl, rfl, rfl⟩
  | prev prev => exact .inr ⟨prev, rfl, rfl, rfl⟩

theorem origin (h : Made narrowed block g prev merger g1) : ⟨block, narrowed⟩ ∈ merger.origins := by
  cases h with
  | new => exact .head _ ..
  | prev => exact .head _ ..

/-- When the branch has been emitted. -/
theorem exitOk (h : Made narrowed block g0 prev merger g1)
    (hready : CondReady limit bindings block prevs g)
    (hprev : ∀ p, prev = some p → PrevOk limit block g p) (hover : Over bindings narrowed)
    (hcount : g.blockCount ≤ g0.blockCount) (hcount' : g1.blockCount ≤ g2.blockCount)
    (hgrows : Grows (· = block) g g2) (hfits : Fits g2.registers.length narrowed)
    (hwritten : g2.blocks block ≠ []) (hsame : ∀ b, b ≠ block → g2.blocks b = g.blocks b) :
    ExitOk limit bindings g g2 prev merger := by
  cases h with
  | new =>
    have hne : g0.blockCount ≠ block := by
      have hlt := hready.block_lt
      omega
    refine .new ⟨hcount', (hsame _ hne).trans (hready.tidy _ hcount), ?_, fun o ho => ?_⟩ hcount
    · refine ⟨fun o ho => ?_, fun o ho => ?_, List.nodup_singleton _⟩
      · rw [List.mem_singleton.mp ho]
        exact hover
      · rw [List.mem_singleton.mp ho]
        exact hfits
    · rw [List.mem_singleton.mp ho]
      exact hwritten
  | prev p =>
    have hp := hprev p rfl
    have hold := hp.merger.mono hgrows hp.dest_ne
    refine .prev ⟨hold.dest_lt, hold.empty, ⟨fun o ho => ?_, fun o ho => ?_, ?_⟩, fun o ho => ?_⟩ rfl
      fun o ho => .tail _ ho
    · rcases List.mem_cons.mp ho with rfl | ho
      · exact hready.onLimit.trans hover
      · exact hold.branches.onLimit o ho
    · rcases List.mem_cons.mp ho with rfl | ho
      · exact hfits
      · exact hold.branches.fits o ho
    · refine List.nodup_cons.mpr ⟨fun hmem => ?_, hold.branches.nodup⟩
      obtain ⟨o, ho, hlabel⟩ := List.mem_map.mp hmem
      exact hp.label_ne o ho hlabel
    · rcases List.mem_cons.mp ho with rfl | ho
      · exact hwritten
      · exact hold.written o ho

end Made

/-! ## What was emitted -/

variable [Values V] [TypeOps T V]

/-- The state in which an exit is reached. -/
structure Arrives (effect : CondExprEffect T) (merger : TypeMerger T) (m : Machine V)
    (ρ : String → Option V) : Prop where
  block : m.block = merger.dest
  origin : effect.isConst = false → ∃ o ∈ merger.origins, m.pred = o.label ∧ Agree o.bindings m ρ

/-- The code of a condition with the value `f ρ`, where `pre` holds at the start. -/
structure CondOk (limit bindings : BindingChain T) (block : Nat)
    (prevs : Option (PrevTypeMergers T)) (pre : (String → Option V) → Machine V → Prop)
    (f : (String → Option V) → Option Bool) (g g' : Gen T V) (effect : CondExprEffect T) :
    Prop where
  grows : Grows (· = block) g g'
  exits : EffectOk limit bindings block g g' prevs effect
  run : ∀ (m : Machine V) (ρ : String → Option V), Agree bindings m ρ → pre ρ m →
    m.block = block → ∃ b merger m', f ρ = some b ∧ effect.exit b = some merger ∧
      Star exec g'.blocks (blockEnd g.blocks block) m (blockEnd g'.blocks merger.dest) m' ∧
      (∀ k, k < g.registers.length → m'.regs k = m.regs k) ∧ Arrives effect merger m' ρ

/-- From `g1`, `m` generates the rest of the code of a condition that was begun in `g`. -/
def CondFrom (limit bindings : BindingChain T) (block : Nat) (prevs : Option (PrevTypeMergers T))
    (f : (String → Option V) → Option Bool) (g : Gen T V) (m : GenM T V (CondExprEffect T))
    (g1 : Gen T V) : Prop :=
  After m g1 (fun effect g' => CondOk limit bindings block prevs (fun _ _ => True) f g g' effect)
    (fun _ _ => True)

/-- `m` generates the code of a condition, if `passes` holds of the exit that is passed down. -/
def CondGen (passes : Option (PrevTypeMergers T) → Prop) (f : (String → Option V) → Option Bool)
    (m : BindingChain T → Nat → Option (PrevTypeMergers T) → GenM T V (CondExprEffect T)) : Prop :=
  ∀ (limit bindings : BindingChain T) (block : Nat) (prevs : Option (PrevTypeMergers T))
    (g : Gen T V), CondReady limit bindings block prevs g → passes prevs →
    CondFrom limit bindings block prevs f g (m bindings block prevs) g

section Emitted

variable {limit bindings : BindingChain T} {block : Nat} {prevs : Option (PrevTypeMergers T)}
  {pre : (String → Option V) → Machine V → Prop} {f : (String → Option V) → Option Bool}
  {g g0 g1 g2 : Gen T V}

omit [Values V] in
theorem Agree.of_regs {m m' : Machine V} {ρ : String → Option V} (h : Agree bindings m ρ)
    (heq : ∀ k, m'.regs k = m.regs k) : Agree bindings m' ρ := by
  refine ⟨fun name b hb => ?_, h.free⟩
  obtain ⟨v, hv, hholds⟩ := h.bound name b hb
  exact ⟨v, hv, (heq _).trans hholds.reg, hholds.semType, (heq _).trans hholds.unnarrowedReg,
    hholds.unnarrowedType⟩

variable {effect : CondExprEffect T}

/-- Straight code before the code of a condition, which may narrow the bindings. -/
theorem CondOk.prepend {bindings' : BindingChain T} {insns : List (Insn T V)}
    {pre' : (String → Option V) → Machine V → Prop}
    (hcond : CondOk limit bindings' block prevs pre' f g1 g2 effect) (hgrows : Grows (· = block) g g1)
    (hcount : g1.blockCount = g.blockCount) (hover : Over bindings bindings')
    (hinsns : g1.blocks block = g.blocks block ++ insns)
    (hrun : ∀ (m : Machine V) (ρ : String → Option V), Agree bindings m ρ → pre ρ m →
      ∃ m', runInsns exec insns m = some (.next m') ∧ Agree bindings' m' ρ ∧ pre' ρ m' ∧
        Keeps g.registers.length m m') :
    CondOk limit bindings block prevs pre f g g2 effect := by
  have hexit : ∀ {prev : Option (TypeMerger T)} {merger : TypeMerger T},
      ExitOk limit bindings' g1 g2 prev merger → ExitOk limit bindings g g2 prev merger := by
    intro prev merger hexit
    cases hexit with
    | new hmerger hdest => exact .new (hmerger.onLimit hover) (hcount ▸ hdest)
    | prev hmerger hdest horigins => exact .prev hmerger hdest horigins
  refine ⟨hgrows.step hcond.grows, ?_, fun m ρ hagree hpre hblock => ?_⟩
  · cases hcond.exits with
    | both ht hf hne => exact .both (hexit ht) (hexit hf) hne
    | diverted hp => exact .diverted (hexit hp)
    | single hlt hdest => exact .single hlt (hcount ▸ hdest)
  · obtain ⟨m1, hm1, hagree1, hpre1, hkeeps⟩ := hrun m ρ hagree hpre
    obtain ⟨b, merger, m2, hb, hexit, hstar, hregs, harrives⟩ :=
      hcond.run m1 ρ hagree1 hpre1 (hkeeps.block.trans hblock)
    refine ⟨b, merger, m2, hb, hexit, ?_, fun k hk => ?_, harrives⟩
    · exact ((star_append hinsns hm1).mono hcond.grows.blocks).trans hstar
    · exact (hregs k (Nat.lt_of_lt_of_le hk hgrows.length_le)).trans (hkeeps.regs k hk)

/-- The code of an operand before the code of a condition. -/
theorem Straight.condOk {post : (String → Option V) → Machine V → Prop}
    (h : Straight bindings block g g1 post) (hready : CondReady limit bindings block prevs g)
    (hcond : CondOk limit bindings block prevs post f g1 g2 effect) :
    CondOk limit bindings block prevs (fun _ _ => True) f g g2 effect := by
  obtain ⟨insns, hinsns, hrun⟩ := h.code
  refine hcond.prepend h.grows h.count .refl hinsns fun m ρ hagree _ => ?_
  obtain ⟨m', hm', hkeeps, hpost⟩ := hrun m ρ hagree
  exact ⟨m', hm', hagree.keeps hready.fits hkeeps.regs, hpost, hkeeps⟩

/-- A merge of types before the code of a condition. -/
theorem MergeOk.condOk {bindings' : BindingChain T} {origins : List (TypeMergerOrigin T)}
    (h : MergeOk bindings origins block bindings g g1 bindings')
    (hcond : CondOk limit bindings' block prevs (fun _ _ => True) f g1 g2 effect) :
    CondOk limit bindings block prevs
      (fun ρ m => ∃ o ∈ origins, m.pred = o.label ∧ Agree o.bindings m ρ) f g g2 effect := by
  obtain ⟨insns, hinsns, hrun⟩ := h.code
  refine hcond.prepend h.grows h.count h.onLimit hinsns fun m ρ hagree hpre => ?_
  obtain ⟨m', hm', hagree', hkeeps⟩ := hrun m ρ hagree hpre
  exact ⟨m', hm', hagree', trivial, hkeeps⟩

/-- A condition whose code goes on, at the exit of `side`, with the code of another one. -/
theorem CondOk.seq {limit' : BindingChain T} {prevs' : Option (PrevTypeMergers T)}
    {fl fr : (String → Option V) → Option Bool} {pre' : (String → Option V) → Machine V → Prop}
    {effect' : CondExprEffect T} {side : Bool} {rest : TypeMerger T}
    (hl : CondOk limit bindings block prevs pre fl g g1 effect)
    (hready : CondReady limit bindings block prevs g)
    (hr : CondOk limit' bindings rest.dest prevs' pre' fr g1 g2 effect')
    (hexit : effect.exit side = some rest) (hdest : rest.dest = block ∨ g.blockCount ≤ rest.dest)
    (hpre : ∀ m ρ, Arrives effect rest m ρ → pre' ρ m)
    (hexits : EffectOk limit bindings block g g2 prevs effect')
    (hother : ∀ b kept, b ≠ side → effect.exit b = some kept → ∃ kept',
      effect'.exit b = some kept' ∧ kept'.dest = kept.dest ∧ kept.origins ⊆ kept'.origins ∧
      g1.blocks kept.dest = [] ∧ g2.blocks kept.dest = [] ∧ effect.isConst = false)
    (hf : ∀ ρ, fl ρ = some side → f ρ = fr ρ) (hf' : ∀ ρ b, b ≠ side → fl ρ = some b → f ρ = some b) :
    CondOk limit bindings block prevs pre f g g2 effect' := by
  refine ⟨hl.grows.trans hr.grows fun b hb hlt => ?_, hexits,
    fun m ρ hagree hm hblock => ?_⟩
  · rcases hdest with hdest | hdest
    · exact hb.trans hdest
    · omega
  · obtain ⟨b, merger, m1, hb, hexit1, hstar, hregs, harrives⟩ := hl.run m ρ hagree hm hblock
    by_cases hside : b = side
    · subst hside
      rw [hexit] at hexit1
      cases hexit1
      obtain ⟨b2, merger2, m2, hb2, hexit2, hstar2, hregs2, harrives2⟩ :=
        hr.run m1 ρ (hagree.keeps hready.fits hregs) (hpre m1 ρ harrives) harrives.block
      refine ⟨b2, merger2, m2, (hf ρ hb).trans hb2, hexit2,
        (hstar.mono hr.grows.blocks).trans hstar2, fun k hk => ?_, harrives2⟩
      exact (hregs2 k (Nat.lt_of_lt_of_le hk hl.grows.length_le)).trans (hregs k hk)
    · obtain ⟨kept, hkept, hdest', horigins, hnil1, hnil2, hconst⟩ := hother b merger hside hexit1
      refine ⟨b, kept, m1, hf' ρ b hside hb, hkept, ?_, hregs,
        harrives.block.trans hdest'.symm, fun _ => ?_⟩
      · rw [hdest', blockEnd_of_nil hnil2, ← blockEnd_of_nil hnil1]
        exact hstar.mono hr.grows.blocks
      · obtain ⟨o, ho, hrest⟩ := harrives.origin hconst
        exact ⟨o, horigins ho, hrest⟩

/-- Code that is dropped afterwards. -/
theorem CondOk.discard (h : CondOk limit bindings block prevs pre f g g1 effect)
    (hgrows : Grows (fun _ => False) g1 g2) (hblocks : g2.blocks = g1.blocks) :
    CondOk limit bindings block prevs pre f g g2 effect := by
  have hexit : ∀ {prev : Option (TypeMerger T)} {merger : TypeMerger T},
      ExitOk limit bindings g g1 prev merger → ExitOk limit bindings g g2 prev merger := by
    intro prev merger hexit
    cases hexit with
    | new hmerger hdest => exact .new (hmerger.mono hgrows id) hdest
    | prev hmerger hdest horigins => exact .prev (hmerger.mono hgrows id) hdest horigins
  refine ⟨h.grows.step (hgrows.imp fun _ h => h.elim), ?_, ?_⟩
  · cases h.exits with
    | both ht hf hne => exact .both (hexit ht) (hexit hf) hne
    | diverted hp => exact .diverted (hexit hp)
    | single hlt hdest => exact .single (Nat.lt_of_lt_of_le hlt hgrows.count) hdest
  · rw [hblocks]
    exact h.run

/-- Another value that is the same where an exit is reached. -/
theorem CondOk.congr {f' : (String → Option V) → Option Bool}
    (h : CondOk limit bindings block prevs pre f g g1 effect)
    (hf : ∀ ρ b merger, f ρ = some b → effect.exit b = some merger → f' ρ = some b) :
    CondOk limit bindings block prevs pre f' g g1 effect := by
  refine ⟨h.grows, h.exits, fun m ρ hagree hm hblock => ?_⟩
  obtain ⟨b, merger, m', hb, hexit, hrest⟩ := h.run m ρ hagree hm hblock
  exact ⟨b, merger, m', hf ρ b merger hb hexit, hexit, hrest⟩

/-! ## Leaving a block -/

/-- One instruction that leaves the block. -/
theorem condOk_push {insn : Insn T V} (hready : CondReady limit bindings block prevs g)
    (hg : Grows (fun _ => False) g g1) (hblocks : g1.blocks = g.blocks)
    (hexits : EffectOk limit bindings block g (g1.push block insn) prevs effect)
    (hrun : ∀ (m : Machine V) (ρ : String → Option V), Agree bindings m ρ → pre ρ m →
      ∃ b merger m', f ρ = some b ∧ effect.exit b = some merger ∧ g.blocks merger.dest = [] ∧
        merger.dest ≠ block ∧ exec insn m = some (.jump merger.dest (m'.goto merger.dest)) ∧
        Keeps g.registers.length m m' ∧ (effect.isConst = false →
          ∃ o ∈ merger.origins, o.label = block ∧ Agree o.bindings m' ρ)) :
    CondOk limit bindings block prevs pre f g (g1.push block insn) effect := by
  have hlt : block < g1.blockCount := Nat.lt_of_lt_of_le hready.block_lt hg.count
  have hblock : (g1.push block insn).blocks block = g.blocks block ++ [insn] := by
    rw [Gen.blocks_push, pushInsn_self, hblocks]
  have hsame : ∀ b, b ≠ block → (g1.push block insn).blocks b = g.blocks b := by
    intro b hb
    rw [Gen.blocks_push, pushInsn_of_ne insn hb, hblocks]
  have hgrows : Grows (· = block) g (g1.push block insn) :=
    (hg.imp fun _ h => h.elim).step (Grows.push (· = block) g1 rfl hlt insn)
  refine ⟨hgrows, hexits, fun m ρ hagree hpre hm => ?_⟩
  obtain ⟨b, merger, m', hb, hexit, hempty, hne, hexec, hkeeps, horigin⟩ := hrun m ρ hagree hpre
  refine ⟨b, merger, m'.goto merger.dest, hb, hexit, ?_, hkeeps.regs, rfl, fun hconst => ?_⟩
  · rw [blockEnd_of_nil ((hsame _ hne).trans hempty)]
    refine star_jump (seg_append hblock) ?_
    exact runInsns_jump hexec
  · obtain ⟨o, ho, hlabel, hagree'⟩ := horigin hconst
    exact ⟨o, ho, (hkeeps.block.trans hm).trans hlabel.symm, hagree'.of_regs fun _ => rfl⟩

/-- A branch into two exits. -/
theorem condOk_branch {trueBindings falseBindings : BindingChain T} {t e : TypeMerger T}
    {insn : Insn T V} (hready : CondReady limit bindings block prevs g)
    (hg : Grows (fun _ => False) g g0) (hblocks : g0.blocks = g.blocks)
    (hcount : g0.blockCount = g.blockCount)
    (ht : Made trueBindings block g0 (prevMerger prevs true) t g1)
    (he : Made falseBindings block g1 (prevMerger prevs false) e g2)
    (htrue : Over bindings trueBindings ∧ Fits g0.registers.length trueBindings)
    (hfalse : Over bindings falseBindings ∧ Fits g0.registers.length falseBindings)
    (hrun : ∀ (m : Machine V) (ρ : String → Option V), Agree bindings m ρ → pre ρ m →
      ∃ b m', f ρ = some b ∧ exec insn m = some (.jump (if b then t.dest else e.dest)
          (m'.goto (if b then t.dest else e.dest))) ∧
        Keeps g.registers.length m m' ∧ Agree (if b then trueBindings else falseBindings) m' ρ) :
    CondOk limit bindings block prevs pre f g (g2.push block insn) (.both t e) := by
  have hlt := hready.block_lt
  have hprev : ∀ side p, prevMerger prevs side = some p → PrevOk limit block g p := by
    intro side p hp
    obtain ⟨q, hq, rfl⟩ := prevMerger_eq_some hp
    exact hready.prevs q hq
  have hg2 : Grows (fun _ => False) g g2 := (hg.step (ht.grows _)).step (he.grows _)
  have hblocks2 : g2.blocks = g.blocks :=
    (he.unchanged.1.trans ht.unchanged.1).trans hblocks
  have hregs2 : g2.registers = g0.registers := he.unchanged.2.trans ht.unchanged.2
  have hcount2 := Nat.lt_of_lt_of_le hlt hg2.count
  have hgrows : Grows (· = block) g (g2.push block insn) :=
    (hg2.imp fun _ h => h.elim).step (Grows.push (· = block) g2 rfl hcount2 insn)
  have hwritten : (g2.push block insn).blocks block ≠ [] := by
    rw [Gen.blocks_push, pushInsn_self]
    exact List.append_ne_nil_of_right_ne_nil _ (List.cons_ne_nil _ _)
  have hsame : ∀ b, b ≠ block → (g2.push block insn).blocks b = g.blocks b := by
    intro b hb
    rw [Gen.blocks_push, pushInsn_of_ne insn hb, hblocks2]
  have hdest : ∀ {side : Bool} {narrowed : BindingChain T} {merger : TypeMerger T}
      {g3 g4 : Gen T V}, Made narrowed block g3 (prevMerger prevs side) merger g4 →
      g.blockCount ≤ g3.blockCount → merger.dest ≠ block ∧ g.blocks merger.dest = [] := by
    intro side narrowed merger g3 g4 hmade hle
    rcases hmade.dest with ⟨_, hd, _⟩ | ⟨p, hp, hd, _⟩
    · exact ⟨by omega, hready.tidy _ (hd ▸ hle)⟩
    · obtain ⟨q, hq, rfl⟩ := prevMerger_eq_some hp
      have hok := hready.prevs q hq
      exact ⟨hd ▸ hok.dest_ne, hd ▸ hok.merger.empty⟩
  have hle1 : g.blockCount ≤ g1.blockCount := (hg.step (ht.grows _)).count
  have htd := hdest ht hg.count
  have hed := hdest he hle1
  have hne : t.dest ≠ e.dest := by
    rcases ht.dest with ⟨_, hd, hc⟩ | ⟨p, hp, hd, hc⟩ <;>
      rcases he.dest with ⟨_, hd', _⟩ | ⟨p', hp', hd', _⟩
    · omega
    · obtain ⟨q, hq, rfl⟩ := prevMerger_eq_some hp'
      have hq' := (hready.prevs q hq).merger.dest_lt
      omega
    · obtain ⟨q, hq, rfl⟩ := prevMerger_eq_some hp
      have hq' := (hready.prevs q hq).merger.dest_lt
      omega
    · -- only one exit is passed down
      cases prevs with
      | none => cases hp
      | some q =>
        obtain ⟨side, merger⟩ := q
        cases side
        · cases hp
        · cases hp'
  refine condOk_push hready hg2 hblocks2 (.both ?_ ?_ hne) fun m ρ hagree hpre => ?_
  · exact ht.exitOk hready (hprev true) htrue.1 hg.count (he.grows (fun _ => False)).count hgrows
      (hregs2 ▸ htrue.2) hwritten hsame
  · exact he.exitOk hready (hprev false) hfalse.1 hle1 (Nat.le_refl _) hgrows
      (hregs2 ▸ hfalse.2) hwritten hsame
  · obtain ⟨b, m', hb, hexec, hkeeps, hagree'⟩ := hrun m ρ hagree hpre
    cases b with
    | true => exact ⟨true, t, m', hb, rfl, htd.2, htd.1, hexec, hkeeps,
        fun _ => ⟨_, ht.origin, rfl, hagree'⟩⟩
    | false => exact ⟨false, e, m', hb, rfl, hed.2, hed.1, hexec, hkeeps,
        fun _ => ⟨_, he.origin, rfl, hagree'⟩⟩

end Emitted

end Nballerina.CodeGen
