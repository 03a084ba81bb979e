import Mathlib.Logic.Function.Basic
import Mathlib.Logic.Relation

/-!
# Code in blocks

Code is a block of instructions for each label; a program that generates code only appends to
blocks. `Star` runs such code: an instruction falls through or jumps to the start of a block, and
one without a meaning stops the run. A run is not disturbed by what is appended later
(`Star.mono`), so what is proved of the code a generator has emitted holds of the finished code.
-/

namespace Nballerina.Lib

variable {ι σ : Type}

/-- The instructions of each block. -/
abbrev Blocks (ι : Type) := Nat → List ι

/-- A place in the code. -/
structure Place where
  block : Nat
  index : Nat
deriving DecidableEq

/-- Where an instruction leads. -/
inductive Step (σ : Type) where
  | next (s : σ)
  | jump (block : Nat) (s : σ)

/-- The start of a block. -/
def blockStart (block : Nat) : Place := ⟨block, 0⟩

/-- The end of a block as far as it has been written. -/
def blockEnd (blocks : Blocks ι) (block : Nat) : Place := ⟨block, (blocks block).length⟩

/-- The second code has at least the instructions of the first. -/
def Extends (blocks blocks' : Blocks ι) : Prop := ∀ b, blocks b <+: blocks' b

theorem Extends.refl (blocks : Blocks ι) : Extends blocks blocks := fun _ => List.prefix_rfl

theorem Extends.trans {blocks blocks' blocks'' : Blocks ι} (h : Extends blocks blocks')
    (h' : Extends blocks' blocks'') : Extends blocks blocks'' :=
  fun b => (h b).trans (h' b)

variable {s s' : σ} {b : Nat} {insns : List ι} {blocks blocks' : Blocks ι}

/-- An instruction stays where it is. -/
theorem Extends.get (h : Extends blocks blocks') {i : Nat} {insn : ι}
    (hget : (blocks b)[i]? = some insn) : (blocks' b)[i]? = some insn := by
  obtain ⟨rest, hrest⟩ := h b
  rw [← hrest, List.getElem?_append_left (List.getElem?_eq_some_iff.mp hget).1]
  exact hget

/-- One more instruction at the end of a block. -/
def pushInsn (blocks : Blocks ι) (b : Nat) (insn : ι) : Blocks ι :=
  Function.update blocks b (blocks b ++ [insn])

@[simp] theorem pushInsn_self (blocks : Blocks ι) (b : Nat) (insn : ι) :
    pushInsn blocks b insn b = blocks b ++ [insn] :=
  Function.update_self ..

@[simp] theorem pushInsn_of_ne {c : Nat} (insn : ι) (h : c ≠ b) :
    pushInsn blocks b insn c = blocks c :=
  Function.update_of_ne h ..

theorem pushInsn_of_eq {c : Nat} (insn : ι) (h : c = b) :
    pushInsn blocks b insn c = blocks c ++ [insn] := by
  rw [h, pushInsn_self]

theorem extends_pushInsn (blocks : Blocks ι) (b : Nat) (insn : ι) :
    Extends blocks (pushInsn blocks b insn) := by
  intro c
  by_cases hcb : c = b
  · rw [hcb, pushInsn_self]
    exact List.prefix_append _ _
  · have heq : pushInsn blocks b insn c = blocks c := pushInsn_of_ne insn hcb
    exact ⟨[], by rw [heq, List.append_nil]⟩

variable (exec : ι → σ → Option (Step σ))

/-- A run, from a place and a state to a place and a state. -/
inductive Star (blocks : Blocks ι) : Place → σ → Place → σ → Prop where
  | refl (p : Place) (s : σ) : Star blocks p s p s
  | next {p p' : Place} {s s1 s' : σ} {insn : ι} : (blocks p.block)[p.index]? = some insn →
      exec insn s = some (.next s1) → Star blocks ⟨p.block, p.index + 1⟩ s1 p' s' →
      Star blocks p s p' s'
  | jump {p p' : Place} {s s1 s' : σ} {insn : ι} {b : Nat} :
      (blocks p.block)[p.index]? = some insn → exec insn s = some (.jump b s1) →
      Star blocks (blockStart b) s1 p' s' → Star blocks p s p' s'

variable {exec}

theorem Star.trans {p p' p'' : Place} {s'' : σ} (h : Star exec blocks p s p' s')
    (h' : Star exec blocks p' s' p'' s'') :
    Star exec blocks p s p'' s'' := by
  induction h with
  | refl => exact h'
  | next hget hexec _ ih => exact Star.next hget hexec (ih h')
  | jump hget hexec _ ih => exact Star.jump hget hexec (ih h')

theorem Star.mono (hext : Extends blocks blocks') {p p' : Place} (h : Star exec blocks p s p' s') :
    Star exec blocks' p s p' s' := by
  induction h with
  | refl p s => exact Star.refl p s
  | next hget hexec _ ih => exact Star.next (hext.get hget) hexec ih
  | jump hget hexec _ ih => exact Star.jump (hext.get hget) hexec ih

/-! ## Instructions in a row -/

variable (exec) in
/-- Instructions one after the other, up to the first that jumps. -/
def runInsns : List ι → σ → Option (Step σ)
  | [], s => some (.next s)
  | insn :: insns, s =>
    match exec insn s with
    | some (.next s') => runInsns insns s'
    | some (.jump b s') => some (.jump b s')
    | none => none

theorem runInsns_next {insn : ι} (h : exec insn s = some (.next s')) :
    runInsns exec (insn :: insns) s = runInsns exec insns s' := by
  rw [runInsns, h]

theorem runInsns_jump {insn : ι} (h : exec insn s = some (.jump b s')) :
    runInsns exec (insn :: insns) s = some (.jump b s') := by
  rw [runInsns, h]

theorem runInsns_append {insns' : List ι} (h : runInsns exec insns s = some (.next s')) :
    runInsns exec (insns ++ insns') s = runInsns exec insns' s' := by
  induction insns generalizing s with
  | nil =>
    cases h
    rfl
  | cons insn insns ih =>
    cases hexec : exec insn s with
    | none =>
      rw [runInsns, hexec] at h
      cases h
    | some step =>
      cases step with
      | next s1 =>
        rw [runInsns_next hexec] at h
        exact (runInsns_next hexec).trans (ih h)
      | jump b s1 =>
        rw [runInsns_jump hexec] at h
        cases h

/-- The instructions are in the code, from the place on. -/
def Seg (blocks : Blocks ι) (p : Place) (insns : List ι) : Prop :=
  insns <+: (blocks p.block).drop p.index

theorem Seg.mono (hext : Extends blocks blocks') {p : Place} (h : Seg blocks p insns) :
    Seg blocks' p insns := by
  obtain ⟨rest, hrest⟩ := hext p.block
  unfold Seg
  rw [← hrest, List.drop_append]
  exact h.trans (List.prefix_append _ _)

/-- What is appended to a block starts at its end. -/
theorem seg_append (h : blocks' b = blocks b ++ insns) : Seg blocks' (blockEnd blocks b) insns := by
  unfold Seg blockEnd
  rw [h, List.drop_append_of_le_length (Nat.le_refl _), List.drop_length]
  exact List.prefix_rfl

theorem seg_start (h : blocks b = insns) :
    Seg blocks (blockStart b) insns := by
  unfold Seg blockStart
  rw [h]
  exact List.prefix_rfl

theorem Seg.cons {p : Place} {insn : ι} (h : Seg blocks p (insn :: insns)) :
    (blocks p.block)[p.index]? = some insn ∧ Seg blocks ⟨p.block, p.index + 1⟩ insns := by
  obtain ⟨rest, hrest⟩ := h
  have hdrop : (blocks p.block).drop p.index = insn :: (insns ++ rest) := hrest.symm
  refine ⟨?_, rest, ?_⟩
  · have hzero : ((blocks p.block).drop p.index)[0]? = some insn := by
      rw [hdrop]
      rfl
    rw [List.getElem?_drop, Nat.add_zero] at hzero
    exact hzero
  · show insns ++ rest = (blocks p.block).drop (p.index + 1)
    rw [← List.drop_drop, hdrop]
    rfl

theorem star_next {blocks : Blocks ι} : ∀ {insns : List ι} {p : Place} {s s' : σ},
    Seg blocks p insns → runInsns exec insns s = some (.next s') →
    Star exec blocks p s ⟨p.block, p.index + insns.length⟩ s'
  | [], p, s, s', _, hrun => by
    cases hrun
    exact Star.refl _ _
  | insn :: insns, p, s, s', hseg, hrun => by
    obtain ⟨hget, hseg'⟩ := hseg.cons
    unfold runInsns at hrun
    split at hrun
    next s1 hexec =>
      refine Star.next hget hexec ?_
      have hrest := star_next hseg' hrun
      rw [List.length_cons, Nat.add_comm insns.length, ← Nat.add_assoc]
      exact hrest
    next => cases hrun
    next => cases hrun

theorem star_jump {blocks : Blocks ι} : ∀ {insns : List ι} {p : Place} {s s' : σ} {b : Nat},
    Seg blocks p insns → runInsns exec insns s = some (.jump b s') →
    Star exec blocks p s (blockStart b) s'
  | [], p, s, s', b, _, hrun => by cases hrun
  | insn :: insns, p, s, s', b, hseg, hrun => by
    obtain ⟨hget, hseg'⟩ := hseg.cons
    unfold runInsns at hrun
    split at hrun
    next s1 hexec => exact Star.next hget hexec (star_jump hseg' hrun)
    next c s1 hexec =>
      cases hrun
      exact Star.jump hget hexec (Star.refl _ _)
    next => cases hrun

/-- To the end of what has been appended to a block. -/
theorem star_append (h : blocks' b = blocks b ++ insns) (hrun : runInsns exec insns s = some (.next s')) :
    Star exec blocks' (blockEnd blocks b) s (blockEnd blocks' b) s' := by
  have hend : blockEnd blocks' b = ⟨b, (blocks b).length + insns.length⟩ := by
    unfold blockEnd
    rw [h, List.length_append]
  rw [hend]
  exact star_next (seg_append h) hrun

/-- An empty block ends where it starts. -/
theorem blockEnd_of_nil (h : blocks b = []) :
    blockEnd blocks b = blockStart b := by
  unfold blockEnd blockStart
  rw [h]
  rfl

/-- Nothing has been written at the place. -/
def Open (blocks : Blocks ι) (p : Place) : Prop := (blocks p.block)[p.index]? = none

theorem open_blockEnd (blocks : Blocks ι) (b : Nat) : Open blocks (blockEnd blocks b) :=
  List.getElem?_eq_none (Nat.le_refl _)

/-- A run that can go no further ends in one way. -/
theorem Star.unique {p p1 p2 : Place} {s1 s2 : σ} (h1 : Star exec blocks p s p1 s1)
    (h2 : Star exec blocks p s p2 s2) (hp1 : Open blocks p1) (hp2 : Open blocks p2) :
    p1 = p2 ∧ s1 = s2 := by
  have hopen : ∀ {p : Place} {insn : ι}, Open blocks p → (blocks p.block)[p.index]? = some insn →
      False := by
    intro p insn hp hget
    rw [hp] at hget
    cases hget
  induction h1 with
  | refl p s =>
    cases h2 with
    | refl => exact ⟨rfl, rfl⟩
    | next hget _ _ => exact (hopen hp1 hget).elim
    | jump hget _ _ => exact (hopen hp1 hget).elim
  | next hget hexec _ ih =>
    cases h2 with
    | refl => exact (hopen hp2 hget).elim
    | next hget' hexec' h2 =>
      rw [hget] at hget'
      cases hget'
      rw [hexec] at hexec'
      cases hexec'
      exact ih h2 hp1
    | jump hget' hexec' _ =>
      rw [hget] at hget'
      cases hget'
      rw [hexec] at hexec'
      cases hexec'
  | jump hget hexec _ ih =>
    cases h2 with
    | refl => exact (hopen hp2 hget).elim
    | next hget' hexec' _ =>
      rw [hget] at hget'
      cases hget'
      rw [hexec] at hexec'
      cases hexec'
    | jump hget' hexec' h2 =>
      rw [hget] at hget'
      cases hget'
      rw [hexec] at hexec'
      cases hexec'
      exact ih h2 hp1

end Nballerina.Lib
