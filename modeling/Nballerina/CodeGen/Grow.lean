import Nballerina.CodeGen.Cond

/-!
# What code generation leaves alone

Code for a condition is appended to the block it starts in, to the exit that is passed down to it
and to blocks it makes itself. `Grows W g g'` says so of two states: registers and blocks have
only been added, and of the blocks that were there only those of `W` have been written.
-/

namespace Nballerina.CodeGen

open Nballerina.Lib

variable {T V : Type}

/-- Blocks that have not been made are empty. -/
def Gen.Tidy (g : Gen T V) : Prop := ∀ b, g.blockCount ≤ b → g.blocks b = []

/-- From `g` to `g'` only the blocks of `W`, and new ones, have been written. -/
structure Grows (W : Nat → Prop) (g g' : Gen T V) : Prop where
  registers : g.registers <+: g'.registers
  count : g.blockCount ≤ g'.blockCount
  blocks : Extends g.blocks g'.blocks
  same : ∀ b, b < g.blockCount → ¬ W b → g'.blocks b = g.blocks b
  tidy : g.Tidy → g'.Tidy

variable {W : Nat → Prop} {g g' g'' : Gen T V}

namespace Grows

theorem refl (W : Nat → Prop) (g : Gen T V) : Grows W g g :=
  ⟨List.prefix_rfl, Nat.le_refl _, Extends.refl _, fun _ _ _ => rfl, id⟩

/-- The second part may write what the first may, and what the first has made. -/
theorem trans {W' : Nat → Prop} (h : Grows W g g') (h' : Grows W' g' g'')
    (hW : ∀ b, W' b → b < g.blockCount → W b) : Grows W g g'' where
  registers := h.registers.trans h'.registers
  count := Nat.le_trans h.count h'.count
  blocks := h.blocks.trans h'.blocks
  same b hb hWb := by
    have hlt : b < g'.blockCount := Nat.lt_of_lt_of_le hb h.count
    rw [h'.same b hlt (fun hW' => hWb (hW b hW' hb)), h.same b hb hWb]
  tidy hg := h'.tidy (h.tidy hg)

theorem step (h : Grows W g g') (h' : Grows W g' g'') : Grows W g g'' :=
  h.trans h' fun _ hb _ => hb

/-- More blocks than were written may be allowed. -/
theorem imp {W' : Nat → Prop} (h : Grows W g g') (hW : ∀ b, W b → W' b) : Grows W' g g' :=
  { h with same := fun b hb hWb => h.same b hb fun hw => hWb (hW b hw) }

theorem length_le (h : Grows W g g') : g.registers.length ≤ g'.registers.length :=
  h.registers.length_le

theorem addRegister (W : Nat → Prop) (g : Gen T V) (reg : Register T) :
    Grows W g (g.addRegister reg) :=
  ⟨List.prefix_append _ _, Nat.le_refl _, Extends.refl _, fun _ _ _ => rfl, id⟩

theorem addBlock (W : Nat → Prop) (g : Gen T V) : Grows W g g.addBlock where
  registers := List.prefix_rfl
  count := Nat.le_succ _
  blocks := Extends.refl _
  same _ _ _ := rfl
  tidy hg b hb := hg b (Nat.le_of_succ_le hb)

theorem push (W : Nat → Prop) (g : Gen T V) {block : Nat} (hW : W block)
    (hlt : block < g.blockCount) (insn : Insn T V) : Grows W g (g.push block insn) where
  registers := List.prefix_rfl
  count := Nat.le_refl _
  blocks := extends_pushInsn g.blocks block insn
  same b _ hWb := pushInsn_of_ne insn fun hb => hWb (hb ▸ hW)
  tidy hg b hb := by
    have hne : b ≠ block := by
      intro heq
      rw [heq] at hb
      exact absurd hlt (Nat.not_lt.mpr hb)
    exact (pushInsn_of_ne insn hne).trans (hg b hb)

end Grows

/-- Dropping the blocks that a part has made, when it has written no other. -/
theorem discard_blocks {W : Nat → Prop} (hg : g.Tidy) (h : Grows W g.addBlock g')
    (hW : ∀ b, W b → b = g.blockCount) : (g'.discard g.blockCount).blocks = g.blocks := by
  funext b
  show (if b < g.blockCount then g'.blocks b else []) = g.blocks b
  split
  next hlt =>
    exact h.same b (Nat.lt_succ_of_lt hlt) fun hWb => absurd (hW b hWb) (Nat.ne_of_lt hlt)
  next hge => exact (hg b (Nat.le_of_not_lt hge)).symm

theorem grows_discard {W' : Nat → Prop} (hg : g.Tidy) (h : Grows W' g.addBlock g')
    (hW : ∀ b, W' b → b = g.blockCount) : Grows W g (g'.discard g.blockCount) where
  registers := h.registers
  count := Nat.le_refl _
  blocks := by
    rw [discard_blocks hg h hW]
    exact Extends.refl _
  same b _ _ := by rw [discard_blocks hg h hW]
  tidy _ b hb := by
    rw [discard_blocks hg h hW]
    exact hg b hb

/-! ## Code that stays in its block -/

/-- Code has been appended to one block, and no block has been made. -/
structure Appends (block : Nat) (g g' : Gen T V) : Prop where
  grows : Grows (· = block) g g'
  count : g'.blockCount = g.blockCount

namespace Appends

variable {block : Nat}

/-- An instruction with a register of its own. -/
theorem setNew (g : Gen T V) (hblock : block < g.blockCount) (reg : Register T) (insn : Insn T V) :
    Appends block g ((g.addRegister reg).push block insn) :=
  ⟨(Grows.addRegister _ g reg).step
    (Grows.push (· = block) (g.addRegister reg) rfl hblock insn), rfl⟩

end Appends

end Nballerina.CodeGen
