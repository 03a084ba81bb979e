import Nballerina.Lib.Blocks
import Mathlib.Data.List.Basic

/-!
# Parts of code that continue each other

A generator that writes a part of the code starts in a block and stops in one: it stays in the block,
or it ends the block with a terminator and goes on in a block it has made. `Part` says so. Parts that
continue each other, each starting in the block where the one before stopped, are a part
(`Part.trans`), and none of them writes to a block after its terminator (`Part.proper`).
-/

namespace Nballerina.Lib

variable {ι : Type}

/-- The blocks written so far, and the number of those that have been made. -/
structure BlockCode (ι : Type) where
  blocks : Blocks ι
  count : Nat

/-- Which instructions end a block, and where they lead. -/
structure Terminators (ι : Type) where
  isTerminator : ι → Bool
  targets : ι → List Nat

variable {T : Terminators ι}

/-- The block has no terminator yet. -/
def Unfinished (T : Terminators ι) (insns : List ι) : Prop := ∀ t ∈ insns, T.isTerminator t = false

/-- Nothing comes after a terminator. -/
def Proper (T : Terminators ι) (insns : List ι) : Prop := Unfinished T insns.dropLast

/-- A jump from the one block to the other. -/
def Jumps (T : Terminators ι) (blocks : Blocks ι) (b b' : Nat) : Prop := ∃ t ∈ blocks b, b' ∈ T.targets t

abbrev Reaches (T : Terminators ι) (blocks : Blocks ι) : Nat → Nat → Prop :=
  Relation.ReflTransGen (Jumps T blocks)

theorem Reaches.mono {blocks blocks' : Blocks ι} (h : Extends blocks blocks') {b b' : Nat}
    (hreach : Reaches T blocks b b') : Reaches T blocks' b b' := by
  have hjump : ∀ c d, Jumps T blocks c d → Jumps T blocks' c d :=
    fun c _ ⟨t, ht, hc⟩ => ⟨t, (h c).subset ht, hc⟩
  exact Relation.ReflTransGen.mono hjump _ _ hreach

theorem Unfinished.proper {insns : List ι} (h : Unfinished T insns) : Proper T insns :=
  fun t ht => h t (List.dropLast_subset insns ht)

theorem Unfinished.append {insns insns' : List ι} (h : Unfinished T insns) (h' : Unfinished T insns') :
    Unfinished T (insns ++ insns') :=
  List.forall_mem_append.mpr ⟨h, h'⟩

/-- A part of the code, from the end of `start` to the end of `stop`. -/
structure Part (T : Terminators ι) (c : BlockCode ι) (start : Nat) (c' : BlockCode ι) (stop : Nat) :
    Prop where
  count : c.count ≤ c'.count
  other : ∀ b, b < c.count → b ≠ start → c'.blocks b = c.blocks b
  unmade : (∀ b, c.count ≤ b → c.blocks b = []) → ∀ b, c'.count ≤ b → c'.blocks b = []
  made : ∀ b, c.count ≤ b → b < c'.count → Proper T (c'.blocks b)
  reaches : Reaches T c'.blocks start stop
  stop : (stop = start ∧ ∃ insns, c'.blocks start = c.blocks start ++ insns ∧ Unfinished T insns) ∨
    (c.count ≤ stop ∧ stop < c'.count ∧ Unfinished T (c'.blocks stop) ∧
      ∃ insns t, c'.blocks start = c.blocks start ++ (insns ++ [t]) ∧ Unfinished T insns)

namespace Part

variable {c c' c'' : BlockCode ι} {start mid stop : Nat}

theorem refl (c : BlockCode ι) (start : Nat) : Part T c start c start where
  count := Nat.le_refl _
  other _ _ _ := rfl
  unmade h := h
  made b hb hlt := absurd hlt (Nat.not_lt.mpr hb)
  reaches := .refl
  stop := .inl ⟨rfl, [], (List.append_nil _).symm, fun t ht => absurd ht (by simp)⟩

theorem stop_lt (h : Part T c start c' stop) (hstart : start < c.count) : stop < c'.count := by
  rcases h.stop with ⟨rfl, _⟩ | ⟨_, hlt, _⟩
  · exact Nat.lt_of_lt_of_le hstart h.count
  · exact hlt

theorem appends (h : Part T c start c' stop) : ∃ insns, c'.blocks start = c.blocks start ++ insns := by
  rcases h.stop with ⟨_, insns, heq, _⟩ | ⟨_, _, _, insns, t, heq, _⟩
  · exact ⟨insns, heq⟩
  · exact ⟨_, heq⟩

theorem grows (h : Part T c start c' stop) (hunmade : ∀ b, c.count ≤ b → c.blocks b = []) :
    Extends c.blocks c'.blocks := by
  intro b
  by_cases hb : b < c.count
  · by_cases hbs : b = start
    · subst hbs
      obtain ⟨insns, heq⟩ := h.appends
      exact ⟨insns, heq.symm⟩
    · exact (h.other b hb hbs).symm ▸ List.prefix_rfl
  · rw [hunmade b (Nat.le_of_not_lt hb)]
    exact List.nil_prefix

/-- What a part makes of its first block, if it was unfinished. -/
theorem start_proper (h : Part T c start c' stop) (hstart : Unfinished T (c.blocks start)) :
    Proper T (c'.blocks start) := by
  rcases h.stop with ⟨_, insns, heq, hun⟩ | ⟨_, _, _, insns, t, heq, hun⟩
  · rw [heq]
    exact (hstart.append hun).proper
  · rw [heq, ← List.append_assoc]
    unfold Proper
    rw [List.dropLast_concat]
    exact hstart.append hun

/-- The last block of a part that starts in an unfinished block is unfinished. -/
theorem stop_unfinished (h : Part T c start c' stop) (hstart : Unfinished T (c.blocks start)) :
    Unfinished T (c'.blocks stop) := by
  rcases h.stop with ⟨rfl, insns, heq, hun⟩ | ⟨_, _, hun, _⟩
  · rw [heq]
    exact hstart.append hun
  · exact hun

/-- A part that starts where another one stopped continues it. -/
theorem trans (h : Part T c start c' mid) (h' : Part T c' mid c'' stop) (hstart : start < c.count)
    (hunmade : ∀ b, c.count ≤ b → c.blocks b = []) : Part T c start c'' stop where
  count := Nat.le_trans h.count h'.count
  other b hb hne := by
    have hmid : b ≠ mid := by
      rcases h.stop with ⟨rfl, _⟩ | ⟨hnew, _⟩
      · exact hne
      · omega
    rw [h'.other b (Nat.lt_of_lt_of_le hb h.count) hmid, h.other b hb hne]
  unmade hc := h'.unmade (h.unmade hc)
  made b hb hlt := by
    by_cases hlt' : b < c'.count
    · by_cases hmid : b = mid
      · subst hmid
        rcases h.stop with ⟨rfl, _⟩ | ⟨_, _, hun, _⟩
        · omega
        · exact h'.start_proper hun
      · rw [h'.other b hlt' hmid]
        exact h.made b hb hlt'
    · exact h'.made b (Nat.le_of_not_lt hlt') hlt
  reaches := (Reaches.mono (h'.grows (h.unmade hunmade)) h.reaches).trans h'.reaches
  stop := by
    rcases h.stop with ⟨rfl, insns, heq, hun⟩ | ⟨hnew, hlt, hun, insns, t, heq, hun'⟩
    · rcases h'.stop with ⟨rfl, insns', heq', hun'⟩ | ⟨hnew, hlt, hun', insns', t, heq', hun''⟩
      · refine .inl ⟨rfl, insns ++ insns', ?_, hun.append hun'⟩
        rw [heq', heq, List.append_assoc]
      · refine .inr ⟨Nat.le_trans h.count hnew, hlt, hun', insns ++ insns', t, ?_, hun.append hun''⟩
        rw [heq', heq, List.append_assoc, List.append_assoc]
    · have hsame : c''.blocks start = c'.blocks start :=
        h'.other start (Nat.lt_of_lt_of_le hstart h.count) (by omega)
      refine .inr ⟨?_, h'.stop_lt hlt, h'.stop_unfinished hun, insns, t, hsame.trans heq, hun'⟩
      rcases h'.stop with ⟨rfl, _⟩ | ⟨hnew', _⟩
      · exact hnew
      · exact Nat.le_trans h.count hnew'

/-- A part that starts in an unfinished block puts nothing after a terminator. -/
theorem proper (h : Part T c start c' stop) (hstart : Unfinished T (c.blocks start))
    (hunmade : ∀ b, c.count ≤ b → c.blocks b = []) (hc : ∀ b, Proper T (c.blocks b)) (b : Nat) :
    Proper T (c'.blocks b) := by
  by_cases hbs : b = start
  · rw [hbs]
    exact h.start_proper hstart
  · by_cases hb : b < c.count
    · rw [h.other b hb hbs]
      exact hc b
    · by_cases hlt : b < c'.count
      · exact h.made b (Nat.le_of_not_lt hb) hlt
      · rw [h.unmade hunmade b (Nat.le_of_not_lt hlt)]
        exact fun t ht => absurd ht (by simp)

/-- One instruction that is no terminator. -/
theorem push (hstart : start < c.count) {insn : ι} (hinsn : T.isTerminator insn = false) :
    Part T c start ⟨pushInsn c.blocks start insn, c.count⟩ start where
  count := Nat.le_refl _
  other b _ hne := pushInsn_of_ne insn hne
  unmade hc b hb := by
    have hne : b ≠ start := Nat.ne_of_gt (Nat.lt_of_lt_of_le hstart hb)
    exact (pushInsn_of_ne insn hne).trans (hc b hb)
  made b hb hlt := absurd hlt (Nat.not_lt.mpr hb)
  reaches := .refl
  stop := .inl ⟨rfl, [insn], pushInsn_self .., fun t ht => by rw [List.mem_singleton.mp ht, hinsn]⟩

end Part

/-! ## Where parts start and stop -/

/-- The parts lead from the one block to the other, each starting where the one before stopped. -/
def Connected : Nat → List (Nat × Nat) → Nat → Prop
  | b, [], b' => b = b'
  | b, part :: parts, b' => part.1 = b ∧ Connected part.2 parts b'

theorem connected_append {parts parts' : List (Nat × Nat)} : ∀ {b b' : Nat},
    Connected b (parts ++ parts') b' ↔ ∃ m, Connected b parts m ∧ Connected m parts' b' := by
  induction parts with
  | nil =>
    intro b b'
    exact ⟨fun h => ⟨b, rfl, h⟩, fun ⟨m, hm, h⟩ => by rw [show b = m from hm]; exact h⟩
  | cons part parts ih =>
    intro b b'
    show part.1 = b ∧ Connected part.2 (parts ++ parts') b' ↔ _
    rw [ih]
    exact ⟨fun ⟨hb, m, hm, h⟩ => ⟨m, ⟨hb, hm⟩, h⟩, fun ⟨m, ⟨hb, hm⟩, h⟩ => ⟨hb, m, hm, h⟩⟩

/-- Parts that each lead from their first block to their last one are reached one after the other. -/
theorem Connected.reaches {blocks : Blocks ι} {parts : List (Nat × Nat)}
    (hparts : ∀ part ∈ parts, Reaches T blocks part.1 part.2) : ∀ {b b' : Nat}, Connected b parts b' →
      ∀ part ∈ parts, Reaches T blocks b part.1 := by
  induction parts with
  | nil => exact fun _ part hpart => absurd hpart (by simp)
  | cons first parts ih =>
    intro b b' h part hpart
    obtain ⟨hfirst, hrest⟩ := h
    rw [← hfirst]
    rcases List.mem_cons.mp hpart with rfl | hpart
    · exact .refl
    · have hstep := hparts first (.head _)
      exact hstep.trans (ih (fun p hp => hparts p (.tail _ hp)) hrest part hpart)

end Nballerina.Lib
