import Nballerina.Bir.VerifyGraph

/-!
# The second round of the verification

`verifyRegFlow` goes past the test of a block only when as many flows have arrived as the first
round has counted edges into it. The invariant (`Flow`) has a list of the edges that leave a block
that is done and have not been followed yet: the flows that have arrived at a block and these are
together the edges from the blocks that are done. So each block is done once, after the blocks its
forward edges come from, and when nothing is left to follow all of them are.
-/

namespace Nballerina.Bir

open Lib Relation

/-! ## Code that only writes to register sets -/

/-- Nothing but register sets has changed. -/
structure Same (st st' : VerifyState) : Prop where
  degrees : st'.fwdInDegrees = st.fwdInDegrees
  flows : st'.blocksFlows = st.blocksFlows
  processed : st'.processed = st.processed

theorem Same.refl (st : VerifyState) : Same st st := ⟨rfl, rfl, rfl⟩

theorem Same.trans {st st' st'' : VerifyState} (h : Same st st') (h' : Same st' st'') :
    Same st st'' :=
  ⟨h'.degrees.trans h.degrees, h'.flows.trans h.flows, h'.processed.trans h.processed⟩

/-- The code writes to register sets only, and always ends. -/
def Quiet {α : Type} (m : VerifyM α) : Prop :=
  ∀ st, After m st (fun _ st' => Same st st') (fun e st' => e ≠ .timeout ∧ Same st st')

section Quiet

variable {α β : Type}

theorem quiet_pure (a : α) : Quiet (pure a : VerifyM α) := fun st => Same.refl st

theorem quiet_get : Quiet (get : VerifyM VerifyState) := fun st => Same.refl st

theorem Quiet.bind {m : VerifyM α} {f : α → VerifyM β} (hm : Quiet m) (hf : ∀ a, Quiet (f a)) :
    Quiet (m >>= f) := by
  intro st
  rw [after_bind]
  refine (hm st).imp (fun a st1 h1 => ?_) (fun _ _ he => he)
  exact (hf a st1).imp (fun _ _ h2 => h1.trans h2) (fun _ _ he => ⟨he.1, h1.trans he.2⟩)

theorem quiet_invalidErr {cx : VerifyCodeContext} {m : String} {pos : Option Position} :
    Quiet (invalidErr cx m pos : VerifyM α) := by
  intro st
  rw [after_invalidErr]
  exact ⟨by simp, Same.refl st⟩

theorem quiet_index (xs : List α) (i : Nat) : Quiet (index xs i) := by
  intro st
  cases h : xs[i]? with
  | none =>
    rw [after_index_none h]
    exact ⟨by simp, Same.refl st⟩
  | some x =>
    rw [after_index_some h]
    exact Same.refl st

theorem quiet_modify {g : VerifyState → VerifyState} (hg : ∀ st, Same st (g st)) :
    Quiet (modify g : VerifyM PUnit) :=
  fun st => hg st

theorem quiet_forM {l : List α} {f : α → VerifyM PUnit} (hf : ∀ a ∈ l, Quiet (f a)) :
    Quiet (l.forM f) := by
  induction l with
  | nil => exact quiet_pure _
  | cons a l ih =>
    exact Quiet.bind (hf a (.head _ ..)) fun _ =>
      ih fun b hb => hf b (.tail _ hb)

theorem quiet_mapM {l : List α} {f : α → VerifyM β} (hf : ∀ a ∈ l, Quiet (f a)) :
    Quiet (l.mapM f) := by
  induction l with
  | nil =>
    rw [List.mapM_nil]
    exact quiet_pure _
  | cons a l ih =>
    rw [List.mapM_cons]
    refine Quiet.bind (hf a (.head _ ..)) fun b => ?_
    exact Quiet.bind (ih fun c hc => hf c (.tail _ hc)) fun _ => quiet_pure _

theorem quiet_allocRegs (regs : List Bool) : Quiet (allocRegs regs) :=
  fun _ => ⟨rfl, rfl, rfl⟩

theorem quiet_setReg (regs number : Nat) : Quiet (setReg regs number) :=
  quiet_get.bind fun _ => (quiet_index _ _).bind fun _ => quiet_modify fun _ => ⟨rfl, rfl, rfl⟩

theorem quiet_cloneRegs (regs : Nat) : Quiet (cloneRegs regs) :=
  quiet_get.bind fun _ => (quiet_index _ _).bind fun _ => quiet_allocRegs _

theorem quiet_verifyOperandInitialized (cx : VerifyCodeContext) (op : Operand) (regs : Nat)
    (usagePos : Position) : Quiet (verifyOperandInitialized cx op regs usagePos) := by
  cases op with
  | const => exact quiet_pure _
  | register number =>
    refine quiet_get.bind fun _ => (quiet_index _ _).bind fun rs => (quiet_index _ _).bind fun b => ?_
    split
    next => exact quiet_pure _
    next => exact quiet_invalidErr

theorem quiet_conjFlows (i : Nat) : ∀ sets : List (List Bool), Quiet (conjFlows sets i)
  | [] => quiet_pure _
  | rs :: sets => by
    refine (quiet_index _ _).bind fun b => ?_
    split
    next => exact quiet_conjFlows i sets
    next => exact quiet_pure _

theorem quiet_mergeFlows (flows : List RegFlow) : Quiet (mergeFlows flows) := by
  unfold mergeFlows
  split
  next =>
    intro st
    exact ⟨by simp, Same.refl st⟩
  next => exact quiet_pure _
  next =>
    refine (quiet_mapM fun f _ => quiet_get.bind fun _ => quiet_index _ _).bind fun sets => ?_
    exact (quiet_mapM fun i _ => quiet_conjFlows i sets).bind fun _ => quiet_allocRegs _

theorem quiet_verifyPredecessors (cx : VerifyCodeContext) (flows : List RegFlow)
    (operands : List Operand) (pos : Position) :
    ∀ (predecessors : List Label) (i : Nat),
      Quiet (verifyPredecessors cx flows operands pos predecessors i)
  | [], _ => quiet_pure _
  | pred :: predecessors, i => by
    unfold verifyPredecessors
    split
    next flow _ =>
      refine (quiet_index _ _).bind fun op => ?_
      exact (quiet_verifyOperandInitialized cx op flow.regs pos).bind fun _ =>
        quiet_verifyPredecessors cx flows operands pos predecessors (i + 1)
    next => exact quiet_invalidErr

theorem quiet_verifyTypeMergeFlow (cx : VerifyCodeContext) (afterMerge : Bool)
    (flows : List RegFlow) (predecessors : List Label) (operands : List Operand) (pos : Position) :
    Quiet (verifyTypeMergeFlow cx afterMerge flows predecessors operands pos) := by
  unfold verifyTypeMergeFlow
  dsimp only
  split
  next => exact quiet_invalidErr
  next =>
    split
    next => exact quiet_invalidErr
    next => exact quiet_verifyPredecessors cx flows operands pos predecessors 0

theorem quiet_verifyInsnRegs (cx : VerifyCodeContext) (regs : Nat) (insn : Insn) :
    Quiet (verifyInsnRegs cx regs insn) := by
  unfold verifyInsnRegs
  split
  next number _ => exact quiet_setReg regs number
  next operand _ _ => exact quiet_verifyOperandInitialized cx operand regs insn.pos
  next => exact quiet_forM fun op _ => quiet_verifyOperandInitialized cx op regs insn.pos
  next => exact quiet_pure _

theorem quiet_verifyInsnsFlow (cx : VerifyCodeContext) (flows : List RegFlow) (regs : Nat) :
    ∀ (insns : List Insn) (afterMerge : Bool),
      Quiet (verifyInsnsFlow cx flows regs insns afterMerge)
  | [], _ => quiet_pure _
  | insn :: insns, afterMerge => by
    unfold verifyInsnsFlow
    split
    next predecessors _ =>
      refine (quiet_verifyTypeMergeFlow cx afterMerge flows predecessors _ insn.pos).bind fun _ => ?_
      exact (quiet_verifyInsnRegs cx regs insn).bind fun _ =>
        quiet_verifyInsnsFlow cx flows regs insns afterMerge
    next =>
      exact (quiet_verifyInsnRegs cx regs insn).bind fun _ =>
        quiet_verifyInsnsFlow cx flows regs insns true

theorem quiet_branchFlows (current : Label) (regs : Nat) (term : Insn) :
    Quiet (branchFlows current regs term) := by
  unfold branchFlows
  split
  next => exact quiet_pure _
  next => exact (quiet_cloneRegs regs).bind fun _ => quiet_pure _
  next =>
    exact (quiet_cloneRegs regs).bind fun _ => (quiet_setReg _ _).bind fun _ =>
      (quiet_setReg _ _).bind fun _ => quiet_pure _
  next => exact quiet_pure _
  next => exact quiet_pure _

theorem quiet_verifyParamRegsFrom (cx : VerifyCodeContext) :
    ∀ (regs : List Register) (afterParams : Bool), Quiet (verifyParamRegsFrom cx afterParams regs)
  | [], _ => quiet_pure _
  | reg :: regs, afterParams => by
    unfold verifyParamRegsFrom
    split
    next =>
      split
      next => exact quiet_invalidErr
      next => exact (quiet_verifyParamRegsFrom cx regs afterParams).bind fun _ => quiet_pure _
    next => exact (quiet_verifyParamRegsFrom cx regs true).bind fun _ => quiet_pure _
    next => exact (quiet_verifyParamRegsFrom cx regs true).bind fun _ => quiet_pure _

end Quiet

theorem forward_panic (block : BasicBlock) :
    forward (block.onPanic.toList.map fun label => (label, false)) = block.onPanic.toList := by
  cases block.onPanic <;> rfl

/-- The panic edge comes first. -/
theorem forward_edges (block : BasicBlock) (term : Insn) :
    ∃ labels, forward (edges block term) = block.onPanic.toList ++ labels := by
  unfold edges
  rw [forward_append, forward_panic]
  exact ⟨_, rfl⟩

/-- The flows that leave a block go along its forward edges, in their order. -/
theorem branchFlows_labels (block : BasicBlock) (current : Label) (regs : Nat) (term : Insn)
    (st : VerifyState) :
    After (branchFlows current regs term) st
      (fun flows _ => forward (edges block term) = block.onPanic.toList ++ flows.map fun e => e.1)
      (fun _ _ => True) := by
  have hpanic := forward_panic block
  unfold branchFlows edges
  split
  next dest backward _ =>
    simp only [after_pure]
    rw [forward_append, hpanic]
    cases backward <;> rfl
  next ifTrue ifFalse _ =>
    simp only [after_bind, after_pure]
    refine (quiet_cloneRegs regs st).imp (fun _ _ _ => ?_) (fun _ _ _ => trivial)
    rw [forward_append, hpanic]
    rfl
  next ifTrue ifFalse _ _ _ =>
    simp only [after_bind, after_pure]
    refine (quiet_cloneRegs regs st).imp (fun _ _ _ => ?_) (fun _ _ _ => trivial)
    refine (quiet_setReg _ _ _).imp (fun _ _ _ => ?_) (fun _ _ _ => trivial)
    refine (quiet_setReg _ _ _).imp (fun _ _ _ => ?_) (fun _ _ _ => trivial)
    rw [forward_append, hpanic]
    rfl
  next =>
    simp only [after_pure]
    rw [forward_append, hpanic]
    rfl
  next =>
    simp only [after_pure]
    rw [forward_append, hpanic]
    rfl

/-! ## The invariant -/

/-- The forward edges into a block; the entry counts as one. -/
def inDegree (blocks : List BasicBlock) (b : Label) : Nat :=
  (if b = 0 then 1 else 0) + edgesInto (forwardEdges blocks) (List.range blocks.length) b

/-- Blocks in an order in which each is there once, after all blocks with a forward edge to it. -/
structure Ordered (blocks : List BasicBlock) (processed : List Label) : Prop where
  nodup : processed.Nodup
  inside : ∀ b ∈ processed, b < blocks.length
  order : ∀ before b after, processed = before ++ b :: after →
    ∀ u, b ∈ forwardEdges blocks u → u ∈ before

theorem Ordered.nil (blocks : List BasicBlock) : Ordered blocks [] where
  nodup := List.nodup_nil
  inside := fun b hb => by cases hb
  order := fun before b after h => by
    cases before <;> cases h

variable {blocks : List BasicBlock}

theorem Ordered.snoc {processed : List Label} (h : Ordered blocks processed) {c : Label}
    (hc : c < blocks.length) (hnot : c ∉ processed)
    (hpreds : ∀ u, c ∈ forwardEdges blocks u → u ∈ processed) :
    Ordered blocks (processed ++ [c]) where
  nodup := List.nodup_append.mpr ⟨h.nodup, List.nodup_singleton c, fun x hx y hy hxy =>
    hnot (List.mem_singleton.mp hy ▸ hxy ▸ hx)⟩
  inside := fun b hb => by
    rcases List.mem_append.mp hb with hb | hb
    · exact h.inside b hb
    · exact List.mem_singleton.mp hb ▸ hc
  order := fun before b after heq => by
    rcases List.eq_nil_or_concat after with rfl | ⟨after', x, rfl⟩
    · obtain ⟨rfl, hb⟩ := List.append_inj' heq rfl
      rw [← (List.cons.inj hb).1]
      exact hpreds
    · have heq' : processed ++ [c] = (before ++ b :: after') ++ [x] := by
        rw [heq, List.concat_eq_append, List.append_assoc]
        rfl
      obtain ⟨hprocessed, _⟩ := List.append_inj' heq' rfl
      exact h.order before b after' hprocessed

/-- How many flows have arrived at a block. -/
def VerifyState.arrived (st : VerifyState) (b : Label) : Nat := (st.blocksFlows.getD b []).length

/-- The second round, with the edges `pending` still to be followed. -/
structure Flow (blocks : List BasicBlock) (st : VerifyState) (pending : List Label) : Prop where
  degrees : ∀ b < blocks.length, st.fwdInDegrees[b]? = some (inDegree blocks b)
  flows_length : st.blocksFlows.length = blocks.length
  inside : ∀ b ∈ pending, b < blocks.length
  arrivals : ∀ b < blocks.length, st.arrived b + pending.count b =
    (if b = 0 then 1 else 0) + edgesInto (forwardEdges blocks) st.processed b
  complete : ∀ b < blocks.length, b ∈ st.processed ↔ st.arrived b = inDegree blocks b
  ordered : Ordered blocks st.processed

/-- The state after `viaFlow` has arrived at `c`. -/
def VerifyState.arrive (st : VerifyState) (c : Label) (viaFlow : RegFlow) :
    VerifyState :=
  { st with blocksFlows := st.blocksFlows.set c (st.blocksFlows.getD c [] ++ [viaFlow]) }

namespace Flow

variable {blocks : List BasicBlock} {st : VerifyState} {pending : List Label}

theorem same (h : Flow blocks st pending) {st' : VerifyState} (hsame : Same st st') :
    Flow blocks st' pending where
  degrees := by
    rw [hsame.degrees]
    exact h.degrees
  flows_length := by
    rw [hsame.flows]
    exact h.flows_length
  inside := h.inside
  arrivals := by
    unfold VerifyState.arrived
    rw [hsame.flows, hsame.processed]
    exact h.arrivals
  complete := by
    unfold VerifyState.arrived
    rw [hsame.flows, hsame.processed]
    exact h.complete
  ordered := by
    rw [hsame.processed]
    exact h.ordered

theorem sub (h : Flow blocks st pending) : st.processed ⊆ List.range blocks.length :=
  fun b hb => List.mem_range.mpr (h.ordered.inside b hb)

theorem length_le (h : Flow blocks st pending) : st.processed.length ≤ blocks.length := by
  have hle := (List.subperm_of_subset h.ordered.nodup h.sub).length_le
  rw [List.length_range] at hle
  exact hle

/-- No more flows arrive than there are edges. -/
theorem arrivals_le (h : Flow blocks st pending) {b : Label} (hb : b < blocks.length) :
    st.arrived b + pending.count b ≤ inDegree blocks b := by
  have hle := (edgesInto_sub (forwardEdges blocks) h.ordered.nodup h.sub b).1
  have heq := h.arrivals b hb
  unfold inDegree
  omega

variable {c : Label}

theorem arrived_arrive (h : Flow blocks st pending) (hc : c < blocks.length) (viaFlow : RegFlow)
    (b : Label) :
    (st.arrive c viaFlow).arrived b = st.arrived b + [c].count b := by
  unfold VerifyState.arrived VerifyState.arrive
  show ((st.blocksFlows.set c _).getD b []).length = _
  rw [List.getD_eq_getElem?_getD, List.getElem?_set, List.count_singleton]
  by_cases hbc : c = b
  · subst hbc
    rw [if_pos rfl, if_pos (by rw [h.flows_length]; exact hc)]
    simp
  · rw [if_neg hbc, List.getD_eq_getElem?_getD]
    simp [hbc]

theorem not_processed (h : Flow blocks st (c :: pending)) (hc : c < blocks.length) :
    c ∉ st.processed := by
  intro hmem
  have hle := h.arrivals_le hc
  have heq := (h.complete c hc).mp hmem
  rw [List.count_cons_self] at hle
  omega

/-- A flow arrives at a block that has to wait for more. -/
theorem wait (h : Flow blocks st (c :: pending)) {viaFlow : RegFlow}
    (hwait : inDegree blocks c ≠ (st.arrive c viaFlow).arrived c) :
    Flow blocks (st.arrive c viaFlow) pending := by
  have hc := h.inside c (.head _ ..)
  refine ⟨h.degrees, ?_, fun b hb => h.inside b (.tail _ hb), fun b hb => ?_,
    fun b hb => ?_, h.ordered⟩
  · show (st.blocksFlows.set c _).length = _
    rw [List.length_set, h.flows_length]
  · have heq := h.arrivals b hb
    rw [List.count_cons] at heq
    rw [h.arrived_arrive hc, List.count_singleton]
    show _ = _ + edgesInto _ st.processed b
    omega
  · by_cases hbc : b = c
    · subst hbc
      exact ⟨fun hmem => absurd hmem (h.not_processed hc), fun heq => absurd heq.symm hwait⟩
    · rw [h.arrived_arrive hc, List.count_singleton, if_neg (by simpa using Ne.symm hbc)]
      exact h.complete b hb

/-- The last flow arrives at a block: its own edges are to be followed now. -/
theorem process (h : Flow blocks st (c :: pending)) (hright : GraphRight blocks) {viaFlow : RegFlow}
    (hlast : inDegree blocks c = (st.arrive c viaFlow).arrived c) :
    Flow blocks { st.arrive c viaFlow with processed := st.processed ++ [c] }
      (forwardEdges blocks c ++ pending) := by
  have hc := h.inside c (.head _ ..)
  have hnot := h.not_processed hc
  have harrived := h.arrived_arrive hc viaFlow
  -- every edge into the block comes from a block that is done
  have hpreds : ∀ u, c ∈ forwardEdges blocks u → u ∈ st.processed := by
    intro u hu
    have hsub := edgesInto_sub (forwardEdges blocks) h.ordered.nodup h.sub c
    have heq := h.arrivals c hc
    rw [harrived c, List.count_singleton_self] at hlast
    rw [List.count_cons_self] at heq
    unfold inDegree at hlast
    refine hsub.2 (Nat.le_antisymm hsub.1 (by omega)) u ?_ hu
    exact List.mem_range.mpr (lt_of_mem_outEdges (mem_forwardEdges.mp hu))
  refine ⟨h.degrees, ?_, fun b hb => ?_, fun b hb => ?_, fun b hb => ?_,
    h.ordered.snoc hc hnot hpreds⟩
  · show (st.blocksFlows.set c _).length = _
    rw [List.length_set, h.flows_length]
  · rcases List.mem_append.mp hb with hb | hb
    · exact hright.inside c (b, false) (mem_forwardEdges.mp hb)
    · exact h.inside b (.tail _ hb)
  · show (st.arrive c viaFlow).arrived b + _ = _ + edgesInto _ (st.processed ++ [c]) b
    have heq := h.arrivals b hb
    rw [List.count_cons] at heq
    rw [harrived, List.count_append, List.count_singleton, edgesInto_append, edgesInto_cons,
      edgesInto_nil]
    omega
  · show b ∈ st.processed ++ [c] ↔ (st.arrive c viaFlow).arrived b = _
    rw [List.mem_append, List.mem_singleton]
    by_cases hbc : b = c
    · subst hbc
      exact ⟨fun _ => hlast.symm, fun _ => .inr rfl⟩
    · rw [harrived, List.count_singleton, if_neg (by simpa using Ne.symm hbc), Nat.add_zero,
        ← h.complete b hb]
      exact ⟨fun hmem => hmem.resolve_right hbc, .inl⟩

/-- When nothing is left to follow, every block is done. -/
theorem all_processed (h : Flow blocks st []) {done : List Label}
    (hfin : Finished (forwardEdges blocks) done) (hperm : done.Perm (List.range blocks.length)) :
    ∀ b < blocks.length, b ∈ st.processed := by
  have hall : ∀ b ∈ done, b ∈ st.processed := by
    refine hfin.induction fun b hb hpreds => ?_
    have hlt : b < blocks.length := List.mem_range.mp (hperm.mem_iff.mp hb)
    refine (h.complete b hlt).mpr ?_
    have heq := h.arrivals b hlt
    rw [List.count_nil, Nat.add_zero, edgesInto_eq h.ordered.nodup List.nodup_range h.sub
      fun u hu huv => hpreds u (hperm.mem_iff.mpr hu) huv] at heq
    exact heq
  exact fun b hb => hall b (hperm.mem_iff.mpr (List.mem_range.mpr hb))

end Flow

/-! ## The run -/

/-- How a part of the second round ends: it has followed the edges it was for, or there is an
error and what is done so far is in order. -/
def Follows {α : Type} (blocks : List BasicBlock) (m : VerifyM α) (st : VerifyState)
    (pending : List Label) : Prop :=
  After m st
    (fun _ st' => Flow blocks st' pending ∧ st.processed.length ≤ st'.processed.length)
    (fun e st' => e ≠ .timeout ∧ Ordered blocks st'.processed)

theorem follows_forM {α : Type} {blocks : List BasicBlock} {fuel : Nat} {f : α → VerifyM PUnit}
    {label : α → Label}
    (hf : ∀ a st pending, Flow blocks st (label a :: pending) →
      blocks.length < fuel + st.processed.length → Follows blocks (f a) st pending) :
    ∀ (l : List α) (st : VerifyState) (pending : List Label),
      Flow blocks st (l.map label ++ pending) → blocks.length < fuel + st.processed.length →
      Follows blocks (l.forM f) st pending
  | [], st, pending, h, _ => ⟨h, Nat.le_refl _⟩
  | a :: l, st, pending, h, hfuel => by
    show After (f a >>= fun _ => l.forM f) st _ _
    rw [after_bind]
    refine (hf a st (l.map label ++ pending) h hfuel).imp (fun _ st1 h1 => ?_) (fun _ _ he => he)
    refine (follows_forM hf l st1 pending h1.1 (by omega)).imp (fun _ st2 h2 => ?_)
      (fun _ _ he => he)
    exact ⟨h2.1, by omega⟩

theorem Quiet.ordered {α : Type} {blocks : List BasicBlock} {m : VerifyM α} (hm : Quiet m)
    {st : VerifyState} {pending : List Label} (h : Flow blocks st pending) :
    After m st (fun _ st' => Same st st')
      (fun e st' => e ≠ .timeout ∧ Ordered blocks st'.processed) := by
  refine (hm st).imp (fun _ _ hsame => hsame) (fun _ st' he => ⟨he.1, ?_⟩)
  rw [he.2.processed]
  exact h.ordered

theorem pushFlow_spec {st : VerifyState} {pending : List Label} (h : Flow blocks st pending) {c : Label}
    (hc : c < blocks.length) (viaFlow : RegFlow) {ok : List RegFlow → VerifyState → Prop}
    {err : VerifyError → VerifyState → Prop}
    (hok : ∀ flows, flows.length = (st.arrive c viaFlow).arrived c →
      ok flows (st.arrive c viaFlow)) :
    After (pushFlow c viaFlow) st ok err := by
  have hlt : c < st.blocksFlows.length := by
    rw [h.flows_length]
    exact hc
  have hget : st.blocksFlows[c]? = some (st.blocksFlows.getD c []) := by
    rw [List.getD_eq_getElem?_getD, List.getElem?_eq_getElem hlt]
    rfl
  unfold pushFlow
  simp only [after_bind, after_get]
  rw [after_index_some hget]
  refine hok _ ?_
  rw [h.arrived_arrive hc, List.length_append, List.count_singleton_self]
  rfl

theorem verifyRegFlow_spec {blocks : List BasicBlock} (hright : GraphRight blocks)
    (funcPos : Position) :
    ∀ (fuel : Nat) (c : Label) (viaFlow : RegFlow) (viaPos : Option Position) (st : VerifyState)
      (pending : List Label), Flow blocks st (c :: pending) →
      blocks.length < fuel + st.processed.length →
      Follows blocks (verifyRegFlow ⟨blocks, funcPos⟩ fuel c viaFlow viaPos) st pending
  | 0, c, viaFlow, viaPos, st, pending, h, hfuel => by
    have hle := h.length_le
    omega
  | fuel + 1, c, viaFlow, viaPos, st, pending, h, hfuel => by
    have hc := h.inside c (.head _ ..)
    obtain ⟨block, hblock⟩ : ∃ block, blocks[c]? = some block := ⟨_, List.getElem?_eq_getElem hc⟩
    obtain ⟨term, hterm⟩ : ∃ term, block.insns.getLast? = some term := by
      have hnil := hright.terminated block (List.mem_of_getElem? hblock)
      exact ⟨_, List.getLast?_eq_some_getLast hnil⟩
    have hnext : forwardEdges blocks c = forward (edges block term) := by
      unfold forwardEdges
      rw [outEdges_eq hblock hterm]
    unfold Follows verifyRegFlow
    simp only [after_bind]
    rw [after_index_some hblock]
    refine pushFlow_spec h hc viaFlow fun flows hflows => ?_
    have hdegree : (st.arrive c viaFlow).fwdInDegrees[c]? = some (inDegree blocks c) :=
      h.degrees c hc
    rw [after_get, after_index_some hdegree]
    split
    next hwait =>
      rw [hflows] at hwait
      exact ⟨h.wait hwait, Nat.le_refl _⟩
    next hlast =>
      have hprocess := h.process hright ((not_not.mp hlast).trans hflows)
      simp only [after_bind, after_modify]
      refine ((quiet_mergeFlows flows).ordered hprocess).imp (fun regs st1 hs1 => ?_)
        (fun _ _ he => he)
      refine ((quiet_verifyInsnsFlow _ flows regs block.insns false).ordered
        (hprocess.same hs1)).imp (fun _ st2 hs2 => ?_) (fun _ _ he => he)
      have hsame := hs1.trans hs2
      have hflow := hprocess.same hsame
      have hlength : st2.processed.length = st.processed.length + 1 := by
        rw [hsame.processed]
        exact List.length_append ..
      unfold blockTerminator
      rw [hterm, after_pure]
      -- the panic edge first, then those of the terminator
      obtain ⟨labels, hlabels⟩ := forward_edges block term
      rw [hnext, hlabels, List.append_assoc] at hflow
      have hself := verifyRegFlow_spec hright funcPos fuel
      have hpanic : Flow blocks st2
          (block.onPanic.toList.map (fun label => label) ++ (labels ++ pending)) := by
        rw [List.map_id']
        exact hflow
      refine (follows_forM (fun label st' pending' h' hfuel' =>
        hself label _ _ st' pending' h' hfuel') block.onPanic.toList st2 _ hpanic (by omega)).imp
        (fun _ st3 h3 => ?_) (fun _ _ he => he)
      refine (((quiet_branchFlows c regs term).ordered h3.1).and
        (branchFlows_labels block c regs term st3)).imp (fun flows' st4 h4 => ?_)
        (fun _ _ he => he.1)
      have hflow4 : Flow blocks st4 (flows'.map (fun e => e.1) ++ pending) := by
        rw [hlabels] at h4
        rw [← List.append_cancel_left h4.2]
        exact h3.1.same h4.1
      have hlength4 : st4.processed.length = st3.processed.length := by
        rw [h4.1.processed]
      refine (follows_forM (fun e st' pending' h' hfuel' =>
        hself e.1 e.2 _ st' pending' h' hfuel') flows' st4 pending hflow4 (by omega)).imp
        (fun _ st5 h5 => ?_) (fun _ _ he => he)
      exact ⟨h5.1, by omega⟩

theorem Counted.flow {st : VerifyState} (h : Counted blocks st) :
    Flow blocks st [0] where
  degrees := h.degrees
  flows_length := by
    rw [h.flows_eq, List.length_replicate]
  inside := fun b hb => by
    rw [List.mem_singleton.mp hb]
    exact List.length_pos_iff.mpr h.right.nonempty
  arrivals := fun b hb => by
    unfold VerifyState.arrived
    rw [h.flows_eq, h.processed_eq, List.getD_eq_getElem?_getD, List.getElem?_replicate, if_pos hb,
      edgesInto_nil, List.count_singleton]
    by_cases hzero : b = 0
    · subst hzero
      rfl
    · simp [hzero, Ne.symm hzero]
  complete := fun b hb => by
    have hpos : inDegree blocks b ≠ 0 := fun hzero => by
      refine h.reached b hb ?_
      rw [h.degrees b hb]
      exact congrArg some hzero
    unfold VerifyState.arrived
    rw [h.flows_eq, h.processed_eq, List.getD_eq_getElem?_getD, List.getElem?_replicate, if_pos hb]
    exact ⟨fun hmem => absurd hmem List.not_mem_nil, fun heq => absurd heq.symm hpos⟩
  ordered := by
    rw [h.processed_eq]
    exact Ordered.nil blocks

theorem Counted.same {st st' : VerifyState} (h : Counted blocks st) (hsame : Same st st') :
    Counted blocks st' where
  right := h.right
  order := h.order
  degrees := by
    rw [hsame.degrees]
    exact h.degrees
  reached := by
    rw [hsame.degrees]
    exact h.reached
  flows_eq := hsame.flows.trans h.flows_eq
  processed_eq := hsame.processed.trans h.processed_eq

theorem verifyFunctionCode_spec (code : FunctionCode) (funcPos : Position)
    (hright : GraphRight code.blocks) :
    After (verifyFunctionCode code funcPos) (VerifyState.new code.blocks)
      (fun _ st => Ordered code.blocks st.processed ∧
        ∀ b < code.blocks.length, b ∈ st.processed)
      (fun e st => e ≠ .timeout ∧ Ordered code.blocks st.processed) := by
  unfold verifyFunctionCode
  simp only [after_bind]
  refine (verifyBlocks_spec code.blocks funcPos).imp (fun _ st hcounted => ?_)
    (fun _ _ he => absurd hright he.2)
  refine ((quiet_verifyParamRegsFrom _ code.registers false).ordered hcounted.flow).imp
    (fun params st1 hs1 => ?_) (fun _ _ he => he)
  refine ((quiet_allocRegs params).ordered (hcounted.same hs1).flow).imp (fun regs st2 hs2 => ?_)
    (fun _ _ he => he)
  have hcounted2 := (hcounted.same hs1).same hs2
  refine (verifyRegFlow_spec hright funcPos (code.blocks.length + 1) 0 ⟨none, regs⟩ none st2 []
    hcounted2.flow (by omega)).imp (fun _ st3 h3 => ?_) (fun _ _ he => he)
  obtain ⟨done, hfin, hperm⟩ := hcounted.order
  exact ⟨h3.1.ordered, h3.1.all_processed hfin hperm⟩

/-- A run of the first round. -/
def graphRun (code : FunctionCode) (funcPos : Position) : Except VerifyError Unit × VerifyState :=
  (verifyBlocks code.blocks funcPos).run (VerifyState.new code.blocks)

/-- A run of both rounds. -/
def codeRun (code : FunctionCode) (funcPos : Position) : Except VerifyError Unit × VerifyState :=
  (verifyFunctionCode code funcPos).run (VerifyState.new code.blocks)

/-- The first round accepts exactly the right graphs. For these it counts the forward edges into
each block, and the second round comes to each block once, after all blocks with a forward edge to
it: to all blocks, if it finds no error, and otherwise to those before the error. -/
theorem verifyFunctionCode_graph (code : FunctionCode) (funcPos : Position) :
    (graphRun code funcPos).1 ≠ .error .timeout ∧
    ((graphRun code funcPos).1 = .ok () ↔ GraphRight code.blocks) ∧
    (GraphRight code.blocks →
      (∀ b < code.blocks.length,
        (graphRun code funcPos).2.fwdInDegrees[b]? = some (inDegree code.blocks b)) ∧
      (codeRun code funcPos).1 ≠ .error .timeout ∧
      Ordered code.blocks (codeRun code funcPos).2.processed ∧
      ((codeRun code funcPos).1 = .ok () →
        ∀ b < code.blocks.length, b ∈ (codeRun code funcPos).2.processed)) := by
  have hgraph := (verifyBlocks_spec code.blocks funcPos).cases
  refine ⟨?_, ⟨fun hok => ?_, fun hright => ?_⟩, fun hright => ⟨?_, ?_⟩⟩
  · obtain ⟨a, st, hrun, _⟩ | ⟨e, st, hrun, he⟩ := hgraph
    · unfold graphRun
      rw [hrun]
      exact fun h => by cases h
    · unfold graphRun
      rw [hrun]
      exact fun h => he.1 (Except.error.inj h)
  · obtain ⟨a, st, _, hcounted⟩ | ⟨e, st, hrun, _⟩ := hgraph
    · exact hcounted.right
    · unfold graphRun at hok
      rw [hrun] at hok
      cases hok
  · obtain ⟨a, st, hrun, _⟩ | ⟨e, st, _, he⟩ := hgraph
    · unfold graphRun
      rw [hrun]
    · exact absurd hright he.2
  · obtain ⟨a, st, hrun, hcounted⟩ | ⟨e, st, _, he⟩ := hgraph
    · unfold graphRun
      rw [hrun]
      exact hcounted.degrees
    · exact absurd hright he.2
  · unfold codeRun
    obtain ⟨a, st, hrun, hordered, hall⟩ | ⟨e, st, hrun, he, hordered⟩ :=
      (verifyFunctionCode_spec code funcPos hright).cases
    · rw [hrun]
      exact ⟨(fun h => by cases h), hordered, fun _ => hall⟩
    · rw [hrun]
      exact ⟨fun h => he (Except.error.inj h), hordered, fun h => by cases h⟩

/-- A loop whose test may panic: both the panic and the end of the loop lead to block 3. -/
def loopCode : FunctionCode where
  blocks := [
    { insns := [⟨.branch 1 false, 1, none, none, none⟩] },
    { insns := [⟨.condBranch 2 3, 2, none, none, none⟩], onPanic := some 3 },
    { insns := [⟨.branch 1 true, 3, none, none, none⟩] },
    { insns := [⟨.other, 4, none, none, none⟩] }]
  registers := []

theorem verifyFunctionCode_graph_loop :
    GraphRight loopCode.blocks ∧ (graphRun loopCode 0).2.fwdInDegrees = [1, 1, 1, 2] ∧
      (codeRun loopCode 0).2.processed = [0, 1, 2, 3] ∧
      Ordered loopCode.blocks (codeRun loopCode 0).2.processed := by
  have hright := (verifyFunctionCode_graph loopCode 0).2.1.mp rfl
  exact ⟨hright, rfl, rfl, ((verifyFunctionCode_graph loopCode 0).2.2 hright).2.2.1⟩

/-- Nothing is wrong with the edges of a single empty block, but it is not accepted. -/
theorem not_accepted_empty_block :
    (∀ b < 1, ReflTransGen (fun u v => ∃ backward, (v, backward) ∈ outEdges [{}] u) 0 b) ∧
      (∀ u t, (t, true) ∈ outEdges [{}] u → ∃ p, FirstPath (forwardEdges [{}]) 0 u p ∧ t ∈ p) ∧
      Acyclic (forwardEdges [{}]) ∧
      (graphRun ⟨[{}], []⟩ 0).1 = .error (.internal "invalid BIR: empty basic block" 0) := by
  have hnone : ∀ u, outEdges [{}] u = [] := by
    intro u
    cases u with
    | zero => rfl
    | succ u => rfl
  refine ⟨fun b hb => ?_, fun u t ht => ?_, fun v hcycle => ?_, rfl⟩
  · rw [Nat.lt_one_iff.mp hb]
  · rw [hnone u] at ht
    cases ht
  · obtain ⟨w, hvw, _⟩ := TransGen.head'_iff.mp hcycle
    have hmem := mem_forwardEdges.mp hvw
    rw [hnone v] at hmem
    cases hmem

end Nballerina.Bir
