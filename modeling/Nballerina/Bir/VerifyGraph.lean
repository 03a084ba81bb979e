import Nballerina.Lib.After
import Nballerina.Lib.DepthFirst
import Nballerina.Bir.Verify

/-!
# The first round of the verification

`verifyGraph` accepts the blocks of a function exactly if they are a graph as the rest of the
compiler takes them to be (`GraphRight`), and then the number it has counted for a block is the
number of forward edges into it.

The search keeps a stack and a list of finished blocks (`Search`). A block is entered on the first
path to it (`Lib.OnStack.firstPath`), so the blocks a backward branch may go to do not depend on
what the search has seen before.
-/

namespace Nballerina.Bir

open Lib Relation

/-- The edges that leave a block, with the marks on backward branches. -/
def outEdges (blocks : List BasicBlock) (u : Label) : List (Label × Bool) :=
  match blocks[u]? with
  | none => []
  | some block =>
    match block.insns.getLast? with
    | none => []
    | some term => edges block term

/-- The edges without a mark. -/
def forward (es : List (Label × Bool)) : List Label :=
  (es.filter fun e => !e.2).map fun e => e.1

def forwardEdges (blocks : List BasicBlock) (u : Label) : List Label :=
  forward (outEdges blocks u)

/-- What the blocks of a function have to be: the forward edges make a graph without cycles, and a
backward edge goes to a block on the depth-first path to the block it leaves. -/
structure GraphRight (blocks : List BasicBlock) : Prop where
  nonempty : blocks ≠ []
  terminated : ∀ block ∈ blocks, block.insns ≠ []
  inside : ∀ u, ∀ e ∈ outEdges blocks u, e.1 < blocks.length
  reachable : ∀ b < blocks.length,
    ReflTransGen (fun u v => ∃ backward, (v, backward) ∈ outEdges blocks u) 0 b
  backward : ∀ u t, (t, true) ∈ outEdges blocks u →
    ∃ p, FirstPath (forwardEdges blocks) 0 u p ∧ t ∈ p
  acyclic : Acyclic (forwardEdges blocks)

section Forward

variable {blocks : List BasicBlock} {u v : Label}

theorem mem_forward {es : List (Label × Bool)} : v ∈ forward es ↔ (v, false) ∈ es := by
  unfold forward
  rw [List.mem_map]
  refine ⟨fun h => ?_, fun h => ⟨(v, false), List.mem_filter.mpr ⟨h, rfl⟩, rfl⟩⟩
  obtain ⟨⟨w, backward⟩, hfilter, rfl⟩ := h
  obtain ⟨hmem, hback⟩ := List.mem_filter.mp hfilter
  cases backward with
  | false => exact hmem
  | true => cases hback

theorem mem_forwardEdges : v ∈ forwardEdges blocks u ↔ (v, false) ∈ outEdges blocks u :=
  mem_forward

theorem forward_append (es es' : List (Label × Bool)) :
    forward (es ++ es') = forward es ++ forward es' := by
  simp [forward]

@[simp] theorem forward_cons_false (t : Label) (es : List (Label × Bool)) :
    forward ((t, false) :: es) = t :: forward es := by
  simp [forward]

theorem outEdges_eq {block : BasicBlock} {term : Insn} (hblock : blocks[u]? = some block)
    (hterm : block.insns.getLast? = some term) : outEdges blocks u = edges block term := by
  unfold outEdges
  rw [hblock]
  show (match block.insns.getLast? with
    | none => []
    | some term => edges block term) = _
  rw [hterm]

end Forward

/-! ## The invariant of the search -/

section Index

variable {α : Type} {xs : List α} {i : Nat} {st : VerifyState} {ok : α → VerifyState → Prop}
  {err : VerifyError → VerifyState → Prop}

theorem after_index_some {x : α} (h : xs[i]? = some x) :
    After (index xs i) st ok err ↔ ok x st := by
  unfold index
  rw [h]
  exact after_pure

theorem after_index_none (h : xs[i]? = none) :
    After (index xs i) st ok err ↔ err .panic st := by
  unfold index
  rw [h]
  exact after_throw

theorem after_invalidErr {cx : VerifyCodeContext} {m : String} {pos : Option Position} :
    After (invalidErr cx m pos : VerifyM α) st ok err ↔
      err (.internal ("invalid BIR: " ++ m) (pos.getD cx.funcPos)) st := Iff.rfl

end Index

/-- The number counted for a block so far. -/
def VerifyState.degree (st : VerifyState) (b : Label) : Nat := st.fwdInDegrees.getD b 0

/-- The search is at the end of `stack` and has finished `done`. -/
structure Search (blocks : List BasicBlock) (st : VerifyState) (stack done : List Label) : Prop where
  degrees_length : st.fwdInDegrees.length = blocks.length
  preds_length : st.preds.length = blocks.length
  preds_eq : ∀ b < blocks.length, st.preds[b]? = some (decide (b ∈ stack))
  degree_pos : ∀ b < blocks.length, 0 < st.degree b ↔ b ∈ done
  finished : Finished (forwardEdges blocks) done
  apart : ∀ b ∈ done, b ∉ stack
  inside : ∀ b ∈ done, b < blocks.length
  flows_eq : st.blocksFlows = List.replicate blocks.length []
  processed_eq : st.processed = []

/-- What is known of a block that the search has finished. -/
structure Found (blocks : List BasicBlock) (u : Label) : Prop where
  terminated : ∀ block, blocks[u]? = some block → block.insns ≠ []
  inside : ∀ e ∈ outEdges blocks u, e.1 < blocks.length
  path : ∃ p, FirstPath (forwardEdges blocks) 0 u p ∧ ∀ t, (t, true) ∈ outEdges blocks u → t ∈ p

/-- What a visit of the targets `ts` has done. -/
structure Visited (blocks : List BasicBlock) (stack done ts : List Label) (st st' : VerifyState)
    (new : List Label) : Prop where
  search : Search blocks st' stack (done ++ new)
  degree : ∀ b < blocks.length,
    st'.degree b = st.degree b + ts.count b + edgesInto (forwardEdges blocks) new b
  found : ∀ u ∈ new, Found blocks u
  mem : ∀ t ∈ ts, t ∈ done ++ new

/-- An error that the blocks deserve. -/
def Deserved (blocks : List BasicBlock) (e : VerifyError) (_ : VerifyState) : Prop :=
  e ≠ .timeout ∧ ¬ GraphRight blocks

variable {blocks : List BasicBlock}

theorem not_graphRight_of_edge {u : Label} {e : Label × Bool} (hmem : e ∈ outEdges blocks u)
    (hout : ¬ e.1 < blocks.length) : ¬ GraphRight blocks :=
  fun h => hout (h.inside u e hmem)

namespace Search

variable {blocks : List BasicBlock} {st : VerifyState} {stack done : List Label}

theorem closed (h : Search blocks st stack done) :
    Closed (forwardEdges blocks) fun v => v ∈ done :=
  h.finished.closed

/-- The path of the search to a block on the stack. -/
theorem firstPath (h : Search blocks st stack done) {c : Label}
    (hon : OnStack (forwardEdges blocks) (fun v => v ∈ done) 0 c stack) :
    FirstPath (forwardEdges blocks) 0 c stack :=
  hon.firstPath h.closed fun hc => h.apart c hc hon.mem_last

theorem degree_eq_zero (h : Search blocks st stack done) {b : Label} (hb : b < blocks.length)
    (hnot : b ∉ done) : st.degree b = 0 :=
  Nat.eq_zero_of_not_pos fun hpos => hnot ((h.degree_pos b hb).mp hpos)

theorem degree_set (h : Search blocks st stack done) {t : Label} (ht : t < blocks.length)
    (d : Nat) (b : Label) :
    ({ st with fwdInDegrees := st.fwdInDegrees.set t d } : VerifyState).degree b =
      if b = t then d else st.degree b := by
  unfold VerifyState.degree
  show (st.fwdInDegrees.set t d).getD b 0 = _
  rw [List.getD_eq_getElem?_getD, List.getElem?_set, List.getD_eq_getElem?_getD]
  by_cases hbt : t = b
  · rw [if_pos hbt, if_pos (by rw [h.degrees_length]; exact ht), if_pos hbt.symm]
    rfl
  · rw [if_neg hbt, if_neg fun heq => hbt heq.symm]

theorem index_degree (h : Search blocks st stack done) {t : Label} (ht : t < blocks.length) :
    st.fwdInDegrees[t]? = some (st.degree t) := by
  have hlt : t < st.fwdInDegrees.length := by
    rw [h.degrees_length]
    exact ht
  unfold VerifyState.degree
  rw [List.getD_eq_getElem?_getD, List.getElem?_eq_getElem hlt]
  rfl

/-- No edge is followed. -/
theorem none (h : Search blocks st stack done) : Visited blocks stack done [] st st [] where
  search := by
    rw [List.append_nil]
    exact h
  degree := fun b _ => by simp
  found := fun u hu => by cases hu
  mem := fun u hu => by cases hu

/-- One more edge into a finished block. -/
theorem count (h : Search blocks st stack done) {t : Label} (ht : t < blocks.length)
    (hdone : t ∈ done) :
    Visited blocks stack done [t] st
      { st with fwdInDegrees := st.fwdInDegrees.set t (st.degree t + 1) } [] where
  search := by
    rw [List.append_nil]
    refine { h with degrees_length := ?_, degree_pos := fun b hb => ?_ }
    · show (st.fwdInDegrees.set t _).length = _
      rw [List.length_set, h.degrees_length]
    · rw [h.degree_set ht]
      split
      next hbt =>
        subst hbt
        exact ⟨fun _ => hdone, fun _ => Nat.succ_pos _⟩
      next => exact h.degree_pos b hb
  degree := fun b hb => by
    rw [h.degree_set ht, edgesInto_nil, Nat.add_zero, List.count_singleton]
    by_cases hbt : b = t
    · subst hbt
      simp
    · simp [hbt, Ne.symm hbt]
  found := fun u hu => by cases hu
  mem := fun u hu => by
    rw [List.mem_singleton.mp hu, List.append_nil]
    exact hdone

/-- A block is entered. -/
theorem enter (h : Search blocks st stack done) {c : Label} (hc : c < blocks.length)
    (hdone : c ∉ done) :
    Search blocks { st with preds := st.preds.set c true } (stack ++ [c]) done where
  degrees_length := h.degrees_length
  preds_length := by
    show (st.preds.set c true).length = _
    rw [List.length_set, h.preds_length]
  preds_eq := fun b hb => by
    show (st.preds.set c true)[b]? = _
    rw [List.getElem?_set]
    by_cases hbc : c = b
    · subst hbc
      rw [if_pos rfl, if_pos (by rw [h.preds_length]; exact hc)]
      simp
    · rw [if_neg hbc, h.preds_eq b hb]
      simp [Ne.symm hbc]
  degree_pos := h.degree_pos
  finished := h.finished
  apart := fun b hb hmem => by
    rcases List.mem_append.mp hmem with hmem | hmem
    · exact h.apart b hb hmem
    · exact hdone (List.mem_singleton.mp hmem ▸ hb)
  inside := h.inside
  flows_eq := h.flows_eq
  processed_eq := h.processed_eq

/-- A block is left, all its forward edges lead to finished blocks. -/
theorem leave {c : Label} (h : Search blocks st (stack ++ [c]) done) (hc : c < blocks.length)
    (hstack : c ∉ stack) (hnext : ∀ w ∈ forwardEdges blocks c, w ∈ done) :
    Search blocks { st with preds := st.preds.set c false, fwdInDegrees := st.fwdInDegrees.set c 1 }
      stack (done ++ [c]) where
  degrees_length := by
    show (st.fwdInDegrees.set c 1).length = _
    rw [List.length_set, h.degrees_length]
  preds_length := by
    show (st.preds.set c false).length = _
    rw [List.length_set, h.preds_length]
  preds_eq := fun b hb => by
    show (st.preds.set c false)[b]? = _
    rw [List.getElem?_set]
    by_cases hbc : c = b
    · subst hbc
      rw [if_pos rfl, if_pos (by rw [h.preds_length]; exact hc)]
      simp [hstack]
    · rw [if_neg hbc, h.preds_eq b hb]
      simp [Ne.symm hbc]
  degree_pos := fun b hb => by
    show 0 < ({ st with fwdInDegrees := st.fwdInDegrees.set c 1 } : VerifyState).degree b ↔ _
    rw [h.degree_set hc, List.mem_append, List.mem_singleton]
    split
    next hbc => exact ⟨fun _ => .inr hbc, fun _ => Nat.one_pos⟩
    next hbc =>
      rw [h.degree_pos b hb]
      exact ⟨.inl, fun hmem => hmem.resolve_right hbc⟩
  finished := Finished.snoc h.finished
    (fun hdone => h.apart c hdone (List.mem_append_right _ (List.mem_singleton_self c))) hnext
  apart := fun b hb hmem => by
    rcases List.mem_append.mp hb with hb | hb
    · exact h.apart b hb (List.mem_append_left _ hmem)
    · exact hstack (List.mem_singleton.mp hb ▸ hmem)
  inside := fun b hb => by
    rcases List.mem_append.mp hb with hb | hb
    · exact h.inside b hb
    · exact List.mem_singleton.mp hb ▸ hc
  flows_eq := h.flows_eq
  processed_eq := h.processed_eq

end Search

/-! ## A visit -/

/-- `visit` does what a visit of one block is for. -/
def VisitRight (blocks : List BasicBlock) (visit : Label → Option Position → VerifyM Unit)
    (stack : List Label) : Prop :=
  ∀ child pos st done, child < blocks.length → child ∉ stack → child ∉ done →
    Search blocks st stack done →
    OnStack (forwardEdges blocks) (fun v => v ∈ done) 0 child (stack ++ [child]) →
    After (visit child pos) st (fun _ st' => ∃ new, Visited blocks stack done [child] st st' new)
      (Deserved blocks)

section Visit

variable {blocks : List BasicBlock} {cx : VerifyCodeContext}
  {visit : Label → Option Position → VerifyM Unit} {stack done : List Label} {st : VerifyState}
  {c : Label}

theorem verifyChildGraph_spec (hvisit : VisitRight blocks visit stack)
    (hs : Search blocks st stack done)
    (hon : OnStack (forwardEdges blocks) (fun v => v ∈ done) 0 c stack) {t : Label}
    {backward : Bool} {before rest : List (Label × Bool)}
    (hout : outEdges blocks c = before ++ (t, backward) :: rest)
    (hbefore : ∀ x ∈ forward before, x ∈ done) (pos : Position) :
    After (verifyChildGraph cx visit t pos backward) st
      (fun _ st' => t < blocks.length ∧ (backward = true → t ∈ stack) ∧
        ∃ new, Visited blocks stack done (forward [(t, backward)]) st st' new)
      (Deserved blocks) := by
  have hmem : (t, backward) ∈ outEdges blocks c := by
    rw [hout]
    exact List.mem_append_right _ (.head _ ..)
  unfold verifyChildGraph
  simp only [after_bind, after_get]
  by_cases ht : t < blocks.length
  · rw [after_index_some (hs.preds_eq t ht)]
    cases backward with
    | true =>
      by_cases hstack : t ∈ stack
      · rw [decide_eq_true hstack, if_neg (by simp), if_pos rfl]
        exact ⟨ht, fun _ => hstack, [], hs.none⟩
      · -- the only path that may be meant is the stack
        rw [decide_eq_false hstack, if_pos (by simp), after_invalidErr]
        refine ⟨by simp, fun hright => hstack ?_⟩
        obtain ⟨p, hp, htp⟩ := hright.backward c t hmem
        rw [← hp.unique hright.acyclic (hs.firstPath hon)]
        exact htp
    | false =>
      have hedge : t ∈ forwardEdges blocks c := mem_forwardEdges.mpr hmem
      by_cases hstack : t ∈ stack
      · rw [decide_eq_true hstack, if_pos (by simp), after_invalidErr]
        refine ⟨by simp, fun hright => hright.acyclic c ?_⟩
        exact TransGen.head' hedge (hon.reach_last hstack)
      · rw [decide_eq_false hstack, if_neg (by simp), if_neg (by simp)]
        simp only [after_bind, after_get]
        rw [after_index_some (hs.index_degree ht)]
        split
        next hzero =>
          have hdone : t ∉ done := fun hdone => by
            have hpos := (hs.degree_pos t ht).mpr hdone
            omega
          have hnext : forwardEdges blocks c = forward before ++ t :: forward rest := by
            unfold forwardEdges
            rw [hout, forward_append, forward_cons_false]
          refine (hvisit t (some pos) st done ht hstack hdone hs
            (hon.push hnext hbefore)).imp (fun _ st' hnew => ?_) (fun _ _ he => he)
          exact ⟨ht, Bool.noConfusion, hnew⟩
        next hpos =>
          have hdone : t ∈ done := (hs.degree_pos t ht).mp (by omega)
          exact ⟨ht, Bool.noConfusion, [], hs.count ht hdone⟩
  · have hnone : st.preds[t]? = none := by
      rw [List.getElem?_eq_none_iff, hs.preds_length]
      exact Nat.le_of_not_lt ht
    rw [after_index_none hnone]
    exact ⟨by simp, not_graphRight_of_edge hmem ht⟩

/-- The edges of a block from some point on. -/
theorem verifyChildren_spec (hvisit : VisitRight blocks visit stack) (pos : Position) :
    ∀ (es before : List (Label × Bool)) {done : List Label} {st : VerifyState},
      Search blocks st stack done →
      OnStack (forwardEdges blocks) (fun v => v ∈ done) 0 c stack →
      outEdges blocks c = before ++ es → (∀ x ∈ forward before, x ∈ done) →
      After (es.forM fun e => verifyChildGraph cx visit e.1 pos e.2) st
        (fun _ st' => (∀ e ∈ es, e.1 < blocks.length ∧ (e.2 = true → e.1 ∈ stack)) ∧
          ∃ new, Visited blocks stack done (forward es) st st' new)
        (Deserved blocks)
  | [], _, done, st, hs, _, _, _ => by
    refine ⟨fun e he => ?_, [], hs.none⟩
    cases he
  | (t, backward) :: es, before, done, st, hs, hon, hout, hbefore => by
    show After (verifyChildGraph cx visit t pos backward >>= fun _ => _) st _ _
    rw [after_bind]
    refine (verifyChildGraph_spec hvisit hs hon hout hbefore pos).imp (fun _ st1 h1 => ?_)
      (fun _ _ he => he)
    obtain ⟨ht, hback, new1, hv1⟩ := h1
    have hbefore1 : ∀ x ∈ forward (before ++ [(t, backward)]), x ∈ done ++ new1 := by
      intro x hx
      rw [forward_append] at hx
      rcases List.mem_append.mp hx with hx | hx
      · exact List.mem_append_left _ (hbefore x hx)
      · exact hv1.mem x hx
    have hout1 : outEdges blocks c = (before ++ [(t, backward)]) ++ es := by
      rw [hout, List.append_assoc]
      rfl
    refine (verifyChildren_spec hvisit pos es (before ++ [(t, backward)]) hv1.search
      (hon.mono fun x hx => List.mem_append_left _ hx) hout1 hbefore1).imp
      (fun _ st2 h2 => ?_) (fun _ _ he => he)
    obtain ⟨hes, new2, hv2⟩ := h2
    have hcount : ∀ b, (forward ((t, backward) :: es)).count b =
        (forward [(t, backward)]).count b + (forward es).count b := by
      intro b
      rw [← List.count_append, ← forward_append]
      rfl
    refine ⟨?_, new1 ++ new2, ?_, ?_, ?_, ?_⟩
    · intro e he
      rcases List.mem_cons.mp he with rfl | he
      · exact ⟨ht, hback⟩
      · exact hes e he
    · rw [← List.append_assoc]
      exact hv2.search
    · intro b hb
      rw [hv2.degree b hb, hv1.degree b hb, hcount b, edgesInto_append]
      omega
    · intro u hu
      rcases List.mem_append.mp hu with hu | hu
      · exact hv1.found u hu
      · exact hv2.found u hu
    · intro x hx
      rw [← List.append_assoc]
      have hx : x ∈ forward ([(t, backward)] ++ es) := hx
      rw [forward_append] at hx
      rcases List.mem_append.mp hx with hx | hx
      · exact List.mem_append_left _ (hv1.mem x hx)
      · exact hv2.mem x hx

end Visit

/-- With more fuel than there are blocks left, a visit is right. -/
theorem verifyGraph_spec {blocks : List BasicBlock} (funcPos : Position) :
    ∀ (fuel : Nat) (stack : List Label), stack.Nodup → (∀ b ∈ stack, b < blocks.length) →
      blocks.length < fuel + stack.length →
      VisitRight blocks (verifyGraph ⟨blocks, funcPos⟩ fuel) stack
  | 0, stack, hnodup, hinside, hfuel => by
    have hle : stack.length ≤ blocks.length := by
      have hsub : stack ⊆ List.range blocks.length := fun b hb =>
        List.mem_range.mpr (hinside b hb)
      have h := (List.subperm_of_subset hnodup hsub).length_le
      rw [List.length_range] at h
      exact h
    omega
  | fuel + 1, stack, hnodup, hinside, hfuel => by
    intro c pos st done hc hstack hdone hs hon
    have hnodup' : (stack ++ [c]).Nodup :=
      List.nodup_append.mpr ⟨hnodup, List.nodup_singleton c, fun x hx y hy hxy =>
        hstack (List.mem_singleton.mp hy ▸ hxy ▸ hx)⟩
    have hinside' : ∀ b ∈ stack ++ [c], b < blocks.length := by
      intro b hb
      rcases List.mem_append.mp hb with hb | hb
      · exact hinside b hb
      · exact List.mem_singleton.mp hb ▸ hc
    have hvisit := verifyGraph_spec funcPos fuel (stack ++ [c]) hnodup' hinside' (by
      rw [List.length_append, List.length_singleton]
      omega)
    obtain ⟨block, hblock⟩ : ∃ block, blocks[c]? = some block :=
      ⟨_, List.getElem?_eq_getElem hc⟩
    unfold verifyGraph
    simp only [after_bind]
    rw [after_index_some hblock]
    unfold blockTerminator
    cases hterm : block.insns.getLast? with
    | none =>
      rw [after_invalidErr]
      refine ⟨by simp, fun hright => ?_⟩
      exact hright.terminated block (List.mem_of_getElem? hblock) (List.getLast?_eq_none_iff.mp hterm)
    | some term =>
      simp only [after_pure, after_modify]
      have hout := outEdges_eq hblock hterm
      have henter := hs.enter hc hdone
      refine (verifyChildren_spec hvisit term.pos (edges block term) [] henter hon hout
        (fun x hx => by cases hx)).imp (fun _ st' h' => ?_) (fun _ _ he => he)
      obtain ⟨hedges, new, hv⟩ := h'
      rw [← hout] at hedges hv
      have hnot : c ∉ done ++ new := fun hmem =>
        hv.search.apart c hmem (List.mem_append_right _ (List.mem_singleton_self c))
      have hleave := hv.search.leave hc hstack hv.mem
      refine ⟨new ++ [c], ?_, ?_, ?_, ?_⟩
      · rw [← List.append_assoc]
        exact hleave
      · intro b hb
        show ({ st' with fwdInDegrees := st'.fwdInDegrees.set c 1 } : VerifyState).degree b = _
        rw [hv.search.degree_set hc, edgesInto_append]
        split
        next hbc =>
          -- no edge into the block has been counted before
          subst hbc
          have hnew : edgesInto (forwardEdges blocks) new b = 0 :=
            edgesInto_eq_zero fun u hu huv =>
              hnot (hv.search.closed u (List.mem_append_right _ hu) b huv)
          have hself : (forwardEdges blocks b).count b = 0 :=
            List.count_eq_zero.mpr fun hmem => hnot (hv.mem b hmem)
          rw [hnew, edgesInto_cons, hself, hs.degree_eq_zero hb hdone]
          simp
        next hbc =>
          have hzero : ([c] : List Label).count b = 0 :=
            List.count_eq_zero.mpr fun hmem => hbc (List.mem_singleton.mp hmem)
          rw [hv.degree b hb, hzero, edgesInto_cons, edgesInto_nil]
          show st.degree b + (forwardEdges blocks c).count b + _ = _
          omega
      · intro u hu
        rcases List.mem_append.mp hu with hu | hu
        · exact hv.found u hu
        · rw [List.mem_singleton.mp hu]
          refine ⟨?_, fun e he => (hedges e he).1, stack ++ [c], ?_, fun t ht => (hedges _ ht).2 rfl⟩
          · intro block' hblock' hnil
            rw [hblock] at hblock'
            cases hblock'
            rw [hnil] at hterm
            cases hterm
          · exact henter.firstPath hon
      · intro x hx
        rw [List.mem_singleton.mp hx]
        exact List.mem_append_right _ (List.mem_append_right _ (List.mem_singleton_self c))

/-! ## The whole round -/

theorem lt_of_mem_outEdges {u : Label} {e : Label × Bool} (h : e ∈ outEdges blocks u) :
    u < blocks.length := by
  unfold outEdges at h
  split at h
  next => cases h
  next hblock => exact (List.getElem?_eq_some_iff.mp hblock).1

theorem verifyReachableFrom_spec {cx : VerifyCodeContext} {st : VerifyState} :
    ∀ (ds : List Nat) (i : Nat), After (verifyReachableFrom cx i ds) st
      (fun _ st' => st' = st ∧ ∀ d ∈ ds, d ≠ 0) (fun e _ => e ≠ .timeout ∧ 0 ∈ ds)
  | [], i => ⟨rfl, fun d hd => by cases hd⟩
  | d :: ds, i => by
    unfold verifyReachableFrom
    split
    next hzero =>
      have hmem : 0 ∈ d :: ds := by
        rw [hzero]
        exact .head _ ..
      rw [after_bind]
      cases hblock : cx.blocks[i]? with
      | none =>
        rw [after_index_none hblock]
        exact ⟨by simp, hmem⟩
      | some block =>
        rw [after_index_some hblock]
        split
        next => exact ⟨by simp, hmem⟩
        next => exact ⟨by simp, hmem⟩
    next hzero =>
      refine (verifyReachableFrom_spec ds (i + 1)).imp (fun _ st' h => ⟨h.1, fun d' hd' => ?_⟩)
        (fun e _ h => ⟨h.1, .tail _ h.2⟩)
      rcases List.mem_cons.mp hd' with rfl | hd'
      · exact hzero
      · exact h.2 d' hd'

theorem search_new (blocks : List BasicBlock) : Search blocks (VerifyState.new blocks) [] [] where
  degrees_length := List.length_replicate ..
  preds_length := List.length_replicate ..
  preds_eq := fun b hb => by
    show (List.replicate blocks.length false)[b]? = _
    rw [List.getElem?_replicate, if_pos hb]
    rfl
  degree_pos := fun b hb => by
    show 0 < (List.replicate blocks.length 0).getD b 0 ↔ _
    rw [List.getD_eq_getElem?_getD, List.getElem?_replicate, if_pos hb]
    simp
  finished := Finished.nil
  apart := fun b hb => by cases hb
  inside := fun b hb => by cases hb
  flows_eq := rfl
  processed_eq := rfl

section Whole

variable {blocks : List BasicBlock} {done : List Label}

/-- What the search has finished is closed under all edges. -/
theorem mem_of_reach (hfin : Finished (forwardEdges blocks) done)
    (hfound : ∀ u ∈ done, Found blocks u) (hzero : 0 ∈ done) {b : Label}
    (hreach : ReflTransGen (fun u v => ∃ backward, (v, backward) ∈ outEdges blocks u) 0 b) :
    b ∈ done := by
  induction hreach with
  | refl => exact hzero
  | @tail u v _ hedge ih =>
    obtain ⟨backward, hmem⟩ := hedge
    cases backward with
    | false => exact hfin.closed u ih v (mem_forwardEdges.mpr hmem)
    | true =>
      obtain ⟨p, hp, hback⟩ := (hfound u ih).path
      exact hfin.closed.reach hzero (hp.reach_of_mem (hback v hmem))

theorem graphRight_of_found (hfin : Finished (forwardEdges blocks) done)
    (hfound : ∀ u ∈ done, Found blocks u) (hnonempty : blocks ≠ [])
    (hall : ∀ b < blocks.length, b ∈ done) : GraphRight blocks where
  nonempty := hnonempty
  terminated := fun block hmem => by
    obtain ⟨b, hb, hget⟩ := List.mem_iff_getElem.mp hmem
    exact (hfound b (hall b hb)).terminated block (List.getElem?_eq_some_iff.mpr ⟨hb, hget⟩)
  inside := fun u e he => (hfound u (hall u (lt_of_mem_outEdges he))).inside e he
  reachable := fun b hb => by
    obtain ⟨p, hp, _⟩ := (hfound b (hall b hb)).path
    exact ReflTransGen.mono (fun u v huv => ⟨false, mem_forwardEdges.mp huv⟩) 0 b hp.reach
  backward := fun u t ht => by
    obtain ⟨p, hp, hback⟩ := (hfound u (hall u (lt_of_mem_outEdges ht))).path
    exact ⟨p, hp, hback t ht⟩
  acyclic := fun v hcycle => by
    obtain ⟨w, hvw, _⟩ := TransGen.head'_iff.mp hcycle
    exact hfin.not_cycle v (hall v (lt_of_mem_outEdges (mem_forwardEdges.mp hvw))) hcycle

end Whole

/-- The state after the first round. -/
structure Counted (blocks : List BasicBlock) (st : VerifyState) : Prop where
  right : GraphRight blocks
  order : ∃ done, Finished (forwardEdges blocks) done ∧ done.Perm (List.range blocks.length)
  degrees : ∀ b < blocks.length, st.fwdInDegrees[b]? =
    some ((if b = 0 then 1 else 0) + edgesInto (forwardEdges blocks) (List.range blocks.length) b)
  reached : ∀ b < blocks.length, st.fwdInDegrees[b]? ≠ some 0
  flows_eq : st.blocksFlows = List.replicate blocks.length []
  processed_eq : st.processed = []

theorem counted_of_found {done : List Label} {st : VerifyState} (hnonempty : blocks ≠ [])
    (hv : Visited blocks [] [] [0] (VerifyState.new blocks) st done)
    (hall : ∀ b < blocks.length, b ∈ done) : Counted blocks st := by
  have hs : Search blocks st [] done := hv.search
  have hperm : done.Perm (List.range blocks.length) := by
    refine (List.perm_ext_iff_of_nodup hs.finished.nodup List.nodup_range).mpr fun b => ?_
    rw [List.mem_range]
    exact ⟨hs.inside b, hall b⟩
  refine ⟨graphRight_of_found hs.finished hv.found hnonempty hall, ⟨done, hs.finished, hperm⟩,
    fun b hb => ?_, fun b hb => ?_, hs.flows_eq, hs.processed_eq⟩
  case refine_2 =>
    rw [hs.index_degree hb]
    exact fun heq => Nat.ne_of_gt ((hs.degree_pos b hb).mpr (hall b hb)) (Option.some.inj heq)
  have hnew : (VerifyState.new blocks).degree b = 0 :=
    (search_new blocks).degree_eq_zero hb (fun hmem => by cases hmem)
  rw [hs.index_degree hb, hv.degree b hb, hnew, edgesInto_perm hperm, List.count_singleton]
  by_cases hzero : b = 0
  · subst hzero
    simp
  · simp [hzero, Ne.symm hzero]

theorem verifyBlocks_spec (blocks : List BasicBlock) (funcPos : Position) :
    After (verifyBlocks blocks funcPos) (VerifyState.new blocks) (fun _ st => Counted blocks st)
      (Deserved blocks) := by
  unfold verifyBlocks
  split
  next hlength =>
    rw [after_invalidErr]
    exact ⟨by simp, fun hright => hright.nonempty (List.length_eq_zero_iff.mp hlength)⟩
  next hlength =>
    have hnonempty : blocks ≠ [] := fun hnil => hlength (List.length_eq_zero_iff.mpr hnil)
    simp only [after_bind]
    refine (verifyGraph_spec funcPos (blocks.length + 1) [] List.nodup_nil (fun b hb => by cases hb)
      (by simp) 0 none _ [] (Nat.pos_of_ne_zero hlength) (by simp) (by simp) (search_new blocks)
      (OnStack.here 0)).imp (fun _ st h => ?_) (fun _ _ he => he)
    obtain ⟨done, hv⟩ := h
    have hs : Search blocks st [] done := hv.search
    have hzero : 0 ∈ done := hv.mem 0 (List.mem_singleton_self 0)
    unfold verifyReachable
    simp only [after_bind, after_get]
    refine (verifyReachableFrom_spec st.fwdInDegrees 0).imp (fun _ st' h => ?_) (fun e _ h => ?_)
    · rw [h.1]
      refine counted_of_found hnonempty hv fun b hb => (hs.degree_pos b hb).mp ?_
      exact Nat.pos_of_ne_zero (h.2 _ (List.mem_of_getElem? (hs.index_degree hb)))
    · refine ⟨h.1, fun hright => ?_⟩
      obtain ⟨b, hb, hget⟩ := List.mem_iff_getElem.mp h.2
      rw [hs.degrees_length] at hb
      have hmem := mem_of_reach hs.finished hv.found hzero (hright.reachable b hb)
      have hpos := (hs.degree_pos b hb).mpr hmem
      have heq := hs.index_degree hb
      rw [List.getElem?_eq_some_iff] at heq
      obtain ⟨_, heq⟩ := heq
      omega

end Nballerina.Bir
