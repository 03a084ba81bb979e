import Nballerina.Types.ExactTypes

/-!
# Function types

A function type is a `Bdd` of function atoms, each a type of argument lists and a type of results.
`functionFormulaIsEmpty` decides whether the functions of some atoms are functions of others by the
criterion of set-theoretic types: a negative `t0 → t1` contains them all when `t0` is covered by the
parameters of the positives and, however the positives are divided, an argument outside the
parameters of one part has a result in all of the other part, which `t1` includes. `functionPhi`
goes through the divisions by recursion, with a test that ends it early.

`functionFormulaIsEmpty_exact`: the recursion decides the criterion.
-/

namespace Nballerina.Types

open Nballerina.Lib

variable {V : Type}

/-! ## The criterion -/

/-- The arguments that an atom in `P` takes. -/
def FunctionParams (den : SemType → Set V) (env : Env) (pos : List Atom) (P : Set Atom) : Set V :=
  {v | ∃ atom ∈ pos, atom ∈ P ∧ ∃ s, env.functionAtomType atom = some s ∧ v ∈ den s.args}

/-- The values that every atom outside `P` may return. -/
def FunctionReturns (den : SemType → Set V) (env : Env) (pos : List Atom) (P : Set Atom) : Set V :=
  {v | v ∈ den (.bits VAL) ∧
    ∀ atom ∈ pos, atom ∉ P → ∀ s, env.functionAtomType atom = some s → v ∈ den s.ret}

/-- For every subset of the positives, the arguments are among its parameters or the results of
the others are outside `t1`. -/
def FunctionCovers (den : SemType → Set V) (env : Env) (pos : List Atom) (t0 t1 : Set V) : Prop :=
  ∀ P : Set Atom, t0 ⊆ FunctionParams den env pos P ∨ Disjoint (FunctionReturns den env pos P) t1

/-- Function atoms with types in `Q`. -/
def Env.FunctionsOver (Q : SemType → Prop) (env : Env) (atoms : List Atom) : Prop :=
  ∀ atom ∈ atoms, ∃ s, env.functionAtomType atom = some s ∧ Q s.args ∧ Q s.ret

theorem Env.FunctionsOver.tail {Q : SemType → Prop} {env : Env} {atom : Atom} {atoms : List Atom}
    (h : env.FunctionsOver Q (atom :: atoms)) : env.FunctionsOver Q atoms :=
  fun a ha => h a (.tail _ ha)

section Criterion

variable {den : SemType → Set V} {env : Env} {pos : List Atom} {atom : Atom}
  {s : FunctionAtomicType}

theorem functionParams_nil (P : Set Atom) : FunctionParams den env [] P = ∅ := by
  refine Set.eq_empty_of_forall_notMem fun v hv => ?_
  obtain ⟨atom, ha, _⟩ := hv
  exact List.not_mem_nil ha

variable {P : Set Atom}

theorem functionParams_cons_mem (hs : env.functionAtomType atom = some s) (h : atom ∈ P) :
    FunctionParams den env (atom :: pos) P = den s.args ∪ FunctionParams den env pos P := by
  ext v
  refine ⟨fun ⟨a, ha, hP, s', hs', hv⟩ => ?_, fun hv => ?_⟩
  · rcases List.mem_cons.mp ha with rfl | ha
    · rw [hs] at hs'
      cases hs'
      exact .inl hv
    · exact .inr ⟨a, ha, hP, s', hs', hv⟩
  · rcases hv with hv | ⟨a, ha, hP, s', hs', hv⟩
    · exact ⟨atom, .head _ .., h, s, hs, hv⟩
    · exact ⟨a, .tail _ ha, hP, s', hs', hv⟩

theorem functionParams_cons_notMem (h : atom ∉ P) :
    FunctionParams den env (atom :: pos) P = FunctionParams den env pos P := by
  ext v
  refine ⟨fun ⟨a, ha, hP, hv⟩ => ?_, fun ⟨a, ha, hP, hv⟩ => ⟨a, .tail _ ha, hP, hv⟩⟩
  rcases List.mem_cons.mp ha with rfl | ha
  · exact absurd hP h
  · exact ⟨a, ha, hP, hv⟩

theorem functionReturns_cons_mem (h : atom ∈ P) :
    FunctionReturns den env (atom :: pos) P = FunctionReturns den env pos P := by
  ext v
  refine and_congr_right fun _ => ⟨fun hv a ha => hv a (.tail _ ha), fun hv a ha hP => ?_⟩
  rcases List.mem_cons.mp ha with rfl | ha
  · exact absurd h hP
  · exact hv a ha hP

theorem functionReturns_cons_notMem (hs : env.functionAtomType atom = some s) (h : atom ∉ P) :
    FunctionReturns den env (atom :: pos) P = den s.ret ∩ FunctionReturns den env pos P := by
  ext v
  refine ⟨fun ⟨hval, hv⟩ => ⟨hv atom (.head _ ..) h s hs, hval, fun a ha => ?_⟩,
    fun ⟨hret, hval, hv⟩ => ⟨hval, fun a ha hP s' hs' => ?_⟩⟩
  · exact hv a (.tail _ ha)
  · rcases List.mem_cons.mp ha with rfl | ha
    · rw [hs] at hs'
      cases hs'
      exact hret
    · exact hv a ha hP s' hs'

/-- Whether the positives include one more atom or not, only what it says of the others counts. -/
theorem functionParams_congr {P' : Set Atom} (h : ∀ a ∈ pos, a ∈ P → a ∈ P') :
    FunctionParams den env pos P ⊆ FunctionParams den env pos P' :=
  fun _ ⟨a, ha, hP, hv⟩ => ⟨a, ha, h a ha hP, hv⟩

/-- One atom divides the criterion in two: the atom is in the subset or outside. -/
theorem functionCovers_cons (hs : env.functionAtomType atom = some s) {t0 t1 : Set V} :
    FunctionCovers den env (atom :: pos) t0 t1 ↔
      FunctionCovers den env pos t0 (t1 ∩ den s.ret) ∧ FunctionCovers den env pos (t0 \ den s.args) t1 := by
  refine ⟨fun h => ⟨fun P => ?_, fun P => ?_⟩, fun ⟨hout, hin⟩ P => ?_⟩
  · -- without the atom; where it occurs twice, what is outside only grows
    rcases h (P \ {atom}) with hsub | hdisj
    · rw [functionParams_cons_notMem (fun hmem => hmem.2 rfl)] at hsub
      exact .inl (hsub.trans (functionParams_congr fun a _ ha => ha.1))
    · rw [functionReturns_cons_notMem hs (fun hmem => hmem.2 rfl)] at hdisj
      refine .inr (Set.disjoint_left.mpr fun v hv hv1 => ?_)
      refine Set.disjoint_left.mp hdisj ⟨hv1.2, hv.1, fun a ha hP s' hs' => ?_⟩ hv1.1
      by_cases heq : a = atom
      · rw [heq, hs] at hs'
        cases hs'
        exact hv1.2
      · exact hv.2 a ha (fun hmem => hP ⟨hmem, heq⟩) s' hs'
  · -- with the atom
    rcases h (insert atom P) with hsub | hdisj
    · rw [functionParams_cons_mem hs (Set.mem_insert ..)] at hsub
      refine .inl fun v hv => ?_
      obtain ⟨a, ha, hP, s', hs', hv'⟩ := (hsub hv.1).resolve_left hv.2
      rcases hP with rfl | hP
      · rw [hs] at hs'
        cases hs'
        exact absurd hv' hv.2
      · exact ⟨a, ha, hP, s', hs', hv'⟩
    · rw [functionReturns_cons_mem (Set.mem_insert ..)] at hdisj
      refine .inr (Set.disjoint_left.mpr fun v hv => Set.disjoint_left.mp hdisj
        ⟨hv.1, fun a ha hP => hv.2 a ha fun hmem => hP (Set.mem_insert_of_mem _ hmem)⟩)
  · by_cases hP : atom ∈ P
    · rw [functionParams_cons_mem hs hP, functionReturns_cons_mem hP]
      refine (hin P).imp_left fun hsub => ?_
      exact Set.sdiff_subset_iff.mp hsub
    · rw [functionParams_cons_notMem hP, functionReturns_cons_notMem hs hP]
      refine (hout P).imp_right fun hdisj => Set.disjoint_left.mpr fun v hv hv1 => ?_
      exact Set.disjoint_left.mp hdisj hv.2 ⟨hv1, hv.1⟩

/-- What the early test of `functionPhi` asks follows: take the one atom as the subset. -/
theorem FunctionCovers.early (hs : env.functionAtomType atom = some s) {t0 t1 : Set V}
    (h : FunctionCovers den env (atom :: pos) t0 t1) :
    t0 ⊆ den s.args ∨ Disjoint (FunctionReturns den env pos ∅) t1 := by
  rcases h {atom} with hsub | hdisj
  · refine .inl fun v hv => ?_
    obtain ⟨a, _, ha, s', hs', hv'⟩ := hsub hv
    rw [Set.mem_singleton_iff.mp ha, hs] at hs'
    cases hs'
    exact hv'
  · rw [functionReturns_cons_mem (Set.mem_singleton _)] at hdisj
    exact .inr (Set.disjoint_left.mpr fun v hv => Set.disjoint_left.mp hdisj
      ⟨hv.1, fun a ha _ => hv.2 a ha (Set.notMem_empty a)⟩)

end Criterion

/-! ## The recursion -/

section Exact

variable [BddIdentity] {den : SemType → Set V} {Q : SemType → Prop}
  {R : CellAtomicType → TypeAtom → Prop} {env : Env}

theorem functionUnionParams_exact (hx : ExactTypes den Q) : ∀ pos : List Atom,
    env.FunctionsOver Q pos → ∃ t, functionUnionParams env pos = some t ∧ Q t ∧
      den t = FunctionParams den env pos Set.univ := by
  intro pos
  induction pos with
  | nil =>
    intro _
    refine ⟨NEVER, rfl, hx.never, ?_⟩
    rw [hx.den_never, functionParams_nil]
  | cons atom pos ih =>
    intro hpos
    obtain ⟨s, hs, hargs, _⟩ := hpos atom (.head _ ..)
    obtain ⟨t, ht, hQ, hden⟩ := ih hpos.tail
    obtain ⟨u, hu, huQ, huden⟩ := hx.union hargs hQ
    refine ⟨u, ?_, huQ, ?_⟩
    · unfold functionUnionParams
      rw [hs, ht]
      exact hu
    · rw [huden, hden, functionParams_cons_mem hs (Set.mem_univ _)]

theorem functionIntersectRet_exact (hx : ExactTypes den Q) (hval : Q (.bits VAL)) :
    ∀ pos : List Atom, env.FunctionsOver Q pos → ∃ t, functionIntersectRet env pos = some t ∧ Q t ∧
      den t = FunctionReturns den env pos ∅ := by
  intro pos
  induction pos with
  | nil =>
    intro _
    refine ⟨.bits VAL, rfl, hval, ?_⟩
    exact Set.ext fun v => ⟨fun hv => ⟨hv, fun a ha => absurd ha List.not_mem_nil⟩, fun hv => hv.1⟩
  | cons atom pos ih =>
    intro hpos
    obtain ⟨s, hs, _, hret⟩ := hpos atom (.head _ ..)
    obtain ⟨t, ht, hQ, hden⟩ := ih hpos.tail
    obtain ⟨u, hu, huQ, huden⟩ := hx.intersect hret hQ
    refine ⟨u, ?_, huQ, ?_⟩
    · unfold functionIntersectRet
      rw [hs, ht]
      exact hu
    · rw [huden, hden, functionReturns_cons_notMem hs (Set.notMem_empty _)]

/-- The recursion decides the criterion; `t1` is what the results must avoid. -/
theorem functionPhi_ensures (hx : ExactTypes den Q) (hval : Q (.bits VAL)) :
    ∀ (pos : List Atom) (t0 t1 : SemType), env.FunctionsOver Q pos → Q t0 → Q t1 →
      den t1 ⊆ den (.bits VAL) →
      (functionPhi env pos t0 t1).Ensures R Q (EmptyRight den) fun r =>
        r = true ↔ FunctionCovers den env pos (den t0) (den t1) := by
  intro pos
  induction pos with
  | nil =>
    intro t0 t1 _ h0 h1 hsub
    have hcovers : FunctionCovers den env [] (den t0) (den t1) ↔ den t0 = ∅ ∨ den t1 = ∅ := by
      have hreturns : ∀ P, FunctionReturns den env [] P = den (.bits VAL) := fun P =>
        Set.ext fun v => ⟨fun hv => hv.1, fun hv => ⟨hv, fun a ha => absurd ha List.not_mem_nil⟩⟩
      refine ⟨fun h => ?_, fun h P => ?_⟩
      · refine (h ∅).imp (fun hsub0 => ?_) fun hdisj => ?_
        · rw [functionParams_nil] at hsub0
          exact Set.subset_empty_iff.mp hsub0
        · rw [hreturns] at hdisj
          exact Set.subset_empty_iff.mp fun v hv => Set.disjoint_left.mp hdisj (hsub hv) hv
      · refine h.imp (fun h0 => ?_) fun h1 => ?_
        · rw [h0]
          exact Set.empty_subset _
        · rw [h1]
          exact Set.disjoint_empty _
    rw [hcovers]
    unfold functionPhi
    refine (isEmpty_ensures h0).bind fun r hr => ?_
    cases r with
    | true => exact iff_of_true rfl (.inl (hr.mp rfl))
    | false =>
      refine (isEmpty_ensures h1).imp fun r' hr' => hr'.trans ⟨.inr, fun h => h.resolve_left ?_⟩
      exact fun h0 => Bool.false_ne_true (hr.mpr h0)
  | cons atom pos ih =>
    intro t0 t1 hpos h0 h1 hsub
    obtain ⟨s, hs, hargs, hret⟩ := hpos atom (.head _ ..)
    obtain ⟨rets, hrets, hretsQ, hretsden⟩ := functionIntersectRet_exact hx hval pos hpos.tail
    obtain ⟨out, hout, houtQ, houtden⟩ := hx.diff hval h1
    obtain ⟨t1', ht1', h1', hden1⟩ := hx.intersect h1 hret
    obtain ⟨t0', ht0', h0', hden0⟩ := hx.diff h0 hargs
    have hsub' : den t1' ⊆ den (.bits VAL) := by
      rw [hden1]
      exact Set.inter_subset_left.trans hsub
    have hearly : den rets ⊆ den out ↔ Disjoint (FunctionReturns den env pos ∅) (den t1) := by
      rw [hretsden, houtden, Set.subset_sdiff]
      exact and_iff_right fun v hv => hv.1
    -- after the early test
    have hrest : ∀ either : Bool, (either = true ↔ den t0 ⊆ den s.args ∨
          Disjoint (FunctionReturns den env pos ∅) (den t1)) →
        (if either then do
          if ← functionPhi env pos t0 (← cast (intersect ops t1 s.ret)) then
            functionPhi env pos (← cast (diff ops t0 s.args)) t1
          else return false
        else return false : EmptyM Bool).Ensures R Q (EmptyRight den) fun r =>
          r = true ↔ FunctionCovers den env (atom :: pos) (den t0) (den t1) := by
      intro either heither
      cases either with
      | false =>
        refine iff_of_false Bool.false_ne_true fun h => Bool.false_ne_true (heither.mpr ?_)
        exact FunctionCovers.early hs h
      | true =>
        refine Prog.Ensures.ofOption ht1' ((ih t0 t1' hpos.tail h0 h1' hsub').bind fun r hr => ?_)
        rw [hden1] at hr
        cases r with
        | false =>
          exact iff_of_false Bool.false_ne_true fun h =>
            Bool.false_ne_true (hr.mpr ((functionCovers_cons hs).mp h).1)
        | true =>
          refine Prog.Ensures.ofOption ht0' ((ih t0' t1 hpos.tail h0' h1 hsub).imp fun r' hr' => ?_)
          rw [hr', hden0, functionCovers_cons hs]
          exact (and_iff_right (hr.mp rfl)).symm
    unfold functionPhi
    refine Prog.Ensures.ofOption hs ((isSubtype_ensures hx h0 hargs).bind fun r hr => ?_)
    cases r with
    | true => exact hrest true (iff_of_true rfl (.inl (hr.mp rfl)))
    | false =>
      refine Prog.Ensures.ofOption hrets (Prog.Ensures.ofOption hout ?_)
      refine (isSubtype_ensures hx hretsQ houtQ).bind fun r' hr' => hrest r' ?_
      rw [hr', hearly]
      exact ⟨.inr, fun h => h.resolve_left fun h' => Bool.false_ne_true (hr.mpr h')⟩

/-- A negative that contains all functions of the positives. -/
def FunctionSubsumes (den : SemType → Set V) (env : Env) (pos : List Atom) (t : FunctionAtomicType) :
    Prop :=
  den t.args ⊆ FunctionParams den env pos Set.univ ∧
    ∀ P : Set Atom, den t.args ⊆ FunctionParams den env pos P ∨
      FunctionReturns den env pos P ⊆ den t.ret

theorem functionPathIsEmpty_ensures (hx : ExactTypes den Q) (hval : Q (.bits VAL)) {pos : List Atom}
    (hpos : env.FunctionsOver Q pos) {params : SemType} (hparams : Q params)
    (hden : den params = FunctionParams den env pos Set.univ) : ∀ neg : List Atom,
    env.FunctionsOver Q neg →
    (functionPathIsEmpty env params pos neg).Ensures R Q (EmptyRight den) fun r =>
      r = true ↔ ∃ atom ∈ neg, ∃ t, env.functionAtomType atom = some t ∧
        FunctionSubsumes den env pos t := by
  intro neg
  induction neg with
  | nil =>
    intro _
    exact iff_of_false Bool.false_ne_true fun ⟨_, ha, _⟩ => List.not_mem_nil ha
  | cons atom neg ih =>
    intro hneg
    obtain ⟨t, ht, hargs, hret⟩ := hneg atom (.head _ ..)
    obtain ⟨out, hout, houtQ, houtden⟩ := hx.diff hval hret
    have hcovers : FunctionSubsumes den env pos t ↔ den t.args ⊆ den params ∧
        FunctionCovers den env pos (den t.args) (den out) := by
      unfold FunctionSubsumes FunctionCovers
      rw [hden]
      refine and_congr_right fun _ => forall_congr' fun P => or_congr_right ?_
      rw [houtden]
      refine ⟨fun h => Set.disjoint_left.mpr fun v hv hv' => hv'.2 (h hv), fun h v hv => ?_⟩
      by_contra hnot
      exact Set.disjoint_left.mp h hv ⟨hv.1, hnot⟩
    have hcons : (∃ a ∈ atom :: neg, ∃ t, env.functionAtomType a = some t ∧
        FunctionSubsumes den env pos t) ↔ FunctionSubsumes den env pos t ∨
          ∃ a ∈ neg, ∃ t, env.functionAtomType a = some t ∧ FunctionSubsumes den env pos t := by
      refine ⟨fun ⟨a, ha, t', ht', h⟩ => ?_, fun h => ?_⟩
      · rcases List.mem_cons.mp ha with rfl | ha
        · rw [ht] at ht'
          cases ht'
          exact .inl h
        · exact .inr ⟨a, ha, t', ht', h⟩
      · rcases h with h | ⟨a, ha, h⟩
        · exact ⟨atom, .head _ .., t, ht, h⟩
        · exact ⟨a, .tail _ ha, h⟩
    rw [hcons]
    have hrest : ∀ found : Bool, (found = true ↔ FunctionSubsumes den env pos t) →
        (if found then return true else functionPathIsEmpty env params pos neg : EmptyM Bool).Ensures
          R Q (EmptyRight den) fun r => r = true ↔ FunctionSubsumes den env pos t ∨
            ∃ a ∈ neg, ∃ t, env.functionAtomType a = some t ∧ FunctionSubsumes den env pos t := by
      intro found hfound
      cases found with
      | true => exact iff_of_true rfl (.inl (hfound.mp rfl))
      | false =>
        refine (ih hneg.tail).imp fun r hr => hr.trans ⟨.inr, fun h => h.resolve_left fun h' => ?_⟩
        exact Bool.false_ne_true (hfound.mpr h')
    unfold functionPathIsEmpty
    refine Prog.Ensures.ofOption ht ((isSubtype_ensures hx hargs hparams).bind fun r hr => ?_)
    cases r with
    | false =>
      exact hrest false (iff_of_false Bool.false_ne_true fun h =>
        Bool.false_ne_true (hr.mpr (hcovers.mp h).1))
    | true =>
      refine Prog.Ensures.ofOption hout ((functionPhi_ensures hx hval pos t.args out hpos hargs houtQ
        ?_).bind fun r' hr' => hrest r' ?_)
      · rw [houtden]
        exact Set.sdiff_subset
      · rw [hr', hcovers]
        exact (and_iff_right (hr.mp rfl)).symm

theorem functionFormulaIsEmpty_ensures (hx : ExactTypes den Q) (hval : Q (.bits VAL))
    {pos neg : List Atom} (hpos : env.FunctionsOver Q pos) (hneg : env.FunctionsOver Q neg) :
    (functionFormulaIsEmpty env pos neg).Ensures R Q (EmptyRight den) fun r =>
      r = true ↔ ∃ atom ∈ neg, ∃ t, env.functionAtomType atom = some t ∧
        FunctionSubsumes den env pos t := by
  obtain ⟨params, hparams, hQ, hden⟩ := functionUnionParams_exact hx pos hpos
  exact Prog.Ensures.ofOption hparams (functionPathIsEmpty_ensures hx hval hpos hQ hden neg hneg)

/-- A conjunction of function atoms is empty exactly when one of the negatives meets the criterion,
whatever state the environment and the memo tables are in. -/
theorem functionFormulaIsEmpty_exact {S : Type} (hx : ExactTypes den Q) (hval : Q (.bits VAL))
    {intern : CellAtomicType → S → TypeAtom × S} {memo : BddIsEmpty → S → Outcome S Bool}
    {call : SemType → S → Outcome S Bool}
    (hcall : ∀ t s, Q t → ∃ b s', call t s = .done b s' ∧ EmptyRight den t b)
    {pos neg : List Atom} (hpos : env.FunctionsOver Q pos) (hneg : env.FunctionsOver Q neg) (s : S) :
    ∃ r s', (functionFormulaIsEmpty env pos neg).exec intern memo call s = .done r s' ∧
      (r = true ↔ ∃ atom ∈ neg, ∃ t, env.functionAtomType atom = some t ∧
        FunctionSubsumes den env pos t) :=
  (functionFormulaIsEmpty_ensures (R := fun _ _ => True) hx hval hpos hneg).exec
    (fun _ _ => trivial) hcall s

end Exact

/-- Functions that return ints or strings and also strings or nil, against functions that return ints
and functions that return strings. -/
theorem functionFormulaIsEmpty_exact_strings :
    let _ := BddIdentity.shared
    let INT := basicType BT_INT
    let atom := fun i b => Atom.typeAtom i (.function (.bits LIST) (.bits b))
    let pos := [atom 12 (INT ||| STRING), atom 13 (STRING ||| basicType BT_NIL)]
    let neg := [atom 14 INT, atom 15 STRING]
    ∃ r s', (functionFormulaIsEmpty Env.init pos neg).exec (fun c s => (⟨12, c.toAtomicType⟩, s))
        (fun _ _ => .panic) bitsIsEmpty () = .done r s' ∧
      (r = true ↔ ∃ atom ∈ neg, ∃ t, Env.init.functionAtomType atom = some t ∧
        FunctionSubsumes bitsDen Env.init pos t) := by
  intro _ INT atom pos neg
  have hover : ∀ i b j b', Env.init.FunctionsOver IsBits [atom i b, atom j b'] := by
    intro i b j b' a ha
    rcases List.mem_cons.mp ha with rfl | ha
    · exact ⟨⟨.bits LIST, .bits b⟩, rfl, isBits LIST, isBits b⟩
    · rw [List.mem_singleton.mp ha]
      exact ⟨⟨.bits LIST, .bits b'⟩, rfl, isBits LIST, isBits b'⟩
  exact functionFormulaIsEmpty_exact exactTypes_bits (isBits VAL)
    (fun t s _ => emptyRight_bitsIsEmpty t s) (hover 12 _ 13 _) (hover 14 _ 15 _) ()

end Nballerina.Types
