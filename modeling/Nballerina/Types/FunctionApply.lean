import Nballerina.Types.BddOps
import Nballerina.Types.Define
import Nballerina.Types.FunctionExact

/-!
# What a call may return

`functionReturnType` gives the type of a call through a function value: on each path of the `Bdd`,
whichever parameters of the positive atoms the argument belongs to, the result belongs to the
return types of these atoms; what is accumulated starts from `ANY`.

`functionReturnType_sound_iff`: the type contains all that the functions may return exactly when
they return no error on these arguments, for `ANY` leaves errors out.

Mirroring notes:
- A function value relates an argument list to what a call with it may return.
- The two matches on whether `func` is a bit set are kept apart, as in the source.
-/

namespace Nballerina.Types

open Nballerina.Lib

variable {V : Type}

section Source

variable [BddIdentity] (env : Env)

def functionParamListTypeInner : Bdd → SemType → Option SemType
  | .leaf b, accumTy => some (if b then accumTy else .bits ANY)
  | .node atom left middle right, accumTy => do
    let s ← env.functionAtomType atom
    let l ← functionParamListTypeInner left (← union ops accumTy s.args)
    let m ← functionParamListTypeInner middle accumTy
    let r ← functionParamListTypeInner right accumTy
    intersect ops l (← intersect ops m r)

/-- `functionParamListType`; the inner `none` is the source's `()`. -/
def functionParamListType (func : SemType) : EmptyM (Option SemType) := do
  if ← isSubtype func (.bits FUNCTION) then
    match func with
    | .bits _ => return some NEVER
    | .complex c =>
      let data ← cast (getComplexSubtypeData c BT_FUNCTION)
      let bdd ← cast data.toBdd
      return some (← cast (functionParamListTypeInner env bdd NEVER))
  else return none

def functionReturnTypeInner : Bdd → SemType → SemType → EmptyM SemType
  | .leaf b, accumArgList, accumReturn => do
    if ← isEmpty accumArgList then return NEVER
    else if ← isEmpty accumReturn then return NEVER
    else return if b then accumReturn else NEVER
  | .node atom left middle right, accumArgList, accumReturn => do
    if ← isEmpty accumArgList then return NEVER
    else if ← isEmpty accumReturn then return NEVER
    else
      let s ← cast (env.functionAtomType atom)
      let inside ← functionReturnTypeInner left accumArgList (← cast (intersect ops accumReturn s.ret))
      let outside ← functionReturnTypeInner left (← cast (diff ops accumArgList s.args)) accumReturn
      let m ← functionReturnTypeInner middle accumArgList accumReturn
      let r ← functionReturnTypeInner right accumArgList accumReturn
      cast (do union ops inside (← union ops outside (← union ops m r)))

/-- The end of `functionReturnType`, for an argument list that is accepted. -/
def functionReturnTypeOf (func argList : SemType) : EmptyM SemType :=
  match func with
  | .bits _ => return .bits ANY
  | .complex c => do
    let data ← cast (getComplexSubtypeData c BT_FUNCTION)
    let bdd ← cast data.toBdd
    functionReturnTypeInner env bdd argList (.bits ANY)

def functionReturnType (func argList : SemType) : EmptyM (Option SemType) := do
  match ← functionParamListType env func with
  | none => return none
  | some domain =>
    if ← isSubtype argList domain then return some (← functionReturnTypeOf env func argList)
    else return none

end Source

/-! ## Functions -/

/-- The function belongs to the atom: on its parameters it returns what it says. -/
def FunctionContains (den : SemType → Set V) (env : Env) (f : V → V → Prop) (atom : Atom) : Prop :=
  ∃ s, env.functionAtomType atom = some s ∧ ∀ a ∈ den s.args, ∀ v, f a v → v ∈ den s.ret

/-- The function part of a type. -/
def functionBdd (func : SemType) : Option Bdd := (subtypeData func BT_FUNCTION).bind (·.toBdd)

/-- `v` can be returned by a function of the type `func` on an argument of the type `argList`. -/
def CanReturn (den : SemType → Set V) (env : Env) (func argList : SemType) (v : V) : Prop :=
  ∃ b f a, functionBdd func = some b ∧ b.holds (FunctionContains den env f) ∧ a ∈ den argList ∧ f a v

/-- The function part of the type has types in `Q`. -/
def FunctionOver (Q : SemType → Prop) (env : Env) (func : SemType) : Prop :=
  ∃ b, functionBdd func = some b ∧
    b.Over fun atom => ∃ s, env.functionAtomType atom = some s ∧ Q s.args ∧ Q s.ret

section Sound

variable [BddIdentity] {den : SemType → Set V} {Q : SemType → Prop}
  {R : CellAtomicType → TypeAtom → Prop} {env : Env}

/-- What is accumulated, restricted to what the functions of the `Bdd` can return. -/
structure ReturnsOf (den : SemType → Set V) (Q : SemType → Prop) (env : Env) (b : Bdd)
    (accumArgList accumReturn ret : SemType) : Prop where
  type : Q ret
  le : den ret ⊆ den accumReturn
  mem : ∀ f a v, b.holds (FunctionContains den env f) → a ∈ den accumArgList → f a v →
    v ∈ den accumReturn → v ∈ den ret

variable {accumArgList accumReturn : SemType}

omit [BddIdentity] in
/-- Nothing is left where there is no argument or no result. -/
theorem returnsOf_never [BddIdentity] (hx : ExactTypes den Q) (b : Bdd)
    (h : den accumArgList = ∅ ∨ den accumReturn = ∅) :
    ReturnsOf den Q env b accumArgList accumReturn NEVER := by
  refine ⟨hx.never, ?_, fun f a v _ ha _ hv => ?_⟩
  · rw [hx.den_never]
    exact Set.empty_subset _
  · rcases h with h | h
    · rw [h] at ha
      exact ha.elim
    · rw [h] at hv
      exact hv.elim

/-- The four parts of a node: an argument that the atom takes has a result that it returns. -/
theorem returnsOf_node (hx : ExactTypes den Q) {atom : Atom} {s : FunctionAtomicType}
    (hs : env.functionAtomType atom = some s) {left middle right : Bdd}
    {args rets inside outside m r : SemType} (hargs : den args = den accumArgList \ den s.args)
    (hrets : den rets = den accumReturn ∩ den s.ret)
    (hinside : ReturnsOf den Q env left accumArgList rets inside)
    (houtside : ReturnsOf den Q env left args accumReturn outside)
    (hm : ReturnsOf den Q env middle accumArgList accumReturn m)
    (hr : ReturnsOf den Q env right accumArgList accumReturn r) :
    ∃ t, (do union ops inside (← union ops outside (← union ops m r))) = some t ∧
      ReturnsOf den Q env (.node atom left middle right) accumArgList accumReturn t := by
  obtain ⟨u1, hu1, hQ1, hden1⟩ := hx.union hm.type hr.type
  obtain ⟨u2, hu2, hQ2, hden2⟩ := hx.union houtside.type hQ1
  obtain ⟨u3, hu3, hQ3, hden3⟩ := hx.union hinside.type hQ2
  have hinside_le : den inside ⊆ den accumReturn := by
    refine hinside.le.trans ?_
    rw [hrets]
    exact Set.inter_subset_left
  refine ⟨u3, ?_, hQ3, ?_, fun f a v hf ha hfv hv => ?_⟩
  · rw [hu1]
    show (do union ops inside (← union ops outside u1)) = _
    rw [hu2]
    exact hu3
  · rw [hden3, hden2, hden1]
    exact Set.union_subset hinside_le (Set.union_subset houtside.le (Set.union_subset hm.le hr.le))
  · rw [hden3, hden2, hden1]
    rcases (Bdd.holds_node atom left middle right).mp hf with ⟨hatom, hleft⟩ | hmiddle | ⟨_, hright⟩
    · obtain ⟨s', hs', hcontains⟩ := hatom
      rw [hs] at hs'
      cases hs'
      by_cases hmem : a ∈ den s.args
      · refine Or.inl (hinside.mem f a v hleft ha hfv ?_)
        rw [hrets]
        exact ⟨hv, hcontains a hmem v hfv⟩
      · refine Or.inr (Or.inl (houtside.mem f a v hleft ?_ hfv hv))
        rw [hargs]
        exact ⟨ha, hmem⟩
    · exact Or.inr (Or.inr (Or.inl (hm.mem f a v hmiddle ha hfv hv)))
    · exact Or.inr (Or.inr (Or.inr (hr.mem f a v hright ha hfv hv)))

/-- The two tests that come first. -/
theorem unlessEmpty_ensures (hx : ExactTypes den Q) (b : Bdd) (hargs : Q accumArgList)
    (hret : Q accumReturn) {rest : EmptyM SemType}
    (hrest : rest.Ensures R Q (EmptyRight den) (ReturnsOf den Q env b accumArgList accumReturn)) :
    (do
      if ← isEmpty accumArgList then return NEVER
      else if ← isEmpty accumReturn then return NEVER
      else rest : EmptyM SemType).Ensures R Q (EmptyRight den)
        (ReturnsOf den Q env b accumArgList accumReturn) := by
  refine (isEmpty_ensures hargs).bind fun r hr => ?_
  cases r with
  | true => exact returnsOf_never hx b (Or.inl (hr.mp rfl))
  | false =>
    refine (isEmpty_ensures hret).bind fun r' hr' => ?_
    cases r' with
    | true => exact returnsOf_never hx b (Or.inr (hr'.mp rfl))
    | false => exact hrest

theorem functionReturnTypeInner_ensures (hx : ExactTypes den Q) : ∀ (b : Bdd)
    (accumArgList accumReturn : SemType),
    (b.Over fun atom => ∃ s, env.functionAtomType atom = some s ∧ Q s.args ∧ Q s.ret) →
    Q accumArgList → Q accumReturn →
    (functionReturnTypeInner env b accumArgList accumReturn).Ensures R Q (EmptyRight den)
      (ReturnsOf den Q env b accumArgList accumReturn)
  | .leaf b, accumArgList, accumReturn, _, hargs, hret => by
    unfold functionReturnTypeInner
    refine unlessEmpty_ensures hx _ hargs hret ?_
    cases b with
    | true => exact ⟨hret, subset_rfl, fun f a v _ _ _ hv => hv⟩
    | false =>
      refine ⟨hx.never, ?_, fun f a v hf => ((Bdd.holds_false _).mp hf).elim⟩
      show den NEVER ⊆ _
      rw [hx.den_never]
      exact Set.empty_subset _
  | .node atom left middle right, accumArgList, accumReturn, hover, hargs, hret => by
    obtain ⟨⟨s, hs, hsargs, hsret⟩, hl, hm, hr⟩ := hover
    obtain ⟨rets, hrets, hretsQ, hretsden⟩ := hx.intersect hret hsret
    obtain ⟨args, hargs', hargsQ, hargsden⟩ := hx.diff hargs hsargs
    unfold functionReturnTypeInner
    refine unlessEmpty_ensures hx _ hargs hret ?_
    refine Prog.Ensures.ofOption hs (Prog.Ensures.ofOption hrets ?_)
    refine (functionReturnTypeInner_ensures hx left accumArgList rets hl hargs hretsQ).bind
      fun inside hinside => ?_
    refine Prog.Ensures.ofOption hargs' ?_
    refine (functionReturnTypeInner_ensures hx left args accumReturn hl hargsQ hret).bind
      fun outside houtside => ?_
    refine (functionReturnTypeInner_ensures hx middle accumArgList accumReturn hm hargs hret).bind
      fun m hm' => ?_
    refine (functionReturnTypeInner_ensures hx right accumArgList accumReturn hr hargs hret).bind
      fun r hr' => ?_
    obtain ⟨t, ht, hreturns⟩ := returnsOf_node hx hs hargsden hretsden hinside houtside hm' hr'
    show (Prog.ofOption _).Ensures _ _ _ _
    rw [ht]
    exact hreturns

theorem functionReturnTypeOf_ensures (hx : ExactTypes den Q) (hany : Q (.bits ANY))
    {func argList : SemType} (hfunc : FunctionOver Q env func) (hargs : Q argList) :
    (functionReturnTypeOf env func argList).Ensures R Q (EmptyRight den) fun ret =>
      den ret ⊆ den (.bits ANY) ∧
        ∀ v, CanReturn den env func argList v → v ∈ den (.bits ANY) → v ∈ den ret := by
  obtain ⟨b, hb, hover⟩ := hfunc
  cases func with
  | bits bits => exact ⟨subset_rfl, fun v _ hv => hv⟩
  | complex c =>
    obtain ⟨data, hdata, hbdd⟩ := Option.bind_eq_some_iff.mp hb
    refine Prog.Ensures.ofOption hdata (Prog.Ensures.ofOption hbdd ?_)
    refine (functionReturnTypeInner_ensures hx b argList (.bits ANY) hover hargs hany).imp
      fun ret hret => ⟨hret.le, fun v hcan hv => ?_⟩
    obtain ⟨b', f, a, hb', hf, ha, hfv⟩ := hcan
    rw [hb] at hb'
    cases hb'
    exact hret.mem f a v hf ha hfv hv

/-- For an argument list that is accepted `functionReturnType` returns a type, whatever state the
environment and the memo tables are in. The type contains every value that the functions can return
on these arguments exactly when none of the values is an error. -/
theorem functionReturnType_sound_iff {S : Type} (hx : ExactTypes den Q) (hany : Q (.bits ANY))
    {intern : CellAtomicType → S → TypeAtom × S} {memo : BddIsEmpty → S → Outcome S Bool}
    {call : SemType → S → Outcome S Bool}
    (hcall : ∀ t s, Q t → ∃ b s', call t s = .done b s' ∧ EmptyRight den t b)
    {func argList domain : SemType} (hfunc : FunctionOver Q env func) (hargs : Q argList)
    {s s1 s2 : S}
    (hdomain : (functionParamListType env func).exec intern memo call s = .done (some domain) s1)
    (haccepted : (isSubtype argList domain).exec intern memo call s1 = .done true s2) :
    ∃ ret s', (functionReturnType env func argList).exec intern memo call s = .done (some ret) s' ∧
      ((∀ v, CanReturn den env func argList v → v ∈ den ret) ↔
        ∀ v, CanReturn den env func argList v → v ∈ den (.bits ANY)) := by
  obtain ⟨ret, s', hrun, hle, hmem⟩ : ∃ ret s',
      (functionReturnTypeOf env func argList).exec intern memo call s2 = .done ret s' ∧
        den ret ⊆ den (.bits ANY) ∧
        ∀ v, CanReturn den env func argList v → v ∈ den (.bits ANY) → v ∈ den ret :=
    (functionReturnTypeOf_ensures (R := fun _ _ => True) hx hany hfunc hargs).exec
      (fun _ _ => trivial) hcall s2
  refine ⟨ret, s', ?_, fun h v hcan => hle (h v hcan), fun h v hcan => hmem v hcan (h v hcan)⟩
  unfold functionReturnType
  rw [Prog.bind_eq, Prog.exec_bind, hdomain]
  show ((isSubtype argList domain).bind _).exec intern memo call s1 = _
  rw [Prog.exec_bind, haccepted]
  show ((functionReturnTypeOf env func argList).bind _).exec intern memo call s2 = _
  rw [Prog.exec_bind, hrun]
  rfl

end Sound

/-! ## Two functions -/

/-- The functions that return values of the bit set on any arguments. -/
def functionReturning (bits : BasicTypeBitSet) : SemType :=
  atomSemType BT_FUNCTION (.typeAtom 12 (.function (.bits LIST) (.bits bits)))

theorem functionBdd_functionReturning (bits : BasicTypeBitSet) :
    functionBdd (functionReturning bits) =
      some (bddAtom (.typeAtom 12 (.function (.bits LIST) (.bits bits)))) := by
  unfold functionBdd functionReturning atomSemType
  rw [subtypeData_basicSubtype]
  rfl

theorem functionOver_functionReturning (bits : BasicTypeBitSet) :
    FunctionOver IsBits Env.init (functionReturning bits) :=
  ⟨_, functionBdd_functionReturning bits, ⟨⟨.bits LIST, .bits bits⟩, rfl, isBits _, isBits _⟩,
    trivial, trivial, trivial⟩

/-- A function that returns ints, called with any arguments. -/
theorem functionReturnType_sound_int :
    let _ := BddIdentity.shared
    let func := functionReturning INT
    ∃ ret s', (functionReturnType Env.init func (.bits LIST)).exec
        (fun c s => (⟨12, c.toAtomicType⟩, s)) (fun _ _ => .panic) bitsIsEmpty () =
          .done (some ret) s' ∧
      ((∀ v, CanReturn bitsDen Env.init func (.bits LIST) v → v ∈ bitsDen ret) ↔
        ∀ v, CanReturn bitsDen Env.init func (.bits LIST) v → v ∈ bitsDen (.bits ANY)) := by
  intro _ func
  have hdomain : (functionParamListType Env.init func).exec (fun c s => (⟨12, c.toAtomicType⟩, s))
      (fun _ _ => .panic) bitsIsEmpty () = .done (some (.bits LIST)) () := rfl
  have haccepted : (isSubtype (.bits LIST) (.bits LIST)).exec (fun c s => (⟨12, c.toAtomicType⟩, s))
      (fun _ _ => .panic) bitsIsEmpty () = .done true () := rfl
  exact functionReturnType_sound_iff exactTypes_bits (isBits ANY)
    (fun t s _ => emptyRight_bitsIsEmpty t s) (functionOver_functionReturning INT) (isBits LIST)
    hdomain haccepted

/-- A function that returns errors: the type of the call is `NEVER`. -/
theorem functionReturnType_not_sound_error :
    let _ := BddIdentity.shared
    let func := functionReturning ERROR
    (functionReturnType Env.init func (.bits LIST)).exec
        (fun c s => (⟨12, c.toAtomicType⟩, s)) (fun _ _ => .panic) bitsIsEmpty () =
          .done (some NEVER) () ∧
      CanReturn bitsDen Env.init func (.bits LIST) BT_ERROR ∧ BT_ERROR ∉ bitsDen NEVER := by
  intro _ func
  refine ⟨rfl, ?_, by simp [NEVER, bitsDen]⟩
  have hmem : ∀ c : BasicTypeCode, (basicType c).getLsbD c.val = true := by decide
  refine ⟨_, fun _ v => v = BT_ERROR, BT_LIST, functionBdd_functionReturning ERROR, ?_,
    hmem BT_LIST, rfl⟩
  refine (Bdd.holds_bddAtom _).mpr ⟨⟨.bits LIST, .bits ERROR⟩, rfl, fun a _ v hv => ?_⟩
  rw [hv]
  exact hmem BT_ERROR

end Nballerina.Types
