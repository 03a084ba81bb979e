import Nballerina.Front.ResolveTypes
import Nballerina.Types.RecAtoms

/-!
# Runs of the resolver

What a run of `ResolveM` that returned consists of, and what it says of the states: a step that
only interns (`Quiet`), a definition that is defined, a value that is needed, and the value of the
length of an array (`LengthIs`).
-/

namespace Nballerina.Front

open Nballerina.Types

theorem bind_ok {α β : Type} {x : ResolveM α} {f : α → ResolveM β} {st st'' : ResolveState} {b : β}
    (h : (x >>= f) st = .ok (b, st'')) :
    ∃ a st', x st = .ok (a, st') ∧ f a st' = .ok (b, st'') := by
  cases hx : x st with
  | error e =>
    rw [show (x >>= f) st = (x st).bind fun p => f p.1 p.2 from rfl, hx] at h
    cases h
  | ok p =>
    rw [show (x >>= f) st = (x st).bind fun p => f p.1 p.2 from rfl, hx] at h
    exact ⟨p.1, p.2, rfl, h⟩

section Spec

variable [BddIdentity]

/-- The value of the length of an array. -/
inductive LengthIs (mod : Module) (st : ResolveState) (modDefn : String) :
    Option SimpleConstExpr → Option Int → Prop where
  | unspecified : LengthIs mod st modDefn none none
  | literal {semType : SemType} {n : Int} :
      LengthIs mod st modDefn (some (.literal (.ok ⟨semType, .int n⟩))) (some n)
  | const {name : String} {r : ResolvedConst} {n : Int} : st.resolved name = .resolved r →
      r.value = .int n → LengthIs mod st modDefn (some (.varRef none name)) (some n)
  | imported {q name : String} {defns : String → Option ExportedDefn} {r : ResolvedConst}
      {n : Int} : mod.imported modDefn q = some defns → defns name = some (.const r) →
      r.value = .int n → LengthIs mod st modDefn (some (.varRef (some q) name)) (some n)

/-- Nothing happens but interning, and coming back to descriptors. -/
structure Quiet (st st' : ResolveState) : Prop where
  env : st.env.Interned st'.env
  history : ∃ more, st'.history = st.history ++ more ∧
    ∀ e ∈ more, (∃ td, e.1 = .again td) ∧ e.2 = st'.env
  defn : st'.defn = st.defn
  semType : st'.semType = st.semType
  anydataMemo : st'.anydataMemo = st.anydataMemo
  jsonMemo : st'.jsonMemo = st.jsonMemo
  resolved : st'.resolved = st.resolved

variable {α : Type} {kind : DefinitionKind} {td : TdId} {st st' : ResolveState}

omit [BddIdentity] in
theorem inEnv_ok {f : EnvM α} (hf : Interns f) {a : α} (h : inEnv f st = .ok (a, st')) :
    Quiet st st' ∧ f st'.env = some (a, st'.env) := by
  cases hfa : f st.env with
  | none =>
    simp only [inEnv, hfa] at h
    cases h
  | some p =>
    simp only [inEnv, hfa] at h
    cases h
    obtain ⟨hint, hsame⟩ := hf hfa
    exact ⟨⟨hint, ⟨[], by simp [ResolveState.setEnv]⟩, rfl, rfl, rfl, rfl, rfl⟩,
      hsame _ List.prefix_rfl⟩

omit [BddIdentity] in
/-- `defineDesc` calls `define` and keeps the definition. -/
theorem defineDesc_ok {define : Definition → Env → SemType × Definition × Env}
    {st1 : ResolveState} {s : SemType} (hrun : defineDesc kind td define st = .ok (s, st1)) :
    ∃ d, st.defn td = some d ∧ ∃ s' d' st2, defineWith kind d define st = .ok ((s', d'), st2) ∧
      s' = s ∧ st1 = st2.setDefn td d' := by
  obtain ⟨_, _, hget, hneed⟩ := bind_ok hrun
  cases hget
  obtain ⟨d, _, hd, hwith⟩ := bind_ok hneed
  unfold need at hd
  split at hd
  next d' hd' =>
    cases hd
    obtain ⟨⟨s', d'⟩, st2, hdefine, hset⟩ := bind_ok hwith
    obtain ⟨_, st3, hmodify, hpure⟩ := bind_ok hset
    cases hmodify
    cases hpure
    exact ⟨d, hd', s, d', st2, hdefine, rfl, rfl⟩
  next => cases hd

omit [BddIdentity] in
theorem need_ok {o : Option α} {a : α} (h : need o st = .ok (a, st')) : o = some a ∧ st' = st := by
  cases o with
  | none => cases h
  | some b =>
    cases h
    exact ⟨rfl, rfl⟩

end Spec

end Nballerina.Front
