import Mathlib.Data.Finset.Card
import Mathlib.Logic.Function.Basic
import Mathlib.Logic.Relation

/-!
# A memoised search that needs all of its parts

A question is answered at once, or by answers to all of some further questions; if one of them has no
answer, then neither has the question. The answers are kept in a table, and while a question is being
looked at the table says that it has none, so that a question that leads back to itself ends.

`Derives` is what an answer is without a table: a finite derivation. A question that leads back to
itself has no derivation, because its derivations would have to contain themselves
(`not_derives_of_cycle`). So the provisional entries are never wrong where they are seen, and the search
returns the answer of the derivation whatever was asked before (`eval_right`).
-/

namespace Nballerina.Lib

/-- How a question is answered: with an answer or none, or from the answers to others. -/
inductive SearchStep (K A : Type) where
  | answer (r : Option A)
  | all (subs : List K) (combine : List A → A)

/-- Questions `K` with answers `A`. The outer `none` is a failure of the search itself. -/
structure StrictSearch (K A : Type) where
  /-- What is answered without the table. -/
  direct : K → Option (Option (Option A))
  expand : K → Option (SearchStep K A)

/-- The entries made so far. -/
abbrev AnswerTable (K A : Type) := K → Option (Option A)

namespace StrictSearch

variable {K A : Type} (s : StrictSearch K A)

/-- The answers to all of the questions, in order; none as soon as one has none. -/
def evalAll (f : K → AnswerTable K A → Option (Option A × AnswerTable K A)) :
    List K → AnswerTable K A → Option (Option (List A) × AnswerTable K A)
  | [], memo => some (some [], memo)
  | k :: ks, memo => do
    let (r, memo) ← f k memo
    match r with
    | none => some (none, memo)
    | some a =>
      let (r, memo) ← evalAll f ks memo
      some (r.map (a :: ·), memo)

/-- Carry out a step. -/
def evalStep (f : K → AnswerTable K A → Option (Option A × AnswerTable K A)) :
    SearchStep K A → AnswerTable K A → Option (Option A × AnswerTable K A)
  | .answer r, memo => some (r, memo)
  | .all subs combine, memo => do
    let (r, memo) ← evalAll f subs memo
    some (r.map combine, memo)

/-- The search, with a bound on the depth of nested calls. -/
def eval [DecidableEq K] : Nat → K → AnswerTable K A → Option (Option A × AnswerTable K A)
  | 0, _, _ => none
  | fuel + 1, k, memo => do
    match ← s.direct k with
    | some r => some (r, memo)
    | none =>
      match memo k with
      | some r => some (r, memo)
      | none =>
        -- to end when the question comes up again
        let (r, memo) ← evalStep (eval fuel) (← s.expand k) (Function.update memo k (some none))
        some (r, Function.update memo k (some r))

/-- A finite derivation of an answer. -/
inductive Derives : K → A → Prop
  | direct {k : K} {a : A} : s.direct k = some (some (some a)) → Derives k a
  | answer {k : K} {a : A} : s.direct k = some none → s.expand k = some (.answer (some a)) →
      Derives k a
  | all {k : K} {subs : List K} {combine : List A → A} {as : List A} : s.direct k = some none →
      s.expand k = some (.all subs combine) → as.length = subs.length →
      (∀ (i : Nat) sub a, subs[i]? = some sub → as[i]? = some a → Derives sub a) →
      Derives k (combine as)

/-- `sub` is one of the questions that `k` needs. -/
def Needs (sub k : K) : Prop :=
  ∃ subs combine, s.direct k = some none ∧ s.expand k = some (.all subs combine) ∧ sub ∈ subs

variable {s}

/-- A question that is looked at for the first time. -/
theorem eval_new [DecidableEq K] {fuel : Nat} {k : K} {memo memo' : AnswerTable K A}
    {step : SearchStep K A} {r : Option A} (hdirect : s.direct k = some none) (hmemo : memo k = none)
    (hexpand : s.expand k = some step)
    (hstep : evalStep (s.eval fuel) step (Function.update memo k (some none)) = some (r, memo')) :
    s.eval (fuel + 1) k memo = some (r, Function.update memo' k (some r)) := by
  unfold eval
  rw [hdirect]
  dsimp only [Option.bind_eq_bind, Option.bind_some]
  rw [hmemo, hexpand]
  dsimp only [Option.bind_some]
  rw [hstep]
  rfl

theorem Derives.acc {k : K} {a : A} (h : s.Derives k a) : Acc s.Needs k := by
  induction h with
  | direct hk =>
    refine Acc.intro _ fun sub ⟨_, _, hdirect, _⟩ => ?_
    rw [hk] at hdirect
    cases hdirect
  | answer _ hk =>
    refine Acc.intro _ fun sub ⟨_, _, _, hexpand, _⟩ => ?_
    rw [hk] at hexpand
    cases hexpand
  | all _ hk hlength _ ih =>
    refine Acc.intro _ fun sub ⟨subs', _, _, hexpand, hsub⟩ => ?_
    rw [hk] at hexpand
    cases hexpand
    obtain ⟨i, hi⟩ := List.mem_iff_getElem?.mp hsub
    have hlt := (List.getElem?_eq_some_iff.mp hi).1
    rw [← hlength] at hlt
    exact ih i sub _ hi (List.getElem?_eq_getElem hlt)

/-- What needs itself has no derivation. -/
theorem not_derives_of_cycle {k : K} (h : Relation.TransGen s.Needs k k) (a : A) : ¬ s.Derives k a := by
  intro hder
  have hacc : Acc (Relation.TransGen s.Needs) k := hder.acc.transGen
  clear hder
  induction hacc with
  | intro k _ ih => exact ih k h h

theorem Derives.unique {k : K} {a b : A} (ha : s.Derives k a) (hb : s.Derives k b) : a = b := by
  induction ha generalizing b with
  | direct hk =>
    cases hb with
    | direct hk' =>
      rw [hk] at hk'
      cases hk'
      rfl
    | answer hk' =>
      rw [hk] at hk'
      cases hk'
    | all hk' =>
      rw [hk] at hk'
      cases hk'
  | answer hk hx =>
    cases hb with
    | direct hk' =>
      rw [hk] at hk'
      cases hk'
    | answer _ hx' =>
      rw [hx] at hx'
      cases hx'
      rfl
    | all _ hx' =>
      rw [hx] at hx'
      cases hx'
  | @all k subs combine as hk hx hlength _ ih =>
    cases hb with
    | direct hk' =>
      rw [hk] at hk'
      cases hk'
    | answer _ hx' =>
      rw [hx] at hx'
      cases hx'
    | @all _ subs' combine' as' _ hx' hlength' hsubs' =>
      rw [hx] at hx'
      cases hx'
      refine congrArg combine (List.ext_getElem? fun i => ?_)
      by_cases hi : i < subs.length
      · have hsub := List.getElem?_eq_getElem hi
        have ha := List.getElem?_eq_getElem (show i < as.length by omega)
        have hb := List.getElem?_eq_getElem (show i < as'.length by omega)
        rw [ha, hb, ih i _ _ hsub ha (hsubs' i _ _ hsub hb)]
      · rw [List.getElem?_eq_none (by omega), List.getElem?_eq_none (by omega)]

/-! ## The table -/

/-- The entries are right, except for the questions that are being looked at (`P`), which have the
provisional entry. -/
structure TableRight (s : StrictSearch K A) (P : K → Prop) (memo : AnswerTable K A) : Prop where
  answered : ∀ k a, memo k = some (some a) → s.Derives k a
  unanswered : ∀ k, memo k = some none → P k ∨ ∀ a, ¬ s.Derives k a
  pending : ∀ k, P k → memo k = some none

theorem tableRight_empty : TableRight s (fun _ => False) (fun _ => none) where
  answered k a h := by cases h
  unanswered k h := by cases h
  pending k h := h.elim

variable [DecidableEq K]

/-- A question that is taken up. -/
theorem TableRight.start {P : K → Prop} {memo : AnswerTable K A} (h : TableRight s P memo) (k : K) :
    TableRight s (fun j => j = k ∨ P j) (Function.update memo k (some none)) where
  answered j a hj := by
    by_cases heq : j = k
    · rw [heq, Function.update_self] at hj
      cases hj
    · rw [Function.update_of_ne heq] at hj
      exact h.answered j a hj
  unanswered j hj := by
    by_cases heq : j = k
    · exact .inl (.inl heq)
    · rw [Function.update_of_ne heq] at hj
      exact (h.unanswered j hj).imp .inr id
  pending j hj := by
    by_cases heq : j = k
    · rw [heq, Function.update_self]
    · rw [Function.update_of_ne heq]
      exact h.pending j (hj.resolve_left heq)

/-- A question that is answered. -/
theorem TableRight.finish {P : K → Prop} {memo : AnswerTable K A} {k : K}
    (h : TableRight s (fun j => j = k ∨ P j) memo) (hk : ¬ P k) {r : Option A}
    (hr : ∀ a, r = some a ↔ s.Derives k a) :
    TableRight s P (Function.update memo k (some r)) where
  answered j a hj := by
    by_cases heq : j = k
    · rw [heq, Function.update_self] at hj
      rw [heq]
      exact (hr a).mp (Option.some.inj hj)
    · rw [Function.update_of_ne heq] at hj
      exact h.answered j a hj
  unanswered j hj := by
    by_cases heq : j = k
    · rw [heq, Function.update_self] at hj
      refine .inr fun a ha => ?_
      rw [heq] at ha
      have hsome := (hr a).mpr ha
      rw [Option.some.inj hj] at hsome
      cases hsome
    · rw [Function.update_of_ne heq] at hj
      exact (h.unanswered j hj).imp (fun hj => hj.resolve_left heq) id
  pending j hj := by
    have heq : j ≠ k := fun heq => hk (heq ▸ hj)
    rw [Function.update_of_ne heq]
    exact h.pending j (.inr hj)

/-- What a call does: the table stays right, and the result is that of the derivation. -/
def CallRight (s : StrictSearch K A) (f : K → AnswerTable K A → Option (Option A × AnswerTable K A)) : Prop :=
  ∀ (P : K → Prop) k memo r memo', f k memo = some (r, memo') → TableRight s P memo →
    (∀ p, P p → Relation.TransGen s.Needs k p) →
    TableRight s P memo' ∧ ∀ a, r = some a ↔ s.Derives k a

omit [DecidableEq K] in
/-- All the questions of a step. -/
theorem evalAll_right {f : K → AnswerTable K A → Option (Option A × AnswerTable K A)} (hf : CallRight s f)
    {P : K → Prop} : ∀ (subs : List K) (memo : AnswerTable K A) (r : Option (List A)) (memo' : AnswerTable K A),
      evalAll f subs memo = some (r, memo') → TableRight s P memo →
      (∀ sub ∈ subs, ∀ p, P p → Relation.TransGen s.Needs sub p) →
      TableRight s P memo' ∧ ∀ as, r = some as ↔ (as.length = subs.length ∧
        ∀ (i : Nat) sub a, subs[i]? = some sub → as[i]? = some a → s.Derives sub a)
  | [], memo, r, memo', h, hmemo, _ => by
    cases h
    refine ⟨hmemo, fun as => ⟨fun has => ?_, fun ⟨hlength, _⟩ => ?_⟩⟩
    · cases has
      exact ⟨rfl, fun i sub a hsub => (by simp at hsub)⟩
    · rw [List.length_eq_zero_iff.mp hlength]
  | k :: subs, memo, r, memo', h, hmemo, hneeds => by
    unfold evalAll at h
    obtain ⟨⟨r1, memo1⟩, h1, h⟩ := Option.bind_eq_some_iff.mp h
    obtain ⟨hmemo1, hr1⟩ := hf P k memo r1 memo1 h1 hmemo (hneeds k (.head _))
    cases r1 with
    | none =>
      cases h
      refine ⟨hmemo1, fun as => ⟨fun has => (by cases has), fun ⟨hlength, hsubs⟩ => ?_⟩⟩
      -- the first question has no answer
      have hlt : 0 < as.length := by
        rw [hlength]
        exact Nat.succ_pos _
      have := (hr1 _).mpr (hsubs 0 k _ rfl (List.getElem?_eq_getElem hlt))
      cases this
    | some a =>
      obtain ⟨⟨r2, memo2⟩, h2, h⟩ := Option.bind_eq_some_iff.mp h
      obtain ⟨hmemo2, hr2⟩ := evalAll_right hf subs memo1 r2 memo2 h2 hmemo1
        fun sub hsub => hneeds sub (.tail _ hsub)
      cases h
      refine ⟨hmemo2, fun as => ⟨fun has => ?_, fun ⟨hlength, hsubs⟩ => ?_⟩⟩
      · obtain ⟨rest, hrest, rfl⟩ := Option.map_eq_some_iff.mp has
        obtain ⟨hlength, hsubs⟩ := (hr2 rest).mp hrest
        refine ⟨by rw [List.length_cons, List.length_cons, hlength], fun i sub b hsub hb => ?_⟩
        cases i with
        | zero =>
          cases hsub
          cases hb
          exact (hr1 a).mp rfl
        | succ i => exact hsubs i sub b hsub hb
      · cases as with
        | nil => cases hlength
        | cons b rest =>
          have hfirst : b = a := (hsubs 0 k b rfl rfl).unique ((hr1 a).mp rfl)
          have hrest : r2 = some rest := (hr2 rest).mpr
            ⟨Nat.succ.inj hlength, fun i sub c hsub hc => hsubs (i + 1) sub c hsub hc⟩
          rw [hrest, hfirst]
          rfl

/-- Whatever is in the table and whatever is being looked at, the result is that of the derivation. -/
theorem callRight_eval : ∀ fuel, CallRight s (s.eval fuel)
  | 0 => fun _ _ _ _ _ h => by cases h
  | fuel + 1 => by
    intro P k memo r memo' h hmemo hneeds
    unfold eval at h
    obtain ⟨d, hd, h⟩ := Option.bind_eq_some_iff.mp h
    cases d with
    | some r0 =>
      cases h
      refine ⟨hmemo, fun a => ⟨fun hr => Derives.direct (hr ▸ hd), fun hder => ?_⟩⟩
      cases hder with
      | direct hk =>
        rw [hd] at hk
        exact Option.some.inj (Option.some.inj hk)
      | answer hk =>
        rw [hd] at hk
        cases hk
      | all hk =>
        rw [hd] at hk
        cases hk
    | none =>
      dsimp only at h
      cases hentry : memo k with
      | some r0 =>
        rw [hentry] at h
        cases h
        refine ⟨hmemo, fun a => ?_⟩
        cases r with
        | some b =>
          have hb := hmemo.answered k b hentry
          refine ⟨fun heq => ?_, fun hder => congrArg some (hb.unique hder)⟩
          cases heq
          exact hb
        | none =>
          refine ⟨fun heq => (by cases heq), fun hder => ?_⟩
          -- a provisional entry is met again only on a cycle
          rcases hmemo.unanswered k hentry with hk | hk
          · exact absurd hder (not_derives_of_cycle (hneeds k hk) a)
          · exact absurd hder (hk a)
      | none =>
        rw [hentry] at h
        have hk : ¬ P k := by
          intro hk
          rw [hmemo.pending k hk] at hentry
          cases hentry
        obtain ⟨step, hstep, h⟩ := Option.bind_eq_some_iff.mp h
        obtain ⟨⟨r1, memo1⟩, h1, h⟩ := Option.bind_eq_some_iff.mp h
        cases h
        have hstart := hmemo.start k
        cases step with
        | answer r0 =>
          cases h1
          have hr : ∀ a, r1 = some a ↔ s.Derives k a := by
            intro a
            refine ⟨fun hr => Derives.answer hd (hr ▸ hstep), fun hder => ?_⟩
            cases hder with
            | direct hk =>
              rw [hd] at hk
              cases hk
            | answer _ hx =>
              rw [hstep] at hx
              cases hx
              rfl
            | all _ hx =>
              rw [hstep] at hx
              cases hx
          exact ⟨hstart.finish hk hr, hr⟩
        | all subs combine =>
          obtain ⟨⟨r2, memo2⟩, h2, h1⟩ := Option.bind_eq_some_iff.mp h1
          cases h1
          have hsubs : ∀ sub ∈ subs, ∀ p, p = k ∨ P p → Relation.TransGen s.Needs sub p := by
            intro sub hsub p hp
            have hneed : s.Needs sub k := ⟨subs, combine, hd, hstep, hsub⟩
            rcases hp with rfl | hp
            · exact Relation.TransGen.single hneed
            · exact Relation.TransGen.head hneed (hneeds p hp)
          obtain ⟨hmemo2, hr2⟩ := evalAll_right (callRight_eval fuel) subs _ r2 _ h2 hstart hsubs
          have hr : ∀ a, r2.map combine = some a ↔ s.Derives k a := by
            intro a
            constructor
            · intro hmap
              obtain ⟨as, has, rfl⟩ := Option.map_eq_some_iff.mp hmap
              obtain ⟨hlength, hder⟩ := (hr2 as).mp has
              exact Derives.all hd hstep hlength hder
            · intro hder
              cases hder with
              | direct hk =>
                rw [hd] at hk
                cases hk
              | answer _ hx =>
                rw [hstep] at hx
                cases hx
              | all _ hx hlength hsub =>
                rw [hstep] at hx
                cases hx
                rw [(hr2 _).mpr ⟨hlength, hsub⟩]
                rfl
          exact ⟨hmemo2.finish hk hr, hr⟩

/-- A table that some earlier calls have left. -/
inductive Reachable (s : StrictSearch K A) : AnswerTable K A → Prop
  | empty : Reachable s fun _ => none
  | call {memo memo' : AnswerTable K A} {fuel : Nat} {k : K} {r : Option A} : Reachable s memo →
      s.eval fuel k memo = some (r, memo') → Reachable s memo'

theorem Reachable.right {memo : AnswerTable K A} (h : Reachable s memo) :
    TableRight s (fun _ => False) memo := by
  induction h with
  | empty => exact tableRight_empty
  | call _ hcall ih => exact (callRight_eval _ _ _ _ _ _ hcall ih fun _ hp => hp.elim).1

/-- Whatever was asked before, the result of a call is that of the derivation. -/
theorem eval_right {memo memo' : AnswerTable K A} (h : Reachable s memo) {fuel : Nat} {k : K} {r : Option A}
    (hcall : s.eval fuel k memo = some (r, memo')) (a : A) : r = some a ↔ s.Derives k a :=
  (callRight_eval fuel _ k memo r memo' hcall h.right fun _ hp => hp.elim).2 a

end StrictSearch

end Nballerina.Lib
