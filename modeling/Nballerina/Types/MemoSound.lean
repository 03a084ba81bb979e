import Mathlib.Logic.Relation
import Nballerina.Types.Memo

/-!
# Memoised emptiness is right

`val k n` says that the `Bdd` of the memo key `k` has a value of depth `n`; a `Bdd` is
empty if it has no value of any (finite) depth. The predicates are taken to be
monotone in the emptiness of what they ask for, and exact: told which keys have no
value of depth below `n`, a predicate finds out whether its own has none of depth up
to `n` (`Exact`).

While a predicate runs, its answers rest on assumptions. What is always right is a
*no*: it was found although too much was assumed to be empty. A *yes* is kept on the
stack together with what it rests on, so the invariant is about the stack:

> `Justified`: the predicate of a record that is finished but still provisional says
> *empty* under every set of empty keys that contains what is assumed now and nothing
> that is known to be inhabited.

`Extends` says what a nested run may do to a context: push justified records and
learn of inhabited ones, and never touch what was there. When the outermost record
comes out empty every record of the stack is justified, so what is assumed is a set
of keys that the predicates themselves declare empty, and by induction on the depth no
value is in any of them (`empty_of_justified`).
-/

namespace Nballerina.Types

open Nballerina.Lib Relation

variable {σ ι ν π ρ κ : Type}

/-- No value of depth below `n`. -/
def emptyBelow (val : κ → Nat → Prop) (n : Nat) : Set κ := {k | ∀ m < n, ¬ val k m}

/-- The inductive meaning of emptiness: no value of finite depth. -/
def emptyKeys (val : κ → Nat → Prop) : Set κ := {k | ∀ n, ¬ val k n}

theorem emptyKeys_subset (val : κ → Nat → Prop) (n : Nat) : emptyKeys val ⊆ emptyBelow val n :=
  fun _ hk m _ => hk m

namespace System

variable (sys : System σ ι ν π ρ κ)

/-- `s'` comes from `s` by interning. -/
def Grown : σ → σ → Prop := ReflTransGen fun s s' => ∃ c, s' = (sys.intern c s).2

/-- The names that interning gives in a state. -/
def names (s : σ) (c : ι) : ν := (sys.intern c s).1

/-- A value keeps the name it got. -/
def Stable : Prop := ∀ c s s', sys.Grown (sys.intern c s).2 s' → sys.names s' c = sys.names s c

/-- `v` can be the name of `c` in a state after `s0`. -/
def Named (s0 : σ) (c : ι) (v : ν) : Prop := ∃ s, sys.Grown s0 s ∧ v = sys.names s c

/-- What a program returns when the keys in `E` are taken to be empty. -/
abbrev Returns (s : σ) (E : Set κ) {α : Type} (x : Prog ι ν π ρ α) (a : α) : Prop :=
  x.Evals sys.key sys.body (sys.names s) E a

/-- The predicates in the scope `P`, `Q` ask only for predicates in the scope, are
monotone, and are exact for the values `val`. -/
structure Exact (s0 : σ) (P : π → Prop) (Q : ρ → Prop) (val : κ → Nat → Prop) : Prop where
  scope_predicate : ∀ p, P p →
    (sys.predicate p).Within (sys.Named s0) P Q fun _ => True
  scope_body : ∀ q, Q q → (sys.body q).Within (sys.Named s0) P Q fun _ => True
  monotone : ∀ p, P p → ∀ s, sys.Grown s0 s → ∀ {E E' : Set κ} {r r' : Bool}, E ⊆ E' →
    sys.Returns s E (sys.predicate p) r → sys.Returns s E' (sys.predicate p) r' →
    r = true → r' = true
  exact : ∀ p, P p → ∀ s, sys.Grown s0 s → ∀ n, ∃ r,
    sys.Returns s (emptyBelow val n) (sys.predicate p) r ∧
      (r = true ↔ sys.key p ∈ emptyBelow val (n + 1))

end System

/-! ## The two directions of exactness -/

section Exact

variable {sys : System σ ι ν π ρ κ} {s0 : σ} {P : π → Prop} {Q : ρ → Prop}
  {val : κ → Nat → Prop}

/-- Among finitely many keys, those that are inhabited are so below some depth. -/
theorem exists_depth (val : κ → Nat → Prop) :
    ∀ A : List κ, ∃ n, ∀ k ∈ A, k ∉ emptyKeys val → ∃ m < n, val k m
  | [] => ⟨0, by simp⟩
  | k :: A => by
    obtain ⟨n, hn⟩ := exists_depth val A
    by_cases hk : k ∈ emptyKeys val
    · refine ⟨n, fun j hj hne => ?_⟩
      rcases List.mem_cons.mp hj with rfl | hj
      · exact absurd hk hne
      · exact hn j hj hne
    · have hval : ∃ m, val k m := by
        by_contra hno
        exact hk fun m hm => hno ⟨m, hm⟩
      obtain ⟨m, hm⟩ := hval
      refine ⟨max n (m + 1), fun j hj hne => ?_⟩
      rcases List.mem_cons.mp hj with rfl | hj
      · exact ⟨m, by omega, hm⟩
      · obtain ⟨m', hlt, hm'⟩ := hn j hj hne
        exact ⟨m', by omega, hm'⟩

/-- A *no* is right as long as nothing empty was taken to be inhabited. -/
theorem inhabited_of_returns (h : sys.Exact s0 P Q val) {p : π} (hp : P p) {s : σ}
    (hs : sys.Grown s0 s) {E : Set κ} (hE : emptyKeys val ⊆ E)
    (hr : sys.Returns s E (sys.predicate p) false) : sys.key p ∉ emptyKeys val := by
  obtain ⟨A, hA⟩ := hr.congr_on
  obtain ⟨n, hn⟩ := exists_depth val A
  -- outside the keys that were looked at, anything may be taken to be empty
  have hr' : sys.Returns s (E ∪ {k | k ∉ A}) (sys.predicate p) false := by
    refine hA _ fun k hk => ?_
    simp [hk]
  have hsub : emptyBelow val n ⊆ E ∪ {k | k ∉ A} := by
    intro k hk
    by_cases hkA : k ∈ A
    · refine .inl (hE ?_)
      by_contra hne
      obtain ⟨m, hlt, hm⟩ := hn k hkA hne
      exact hk m hlt hm
    · exact .inr hkA
  obtain ⟨r, hreturns, hiff⟩ := h.exact p hp s hs n
  intro hempty
  have hrt : r = true := hiff.mpr (emptyKeys_subset val (n + 1) hempty)
  exact absurd (h.monotone p hp s hs hsub hreturns hr' hrt) (by simp)

/-- A set of keys that the predicates declare empty, given that very set, is empty. -/
theorem empty_of_returns (h : sys.Exact s0 P Q val) {s : σ} (hs : sys.Grown s0 s) {E : Set κ}
    (hE : ∀ k ∈ E, k ∈ emptyKeys val ∨
      ∃ p, P p ∧ sys.key p = k ∧ sys.Returns s E (sys.predicate p) true) :
    E ⊆ emptyKeys val := by
  have hbelow : ∀ n, E ⊆ emptyBelow val n := by
    intro n
    induction n with
    | zero => exact fun k _ m hm => absurd hm (Nat.not_lt_zero m)
    | succ n ih =>
      intro k hk
      rcases hE k hk with hempty | ⟨p, hp, rfl, hreturns⟩
      · exact emptyKeys_subset val (n + 1) hempty
      · obtain ⟨r, hr, hiff⟩ := h.exact p hp s hs n
        exact hiff.mp (h.monotone p hp s hs ih hreturns hr rfl)
  exact fun k hk n hval => hbelow (n + 1) hk n (Nat.lt_succ_self n) hval

end Exact

/-! ## Contexts -/

/-- A record whose answer stands. -/
def MemoEmpty.Final : MemoEmpty → Prop
  | .known _ => True
  | .cyclic => True
  | _ => False

/-- A record that is taken to be empty for now. -/
def MemoEmpty.Pending : MemoEmpty → Prop
  | .provisional => True
  | .loop => True
  | _ => False

namespace MemoContext

/-- The keys that a question would be answered with *empty* for. -/
def Assumed (cx : MemoContext σ κ) : Set κ :=
  {k | (cx.memo k).Pending ∨ cx.memo k = .known true ∨ cx.memo k = .cyclic}

/-- The keys known to be inhabited. -/
def Refuted (cx : MemoContext σ κ) : Set κ := {k | cx.memo k = .known false}

/-- A set of keys that could be the empty ones, for all the context knows. -/
def Admits (cx : MemoContext σ κ) (E : Set κ) : Prop :=
  cx.Assumed ⊆ E ∧ ∀ k ∈ cx.Refuted, k ∉ E

/-- The stack holds the pending records; only keys of `T` are recorded as empty and only
keys of `F` as inhabited. -/
structure Sound (T F : Set κ) (cx : MemoContext σ κ) : Prop where
  nodup : cx.memoStack.Nodup
  mem_stack : ∀ k, k ∈ cx.memoStack ↔ (cx.memo k).Pending
  empty : ∀ k, cx.memo k = .known true ∨ cx.memo k = .cyclic → k ∈ T
  inhabited : ∀ k, cx.memo k = .known false → k ∈ F

end MemoContext

section Contexts

variable (sys : System σ ι ν π ρ κ) (P : π → Prop) (T F : Set κ)

/-- The predicate of `k` says *empty*, whatever else turns out about the keys that the
context does not know. -/
def Justified (cx : MemoContext σ κ) (k : κ) : Prop :=
  ∃ p, P p ∧ sys.key p = k ∧ ∀ s, sys.Grown cx.env s → ∀ E, cx.Admits E →
    sys.Returns s E (sys.predicate p) true

/-- What a nested run does to a context: it pushes the justified records `new`. -/
structure Extends (cx cx' : MemoContext σ κ) (new : List κ) : Prop where
  grown : sys.Grown cx.env cx'.env
  stack : cx'.memoStack = cx.memoStack ++ new
  final : ∀ k, (cx.memo k).Final → cx'.memo k = cx.memo k
  sound : cx'.Sound T F
  justified : ∀ k ∈ new, Justified sys P cx' k

variable {sys P T F}

theorem Extends.refl {cx : MemoContext σ κ} (h : cx.Sound T F) : Extends sys P T F cx cx [] :=
  ⟨.refl, (List.append_nil _).symm, fun _ _ => rfl, h, by simp⟩

theorem Extends.assumed {cx cx' : MemoContext σ κ} {new : List κ}
    (h : Extends sys P T F cx cx' new) (hs : cx.Sound T F) : cx.Assumed ⊆ cx'.Assumed := by
  intro k hk
  rcases hk with hp | hf
  · have hmem : k ∈ cx'.memoStack := by
      rw [h.stack]
      exact List.mem_append_left _ ((hs.mem_stack k).mpr hp)
    exact .inl ((h.sound.mem_stack k).mp hmem)
  · have hfinal : (cx.memo k).Final := by
      rcases hf with hf | hf <;> rw [hf] <;> trivial
    refine .inr ?_
    rw [h.final k hfinal]
    exact hf

theorem Extends.refuted {cx cx' : MemoContext σ κ} {new : List κ}
    (h : Extends sys P T F cx cx' new) : cx.Refuted ⊆ cx'.Refuted := by
  intro k hk
  have hfalse : cx.memo k = .known false := hk
  show cx'.memo k = .known false
  rw [h.final k (by rw [hfalse]; trivial), hfalse]

theorem Extends.admits {cx cx' : MemoContext σ κ} {new : List κ}
    (h : Extends sys P T F cx cx' new) (hs : cx.Sound T F) {E : Set κ} (hE : cx'.Admits E) :
    cx.Admits E :=
  ⟨fun _ hk => hE.1 (h.assumed hs hk), fun k hk => hE.2 k (h.refuted hk)⟩

theorem Extends.trans {cx cx' cx'' : MemoContext σ κ} {new new' : List κ}
    (h : Extends sys P T F cx cx' new) (h' : Extends sys P T F cx' cx'' new') :
    Extends sys P T F cx cx'' (new ++ new') where
  grown := h.grown.trans h'.grown
  stack := by rw [h'.stack, h.stack, List.append_assoc]
  final k hk := by
    have hk' : (cx'.memo k).Final := by
      rw [h.final k hk]
      exact hk
    rw [h'.final k hk', h.final k hk]
  sound := h'.sound
  justified k hk := by
    rcases List.mem_append.mp hk with hk | hk
    · obtain ⟨p, hp, hkey, hret⟩ := h.justified k hk
      refine ⟨p, hp, hkey, fun s hs E hE => ?_⟩
      exact hret s (h'.grown.trans hs) E (h'.admits h.sound hE)
    · exact h'.justified k hk

/-! ## Nested runs -/

variable {s0 : σ} {Q : ρ → Prop}

/-- A context in the middle of a run that started in `s0`. -/
structure Running (sys : System σ ι ν π ρ κ) (s0 : σ) (T F : Set κ)
    (cx : MemoContext σ κ) : Prop where
  grown : sys.Grown s0 cx.env
  sound : cx.Sound T F
  nested : cx.memoStack ≠ []

theorem Running.extend {cx cx' : MemoContext σ κ} {new : List κ} (h : Running sys s0 T F cx)
    (he : Extends sys P T F cx cx' new) : Running sys s0 T F cx' :=
  ⟨h.grown.trans he.grown, he.sound, by rw [he.stack]; simp [h.nested]⟩

/-- The answer to a memoised question is on record. -/
def MemoAnswered (sys : System σ ι ν π ρ κ) (p : π) (b : Bool) (cx : MemoContext σ κ) : Prop :=
  if b then sys.key p ∈ cx.Assumed else sys.key p ∈ cx.Refuted

/-- The result of a program rests on nothing but the records. -/
def Rests (sys : System σ ι ν π ρ κ) {α : Type} (x : Prog ι ν π ρ α) (a : α)
    (cx : MemoContext σ κ) : Prop :=
  ∀ s, sys.Grown cx.env s → ∀ E, cx.Admits E → sys.Returns s E x a

theorem MemoAnswered.returns {cx : MemoContext σ κ} {p : π} {b : Bool} {α : Type}
    {k : Bool → Prog ι ν π ρ α} {a : α} {s : σ} {E : Set κ} (h : MemoAnswered sys p b cx)
    (hE : cx.Admits E) (hk : sys.Returns s E (k b) a) : sys.Returns s E (.memo p k) a := by
  cases b with
  | true => exact .memoTrue (hE.1 h) hk
  | false => exact .memoFalse (hE.2 _ h) hk

theorem MemoAnswered.extend {cx cx' : MemoContext σ κ} {new : List κ} {p : π} {b : Bool}
    (h : MemoAnswered sys p b cx) (hs : cx.Sound T F) (he : Extends sys P T F cx cx' new) :
    MemoAnswered sys p b cx' := by
  cases b with
  | true => exact he.assumed hs h
  | false => exact he.refuted h

/-- Interning leaves the records alone. -/
theorem extends_internCx {cx : MemoContext σ κ} (h : cx.Sound T F) (c : ι) :
    Extends sys P T F cx (sys.internCx c cx).2 [] where
  grown := .single ⟨c, rfl⟩
  stack := (List.append_nil _).symm
  final _ _ := rfl
  sound := ⟨h.nodup, h.mem_stack, h.empty, h.inhabited⟩
  justified := by simp

/-- What has to be known of the predicates: the scope is closed, a *no* that rests on the
records is in `F`, and a stack of justified records is in `T`. -/
structure Verdicts (sys : System σ ι ν π ρ κ) (s0 : σ) (P : π → Prop) (Q : ρ → Prop)
    (T F : Set κ) : Prop where
  scope_predicate : ∀ p, P p →
    (sys.predicate p).Within (sys.Named s0) P Q fun _ => True
  scope_body : ∀ q, Q q → (sys.body q).Within (sys.Named s0) P Q fun _ => True
  no : ∀ {p : π} {cx : MemoContext σ κ}, P p → sys.Grown s0 cx.env → cx.Sound T F →
    Rests sys (sys.predicate p) false cx → sys.key p ∈ F
  yes : ∀ {cx : MemoContext σ κ}, sys.Grown s0 cx.env → cx.Sound T F →
    (∀ k ∈ cx.memoStack, Justified sys P cx k) → ∀ k ∈ cx.memoStack, k ∈ T

variable [DecidableEq κ]

/-- A program keeps to the records if the questions it asks do. -/
theorem runProg_extends (hstable : sys.Stable) {fuel : Nat}
    (hmemo : ∀ {p cx b cx'}, P p → Running sys s0 T F cx → sys.run fuel (.inl p) cx = .done b cx' →
      ∃ new, Extends sys P T F cx cx' new ∧ MemoAnswered sys p b cx')
    (hcall : ∀ {q cx b cx'}, Q q → Running sys s0 T F cx → sys.run fuel (.inr q) cx = .done b cx' →
      ∃ new, Extends sys P T F cx cx' new ∧ Rests sys (sys.body q) b cx') {α : Type}
    {post : α → Prop} : ∀ (x : Prog ι ν π ρ α) {cx cx' : MemoContext σ κ} {a : α},
      x.Within (sys.Named s0) P Q post → Running sys s0 T F cx →
      sys.runProg fuel x cx = .done a cx' →
        ∃ new, Extends sys P T F cx cx' new ∧ Rests sys x a cx'
  | .pure a, cx, cx', a', _, hrun, heq => by
    cases heq
    exact ⟨[], .refl hrun.sound, fun s _ E _ => .pure a⟩
  | .panic, cx, cx', a', _, _, heq => by cases heq
  | .intern c k, cx, cx', a', hw, hrun, heq => by
    have hext : Extends sys P T F cx (sys.internCx c cx).2 [] := extends_internCx hrun.sound c
    obtain ⟨new, hnew, hrest⟩ := runProg_extends hstable hmemo hcall (k (sys.internCx c cx).1)
      (hw _ ⟨cx.env, hrun.grown, rfl⟩) (hrun.extend hext) heq
    refine ⟨new, hext.trans hnew, fun s hs E hE => .intern ?_⟩
    -- the name got now is the name in every later state
    rw [hstable c cx.env s (hnew.grown.trans hs)]
    exact hrest s hs E hE
  | .memo p k, cx, cx', a', hw, hrun, heq => by
    rw [sys.runProg_memo] at heq
    obtain ⟨b, cx1, hr, heq⟩ := Outcome.andThen_eq_done heq
    obtain ⟨new1, hext, hans⟩ := hmemo hw.1 hrun hr
    obtain ⟨new2, hext', hrest⟩ := runProg_extends hstable hmemo hcall (k b) (hw.2 b)
      (hrun.extend hext) heq
    refine ⟨new1 ++ new2, hext.trans hext', fun s hs E hE => ?_⟩
    exact (hans.extend hext.sound hext').returns hE (hrest s hs E hE)
  | .call q k, cx, cx', a', hw, hrun, heq => by
    rw [sys.runProg_call] at heq
    obtain ⟨b, cx1, hr, heq⟩ := Outcome.andThen_eq_done heq
    obtain ⟨new1, hext, hbody⟩ := hcall hw.1 hrun hr
    obtain ⟨new2, hext', hrest⟩ := runProg_extends hstable hmemo hcall (k b) (hw.2 b)
      (hrun.extend hext) heq
    refine ⟨new1 ++ new2, hext.trans hext', fun s hs E hE => ?_⟩
    exact .call (hbody s (hext'.grown.trans hs) E (hext'.admits hext.sound hE))
      (hrest s hs E hE)

/-- The context a predicate is called with. -/
def pushed (cx : MemoContext σ κ) (k : κ) : MemoContext σ κ :=
  { cx.setEmpty k .provisional with memoStack := cx.memoStack ++ [k] }

theorem sound_pushed {cx : MemoContext σ κ} (h : cx.Sound T F) {k : κ} (hk : cx.memo k = .nil) :
    (pushed cx k).Sound T F := by
  have hnot : k ∉ cx.memoStack := fun hmem => by
    have := (h.mem_stack k).mp hmem
    rw [hk] at this
    exact this
  have hmemo : ∀ j, (pushed cx k).memo j = if j = k then .provisional else cx.memo j := fun _ => rfl
  refine ⟨?_, fun j => ?_, fun j hj => ?_, fun j hj => ?_⟩
  · show (cx.memoStack ++ [k]).Nodup
    rw [List.nodup_append]
    refine ⟨h.nodup, by simp, fun a ha b hb => ?_⟩
    rw [List.mem_singleton.mp hb]
    exact fun heq => hnot (heq ▸ ha)
  · show j ∈ cx.memoStack ++ [k] ↔ _
    rw [hmemo j, List.mem_append, List.mem_singleton, h.mem_stack j]
    by_cases hjk : j = k
    · subst hjk
      simp [MemoEmpty.Pending]
    · simp [hjk]
  · rw [hmemo j] at hj
    by_cases hjk : j = k
    · simp [hjk] at hj
    · rw [if_neg hjk] at hj
      exact h.empty j hj
  · rw [hmemo j] at hj
    by_cases hjk : j = k
    · simp [hjk] at hj
    · rw [if_neg hjk] at hj
      exact h.inhabited j hj

/-- Coming across a pending record only marks it. -/
theorem sound_marked {cx : MemoContext σ κ} (h : cx.Sound T F) {k : κ}
    (hk : (cx.memo k).Pending) : (cx.setEmpty k .loop).Sound T F := by
  have hmemo : ∀ j, (cx.setEmpty k .loop).memo j = if j = k then .loop else cx.memo j :=
    fun _ => rfl
  refine ⟨h.nodup, fun j => ?_, fun j hj => ?_, fun j hj => ?_⟩
  · show j ∈ cx.memoStack ↔ _
    rw [hmemo j, h.mem_stack j]
    by_cases hjk : j = k
    · subst hjk
      simp [MemoEmpty.Pending] at hk ⊢
      exact hk
    · simp [hjk]
  · rw [hmemo j] at hj
    by_cases hjk : j = k
    · simp [hjk] at hj
    · rw [if_neg hjk] at hj
      exact h.empty j hj
  · rw [hmemo j] at hj
    by_cases hjk : j = k
    · simp [hjk] at hj
    · rw [if_neg hjk] at hj
      exact h.inhabited j hj

theorem extends_marked {cx : MemoContext σ κ} (h : cx.Sound T F) {k : κ}
    (hk : (cx.memo k).Pending) : Extends sys P T F cx (cx.setEmpty k .loop) [] where
  grown := .refl
  stack := (List.append_nil _).symm
  final j hj := by
    refine MemoContext.setEmpty_of_ne cx (fun heq => ?_) _
    subst heq
    cases hm : cx.memo j <;> rw [hm] at hk hj <;> first | exact hk.elim | exact hj.elim
  sound := sound_marked h hk
  justified := by simp

/-- After a *no* the records pushed since are forgotten. -/
theorem sound_finish_false {cx : MemoContext σ κ} (h : cx.Sound T F) {S new : List κ} {k : κ}
    (hstack : cx.memoStack = S ++ k :: new) (hk : k ∈ F) :
    (cx.finish k S.length false).Sound T F := by
  obtain ⟨-, hstk, hself, hother⟩ := MemoContext.finish_spec hstack (.inl rfl)
  have hnodup : (S ++ k :: new).Nodup := hstack ▸ h.nodup
  obtain ⟨hS, hknew, hdisj⟩ := List.nodup_append.mp hnodup
  have hselfFalse : (cx.finish k S.length false).memo k = .known false := by rw [hself]; simp
  have hpending : ∀ j ∈ new, (cx.memo j).Pending := fun j hj =>
    (h.mem_stack j).mp (by rw [hstack]; simp [hj])
  have hresolved : ∀ j ∈ new, MemoContext.resolved false (cx.memo j) = .nil := by
    intro j hj
    have := hpending j hj
    cases hm : cx.memo j <;> rw [hm] at this <;> first | exact this.elim | rfl
  refine ⟨by rw [hstk]; exact hS, fun j => ?_, fun j hj => ?_, fun j hj => ?_⟩
  · rw [hstk]
    by_cases hjk : j = k
    · subst hjk
      rw [hselfFalse]
      exact iff_of_false (fun hmem => hdisj j hmem j List.mem_cons_self rfl) id
    · rw [hother j hjk]
      by_cases hnew : j ∈ new
      · rw [if_pos hnew, hresolved j hnew]
        exact iff_of_false (fun hmem => hdisj j hmem j (.tail _ hnew) rfl) id
      · rw [if_neg hnew, ← h.mem_stack j, hstack]
        simp [hjk, hnew]
  · by_cases hjk : j = k
    · subst hjk
      rw [hselfFalse] at hj
      simp at hj
    · rw [hother j hjk] at hj
      by_cases hnew : j ∈ new
      · rw [if_pos hnew, hresolved j hnew] at hj
        simp at hj
      · rw [if_neg hnew] at hj
        exact h.empty j hj
  · by_cases hjk : j = k
    · subst hjk
      exact hk
    · rw [hother j hjk] at hj
      by_cases hnew : j ∈ new
      · rw [if_pos hnew, hresolved j hnew] at hj
        simp at hj
      · rw [if_neg hnew] at hj
        exact h.inhabited j hj

/-- What a memoised question does inside a run, given what its predicate does. -/
theorem memo_extends (h : Verdicts sys s0 P Q T F) {p : π} (hp : P p)
    {predicate : MemoContext σ κ → Outcome (MemoContext σ κ) Bool}
    (hpred : ∀ {cx r cx'}, Running sys s0 T F cx → predicate cx = .done r cx' →
      ∃ new, Extends sys P T F cx cx' new ∧ Rests sys (sys.predicate p) r cx')
    {cx cx' : MemoContext σ κ} {b : Bool} (hrun : Running sys s0 T F cx)
    (heq : memoSubtypeIsEmpty predicate (sys.key p) cx = .done b cx') :
    ∃ new, Extends sys P T F cx cx' new ∧ MemoAnswered sys p b cx' := by
  unfold memoSubtypeIsEmpty at heq
  split at heq
  next hm =>
    cases heq
    exact ⟨[], .refl hrun.sound, .inr (.inr hm)⟩
  next res hm =>
    cases heq
    refine ⟨[], .refl hrun.sound, ?_⟩
    cases b with
    | true => exact .inr (.inl hm)
    | false => exact hm
  next hm =>
    cases heq
    refine ⟨[], extends_marked hrun.sound (by rw [hm]; trivial), .inl ?_⟩
    rw [MemoContext.setEmpty_self]
    trivial
  next hm =>
    cases heq
    refine ⟨[], extends_marked hrun.sound (by rw [hm]; trivial), .inl ?_⟩
    rw [MemoContext.setEmpty_self]
    trivial
  next hm =>
    obtain ⟨r, cx2, hr, heq⟩ := Outcome.andThen_eq_done heq
    cases heq
    have hpush : Running sys s0 T F (pushed cx (sys.key p)) :=
      ⟨hrun.grown, sound_pushed hrun.sound hm, by simp [pushed]⟩
    obtain ⟨new, hext, hrest⟩ := hpred hpush hr
    have hstack : cx2.memoStack = cx.memoStack ++ sys.key p :: new := by
      rw [hext.stack]
      simp [pushed]
    -- a final record is not the one that was pushed
    have hfinal : ∀ k, (cx.memo k).Final → k ≠ sys.key p ∧ cx2.memo k = cx.memo k := by
      intro k hk
      have hne : k ≠ sys.key p := by
        intro heq
        rw [heq, hm] at hk
        exact hk
      have hmemo : (pushed cx (sys.key p)).memo k = cx.memo k :=
        MemoContext.setEmpty_of_ne cx hne _
      exact ⟨hne, (hext.final k (by rw [hmemo]; exact hk)).trans hmemo⟩
    cases b with
    | false =>
      have hinh := h.no hp (hpush.grown.trans hext.grown) hext.sound hrest
      obtain ⟨henv, hstk, hself, hother⟩ := MemoContext.finish_spec hstack (.inl rfl)
      refine ⟨[], ⟨?_, by rw [hstk, List.append_nil], fun k hk => ?_,
        sound_finish_false hext.sound hstack hinh, by simp⟩, ?_⟩
      · rw [henv]
        exact hext.grown
      · obtain ⟨hne, hmemo⟩ := hfinal k hk
        have hnew : k ∉ new := by
          intro hmem
          have hpend := (hext.sound.mem_stack k).mp (by rw [hstack]; simp [hmem])
          rw [hmemo] at hpend
          cases hmk : cx.memo k <;> rw [hmk] at hpend hk <;>
            first | exact hpend.elim | exact hk.elim
        rw [hother k hne, if_neg hnew, hmemo]
      · show (cx2.finish _ _ _).memo _ = _
        rw [hself]
        simp
    | true =>
      -- a *yes* stays on the stack with the records it rests on
      have hkeep : cx2.finish (sys.key p) cx.memoStack.length true = cx2 := by
        unfold MemoContext.finish
        rw [if_neg]
        simpa using hrun.nested
      rw [hkeep]
      refine ⟨sys.key p :: new, ⟨hext.grown, hstack, fun k hk => (hfinal k hk).2, hext.sound,
        fun k hk => ?_⟩, ?_⟩
      · rcases List.mem_cons.mp hk with rfl | hk
        · exact ⟨p, hp, rfl, hrest⟩
        · exact hext.justified k hk
      · exact .inl ((hext.sound.mem_stack _).mp (by rw [hstack]; simp))

/-- Inside a run, questions and calls keep to the records. -/
theorem run_extends (hstable : sys.Stable) (h : Verdicts sys s0 P Q T F) : ∀ (fuel : Nat),
    (∀ {p cx b cx'}, P p → Running sys s0 T F cx → sys.run fuel (.inl p) cx = .done b cx' →
      ∃ new, Extends sys P T F cx cx' new ∧ MemoAnswered sys p b cx') ∧
    (∀ {q cx b cx'}, Q q → Running sys s0 T F cx → sys.run fuel (.inr q) cx = .done b cx' →
      ∃ new, Extends sys P T F cx cx' new ∧ Rests sys (sys.body q) b cx')
  | 0 => by
    refine ⟨fun _ _ heq => ?_, fun _ _ heq => ?_⟩
    · cases heq
    · cases heq
  | fuel + 1 => by
    obtain ⟨hmemo, hcall⟩ := run_extends hstable h fuel
    refine ⟨fun {p} cx b cx' hp hrun heq => ?_, fun {q} cx b cx' hq hrun heq => ?_⟩
    · rw [sys.run_memo] at heq
      refine memo_extends h hp (fun hrun heq => ?_) hrun heq
      exact runProg_extends hstable hmemo hcall _ (h.scope_predicate p hp) hrun heq
    · rw [sys.run_call] at heq
      exact runProg_extends hstable hmemo hcall _ (h.scope_body q hq) hrun heq

/-! ## Outermost questions -/

/-- After the outermost *yes* all the records of the stack are empty. -/
theorem sound_finish_true {cx : MemoContext σ κ} (h : cx.Sound T F) {new : List κ} {k : κ}
    (hstack : cx.memoStack = k :: new) (hempty : ∀ j ∈ cx.memoStack, j ∈ T) :
    (cx.finish k 0 true).Sound T F := by
  obtain ⟨-, hstk, hself, hother⟩ :=
    @MemoContext.finish_spec _ _ _ cx [] new k true hstack (.inr rfl)
  have hnotPending : ∀ j, ¬ ((cx.finish k 0 true).memo j).Pending := by
    intro j hp
    by_cases hjk : j = k
    · subst hjk
      rw [List.length_nil] at hself
      rw [hself] at hp
      split at hp <;> exact hp
    · rw [List.length_nil] at hother
      rw [hother j hjk] at hp
      by_cases hnew : j ∈ new
      · rw [if_pos hnew] at hp
        cases hm : cx.memo j <;> rw [hm] at hp <;> exact hp
      · rw [if_neg hnew, ← h.mem_stack j, hstack] at hp
        rcases List.mem_cons.mp hp with heq | hmem
        · exact hjk heq
        · exact hnew hmem
  refine ⟨?_, fun j => ?_, fun j hj => ?_, fun j hj => ?_⟩
  · rw [List.length_nil] at hstk
    rw [hstk]
    exact List.nodup_nil
  · rw [List.length_nil] at hstk
    rw [hstk]
    exact iff_of_false (by simp) (hnotPending j)
  · by_cases hmem : j ∈ cx.memoStack
    · exact hempty j hmem
    · rw [hstack] at hmem
      rw [List.length_nil] at hother
      rw [hother j fun heq => hmem (by simp [heq]),
        if_neg fun hnew => hmem (by simp [hnew])] at hj
      exact h.empty j hj
  · by_cases hjk : j = k
    · subst hjk
      rw [List.length_nil] at hself
      rw [hself] at hj
      split at hj <;> simp at hj
    · rw [List.length_nil] at hother
      rw [hother j hjk] at hj
      by_cases hnew : j ∈ new
      · rw [if_pos hnew] at hj
        have hpend := (h.mem_stack j).mp (by rw [hstack]; simp [hnew])
        cases hm : cx.memo j <;> rw [hm] at hj hpend <;>
          first | exact hpend.elim | simp [MemoContext.resolved] at hj
      · rw [if_neg hnew] at hj
        exact h.inhabited j hj

/-- A context between two queries. -/
structure Idle (sys : System σ ι ν π ρ κ) (s0 : σ) (T F : Set κ)
    (cx : MemoContext σ κ) : Prop where
  grown : sys.Grown s0 cx.env
  sound : cx.Sound T F
  stack : cx.memoStack = []

/-- An outermost memoised question is answered right. -/
theorem memo_idle (hstable : sys.Stable) (h : Verdicts sys s0 P Q T F) {fuel : Nat} {p : π}
    (hp : P p) {cx cx' : MemoContext σ κ} {b : Bool} (hidle : Idle sys s0 T F cx)
    (heq : sys.run fuel (.inl p) cx = .done b cx') :
    Idle sys s0 T F cx' ∧ sys.Grown cx.env cx'.env ∧
      (if b then sys.key p ∈ T else sys.key p ∈ F) := by
  cases fuel with
  | zero => cases heq
  | succ fuel =>
    rw [sys.run_memo] at heq
    unfold memoSubtypeIsEmpty at heq
    have hpending : ¬ (cx.memo (sys.key p)).Pending := by
      rw [← hidle.sound.mem_stack, hidle.stack]
      simp
    split at heq
    next hm =>
      cases heq
      exact ⟨hidle, .refl, hidle.sound.empty _ (.inr hm)⟩
    next res hm =>
      cases heq
      refine ⟨hidle, .refl, ?_⟩
      cases b with
      | true => exact hidle.sound.empty _ (.inl hm)
      | false => exact hidle.sound.inhabited _ hm
    next hm => exact absurd (by rw [hm]; trivial) hpending
    next hm => exact absurd (by rw [hm]; trivial) hpending
    next hm =>
      obtain ⟨r, cx2, hr, heq⟩ := Outcome.andThen_eq_done heq
      cases heq
      have hpush : Running sys s0 T F (pushed cx (sys.key p)) :=
        ⟨hidle.grown, sound_pushed hidle.sound hm, by simp [pushed]⟩
      obtain ⟨hmemo, hcall⟩ := run_extends hstable h fuel
      obtain ⟨new, hext, hrest⟩ := runProg_extends hstable hmemo hcall _
        (h.scope_predicate p hp) hpush hr
      have hstack : cx2.memoStack = [] ++ sys.key p :: new := by
        rw [hext.stack]
        simp [pushed, hidle.stack]
      have hgrown : sys.Grown s0 cx2.env := hpush.grown.trans hext.grown
      have hdepth : cx.memoStack.length = 0 := by rw [hidle.stack]; rfl
      rw [hdepth]
      obtain ⟨henv, hstk, -, -⟩ :=
        @MemoContext.finish_spec _ _ _ cx2 [] new (sys.key p) b hstack (.inr rfl)
      have hgrown' : sys.Grown cx.env (cx2.finish (sys.key p) 0 b).env := by
        rw [List.length_nil] at henv
        rw [henv]
        exact hext.grown
      cases b with
      | false =>
        have hinh := h.no hp hgrown hext.sound hrest
        exact ⟨⟨hidle.grown.trans hgrown', sound_finish_false hext.sound hstack hinh, hstk⟩,
          hgrown', hinh⟩
      | true =>
        have hempty := h.yes hgrown hext.sound fun k hk => by
          rw [hstack] at hk
          rcases List.mem_cons.mp hk with rfl | hk
          · exact ⟨p, hp, rfl, hrest⟩
          · exact hext.justified k hk
        refine ⟨⟨hidle.grown.trans hgrown', sound_finish_true hext.sound hstack hempty, hstk⟩,
          hgrown', hempty _ ?_⟩
        rw [hstack]
        simp

/-- A program started between queries ends between queries, and returns what it returns
for the keys in `T` if `F` are the others. -/
theorem runProg_idle (hstable : sys.Stable) (h : Verdicts sys s0 P Q T F) {fuel : Nat}
    (hcall : ∀ {q cx b cx'}, Q q → Idle sys s0 T F cx → sys.run fuel (.inr q) cx = .done b cx' →
      Idle sys s0 T F cx' ∧ sys.Grown cx.env cx'.env ∧
        ∀ s, sys.Grown cx'.env s → (∀ k ∈ F, k ∉ T) → sys.Returns s T (sys.body q) b)
    {α : Type} {post : α → Prop} : ∀ (x : Prog ι ν π ρ α) {cx cx' : MemoContext σ κ} {a : α},
      x.Within (sys.Named s0) P Q post → Idle sys s0 T F cx →
      sys.runProg fuel x cx = .done a cx' →
        Idle sys s0 T F cx' ∧ sys.Grown cx.env cx'.env ∧
          ∀ s, sys.Grown cx'.env s → (∀ k ∈ F, k ∉ T) → sys.Returns s T x a
  | .pure a, cx, cx', a', _, hidle, heq => by
    cases heq
    exact ⟨hidle, .refl, fun s _ _ => .pure a⟩
  | .panic, cx, cx', a', _, _, heq => by cases heq
  | .intern c k, cx, cx', a', hw, hidle, heq => by
    have hidle' : Idle sys s0 T F (sys.internCx c cx).2 :=
      ⟨hidle.grown.tail ⟨c, rfl⟩, (extends_internCx (P := P) hidle.sound c).sound, hidle.stack⟩
    obtain ⟨hend, hgrown, hret⟩ := runProg_idle hstable h hcall (k (sys.internCx c cx).1)
      (hw _ ⟨cx.env, hidle.grown, rfl⟩) hidle' heq
    refine ⟨hend, .head ⟨c, rfl⟩ hgrown, fun s hs hTF => .intern ?_⟩
    rw [hstable c cx.env s (hgrown.trans hs)]
    exact hret s hs hTF
  | .memo p k, cx, cx', a', hw, hidle, heq => by
    rw [sys.runProg_memo] at heq
    obtain ⟨b, cx1, hr, heq⟩ := Outcome.andThen_eq_done heq
    obtain ⟨hidle1, hgrown1, hans⟩ := memo_idle hstable h hw.1 hidle hr
    obtain ⟨hend, hgrown, hret⟩ := runProg_idle hstable h hcall (k b) (hw.2 b) hidle1 heq
    refine ⟨hend, hgrown1.trans hgrown, fun s hs hTF => ?_⟩
    cases b with
    | true => exact .memoTrue hans (hret s hs hTF)
    | false => exact .memoFalse (hTF _ hans) (hret s hs hTF)
  | .call q k, cx, cx', a', hw, hidle, heq => by
    rw [sys.runProg_call] at heq
    obtain ⟨b, cx1, hr, heq⟩ := Outcome.andThen_eq_done heq
    obtain ⟨hidle1, hgrown1, hbody⟩ := hcall hw.1 hidle hr
    obtain ⟨hend, hgrown, hret⟩ := runProg_idle hstable h hcall (k b) (hw.2 b) hidle1 heq
    exact ⟨hend, hgrown1.trans hgrown, fun s hs hTF =>
      .call (hbody s (hgrown.trans hs) hTF) (hret s hs hTF)⟩

theorem call_idle (hstable : sys.Stable) (h : Verdicts sys s0 P Q T F) : ∀ (fuel : Nat)
    {q : ρ} {cx cx' : MemoContext σ κ} {b : Bool}, Q q → Idle sys s0 T F cx →
      sys.run fuel (.inr q) cx = .done b cx' →
      Idle sys s0 T F cx' ∧ sys.Grown cx.env cx'.env ∧
        ∀ s, sys.Grown cx'.env s → (∀ k ∈ F, k ∉ T) → sys.Returns s T (sys.body q) b
  | 0, _, _, _, _, _, _, heq => by cases heq
  | fuel + 1, q, cx, cx', b, hq, hidle, heq => by
    rw [sys.run_call] at heq
    exact runProg_idle hstable h (call_idle hstable h fuel) _ (h.scope_body q hq) hidle heq

end Contexts

/-! ## Right answers -/

section Right

variable {sys : System σ ι ν π ρ κ} {s0 : σ} {P : π → Prop} {Q : ρ → Prop}
  {val : κ → Nat → Prop}

theorem admits_of_sound {cx : MemoContext σ κ} (h : cx.Sound (emptyKeys val) (emptyKeys val)ᶜ) :
    cx.Admits (cx.Assumed ∪ emptyKeys val) := by
  refine ⟨fun k hk => .inl hk, fun k hk hmem => ?_⟩
  have hfalse : cx.memo k = .known false := hk
  rcases hmem with hassumed | hempty
  · rcases hassumed with hp | ht | hc
    · rw [hfalse] at hp
      exact hp
    · exact absurd (hfalse.symm.trans ht) (by simp)
    · exact absurd (hfalse.symm.trans hc) (by simp)
  · exact h.inhabited k hfalse hempty

/-- When every record of the stack is justified, every one of them is empty. -/
theorem empty_of_justified (h : sys.Exact s0 P Q val) {cx : MemoContext σ κ}
    (hg : sys.Grown s0 cx.env) (hs : cx.Sound (emptyKeys val) (emptyKeys val)ᶜ)
    (hj : ∀ k ∈ cx.memoStack, Justified sys P cx k) :
    ∀ k ∈ cx.memoStack, k ∈ emptyKeys val := by
  have hsub : cx.Assumed ∪ emptyKeys val ⊆ emptyKeys val := by
    refine empty_of_returns h hg fun k hk => ?_
    rcases hk with (hp | hf) | hempty
    · obtain ⟨p, hp, hkey, hret⟩ := hj k ((hs.mem_stack k).mpr hp)
      exact .inr ⟨p, hp, hkey, hret cx.env .refl _ (admits_of_sound hs)⟩
    · exact .inl (hs.empty k hf)
    · exact .inl hempty
  exact fun k hk => hsub (.inl (.inl ((hs.mem_stack k).mp hk)))

theorem System.Exact.verdicts (h : sys.Exact s0 P Q val) :
    Verdicts sys s0 P Q (emptyKeys val) (emptyKeys val)ᶜ where
  scope_predicate := h.scope_predicate
  scope_body := h.scope_body
  no hp hg hs hrest := inhabited_of_returns h hp hg (fun _ hk => .inr hk)
    (hrest _ .refl _ (admits_of_sound hs))
  yes hg hs hj := empty_of_justified h hg hs hj

end Right

end Nballerina.Types
