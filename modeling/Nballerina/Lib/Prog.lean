import Mathlib.Data.Set.Basic

/-!
# Programs that ask questions

A decision procedure whose recursion is not structural can still be written as a
total function: instead of calling itself it returns a tree of the questions it
would ask. `Prog` is such a tree. A question is either *memoised* or a plain
*call*, both are answered by a `Bool`; besides, a program may *intern* a value.

Four readings of a tree are given:
- `exec` runs it against handlers that pass a state and may run out of fuel;
- `Evals φ E` says what it returns when memoised questions are answered from the
  set `E`, calls are unfolded, and `φ` names interned values;
- `Within` says that every question in it, whatever the answers, is in a scope;
- `Ensures` says what it returns, without fail, when its questions are answered in a
  certain way.

`Evals` is a function of what was asked (`Evals.congr_on`), and a run whose
answers all come from `E` is an evaluation (`exec` is tied to `Evals` by whoever
gives the handlers).
-/

namespace Nballerina.Lib

/-- A program: `ι` are the values it interns, `ν` what it gets for them, `π` and `ρ`
the memoised and the plain questions. -/
inductive Prog (ι ν π ρ α : Type) where
  | pure (a : α)
  | panic
  | intern (c : ι) (k : ν → Prog ι ν π ρ α)
  | memo (p : π) (k : Bool → Prog ι ν π ρ α)
  | call (q : ρ) (k : Bool → Prog ι ν π ρ α)

/-- How a run ends. -/
inductive Outcome (S α : Type) where
  | done (a : α) (s : S)
  | panic
  | timeout

/-- Goes on with what a run returned. -/
def Outcome.andThen {S α β : Type} (o : Outcome S α) (f : α → S → Outcome S β) : Outcome S β :=
  match o with
  | .done a s => f a s
  | .panic => .panic
  | .timeout => .timeout

theorem Outcome.andThen_eq_done {S α β : Type} {o : Outcome S α} {f : α → S → Outcome S β}
    {b : β} {s' : S} (h : o.andThen f = .done b s') : ∃ a s, o = .done a s ∧ f a s = .done b s' := by
  cases o with
  | done a s => exact ⟨a, s, rfl, h⟩
  | panic => cases h
  | timeout => cases h

namespace Prog

variable {ι ν π ρ α β S : Type}

def bind : Prog ι ν π ρ α → (α → Prog ι ν π ρ β) → Prog ι ν π ρ β
  | .pure a, f => f a
  | .panic, _ => .panic
  | .intern c k, f => .intern c fun v => (k v).bind f
  | .memo p k, f => .memo p fun b => (k b).bind f
  | .call q k, f => .call q fun b => (k b).bind f

instance : Monad (Prog ι ν π ρ) where
  pure := .pure
  bind := .bind

@[simp] theorem pure_eq (a : α) : (Pure.pure a : Prog ι ν π ρ α) = .pure a := rfl

@[simp] theorem bind_eq (x : Prog ι ν π ρ α) (f : α → Prog ι ν π ρ β) : x >>= f = x.bind f := rfl

@[simp] theorem pure_bind (a : α) (f : α → Prog ι ν π ρ β) :
    (Prog.pure a : Prog ι ν π ρ α).bind f = f a := rfl

/-- A value that may be missing; `none` is a panic. -/
def ofOption : Option α → Prog ι ν π ρ α
  | some a => .pure a
  | none => .panic

/-- Runs a program, given how the state answers. -/
def exec (intern : ι → S → ν × S) (memo : π → S → Outcome S Bool)
    (call : ρ → S → Outcome S Bool) : Prog ι ν π ρ α → S → Outcome S α
  | .pure a, s => .done a s
  | .panic, _ => .panic
  | .intern c k, s => (k (intern c s).1).exec intern memo call (intern c s).2
  | .memo p k, s => (memo p s).andThen fun b s' => (k b).exec intern memo call s'
  | .call q k, s => (call q s).andThen fun b s' => (k b).exec intern memo call s'

/-- A run of a sequence is the runs in sequence. -/
theorem exec_bind {intern : ι → S → ν × S} {memo : π → S → Outcome S Bool}
    {call : ρ → S → Outcome S Bool} (f : α → Prog ι ν π ρ β) :
    ∀ (x : Prog ι ν π ρ α) (s : S), (x.bind f).exec intern memo call s =
      (x.exec intern memo call s).andThen fun a s => (f a).exec intern memo call s
  | .pure _, _ => rfl
  | .panic, _ => rfl
  | .intern _ k, _ => exec_bind f (k _) _
  | .memo p k, s => by
    simp only [bind, exec]
    cases memo p s with
    | done b s' => exact exec_bind f (k b) s'
    | panic => rfl
    | timeout => rfl
  | .call q k, s => by
    simp only [bind, exec]
    cases call q s with
    | done b s' => exact exec_bind f (k b) s'
    | panic => rfl
    | timeout => rfl

/-- What a program returns when the memoised question `p` is answered by whether its key
is in `E`, a call by what its body returns, and `c` is interned as `φ c`. -/
inductive Evals {κ : Type} (key : π → κ) (body : ρ → Prog ι ν π ρ Bool) (φ : ι → ν)
    (E : Set κ) : {α : Type} → Prog ι ν π ρ α → α → Prop where
  | pure {α : Type} (a : α) : Evals key body φ E (.pure a) a
  | intern {α : Type} {c : ι} {k : ν → Prog ι ν π ρ α} {a : α} :
      Evals key body φ E (k (φ c)) a → Evals key body φ E (.intern c k) a
  | memoTrue {α : Type} {p : π} {k : Bool → Prog ι ν π ρ α} {a : α} : key p ∈ E →
      Evals key body φ E (k true) a → Evals key body φ E (.memo p k) a
  | memoFalse {α : Type} {p : π} {k : Bool → Prog ι ν π ρ α} {a : α} : key p ∉ E →
      Evals key body φ E (k false) a → Evals key body φ E (.memo p k) a
  | call {α : Type} {q : ρ} {k : Bool → Prog ι ν π ρ α} {b : Bool} {a : α} :
      Evals key body φ E (body q) b → Evals key body φ E (k b) a →
      Evals key body φ E (.call q k) a

namespace Evals

variable {κ : Type} {key : π → κ} {body : ρ → Prog ι ν π ρ Bool} {φ : ι → ν} {E : Set κ}

/-- Only finitely many keys are looked at. -/
theorem congr_on {x : Prog ι ν π ρ α} {a : α} (h : Evals key body φ E x a) :
    ∃ A : List κ, ∀ E' : Set κ, (∀ k ∈ A, k ∈ E' ↔ k ∈ E) → Evals key body φ E' x a := by
  induction h with
  | pure a => exact ⟨[], fun E' _ => .pure a⟩
  | intern _ ih =>
    obtain ⟨A, hA⟩ := ih
    exact ⟨A, fun E' hE' => .intern (hA E' hE')⟩
  | @memoTrue _ p _ _ hp _ ih =>
    obtain ⟨A, hA⟩ := ih
    refine ⟨key p :: A, fun E' hE' => .memoTrue ((hE' _ (.head _)).mpr hp) ?_⟩
    exact hA E' fun k hk => hE' k (.tail _ hk)
  | @memoFalse _ p _ _ hp _ ih =>
    obtain ⟨A, hA⟩ := ih
    refine ⟨key p :: A, fun E' hE' => .memoFalse (fun hmem => hp ?_) ?_⟩
    · exact (hE' _ (.head _)).mp hmem
    · exact hA E' fun k hk => hE' k (.tail _ hk)
  | call _ _ ihq ihk =>
    obtain ⟨A, hA⟩ := ihq
    obtain ⟨B, hB⟩ := ihk
    refine ⟨A ++ B, fun E' hE' => .call (hA E' ?_) (hB E' ?_)⟩
    · exact fun k hk => hE' k (List.mem_append_left _ hk)
    · exact fun k hk => hE' k (List.mem_append_right _ hk)

end Evals

/-- Every question the program may ask, whatever the answers, is in the scope, and what
it returns satisfies `post`; `R c v` is what is known of the name `v` of an interned
`c`. -/
def Within (R : ι → ν → Prop) (P : π → Prop) (Q : ρ → Prop) (post : α → Prop) :
    Prog ι ν π ρ α → Prop
  | .pure a => post a
  | .panic => True
  | .intern c k => ∀ v, R c v → (k v).Within R P Q post
  | .memo p k => P p ∧ ∀ b, (k b).Within R P Q post
  | .call q k => Q q ∧ ∀ b, (k b).Within R P Q post

variable {R : ι → ν → Prop} {P : π → Prop} {Q : ρ → Prop}

theorem Within.bind {post : α → Prop} {post' : β → Prop} :
    ∀ {x : Prog ι ν π ρ α} {f : α → Prog ι ν π ρ β}, x.Within R P Q post →
      (∀ a, post a → (f a).Within R P Q post') → (x.bind f).Within R P Q post'
  | .pure a, _, hx, hf => hf a hx
  | .panic, _, _, _ => trivial
  | .intern _ _, _, hx, hf => fun v hv => (hx v hv).bind hf
  | .memo _ _, _, hx, hf => ⟨hx.1, fun b => (hx.2 b).bind hf⟩
  | .call _ _, _, hx, hf => ⟨hx.1, fun b => (hx.2 b).bind hf⟩

theorem Within.mono {Q' : ρ → Prop} {post : α → Prop} (hQ : ∀ q, Q q → Q' q) :
    ∀ {x : Prog ι ν π ρ α}, x.Within R P Q post → x.Within R P Q' post
  | .pure _, hx => hx
  | .panic, _ => trivial
  | .intern _ _, hx => fun v hv => (hx v hv).mono hQ
  | .memo _ _, hx => ⟨hx.1, fun b => (hx.2 b).mono hQ⟩
  | .call q _, hx => ⟨hQ q hx.1, fun b => (hx.2 b).mono hQ⟩

/-- Less may be known of the names. -/
theorem Within.of_names {R' : ι → ν → Prop} {post : α → Prop} (hR : ∀ c v, R' c v → R c v) :
    ∀ {x : Prog ι ν π ρ α}, x.Within R P Q post → x.Within R' P Q post
  | .pure _, hx => hx
  | .panic, _ => trivial
  | .intern c _, hx => fun v hv => (hx v (hR c v hv)).of_names hR
  | .memo _ _, hx => ⟨hx.1, fun b => (hx.2 b).of_names hR⟩
  | .call _ _, hx => ⟨hx.1, fun b => (hx.2 b).of_names hR⟩

/-! ## What a program returns for certain -/

/-- The program asks only calls in `Q`, and with every name and every answer it may get
(`R c v`, `A q b`) it returns a value that satisfies `post`. -/
def Ensures (R : ι → ν → Prop) (Q : ρ → Prop) (A : ρ → Bool → Prop) (post : α → Prop) :
    Prog ι ν π ρ α → Prop
  | .pure a => post a
  | .panic => False
  | .intern c k => ∀ v, R c v → (k v).Ensures R Q A post
  | .memo _ _ => False
  | .call q k => Q q ∧ ∀ b, A q b → (k b).Ensures R Q A post

variable {A : ρ → Bool → Prop}

theorem Ensures.bind {post : α → Prop} {post' : β → Prop} :
    ∀ {x : Prog ι ν π ρ α} {f : α → Prog ι ν π ρ β}, x.Ensures R Q A post →
      (∀ a, post a → (f a).Ensures R Q A post') → (x.bind f).Ensures R Q A post'
  | .pure a, _, hx, hf => hf a hx
  | .intern _ _, _, hx, hf => fun v hv => (hx v hv).bind hf
  | .call _ _, _, hx, hf => ⟨hx.1, fun b hb => (hx.2 b hb).bind hf⟩

theorem Ensures.imp {post post' : α → Prop} (h : ∀ a, post a → post' a) :
    ∀ {x : Prog ι ν π ρ α}, x.Ensures R Q A post → x.Ensures R Q A post'
  | .pure a, hx => h a hx
  | .intern _ _, hx => fun v hv => (hx v hv).imp h
  | .call _ _, hx => ⟨hx.1, fun b hb => (hx.2 b hb).imp h⟩

theorem Ensures.ofOption {post : β → Prop} {x : Option α} {a : α} (hx : x = some a)
    {f : α → Prog ι ν π ρ β} (h : (f a).Ensures R Q A post) :
    ((Prog.ofOption x).bind f).Ensures R Q A post := by
  subst hx
  exact h

/-- Handlers that keep to what is known of them make the program return. -/
theorem Ensures.exec {intern : ι → S → ν × S} {memo : π → S → Outcome S Bool}
    {call : ρ → S → Outcome S Bool} (hintern : ∀ c s, R c (intern c s).1)
    (hcall : ∀ q s, Q q → ∃ b s', call q s = .done b s' ∧ A q b) {post : α → Prop} :
    ∀ {x : Prog ι ν π ρ α} (s : S), x.Ensures R Q A post →
      ∃ a s', x.exec intern memo call s = .done a s' ∧ post a
  | .pure a, s, hx => ⟨a, s, rfl, hx⟩
  | .intern c k, s, hx => (hx _ (hintern c s)).exec hintern hcall (intern c s).2
  | .call q k, s, hx => by
    obtain ⟨b, s', hdone, hb⟩ := hcall q s hx.1
    obtain ⟨a, s'', hexec, ha⟩ : ∃ a s'', (k b).exec intern memo call s' = .done a s'' ∧
        post a := (hx.2 b hb).exec hintern hcall s'
    refine ⟨a, s'', ?_, ha⟩
    rw [Prog.exec, hdone]
    exact hexec

end Prog

end Nballerina.Lib
