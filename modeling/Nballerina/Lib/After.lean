/-!
# Code with a state that may fail

`ExceptT ε (StateM σ)` is code that writes to a state and may stop with an error; what it has
written by then stays written. `After m s ok err` says how the run of `m` from `s` ends: with a
value and a state that satisfy `ok`, or with an error and a state that satisfy `err`. The rules
below take it through the operations.
-/

namespace Nballerina.Lib

variable {ε σ α β : Type}

/-- How a run ends. -/
def After (m : ExceptT ε (StateM σ) α) (s : σ) (ok : α → σ → Prop) (err : ε → σ → Prop) : Prop :=
  match (m.run s : Except ε α × σ) with
  | (.ok a, s') => ok a s'
  | (.error e, s') => err e s'

variable {m : ExceptT ε (StateM σ) α} {f : α → ExceptT ε (StateM σ) β} {s : σ}
  {ok : α → σ → Prop} {err : ε → σ → Prop}

@[simp] theorem after_pure {a : α} :
    After (pure a : ExceptT ε (StateM σ) α) s ok err ↔ ok a s := Iff.rfl

@[simp] theorem after_throw {e : ε} :
    After (throw e : ExceptT ε (StateM σ) α) s ok err ↔ err e s := Iff.rfl

@[simp] theorem after_get {ok : σ → σ → Prop} :
    After (get : ExceptT ε (StateM σ) σ) s ok err ↔ ok s s := Iff.rfl

@[simp] theorem after_modify {g : σ → σ} {ok : PUnit → σ → Prop} :
    After (modify g : ExceptT ε (StateM σ) PUnit) s ok err ↔ ok ⟨⟩ (g s) := Iff.rfl

@[simp] theorem after_bind {ok : β → σ → Prop} :
    After (m >>= f) s ok err ↔ After m s (fun a s' => After (f a) s' ok err) err := by
  have hrun : ((m >>= f).run s : Except ε β × σ) =
      match (m.run s : Except ε α × σ) with
      | (.ok a, s') => ((f a).run s' : Except ε β × σ)
      | (.error e, s') => (.error e, s') := by
    show (ExceptT.bindCont f (m.run s : Except ε α × σ).1) (m.run s : Except ε α × σ).2 = _
    rcases (m.run s : Except ε α × σ) with ⟨r, s'⟩
    cases r <;> rfl
  unfold After
  rw [hrun]
  rcases (m.run s : Except ε α × σ) with ⟨r, s'⟩
  cases r <;> rfl

/-- What is weaker holds too. -/
theorem After.imp {ok' : α → σ → Prop} {err' : ε → σ → Prop} (h : After m s ok err)
    (hok : ∀ a s', ok a s' → ok' a s') (herr : ∀ e s', err e s' → err' e s') :
    After m s ok' err' := by
  unfold After at h ⊢
  generalize (m.run s : Except ε α × σ) = r at h ⊢
  obtain ⟨r, s'⟩ := r
  cases r with
  | ok a => exact hok a s' h
  | error e => exact herr e s' h

/-- The run of a sequence whose first part returned. -/
theorem run_bind_of_ok {a : α} {s' : σ} (hm : (m.run s : Except ε α × σ) = (.ok a, s')) :
    ((m >>= f).run s : Except ε β × σ) = (f a).run s' := by
  show (ExceptT.bindCont f (m.run s : Except ε α × σ).1) (m.run s : Except ε α × σ).2 = _
  rw [hm]
  rfl

/-- The rule for a sequence. -/
theorem After.bind {mid : α → σ → Prop} {ok : β → σ → Prop} (h : After m s mid err)
    (hf : ∀ a s', mid a s' → After (f a) s' ok err) : After (m >>= f) s ok err :=
  after_bind.mpr (h.imp hf fun _ _ h => h)

/-- The rule for a sequence whose first part does not fail. -/
theorem After.bindSafe {mid : α → σ → Prop} {ok : β → σ → Prop}
    (h : After m s mid fun _ _ => False) (hf : ∀ a s', mid a s' → After (f a) s' ok err) :
    After (m >>= f) s ok err :=
  after_bind.mpr (h.imp hf fun _ _ h => h.elim)

/-- Both of two things that hold. -/
theorem After.and {ok' : α → σ → Prop} {err' : ε → σ → Prop} (h : After m s ok err)
    (h' : After m s ok' err') :
    After m s (fun a s' => ok a s' ∧ ok' a s') (fun e s' => err e s' ∧ err' e s') := by
  unfold After at h h' ⊢
  generalize (m.run s : Except ε α × σ) = r at h h' ⊢
  obtain ⟨r, s'⟩ := r
  cases r with
  | ok a => exact ⟨h, h'⟩
  | error e => exact ⟨h, h'⟩

/-- A run that returned. -/
theorem After.of_ok {a : α} {s' : σ} (h : After m s ok err)
    (hrun : (m.run s : Except ε α × σ) = (.ok a, s')) : ok a s' := by
  unfold After at h
  rw [hrun] at h
  exact h

/-- The two ways a run ends. -/
theorem After.cases (h : After m s ok err) :
    (∃ a s', (m.run s : Except ε α × σ) = (.ok a, s') ∧ ok a s') ∨
      ∃ e s', (m.run s : Except ε α × σ) = (.error e, s') ∧ err e s' := by
  unfold After at h
  generalize (m.run s : Except ε α × σ) = r at h ⊢
  obtain ⟨r, s'⟩ := r
  cases r with
  | ok a => exact Or.inl ⟨a, s', rfl, h⟩
  | error e => exact Or.inr ⟨e, s', rfl, h⟩

end Nballerina.Lib
