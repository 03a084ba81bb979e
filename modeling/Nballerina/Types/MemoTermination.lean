import Mathlib.Data.Finset.Card
import Nballerina.Types.MemoSound

/-!
# Memoised recursion terminates

Fuel bounds how deep calls are nested, so a query terminates when the depth is
bounded. Two things bound it (`Bounded`). The keys that can be asked for are finitely
many, and a predicate is only called for a key that is not on the stack, which it is
then: along a chain of nested calls each key is opened at most once. Between two of
them come plain calls, and these go down in rank.
-/

namespace Nballerina.Types

open Nballerina.Lib

variable {σ ι ν π ρ κ : Type} [DecidableEq κ]

/-- The memoised questions in `P` have keys in `K`; the rank of plain calls goes down,
and starts at most at `maxRank` in a predicate. `C r q` says that `q` has rank `r`. -/
structure Bounded (sys : System σ ι ν π ρ κ) (s0 : σ) (P : π → Prop) (C : Nat → ρ → Prop)
    (maxRank : Nat) (K : Finset κ) : Prop where
  predicate : ∀ p, P p → (sys.predicate p).Within (sys.Named s0) P
    (fun q => ∃ r ≤ maxRank, C r q) fun _ => True
  body : ∀ r q, C r q → (sys.body q).Within (sys.Named s0) P
    (fun q' => ∃ r' < r, C r' q') fun _ => True
  key : ∀ p, P p → sys.key p ∈ K

variable {sys : System σ ι ν π ρ κ} {s0 : σ} {P : π → Prop} {C : Nat → ρ → Prop}
  {maxRank : Nat} {K : Finset κ}

omit [DecidableEq κ] in
/-- Nothing has to be known of the answers here. -/
theorem Bounded.verdicts (h : Bounded sys s0 P C maxRank K) :
    Verdicts sys s0 P (fun q => ∃ r, C r q) Set.univ Set.univ where
  scope_predicate p hp := (h.predicate p hp).mono fun _ hq => ⟨_, hq.choose_spec.2⟩
  scope_body q hq := (h.body _ q hq.choose_spec).mono fun _ hq' => ⟨_, hq'.choose_spec.2⟩
  no _ _ _ _ := trivial
  yes _ _ _ _ _ := trivial

/-- The number of keys that are not on the stack. -/
def remaining (K : Finset κ) (cx : MemoContext σ κ) : Nat :=
  (K.filter fun k => k ∉ cx.memoStack).card

/-- Fuel for a memoised question with `m` keys remaining. -/
def budget (maxRank m : Nat) : Nat := (m + 1) * (maxRank + 2)

theorem budget_succ (maxRank m : Nat) :
    budget maxRank (m + 1) = budget maxRank m + (maxRank + 2) := by
  unfold budget
  rw [Nat.succ_mul (m + 1)]

/-- A context in which at most `m` keys can still be opened, now and later on this level. -/
def Open (sys : System σ ι ν π ρ κ) (s0 : σ) (K : Finset κ) (m : Nat) (cx : MemoContext σ κ) :
    Prop :=
  (Running sys s0 Set.univ Set.univ cx ∧ remaining K cx ≤ m) ∨
    (Idle sys s0 Set.univ Set.univ cx ∧ K.card ≤ m)

theorem remaining_le_card (K : Finset κ) (cx : MemoContext σ κ) : remaining K cx ≤ K.card :=
  Finset.card_filter_le _ _

theorem Open.remaining_le {m : Nat} {cx : MemoContext σ κ} (h : Open sys s0 K m cx) :
    remaining K cx ≤ m := by
  rcases h with ⟨-, hm⟩ | ⟨-, hm⟩
  · exact hm
  · exact (remaining_le_card K cx).trans hm

theorem Open.grown {m : Nat} {cx : MemoContext σ κ} (h : Open sys s0 K m cx) :
    sys.Grown s0 cx.env := by
  rcases h with ⟨h, -⟩ | ⟨h, -⟩
  · exact h.grown
  · exact h.grown

theorem Open.sound {m : Nat} {cx : MemoContext σ κ} (h : Open sys s0 K m cx) :
    cx.Sound Set.univ Set.univ := by
  rcases h with ⟨h, -⟩ | ⟨h, -⟩
  · exact h.sound
  · exact h.sound

/-- A longer stack leaves fewer keys. -/
theorem remaining_anti {cx cx' : MemoContext σ κ} (h : ∀ k ∈ cx.memoStack, k ∈ cx'.memoStack) :
    remaining K cx' ≤ remaining K cx := by
  refine Finset.card_le_card fun k hk => ?_
  obtain ⟨hK, hnot⟩ := Finset.mem_filter.mp hk
  exact Finset.mem_filter.mpr ⟨hK, fun hmem => hnot (h k hmem)⟩

/-- Opening a key uses it up. -/
theorem remaining_pushed {cx : MemoContext σ κ} {k : κ} (hK : k ∈ K) (hk : k ∉ cx.memoStack) :
    remaining K (pushed cx k) + 1 ≤ remaining K cx := by
  refine Finset.card_lt_card ?_
  refine Finset.ssubset_iff_subset_ne.mpr ⟨fun j hj => ?_, fun heq => ?_⟩
  · obtain ⟨hjK, hnot⟩ := Finset.mem_filter.mp hj
    exact Finset.mem_filter.mpr ⟨hjK, fun hmem => hnot (List.mem_append_left _ hmem)⟩
  · have hmem : k ∈ K.filter fun j => j ∉ cx.memoStack := Finset.mem_filter.mpr ⟨hK, hk⟩
    rw [← heq] at hmem
    exact (Finset.mem_filter.mp hmem).2 (List.mem_append_right _ (List.mem_singleton_self k))

/-- A question in scope leaves the level as it was. -/
theorem Open.after (hstable : sys.Stable) (h : Bounded sys s0 P C maxRank K) {m fuel : Nat}
    {cx cx' : MemoContext σ κ} {b : Bool} (ho : Open sys s0 K m cx) :
    (∀ p, P p → sys.run fuel (.inl p) cx = .done b cx' → Open sys s0 K m cx') ∧
      ∀ q, (∃ r, C r q) → sys.run fuel (.inr q) cx = .done b cx' → Open sys s0 K m cx' := by
  have hstep : ∀ {new}, Extends sys P Set.univ Set.univ cx cx' new →
      Running sys s0 Set.univ Set.univ cx → remaining K cx ≤ m → Open sys s0 K m cx' := by
    intro new hext hrun hm
    refine Or.inl ⟨hrun.extend hext, (remaining_anti fun k hk => ?_).trans hm⟩
    rw [hext.stack]
    exact List.mem_append_left _ hk
  rcases ho with ⟨hrun, hm⟩ | ⟨hidle, hm⟩
  · obtain ⟨hmemo, hcall⟩ := run_extends hstable h.verdicts fuel
    refine ⟨fun p hp heq => ?_, fun q hq heq => ?_⟩
    · obtain ⟨new, hext, -⟩ := hmemo hp hrun heq
      exact hstep hext hrun hm
    · obtain ⟨new, hext, -⟩ := hcall hq hrun heq
      exact hstep hext hrun hm
  · refine ⟨fun p hp heq => Or.inr ⟨?_, hm⟩, fun q hq heq => Or.inr ⟨?_, hm⟩⟩
    · exact (memo_idle hstable h.verdicts hp hidle heq).1
    · exact (call_idle hstable h.verdicts fuel hq hidle heq).1

theorem andThen_ne_timeout {S α β : Type} {o : Outcome S α} {f : α → S → Outcome S β}
    (ho : o ≠ .timeout) (hf : ∀ a s, o = .done a s → f a s ≠ .timeout) :
    o.andThen f ≠ .timeout := by
  cases o with
  | done a s => exact hf a s rfl
  | panic => exact fun h => by cases h
  | timeout => exact absurd rfl ho

/-- A program does not run out of fuel if none of its questions does. -/
theorem runProg_ne_timeout (hstable : sys.Stable) (h : Bounded sys s0 P C maxRank K)
    {m fuel : Nat} {Q : ρ → Prop} (hQ : ∀ q, Q q → ∃ r, C r q)
    (hmemo : ∀ p cx, P p → Open sys s0 K m cx → sys.run fuel (.inl p) cx ≠ .timeout)
    (hcall : ∀ q cx, Q q → Open sys s0 K m cx → sys.run fuel (.inr q) cx ≠ .timeout)
    {α : Type} {post : α → Prop} : ∀ (x : Prog ι ν π ρ α) (cx : MemoContext σ κ),
      x.Within (sys.Named s0) P Q post → Open sys s0 K m cx →
      sys.runProg fuel x cx ≠ .timeout
  | .pure _, _, _, _ => fun heq => by cases heq
  | .panic, _, _, _ => fun heq => by cases heq
  | .intern c k, cx, hw, ho => by
    have ho' : Open sys s0 K m (sys.internCx c cx).2 := by
      have hext : Extends sys P Set.univ Set.univ cx (sys.internCx c cx).2 [] :=
        extends_internCx ho.sound c
      have hsound := hext.sound
      rcases ho with ⟨hrun, hm⟩ | ⟨hidle, hm⟩
      · exact Or.inl ⟨⟨hrun.grown.tail ⟨c, rfl⟩, hsound, hrun.nested⟩, hm⟩
      · exact Or.inr ⟨⟨hidle.grown.tail ⟨c, rfl⟩, hsound, hidle.stack⟩, hm⟩
    exact runProg_ne_timeout hstable h hQ hmemo hcall (k _) _ (hw _ ⟨cx.env, ho.grown, rfl⟩) ho'
  | .memo p k, cx, hw, ho => by
    rw [sys.runProg_memo]
    refine andThen_ne_timeout (hmemo p cx hw.1 ho) fun b cx' heq => ?_
    exact runProg_ne_timeout hstable h hQ hmemo hcall (k b) cx' (hw.2 b)
      ((ho.after hstable h).1 p hw.1 heq)
  | .call q k, cx, hw, ho => by
    rw [sys.runProg_call]
    refine andThen_ne_timeout (hcall q cx hw.1 ho) fun b cx' heq => ?_
    exact runProg_ne_timeout hstable h hQ hmemo hcall (k b) cx' (hw.2 b)
      ((ho.after hstable h).2 q (hQ q hw.1) heq)

/-- With enough fuel for the keys that remain, no question runs out of it. -/
theorem run_ne_timeout (hstable : sys.Stable) (h : Bounded sys s0 P C maxRank K) :
    ∀ (fuel m : Nat) (cx : MemoContext σ κ), Open sys s0 K m cx →
      (∀ p, P p → budget maxRank m ≤ fuel → sys.run fuel (.inl p) cx ≠ .timeout) ∧
      ∀ r q, C r q → budget maxRank m + r + 1 ≤ fuel → sys.run fuel (.inr q) cx ≠ .timeout
  | 0, m, cx, _ => by
    have hpos : 0 < budget maxRank m := Nat.mul_pos (Nat.succ_pos m) (Nat.succ_pos _)
    refine ⟨fun p _ hle => ?_, fun r q _ hle => ?_⟩
    · omega
    · omega
  | fuel + 1, m, cx, ho => by
    refine ⟨fun p hp hle => ?_, fun r q hq hle => ?_⟩
    · rw [sys.run_memo]
      unfold memoSubtypeIsEmpty
      split
      next => exact fun heq => by cases heq
      next => exact fun heq => by cases heq
      next => exact fun heq => by cases heq
      next => exact fun heq => by cases heq
      next hnil =>
        -- the key is opened, so one less remains below
        have hnot : sys.key p ∉ cx.memoStack := by
          rw [ho.sound.mem_stack, hnil]
          exact id
        have hlt := remaining_pushed (h.key p hp) hnot
        have hrem := ho.remaining_le
        obtain ⟨m, rfl⟩ : ∃ m', m = m' + 1 := ⟨m - 1, by omega⟩
        rw [budget_succ] at hle
        have ho' : Open sys s0 K m (pushed cx (sys.key p)) :=
          Or.inl ⟨⟨ho.grown, sound_pushed ho.sound hnil, by simp [pushed]⟩, by omega⟩
        refine andThen_ne_timeout ?_ fun _ _ _ heq => by cases heq
        refine runProg_ne_timeout hstable h (fun q hq => ⟨_, hq.choose_spec.2⟩)
          (fun p cx hp ho => ?_) (fun q cx hq ho => ?_) _ _ (h.predicate p hp) ho'
        · exact (run_ne_timeout hstable h fuel m cx ho).1 p hp (by omega)
        · obtain ⟨r, hr, hC⟩ := hq
          exact (run_ne_timeout hstable h fuel m cx ho).2 r q hC (by omega)
    · rw [sys.run_call]
      refine runProg_ne_timeout hstable h (fun q hq => ⟨_, hq.choose_spec.2⟩)
        (fun p cx hp ho => ?_) (fun q cx hq ho => ?_) _ _ (h.body r q hq) ho
      · exact (run_ne_timeout hstable h fuel m cx ho).1 p hp (by omega)
      · obtain ⟨r', hr', hC⟩ := hq
        exact (run_ne_timeout hstable h fuel m cx ho).2 r' q hC (by omega)

end Nballerina.Types
