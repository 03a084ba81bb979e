import Mathlib.Data.List.Forall2
import Mathlib.Order.Lattice

/-!
# Binary search

The loop that looks for a value in a sorted list, between two indices that come closer with each round. How the
value compares with a member of the list is a parameter, so that the list need only be sorted as far as the
comparison can see (`SortedFor`).
-/

namespace Nballerina.Lib

variable {α : Type}

/-- The search from `start` up to `stop`. The result is none if the loop reads outside the list. -/
def sortedSearch (compare : α → Ordering) (l : List α) (start stop : Nat) : Option Bool :=
  if _h : start < stop then
    match l[start + (stop - start) / 2]? with
    | none => none
    | some mid =>
      match compare mid with
      | .eq => some true
      | .lt => sortedSearch compare l start (start + (stop - start) / 2)
      | .gt => sortedSearch compare l (start + (stop - start) / 2 + 1) stop
  else some false
termination_by stop - start

/-- After a member that is greater than the value all are greater, and before one that is less all are less. -/
def SortedFor (compare : α → Ordering) (l : List α) : Prop :=
  l.Pairwise fun a b => (compare a = .lt → compare b = .lt) ∧ (compare b = .gt → compare a = .gt)

/-- The value is not before `start`, nor from `stop` on. -/
structure Between (compare : α → Ordering) (l : List α) (start stop : Nat) : Prop where
  before : ∀ {i : Nat} {a : α}, i < start → l[i]? = some a → compare a = .gt
  after : ∀ {i : Nat} {a : α}, stop ≤ i → l[i]? = some a → compare a = .lt

section Rounds

variable {compare : α → Ordering} {l : List α} {start stop mid : Nat} {a : α}

theorem SortedFor.of_lt (h : SortedFor compare l) {i j : Nat} (hij : i < j) {a b : α} (ha : l[i]? = some a)
    (hb : l[j]? = some b) : (compare a = .lt → compare b = .lt) ∧ (compare b = .gt → compare a = .gt) := by
  obtain ⟨hi, rfl⟩ := List.getElem?_eq_some_iff.mp ha
  obtain ⟨hj, rfl⟩ := List.getElem?_eq_some_iff.mp hb
  exact List.pairwise_iff_getElem.mp h i j hi hj hij

theorem Between.left (h : Between compare l start stop) (hsorted : SortedFor compare l)
    (hmid : l[mid]? = some a) (ha : compare a = .lt) : Between compare l start mid := by
  refine ⟨h.before, fun {i b} hi hb => ?_⟩
  rcases Nat.eq_or_lt_of_le hi with rfl | hlt
  · rw [hmid] at hb
    cases hb
    exact ha
  · exact (hsorted.of_lt hlt hmid hb).1 ha

theorem Between.right (h : Between compare l start stop) (hsorted : SortedFor compare l)
    (hmid : l[mid]? = some a) (ha : compare a = .gt) : Between compare l (mid + 1) stop := by
  refine ⟨fun {i b} hi hb => ?_, h.after⟩
  rcases Nat.eq_or_lt_of_le (Nat.le_of_lt_succ hi) with rfl | hlt
  · rw [hmid] at hb
    cases hb
    exact ha
  · exact (hsorted.of_lt hlt hb hmid).2 ha

/-- Nothing is left between the two indices. -/
theorem Between.not_mem (h : Between compare l start stop) (hge : ¬ start < stop) :
    ¬ ∃ a ∈ l, compare a = .eq := by
  rintro ⟨a, ha, heq⟩
  obtain ⟨i, hi⟩ := List.getElem?_of_mem ha
  rcases Nat.lt_or_ge i start with hlt | hle
  · rw [h.before hlt hi] at heq
    cases heq
  · rw [h.after (by omega) hi] at heq
    cases heq

theorem sortedSearch_between (hsorted : SortedFor compare l) :
    ∀ {start stop}, stop ≤ l.length → Between compare l start stop →
      ∃ found, sortedSearch compare l start stop = some found ∧ (found = true ↔ ∃ a ∈ l, compare a = .eq) := by
  intro start stop hstop hbetween
  induction hleft : stop - start using Nat.strongRecOn generalizing start stop with
  | ind n ih =>
    rw [sortedSearch]
    by_cases hlt : start < stop
    · have hmid : start + (stop - start) / 2 < l.length := by omega
      have hget := List.getElem?_eq_getElem hmid
      rw [dif_pos hlt, hget]
      dsimp only
      cases hcompare : compare l[start + (stop - start) / 2] with
      | eq => exact ⟨true, rfl, iff_of_true rfl ⟨_, List.getElem_mem hmid, hcompare⟩⟩
      | lt => exact ih _ (by omega) (by omega) (hbetween.left hsorted hget hcompare) rfl
      | gt => exact ih _ (by omega) hstop (hbetween.right hsorted hget hcompare) rfl
    · rw [dif_neg hlt]
      exact ⟨false, rfl, iff_of_false Bool.false_ne_true (hbetween.not_mem hlt)⟩

/-- The search ends, and finds a member that is equal to the value if there is one. -/
theorem sortedSearch_spec (hsorted : SortedFor compare l) :
    ∃ found, sortedSearch compare l 0 l.length = some found ∧ (found = true ↔ ∃ a ∈ l, compare a = .eq) := by
  refine sortedSearch_between hsorted (Nat.le_refl _) ⟨fun hi => absurd hi (Nat.not_lt_zero _), fun hi hget => ?_⟩
  rw [List.getElem?_eq_none hi] at hget
  cases hget

end Rounds

/-! ## Keys -/

section Keys

variable {β : Type} [LinearOrder β]

/-- The value `q` compares with a member as it does with the member's key. -/
structure ComparesTo (compare : α → Ordering) (q : β) (a : α) (key : β) : Prop where
  eq_iff : compare a = .eq ↔ q = key
  lt_iff : compare a = .lt ↔ q < key

variable {compare : α → Ordering} {q : β} {l : List α} {keys : List β} {a : α} {key : β}

theorem ComparesTo.gt_iff (h : ComparesTo compare q a key) : compare a = .gt ↔ key < q := by
  cases hcompare : compare a with
  | eq =>
    rw [← h.eq_iff.mp hcompare]
    exact iff_of_false (fun h => by cases h) (lt_irrefl q)
  | lt => exact iff_of_false (fun h => by cases h) (lt_asymm (h.lt_iff.mp hcompare))
  | gt =>
    refine iff_of_true rfl (lt_of_le_of_ne (not_lt.mp fun hlt => ?_) fun heq => ?_)
    · rw [h.lt_iff.mpr hlt] at hcompare
      cases hcompare
    · rw [h.eq_iff.mpr heq.symm] at hcompare
      cases hcompare

/-- A comparison that tells first whether the two are equal. -/
theorem ComparesTo.of_ite {P Q : Prop} [Decidable P] [Decidable Q]
    (h : compare a = if P then .eq else if Q then .lt else .gt) (heq : P ↔ q = key) (hlt : Q ↔ q < key) :
    ComparesTo compare q a key := by
  by_cases hP : P
  · rw [if_pos hP] at h
    refine ⟨iff_of_true h (heq.mp hP), ?_⟩
    rw [h, heq.mp hP]
    exact iff_of_false (fun h => by cases h) (lt_irrefl key)
  · rw [if_neg hP] at h
    by_cases hQ : Q
    · rw [if_pos hQ] at h
      refine ⟨iff_of_false ?_ (mt heq.mpr hP), iff_of_true h (hlt.mp hQ)⟩
      rw [h]
      exact fun h => by cases h
    · rw [if_neg hQ] at h
      refine ⟨iff_of_false ?_ (mt heq.mpr hP), iff_of_false ?_ (mt hlt.mpr hQ)⟩
      all_goals
        rw [h]
        exact fun h => by cases h

theorem sortedFor_of_keys (hkeys : List.Forall₂ (ComparesTo compare q) l keys)
    (hsorted : keys.Pairwise (· ≤ ·)) : SortedFor compare l := by
  induction hkeys with
  | nil => exact List.Pairwise.nil
  | @cons a key l keys hfirst hrest ih =>
    obtain ⟨hle, hsorted⟩ := List.pairwise_cons.mp hsorted
    refine List.Pairwise.cons (fun b hb => ?_) (ih hsorted)
    obtain ⟨key', hmem, hb'⟩ : ∃ key' ∈ keys, ComparesTo compare q b key' := by
      obtain ⟨i, hi, rfl⟩ := List.getElem_of_mem hb
      have hi' : i < keys.length := hrest.length_eq ▸ hi
      exact ⟨_, List.getElem_mem hi', hrest.get hi hi'⟩
    exact ⟨fun h => hb'.lt_iff.mpr ((hfirst.lt_iff.mp h).trans_le (hle key' hmem)),
      fun h => hfirst.gt_iff.mpr ((hle key' hmem).trans_lt (hb'.gt_iff.mp h))⟩

theorem exists_eq_iff (hkeys : List.Forall₂ (ComparesTo compare q) l keys) :
    (∃ a ∈ l, compare a = .eq) ↔ q ∈ keys := by
  induction hkeys with
  | nil => exact iff_of_false (by rintro ⟨a, ha, _⟩; exact List.not_mem_nil ha) List.not_mem_nil
  | cons hfirst _ ih => rw [List.exists_mem_cons_iff, List.mem_cons, ih, hfirst.eq_iff]

/-- In a list that is sorted by its keys, the search finds out whether one of them is the value. -/
theorem sortedSearch_eq [Decidable (q ∈ keys)] (hkeys : List.Forall₂ (ComparesTo compare q) l keys)
    (hsorted : keys.Pairwise (· ≤ ·)) : sortedSearch compare l 0 l.length = some (decide (q ∈ keys)) := by
  obtain ⟨found, hfound, hiff⟩ := sortedSearch_spec (sortedFor_of_keys hkeys hsorted)
  rw [hfound]
  refine congrArg some (Bool.eq_iff_iff.mpr ?_)
  rw [decide_eq_true_iff, hiff, exists_eq_iff hkeys]

end Keys

end Nballerina.Lib
