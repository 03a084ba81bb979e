import Mathlib.Data.Finset.Card
import Mathlib.Order.Interval.Finset.Nat

/-!
# A hash table of indices with linear probing

A table of `N` slots, each empty or with the index of an entry. Entry `j` is looked for
from its home slot `home[j]` downwards, from slot `0` on to slot `N - 1`, up to the first
empty one. `Valid` is the invariant that makes this search right: it is kept when a new
entry goes into the first empty slot on its way (`Valid.insert`), and while there are
fewer entries than slots every search ends (`Valid.exists_first_empty`).
-/

namespace Nballerina.Lib.OpenTable

/-- The slot looked at after slot `i`. -/
def next (N i : Nat) : Nat := if i = 0 then N - 1 else i - 1

/-- The slot looked at after `d` steps from slot `s`. -/
def probe (N s d : Nat) : Nat := if d ≤ s then s - d else s + N - d

section Probe

variable {N s d : Nat}

theorem probe_of_le (h : d ≤ s) : probe N s d = s - d := if_pos h

theorem probe_of_gt (h : s < d) : probe N s d = s + N - d := if_neg (Nat.not_le.mpr h)

theorem next_of_pos {i : Nat} (h : 0 < i) : next N i = i - 1 := if_neg (Nat.ne_of_gt h)

theorem probe_zero : probe N s 0 = s := by
  rw [probe_of_le (Nat.zero_le s), Nat.sub_zero]

theorem probe_succ (hd : d < N) : probe N s (d + 1) = next N (probe N s d) := by
  rcases Nat.lt_trichotomy d s with h | h | h
  · rw [probe_of_le h, probe_of_le (Nat.le_of_lt h), next_of_pos (by omega)]
    omega
  · rw [probe_of_gt (by omega), probe_of_le (by omega), h, Nat.sub_self, next, if_pos rfl]
    omega
  · rw [probe_of_gt (by omega), probe_of_gt h, next_of_pos (by omega)]
    omega

theorem probe_lt (hs : s < N) (hd : d < N) : probe N s d < N := by
  unfold probe
  split <;> omega

theorem exists_probe {i : Nat} (hs : s < N) (hi : i < N) : ∃ d < N, probe N s d = i := by
  unfold probe
  rcases Nat.lt_or_ge s i with h | h
  · refine ⟨s + N - i, by omega, ?_⟩
    rw [if_neg (by omega)]
    omega
  · refine ⟨s - i, by omega, ?_⟩
    rw [if_pos (by omega)]
    omega

end Probe

/-- Every slot in use is the slot of one entry, and no search for an entry meets an empty
slot before it. -/
structure Valid (N : Nat) (slot : Nat → Option Nat) (home : List Nat) : Prop where
  home_lt : ∀ s ∈ home, s < N
  entry_lt : ∀ i < N, ∀ j, slot i = some j → j < home.length
  once : ∀ i < N, ∀ i' < N, ∀ j, slot i = some j → slot i' = some j → i = i'
  found : ∀ (j : Nat) (hj : j < home.length), ∃ d < N, slot (probe N home[j] d) = some j ∧
    ∀ d' < d, slot (probe N home[j] d') ≠ none

/-- Slot `probe N s d` is the first empty one on the way from `s`. -/
structure FirstEmpty (N : Nat) (slot : Nat → Option Nat) (s d : Nat) : Prop where
  lt : d < N
  empty : slot (probe N s d) = none
  before : ∀ d' < d, slot (probe N s d') ≠ none

section Valid

variable {N : Nat} {slot : Nat → Option Nat} {home : List Nat}

theorem Valid.empty {slot : Nat → Option Nat} (h : ∀ i < N, slot i = none) : Valid N slot [] := by
  have hno {i j : Nat} (hi : i < N) : slot i ≠ some j := by
    rw [h i hi]
    exact fun he => by cases he
  exact ⟨fun _ hs => absurd hs List.not_mem_nil, fun i hi j hj => absurd hj (hno hi),
    fun i hi _ _ _ hj _ => absurd hj (hno hi), fun _ hj => absurd hj (Nat.not_lt_zero _)⟩

/-- With fewer entries than slots one slot is empty. -/
theorem Valid.exists_empty (hv : Valid N slot home) (hlen : home.length < N) :
    ∃ i < N, slot i = none := by
  by_contra hall
  have hsome : ∀ i < N, ∃ j, slot i = some j := by
    intro i hi
    cases hsi : slot i with
    | none => exact absurd ⟨i, hi, hsi⟩ hall
    | some j => exact ⟨j, rfl⟩
  -- the slots would give different entries, more than there are
  have hle : (Finset.range N).card ≤ (Finset.range home.length).card := by
    refine Finset.card_le_card_of_injOn (fun i => (slot i).getD 0) (fun i hi => ?_)
      fun i hi i' hi' heq => ?_
    · have hi := Finset.mem_range.mp hi
      obtain ⟨j, hj⟩ := hsome i hi
      refine Finset.mem_coe.mpr (Finset.mem_range.mpr ?_)
      dsimp only
      rw [hj]
      exact hv.entry_lt i hi j hj
    · have hi := Finset.mem_range.mp (Finset.mem_coe.mp hi)
      have hi' := Finset.mem_range.mp (Finset.mem_coe.mp hi')
      obtain ⟨j, hj⟩ := hsome i hi
      obtain ⟨j', hj'⟩ := hsome i' hi'
      dsimp only at heq
      rw [hj, hj', Option.getD_some, Option.getD_some] at heq
      rw [← heq] at hj'
      exact hv.once i hi i' hi' j hj hj'
  rw [Finset.card_range, Finset.card_range] at hle
  omega

theorem Valid.exists_first_empty (hv : Valid N slot home) (hlen : home.length < N) {s : Nat}
    (hs : s < N) : ∃ d, FirstEmpty N slot s d := by
  classical
  obtain ⟨i, hi, hempty⟩ := hv.exists_empty hlen
  obtain ⟨d, hd, rfl⟩ := exists_probe hs hi
  have hex : ∃ d, slot (probe N s d) = none := ⟨d, hempty⟩
  refine ⟨Nat.find hex, ?_, Nat.find_spec hex, fun d' hd' => Nat.find_min hex hd'⟩
  exact Nat.lt_of_le_of_lt (Nat.find_min' hex hempty) hd

/-- A search that meets an empty slot has met every entry whose home is where it began. -/
theorem Valid.not_of_firstEmpty (hv : Valid N slot home) {s d : Nat}
    (hd : FirstEmpty N slot s d) {P : Nat → Prop}
    (hmet : ∀ d' < d, ∀ j, slot (probe N s d') = some j → ¬ P j) {j : Nat} (hj : j < home.length)
    (hhome : home[j] = s) : ¬ P j := by
  obtain ⟨dj, hdj, hslot, hbefore⟩ := hv.found j hj
  rw [hhome] at hslot hbefore
  refine hmet dj ?_ j hslot
  by_contra hge
  rcases Nat.lt_or_eq_of_le (Nat.not_lt.mp hge) with hlt | heq
  · exact hbefore d hlt hd.empty
  · rw [← heq, hd.empty] at hslot
    cases hslot

/-- A new entry goes into the first empty slot on its way. -/
theorem Valid.insert (hv : Valid N slot home) {s d : Nat} (hs : s < N)
    (hd : FirstEmpty N slot s d) {slot' : Nat → Option Nat}
    (hnew : slot' (probe N s d) = some home.length)
    (hold : ∀ i < N, i ≠ probe N s d → slot' i = slot i) : Valid N slot' (home ++ [s]) := by
  have hp := probe_lt hs hd.lt
  -- what was in use is still in use, by the same entry
  have hkeep {i j : Nat} (hi : i < N) (h : slot i = some j) : slot' i = some j := by
    rw [hold i hi, h]
    intro he
    rw [he, hd.empty] at h
    cases h
  have hkeep_ne {i : Nat} (hi : i < N) (h : slot i ≠ none) : slot' i ≠ none := by
    cases hj : slot i with
    | none => exact absurd hj h
    | some j =>
      rw [hkeep hi hj]
      exact fun he => by cases he
  have hcases {i j : Nat} (hi : i < N) (h : slot' i = some j) :
      (i = probe N s d ∧ j = home.length) ∨ (i ≠ probe N s d ∧ slot i = some j) := by
    by_cases he : i = probe N s d
    · rw [he, hnew] at h
      exact Or.inl ⟨he, (Option.some.inj h).symm⟩
    · rw [hold i hi he] at h
      exact Or.inr ⟨he, h⟩
  have hlen : (home ++ [s]).length = home.length + 1 := by
    rw [List.length_append, List.length_singleton]
  refine ⟨fun s' hs' => ?_, fun i hi j hj => ?_, fun i hi i' hi' j hj hj' => ?_, fun j hj => ?_⟩
  · rcases List.mem_append.mp hs' with h | h
    · exact hv.home_lt s' h
    · rwa [List.mem_singleton.mp h]
  · rcases hcases hi hj with ⟨-, rfl⟩ | ⟨-, h⟩
    · omega
    · have := hv.entry_lt i hi j h
      omega
  · rcases hcases hi hj with ⟨hi1, hj1⟩ | ⟨-, h⟩
    · rcases hcases hi' hj' with ⟨hi2, -⟩ | ⟨-, h'⟩
      · rw [hi1, hi2]
      · have := hv.entry_lt i' hi' j h'
        omega
    · rcases hcases hi' hj' with ⟨-, hj2⟩ | ⟨-, h'⟩
      · have := hv.entry_lt i hi j h
        omega
      · exact hv.once i hi i' hi' j h h'
  · rcases Nat.lt_or_ge j home.length with hj1 | hj1
    · obtain ⟨dj, hdj, hslot, hbefore⟩ := hv.found j hj1
      have hhome : home[j] < N := hv.home_lt _ (List.getElem_mem hj1)
      rw [List.getElem_append_left hj1]
      exact ⟨dj, hdj, hkeep (probe_lt hhome hdj) hslot,
        fun d' hd' => hkeep_ne (probe_lt hhome (by omega)) (hbefore d' hd')⟩
    · obtain rfl : j = home.length := by omega
      rw [List.getElem_concat_length rfl]
      exact ⟨d, hd.lt, hnew,
        fun d' hd' => hkeep_ne (probe_lt hs (Nat.lt_trans hd' hd.lt)) (hd.before d' hd')⟩

end Valid

end Nballerina.Lib.OpenTable
