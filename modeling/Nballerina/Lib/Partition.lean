import Mathlib.Data.Finset.Card
import Mathlib.Logic.Equiv.Basic

/-!
# Sampling a partition of the integers

A list of boundaries cuts the integers into parts: two integers are in the same part when
no boundary separates them, that is when the first boundary after them is the same
(`endOf`). To show that some samples of each part stand for all of its members, one maps
the members that matter to different samples of the same part (`exists_injOn_of_fibers`).
-/

namespace Nballerina.Lib

/-! ## Parts -/

/-- The first boundary after `x`, where the part of `x` ends. -/
def endOf (boundaries : List Int) (x : Int) : Option Int :=
  boundaries.find? fun b => decide (x < b)

section EndOf

variable {boundaries : List Int} {x y b : Int}

theorem endOf_eq_none_iff : endOf boundaries x = none ↔ ∀ b ∈ boundaries, b ≤ x := by
  unfold endOf
  rw [List.find?_eq_none]
  simp

theorem lt_of_endOf (h : endOf boundaries x = some b) : x < b := by
  unfold endOf at h
  have hfound := List.find?_some h
  exact of_decide_eq_true hfound

theorem mem_of_endOf (h : endOf boundaries x = some b) : b ∈ boundaries :=
  List.mem_of_find?_eq_some h

theorem endOf_eq_some_iff (hsorted : boundaries.Pairwise (· < ·)) :
    endOf boundaries x = some b ↔ b ∈ boundaries ∧ x < b ∧ ∀ b' ∈ boundaries, x < b' → b ≤ b' := by
  unfold endOf
  induction boundaries with
  | nil => simp
  | cons b0 bs ih =>
    obtain ⟨hlt, hsorted⟩ := List.pairwise_cons.mp hsorted
    rw [List.find?_cons]
    by_cases h : x < b0
    · rw [decide_eq_true h]
      refine ⟨fun heq => ?_, fun ⟨hmem, hxb, hmin⟩ => ?_⟩
      · cases heq
        refine ⟨.head _, h, fun b' hb' _ => ?_⟩
        rcases List.mem_cons.mp hb' with rfl | hb'
        · exact Int.le_refl _
        · exact Int.le_of_lt (hlt b' hb')
      · rcases List.mem_cons.mp hmem with rfl | hmem
        · rfl
        · have hle := hmin b0 List.mem_cons_self h
          exact absurd (hlt b hmem) (by omega)
    · rw [decide_eq_false h]
      refine (ih hsorted).trans ⟨fun ⟨hmem, hxb, hmin⟩ => ?_, fun ⟨hmem, hxb, hmin⟩ => ?_⟩
      · refine ⟨.tail _ hmem, hxb, fun b' hb' hxb' => ?_⟩
        rcases List.mem_cons.mp hb' with rfl | hb'
        · exact absurd hxb' h
        · exact hmin b' hb' hxb'
      · rcases List.mem_cons.mp hmem with rfl | hmem
        · exact absurd hxb h
        · exact ⟨hmem, hxb, fun b' hb' => hmin b' (.tail _ hb')⟩

/-- No boundary separates members of one part. -/
theorem lt_iff_of_endOf_eq (hsorted : boundaries.Pairwise (· < ·))
    (h : endOf boundaries x = endOf boundaries y) (hb : b ∈ boundaries) : x < b ↔ y < b := by
  cases hx : endOf boundaries x with
  | none =>
    have hle := endOf_eq_none_iff.mp hx b hb
    have hle' := endOf_eq_none_iff.mp (h ▸ hx) b hb
    omega
  | some e =>
    obtain ⟨-, hxe, hminx⟩ := (endOf_eq_some_iff hsorted).mp hx
    obtain ⟨-, hye, hminy⟩ := (endOf_eq_some_iff hsorted).mp (h ▸ hx)
    refine ⟨fun hxb => ?_, fun hyb => ?_⟩
    · exact Int.lt_of_lt_of_le hye (hminx b hb hxb)
    · exact Int.lt_of_lt_of_le hxe (hminy b hb hyb)

/-- A part has no gaps. -/
theorem endOf_of_between (hsorted : boundaries.Pairwise (· < ·))
    (h : endOf boundaries x = some b) (hle : x ≤ y) (hlt : y < b) :
    endOf boundaries y = some b := by
  rw [endOf_eq_some_iff hsorted] at h ⊢
  exact ⟨h.1, hlt, fun b' hb' hyb' => h.2.2 b' hb' (by omega)⟩

/-- What is between two members of a part belongs to it. -/
theorem endOf_eq_of_between (hsorted : boundaries.Pairwise (· < ·)) {z : Int}
    (h : endOf boundaries x = endOf boundaries z) (hxy : x ≤ y) (hyz : y ≤ z) :
    endOf boundaries y = endOf boundaries x := by
  cases hx : endOf boundaries x with
  | none =>
    rw [endOf_eq_none_iff] at hx ⊢
    intro b hb
    have := hx b hb
    omega
  | some b =>
    have := lt_of_endOf (h.symm.trans hx)
    exact endOf_of_between hsorted hx hxy (by omega)

theorem endOf_pred (hsorted : boundaries.Pairwise (· < ·)) (hb : b ∈ boundaries) :
    endOf boundaries (b - 1) = some b := by
  rw [endOf_eq_some_iff hsorted]
  exact ⟨hb, by omega, fun b' _ hb' => by omega⟩

end EndOf

/-! ## Increasing lists -/

/-- The elements below `c` are the first ones. -/
theorem exists_cut {l : List Int} (hsorted : l.Pairwise (· < ·)) (c : Int) :
    ∃ m, m ≤ l.length ∧ ∀ q x, l[q]? = some x → (x < c ↔ q < m) := by
  induction l with
  | nil => exact ⟨0, Nat.le_refl 0, fun q x h => by simp at h⟩
  | cons a l ih =>
    obtain ⟨hlt, hsorted⟩ := List.pairwise_cons.mp hsorted
    by_cases ha : a < c
    · obtain ⟨m, hm, hcut⟩ := ih hsorted
      refine ⟨m + 1, Nat.succ_le_succ hm, fun q x h => ?_⟩
      cases q with
      | zero =>
        cases h
        exact iff_of_true ha (Nat.succ_pos m)
      | succ q =>
        rw [List.getElem?_cons_succ] at h
        rw [hcut q x h, Nat.succ_lt_succ_iff]
    · refine ⟨0, Nat.zero_le _, fun q x h => iff_of_false (fun hx => ?_) (Nat.not_lt_zero q)⟩
      rcases List.mem_cons.mp (List.mem_of_getElem? h) with rfl | hmem
      · exact ha hx
      · have := hlt x hmem
        omega

theorem lt_of_getElem?_lt {l : List Int} (hsorted : l.Pairwise (· < ·)) {p q : Nat} {x y : Int}
    (hp : l[p]? = some x) (hq : l[q]? = some y) (hpq : p < q) : x < y := by
  obtain ⟨hp', rfl⟩ := List.getElem?_eq_some_iff.mp hp
  obtain ⟨hq', rfl⟩ := List.getElem?_eq_some_iff.mp hq
  exact List.pairwise_iff_getElem.mp hsorted p q hp' hq' hpq

theorem le_of_getElem?_le {l : List Int} (hsorted : l.Pairwise (· < ·)) {p q : Nat} {x y : Int}
    (hp : l[p]? = some x) (hq : l[q]? = some y) (hpq : p ≤ q) : x ≤ y := by
  rcases Nat.lt_or_eq_of_le hpq with hlt | rfl
  · exact Int.le_of_lt (lt_of_getElem?_lt hsorted hp hq hlt)
  · rw [hp] at hq
    cases hq
    exact Int.le_refl _

/-! ## Samples for members -/

/-- Where each class has at least as many samples as members, the members go to different
samples of their own classes. -/
theorem exists_injOn_of_fibers {α κ : Type} [DecidableEq α] [DecidableEq κ] (cls : α → κ)
    (members samples : Finset α)
    (h : ∀ x ∈ members,
      (members.filter (cls · = cls x)).card ≤ (samples.filter (cls · = cls x)).card) :
    ∃ φ : α → α, Set.InjOn φ members ∧ ∀ x ∈ members, φ x ∈ samples ∧ cls (φ x) = cls x := by
  induction members using Finset.induction_on with
  | empty => exact ⟨id, by simp, by simp⟩
  | insert a members ha ih =>
    have hih : ∀ x ∈ members,
        (members.filter (cls · = cls x)).card ≤ (samples.filter (cls · = cls x)).card := by
      intro x hx
      refine Nat.le_trans (Finset.card_le_card ?_) (h x (Finset.mem_insert_of_mem hx))
      exact Finset.filter_subset_filter _ (Finset.subset_insert a members)
    obtain ⟨φ, hinj, hφ⟩ := ih hih
    -- the samples that the members of the class of `a` have taken are too few
    have hcard : ((members.filter (cls · = cls a)).image φ).card <
        (samples.filter (cls · = cls a)).card := by
      refine Nat.lt_of_le_of_lt Finset.card_image_le ?_
      have hle := h a (Finset.mem_insert_self a members)
      rw [Finset.filter_insert, if_pos rfl, Finset.card_insert_of_notMem] at hle
      · exact hle
      · exact fun hmem => ha (Finset.mem_filter.mp hmem).1
    obtain ⟨s, hs, hfree⟩ := Finset.exists_mem_notMem_of_card_lt_card hcard
    obtain ⟨hsamples, hcls⟩ := Finset.mem_filter.mp hs
    have hne : ∀ x ∈ members, φ x ≠ s := by
      intro x hx heq
      refine hfree (Finset.mem_image.mpr ⟨x, Finset.mem_filter.mpr ⟨hx, ?_⟩, heq⟩)
      rw [← (hφ x hx).2, heq, hcls]
    have hnotA : ∀ x ∈ members, x ≠ a := fun x hx heq => ha (heq ▸ hx)
    refine ⟨Function.update φ a s, fun x hx y hy hxy => ?_, fun x hx => ?_⟩
    · rcases Finset.mem_insert.mp hx with hxa | hx'
      · rcases Finset.mem_insert.mp hy with hya | hy'
        · rw [hxa, hya]
        · rw [hxa, Function.update_self, Function.update_of_ne (hnotA y hy')] at hxy
          exact absurd hxy.symm (hne y hy')
      · rcases Finset.mem_insert.mp hy with hya | hy'
        · rw [hya, Function.update_self, Function.update_of_ne (hnotA x hx')] at hxy
          exact absurd hxy (hne x hx')
        · rw [Function.update_of_ne (hnotA x hx'), Function.update_of_ne (hnotA y hy')] at hxy
          exact hinj hx' hy' hxy
    · rcases Finset.mem_insert.mp hx with rfl | hx
      · rw [Function.update_self]
        exact ⟨hsamples, hcls⟩
      · rw [Function.update_of_ne (hnotA x hx)]
        exact hφ x hx

/-- The sample of one member can be chosen. -/
theorem exists_injOn_of_fibers_at {α κ : Type} [DecidableEq α] [DecidableEq κ] (cls : α → κ)
    (members samples : Finset α)
    (h : ∀ x ∈ members,
      (members.filter (cls · = cls x)).card ≤ (samples.filter (cls · = cls x)).card)
    {a s : α} (ha : a ∈ members) (hs : s ∈ samples) (hcls : cls s = cls a) :
    ∃ φ : α → α, Set.InjOn φ members ∧ (∀ x ∈ members, φ x ∈ samples ∧ cls (φ x) = cls x) ∧
      φ a = s := by
  obtain ⟨φ, hinj, hφ⟩ := exists_injOn_of_fibers cls members samples h
  refine ⟨fun x => Equiv.swap (φ a) s (φ x), ?_, fun x hx => ?_, Equiv.swap_apply_left _ _⟩
  · intro x hx y hy hxy
    exact hinj hx hy ((Equiv.swap (φ a) s).injective hxy)
  · -- the two samples that change places belong to the same class
    obtain ⟨hxs, hxcls⟩ := hφ x hx
    obtain ⟨has, hacls⟩ := hφ a ha
    show Equiv.swap (φ a) s (φ x) ∈ samples ∧ cls (Equiv.swap (φ a) s (φ x)) = cls x
    by_cases hxa : φ x = φ a
    · rw [hxa, Equiv.swap_apply_left]
      exact ⟨hs, by rw [hcls, ← hacls, ← hxa, hxcls]⟩
    · by_cases hxs' : φ x = s
      · rw [hxs', Equiv.swap_apply_right]
        exact ⟨has, by rw [hacls, ← hcls, ← hxs', hxcls]⟩
      · rw [Equiv.swap_apply_of_ne_of_ne hxa hxs']
        exact ⟨hxs, hxcls⟩

end Nballerina.Lib
