import Mathlib.Tactic.ByContra
import Nballerina.Types.Ops

/-!
# Lists of int ranges (`int.bal`)

A list of ranges is normalised when its ranges are non-empty, within 64 bits, in increasing
order and not adjacent. This is about what union, intersection and complement of such lists
contain.

The union is right (`rangeListUnion64_right`). The test for adjacency in `rangeUnion` misses
the second order (it reads `r2.min` twice), so `r2` right before `r1` is pushed alone; but then
`r1` is pushed after it, and that order the test does see. The invariant of the loop is that
the last range pushed starts no later than any that is left (`Below`).

The intersection advances both lists after an overlap and so forgets what is left of the longer
of the two ranges. It is right exactly when no range of a list overlaps two of the other
(`exact_rangeListIntersect_iff`); for a difference the same is said of the gaps of the second
list, and `oneOverlap_complement_iff` says it in terms of the list itself.

Mirroring notes:
- `int` addition panics on overflow, `addInt`; the functions with `64` in their names are those
  of `Leaf` with this addition.
-/

namespace Nballerina.Types

/-! ## Membership and normal form -/

/-- `n` is in the range. -/
def Range.Has (r : Range) (n : Int) : Prop := r.min ≤ n ∧ n ≤ r.max

/-- `n` is in one of the ranges. -/
def rangesHave (v : List Range) (n : Int) : Prop := ∃ r ∈ v, r.Has n

/-- Non-empty, with 64-bit bounds. -/
structure Range.Fits (r : Range) : Prop where
  lower : intMinValue ≤ r.min
  nonempty : r.min ≤ r.max
  upper : r.max ≤ intMaxValue

/-- `r1` ends before `r2` starts, with a gap between them. -/
def Range.Apart (r1 r2 : Range) : Prop := r1.max + 1 < r2.min

/-- Sorted, disjoint, not adjacent, with 64-bit bounds. -/
structure Normalised (v : List Range) : Prop where
  fits : ∀ r ∈ v, r.Fits
  apart : v.Pairwise Range.Apart

@[simp] theorem rangesHave_nil (n : Int) : rangesHave [] n ↔ False := by
  simp [rangesHave]

@[simp] theorem rangesHave_cons (r : Range) (v : List Range) (n : Int) :
    rangesHave (r :: v) n ↔ r.Has n ∨ rangesHave v n := by
  simp [rangesHave]

@[simp] theorem rangesHave_append (v w : List Range) (n : Int) :
    rangesHave (v ++ w) n ↔ rangesHave v n ∨ rangesHave w n := by
  simp [rangesHave, or_and_right, exists_or]

@[simp] theorem rangesHave_reverse (v : List Range) (n : Int) :
    rangesHave v.reverse n ↔ rangesHave v n := by
  simp [rangesHave]

theorem normalised_nil : Normalised [] := ⟨by simp, List.Pairwise.nil⟩

variable {n : Int} {next r r1 r2 s : Range} {result v v1 v2 w : List Range}

theorem normalised_cons :
    Normalised (r :: v) ↔ r.Fits ∧ (∀ s ∈ v, r.Apart s) ∧ Normalised v := by
  constructor
  · intro h
    obtain ⟨hr, hv⟩ := List.pairwise_cons.mp h.apart
    exact ⟨h.fits r (.head _ ..), hr,
      ⟨fun s hs => h.fits s (.tail _ hs), hv⟩⟩
  · intro ⟨hr, hap, hv⟩
    refine ⟨fun s hs => ?_, List.pairwise_cons.mpr ⟨hap, hv.apart⟩⟩
    rcases List.mem_cons.mp hs with rfl | hs
    · exact hr
    · exact hv.fits s hs

theorem Normalised.in64 (h : Normalised v) (hn : rangesHave v n) :
    intMinValue ≤ n ∧ n ≤ intMaxValue := by
  obtain ⟨r, hr, hmin, hmax⟩ := hn
  have hfits := h.fits r hr
  exact ⟨Int.le_trans hfits.lower hmin, Int.le_trans hmax hfits.upper⟩

/-- Two different ranges of a list are apart, in one order or the other. -/
theorem Normalised.apart_or (h : Normalised v) (hr : r ∈ v) (hs : s ∈ v) :
    r = s ∨ r.Apart s ∨ s.Apart r := by
  induction v with
  | nil => cases hr
  | cons x v ih =>
    obtain ⟨_, hx, hv⟩ := normalised_cons.mp h
    rcases List.mem_cons.mp hr with hrx | hr
    · rw [hrx]
      rcases List.mem_cons.mp hs with hsx | hs
      · exact .inl hsx.symm
      · exact .inr (.inl (hx s hs))
    · rcases List.mem_cons.mp hs with hsx | hs
      · rw [hsx]
        exact .inr (.inr (hx r hr))
      · exact ih hv hr hs

/-- An int is in at most one range of a list. -/
theorem Normalised.eq_of_has (h : Normalised v) (hr : r ∈ v) (hs : s ∈ v) (hrn : r.Has n)
    (hsn : s.Has n) : r = s := by
  unfold Range.Has at hrn hsn
  rcases h.apart_or hr hs with heq | hap | hap
  · exact heq
  · unfold Range.Apart at hap
    omega
  · unfold Range.Apart at hap
    omega

/-- The first range of a list has nothing of the others. -/
theorem Normalised.not_has_tail (h : Normalised (r :: v)) (hn : r.Has n) : ¬ rangesHave v n := by
  intro ⟨s, hs, hsn⟩
  have hap := (normalised_cons.mp h).2.1 s hs
  unfold Range.Has at hn hsn
  unfold Range.Apart at hap
  omega

/-! ## Union -/

/-- The sum of two ints of 64 bits; `none` is the panic on overflow. -/
def addInt (a b : Int) : Option Int :=
  if intMinValue ≤ a + b ∧ a + b ≤ intMaxValue then some (a + b) else none

/-- Whether one range is before the other; the sum is only made if it could be adjacent. -/
def isBefore64 (max min adjacentTo : Int) : Option Bool :=
  if max < min then (addInt max 1).map fun next => decide (next ≠ adjacentTo) else some false

/-- `rangeUnion` with the addition of 64-bit ints. -/
def rangeUnion64 (r1 r2 : Range) : Option RangeCombined := do
  if ← isBefore64 r1.max r2.min r2.min then return .before
  if ← isBefore64 r2.max r1.min r2.min then return .after
  return .range ⟨min r1.min r2.min, max r1.max r2.max⟩

/-- `rangeUnionPush`, on the result array in reverse. -/
def rangeUnionPush64 : List Range → Range → Option (List Range)
  | [], next => some [next]
  | last :: ranges, next => do
    match ← rangeUnion64 last next with
    | .range r => return r :: ranges
    | _ => return next :: last :: ranges

/-- The loop of `rangeListUnion`; `result` is in reverse. -/
def rangeListUnionLoop64 : List Range → List Range → List Range → Option (List Range)
  | result, [], v2 => v2.foldlM rangeUnionPush64 result
  | result, r1 :: v1, [] => (r1 :: v1).foldlM rangeUnionPush64 result
  | result, r1 :: v1, r2 :: v2 => do
    match ← rangeUnion64 r1 r2 with
    | .range r => rangeListUnionLoop64 (← rangeUnionPush64 result r) v1 v2
    | .before => rangeListUnionLoop64 (← rangeUnionPush64 result r1) v1 (r2 :: v2)
    | .after => rangeListUnionLoop64 (← rangeUnionPush64 result r2) (r1 :: v1) v2
termination_by _ v1 v2 => v1.length + v2.length

def rangeListUnion64 (v1 v2 : List Range) : Option (List Range) :=
  (rangeListUnionLoop64 [] v1 v2).map List.reverse

/-- A range that ends before another starts has a successor to its end. -/
theorem isBefore64_eq (hr : r.Fits) (hs : s.Fits) (adjacentTo : Int) :
    isBefore64 r.max s.min adjacentTo =
      some (decide (r.max < s.min ∧ r.max + 1 ≠ adjacentTo)) := by
  have hlower := hr.lower
  have hnonempty := hr.nonempty
  have hnonempty' := hs.nonempty
  have hupper := hs.upper
  unfold isBefore64
  split
  next hlt =>
    have hin : intMinValue ≤ r.max + 1 ∧ r.max + 1 ≤ intMaxValue := by omega
    simp [addInt, hin, hlt]
  next hge => simp [hge]

/-- No overflow: the addition is only made below the start of another range. -/
theorem rangeUnion64_eq (hr : r.Fits) (hs : s.Fits) :
    rangeUnion64 r s = some (rangeUnion r s) := by
  unfold rangeUnion64 rangeUnion
  rw [isBefore64_eq hr hs, isBefore64_eq hs hr]
  by_cases hbefore : r.max < s.min ∧ r.max + 1 ≠ s.min
  · simp [hbefore]
  · by_cases hafter : s.max < r.min ∧ s.max + 1 ≠ s.min
    · simp [hbefore, hafter]
    · simp [hbefore, hafter]

/-- What the three answers of `rangeUnion` say; of the second order it only sees an overlap. -/
theorem rangeUnion_cases (hr : r.Fits) (hs : s.Fits) :
    (r.Apart s ∧ rangeUnion r s = .before) ∨
      (s.max < r.min ∧ rangeUnion r s = .after) ∨
      (¬ r.Apart s ∧ ¬ s.max < r.min ∧
        rangeUnion r s = .range ⟨min r.min s.min, max r.max s.max⟩) := by
  have hnonempty := hs.nonempty
  have hnonempty' := hr.nonempty
  unfold rangeUnion Range.Apart
  by_cases hbefore : r.max < s.min ∧ r.max + 1 ≠ s.min
  · exact .inl ⟨by omega, if_pos hbefore⟩
  · rw [if_neg hbefore]
    by_cases hafter : s.max < r.min
    · exact .inr (.inl ⟨hafter, if_pos ⟨hafter, by omega⟩⟩)
    · exact .inr (.inr ⟨by omega, hafter, if_neg fun h => hafter h.1⟩)

theorem fits_union (hr : r.Fits) (hs : s.Fits) :
    Range.Fits ⟨min r.min s.min, max r.max s.max⟩ := by
  have h1 := hr.lower
  have h2 := hr.nonempty
  have h3 := hr.upper
  have h4 := hs.lower
  have h5 := hs.upper
  exact ⟨by simp only; omega, by simp only; omega, by simp only; omega⟩

theorem has_union (hr : ¬ r.Apart s) (hs : ¬ s.Apart r) (n : Int) :
    Range.Has ⟨min r.min s.min, max r.max s.max⟩ n ↔ r.Has n ∨ s.Has n := by
  unfold Range.Apart at hr hs
  unfold Range.Has
  simp only
  omega

/-- The result so far, in reverse: normalised, and starting no later than what is left. -/
def Below (result v : List Range) : Prop :=
  ∀ last ∈ result.head?, ∀ r ∈ v, last.min ≤ r.min

theorem below_nil (v : List Range) : Below [] v := by
  intro last hlast
  cases hlast

/-- The result with one more range: still normalised, and with this range. -/
structure Pushed (result : List Range) (next : Range) (result' : List Range) : Prop where
  normalised : Normalised result'.reverse
  have_iff : ∀ n, rangesHave result' n ↔ rangesHave result n ∨ next.Has n
  /-- what starts no earlier than the range pushed starts no earlier than the new last one -/
  below : ∀ v, (∀ r ∈ v, next.min ≤ r.min) → Below result' v

theorem normalised_reverse_cons :
    Normalised (r :: v).reverse ↔ r.Fits ∧ (∀ s ∈ v, s.Apart r) ∧ Normalised v.reverse := by
  rw [List.reverse_cons]
  constructor
  · intro h
    obtain ⟨hv, _, hap⟩ := List.pairwise_append.mp h.apart
    exact ⟨h.fits r (by simp), fun s hs => hap s (by simpa using hs) r (by simp),
      ⟨fun s hs => h.fits s (by simp at hs ⊢; exact .inl hs), hv⟩⟩
  · intro ⟨hr, hap, hv⟩
    refine ⟨fun s hs => ?_, List.pairwise_append.mpr ⟨hv.apart, List.pairwise_singleton _ _,
      fun s hs t ht => ?_⟩⟩
    · rcases List.mem_append.mp hs with hs | hs
      · exact hv.fits s hs
      · rw [List.mem_singleton.mp hs]
        exact hr
    · rw [List.mem_singleton.mp ht]
      exact hap s (by simpa using hs)

/-- Pushing a range that starts no earlier than the last one. -/
theorem pushed_rangeUnionPush (h : Normalised result.reverse) (hnext : next.Fits)
    (hbelow : Below result [next]) :
    Pushed result next (rangeUnionPush result next) := by
  cases result with
  | nil =>
    refine ⟨normalised_cons.mpr ⟨hnext, by simp, normalised_nil⟩, by simp [rangeUnionPush], ?_⟩
    intro v hv last hlast
    cases hlast
    exact hv
  | cons last ranges =>
    obtain ⟨hlast, hap, hranges⟩ := normalised_reverse_cons.mp h
    have hmin : last.min ≤ next.min := hbelow last rfl next (by simp)
    have hnonempty := hnext.nonempty
    unfold rangeUnionPush
    dsimp only
    rcases rangeUnion_cases hlast hnext with ⟨hbefore, heq⟩ | ⟨hafter, _⟩ | ⟨hapart, _, heq⟩
    · rw [heq]
      refine ⟨normalised_reverse_cons.mpr ⟨hnext, fun s hs => ?_, h⟩, fun n => ?_, ?_⟩
      · rcases List.mem_cons.mp hs with rfl | hs
        · exact hbefore
        · have hs' := hap s hs
          have hne := hlast.nonempty
          unfold Range.Apart at hs' hbefore ⊢
          omega
      · simp only [rangesHave_cons]
        exact or_comm
      · intro v hv x hx
        cases hx
        exact hv
    · -- it would have to start before the last one
      omega
    · rw [heq]
      have hnot : ¬ next.Apart last := by
        unfold Range.Apart
        omega
      refine ⟨normalised_reverse_cons.mpr ⟨fits_union hlast hnext, fun s hs => ?_, hranges⟩,
        fun n => ?_, ?_⟩
      · have hs' := hap s hs
        unfold Range.Apart at hs' ⊢
        simp only
        omega
      · simp only [rangesHave_cons, has_union hapart hnot]
        exact or_right_comm
      · intro v hv x hx
        cases hx
        intro r hr
        have hle := hv r hr
        simp only
        omega

theorem rangeUnionPush64_eq (h : Normalised result.reverse) (hnext : next.Fits) :
    rangeUnionPush64 result next = some (rangeUnionPush result next) := by
  cases result with
  | nil => rfl
  | cons last ranges =>
    unfold rangeUnionPush64 rangeUnionPush
    dsimp only
    rw [rangeUnion64_eq (normalised_reverse_cons.mp h).1 hnext]
    cases rangeUnion last next <;> rfl

/-- The loop has ended well: no overflow, and the result has what `result`, `v1` and `v2` have. -/
structure Merged (result v1 v2 : List Range) (r : Option (List Range)) : Prop where
  ok : ∃ result', r = some result' ∧ Normalised result'.reverse ∧
    ∀ n, rangesHave result' n ↔ rangesHave result n ∨ rangesHave v1 n ∨ rangesHave v2 n

/-- The rest of one list, when the other is used up. -/
theorem merged_rest (h : Normalised result.reverse) (hv : Normalised v) (hbelow : Below result v) :
    Merged result [] v (v.foldlM rangeUnionPush64 result) := by
  induction v generalizing result with
  | nil => exact ⟨result, rfl, h, by simp⟩
  | cons r v ih =>
    obtain ⟨hr, hap, htail⟩ := normalised_cons.mp hv
    have hpushed := pushed_rangeUnionPush h hr
      (fun last hlast s hs => hbelow last hlast s (by simp at hs; simp [hs]))
    have hbelow' : Below (rangeUnionPush result r) v := by
      refine hpushed.below v fun s hs => ?_
      have hs' := hap s hs
      have hne := hr.nonempty
      unfold Range.Apart at hs'
      omega
    obtain ⟨result', heq, hnorm, hhave⟩ := ih hpushed.normalised htail hbelow'
    rw [List.foldlM_cons, rangeUnionPush64_eq h hr]
    refine ⟨result', heq, hnorm, fun n => ?_⟩
    rw [hhave, hpushed.have_iff]
    simp [or_assoc]

/-- One list as the rest of the other. -/
theorem Merged.swap {r : Option (List Range)} (h : Merged result [] v r) : Merged result v [] r := by
  obtain ⟨result', heq, hnorm, hhave⟩ := h
  exact ⟨result', heq, hnorm, fun n => by rw [hhave]; simp⟩

/-- A range is pushed and the loop goes on with `w1` and `w2`, which lie after it. -/
theorem Merged.push {w1 w2 : List Range} {loop : List Range → Option (List Range)}
    (h : Normalised result.reverse) (hnext : next.Fits) (hbelow : Below result [next])
    (hw1 : ∀ r ∈ w1, next.min ≤ r.min) (hw2 : ∀ r ∈ w2, next.min ≤ r.min)
    (hhave : ∀ n, rangesHave v1 n ∨ rangesHave v2 n ↔
      next.Has n ∨ rangesHave w1 n ∨ rangesHave w2 n)
    (hloop : ∀ result', Normalised result'.reverse → Below result' w1 → Below result' w2 →
      Merged result' w1 w2 (loop result')) :
    Merged result v1 v2 (rangeUnionPush64 result next >>= loop) := by
  have hpushed := pushed_rangeUnionPush h hnext hbelow
  obtain ⟨result', heq, hnorm, hhave'⟩ := hloop _ hpushed.normalised (hpushed.below w1 hw1)
    (hpushed.below w2 hw2)
  rw [rangeUnionPush64_eq h hnext]
  refine ⟨result', heq, hnorm, fun n => ?_⟩
  rw [hhave', hpushed.have_iff, hhave, or_assoc]

theorem Normalised.min_le (h : Normalised (r :: v)) :
    ∀ s ∈ v, r.max + 1 < s.min ∧ r.min ≤ s.min := by
  intro s hs
  obtain ⟨hr, hap, _⟩ := normalised_cons.mp h
  have hap' := hap s hs
  have hne := hr.nonempty
  unfold Range.Apart at hap'
  exact ⟨hap', by omega⟩

/-- What is in both heads is pushed first, then the two tails. -/
theorem merged_rangeListUnionLoop64 (result v1 v2 : List Range) (h : Normalised result.reverse)
    (h1 : Normalised v1) (h2 : Normalised v2) (hb1 : Below result v1) (hb2 : Below result v2) :
    Merged result v1 v2 (rangeListUnionLoop64 result v1 v2) := by
  induction hn : v1.length + v2.length using Nat.strongRecOn generalizing result v1 v2 with
  | ind n ih =>
    cases v1 with
    | nil =>
      rw [rangeListUnionLoop64]
      exact merged_rest h h2 hb2
    | cons r1 t1 =>
      cases v2 with
      | nil =>
        rw [rangeListUnionLoop64]
        exact (merged_rest h h1 hb1).swap
      | cons r2 t2 =>
        obtain ⟨hr1, _, ht1⟩ := normalised_cons.mp h1
        obtain ⟨hr2, _, ht2⟩ := normalised_cons.mp h2
        have hmin1 := h1.min_le
        have hmin2 := h2.min_le
        have hne1 := hr1.nonempty
        have hne2 := hr2.nonempty
        rw [List.length_cons, List.length_cons] at hn
        have hlast1 : ∀ last ∈ result.head?, last.min ≤ r1.min :=
          fun last hlast => hb1 last hlast r1 (.head _ ..)
        have hlast2 : ∀ last ∈ result.head?, last.min ≤ r2.min :=
          fun last hlast => hb2 last hlast r2 (.head _ ..)
        rw [rangeListUnionLoop64, rangeUnion64_eq hr1 hr2]
        rcases rangeUnion_cases hr1 hr2 with ⟨hap, heq⟩ | ⟨hafter, heq⟩ | ⟨hap, hle, heq⟩
        · rw [heq]
          unfold Range.Apart at hap
          refine Merged.push h hr1 (by simpa [Below] using hlast1)
            (fun r hr => (hmin1 r hr).2) (fun r hr => ?_) (fun k => by simp [or_assoc])
            (fun result' hnorm hw1 hw2 => ih _ ?_ _ _ _ hnorm ht1 h2 hw1 hw2 rfl)
          · rcases List.mem_cons.mp hr with rfl | hr
            · omega
            · have := (hmin2 r hr).2
              omega
          · simp only [List.length_cons]
            omega
        · rw [heq]
          refine Merged.push h hr2 (by simpa [Below] using hlast2)
            (fun r hr => ?_) (fun r hr => (hmin2 r hr).2)
            (fun k => by simp only [rangesHave_cons]; exact or_left_comm)
            (fun result' hnorm hw1 hw2 => ih _ ?_ _ _ _ hnorm h1 ht2 hw1 hw2 rfl)
          · rcases List.mem_cons.mp hr with rfl | hr
            · omega
            · have := (hmin1 r hr).2
              omega
          · simp only [List.length_cons]
            omega
        · rw [heq]
          have hnot : ¬ r2.Apart r1 := by
            unfold Range.Apart
            omega
          refine Merged.push h (fits_union hr1 hr2) (fun last hlast r hr => ?_)
            (fun r hr => ?_) (fun r hr => ?_) (fun k => ?_)
            (fun result' hnorm hw1 hw2 => ih _ (by omega) _ _ _ hnorm ht1 ht2 hw1 hw2 rfl)
          · have := hlast1 last hlast
            have := hlast2 last hlast
            rw [List.mem_singleton.mp hr]
            simp only
            omega
          · have := (hmin1 r hr).2
            simp only
            omega
          · have := (hmin2 r hr).2
            simp only
            omega
          · rw [has_union hap hnot, rangesHave_cons, rangesHave_cons]
            exact or_or_or_comm

/-- The union of two normalised lists: no addition overflows, the result is normalised and has
exactly what either list has. -/
theorem rangeListUnion64_right (v1 v2 : List Range) (h1 : Normalised v1) (h2 : Normalised v2) :
    ∃ v, rangeListUnion64 v1 v2 = some v ∧ Normalised v ∧
      ∀ n, rangesHave v n ↔ rangesHave v1 n ∨ rangesHave v2 n := by
  obtain ⟨result, heq, hnorm, hhave⟩ := merged_rangeListUnionLoop64 [] v1 v2 normalised_nil h1 h2
    (below_nil v1) (below_nil v2)
  refine ⟨result.reverse, by rw [rangeListUnion64, heq]; rfl, hnorm, fun n => ?_⟩
  rw [rangesHave_reverse, hhave]
  simp

/-- Adjacent ranges, in both orders, and ranges at the ends of the 64-bit ints. -/
theorem rangeListUnion64_right_ends :
    let v1 : List Range := [⟨intMinValue, 0⟩, ⟨10, intMaxValue⟩]
    let v2 : List Range := [⟨1, 3⟩, ⟨5, 9⟩]
    ∃ v, rangeListUnion64 v1 v2 = some v ∧ Normalised v ∧
      ∀ n, rangesHave v n ↔ rangesHave v1 n ∨ rangesHave v2 n := by
  have hmin : intMinValue = -9223372036854775808 := rfl
  have hmax : intMaxValue = 9223372036854775807 := rfl
  refine rangeListUnion64_right _ _ ?_ ?_
  · exact normalised_cons.mpr ⟨⟨Int.le_refl _, by simp only; omega, by simp only; omega⟩,
      by simp [Range.Apart], normalised_cons.mpr ⟨⟨by simp only; omega, by simp only; omega,
        Int.le_refl _⟩, by simp, normalised_nil⟩⟩
  · exact normalised_cons.mpr ⟨⟨by simp only; omega, by simp only; omega, by simp only; omega⟩,
      by simp [Range.Apart], normalised_cons.mpr ⟨⟨by simp only; omega, by simp only; omega,
        by simp only; omega⟩, by simp, normalised_nil⟩⟩

/-! ## Intersection -/

/-- The two ranges have an int in common. -/
def Range.Meets (r s : Range) : Prop := r.min ≤ s.max ∧ s.min ≤ r.max

/-- A range of `v` meets at most one of `w`. -/
def MeetsOne (v w : List Range) : Prop :=
  ∀ r ∈ v, ∀ s ∈ w, ∀ t ∈ w, r.Meets s → r.Meets t → s = t

/-- No range of one list overlaps two of the other. -/
def OneOverlap (v w : List Range) : Prop := MeetsOne v w ∧ MeetsOne w v

theorem Range.Meets.symm (h : r.Meets s) : s.Meets r := ⟨h.2, h.1⟩

theorem Range.meets_of_has (hr : r.Has n) (hs : s.Has n) :
    r.Meets s := ⟨Int.le_trans hr.1 hs.2, Int.le_trans hs.1 hr.2⟩

theorem Range.Meets.has (h : r.Meets s) (hr : r.Fits) (hs : s.Fits) :
    ∃ n, r.Has n ∧ s.Has n := by
  have h1 := hr.nonempty
  have h2 := hs.nonempty
  unfold Range.Meets at h
  refine ⟨Max.max r.min s.min, ?_, ?_⟩
  · unfold Range.Has
    omega
  · unfold Range.Has
    omega

theorem rangeIntersect_cases (r s : Range) :
    (r.max < s.min ∧ rangeIntersect r s = .before) ∨
      (s.max < r.min ∧ rangeIntersect r s = .after) ∨
      (r.Meets s ∧ rangeIntersect r s = .range ⟨max r.min s.min, min r.max s.max⟩) := by
  unfold rangeIntersect Range.Meets
  by_cases hbefore : r.max < s.min
  · exact .inl ⟨hbefore, if_pos hbefore⟩
  · rw [if_neg hbefore]
    by_cases hafter : s.max < r.min
    · exact .inr (.inl ⟨hafter, if_pos hafter⟩)
    · exact .inr (.inr ⟨by omega, if_neg hafter⟩)

theorem has_rangeIntersect (r s : Range) (n : Int) :
    Range.Has ⟨max r.min s.min, min r.max s.max⟩ n ↔ r.Has n ∧ s.Has n := by
  unfold Range.Has
  simp only
  omega

/-- What the intersection has is in both lists. -/
theorem has_of_rangeListIntersect (h : rangesHave (rangeListIntersect v1 v2) n) :
    rangesHave v1 n ∧ rangesHave v2 n := by
  induction v1, v2 using rangeListIntersect.induct with
  | case1 v2 => simp [rangeListIntersect] at h
  | case2 r1 v1 => simp [rangeListIntersect] at h
  | case3 r1 v1 r2 v2 r heq ih =>
    rw [rangeListIntersect, heq] at h
    simp only [rangesHave_cons] at h ⊢
    rcases h with h | h
    · rcases rangeIntersect_cases r1 r2 with ⟨_, hc⟩ | ⟨_, hc⟩ | ⟨_, hc⟩
      · rw [heq] at hc
        cases hc
      · rw [heq] at hc
        cases hc
      · rw [heq] at hc
        cases hc
        have hboth := (has_rangeIntersect r1 r2 n).mp h
        exact ⟨.inl hboth.1, .inl hboth.2⟩
    · exact ⟨.inr (ih h).1, .inr (ih h).2⟩
  | case4 r1 v1 r2 v2 heq ih =>
    rw [rangeListIntersect, heq] at h
    exact ⟨(rangesHave_cons ..).mpr (.inr (ih h).1), (ih h).2⟩
  | case5 r1 v1 r2 v2 heq ih =>
    rw [rangeListIntersect, heq] at h
    exact ⟨(ih h).1, (rangesHave_cons ..).mpr (.inr (ih h).2)⟩

/-- The ranges of the intersection lie within those of the first list. -/
theorem within_rangeListIntersect (h : r ∈ rangeListIntersect v1 v2) : ∃ s ∈ v1, s.min ≤ r.min := by
  induction v1, v2 using rangeListIntersect.induct with
  | case1 v2 => simp [rangeListIntersect] at h
  | case2 r1 v1 => simp [rangeListIntersect] at h
  | case3 r1 v1 r2 v2 r heq ih =>
    rw [rangeListIntersect, heq] at h
    rcases List.mem_cons.mp h with rfl | h
    · refine ⟨r1, .head _ .., ?_⟩
      unfold rangeIntersect at heq
      split at heq
      · cases heq
      · split at heq
        · cases heq
        · cases heq
          exact Int.le_max_left _ _
    · obtain ⟨s, hs, hle⟩ := ih h
      exact ⟨s, .tail _ hs, hle⟩
  | case4 r1 v1 r2 v2 heq ih =>
    rw [rangeListIntersect, heq] at h
    obtain ⟨s, hs, hle⟩ := ih h
    exact ⟨s, .tail _ hs, hle⟩
  | case5 r1 v1 r2 v2 heq ih =>
    rw [rangeListIntersect, heq] at h
    exact ih h

theorem normalised_rangeListIntersect (h1 : Normalised v1) (h2 : Normalised v2) :
    Normalised (rangeListIntersect v1 v2) := by
  induction v1, v2 using rangeListIntersect.induct with
  | case1 v2 =>
    rw [rangeListIntersect]
    exact normalised_nil
  | case2 r1 v1 =>
    rw [rangeListIntersect]
    exact normalised_nil
  | case3 r1 v1 r2 v2 r heq ih =>
    obtain ⟨hr1, hap, ht1⟩ := normalised_cons.mp h1
    obtain ⟨hr2, _, ht2⟩ := normalised_cons.mp h2
    rw [rangeListIntersect, heq]
    have hlower := hr1.lower
    have hupper := hr1.upper
    have hne1 := hr1.nonempty
    have hne2 := hr2.nonempty
    rcases rangeIntersect_cases r1 r2 with ⟨_, hc⟩ | ⟨_, hc⟩ | ⟨hmeets, hc⟩
    · rw [heq] at hc
      cases hc
    · rw [heq] at hc
      cases hc
    · rw [heq] at hc
      cases hc
      unfold Range.Meets at hmeets
      refine normalised_cons.mpr ⟨⟨by simp only; omega, by simp only; omega,
        by simp only; omega⟩, fun s hs => ?_, ih ht1 ht2⟩
      obtain ⟨t, ht, hle⟩ := within_rangeListIntersect hs
      have hapart := hap t ht
      unfold Range.Apart at hapart ⊢
      simp only
      omega
  | case4 r1 v1 r2 v2 heq ih =>
    rw [rangeListIntersect, heq]
    exact ih (normalised_cons.mp h1).2.2 h2
  | case5 r1 v1 r2 v2 heq ih =>
    rw [rangeListIntersect, heq]
    exact ih h1 (normalised_cons.mp h2).2.2

/-- The list `v` has exactly what both `v1` and `v2` have. -/
def ExactBoth (v v1 v2 : List Range) : Prop :=
  ∀ n, rangesHave v n ↔ rangesHave v1 n ∧ rangesHave v2 n

theorem MeetsOne.mono {v' w' : List Range} (h : MeetsOne v w) (hv : v' ⊆ v) (hw : w' ⊆ w) :
    MeetsOne v' w' :=
  fun r hr s hs t ht => h r (hv hr) s (hw hs) t (hw ht)

/-- A range that meets none of the other list changes nothing on its own side. -/
theorem meetsOne_cons_left (hr : ∀ s ∈ w, ¬ r.Meets s) :
    MeetsOne (r :: v) w ↔ MeetsOne v w := by
  refine ⟨fun h => h.mono (List.subset_cons_self ..) (List.Subset.refl _), fun h x hx s hs t ht hxs => ?_⟩
  rcases List.mem_cons.mp hx with rfl | hx
  · exact absurd hxs (hr s hs)
  · exact h x hx s hs t ht hxs

theorem meetsOne_cons_right (hr : ∀ s ∈ v, ¬ r.Meets s) :
    MeetsOne v (r :: w) ↔ MeetsOne v w := by
  refine ⟨fun h => h.mono (List.Subset.refl _) (List.subset_cons_self ..), fun h x hx s hs t ht hxs hxt => ?_⟩
  rcases List.mem_cons.mp hs with rfl | hs
  · exact absurd hxs.symm (hr x hx)
  · rcases List.mem_cons.mp ht with rfl | ht
    · exact absurd hxt.symm (hr x hx)
    · exact h x hx s hs t ht hxs hxt

theorem oneOverlap_cons_left (hr : ∀ s ∈ w, ¬ r.Meets s) :
    OneOverlap (r :: v) w ↔ OneOverlap v w :=
  and_congr (meetsOne_cons_left hr) (meetsOne_cons_right hr)

theorem oneOverlap_cons_right (hr : ∀ s ∈ v, ¬ r.Meets s) :
    OneOverlap v (r :: w) ↔ OneOverlap v w :=
  and_congr (meetsOne_cons_right hr) (meetsOne_cons_left hr)

theorem meetsOne_cons_cons (hr1 : ∀ s ∈ v2, ¬ r1.Meets s) (hr2 : ∀ s ∈ v1, ¬ r2.Meets s)
    (h : MeetsOne v1 v2) : MeetsOne (r1 :: v1) (r2 :: v2) := by
  intro x hx s hs t ht hxs hxt
  rcases List.mem_cons.mp hx with rfl | hx
  · rcases List.mem_cons.mp hs with rfl | hs
    · rcases List.mem_cons.mp ht with rfl | ht
      · rfl
      · exact absurd hxt (hr1 t ht)
    · exact absurd hxs (hr1 s hs)
  · exact (meetsOne_cons_right hr2).mpr h x hx s hs t ht hxs hxt

/-- What a range meets in a list it meets the first range of. -/
theorem MeetsOne.not_meets_tail (h : MeetsOne (r1 :: v1) (r2 :: v2)) (h2 : Normalised (r2 :: v2))
    (hmeets : r1.Meets r2) :
    ∀ s ∈ v2, ¬ r1.Meets s := by
  intro s hs hm
  have heq := h r1 (.head _ ..) r2 (.head _ ..) s
    (.tail _ hs) hmeets hm
  have hap := h2.min_le s hs
  have hne := (normalised_cons.mp h2).1.nonempty
  rw [← heq] at hap
  omega

/-- Two ranges that meet each other, and nothing else of the two lists. -/
theorem oneOverlap_cons_cons (h1 : Normalised (r1 :: v1)) (h2 : Normalised (r2 :: v2))
    (hmeets : r1.Meets r2) :
    OneOverlap (r1 :: v1) (r2 :: v2) ↔
      (∀ s ∈ v2, ¬ r1.Meets s) ∧ (∀ s ∈ v1, ¬ r2.Meets s) ∧ OneOverlap v1 v2 := by
  constructor
  · intro h
    exact ⟨h.1.not_meets_tail h2 hmeets, h.2.not_meets_tail h1 hmeets.symm,
      h.1.mono (List.subset_cons_self ..) (List.subset_cons_self ..),
      h.2.mono (List.subset_cons_self ..) (List.subset_cons_self ..)⟩
  · intro ⟨hr1, hr2, hone⟩
    exact ⟨meetsOne_cons_cons hr1 hr2 hone.1, meetsOne_cons_cons hr2 hr1 hone.2⟩

/-- A range that has nothing of the other list can be left out. -/
theorem not_meets_iff (hr : r.Fits) (hv : Normalised v) :
    (∀ s ∈ v, ¬ r.Meets s) ↔ ∀ n, r.Has n → ¬ rangesHave v n := by
  constructor
  · intro h n hn ⟨s, hs, hsn⟩
    exact h s hs (Range.meets_of_has hn hsn)
  · intro h s hs hm
    obtain ⟨n, hrn, hsn⟩ := hm.has hr (hv.fits s hs)
    exact h n hrn ⟨s, hs, hsn⟩

/-- Nothing after `s` meets a range that ends before `s`. -/
theorem Normalised.not_meets_of_lt (h : Normalised (s :: v)) (hlt : r.max < s.min) :
    ∀ t ∈ s :: v, ¬ r.Meets t := by
  intro t ht hm
  unfold Range.Meets at hm
  rcases List.mem_cons.mp ht with rfl | ht
  · omega
  · have hle := (h.min_le t ht).2
    omega

/-- The intersection is exact exactly when no range of one list overlaps two of the other: where
a range does, the sweep leaves it after the first overlap. -/
theorem exact_rangeListIntersect_iff (h1 : Normalised v1) (h2 : Normalised v2) :
    ExactBoth (rangeListIntersect v1 v2) v1 v2 ↔ OneOverlap v1 v2 := by
  induction v1, v2 using rangeListIntersect.induct with
  | case1 v2 => exact iff_of_true (fun n => by simp [rangeListIntersect]) (by simp [OneOverlap, MeetsOne])
  | case2 r1 v1 => exact iff_of_true (fun n => by simp [rangeListIntersect]) (by simp [OneOverlap, MeetsOne])
  | case3 r1 v1 r2 v2 r heq ih =>
    obtain ⟨hr1, _, ht1⟩ := normalised_cons.mp h1
    obtain ⟨hr2, _, ht2⟩ := normalised_cons.mp h2
    have hrange : r1.Meets r2 ∧ ∀ n, r.Has n ↔ r1.Has n ∧ r2.Has n := by
      rcases rangeIntersect_cases r1 r2 with ⟨_, hc⟩ | ⟨_, hc⟩ | ⟨hmeets, hc⟩
      · rw [heq] at hc
        cases hc
      · rw [heq] at hc
        cases hc
      · rw [heq] at hc
        cases hc
        exact ⟨hmeets, has_rangeIntersect r1 r2⟩
    rw [oneOverlap_cons_cons h1 h2 hrange.1, ← ih ht1 ht2, not_meets_iff hr1 ht2,
      not_meets_iff hr2 ht1, rangeListIntersect, heq]
    unfold ExactBoth
    simp only [rangesHave_cons, hrange.2]
    have hdisj1 := fun n => h1.not_has_tail (n := n)
    have hdisj2 := fun n => h2.not_has_tail (n := n)
    have hsound : ∀ n, rangesHave (rangeListIntersect v1 v2) n →
        rangesHave v1 n ∧ rangesHave v2 n := fun n => has_of_rangeListIntersect
    constructor
    · intro h
      refine ⟨fun n hn hv2 => ?_, fun n hn hv1 => ?_, fun n => ?_⟩
      · rcases (h n).mpr ⟨.inl hn, .inr hv2⟩ with hboth | hrest
        · exact hdisj2 n hboth.2 hv2
        · exact hdisj1 n hn (hsound n hrest).1
      · rcases (h n).mpr ⟨.inr hv1, .inl hn⟩ with hboth | hrest
        · exact hdisj1 n hboth.1 hv1
        · exact hdisj2 n hn (hsound n hrest).2
      · refine ⟨hsound n, fun hboth => ?_⟩
        rcases (h n).mpr ⟨.inr hboth.1, .inr hboth.2⟩ with hheads | hrest
        · exact absurd hboth.1 (hdisj1 n hheads.1)
        · exact hrest
    · intro ⟨hcross1, hcross2, htails⟩ n
      rw [htails]
      constructor
      · intro h
        rcases h with h | h
        · exact ⟨.inl h.1, .inl h.2⟩
        · exact ⟨.inr h.1, .inr h.2⟩
      · intro ⟨hn1, hn2⟩
        rcases hn1 with hn1 | hn1
        · rcases hn2 with hn2 | hn2
          · exact .inl ⟨hn1, hn2⟩
          · exact absurd hn2 (hcross1 n hn1)
        · rcases hn2 with hn2 | hn2
          · exact absurd hn1 (hcross2 n hn2)
          · exact .inr ⟨hn1, hn2⟩
  | case4 r1 v1 r2 v2 heq ih =>
    have hlt : r1.max < r2.min := by
      rcases rangeIntersect_cases r1 r2 with ⟨hlt, _⟩ | ⟨_, hc⟩ | ⟨_, hc⟩
      · exact hlt
      · rw [heq] at hc
        cases hc
      · rw [heq] at hc
        cases hc
    obtain ⟨hr1, _, ht1⟩ := normalised_cons.mp h1
    have hnone := h2.not_meets_of_lt hlt
    have hskip := (not_meets_iff hr1 h2).mp hnone
    rw [oneOverlap_cons_left hnone, ← ih ht1 h2, rangeListIntersect, heq]
    refine forall_congr' fun n => ?_
    rw [rangesHave_cons r1, or_and_right, or_iff_right fun h => hskip n h.1 h.2]
  | case5 r1 v1 r2 v2 heq ih =>
    have hlt : r2.max < r1.min := by
      rcases rangeIntersect_cases r1 r2 with ⟨_, hc⟩ | ⟨hlt, _⟩ | ⟨_, hc⟩
      · rw [heq] at hc
        cases hc
      · exact hlt
      · rw [heq] at hc
        cases hc
    obtain ⟨hr2, _, ht2⟩ := normalised_cons.mp h2
    have hnone := h1.not_meets_of_lt hlt
    have hskip := (not_meets_iff hr2 h1).mp hnone
    rw [oneOverlap_cons_right hnone, ← ih h1 ht2, rangeListIntersect, heq]
    refine forall_congr' fun n => ?_
    rw [rangesHave_cons r2, and_or_left, or_iff_right fun h => hskip n h.2 h.1]

/-! ## Complement -/

/-- The gaps of `first :: v`, and what comes after it, have what is above the start of `first`
and not in the list. -/
theorem rangeGaps_right {first : Range} (h : Normalised (first :: v)) :
    ∃ last ∈ (first :: v).getLast?, ∀ w, w = rangeGaps (first :: v) ++
        (if last.max < intMaxValue then [⟨last.max + 1, intMaxValue⟩] else []) →
      Normalised w ∧ (∀ r ∈ w, first.max < r.min) ∧
        ∀ n, rangesHave w n ↔
          (first.min ≤ n ∧ n ≤ intMaxValue) ∧ ¬ rangesHave (first :: v) n := by
  induction v generalizing first with
  | nil =>
    obtain ⟨hfirst, _, _⟩ := normalised_cons.mp h
    have hlower := hfirst.lower
    have hne := hfirst.nonempty
    have hupper := hfirst.upper
    refine ⟨first, rfl, fun w hw => ?_⟩
    subst hw
    by_cases hmax : first.max < intMaxValue
    · rw [if_pos hmax]
      refine ⟨normalised_cons.mpr ⟨⟨by simp only; omega, by simp only; omega, by simp only; omega⟩,
        by simp, normalised_nil⟩, fun r hr => ?_, fun n => ?_⟩
      · rw [List.mem_singleton.mp hr]
        simp only
        omega
      · simp only [rangeGaps, List.nil_append, rangesHave_cons, rangesHave_nil, or_false,
          Range.Has]
        omega
    · rw [if_neg hmax]
      refine ⟨normalised_nil, fun r hr => absurd hr (by simp [rangeGaps]), fun n => ?_⟩
      simp only [rangeGaps, List.nil_append, rangesHave_cons, rangesHave_nil, or_false, Range.Has,
        false_iff]
      omega
  | cons second v ih =>
    obtain ⟨hfirst, _, htail⟩ := normalised_cons.mp h
    obtain ⟨hsecond, _, _⟩ := normalised_cons.mp htail
    have hgap := (h.min_le second (.head _ ..)).1
    have hlower := hfirst.lower
    have hne := hfirst.nonempty
    have hne' := hsecond.nonempty
    have hupper := hsecond.upper
    obtain ⟨last, hlast, hright⟩ := ih htail
    obtain ⟨hnorm, hafter, hhave⟩ := hright _ rfl
    refine ⟨last, by rw [List.getLast?_cons_cons]; exact hlast, fun w hw => ?_⟩
    subst hw
    rw [rangeGaps, List.cons_append]
    refine ⟨normalised_cons.mpr ⟨⟨by simp only; omega, by simp only; omega, by simp only; omega⟩,
      fun s hs => ?_, hnorm⟩, fun r hr => ?_, fun n => ?_⟩
    · have hs' := hafter s hs
      unfold Range.Apart
      simp only
      omega
    · rcases List.mem_cons.mp hr with rfl | hr
      · simp only
        omega
      · have hr' := hafter r hr
        omega
    · -- above the start of `first` is above the start of `second`, or in the first range or gap
      rw [rangesHave_cons, hhave, rangesHave_cons first]
      have hrest : rangesHave (second :: v) n → second.min ≤ n := by
        intro ⟨r, hr, hrn⟩
        unfold Range.Has at hrn
        rcases List.mem_cons.mp hr with rfl | hr
        · exact hrn.1
        · have hle := (htail.min_le r hr).2
          omega
      unfold Range.Has
      simp only
      by_cases hin : rangesHave (second :: v) n
      · have hle := hrest hin
        simp only [hin, not_true_eq_false, and_false, or_false, or_true, iff_false]
        omega
      · simp only [hin, not_false_eq_true, and_true, or_false]
        omega

/-- The complement of a list that is not empty has exactly the 64-bit ints that are not in it. -/
theorem rangeListComplement_right (h : Normalised v) (hne : v ≠ []) :
    ∃ w, rangeListComplement v = some w ∧ Normalised w ∧
      ∀ n, rangesHave w n ↔ (intMinValue ≤ n ∧ n ≤ intMaxValue) ∧ ¬ rangesHave v n := by
  cases v with
  | nil => exact absurd rfl hne
  | cons first v =>
    obtain ⟨last, hlast, hright⟩ := rangeGaps_right h
    obtain ⟨hnorm, hafter, hhave⟩ := hright _ rfl
    obtain ⟨hfirst, _, _⟩ := normalised_cons.mp h
    have hlower := hfirst.lower
    have hnonempty := hfirst.nonempty
    have hupper := hfirst.upper
    have hstart : ∀ n, rangesHave (first :: v) n → first.min ≤ n := by
      intro n ⟨r, hr, hrn⟩
      unfold Range.Has at hrn
      rcases List.mem_cons.mp hr with rfl | hr
      · exact hrn.1
      · have hle := (h.min_le r hr).2
        omega
    unfold rangeListComplement
    rw [hlast]
    dsimp only [List.head?_cons]
    refine ⟨_, rfl, ?_⟩
    rw [List.append_assoc]
    by_cases hmin : first.min > intMinValue
    · rw [if_pos hmin]
      refine ⟨normalised_cons.mpr ⟨⟨by simp only; omega, by simp only; omega,
        by simp only; omega⟩, fun s hs => ?_, hnorm⟩, fun n => ?_⟩
      · have hs' := hafter s hs
        unfold Range.Apart
        simp only
        omega
      · rw [List.singleton_append, rangesHave_cons, hhave]
        unfold Range.Has
        simp only
        by_cases hin : rangesHave (first :: v) n
        · have hle := hstart n hin
          simp only [hin, not_true_eq_false, and_false, or_false, iff_false]
          omega
        · simp only [hin, not_false_eq_true, and_true]
          omega
    · rw [if_neg hmin, List.nil_append]
      refine ⟨hnorm, fun n => ?_⟩
      rw [hhave]
      have heq : first.min = intMinValue := by omega
      rw [heq]

/-! ## Difference -/

/-- Two ints are in one range of a list when everything between them is in the list. -/
theorem Normalised.has_both (h : Normalised w) {m : Int} (hnm : n ≤ m)
    (hall : ∀ k, n ≤ k → k ≤ m → rangesHave w k) : ∃ s ∈ w, s.Has n ∧ s.Has m := by
  obtain ⟨s, hs, hsn⟩ := hall n (Int.le_refl _) hnm
  refine ⟨s, hs, hsn, ?_⟩
  unfold Range.Has at hsn ⊢
  by_contra hnot
  -- the int after the end of `s` would be in a range adjacent to it
  obtain ⟨t, ht, htk⟩ := hall (s.max + 1) (by omega) (by omega)
  unfold Range.Has at htk
  rcases h.apart_or hs ht with heq | hap | hap
  · subst heq
    omega
  · unfold Range.Apart at hap
    omega
  · unfold Range.Apart at hap
    omega

/-- No range of `v2` lies inside a range of `v1` away from both its ends. -/
def NoneInside (v1 v2 : List Range) : Prop :=
  ∀ r ∈ v1, ∀ s ∈ v2, ¬ (r.min < s.min ∧ s.max < r.max)

/-- Of two ranges of `v1`, the stretch from the end of the one to the start of the other meets a
range of `v2`. -/
def SomeBetween (v1 v2 : List Range) : Prop :=
  ∀ a ∈ v1, ∀ b ∈ v1, a.max < b.min → ∃ s ∈ v2, Range.Meets ⟨a.max, b.min⟩ s

section Difference

variable {v1 v2 w : List Range} (h1 : Normalised v1) (h2 : Normalised v2) (hw : Normalised w)
  (hhave : ∀ n, rangesHave w n ↔ (intMinValue ≤ n ∧ n ≤ intMaxValue) ∧ ¬ rangesHave v2 n)

include h1 h2 hw hhave

theorem meetsOne_complement_iff : MeetsOne v1 w ↔ NoneInside v1 v2 := by
  constructor
  · intro hone r hr s hs hin
    -- the ints right before and right after `s` are in two gaps, and both in `r`
    have hrfits := h1.fits r hr
    have hsfits := h2.fits s hs
    have hlower := hrfits.lower
    have hupper := hrfits.upper
    have hne := hsfits.nonempty
    have hfree : ∀ k, (k = s.min - 1 ∨ k = s.max + 1) → rangesHave w k := by
      intro k hk
      refine (hhave k).mpr ⟨by omega, fun ⟨t, ht, htk⟩ => ?_⟩
      unfold Range.Has at htk
      rcases h2.apart_or hs ht with heq | hap | hap
      · subst heq
        omega
      · unfold Range.Apart at hap
        omega
      · unfold Range.Apart at hap
        omega
    obtain ⟨x, hx, hxk⟩ := hfree (s.min - 1) (.inl rfl)
    obtain ⟨y, hy, hyk⟩ := hfree (s.max + 1) (.inr rfl)
    have hrx : r.Has (s.min - 1) := ⟨by omega, by omega⟩
    have hry : r.Has (s.max + 1) := ⟨by omega, by omega⟩
    have hxy := hone r hr x hx y hy (Range.meets_of_has hrx hxk) (Range.meets_of_has hry hyk)
    subst hxy
    have hmid : x.Has s.min := by
      unfold Range.Has at hxk hyk ⊢
      omega
    exact ((hhave s.min).mp ⟨x, hx, hmid⟩).2 ⟨s, hs, ⟨Int.le_refl _, hne⟩⟩
  · intro hnone r hr x hx y hy hrx hry
    obtain ⟨n, hrn, hxn⟩ := hrx.has (h1.fits r hr) (hw.fits x hx)
    obtain ⟨m, hrm, hym⟩ := hry.has (h1.fits r hr) (hw.fits y hy)
    -- `r` is convex, so a range of `v2` between `n` and `m` would be inside it
    have hclear : ∀ k, (n ≤ k ∧ k ≤ m ∨ m ≤ k ∧ k ≤ n) → rangesHave w k := by
      intro k hk
      have hn := (hhave n).mp ⟨x, hx, hxn⟩
      have hm := (hhave m).mp ⟨y, hy, hym⟩
      refine (hhave k).mpr ⟨by omega, fun ⟨s, hs, hsk⟩ => ?_⟩
      have hns : ¬ s.Has n := fun h => hn.2 ⟨s, hs, h⟩
      have hms : ¬ s.Has m := fun h => hm.2 ⟨s, hs, h⟩
      have hinside := hnone r hr s hs
      unfold Range.Has at hns hms hsk hrn hrm
      omega
    rcases Int.le_total n m with hle | hle
    · obtain ⟨t, ht, htn, htm⟩ := hw.has_both hle fun k hk hk' => hclear k (.inl ⟨hk, hk'⟩)
      rw [hw.eq_of_has hx ht hxn htn, hw.eq_of_has hy ht hym htm]
    · obtain ⟨t, ht, htm, htn⟩ := hw.has_both hle fun k hk hk' => hclear k (.inr ⟨hk, hk'⟩)
      rw [hw.eq_of_has hx ht hxn htn, hw.eq_of_has hy ht hym htm]

theorem complement_meetsOne_iff : MeetsOne w v1 ↔ SomeBetween v1 v2 := by
  have hends : ∀ {r : Range}, r ∈ v1 → r.Has r.min ∧ r.Has r.max := fun hr =>
    ⟨⟨Int.le_refl _, (h1.fits _ hr).nonempty⟩, ⟨(h1.fits _ hr).nonempty, Int.le_refl _⟩⟩
  constructor
  · intro hone a ha b hb hlt
    by_contra hno
    have hclear : ∀ k, a.max ≤ k → k ≤ b.min → rangesHave w k := by
      intro k hak hkb
      have hupper := (h1.fits b hb).upper
      have hne := (h1.fits b hb).nonempty
      have hlower := (h1.fits a ha).lower
      have hne' := (h1.fits a ha).nonempty
      refine (hhave k).mpr ⟨by omega, fun ⟨s, hs, hsk⟩ => hno ⟨s, hs, ?_⟩⟩
      exact Range.meets_of_has ⟨hak, hkb⟩ hsk
    obtain ⟨s, hs, hsa, hsb⟩ := hw.has_both (Int.le_of_lt hlt) hclear
    have hab := hone s hs a ha b hb (Range.meets_of_has hsa (hends ha).2)
      (Range.meets_of_has hsb (hends hb).1)
    have hne := (h1.fits a ha).nonempty
    subst hab
    omega
  · -- a gap that meets two ranges covers the stretch between them
    have hcover : SomeBetween v1 v2 → ∀ s ∈ w, ∀ a ∈ v1, ∀ b ∈ v1, a.max < b.min →
        s.Meets a → s.Meets b → False := by
      intro hsome s hs a ha b hb hlt hsa hsb
      obtain ⟨t, ht, hm⟩ := hsome a ha b hb hlt
      obtain ⟨n, hn, htn⟩ := hm.has ⟨(Int.le_trans (h1.fits a ha).lower (h1.fits a ha).nonempty),
        Int.le_of_lt hlt, Int.le_trans (h1.fits b hb).nonempty (h1.fits b hb).upper⟩ (h2.fits t ht)
      have hsn : s.Has n := by
        unfold Range.Meets at hsa hsb
        unfold Range.Has at hn ⊢
        simp only at hn
        omega
      exact ((hhave n).mp ⟨s, hs, hsn⟩).2 ⟨t, ht, htn⟩
    intro hsome s hs a ha b hb hsa hsb
    rcases h1.apart_or ha hb with heq | hap | hap
    · exact heq
    · exact (hcover hsome s hs a ha b hb (by unfold Range.Apart at hap; omega) hsa hsb).elim
    · exact (hcover hsome s hs b hb a ha (by unfold Range.Apart at hap; omega) hsb hsa).elim

/-- One overlap at most with the gaps of a list, in terms of the list. -/
theorem oneOverlap_complement_iff :
    OneOverlap v1 w ↔ NoneInside v1 v2 ∧ SomeBetween v1 v2 :=
  and_congr (meetsOne_complement_iff h1 h2 hw hhave) (complement_meetsOne_iff h1 h2 hw hhave)

end Difference

/-! ## Int subtypes -/

def intSubtypeContains (d : SubtypeData) (n : Int) : Option Bool :=
  match d with
  | .bool b => some b
  | .proper (.int v) => some (v.any fun r => decide (r.min ≤ n) && decide (n ≤ r.max))
  | .proper _ => none

theorem intSubtypeContains_iff (v : List Range) (n : Int) :
    intSubtypeContains (.proper (.int v)) n = some true ↔ rangesHave v n := by
  simp [intSubtypeContains, rangesHave, Range.Has]

/-- The subtype data contains exactly the 64-bit ints that satisfy `P`. -/
def ContainsExactly (d : Option SubtypeData) (P : Int → Prop) : Prop :=
  ∃ data, d = some data ∧ ∀ n, intMinValue ≤ n → n ≤ intMaxValue →
    (intSubtypeContains data n = some true ↔ P n)

/-- `intSubtypeIntersect` contains what the intersection of the lists does. -/
theorem containsExactly_intersect_iff (h1 : Normalised v1) (P : Int → Prop)
    (hP : ∀ n, P n → intMinValue ≤ n ∧ n ≤ intMaxValue) :
    ContainsExactly (intSubtypeIntersect (.int v1) (.int v2)) P ↔
      ∀ n, rangesHave (rangeListIntersect v1 v2) n ↔ P n := by
  have hread : ∃ data, intSubtypeIntersect (.int v1) (.int v2) = some data ∧
      ∀ n, intSubtypeContains data n = some true ↔
        rangesHave (rangeListIntersect v1 v2) n := by
    refine ⟨_, rfl, fun n => ?_⟩
    split
    next hempty =>
      rw [List.isEmpty_iff.mp hempty]
      simp [intSubtypeContains]
    next => exact intSubtypeContains_iff _ n
  obtain ⟨data, hdata, hcontains⟩ := hread
  constructor
  · intro ⟨data', hdata', hexact⟩ n
    cases hdata.symm.trans hdata'
    by_cases hin : intMinValue ≤ n ∧ n ≤ intMaxValue
    · rw [← hcontains, hexact n hin.1 hin.2]
    · refine iff_of_false (fun hn => hin ?_) (fun hn => hin (hP n hn))
      exact h1.in64 (has_of_rangeListIntersect hn).1
  · intro hexact
    exact ⟨data, hdata, fun n _ _ => by rw [hcontains, hexact]⟩

section Subtypes

variable [BddIdentity]

/-- There is no `diff` for ints: it is the intersection with the complement. -/
theorem subtypeDiff_int {v1 v2 w : List Range} (hw : rangeListComplement v2 = some w) :
    subtypeDiff ops BT_INT (.int v1) (.int v2) = intSubtypeIntersect (.int v1) (.int w) := by
  have hops : ops BT_INT =
      ⟨intSubtypeUnion, intSubtypeIntersect, none, intSubtypeComplement⟩ := rfl
  unfold subtypeDiff
  rw [hops]
  simp only [intSubtypeComplement, hw]
  rfl

/-- Intersection and difference of two lists, and of two int subtypes; the ranges of an int
subtype are never none. -/
structure IntOpsRight (v1 v2 : List Range) : Prop where
  normalised : Normalised (rangeListIntersect v1 v2)
  exact : ExactBoth (rangeListIntersect v1 v2) v1 v2
  intersect : v1 ≠ [] → v2 ≠ [] → ContainsExactly (intSubtypeIntersect (.int v1) (.int v2))
    fun n => rangesHave v1 n ∧ rangesHave v2 n
  diff : v1 ≠ [] → v2 ≠ [] → ContainsExactly (subtypeDiff ops BT_INT (.int v1) (.int v2))
    fun n => rangesHave v1 n ∧ ¬ rangesHave v2 n

theorem containsExactly_diff_iff {v1 v2 : List Range} (h1 : Normalised v1) (h2 : Normalised v2)
    (hne : v2 ≠ []) :
    ContainsExactly (subtypeDiff ops BT_INT (.int v1) (.int v2))
        (fun n => rangesHave v1 n ∧ ¬ rangesHave v2 n) ↔
      NoneInside v1 v2 ∧ SomeBetween v1 v2 := by
  obtain ⟨w, hw, hnorm, hhave⟩ := rangeListComplement_right h2 hne
  have hboth : ∀ n, rangesHave v1 n ∧ ¬ rangesHave v2 n ↔ rangesHave v1 n ∧ rangesHave w n := by
    intro n
    rw [hhave]
    exact ⟨fun h => ⟨h.1, h1.in64 h.1, h.2⟩, fun h => ⟨h.1, h.2.2⟩⟩
  rw [subtypeDiff_int hw, containsExactly_intersect_iff h1 _ fun n hn => h1.in64 hn.1,
    ← oneOverlap_complement_iff h1 h2 hnorm hhave, ← exact_rangeListIntersect_iff h1 hnorm]
  exact forall_congr' fun n => by rw [hboth]

/-- Intersection and difference are right exactly when no range of a list overlaps two of the
other; and, for the difference, no range of the second list lies inside one of the first away
from its ends, and one of the second meets the stretch between any two of the first. -/
theorem intOpsRight_iff (v1 v2 : List Range) (h1 : Normalised v1) (h2 : Normalised v2) :
    IntOpsRight v1 v2 ↔ OneOverlap v1 v2 ∧
      (v1 ≠ [] → v2 ≠ [] → NoneInside v1 v2 ∧ SomeBetween v1 v2) := by
  have hexact := exact_rangeListIntersect_iff h1 h2
  constructor
  · intro h
    exact ⟨hexact.mp h.exact,
      fun hne1 hne2 => (containsExactly_diff_iff h1 h2 hne2).mp (h.diff hne1 hne2)⟩
  · intro ⟨hone, hdiff⟩
    refine ⟨normalised_rangeListIntersect h1 h2, hexact.mpr hone, fun _ _ => ?_,
      fun hne1 hne2 => (containsExactly_diff_iff h1 h2 hne2).mpr (hdiff hne1 hne2)⟩
    exact (containsExactly_intersect_iff h1 _ fun n hn => h1.in64 hn.1).mpr (hexact.mpr hone)

end Subtypes

theorem normalised_singleton {min max : Int} (hlower : intMinValue ≤ min) (hne : min ≤ max)
    (hupper : max ≤ intMaxValue) : Normalised [⟨min, max⟩] :=
  normalised_cons.mpr ⟨⟨hlower, hne, hupper⟩, by simp, normalised_nil⟩

/-- `-128..127 | 200..300` and `0..150 | 250..400`: each range of the one overlaps one of the other. -/
theorem intOpsRight_two_ranges :
    let _ := BddIdentity.shared
    IntOpsRight [⟨-128, 127⟩, ⟨200, 300⟩] [⟨0, 150⟩, ⟨250, 400⟩] := by
  let _ := BddIdentity.shared
  have hpair : ∀ {a b c d : Int}, intMinValue ≤ a → a ≤ b → b + 1 < c → c ≤ d → d ≤ intMaxValue →
      Normalised [⟨a, b⟩, ⟨c, d⟩] := by
    intro a b c d ha hab hgap hcd hd
    refine normalised_cons.mpr ⟨⟨ha, hab, by show b ≤ intMaxValue; omega⟩, fun s hs => ?_,
      normalised_singleton (by omega) hcd hd⟩
    rw [List.mem_singleton.mp hs]
    exact hgap
  refine (intOpsRight_iff _ _ (hpair (by decide) (by decide) (by decide) (by decide) (by decide))
    (hpair (by decide) (by decide) (by decide) (by decide) (by decide))).mpr ⟨?_, fun _ _ => ⟨?_, ?_⟩⟩
  · simp [OneOverlap, MeetsOne, Range.Meets]
  · simp [NoneInside]
  · simp [SomeBetween, Range.Meets]

/-- `1..10` and `1..3 | 5..7`: the second overlap is lost. -/
theorem not_intOpsRight_two_overlaps :
    let _ := BddIdentity.shared
    Normalised [⟨1, 10⟩] ∧ Normalised [⟨1, 3⟩, ⟨5, 7⟩] ∧
      ¬ IntOpsRight [⟨1, 10⟩] [⟨1, 3⟩, ⟨5, 7⟩] := by
  let _ := BddIdentity.shared
  have htail : Normalised [⟨5, 7⟩] :=
    normalised_singleton (by decide) (by decide) (by decide)
  refine ⟨normalised_singleton (by decide) (by decide) (by decide),
    normalised_cons.mpr ⟨⟨by decide, by decide, by decide⟩, by simp [Range.Apart], htail⟩,
    fun h => ?_⟩
  have hsix : rangesHave [⟨1, 10⟩] 6 ∧ rangesHave [⟨1, 3⟩, ⟨5, 7⟩] 6 := by
    simp [Range.Has]
  have hlost : ¬ rangesHave (rangeListIntersect [⟨1, 10⟩] [⟨1, 3⟩, ⟨5, 7⟩]) 6 := by
    have hfirst : rangeListIntersect [⟨1, 10⟩] [⟨1, 3⟩, ⟨5, 7⟩] = [⟨1, 3⟩] := by decide +kernel
    rw [hfirst]
    simp [Range.Has]
  exact hlost ((h.exact 6).mpr hsix)

end Nballerina.Types
