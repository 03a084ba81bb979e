import Mathlib.Data.List.Basic
import Nballerina.Types.IntRanges

/-!
# Aligning two lists of ranges (`combineRanges` in `list.bal`)

`combineRanges` goes along the boundaries of two sorted lists of ranges. Between two neighbouring
boundaries it notes which range of either list it is in, if any, so that what it returns is a
common refinement of the two lists (`combineRanges_refines`): the ranges of the result are sorted,
each is inside a range of a list or outside of all of them, and no int of either list is left out.

Mirroring notes:
- `i1` and `ranges1[i1 ..]` are a `Cursor`.
- `next` is `none` for `int:MAX_VALUE + 1`, as in the source.
- The loop ends because the number of boundaries above `cur` gets smaller.
- `int` arithmetic panics on overflow; the functions with `64` in their names are those with this arithmetic, and
  give the same as the others (`combineRanges64_right`). An index is below the length of its list.
-/

namespace Nballerina.Types

/-- An entry of the result. -/
structure CombinedRange where
  range : Range
  index1 : Option Nat
  index2 : Option Nat
deriving DecidableEq, Repr

/-- A place in a list of ranges. -/
structure Cursor where
  index : Nat
  rest : List Range
deriving DecidableEq, Repr

/-- `while i < len && cur > ranges[i].max` -/
def skipBefore (cur : Int) : Nat → List Range → Cursor
  | i, [] => ⟨i, []⟩
  | i, r :: rest => if cur > r.max then skipBefore cur (i + 1) rest else ⟨i, r :: rest⟩

def Cursor.skip (cur : Int) (c : Cursor) : Cursor := skipBefore cur c.index c.rest

def nextBoundary (cur : Int) (r : Range) (next : Option Int) : Option Int :=
  if r.min > cur ∧ (next = none ∨ next.any (r.min < ·)) then some r.min
  else if r.max ≠ intMaxValue then
    let i := r.max + 1
    if i > cur ∧ (next = none ∨ next.any (i < ·)) then some i else next
  else next

/-- `if i < len { next = nextBoundary(cur, ranges[i], next); }` -/
def Cursor.nextBoundary (cur : Int) (c : Cursor) (next : Option Int) : Option Int :=
  match c.rest with
  | [] => next
  | r :: _ => Types.nextBoundary cur r next

/-- The index of the range that `cur ..< max + 1` is in. -/
def Cursor.within (cur max : Int) (c : Cursor) : Option Nat :=
  match c.rest with
  | [] => none
  | r :: _ => if cur ≥ r.min ∧ max ≤ r.max then some c.index else none

/-- `next == () ? int:MAX_VALUE : next - 1` -/
def lastBefore : Option Int → Int
  | none => intMaxValue
  | some next => next - 1

/-- What is pushed for `cur`. -/
def combinedAt (cur max : Int) (c1 c2 : Cursor) : List CombinedRange :=
  let in1 := c1.within cur max
  let in2 := c2.within cur max
  if in1 ≠ none ∨ in2 ≠ none then [⟨⟨cur, max⟩, in1, in2⟩] else []

/-! ## The boundaries that are left -/

def boundariesOf (rest : List Range) : List Int := rest.flatMap fun r => [r.min, r.max + 1]

/-- How many boundaries are above `cur`. -/
def boundariesLeft (cur : Int) (c1 c2 : Cursor) : Nat :=
  ((boundariesOf c1.rest ++ boundariesOf c2.rest).filter (cur < ·)).length

theorem suffix_skipBefore (cur : Int) : ∀ (i : Nat) (rest : List Range),
    (skipBefore cur i rest).rest <:+ rest
  | _, [] => List.suffix_refl []
  | i, r :: rest => by
    unfold skipBefore
    split
    · exact (suffix_skipBefore cur (i + 1) rest).trans (List.suffix_cons r rest)
    · exact List.suffix_refl _

theorem sublist_boundariesOf_skip (cur : Int) (c : Cursor) :
    (boundariesOf (c.skip cur).rest).Sublist (boundariesOf c.rest) := by
  obtain ⟨before, hbefore⟩ := suffix_skipBefore cur c.index c.rest
  have heq : boundariesOf c.rest = boundariesOf before ++ boundariesOf (c.skip cur).rest := by
    unfold boundariesOf
    rw [← List.flatMap_append]
    exact congrArg _ hbefore.symm
  rw [heq]
  exact List.sublist_append_right _ _

variable {cur n : Int} {r : Range} {c1 c2 : Cursor} {ranges ranges1 ranges2 : List Range}
  {next : Option Int}

theorem nextBoundary_cases (h : nextBoundary cur r next = some n) :
    next = some n ∨ (cur < n ∧ (n = r.min ∨ n = r.max + 1)) := by
  unfold nextBoundary at h
  split at h
  next hmin =>
    cases h
    exact .inr ⟨hmin.1, .inl rfl⟩
  next =>
    split at h
    next =>
      dsimp only at h
      split at h
      next hmax =>
        cases h
        exact .inr ⟨hmax.1, .inr rfl⟩
      next => exact .inl h
    next => exact .inl h

theorem Cursor.nextBoundary_cases {cur : Int} {c : Cursor} {next : Option Int} {n : Int}
    (h : c.nextBoundary cur next = some n) :
    next = some n ∨ (cur < n ∧ n ∈ boundariesOf c.rest) := by
  unfold Cursor.nextBoundary at h
  split at h
  next => exact .inl h
  next r rest hrest =>
    rcases Types.nextBoundary_cases h with hnext | ⟨hlt, hn⟩
    · exact .inl hnext
    · refine .inr ⟨hlt, ?_⟩
      rw [hrest]
      unfold boundariesOf
      rw [List.flatMap_cons]
      refine List.mem_append_left _ ?_
      rcases hn with rfl | rfl
      · exact .head _
      · exact .tail _ (.head _)

/-- Going on to a boundary leaves fewer of them. -/
theorem boundariesLeft_lt
    (h : (c2.skip cur).nextBoundary cur ((c1.skip cur).nextBoundary cur none) = some n) :
    boundariesLeft n (c1.skip cur) (c2.skip cur) < boundariesLeft cur c1 c2 := by
  have hn : cur < n ∧ n ∈ boundariesOf (c1.skip cur).rest ++ boundariesOf (c2.skip cur).rest := by
    rcases Cursor.nextBoundary_cases h with h | ⟨hlt, hmem⟩
    · rcases Cursor.nextBoundary_cases h with h | ⟨hlt, hmem⟩
      · cases h
      · exact ⟨hlt, List.mem_append_left _ hmem⟩
    · exact ⟨hlt, List.mem_append_right _ hmem⟩
  obtain ⟨hlt, hmem⟩ := hn
  have hsub := (sublist_boundariesOf_skip cur c1).append (sublist_boundariesOf_skip cur c2)
  unfold boundariesLeft
  refine Nat.lt_of_lt_of_le ?_ (hsub.filter _).length_le
  generalize boundariesOf (c1.skip cur).rest ++ boundariesOf (c2.skip cur).rest = l at hmem
  have hmono : (l.filter (n < ·)).Sublist (l.filter (cur < ·)) := by
    refine List.monotone_filter_right l fun m hm => ?_
    rw [decide_eq_true_iff] at hm ⊢
    omega
  refine Nat.lt_of_le_of_ne hmono.length_le fun heq => ?_
  have hin : n ∈ l.filter (cur < ·) := List.mem_filter.mpr ⟨hmem, decide_eq_true hlt⟩
  rw [← hmono.eq_of_length heq] at hin
  have hself := of_decide_eq_true (List.mem_filter.mp hin).2
  omega

/-! ## The loop -/

def combineRangesLoop (cur : Int) (c1 c2 : Cursor) : List CombinedRange :=
  match _h : (c2.skip cur).nextBoundary cur ((c1.skip cur).nextBoundary cur none) with
  | none => combinedAt cur (lastBefore none) (c1.skip cur) (c2.skip cur)
  | some next =>
    combinedAt cur (lastBefore (some next)) (c1.skip cur) (c2.skip cur) ++
      combineRangesLoop next (c1.skip cur) (c2.skip cur)
termination_by boundariesLeft cur c1 c2
decreasing_by exact boundariesLeft_lt _h

def combineRanges (ranges1 ranges2 : List Range) : List CombinedRange :=
  combineRangesLoop intMinValue ⟨0, ranges1⟩ ⟨0, ranges2⟩

def distinctRanges (range1 range2 : List Range) : List Range :=
  (combineRanges range1 range2).map (·.range)

/-! ## The loop with 64-bit arithmetic -/

def nextBoundary64 (cur : Int) (r : Range) (next : Option Int) : Option (Option Int) :=
  if r.min > cur ∧ (next = none ∨ next.any (r.min < ·)) then some (some r.min)
  else if r.max ≠ intMaxValue then do
    let i ← addInt r.max 1
    return if i > cur ∧ (next = none ∨ next.any (i < ·)) then some i else next
  else some next

def Cursor.nextBoundary64 (cur : Int) (c : Cursor) (next : Option Int) : Option (Option Int) :=
  match c.rest with
  | [] => some next
  | r :: _ => Types.nextBoundary64 cur r next

def lastBefore64 : Option Int → Option Int
  | none => some intMaxValue
  | some next => addInt next (-1)

theorem addInt_eq {a b i : Int} (h : addInt a b = some i) : i = a + b := by
  unfold addInt at h
  split at h
  next => exact (Option.some.inj h).symm
  next => cases h

/-- Without a panic it is the same boundary. -/
theorem nextBoundary_of_nextBoundary64 {next' : Option Int} (h : nextBoundary64 cur r next = some next') :
    nextBoundary cur r next = next' := by
  unfold nextBoundary64 at h
  unfold nextBoundary
  split at h
  next hmin =>
    rw [if_pos hmin]
    exact Option.some.inj h
  next hmin =>
    rw [if_neg hmin]
    split at h
    next hmax =>
      obtain ⟨i, hi, h⟩ := Option.bind_eq_some_iff.mp h
      rw [if_pos hmax, ← addInt_eq hi]
      exact Option.some.inj h
    next hmax =>
      rw [if_neg hmax]
      exact Option.some.inj h

theorem Cursor.nextBoundary_of_nextBoundary64 {cur : Int} {c : Cursor} {next next' : Option Int}
    (h : c.nextBoundary64 cur next = some next') : c.nextBoundary cur next = next' := by
  unfold Cursor.nextBoundary64 at h
  unfold Cursor.nextBoundary
  split at h
  next => exact Option.some.inj h
  next => exact Types.nextBoundary_of_nextBoundary64 h

/-- The next boundary of the two lists. -/
def bothNextBoundary64 (cur : Int) (c1 c2 : Cursor) : Option (Option Int) := do
  let next ← c1.nextBoundary64 cur none
  c2.nextBoundary64 cur next

theorem nextBoundary_of_bothNextBoundary64 (h : bothNextBoundary64 cur c1 c2 = some next) :
    c2.nextBoundary cur (c1.nextBoundary cur none) = next := by
  obtain ⟨next1, h1, h2⟩ := Option.bind_eq_some_iff.mp h
  rw [Cursor.nextBoundary_of_nextBoundary64 h1]
  exact Cursor.nextBoundary_of_nextBoundary64 h2

def combineRangesLoop64 (cur : Int) (c1 c2 : Cursor) : Option (List CombinedRange) :=
  match _h : bothNextBoundary64 cur (c1.skip cur) (c2.skip cur) with
  | none => none
  | some none => do
    let max ← lastBefore64 none
    return combinedAt cur max (c1.skip cur) (c2.skip cur)
  | some (some next) => do
    let max ← lastBefore64 (some next)
    let combined ← combineRangesLoop64 next (c1.skip cur) (c2.skip cur)
    return combinedAt cur max (c1.skip cur) (c2.skip cur) ++ combined
termination_by boundariesLeft cur c1 c2
decreasing_by exact boundariesLeft_lt (nextBoundary_of_bothNextBoundary64 _h)

def combineRanges64 (ranges1 ranges2 : List Range) : Option (List CombinedRange) :=
  combineRangesLoop64 intMinValue ⟨0, ranges1⟩ ⟨0, ranges2⟩

/-! ## What it returns -/

/-- Sorted and disjoint, with 64-bit bounds; neighbours may be adjacent. -/
structure SortedRanges (v : List Range) : Prop where
  fits : ∀ r ∈ v, r.Fits
  sorted : v.Pairwise fun r s => r.max < s.min

theorem Normalised.sortedRanges {v : List Range} (h : Normalised v) : SortedRanges v where
  fits := h.fits
  sorted := h.apart.imp fun hapart => by
    unfold Range.Apart at hapart
    omega

theorem SortedRanges.lt_of_getElem? {v : List Range} (h : SortedRanges v) {i j : Nat} (hlt : i < j)
    {s : Range} (hr : v[i]? = some r) (hs : v[j]? = some s) : r.max < s.min := by
  obtain ⟨hi, rfl⟩ := List.getElem?_eq_some_iff.mp hr
  obtain ⟨hj, rfl⟩ := List.getElem?_eq_some_iff.mp hs
  exact List.pairwise_iff_getElem.mp h.sorted i j hi hj hlt

/-- What an index in the result says of its range: it is inside that range of the list, or outside
of all of them. -/
def IndexRight (ranges : List Range) (r : Range) : Option Nat → Prop
  | none => ∀ n, r.Has n → ¬ rangesHave ranges n
  | some i => ∃ s, ranges[i]? = some s ∧ s.min ≤ r.min ∧ r.max ≤ s.max

/-- An int of the range is in just one range of the list. -/
theorem IndexRight.eq_some {e : Range} {index : Option Nat} (h : IndexRight ranges e index)
    (hsorted : SortedRanges ranges) {k : Nat} (hk : ranges[k]? = some r) (hn : r.Has n) (he : e.Has n) :
    index = some k := by
  cases index with
  | none => exact absurd ⟨r, List.mem_of_getElem? hk, hn⟩ (h n he)
  | some j =>
    obtain ⟨s, hs, hmin, hmax⟩ := h
    have hhas : s.Has n := by
      unfold Range.Has at he ⊢
      omega
    refine congrArg some (Nat.le_antisymm (Nat.le_of_not_lt fun hlt => ?_)
      (Nat.le_of_not_lt fun hlt => ?_))
    · have := hsorted.lt_of_getElem? hlt hk hs
      unfold Range.Has at hn hhas
      omega
    · have := hsorted.lt_of_getElem? hlt hs hk
      unfold Range.Has at hn hhas
      omega

/-- The entries refine both lists from `cur` on. -/
structure Refines (ranges1 ranges2 : List Range) (cur : Int) (result : List CombinedRange) : Prop where
  fits : ∀ e ∈ result, e.range.Fits
  after : ∀ e ∈ result, cur ≤ e.range.min
  index1 : ∀ e ∈ result, IndexRight ranges1 e.range e.index1
  index2 : ∀ e ∈ result, IndexRight ranges2 e.range e.index2
  inside : ∀ e ∈ result, e.index1 ≠ none ∨ e.index2 ≠ none
  sorted : result.Pairwise fun e e' => e.range.max < e'.range.min
  covers : ∀ n, cur ≤ n → rangesHave ranges1 n ∨ rangesHave ranges2 n → ∃ e ∈ result, e.range.Has n

/-- The ranges before the cursor end before `cur`. -/
structure Cursor.At (ranges : List Range) (cur : Int) (c : Cursor) : Prop where
  place : ∃ before, ranges = before ++ c.rest ∧ before.length = c.index ∧ ∀ r ∈ before, r.max < cur

/-- So do all that end before `cur`. -/
structure Cursor.Skipped (ranges : List Range) (cur : Int) (c : Cursor) : Prop
    extends c.At ranges cur where
  head : ∀ r rest, c.rest = r :: rest → cur ≤ r.max

theorem skipped_skipBefore {ranges : List Range} {cur : Int} : ∀ (i : Nat) (rest : List Range),
    (⟨i, rest⟩ : Cursor).At ranges cur → (skipBefore cur i rest).Skipped ranges cur
  | i, [], h => ⟨h, fun r rest hrest => (by cases hrest)⟩
  | i, r :: rest, h => by
    unfold skipBefore
    split
    next hlt =>
      obtain ⟨before, heq, hlen, hbefore⟩ := h.place
      refine skipped_skipBefore (i + 1) rest ⟨before ++ [r], ?_, ?_, fun s hs => ?_⟩
      · rw [List.append_assoc]
        exact heq
      · rw [List.length_append, hlen]
        rfl
      · rcases List.mem_append.mp hs with hs | hs
        · exact hbefore s hs
        · rw [List.mem_singleton.mp hs]
          exact hlt
    next hle =>
      refine ⟨h, fun s rest' hrest => ?_⟩
      cases hrest
      omega

theorem Cursor.At.mono {cur' : Int} {c : Cursor} (h : c.At ranges cur) (hle : cur ≤ cur') :
    c.At ranges cur' := by
  obtain ⟨before, heq, hlen, hbefore⟩ := h.place
  refine ⟨before, heq, hlen, fun r hr => ?_⟩
  have := hbefore r hr
  omega

/-- The boundary, with `int:MAX_VALUE + 1` for `()`. -/
def boundaryValue (next : Option Int) : Int := next.getD (intMaxValue + 1)

theorem lastBefore_eq (next : Option Int) : lastBefore next = boundaryValue next - 1 := by
  cases next with
  | none =>
    show intMaxValue = intMaxValue + 1 - 1
    omega
  | some n => rfl

/-- A boundary after `cur`. -/
structure AfterCur (cur : Int) (next : Option Int) : Prop where
  lt : cur < boundaryValue next
  upper : ∀ n, next = some n → n ≤ intMaxValue

theorem AfterCur.le (h : AfterCur cur next) :
    boundaryValue next ≤ intMaxValue + 1 := by
  cases next with
  | none => exact Int.le_refl _
  | some n =>
    have := h.upper n rfl
    show n ≤ intMaxValue + 1
    omega

/-- The first place after `cur` where a range that has not ended starts or ends. -/
def Range.boundaryAfter (cur : Int) (r : Range) : Int := if cur < r.min then r.min else r.max + 1

/-- `nextBoundary` takes the smaller of the two boundaries. -/
theorem nextBoundary_spec (hr : r.Fits) (hcur : cur ≤ r.max) (hnext : AfterCur cur next) :
    AfterCur cur (nextBoundary cur r next) ∧
      boundaryValue (nextBoundary cur r next) = min (boundaryValue next) (r.boundaryAfter cur) := by
  have hlt := hnext.lt
  have hle := hnext.le
  have hnonempty := hr.nonempty
  have hupper := hr.upper
  have hless : ∀ m, m ≤ intMaxValue → ((next = none ∨ next.any (m < ·)) ↔ m < boundaryValue next) := by
    intro m hm
    cases next with
    | none =>
      refine iff_of_true (.inl rfl) ?_
      show m < intMaxValue + 1
      omega
    | some n => simp [boundaryValue]
  have hsome : ∀ m, cur < m → m ≤ intMaxValue → AfterCur cur (some m) := by
    intro m hm hmle
    refine ⟨hm, fun n hn => ?_⟩
    cases hn
    exact hmle
  unfold nextBoundary Range.boundaryAfter
  have hstarts := hless r.min (by omega)
  by_cases hmin : cur < r.min
  · rw [if_pos hmin]
    by_cases hfirst : r.min < boundaryValue next
    · rw [if_pos ⟨hmin, hstarts.mpr hfirst⟩]
      refine ⟨hsome r.min hmin (by omega), ?_⟩
      show r.min = _
      omega
    · -- the range starts after `next`, so it ends after it too
      rw [if_neg (fun h => hfirst (hstarts.mp h.2))]
      by_cases hmax : r.max = intMaxValue
      · rw [if_neg (not_not.mpr hmax)]
        exact ⟨hnext, by omega⟩
      · rw [if_pos hmax]
        dsimp only
        rw [if_neg (fun h => by
          have := (hless (r.max + 1) (by omega)).mp h.2
          omega)]
        exact ⟨hnext, by omega⟩
  · rw [if_neg hmin, if_neg (fun h => hmin h.1)]
    by_cases hmax : r.max = intMaxValue
    · rw [if_neg (not_not.mpr hmax)]
      exact ⟨hnext, by omega⟩
    · rw [if_pos hmax]
      dsimp only
      have hlast := hless (r.max + 1) (by omega)
      by_cases hfirst : r.max + 1 < boundaryValue next
      · rw [if_pos ⟨by omega, hlast.mpr hfirst⟩]
        refine ⟨hsome (r.max + 1) (by omega) (by omega), ?_⟩
        show r.max + 1 = _
        omega
      · rw [if_neg (fun h => hfirst (hlast.mp h.2))]
        exact ⟨hnext, by omega⟩

/-- The same at a cursor. -/
theorem Cursor.nextBoundary_spec {ranges : List Range} {cur : Int} {c : Cursor} {next : Option Int}
    (hranges : SortedRanges ranges) (hc : c.Skipped ranges cur) (hnext : AfterCur cur next) :
    AfterCur cur (c.nextBoundary cur next) ∧
      boundaryValue (c.nextBoundary cur next) ≤ boundaryValue next ∧
      ∀ r rest, c.rest = r :: rest →
        boundaryValue (c.nextBoundary cur next) ≤ r.boundaryAfter cur := by
  unfold Cursor.nextBoundary
  split
  next hnil => exact ⟨hnext, Int.le_refl _, fun r rest h => by rw [hnil] at h; cases h⟩
  next r rest hrest =>
    obtain ⟨before, heq, _⟩ := hc.place
    have hmem : r ∈ ranges := by
      rw [heq, hrest]
      exact List.mem_append_right _ (.head _)
    obtain ⟨hafter, hvalue⟩ :=
      Types.nextBoundary_spec (hranges.fits r hmem) (hc.head r rest hrest) hnext
    refine ⟨hafter, by omega, fun s rest' hs => ?_⟩
    rw [hrest] at hs
    cases hs
    omega

/-- Up to the next boundary nothing changes. -/
theorem Cursor.within_right {max : Int} {c : Cursor} (hranges : SortedRanges ranges)
    (hc : c.Skipped ranges cur) (hmax : ∀ r rest, c.rest = r :: rest → max < r.boundaryAfter cur) :
    IndexRight ranges ⟨cur, max⟩ (c.within cur max) := by
  obtain ⟨before, heq, hlen, hbefore⟩ := hc.place
  have hpast : ∀ n, cur ≤ n → ¬ rangesHave before n := by
    intro n hn ⟨r, hr, hhas⟩
    have := hbefore r hr
    unfold Range.Has at hhas
    omega
  unfold Cursor.within
  split
  next hnil =>
    intro n hn hhave
    rw [heq, hnil, List.append_nil] at hhave
    exact hpast n hn.1 hhave
  next r rest hrest =>
    have hbound := hmax r rest hrest
    unfold Range.boundaryAfter at hbound
    split
    next hin =>
      refine ⟨r, ?_, hin.1, hin.2⟩
      rw [heq, hrest, ← hlen, List.getElem?_append_right (Nat.le_refl _), Nat.sub_self]
      rfl
    next hout =>
      -- the range has not ended, so it starts after `cur`, and the others after it
      have hstart : max < r.min := by
        split at hbound
        next => exact hbound
        next hmin =>
          refine absurd ⟨?_, ?_⟩ hout
          · omega
          · omega
      intro n hn hhave
      have hnle : n ≤ max := hn.2
      rw [heq, hrest, rangesHave_append, rangesHave_cons] at hhave
      rcases hhave with hhave | hhave | ⟨s, hs, hhas⟩
      · exact hpast n hn.1 hhave
      · unfold Range.Has at hhave
        omega
      · have hsorted := hranges.sorted
        rw [heq, hrest] at hsorted
        have hlt := (List.pairwise_cons.mp (List.pairwise_append.mp hsorted).2.1).1 s hs
        have hfit := (hranges.fits r (by
          rw [heq, hrest]
          exact List.mem_append_right _ (.head _))).nonempty
        unfold Range.Has at hhas
        omega

/-- The entry for `cur`, if there is one. -/
theorem refines_combinedAt {max : Int} (hcur : intMinValue ≤ cur) (hle : cur ≤ max)
    (hmax : max ≤ intMaxValue) (h1 : IndexRight ranges1 ⟨cur, max⟩ (c1.within cur max))
    (h2 : IndexRight ranges2 ⟨cur, max⟩ (c2.within cur max)) {result : List CombinedRange}
    (hrest : Refines ranges1 ranges2 (max + 1) result) :
    Refines ranges1 ranges2 cur (combinedAt cur max c1 c2 ++ result) := by
  unfold combinedAt
  dsimp only
  split
  next hin =>
    have hentry : ∀ {P : CombinedRange → Prop}, P ⟨⟨cur, max⟩, c1.within cur max, c2.within cur max⟩ →
        (∀ e ∈ result, P e) →
        ∀ e ∈ [(⟨⟨cur, max⟩, c1.within cur max, c2.within cur max⟩ : CombinedRange)] ++ result, P e := by
      intro P hP hresult e he
      rcases List.mem_cons.mp he with rfl | he
      · exact hP
      · exact hresult e he
    refine ⟨hentry ⟨hcur, hle, hmax⟩ hrest.fits, hentry (Int.le_refl cur) fun e he => ?_,
      hentry h1 hrest.index1, hentry h2 hrest.index2, hentry hin hrest.inside,
      List.pairwise_cons.mpr ⟨fun e he => ?_, hrest.sorted⟩, fun n hn hhave => ?_⟩
    · have := hrest.after e he
      omega
    · have := hrest.after e he
      show max < e.range.min
      omega
    · by_cases hlt : n ≤ max
      · exact ⟨_, .head _, hn, hlt⟩
      · obtain ⟨e, he, hhas⟩ := hrest.covers n (by omega) hhave
        exact ⟨e, .tail _ he, hhas⟩
  next hout =>
    rw [not_or, not_not, not_not] at hout
    rw [hout.1] at h1
    rw [hout.2] at h2
    refine ⟨hrest.fits, fun e he => ?_, hrest.index1, hrest.index2, hrest.inside, hrest.sorted,
      fun n hn hhave => ?_⟩
    · have := hrest.after e he
      omega
    · by_cases hlt : n ≤ max
      · rcases hhave with hhave | hhave
        · exact absurd hhave (h1 n ⟨hn, hlt⟩)
        · exact absurd hhave (h2 n ⟨hn, hlt⟩)
      · exact hrest.covers n (by omega) hhave

/-- Nothing is left after `int:MAX_VALUE`. -/
theorem refines_nil (h1 : SortedRanges ranges1) (h2 : SortedRanges ranges2) :
    Refines ranges1 ranges2 (intMaxValue + 1) [] := by
  have hnone : ∀ {v : List Range}, SortedRanges v → ∀ n, intMaxValue + 1 ≤ n → ¬ rangesHave v n := by
    intro v hv n hn ⟨r, hr, hhas⟩
    have := (hv.fits r hr).upper
    unfold Range.Has at hhas
    omega
  refine ⟨?_, ?_, ?_, ?_, ?_, List.Pairwise.nil, fun n hn hhave => ?_⟩
  any_goals exact fun e he => absurd he List.not_mem_nil
  rcases hhave with hhave | hhave
  · exact absurd hhave (hnone h1 n hn)
  · exact absurd hhave (hnone h2 n hn)

theorem refines_combineRangesLoop {ranges1 ranges2 : List Range} (h1 : SortedRanges ranges1)
    (h2 : SortedRanges ranges2) (cur : Int) (c1 c2 : Cursor) (hmin : intMinValue ≤ cur)
    (hmax : cur ≤ intMaxValue) (hc1 : c1.At ranges1 cur) (hc2 : c2.At ranges2 cur) :
    Refines ranges1 ranges2 cur (combineRangesLoop cur c1 c2) := by
  -- what is the same whether or not there is a next boundary
  have hskip1 : (c1.skip cur).Skipped ranges1 cur := skipped_skipBefore _ _ hc1
  have hskip2 : (c2.skip cur).Skipped ranges2 cur := skipped_skipBefore _ _ hc2
  have hstart : AfterCur cur none := ⟨by show cur < intMaxValue + 1; omega, fun n hn => (by cases hn)⟩
  obtain ⟨hafter1, _, hbound1⟩ := Cursor.nextBoundary_spec h1 hskip1 hstart
  obtain ⟨hafter, hle, hbound2⟩ := Cursor.nextBoundary_spec h2 hskip2 hafter1
  have hstep : ∀ next, (c2.skip cur).nextBoundary cur ((c1.skip cur).nextBoundary cur none) = next →
      ∀ {result}, Refines ranges1 ranges2 (boundaryValue next) result →
      Refines ranges1 ranges2 cur
        (combinedAt cur (lastBefore next) (c1.skip cur) (c2.skip cur) ++ result) := by
    intro next hnext result hresult
    rw [hnext] at hafter hle hbound2
    have hlt := hafter.lt
    have hupper := hafter.le
    rw [lastBefore_eq]
    refine refines_combinedAt hmin (by omega) (by omega)
      (Cursor.within_right h1 hskip1 fun r rest hr => ?_)
      (Cursor.within_right h2 hskip2 fun r rest hr => ?_) ?_
    · have := hbound1 r rest hr
      omega
    · have := hbound2 r rest hr
      omega
    · rw [show boundaryValue next - 1 + 1 = boundaryValue next by omega]
      exact hresult
  unfold combineRangesLoop
  split
  next hnext =>
    have hdone := hstep none hnext (refines_nil h1 h2)
    rw [List.append_nil] at hdone
    exact hdone
  next next hnext =>
    rw [hnext] at hafter
    have hlt : cur < next := hafter.lt
    exact hstep (some next) hnext (refines_combineRangesLoop h1 h2 next _ _ (by omega)
      (hafter.upper next rfl) (hskip1.toAt.mono (by omega)) (hskip2.toAt.mono (by omega)))
termination_by boundariesLeft cur c1 c2
decreasing_by exact boundariesLeft_lt (by assumption)

theorem nextBoundary64_eq (hr : r.Fits) (next : Option Int) :
    nextBoundary64 cur r next = some (nextBoundary cur r next) := by
  unfold nextBoundary64 nextBoundary
  split
  next => rfl
  next =>
    split
    next hmax =>
      have hlower := hr.lower
      have hnonempty := hr.nonempty
      have hupper := hr.upper
      have hadd : addInt r.max 1 = some (r.max + 1) := if_pos (by omega)
      rw [hadd]
      rfl
    next => rfl

theorem Cursor.nextBoundary64_eq {ranges : List Range} {cur : Int} {c : Cursor}
    (hranges : SortedRanges ranges) (hc : c.At ranges cur) (next : Option Int) :
    c.nextBoundary64 cur next = some (c.nextBoundary cur next) := by
  unfold Cursor.nextBoundary64 Cursor.nextBoundary
  split
  next => rfl
  next r rest hrest =>
    obtain ⟨before, heq, _⟩ := hc.place
    refine Types.nextBoundary64_eq (hranges.fits r ?_) next
    rw [heq, hrest]
    exact List.mem_append_right _ (.head _)

theorem lastBefore64_eq (hcur : intMinValue ≤ cur) (hnext : AfterCur cur next) :
    lastBefore64 next = some (lastBefore next) := by
  cases next with
  | none => rfl
  | some n =>
    have hlt : cur < n := hnext.lt
    have hupper := hnext.upper n rfl
    exact if_pos (by omega)

/-- Nothing overflows. -/
theorem combineRangesLoop64_eq {ranges1 ranges2 : List Range} (h1 : SortedRanges ranges1)
    (h2 : SortedRanges ranges2) (cur : Int) (c1 c2 : Cursor) (hmin : intMinValue ≤ cur)
    (hmax : cur ≤ intMaxValue) (hc1 : c1.At ranges1 cur) (hc2 : c2.At ranges2 cur) :
    combineRangesLoop64 cur c1 c2 = some (combineRangesLoop cur c1 c2) := by
  have hskip1 : (c1.skip cur).Skipped ranges1 cur := skipped_skipBefore _ _ hc1
  have hskip2 : (c2.skip cur).Skipped ranges2 cur := skipped_skipBefore _ _ hc2
  have hstart : AfterCur cur none := ⟨by show cur < intMaxValue + 1; omega, fun n hn => (by cases hn)⟩
  obtain ⟨hafter1, _, _⟩ := Cursor.nextBoundary_spec h1 hskip1 hstart
  obtain ⟨hafter, _, _⟩ := Cursor.nextBoundary_spec h2 hskip2 hafter1
  have hboth : bothNextBoundary64 cur (c1.skip cur) (c2.skip cur) =
      some ((c2.skip cur).nextBoundary cur ((c1.skip cur).nextBoundary cur none)) := by
    unfold bothNextBoundary64
    rw [Cursor.nextBoundary64_eq h1 hskip1.toAt, Option.bind_eq_bind, Option.bind_some,
      Cursor.nextBoundary64_eq h2 hskip2.toAt]
  unfold combineRangesLoop64 combineRangesLoop
  split
  next hnone =>
    rw [hboth] at hnone
    cases hnone
  next hnone =>
    rw [hboth, Option.some.injEq] at hnone
    split
    next => rfl
    next next hnext =>
      rw [hnone] at hnext
      cases hnext
  next next hsome =>
    have hfewer := boundariesLeft_lt (nextBoundary_of_bothNextBoundary64 hsome)
    rw [hboth, Option.some.injEq] at hsome
    rw [hsome] at hafter
    have hlt : cur < next := hafter.lt
    have hrest := combineRangesLoop64_eq h1 h2 next _ _ (by omega) (hafter.upper next rfl)
      (hskip1.toAt.mono (by omega)) (hskip2.toAt.mono (by omega))
    split
    next hnone =>
      rw [hsome] at hnone
      cases hnone
    next next' hnext =>
      rw [hsome] at hnext
      cases hnext
      rw [lastBefore64_eq hmin hafter, hrest]
      rfl
termination_by boundariesLeft cur c1 c2
decreasing_by assumption

theorem cursor_start (ranges : List Range) : (⟨0, ranges⟩ : Cursor).At ranges intMinValue :=
  ⟨[], rfl, rfl, fun _ hr => absurd hr List.not_mem_nil⟩

/-- The result is a common refinement of the two lists. -/
theorem combineRanges_refines (h1 : SortedRanges ranges1) (h2 : SortedRanges ranges2) :
    Refines ranges1 ranges2 intMinValue (combineRanges ranges1 ranges2) := by
  refine refines_combineRangesLoop h1 h2 intMinValue _ _ (Int.le_refl _) ?_ (cursor_start _) (cursor_start _)
  show (-9223372036854775808 : Int) ≤ 9223372036854775807
  omega

theorem combineRanges64_eq (h1 : SortedRanges ranges1) (h2 : SortedRanges ranges2) :
    combineRanges64 ranges1 ranges2 = some (combineRanges ranges1 ranges2) := by
  refine combineRangesLoop64_eq h1 h2 intMinValue _ _ (Int.le_refl _) ?_ (cursor_start _) (cursor_start _)
  show (-9223372036854775808 : Int) ≤ 9223372036854775807
  omega

/-- The range is inside the range of the list with that index. -/
def InsideAt (ranges : List Range) (r : Range) (i : Nat) : Prop :=
  ∃ s, ranges[i]? = some s ∧ s.min ≤ r.min ∧ r.max ≤ s.max

/-- The index is that of the range of the list around it, and missing if it is outside of all of them. -/
structure IndexExact (ranges : List Range) (r : Range) (index : Option Nat) : Prop where
  some_iff : ∀ i, index = some i ↔ InsideAt ranges r i
  none_iff : index = none ↔ ∀ n, r.Has n → ¬ rangesHave ranges n

theorem IndexRight.exact {ranges : List Range} {r : Range} {index : Option Nat}
    (h : IndexRight ranges r index) (hsorted : SortedRanges ranges) (hr : r.Fits) :
    IndexExact ranges r index := by
  have hmin : r.Has r.min := ⟨Int.le_refl _, hr.nonempty⟩
  refine ⟨fun i => ⟨fun hi => ?_, ?_⟩, fun hnone => ?_, fun hout => ?_⟩
  · rw [hi] at h
    exact h
  · rintro ⟨s, hs, hlower, hupper⟩
    exact h.eq_some hsorted hs ⟨hlower, Int.le_trans hmin.2 hupper⟩ hmin
  · rw [hnone] at h
    exact h
  · cases index with
    | none => rfl
    | some i =>
      obtain ⟨s, hs, hlower, hupper⟩ := h
      exact absurd ⟨s, List.mem_of_getElem? hs, hlower, Int.le_trans hmin.2 hupper⟩ (hout r.min hmin)

/-- Ranges that do not overlap have no int in common. -/
theorem eq_of_has {combined : List CombinedRange}
    (h : combined.Pairwise fun e e' => e.range.max < e'.range.min) {e e' : CombinedRange}
    (he : e ∈ combined) (he' : e' ∈ combined) (hn : e.range.Has n) (hn' : e'.range.Has n) : e = e' := by
  obtain ⟨i, hi, rfl⟩ := List.getElem_of_mem he
  obtain ⟨j, hj, rfl⟩ := List.getElem_of_mem he'
  unfold Range.Has at hn hn'
  rcases Nat.lt_trichotomy i j with hlt | rfl | hlt
  · have := List.pairwise_iff_getElem.mp h i j hi hj hlt
    omega
  · rfl
  · have := List.pairwise_iff_getElem.mp h j i hj hi hlt
    omega

/-- There is no overflow, and the result says of each part of the ints in which ranges it is. -/
theorem combineRanges64_right {ranges1 ranges2 : List Range} (h1 : SortedRanges ranges1)
    (h2 : SortedRanges ranges2) :
    ∃ combined, combineRanges64 ranges1 ranges2 = some combined ∧ (∀ e ∈ combined, e.range.Fits) ∧
      combined.Pairwise (fun e e' => e.range.max < e'.range.min) ∧
      (∀ n, rangesHave ranges1 n ∨ rangesHave ranges2 n → ∃! e, e ∈ combined ∧ e.range.Has n) ∧
      (∀ e ∈ combined, e.index1 ≠ none ∨ e.index2 ≠ none) ∧
      ∀ e ∈ combined, IndexExact ranges1 e.range e.index1 ∧ IndexExact ranges2 e.range e.index2 := by
  have href := combineRanges_refines h1 h2
  refine ⟨_, combineRanges64_eq h1 h2, href.fits, href.sorted, fun n hn => ?_, href.inside, fun e he =>
    ⟨(href.index1 e he).exact h1 (href.fits e he), (href.index2 e he).exact h2 (href.fits e he)⟩⟩
  have hlower : intMinValue ≤ n := by
    rcases hn with ⟨r, hr, hhas⟩ | ⟨r, hr, hhas⟩
    · exact Int.le_trans (h1.fits r hr).lower hhas.1
    · exact Int.le_trans (h2.fits r hr).lower hhas.1
  obtain ⟨e, he, hhas⟩ := href.covers n hlower hn
  exact ⟨e, ⟨he, hhas⟩, fun e' he' => eq_of_has href.sorted he'.1 he he'.2 hhas⟩

/-- Ranges that meet, and ranges at both ends of the ints. -/
theorem combineRanges64_right_ends :
    let ranges1 : List Range := [⟨intMinValue, -1⟩, ⟨0, intMaxValue⟩]
    let ranges2 : List Range := [⟨intMinValue, intMinValue⟩, ⟨5, intMaxValue⟩]
    ∃ combined, combineRanges64 ranges1 ranges2 = some combined ∧ (∀ e ∈ combined, e.range.Fits) ∧
      combined.Pairwise (fun e e' => e.range.max < e'.range.min) ∧
      (∀ n, rangesHave ranges1 n ∨ rangesHave ranges2 n → ∃! e, e ∈ combined ∧ e.range.Has n) ∧
      (∀ e ∈ combined, e.index1 ≠ none ∨ e.index2 ≠ none) ∧
      ∀ e ∈ combined, IndexExact ranges1 e.range e.index1 ∧ IndexExact ranges2 e.range e.index2 := by
  have hmin : intMinValue = -9223372036854775808 := rfl
  have hmax : intMaxValue = 9223372036854775807 := rfl
  have hpair : ∀ r s : Range, r.Fits → s.Fits → r.max < s.min → SortedRanges [r, s] := fun r s hr hs hlt =>
    ⟨List.forall_mem_cons.mpr ⟨hr, List.forall_mem_singleton.mpr hs⟩, List.pairwise_pair.mpr hlt⟩
  refine combineRanges64_right (hpair _ _ ⟨Int.le_refl _, ?_, ?_⟩ ⟨?_, ?_, Int.le_refl _⟩ ?_)
    (hpair _ _ ⟨Int.le_refl _, Int.le_refl _, ?_⟩ ⟨?_, ?_, Int.le_refl _⟩ ?_)
  all_goals
    dsimp only
    omega

end Nballerina.Types
