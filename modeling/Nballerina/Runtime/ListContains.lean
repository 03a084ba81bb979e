import Nballerina.Lib.Decimal128
import Nballerina.Runtime.MemberType
import Nballerina.Runtime.StringCompare
import Nballerina.Runtime.Values

/-!
# Searching the lists of subtypes

Mirroring `stringListContains` of `runtime/string.c`, `decimalListContains` of `runtime/decimal.c` and
`intRangeListContains` of `runtime/int.c`; `tidListContains` of `runtime/structure.c` is in
`Runtime.MemberType`.

The first two are the binary search of `Lib.SortedSearch`, each with its own comparison. Ranges are looked through
one after the other, as far as the first that does not end before the int.

Mirroring notes:

* the two pointers of a loop are indices, and what the loop reads outside the list is none;
* `decQuadCompare` and `decQuadClass` are a parameter. What is relied on is that they compare the values of two
  numbers (`ComparesDecimals`); the number that a `decQuad` is comes from the decimal128 format.
-/

namespace Nballerina.Runtime

open Nballerina.Lib Nballerina.Types

/-- The ordering that the sign of a comparison stands for. -/
def orderingOf (cmp : Int) : Ordering := if cmp = 0 then .eq else if cmp < 0 then .lt else .gt

def stringListContains (m : Mem) (strs : List TaggedPtr) (str : TaggedPtr) : Option Bool :=
  sortedSearch (fun mid => orderingOf (balStringCmp m str mid)) strs 0 strs.length

/-- The class of the result of `decQuadCompare`. -/
inductive CompareClass where
  | negNormal
  | posZero
  | other
deriving DecidableEq, Repr

/-- What `decimalListContains` does for a class. -/
def CompareClass.ordering : CompareClass → Ordering
  | .posZero => .eq
  | .negNormal => .lt
  | .other => .gt

def decimalListContains (decQuadCompare : DecQuad → DecQuad → CompareClass) (decimals : List DecQuad)
    (dq : DecQuad) : Option Bool :=
  sortedSearch (fun mid => (decQuadCompare dq mid).ordering) decimals 0 decimals.length

/-- The first range is read before anything is compared. -/
def intRangeListContains : List Range → Int → Option Bool
  | [], _ => none
  | r :: rest, n =>
    if n ≤ r.max then some (decide (n ≥ r.min))
    else if rest.isEmpty then some false
    else intRangeListContains rest n

/-! ## What they find -/

theorem stringListContains_eq {h : Heap} {strs : List TaggedPtr} {ss : List (List Char)}
    (hstrs : List.Forall₂ (Represents h) strs ss) (hsorted : ss.Pairwise (· ≤ ·)) {str : TaggedPtr}
    {s : List Char} (hstr : Represents h str s) :
    stringListContains h.mem strs str = some (decide (s ∈ ss)) := by
  refine sortedSearch_eq (hstrs.imp fun mid key hmid => ?_) hsorted
  have hcmp := hstr.cmp_compares hmid
  exact .of_ite rfl hcmp.zero hcmp.neg

/-- The number of a `decQuad`. -/
def IsNumber (dq : DecQuad) (x : Rat) : Prop := (Decimal128.decode dq).map Decimal128.value = some x

/-- Two numbers are compared by their values. -/
structure ComparesDecimals (decQuadCompare : DecQuad → DecQuad → CompareClass) : Prop where
  posZero_iff : ∀ {dq dq' x x'}, IsNumber dq x → IsNumber dq' x' → (decQuadCompare dq dq' = .posZero ↔ x = x')
  negNormal_iff : ∀ {dq dq' x x'}, IsNumber dq x → IsNumber dq' x' → (decQuadCompare dq dq' = .negNormal ↔ x < x')

theorem comparesTo_of_numbers {decQuadCompare : DecQuad → DecQuad → CompareClass}
    (hcompare : ComparesDecimals decQuadCompare) {dq mid : DecQuad} {x key : Rat} (hdq : IsNumber dq x)
    (hmid : IsNumber mid key) : ComparesTo (fun mid => (decQuadCompare dq mid).ordering) x mid key := by
  have hposZero := hcompare.posZero_iff hdq hmid
  have hnegNormal := hcompare.negNormal_iff hdq hmid
  constructor
  · rw [← hposZero]
    cases decQuadCompare dq mid <;> exact Iff.intro (fun h => by cases h <;> rfl) fun h => by cases h <;> rfl
  · rw [← hnegNormal]
    cases decQuadCompare dq mid <;> exact Iff.intro (fun h => by cases h <;> rfl) fun h => by cases h <;> rfl

theorem decimalListContains_eq {decQuadCompare : DecQuad → DecQuad → CompareClass}
    (hcompare : ComparesDecimals decQuadCompare) {decimals : List DecQuad} {xs : List Rat}
    (hdecimals : List.Forall₂ IsNumber decimals xs) (hsorted : xs.Pairwise (· ≤ ·)) {dq : DecQuad} {x : Rat}
    (hdq : IsNumber dq x) : decimalListContains decQuadCompare decimals dq = some (decide (x ∈ xs)) :=
  sortedSearch_eq (hdecimals.imp fun _ _ hmid => comparesTo_of_numbers hcompare hdq hmid) hsorted

/-- The search ends with an answer, which is whether `P` holds. -/
def Finds (result : Option Bool) (P : Prop) : Prop := ∃ found, result = some found ∧ (found = true ↔ P)

theorem finds_decide {P : Prop} [Decidable P] {result : Option Bool} (h : result = some (decide P)) :
    Finds result P := ⟨decide P, h, decide_eq_true_iff⟩

/-- An int that is not after the end of a range is before all later ones. -/
theorem intRangeListContains_finds {n : Int} : ∀ {ranges : List Range}, ranges ≠ [] →
    ranges.Pairwise (fun r s => r.max < s.min) → Finds (intRangeListContains ranges n) (rangesHave ranges n) := by
  intro ranges
  induction ranges with
  | nil => exact fun hne => absurd rfl hne
  | cons r rest ih =>
    intro _ hsorted
    obtain ⟨hbefore, hsorted⟩ := List.pairwise_cons.mp hsorted
    rw [intRangeListContains, rangesHave_cons]
    by_cases hle : n ≤ r.max
    · have hrest : ¬ rangesHave rest n := by
        rintro ⟨s, hs, hhas⟩
        have := hbefore s hs
        unfold Range.Has at hhas
        omega
      rw [if_pos hle, or_iff_left hrest]
      unfold Range.Has
      refine ⟨_, rfl, ?_⟩
      rw [decide_eq_true_iff]
      exact (and_iff_left hle).symm
    · have hfirst : ¬ r.Has n := fun h => hle h.2
      rw [if_neg hle, or_iff_right hfirst]
      by_cases hnil : rest = []
      · rw [hnil, List.isEmpty_nil, if_pos rfl, rangesHave_nil]
        exact ⟨false, rfl, iff_of_false Bool.false_ne_true id⟩
      · rw [if_neg (by rwa [List.isEmpty_iff])]
        exact ih hnil hsorted

/-- Each search ends, and finds out whether its list has the value. -/
theorem listContains_finds {decQuadCompare : DecQuad → DecQuad → CompareClass}
    (hcompare : ComparesDecimals decQuadCompare) :
    (∀ {h : Heap} {strs : List TaggedPtr} {ss : List (List Char)} {str : TaggedPtr} {s : List Char},
      List.Forall₂ (Represents h) strs ss → ss.Pairwise (· ≤ ·) → Represents h str s →
        Finds (stringListContains h.mem strs str) (s ∈ ss)) ∧
    (∀ {decimals : List DecQuad} {xs : List Rat} {dq : DecQuad} {x : Rat}, List.Forall₂ IsNumber decimals xs →
      xs.Pairwise (· ≤ ·) → IsNumber dq x → Finds (decimalListContains decQuadCompare decimals dq) (x ∈ xs)) ∧
    (∀ {tids : List Nat} (tid : Nat), tids.Pairwise (· ≤ ·) → Finds (tidListContains tids tid) (tid ∈ tids)) ∧
    ∀ {ranges : List Range} (n : Int), ranges ≠ [] → ranges.Pairwise (fun r s => r.max < s.min) →
      Finds (intRangeListContains ranges n) (rangesHave ranges n) :=
  ⟨fun hstrs hsorted hstr => finds_decide (stringListContains_eq hstrs hsorted hstr),
    fun hdecimals hsorted hdq => finds_decide (decimalListContains_eq hcompare hdecimals hsorted hdq),
    fun tid hsorted => finds_decide (tidListContains_eq_of_le hsorted tid),
    fun _ hne hsorted => intRangeListContains_finds hne hsorted⟩

/-- `decQuadCompare`, for numbers. -/
def compareNumbers (dq dq' : DecQuad) : CompareClass :=
  match (Decimal128.decode dq).map Decimal128.value, (Decimal128.decode dq').map Decimal128.value with
  | some x, some x' => if x = x' then .posZero else if x < x' then .negNormal else .other
  | _, _ => .other

theorem comparesDecimals_compareNumbers : ComparesDecimals compareNumbers := by
  have heq : ∀ {dq dq' x x'}, IsNumber dq x → IsNumber dq' x' →
      compareNumbers dq dq' = if x = x' then .posZero else if x < x' then .negNormal else .other := by
    intro dq dq' x x' h h'
    unfold compareNumbers
    rw [h, h']
  refine ⟨fun {dq dq' x x'} h h' => ?_, fun {dq dq' x x'} h h' => ?_⟩
  · rw [heq h h']
    split
    next hx => exact iff_of_true rfl hx
    next hx => split <;> exact iff_of_false (fun h => by cases h) hx
  · rw [heq h h']
    split
    next hx => exact iff_of_false (fun h => by cases h) (by rw [hx]; exact lt_irrefl x')
    next =>
      split
      next hx => exact iff_of_true rfl hx
      next hx => exact iff_of_false (fun h => by cases h) hx

/-- The decimals 0 and 1, as `decQuad`s. -/
def decQuadZero : DecQuad := (0#64, 0x2208000000000000#64)
def decQuadOne : DecQuad := (1#64, 0x2208000000000000#64)

theorem isNumber_decQuadZero : IsNumber decQuadZero 0 := by
  have hdecode : Decimal128.decode decQuadZero = some ⟨false, 0, 0⟩ := by decide
  unfold IsNumber
  rw [hdecode]
  norm_num [Decimal128.value]

theorem isNumber_decQuadOne : IsNumber decQuadOne 1 := by
  have hdecode : Decimal128.decode decQuadOne = some ⟨false, 1, 0⟩ := by decide
  unfold IsNumber
  rw [hdecode]
  norm_num [Decimal128.value]

theorem listContains_finds_samples :
    Finds (stringListContains (fun _ => 0#8) [immediateWord (utf8 ['a']), immediateWord (utf8 ['b'])]
      (immediateWord (utf8 ['b']))) (['b'] ∈ [['a'], ['b']]) ∧
    Finds (decimalListContains compareNumbers [decQuadZero] decQuadOne) ((1 : Rat) ∈ [(0 : Rat)]) ∧
    Finds (tidListContains [3, 5, 9] 4) (4 ∈ [3, 5, 9]) ∧
    Finds (intRangeListContains [⟨0, 3⟩, ⟨5, 9⟩] 4) (rangesHave [⟨0, 3⟩, ⟨5, 9⟩] 4) := by
  obtain ⟨hstrings, hdecimals, htids, hranges⟩ := listContains_finds comparesDecimals_compareNumbers
  have hsmall : ∀ (h : Heap) (c : Char), Represents h (immediateWord (utf8 [c])) [c] :=
    fun h c => .immediate (Or.inl rfl) rfl
  refine ⟨?_, ?_, htids 4 (by decide), hranges 4 (List.cons_ne_nil _ _) (by decide)⟩
  · exact hstrings (h := ⟨fun _ => 0#8, []⟩) (.cons (hsmall _ 'a') (.cons (hsmall _ 'b') .nil)) (by decide)
      (hsmall _ 'b')
  · exact hdecimals (.cons isNumber_decQuadZero .nil) (List.pairwise_singleton _ _) isNumber_decQuadOne

end Nballerina.Runtime
