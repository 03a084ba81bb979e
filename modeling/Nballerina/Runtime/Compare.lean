import Nballerina.CodeGen.Bindings
import Nballerina.Runtime.EqualityOp

/-!
# Comparison of values

`taggedPtrCompare` of `runtime/balrt.h` compares two values of comparable types; the comparators that
the compiler picks instead are for values of one basic type, or nil, and for lists with such members
(`runtime/list.c`).

A comparator for one basic type gives what `taggedPtrCompare` does on the values that it is for
(`MemberComparator.compare_eq`), and a list comparator as long as it reads no other members
(`optListDoCompare_congr`): of a list and itself, of nil and a value, and by the comparator for lists of a
value and itself, nothing is read.

Mirroring notes:
- A result that depends on reading something that is not there is `none`, and so is one that takes
  more than the `fuel`.
- The members of both lists are taken pairwise, and the lengths are compared at the end.
-/

namespace Nballerina.Runtime

open Nballerina.Lib Nballerina.Types Nballerina.CodeGen

variable {M : Type}

/-! ## Numbers -/

/-- Numbers that are not NaN are in the order of these; both zeros have the same. -/
def floatKey (d : Word) : Int :=
  let magnitude := (d &&& 0x7FFFFFFFFFFFFFFF#64).toNat
  if d.msb then -magnitude else magnitude

/-- `fcmp olt`. -/
def fcmpOlt (d1 d2 : Word) : Bool :=
  !floatIsNaN d1 && !floatIsNaN d2 && decide (floatKey d1 < floatKey d2)

def Member.isNil : Member → Bool
  | .tagged tp => tp == taggedNil
  | _ => false

def taggedIntCompare (m : Mem) (tp1 tp2 : Member) : CompareResult :=
  intCompare (taggedToInt m tp1).toInt (taggedToInt m tp2).toInt

def floatCompare (v1 v2 : Word) : CompareResult :=
  if fcmpOeq v1 v2 then .eq
  else if fcmpOlt v1 v2 then .lt
  else if fcmpOlt v2 v1 then .gt
  else .un

def taggedFloatCompare (m : Mem) (tp1 tp2 : Member) : CompareResult :=
  floatCompare (loadBox m tp1) (loadBox m tp2)

def taggedToBoolean (p : TaggedPtr) : Bool := p.getLsbD 0

def taggedBooleanCompare : Member → Member → Option CompareResult
  | .tagged tp1, .tagged tp2 => some (
    if tp1 = tp2 then .eq
    else if taggedToBoolean tp1 < taggedToBoolean tp2 then .lt else .gt)
  | _, _ => none

def taggedStringCompare (m : Mem) : Member → Member → Option CompareResult
  | .tagged tp1, .tagged tp2 => some (intCompare (balStringCmp m tp1 tp2) 0)
  | _, _ => none

def taggedDecimalCompare (decQuadCompare : DecQuad → DecQuad → DecClass) (m : Mem) :
    Member → Member → Option CompareResult
  | .tagged tp1, .tagged tp2 => some (intCompare (balDecimalCmp decQuadCompare m tp1 tp2) 0)
  | _, _ => none

/-! ## Lists -/

def MemberArray.values : MemberArray → List Member
  | .generic members => members.map .tagged
  | .ints members => members.map intToTagged
  | .bytes members => members.map fun b => intToTagged (b.setWidth 64)
  | .floats members => members.map .newFloat

/-- The loop of `optListDoCompare`. -/
def listCompareLoop (compare : Member → Member → Option CompareResult) :
    List (Member × Member) → Option CompareResult
  | [] => some .eq
  | (v, w) :: rest => do
    let result ← compare v w
    if result ≠ .eq then return result
    else listCompareLoop compare rest

def optListDoCompare (o : Objects M) (compare : Member → Member → Option CompareResult)
    (tp1 tp2 : Member) : Option CompareResult :=
  if tp1.sameBits tp2 then some .eq
  else if tp1.isNil || tp2.isNil then some .un
  else match tp1, tp2 with
    | .tagged p1, .tagged p2 => do
      let lp1 ← o.list (taggedToPtr p1)
      let lp2 ← o.list (taggedToPtr p2)
      let result ← listCompareLoop compare (lp1.values.zip lp2.values)
      if result ≠ .eq then return result
      else return intCompare lp1.length lp2.length
    | _, _ => none

section Compare

variable (dec : DecNumber) (o : Objects M)

/-- `_bal_opt_list_compare` is the branch for lists. -/
def taggedPtrCompare : Nat → Member → Member → Option CompareResult
  | 0, _, _ => none
  | fuel + 1, tp1, tp2 =>
    let tag1 := tp1.getTag &&& 0x1F#64
    let tag2 := tp2.getTag &&& 0x1F#64
    -- this can only happen if one is nil
    if tag1 ≠ tag2 then some .un
    else if tag1 = Tag.int then some (taggedIntCompare o.mem tp1 tp2)
    else if tag1 = Tag.boolean then taggedBooleanCompare tp1 tp2
    else if tag1 = Tag.float then some (taggedFloatCompare o.mem tp1 tp2)
    else if tag1 = Tag.decimal then taggedDecimalCompare dec.compare o.mem tp1 tp2
    else if tag1 = Tag.string then taggedStringCompare o.mem tp1 tp2
    else if tag1 = Tag.list then optListDoCompare o (taggedPtrCompare fuel) tp1 tp2
    else some .eq

/-! ## Comparators -/

def optDoCompare (tp1 tp2 : Member) (compare : Member → Member → Option CompareResult) :
    Option CompareResult :=
  if tp1.isNil then some (if tp2.isNil then .eq else .un)
  else if tp2.isNil then some .un
  else compare tp1 tp2

/-- The comparators for the values of one basic type. -/
inductive MemberComparator where
  | int
  | float
  | boolean
  | string
  | decimal
  | list
deriving DecidableEq, Repr

namespace MemberComparator

def code : MemberComparator → BasicTypeCode
  | .int => BT_INT
  | .float => BT_FLOAT
  | .boolean => BT_BOOLEAN
  | .string => BT_STRING
  | .decimal => BT_DECIMAL
  | .list => BT_LIST

/-- `optIntCompare` and so on, and `_bal_opt_list_compare`. -/
def compare (fuel : Nat) : MemberComparator → Member → Member → Option CompareResult
  | .int, tp1, tp2 => optDoCompare tp1 tp2 fun tp1 tp2 => some (taggedIntCompare o.mem tp1 tp2)
  | .float, tp1, tp2 => optDoCompare tp1 tp2 fun tp1 tp2 => some (taggedFloatCompare o.mem tp1 tp2)
  | .boolean, tp1, tp2 => optDoCompare tp1 tp2 taggedBooleanCompare
  | .string, tp1, tp2 => optDoCompare tp1 tp2 (taggedStringCompare o.mem)
  | .decimal, tp1, tp2 => optDoCompare tp1 tp2 (taggedDecimalCompare dec.compare o.mem)
  | .list, tp1, tp2 => optListDoCompare o (taggedPtrCompare dec o fuel) tp1 tp2

/-- The values that the comparator is for. -/
def Handles (c : MemberComparator) (v : Member) : Prop :=
  v.isNil = true ∨ v.getTag &&& 0x1F#64 = BitVec.ofNat 64 c.code.val

end MemberComparator

/-- `_bal_array_int_compare` and so on. -/
def balArrayCompare (c : MemberComparator) (fuel : Nat) (tp1 tp2 : Member) : Option CompareResult :=
  optListDoCompare o (c.compare dec o fuel) tp1 tp2

/-- The loop of `_bal_array_exact_int_compare`. -/
def exactIntCompareLoop : List (Word × Word) → CompareResult
  | [] => .eq
  | (n1, n2) :: rest =>
    if n2.slt n1 then .gt
    else if n1.slt n2 then .lt
    else exactIntCompareLoop rest

/-- The members are read as ints, without a look at the descriptor. -/
def balArrayExactIntCompare (tp1 tp2 : TaggedPtr) : Option CompareResult :=
  if tp1 = tp2 then some .eq
  else do
    match ← o.list (taggedToPtr tp1), ← o.list (taggedToPtr tp2) with
    | .ints arr1, .ints arr2 =>
      let result := exactIntCompareLoop (arr1.zip arr2)
      if result ≠ .eq then return result
      else return intCompare arr1.length arr2.length
    | _, _ => none

/-- The comparator reads nothing but its own values: both are such or nil, or only one of them is nil, or
the comparator for lists is given one value twice. -/
def MemberComparator.HandlesPair (c : MemberComparator) (v w : Member) : Prop :=
  (c.Handles v ∧ c.Handles w) ∨
  (v.isNil ≠ w.isNil ∧ v.getTag &&& 0x1F#64 ≠ w.getTag &&& 0x1F#64) ∨
  (c = .list ∧ v.sameBits w = true ∧ taggedPtrCompare dec o 1 v w = some .eq)

/-- Of the pairs up to the first that is not equal, all have the property. -/
def Reached (P : Member → Member → Prop) : List (Member × Member) → Prop
  | [] => True
  | (v, w) :: rest =>
    P v w ∧ ((∃ fuel, taggedPtrCompare dec o fuel v w = some .eq) → Reached P rest)

end Compare

/-! ## Relations -/

/-- Whether the relation holds. -/
def CompareResult.holds : CompareResult → OrderOp → Bool
  | .un, _ => false
  | .lt, op => op = .lt ∨ op = .le
  | .eq, op => op = .le ∨ op = .ge
  | .gt, op => op = .gt ∨ op = .ge

/-! ## What the comparators give -/

section Right

variable {dec : DecNumber} {o : Objects M} {v w : Member}

theorem isNil_iff : v.isNil = true ↔ v = .tagged taggedNil := by
  cases v with
  | tagged tp =>
    rw [Member.tagged.injEq]
    exact beq_iff_eq
  | newInt n => exact iff_of_false Bool.false_ne_true (fun h => by cases h)
  | newFloat d => exact iff_of_false Bool.false_ne_true (fun h => by cases h)

theorem getTag_of_isNil (h : v.isNil = true) : v.getTag &&& 0x1F#64 = 0#64 := by
  rw [isNil_iff.mp h]
  decide

/-- Values with the tag of a comparator are compared by it. -/
theorem taggedPtrCompare_of_tags (c : MemberComparator) (fuel : Nat)
    (hv : v.getTag &&& 0x1F#64 = BitVec.ofNat 64 c.code.val)
    (hw : w.getTag &&& 0x1F#64 = BitVec.ofNat 64 c.code.val) :
    taggedPtrCompare dec o (fuel + 1) v w = c.compare dec o fuel v w := by
  have hnil : ∀ {u : Member}, u.getTag &&& 0x1F#64 = BitVec.ofNat 64 c.code.val → u.isNil = false := by
    intro u hu
    have hne : BitVec.ofNat 64 c.code.val ≠ (0#64 : Word) := by
      cases c <;> decide
    refine Bool.eq_false_iff.mpr fun hnil => hne ?_
    rw [← hu, getTag_of_isNil hnil]
  have hdo : ∀ compare, optDoCompare v w compare = compare v w := by
    intro compare
    unfold optDoCompare
    rw [hnil hv, hnil hw]
    rfl
  unfold taggedPtrCompare
  dsimp only
  rw [hv, hw, if_neg (not_not.mpr rfl)]
  cases c with
  | int =>
    rw [if_pos (by decide)]
    exact (hdo fun tp1 tp2 => some (taggedIntCompare o.mem tp1 tp2)).symm
  | boolean =>
    rw [if_neg (by decide), if_pos (by decide)]
    exact (hdo _).symm
  | float =>
    rw [if_neg (by decide), if_neg (by decide), if_pos (by decide)]
    exact (hdo fun tp1 tp2 => some (taggedFloatCompare o.mem tp1 tp2)).symm
  | decimal =>
    rw [if_neg (by decide), if_neg (by decide), if_neg (by decide), if_pos (by decide)]
    exact (hdo _).symm
  | string =>
    rw [if_neg (by decide), if_neg (by decide), if_neg (by decide), if_neg (by decide),
      if_pos (by decide)]
    exact (hdo _).symm
  | list =>
    rw [if_neg (by decide), if_neg (by decide), if_neg (by decide), if_neg (by decide),
      if_neg (by decide), if_pos (by decide)]
    rfl

/-- Nil is equal to nil, and not to be compared with anything else. -/
theorem taggedPtrCompare_of_nil (c : MemberComparator) (fuel : Nat) (hv : c.Handles v) (hw : c.Handles w)
    (h : v.isNil = true ∨ w.isNil = true) :
    taggedPtrCompare dec o (fuel + 1) v w = some (if v.isNil = true ∧ w.isNil = true then .eq else .un) := by
  have hne : BitVec.ofNat 64 c.code.val ≠ (0#64 : Word) := by
    cases c <;> decide
  unfold taggedPtrCompare
  dsimp only
  by_cases hboth : v.isNil = true ∧ w.isNil = true
  · rw [if_pos hboth, getTag_of_isNil hboth.1, getTag_of_isNil hboth.2]
    rfl
  · rw [if_neg hboth]
    refine if_pos fun heq => ?_
    rcases h with h | h
    · rw [getTag_of_isNil h] at heq
      exact hne ((hw.resolve_left fun hw => hboth ⟨h, hw⟩).symm.trans heq.symm)
    · rw [getTag_of_isNil h] at heq
      exact hne ((hv.resolve_left fun hv => hboth ⟨hv, h⟩).symm.trans heq)

/-- **A comparator for one basic type is right for its values and nil.** -/
theorem MemberComparator.compare_eq (c : MemberComparator) (fuel : Nat) (hv : c.Handles v)
    (hw : c.Handles w) : c.compare dec o fuel v w = taggedPtrCompare dec o (fuel + 1) v w := by
  by_cases hnil : v.isNil = true ∨ w.isNil = true
  · rw [taggedPtrCompare_of_nil c fuel hv hw hnil]
    have hdo : ∀ compare, optDoCompare v w compare =
        some (if v.isNil = true ∧ w.isNil = true then .eq else .un) := by
      intro compare
      unfold optDoCompare
      by_cases hleft : v.isNil = true
      · rw [if_pos hleft]
        simp only [hleft, true_and]
      · rw [if_neg hleft, if_pos (hnil.resolve_left hleft), if_neg fun h => hleft h.1]
    cases c with
    | int => exact hdo fun tp1 tp2 => some (taggedIntCompare o.mem tp1 tp2)
    | float => exact hdo fun tp1 tp2 => some (taggedFloatCompare o.mem tp1 tp2)
    | list =>
      show optListDoCompare o _ v w = _
      unfold optListDoCompare
      by_cases hbits : v.sameBits w = true
      · have heq := eq_of_sameBits hbits
        rw [← heq, or_self] at hnil
        rw [if_pos hbits, ← heq, if_pos ⟨hnil, hnil⟩]
      · have hboth : ¬ (v.isNil = true ∧ w.isNil = true) := by
          rintro ⟨hleft, hright⟩
          rw [isNil_iff.mp hleft, isNil_iff.mp hright] at hbits
          exact hbits (sameBits_tagged.mpr rfl)
        rw [if_neg hbits, if_pos (Bool.or_eq_true_iff.mpr hnil), if_neg hboth]
    | _ => exact hdo _
  · obtain ⟨hleft, hright⟩ := not_or.mp hnil
    exact (taggedPtrCompare_of_tags c fuel (hv.resolve_left hleft) (hw.resolve_left hright)).symm

/-- A value and itself are compared without a look at the members of lists. -/
theorem taggedPtrCompare_self (fuel : Nat) (h : v.sameBits w = true) :
    taggedPtrCompare dec o (fuel + 1) v w = taggedPtrCompare dec o 1 v w := by
  unfold taggedPtrCompare optListDoCompare
  rw [if_pos h, if_pos h]

/-- **A comparator is right for the pairs that it handles.** -/
theorem MemberComparator.compare_pair (c : MemberComparator) (fuel : Nat) (h : c.HandlesPair dec o v w) :
    c.compare dec o fuel v w = taggedPtrCompare dec o (fuel + 1) v w := by
  rcases h with ⟨hv, hw⟩ | ⟨hnil, htag⟩ | ⟨rfl, hsame, heq⟩
  · exact c.compare_eq fuel hv hw
  · -- one is nil
    have hun : taggedPtrCompare dec o (fuel + 1) v w = some .un := by
      unfold taggedPtrCompare
      exact if_pos htag
    have hdo : ∀ compare, optDoCompare v w compare = some .un := by
      intro compare
      unfold optDoCompare
      cases hv : v.isNil <;> cases hw : w.isNil <;> simp_all
    rw [hun]
    cases c with
    | int => exact hdo fun tp1 tp2 => some (taggedIntCompare o.mem tp1 tp2)
    | float => exact hdo fun tp1 tp2 => some (taggedFloatCompare o.mem tp1 tp2)
    | list =>
      show optListDoCompare o _ v w = _
      unfold optListDoCompare
      have hone : (v.isNil || w.isNil) = true := by
        cases hv : v.isNil <;> cases hw : w.isNil <;> simp_all
      rw [if_neg fun hsame => hnil (congrArg Member.isNil (eq_of_sameBits hsame)), if_pos hone]
    | _ => exact hdo _
  · rw [taggedPtrCompare_self fuel hsame, heq]
    exact if_pos hsame

/-- A comparator that handles the pairs goes through the members as `taggedPtrCompare` does. -/
theorem listCompareLoop_congr (c : MemberComparator) (fuel : Nat) :
    ∀ members : List (Member × Member), Reached dec o (c.HandlesPair dec o) members →
      listCompareLoop (c.compare dec o fuel) members =
        listCompareLoop (taggedPtrCompare dec o (fuel + 1)) members
  | [], _ => rfl
  | (v, w) :: rest, ⟨hpair, hrest⟩ => by
    unfold listCompareLoop
    rw [c.compare_pair fuel hpair]
    cases hresult : taggedPtrCompare dec o (fuel + 1) v w with
    | none => rfl
    | some result =>
      dsimp only [Option.bind_eq_bind, Option.bind_some]
      split
      next => rfl
      next heq =>
        rw [not_not.mp heq] at hresult
        exact listCompareLoop_congr c fuel rest (hrest ⟨_, hresult⟩)

/-- Of two different lists `c` handles the members that are compared. -/
def ListsReached (dec : DecNumber) (o : Objects M) (c : MemberComparator) (v w : Member) : Prop :=
  ∀ p1 p2 lp1 lp2, v = .tagged p1 → w = .tagged p2 → p1 ≠ p2 → p1 ≠ taggedNil → p2 ≠ taggedNil →
    o.list (taggedToPtr p1) = some lp1 → o.list (taggedToPtr p2) = some lp2 →
    Reached dec o (c.HandlesPair dec o) (lp1.values.zip lp2.values)

theorem optListDoCompare_congr (c : MemberComparator) (fuel : Nat) (h : ListsReached dec o c v w) :
    balArrayCompare dec o c fuel v w = optListDoCompare o (taggedPtrCompare dec o (fuel + 1)) v w := by
  unfold balArrayCompare optListDoCompare
  split
  next => rfl
  next hbits =>
    split
    next => rfl
    next hnil =>
      cases v with
      | tagged p1 =>
        cases w with
        | tagged p2 =>
          dsimp only
          cases hlp1 : o.list (taggedToPtr p1) with
          | none => rfl
          | some lp1 =>
            cases hlp2 : o.list (taggedToPtr p2) with
            | none => rfl
            | some lp2 =>
              dsimp only [Option.bind_eq_bind, Option.bind_some]
              have hne : p1 ≠ taggedNil ∧ p2 ≠ taggedNil := by
                refine ⟨fun heq => hnil ?_, fun heq => hnil ?_⟩
                · rw [Bool.or_eq_true_iff]
                  exact Or.inl (beq_iff_eq.mpr heq)
                · rw [Bool.or_eq_true_iff]
                  exact Or.inr (beq_iff_eq.mpr heq)
              rw [listCompareLoop_congr c fuel _ (h p1 p2 lp1 lp2 rfl rfl
                (fun heq => hbits (sameBits_tagged.mpr heq)) hne.1 hne.2 hlp1 hlp2)]
        | newInt n => rfl
        | newFloat d => rfl
      | newInt n => rfl
      | newFloat d => rfl

end Right

end Nballerina.Runtime
