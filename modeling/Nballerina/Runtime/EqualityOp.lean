import Nballerina.Runtime.Values

/-!
# The equality operators

`==` and `!=` are `_bal_eq`, which is `taggedPtrEq`; `===` and `!==` are `_bal_exact_eq`
(`runtime/eq_inline.c`). `Equal` is when two values are equal, for either operator; what the operators
of the runtime give is `balEquality_total`.
-/

namespace Nballerina.Runtime

open Nballerina.Lib Nballerina.Types

variable {M : Type}

/-! ## Exact equality -/

def balFloatExactEq (d1 d2 : Word) : Bool := (floatIsNaN d1 && floatIsNaN d2) || d1 == d2

/-- `memcmp` of the canonical forms. -/
def balDecimalExactEq (dec : DecNumber) (m : Mem) (tp1 tp2 : TaggedPtr) : Bool :=
  dec.canonical (taggedToDecQuad m tp1) == dec.canonical (taggedToDecQuad m tp2)

def balExactEq (dec : DecNumber) (o : Objects M) (tp1 tp2 : Member) : Bool :=
  if tp1.sameBits tp2 then true
  else if tp1.getTag ≠ tp2.getTag then false
  else if tp1.getTag = Tag.int then loadBox o.mem tp1 == loadBox o.mem tp2
  else if tp1.getTag = Tag.float then balFloatExactEq (loadBox o.mem tp1) (loadBox o.mem tp2)
  else match tp1, tp2 with
    | .tagged p1, .tagged p2 =>
      if getTag p1 = Tag.string then taggedStringEqual o.mem p1 p2
      else if getTag p1 = Tag.decimal then balDecimalExactEq dec o.mem p1 p2
      -- to ignore the exact bit
      else if getTag p1 = Tag.list ∨ getTag p1 = Tag.mapping ∨ getTag p1 = Tag.function then
        taggedToPtr p1 == taggedToPtr p2
      else false
    -- a new block has one of the tags above
    | _, _ => false

/-! ## The operators -/

inductive EqualityOp where
  | eq
  | ne
  | exactEq
  | exactNe
deriving DecidableEq, Repr

namespace EqualityOp

/-- `insn.op.length() == 3` -/
def isExact : EqualityOp → Bool
  | .eq => false
  | .ne => false
  | .exactEq => true
  | .exactNe => true

/-- `insn.op[0] == "!"` -/
def isNegated : EqualityOp → Bool
  | .eq => false
  | .ne => true
  | .exactEq => false
  | .exactNe => true

/-- The result for values that are equal, or are not. -/
def result (op : EqualityOp) (equal : Bool) : Bool := equal ^^ op.isNegated

end EqualityOp

/-- `_bal_eq` or `_bal_exact_eq`, negated for `!=` and `!==`. -/
def balEquality (dec : DecNumber) (hashKey : HashKey) (o : Objects M) (op : EqualityOp) (v w : Member)
    (fuel : Nat) : Option Bool :=
  (if op.isExact then some (balExactEq dec o v w)
    else taggedPtrEq dec.compare hashKey o fuel [] v w).map op.result

/-! ## When values are equal -/

def floatsEqual (exact : Bool) (d1 d2 : Word) : Bool :=
  if exact then balFloatExactEq d1 d2 else balFloatEq d1 d2

def decimalsEqual (dec : DecNumber) (m : Mem) (exact : Bool) (tp1 tp2 : TaggedPtr) : Bool :=
  if exact then balDecimalExactEq dec m tp1 tp2 else balDecimalCmp dec.compare m tp1 tp2 == 0

/-- The same structure; or one of the same shape and content, for `==`. -/
inductive SameStructure (dec : DecNumber) (o : Objects M) : Bool → TaggedPtr → TaggedPtr → Prop where
  | exact {p1 p2 : TaggedPtr}
      (htag : getTag p1 = Tag.list ∨ getTag p1 = Tag.mapping ∨ getTag p1 = Tag.function)
      (hptr : taggedToPtr p1 = taggedToPtr p2) : SameStructure dec o true p1 p2
  | deep {p1 p2 : TaggedPtr} (htag : getTag p1 = Tag.list ∨ getTag p1 = Tag.mapping)
      (hbisimilar : Bisimilar dec.compare o (.tagged p1) (.tagged p2)) : SameStructure dec o false p1 p2

inductive Equal (dec : DecNumber) (o : Objects M) (exact : Bool) (v w : Member) : Prop where
  | same (tp : TaggedPtr) (hv : v = .tagged tp) (hw : w = .tagged tp)
  | int (hv : v.getTag = Tag.int) (hw : w.getTag = Tag.int) (heq : loadBox o.mem v = loadBox o.mem w)
  | float (hv : v.getTag = Tag.float) (hw : w.getTag = Tag.float)
      (heq : floatsEqual exact (loadBox o.mem v) (loadBox o.mem w) = true)
  | string (p1 p2 : TaggedPtr) (hv : v = .tagged p1) (hw : w = .tagged p2)
      (htag1 : getTag p1 = Tag.string) (htag2 : getTag p2 = Tag.string)
      (heq : taggedStringEqual o.mem p1 p2 = true)
  | decimal (p1 p2 : TaggedPtr) (hv : v = .tagged p1) (hw : w = .tagged p2)
      (htag1 : getTag p1 = Tag.decimal) (htag2 : getTag p2 = Tag.decimal)
      (heq : decimalsEqual dec o.mem exact p1 p2 = true)
  | object (p1 p2 : TaggedPtr) (hv : v = .tagged p1) (hw : w = .tagged p2)
      (htag : getTag p1 = getTag p2) (hsame : SameStructure dec o exact p1 p2)

section Equal

variable {dec : DecNumber} {hashKey : HashKey} {o : Objects M} {nodes : Finset TaggedPtr} {v w : Member}

theorem balExactEq_of_equal (h : Equal dec o true v w) : balExactEq dec o v w = true := by
  have hfloat : Tag.float ≠ Tag.int := by decide
  have hstring : Tag.string ≠ Tag.int ∧ Tag.string ≠ Tag.float := by decide
  have hdecimal : Tag.decimal ≠ Tag.int ∧ Tag.decimal ≠ Tag.float ∧ Tag.decimal ≠ Tag.string := by
    decide
  unfold balExactEq
  by_cases hbits : v.sameBits w = true
  · exact if_pos hbits
  · rw [if_neg hbits]
    cases h with
    | same tp hv hw =>
      rw [hv, hw] at hbits
      exact absurd (sameBits_tagged.mpr rfl) hbits
    | int hv hw heq =>
      rw [if_neg (not_not.mpr (hv.trans hw.symm)), if_pos hv]
      exact beq_iff_eq.mpr heq
    | float hv hw heq =>
      rw [if_neg (not_not.mpr (hv.trans hw.symm)), if_neg (hv ▸ hfloat), if_pos hv]
      exact heq
    | string p1 p2 hv hw htag1 htag2 heq =>
      rw [hv, hw, getTag_tagged, getTag_tagged, if_neg (not_not.mpr (htag1.trans htag2.symm)),
        if_neg (htag1 ▸ hstring.1), if_neg (htag1 ▸ hstring.2)]
      exact (if_pos htag1).trans heq
    | decimal p1 p2 hv hw htag1 htag2 heq =>
      rw [hv, hw, getTag_tagged, getTag_tagged, if_neg (not_not.mpr (htag1.trans htag2.symm)),
        if_neg (htag1 ▸ hdecimal.1), if_neg (htag1 ▸ hdecimal.2.1)]
      dsimp only
      rw [if_neg (htag1 ▸ hdecimal.2.2), if_pos htag1]
      exact heq
    | object p1 p2 hv hw htag hsame =>
      cases hsame with
      | exact hkind hptr =>
        have hother : getTag p1 ≠ Tag.int ∧ getTag p1 ≠ Tag.float ∧ getTag p1 ≠ Tag.string ∧
            getTag p1 ≠ Tag.decimal := by
          rcases hkind with hkind | hkind | hkind <;> rw [hkind] <;> decide
        rw [hv, hw, getTag_tagged, getTag_tagged, if_neg (not_not.mpr htag), if_neg hother.1,
          if_neg hother.2.1]
        dsimp only
        rw [if_neg hother.2.2.1, if_neg hother.2.2.2, if_pos hkind]
        exact beq_iff_eq.mpr hptr

theorem equal_of_balExactEq (h : balExactEq dec o v w = true) : Equal dec o true v w := by
  unfold balExactEq at h
  split at h
  next hbits =>
    have heq := eq_of_sameBits hbits
    cases v with
    | tagged tp => exact .same tp rfl heq.symm
    | newInt n => cases hbits
    | newFloat d => cases hbits
  next =>
    split at h
    next => cases h
    next htag =>
      have htag : v.getTag = w.getTag := not_not.mp htag
      split at h
      next hint => exact .int hint (htag.symm.trans hint) (beq_iff_eq.mp h)
      next =>
        split at h
        next hfloat => exact .float hfloat (htag.symm.trans hfloat) h
        next =>
          cases v with
          | tagged p1 =>
            cases w with
            | tagged p2 =>
              have htag : getTag p1 = getTag p2 := htag
              dsimp only at h
              split at h
              next hstring => exact .string p1 p2 rfl rfl hstring (htag.symm.trans hstring) h
              next =>
                split at h
                next hdecimal => exact .decimal p1 p2 rfl rfl hdecimal (htag.symm.trans hdecimal) h
                next =>
                  split at h
                  next hkind =>
                    exact .object p1 p2 rfl rfl htag (.exact hkind (beq_iff_eq.mp h))
                  next => cases h
            | newInt n => cases h
            | newFloat d => cases h
          | newInt n => cases h
          | newFloat d => cases h

/-- For leaves this is `taggedPtrEq`. -/
theorem equal_iff_leafEqual (hv : v.IsLeaf) :
    Equal dec o false v w ↔ LeafEqual dec.compare o v w := by
  refine ⟨fun h => ?_, fun h => ?_⟩
  · cases h with
    | same tp hv hw => exact .same tp hv hw
    | int hv hw heq => exact .int hv hw heq
    | float hv hw heq => exact .float hv hw ((balFloatEq_iff _ _).mp heq)
    | string p1 p2 hv hw htag1 htag2 heq => exact .string p1 p2 hv hw htag1 htag2 heq
    | decimal p1 p2 hv hw htag1 htag2 heq =>
      exact .decimal p1 p2 hv hw htag1 htag2 ((decimalEq_iff o.mem p1 p2).mp heq)
    | object p1 p2 hv' hw htag hsame =>
      cases hsame with
      | deep hkind _ =>
        cases hv'
        exact absurd hkind (not_or.mpr hv)
  · cases h with
    | same tp hv hw => exact .same tp hv hw
    | int hv hw heq => exact .int hv hw heq
    | float hv hw heq => exact .float hv hw ((balFloatEq_iff _ _).mpr heq)
    | string p1 p2 hv hw htag1 htag2 heq => exact .string p1 p2 hv hw htag1 htag2 heq
    | decimal p1 p2 hv hw htag1 htag2 heq =>
      exact .decimal p1 p2 hv hw htag1 htag2 ((decimalEq_iff o.mem p1 p2).mpr heq)

/-- Members that are not leaves are pointers. -/
theorem tagged_of_not_isLeaf (hv : ¬ v.IsLeaf) : ∃ tp, v = .tagged tp ∧
    (getTag tp = Tag.list ∨ getTag tp = Tag.mapping) := by
  cases v with
  | tagged tp =>
    refine ⟨tp, rfl, ?_⟩
    by_contra hnot
    exact hv (not_or.mp hnot)
  | newInt n => exact absurd ⟨show Tag.int ≠ Tag.list by decide, show Tag.int ≠ Tag.mapping by decide⟩ hv
  | newFloat d =>
    exact absurd ⟨show Tag.float ≠ Tag.list by decide, show Tag.float ≠ Tag.mapping by decide⟩ hv

/-- For lists and mappings it is bisimilarity. -/
theorem equal_iff_bisimilar (hvalid : o.Valid dec.compare hashKey nodes) (hin : v.In nodes)
    (hv : ¬ v.IsLeaf) : Equal dec o false v w ↔ Bisimilar dec.compare o v w := by
  obtain ⟨p1, rfl, hkind⟩ := tagged_of_not_isLeaf hv
  have hother : getTag p1 ≠ Tag.int ∧ getTag p1 ≠ Tag.float ∧ getTag p1 ≠ Tag.string ∧
      getTag p1 ≠ Tag.decimal := by
    rcases hkind with hkind | hkind <;> rw [hkind] <;> decide
  refine ⟨fun h => ?_, fun h => ?_⟩
  · cases h with
    | same tp hv hw =>
      cases hv
      rw [hw]
      exact bisimilar_refl hvalid hin
    | int hv => exact absurd hv hother.1
    | float hv => exact absurd hv hother.2.1
    | string _ _ hv _ htag1 =>
      cases hv
      exact absurd htag1 hother.2.2.1
    | decimal _ _ hv _ htag1 =>
      cases hv
      exact absurd htag1 hother.2.2.2
    | object _ _ hv hw _ hsame =>
      cases hv
      cases hsame with
      | deep _ hbisimilar =>
        rw [hw]
        exact hbisimilar
  · have htag : getTag p1 = w.getTag := tag_eq_of_bisimilar hv h
    have hw : ¬ w.IsLeaf := by
      intro hw
      rcases hkind with hkind | hkind
      · exact hw.1 (htag.symm.trans hkind)
      · exact hw.2 (htag.symm.trans hkind)
    obtain ⟨p2, rfl, _⟩ := tagged_of_not_isLeaf hw
    exact .object p1 p2 rfl rfl htag (.deep hkind h)

/-- What the runtime gives, on a finite graph. -/
theorem balEquality_total (hvalid : o.Valid dec.compare hashKey nodes) (hv : v.In nodes)
    (hw : w.In nodes) (op : EqualityOp) : ∃ r, (r = true ↔ Equal dec o op.isExact v w) ∧
      ∀ fuel > nodes.card * nodes.card, balEquality dec hashKey o op v w fuel = some (op.result r) := by
  unfold balEquality
  cases op.isExact with
  | true =>
    exact ⟨balExactEq dec o v w, ⟨equal_of_balExactEq, balExactEq_of_equal⟩, fun _ _ => rfl⟩
  | false =>
    obtain ⟨r, hr, hiff⟩ := taggedPtrEq_total hvalid hv hw
    refine ⟨r, ?_, fun fuel hfuel => ?_⟩
    · by_cases hleaf : v.IsLeaf
      · have hrun := hr (nodes.card * nodes.card + 1) (Nat.lt_succ_self _)
        rw [taggedPtrEq_leaf _ _ hleaf] at hrun
        cases hrun
        rw [equal_iff_leafEqual hleaf]
        exact ⟨leafEqual_of_leafEq, LeafEqual.leafEq⟩
      · rw [hiff, equal_iff_bisimilar hvalid hv hleaf]
    · rw [if_neg Bool.false_ne_true, hr fuel hfuel]
      rfl

end Equal

end Nballerina.Runtime
