import Nballerina.Lib.Coinduction
import Nballerina.Runtime.Equality
import Mathlib

/-!
# Equality is bisimilarity

Two values are bisimilar if they cannot be told apart by following indices and keys: the greatest
relation between values that are leaves with the same value, or lists of the same length with related
members, or mappings with the same keys and related members (`Bisimilar`).

`taggedPtrEq_iff_bisimilar`: on a finite graph the comparison ends, and says whether the two values are
bisimilar.
- A pair is put on the stack once, so the stack has at most as many pairs as the graph (`remaining`).
- The pairs on the stack are assumptions; what is found equal is so on these assumptions
  (`Lib.assuming`), and a pair that has been compared is no longer one of them (`le_assuming`).
-/

namespace Nballerina.Runtime

open Nballerina.Lib

variable {M : Type}

/-! ## What values are -/

/-- The value of a member that is not a list or a mapping. -/
inductive Leaf where
  | int (n : Int)
  | float (d : Word)
  | decimal (d : DecQuad)
  | string (bytes : List Byte)
  | other (v : Member)

def Objects.leaf (o : Objects M) (v : Member) : Leaf :=
  if v.getTag = Tag.int ∨ v.getTag = Tag.int ||| Tag.immediate then .int (taggedToInt o.mem v).toInt
  else if v.getTag = Tag.float then .float (loadBox o.mem v)
  else match v with
    | .tagged tp =>
      if getTag tp = Tag.decimal then .decimal (taggedToDecQuad o.mem tp)
      else if getTag tp = Tag.string ∨ getTag tp = Tag.string ||| Tag.immediate then
        .string (byteSequence o.mem tp)
      else .other v
    | _ => .other v

/-- The same number, all NaNs being the same and so both zeros. -/
def SameFloat (d1 d2 : Word) : Prop :=
  d1 = d2 ∨ (floatIsNaN d1 = true ∧ floatIsNaN d2 = true) ∨
    (floatIsZero d1 = true ∧ floatIsZero d2 = true)

/-- The same leaf value. -/
def Leaf.Same (decQuadCompare : DecQuad → DecQuad → DecClass) : Leaf → Leaf → Prop
  | .int n1, .int n2 => n1 = n2
  | .float d1, .float d2 => SameFloat d1 d2
  | .decimal d1, .decimal d2 => decQuadCompare d1 d2 = .posZero
  | .string bytes1, .string bytes2 => bytes1 = bytes2
  | .other v1, .other v2 => v1 = v2
  | _, _ => False

def Member.IsLeaf (v : Member) : Prop := v.getTag ≠ Tag.list ∧ v.getTag ≠ Tag.mapping

/-- The member is a list with this array. -/
def Objects.HasList (o : Objects M) (v : Member) (l : MemberArray) : Prop :=
  ∃ tp, v = .tagged tp ∧ getTag tp = Tag.list ∧ o.list (taggedToPtr tp) = some l

def Objects.HasMapping (o : Objects M) (v : Member) (m : Mapping Key M) : Prop :=
  ∃ tp, v = .tagged tp ∧ getTag tp = Tag.mapping ∧ o.mapping (taggedToPtr tp) = some m

/-- The texts of the keys. -/
def Mapping.texts (m : Mapping Key M) : List (List Char) := m.fields.map (·.key.2)

section Bisimilar

variable (decQuadCompare : DecQuad → DecQuad → DecClass) (o : Objects M)

/-- The same constructor, with the same leaf value, length or keys, and members in `R`. -/
inductive Matches (R : Member → Member → Prop) (v w : Member) : Prop where
  | leaf (hv : v.IsLeaf) (hw : w.IsLeaf) (same : (o.leaf v).Same decQuadCompare (o.leaf w))
  | list (l1 l2 : MemberArray) (hv : o.HasList v l1) (hw : o.HasList w l2)
      (length : l1.length = l2.length)
      (members : ∀ (i : Nat) v' w', l1.get i = some v' → l2.get i = some w' → R v' w')
  | mapping (m1 m2 : Mapping Key M) (hv : o.HasMapping v m1) (hw : o.HasMapping w m2)
      (keys : ∀ s, s ∈ m1.texts ↔ s ∈ m2.texts)
      (members : ∀ f1 ∈ m1.fields, ∀ f2 ∈ m2.fields, f1.key.2 = f2.key.2 →
        R (.tagged f1.value) (.tagged f2.value))

theorem Matches.mono {R S : Member → Member → Prop} (h : R ≤ S) {v w : Member}
    (hm : Matches decQuadCompare o R v w) : Matches decQuadCompare o S v w := by
  cases hm with
  | leaf hv hw same => exact .leaf hv hw same
  | list l1 l2 hv hw length members =>
    exact .list l1 l2 hv hw length fun i v' w' hv' hw' => h v' w' (members i v' w' hv' hw')
  | mapping m1 m2 hv hw keys members =>
    exact .mapping m1 m2 hv hw keys fun f1 h1 f2 h2 heq => h _ _ (members f1 h1 f2 h2 heq)

def matching : (Member → Member → Prop) →o (Member → Member → Prop) where
  toFun := Matches decQuadCompare o
  monotone' _ _ h _ _ hm := hm.mono decQuadCompare o h

/-- The values cannot be told apart. -/
def Bisimilar : Member → Member → Prop := (matching decQuadCompare o).gfp

theorem bisimilar_iff (v w : Member) : Bisimilar decQuadCompare o v w ↔
    ∃ R : Member → Member → Prop, (∀ v' w', R v' w' → Matches decQuadCompare o R v' w') ∧ R v w := by
  refine ⟨fun h => ⟨_, fun v' w' h' => ?_, h⟩, fun ⟨R, hR, h⟩ => ?_⟩
  · have hfix := (OrderHom.map_gfp (matching decQuadCompare o)).ge
    exact hfix v' w' h'
  · exact OrderHom.le_gfp (matching decQuadCompare o) hR v w h

theorem Bisimilar.matches {v w : Member} (h : Bisimilar decQuadCompare o v w) :
    Matches decQuadCompare o (Bisimilar decQuadCompare o) v w :=
  (OrderHom.map_gfp (matching decQuadCompare o)).ge v w h

end Bisimilar

/-! ## Graphs -/

/-- The tagged pointers in an array. -/
def MemberArray.pointers : MemberArray → List TaggedPtr
  | .generic members => members
  | _ => []

/-- A finite graph: the values that can be reached from `nodes` are among them, strings and mappings are
those of a run, and an int has a block only if it needs one. -/
structure Objects.Valid (decQuadCompare : DecQuad → DecQuad → DecClass) (hashKey : HashKey)
    (o : Objects M) (nodes : Finset TaggedPtr) : Prop where
  reachable : Reachable o.store
  int : ∀ tp ∈ nodes, getTag tp = Tag.int → ¬ IsImmediateInt (o.mem.loadWord (taggedToPtr tp)).toInt
  decimal : ∀ tp ∈ nodes, getTag tp = Tag.decimal →
    decQuadCompare (taggedToDecQuad o.mem tp) (taggedToDecQuad o.mem tp) = .posZero
  string : ∀ tp ∈ nodes, getTag tp = Tag.string ∨ getTag tp = Tag.string ||| Tag.immediate →
    ∃ s, (tp, s) ∈ o.store.strings
  list : ∀ tp ∈ nodes, getTag tp = Tag.list →
    ∃ l, o.list (taggedToPtr tp) = some l ∧ ∀ p ∈ l.pointers, p ∈ nodes
  mapping : ∀ tp ∈ nodes, getTag tp = Tag.mapping →
    ∃ m, o.mapping (taggedToPtr tp) = some m ∧
      (∃ order last, m.Inv Prod.snd (textHash hashKey) order last) ∧
      ∀ f ∈ m.fields, f.key ∈ o.store.strings ∧ f.value ∈ nodes

/-- A value of the graph, or an int that needs no block. -/
def Member.In (nodes : Finset TaggedPtr) : Member → Prop
  | .tagged tp => tp ∈ nodes ∨ Runtime.getTag tp = Tag.int ||| Tag.immediate
  | .newInt n => ¬ IsImmediateInt n.toInt
  | .newFloat _ => True

/-! ## Leaves -/

theorem floatIsNaN_of_isZero {d : Word} (h : floatIsZero d = true) : floatIsNaN d = false := by
  have hzero : d &&& 0x7FFFFFFFFFFFFFFF#64 = 0#64 := beq_iff_eq.mp h
  have hmask : (0x7FFFFFFFFFFFFFFF#64 : Word) &&& 0x7FF0000000000000#64 = 0x7FF0000000000000#64 := by
    decide
  have hexp : d &&& 0x7FF0000000000000#64 = 0#64 := by
    rw [← hmask, ← BitVec.and_assoc, hzero, BitVec.zero_and]
  unfold floatIsNaN
  rw [hexp]
  rfl

theorem balFloatEq_iff (d1 d2 : Word) : balFloatEq d1 d2 = true ↔ SameFloat d1 d2 := by
  unfold balFloatEq fcmpOeq SameFloat
  simp only [Bool.or_eq_true, Bool.and_eq_true, Bool.not_eq_true', beq_iff_eq]
  refine ⟨fun h => ?_, fun h => ?_⟩
  · rcases h with ⟨_, heq | hzero⟩ | hnan
    · exact .inl heq
    · exact .inr (.inr hzero)
    · exact .inr (.inl hnan)
  · rcases h with heq | hnan | hzero
    · cases hnan : floatIsNaN d1 with
      | true => exact .inr ⟨rfl, heq ▸ hnan⟩
      | false => exact .inl ⟨⟨rfl, heq ▸ hnan⟩, .inl heq⟩
    · exact .inr hnan
    · exact .inl ⟨⟨floatIsNaN_of_isZero hzero.1, floatIsNaN_of_isZero hzero.2⟩, .inr hzero⟩

theorem sameBits_tagged {p1 p2 : TaggedPtr} :
    (Member.tagged p1).sameBits (.tagged p2) = true ↔ p1 = p2 := beq_iff_eq

/-- Only pointers are the same. -/
theorem eq_of_sameBits {v w : Member} (h : v.sameBits w = true) : v = w := by
  cases v with
  | tagged p1 =>
    cases w with
    | tagged p2 => rw [sameBits_tagged.mp h]
    | newInt n => cases h
    | newFloat d => cases h
  | newInt n => cases h
  | newFloat d => cases h

section Leaves

variable {decQuadCompare : DecQuad → DecQuad → DecClass} {hashKey : HashKey} {o : Objects M}
  {nodes : Finset TaggedPtr} {v w : Member}

/-- What `taggedPtrEq` does with members that are no lists or mappings. -/
def leafEq (decQuadCompare : DecQuad → DecQuad → DecClass) (o : Objects M) (v w : Member) : Bool :=
  if v.sameBits w then true
  else if v.getTag ≠ w.getTag then false
  else if v.getTag = Tag.int then loadBox o.mem v == loadBox o.mem w
  else if v.getTag = Tag.float then balFloatEq (loadBox o.mem v) (loadBox o.mem w)
  else match v, w with
    | .tagged p1, .tagged p2 =>
      if getTag p1 = Tag.string then taggedStringEqual o.mem p1 p2
      else if getTag p1 = Tag.decimal then balDecimalCmp decQuadCompare o.mem p1 p2 == 0
      else false
    | _, _ => false

theorem taggedPtrEq_leaf (fuel : Nat) (stackPtr : EqStack) (hv : v.IsLeaf) (w : Member) :
    taggedPtrEq decQuadCompare hashKey o (fuel + 1) stackPtr v w =
      some (leafEq decQuadCompare o v w) := by
  unfold taggedPtrEq leafEq
  by_cases hbits : v.sameBits w = true
  · rw [if_pos hbits, if_pos hbits]
  · rw [if_neg hbits, if_neg hbits]
    by_cases htag : v.getTag = w.getTag
    · rw [if_neg (not_not.mpr htag), if_neg (not_not.mpr htag)]
      by_cases hint : v.getTag = Tag.int
      · rw [if_pos hint, if_pos hint]
      · rw [if_neg hint, if_neg hint]
        by_cases hfloat : v.getTag = Tag.float
        · rw [if_pos hfloat, if_pos hfloat]
        · rw [if_neg hfloat, if_neg hfloat]
          cases v with
          | tagged p1 =>
            have hlist : getTag p1 ≠ Tag.list := hv.1
            have hmapping : getTag p1 ≠ Tag.mapping := hv.2
            cases w with
            | tagged p2 =>
              dsimp only
              rw [if_neg hlist, if_neg hmapping]
              split
              next => rfl
              next =>
                split
                next => rfl
                next => rfl
            | newInt n => rfl
            | newFloat d => rfl
          | newInt n => rfl
          | newFloat d => rfl
    · rw [if_pos htag, if_pos htag]

@[simp] theorem getTag_tagged (tp : TaggedPtr) : (Member.tagged tp).getTag = getTag tp := rfl

/-- When leaves are found equal. -/
inductive LeafEqual (decQuadCompare : DecQuad → DecQuad → DecClass) (o : Objects M) (v w : Member) :
    Prop where
  | same (tp : TaggedPtr) (hv : v = .tagged tp) (hw : w = .tagged tp)
  | int (hv : v.getTag = Tag.int) (hw : w.getTag = Tag.int) (heq : loadBox o.mem v = loadBox o.mem w)
  | float (hv : v.getTag = Tag.float) (hw : w.getTag = Tag.float)
      (heq : SameFloat (loadBox o.mem v) (loadBox o.mem w))
  | string (p1 p2 : TaggedPtr) (hv : v = .tagged p1) (hw : w = .tagged p2)
      (htag1 : getTag p1 = Tag.string) (htag2 : getTag p2 = Tag.string)
      (heq : taggedStringEqual o.mem p1 p2 = true)
  | decimal (p1 p2 : TaggedPtr) (hv : v = .tagged p1) (hw : w = .tagged p2)
      (htag1 : getTag p1 = Tag.decimal) (htag2 : getTag p2 = Tag.decimal)
      (heq : decQuadCompare (taggedToDecQuad o.mem p1) (taggedToDecQuad o.mem p2) = .posZero)

theorem decimalEq_iff (m : Mem) (p1 p2 : TaggedPtr) :
    (balDecimalCmp decQuadCompare m p1 p2 == 0) = true ↔
      decQuadCompare (taggedToDecQuad m p1) (taggedToDecQuad m p2) = .posZero := by
  unfold balDecimalCmp
  cases decQuadCompare (taggedToDecQuad m p1) (taggedToDecQuad m p2) with
  | posZero => exact iff_of_true rfl rfl
  | posNormal => exact iff_of_false (by decide) (fun h => by cases h)
  | other => exact iff_of_false (by decide) (fun h => by cases h)

theorem LeafEqual.leafEq (h : LeafEqual decQuadCompare o v w) : leafEq decQuadCompare o v w = true := by
  have hfloat : Tag.float ≠ Tag.int := by decide
  have hstring : Tag.string ≠ Tag.int ∧ Tag.string ≠ Tag.float := by decide
  have hdecimal : Tag.decimal ≠ Tag.int ∧ Tag.decimal ≠ Tag.float ∧ Tag.decimal ≠ Tag.string := by
    decide
  unfold Runtime.leafEq
  by_cases hbits : v.sameBits w = true
  · exact if_pos hbits
  · rw [if_neg hbits]
    cases h with
    | same tp hv hw =>
      rw [hv, hw] at hbits
      exact absurd (sameBits_tagged.mpr rfl) hbits
    | int hv hw heq =>
      rw [if_neg (not_not.mpr (hv.trans hw.symm)), if_pos hv]
      exact beq_iff_eq.mpr heq
    | float hv hw heq =>
      rw [if_neg (not_not.mpr (hv.trans hw.symm)), if_neg (hv ▸ hfloat), if_pos hv]
      exact (balFloatEq_iff _ _).mpr heq
    | string p1 p2 hv hw htag1 htag2 heq =>
      rw [hv, hw, getTag_tagged, getTag_tagged, if_neg (not_not.mpr (htag1.trans htag2.symm)),
        if_neg (htag1 ▸ hstring.1), if_neg (htag1 ▸ hstring.2)]
      exact (if_pos htag1).trans heq
    | decimal p1 p2 hv hw htag1 htag2 heq =>
      rw [hv, hw, getTag_tagged, getTag_tagged, if_neg (not_not.mpr (htag1.trans htag2.symm)),
        if_neg (htag1 ▸ hdecimal.1), if_neg (htag1 ▸ hdecimal.2.1)]
      dsimp only
      rw [if_neg (htag1 ▸ hdecimal.2.2), if_pos htag1]
      exact (decimalEq_iff o.mem p1 p2).mpr heq

theorem leafEqual_of_leafEq (h : Runtime.leafEq decQuadCompare o v w = true) :
    LeafEqual decQuadCompare o v w := by
  unfold Runtime.leafEq at h
  split at h
  next hbits =>
    have heq := eq_of_sameBits hbits
    cases v with
    | tagged tp => exact .same tp rfl heq.symm
    | newInt n => cases hbits
    | newFloat d => cases hbits
  next =>
    split at h
    next => cases h
    next htag =>
      have htag : v.getTag = w.getTag := not_not.mp htag
      split at h
      next hint => exact .int hint (htag.symm.trans hint) (beq_iff_eq.mp h)
      next =>
        split at h
        next hfloat => exact .float hfloat (htag.symm.trans hfloat) ((balFloatEq_iff _ _).mp h)
        next =>
          cases v with
          | tagged p1 =>
            cases w with
            | tagged p2 =>
              have htag : getTag p1 = getTag p2 := htag
              dsimp only at h
              split at h
              next hstring => exact .string p1 p2 rfl rfl hstring (htag.symm.trans hstring) h
              next =>
                split at h
                next hdecimal =>
                  have hcmp := (decimalEq_iff o.mem p1 p2).mp h
                  exact .decimal p1 p2 rfl rfl hdecimal (htag.symm.trans hdecimal) hcmp
                next => cases h
            | newInt n => cases h
            | newFloat d => cases h
          | newInt n => cases h
          | newFloat d => cases h

/-- The kinds of leaves. -/
inductive LeafView (o : Objects M) (v : Member) : Leaf → Prop where
  | int (htag : v.getTag = Tag.int ∨ v.getTag = Tag.int ||| Tag.immediate) :
      LeafView o v (.int (taggedToInt o.mem v).toInt)
  | float (htag : v.getTag = Tag.float) : LeafView o v (.float (loadBox o.mem v))
  | decimal (tp : TaggedPtr) (hv : v = .tagged tp) (htag : getTag tp = Tag.decimal) :
      LeafView o v (.decimal (taggedToDecQuad o.mem tp))
  | string (tp : TaggedPtr) (hv : v = .tagged tp)
      (htag : getTag tp = Tag.string ∨ getTag tp = Tag.string ||| Tag.immediate) :
      LeafView o v (.string (byteSequence o.mem tp))
  | other (tp : TaggedPtr) (hv : v = .tagged tp) : LeafView o v (.other v)

theorem leafView (o : Objects M) (v : Member) : LeafView o v (o.leaf v) := by
  unfold Objects.leaf
  split
  next htag => exact .int htag
  next hint =>
    split
    next htag => exact .float htag
    next hfloat =>
      cases v with
      | tagged tp =>
        dsimp only
        split
        next htag => exact .decimal tp rfl htag
        next =>
          split
          next htag => exact .string tp rfl htag
          next => exact .other tp rfl
      | newInt n => exact absurd (.inl rfl) hint
      | newFloat d => exact absurd rfl hfloat

theorem leaf_same_refl (hvalid : o.Valid decQuadCompare hashKey nodes) (hin : v.In nodes) :
    (o.leaf v).Same decQuadCompare (o.leaf v) := by
  have hview := leafView o v
  revert hview
  generalize o.leaf v = leaf
  intro hview
  cases hview with
  | int htag => exact rfl
  | float htag => exact .inl rfl
  | decimal tp hv htag =>
    cases hv
    rcases hin with hin | himm
    · exact hvalid.decimal tp hin htag
    · rw [htag] at himm
      exact absurd himm (by decide)
  | string tp hv htag => exact rfl
  | other tp hv => exact rfl

/-- An int with a block is not one that could be immediate. -/
theorem not_immediate_of_in (hvalid : o.Valid decQuadCompare hashKey nodes) (hin : v.In nodes)
    (htag : v.getTag = Tag.int) : ¬ IsImmediateInt (loadBox o.mem v).toInt := by
  cases v with
  | tagged tp =>
    rcases hin with hin | himm
    · exact hvalid.int tp hin htag
    · exact absurd (htag.symm.trans himm) (by decide)
  | newInt n => exact hin
  | newFloat d => exact absurd htag (show Tag.float ≠ Tag.int by decide)

theorem taggedToInt_of_block (htag : v.getTag = Tag.int) : taggedToInt o.mem v = loadBox o.mem v := by
  cases v with
  | tagged tp =>
    have hflag : ¬ tp &&& immediateFlag ≠ 0#64 := by
      rw [immediate_iff_getTag, show getTag tp = Tag.int from htag]
      decide
    exact if_neg hflag
  | newInt n => rfl
  | newFloat d => rfl

theorem taggedToInt_of_immediate (m : Mem) {tp : TaggedPtr}
    (htag : getTag tp = Tag.int ||| Tag.immediate) :
    taggedToInt m (.tagged tp) = ((tp &&& pointerMask) <<< 8).sshiftRight 8 := by
  have hflag : tp &&& immediateFlag ≠ 0#64 := by
    rw [immediate_iff_getTag, htag]
    decide
  exact if_pos hflag

/-- A member with the tag of an immediate int is a pointer. -/
theorem tagged_of_immediate (htag : v.getTag = Tag.int ||| Tag.immediate) :
    ∃ tp, v = .tagged tp ∧ getTag tp = Tag.int ||| Tag.immediate := by
  cases v with
  | tagged tp => exact ⟨tp, rfl, htag⟩
  | newInt n => exact absurd htag (show Tag.int ≠ Tag.int ||| Tag.immediate by decide)
  | newFloat d => exact absurd htag (show Tag.float ≠ Tag.int ||| Tag.immediate by decide)

/-- An immediate int is not one with a block. -/
theorem immediate_ne_block (hvalid : o.Valid decQuadCompare hashKey nodes) (hw : w.In nodes)
    (hv : v.getTag = Tag.int ||| Tag.immediate) (htag : w.getTag = Tag.int) :
    (taggedToInt o.mem v).toInt ≠ (taggedToInt o.mem w).toInt := by
  intro heq
  obtain ⟨tp, rfl, htag'⟩ := tagged_of_immediate hv
  refine not_immediate_of_in hvalid hw htag ?_
  rw [← taggedToInt_of_block htag, ← heq, taggedToInt_of_immediate _ htag']
  exact isImmediateInt_immediateInt _

theorem exists_represents (hvalid : o.Valid decQuadCompare hashKey nodes) {tp : TaggedPtr}
    (hin : (Member.tagged tp).In nodes)
    (htag : getTag tp = Tag.string ∨ getTag tp = Tag.string ||| Tag.immediate) :
    ∃ s, Represents o.store.heap tp s := by
  rcases hin with hin | himm
  · obtain ⟨s, hs⟩ := hvalid.string tp hin htag
    exact ⟨s, hvalid.reachable.valid _ hs⟩
  · rw [himm] at htag
    exact absurd htag (by decide)

variable {p1 p2 : TaggedPtr}

theorem taggedStringEqual_iff (hvalid : o.Valid decQuadCompare hashKey nodes)
    (hin1 : (Member.tagged p1).In nodes) (hin2 : (Member.tagged p2).In nodes)
    (htag1 : getTag p1 = Tag.string ∨ getTag p1 = Tag.string ||| Tag.immediate)
    (htag2 : getTag p2 = Tag.string ∨ getTag p2 = Tag.string ||| Tag.immediate) :
    taggedStringEqual o.mem p1 p2 = true ↔ byteSequence o.mem p1 = byteSequence o.mem p2 := by
  obtain ⟨s1, hs1⟩ := exists_represents hvalid hin1 htag1
  obtain ⟨s2, hs2⟩ := exists_represents hvalid hin2 htag2
  have htext : ByText hashKey o.mem (p1, s1) (p2, s2) := Represents.byText hashKey hs1 hs2
  exact htext.equal

/-- An immediate string is equal to itself only. -/
theorem not_stringEqual_of_immediate (m : Mem) (hne : p1 ≠ p2)
    (htag : getTag p1 = Tag.string ||| Tag.immediate ∨ getTag p2 = Tag.string ||| Tag.immediate) :
    ¬ taggedStringEqual m p1 p2 = true := by
  have hflag : ∀ {p : TaggedPtr}, getTag p = Tag.string ||| Tag.immediate →
      p &&& immediateFlag ≠ 0#64 := by
    intro p hp
    rw [immediate_iff_getTag, hp]
    decide
  unfold taggedStringEqual
  rw [if_neg hne]
  rcases htag with h | h
  · rw [if_pos (hflag h)]
    exact Bool.false_ne_true
  · split
    next => exact Bool.false_ne_true
    next =>
      rw [if_pos (hflag h)]
      exact Bool.false_ne_true

theorem leafEqual_of_int (hvalid : o.Valid decQuadCompare hashKey nodes) (hv : v.In nodes)
    (hw : w.In nodes) (htag1 : v.getTag = Tag.int ∨ v.getTag = Tag.int ||| Tag.immediate)
    (htag2 : w.getTag = Tag.int ∨ w.getTag = Tag.int ||| Tag.immediate)
    (heq : (taggedToInt o.mem v).toInt = (taggedToInt o.mem w).toInt) :
    LeafEqual decQuadCompare o v w := by
  rcases htag1 with htag1 | htag1
  · rcases htag2 with htag2 | htag2
    · refine .int htag1 htag2 ?_
      rw [← taggedToInt_of_block htag1, ← taggedToInt_of_block htag2]
      exact BitVec.eq_of_toInt_eq heq
    · exact absurd heq.symm (immediate_ne_block hvalid hv htag2 htag1)
  · rcases htag2 with htag2 | htag2
    · exact absurd heq (immediate_ne_block hvalid hw htag1 htag2)
    · obtain ⟨p1, rfl, htag1⟩ := tagged_of_immediate htag1
      obtain ⟨p2, rfl, htag2⟩ := tagged_of_immediate htag2
      have hint := BitVec.eq_of_toInt_eq heq
      rw [taggedToInt_of_immediate _ htag1, taggedToInt_of_immediate _ htag2] at hint
      rw [eq_of_immediateInt (htag1.trans htag2.symm) hint]
      exact .same p2 rfl rfl

theorem leafEqual_of_string (hvalid : o.Valid decQuadCompare hashKey nodes)
    (hin1 : (Member.tagged p1).In nodes) (hin2 : (Member.tagged p2).In nodes)
    (htag1 : getTag p1 = Tag.string ∨ getTag p1 = Tag.string ||| Tag.immediate)
    (htag2 : getTag p2 = Tag.string ∨ getTag p2 = Tag.string ||| Tag.immediate)
    (heq : byteSequence o.mem p1 = byteSequence o.mem p2) :
    LeafEqual decQuadCompare o (.tagged p1) (.tagged p2) := by
  have hequal := (taggedStringEqual_iff hvalid hin1 hin2 htag1 htag2).mpr heq
  by_cases hne : p1 = p2
  · rw [hne]
    exact .same p2 rfl rfl
  · -- two different pointers to the same text are both to blocks
    have hblock1 := htag1.resolve_right fun h =>
      not_stringEqual_of_immediate o.mem hne (.inl h) hequal
    have hblock2 := htag2.resolve_right fun h =>
      not_stringEqual_of_immediate o.mem hne (.inr h) hequal
    exact .string p1 p2 rfl rfl hblock1 hblock2 hequal

/-- Leaves with the same value are found equal. -/
theorem leafEq_of_same (hvalid : o.Valid decQuadCompare hashKey nodes) (hv : v.In nodes)
    (hw : w.In nodes) (hsame : (o.leaf v).Same decQuadCompare (o.leaf w)) :
    leafEq decQuadCompare o v w = true := by
  refine LeafEqual.leafEq ?_
  have hview1 := leafView o v
  have hview2 := leafView o w
  revert hsame hview1 hview2
  generalize o.leaf v = leaf1
  generalize o.leaf w = leaf2
  intro hsame hview1 hview2
  cases hview1 with
  | int htag1 =>
    cases hview2 with
    | int htag2 => exact leafEqual_of_int hvalid hv hw htag1 htag2 hsame
    | _ => exact hsame.elim
  | float htag1 =>
    cases hview2 with
    | float htag2 => exact .float htag1 htag2 hsame
    | _ => exact hsame.elim
  | decimal p1 hp1 htag1 =>
    cases hview2 with
    | decimal p2 hp2 htag2 => exact .decimal p1 p2 hp1 hp2 htag1 htag2 hsame
    | _ => exact hsame.elim
  | string p1 hp1 htag1 =>
    cases hview2 with
    | string p2 hp2 htag2 =>
      rw [hp1] at hv ⊢
      rw [hp2] at hw ⊢
      exact leafEqual_of_string hvalid hv hw htag1 htag2 hsame
    | _ => exact hsame.elim
  | other p1 hp1 =>
    cases hview2 with
    | other p2 hp2 =>
      have heq : v = w := hsame
      exact .same p1 hp1 (heq ▸ hp1)
    | _ => exact hsame.elim

/-- Leaves that are found equal have the same value. -/
theorem same_of_leafEq (hvalid : o.Valid decQuadCompare hashKey nodes) (hv : v.In nodes)
    (hw : w.In nodes) (h : leafEq decQuadCompare o v w = true) :
    v.getTag = w.getTag ∧ (o.leaf v).Same decQuadCompare (o.leaf w) := by
  have hstring : Tag.string ≠ Tag.int ∧ Tag.string ≠ Tag.int ||| Tag.immediate ∧
      Tag.string ≠ Tag.float ∧ Tag.string ≠ Tag.decimal := by decide
  have hdecimal : Tag.decimal ≠ Tag.int ∧ Tag.decimal ≠ Tag.int ||| Tag.immediate ∧
      Tag.decimal ≠ Tag.float := by decide
  have hfloat : Tag.float ≠ Tag.int ∧ Tag.float ≠ Tag.int ||| Tag.immediate := by decide
  cases leafEqual_of_leafEq h with
  | same tp hv' hw' =>
    rw [hw', ← hv']
    exact ⟨rfl, leaf_same_refl hvalid hv⟩
  | int hv' hw' heq =>
    refine ⟨hv'.trans hw'.symm, ?_⟩
    have hleaf : ∀ {u : Member}, u.getTag = Tag.int → o.leaf u = .int (loadBox o.mem u).toInt := by
      intro u hu
      unfold Objects.leaf
      rw [if_pos (.inl hu), taggedToInt_of_block hu]
    rw [hleaf hv', hleaf hw', heq]
    exact rfl
  | float hv' hw' heq =>
    refine ⟨hv'.trans hw'.symm, ?_⟩
    have hleaf : ∀ {u : Member}, u.getTag = Tag.float → o.leaf u = .float (loadBox o.mem u) := by
      intro u hu
      unfold Objects.leaf
      rw [if_neg (hu ▸ not_or.mpr hfloat), if_pos hu]
    rw [hleaf hv', hleaf hw']
    exact heq
  | string p1 p2 hv' hw' htag1 htag2 heq =>
    have hleaf : ∀ {p : TaggedPtr}, getTag p = Tag.string →
        o.leaf (.tagged p) = .string (byteSequence o.mem p) := by
      intro p hp
      unfold Objects.leaf
      rw [getTag_tagged, if_neg (hp ▸ not_or.mpr ⟨hstring.1, hstring.2.1⟩), if_neg (hp ▸ hstring.2.2.1)]
      dsimp only
      rw [if_neg (hp ▸ hstring.2.2.2), if_pos (.inl hp)]
    rw [hv'] at hv ⊢
    rw [hw'] at hw ⊢
    refine ⟨htag1.trans htag2.symm, ?_⟩
    rw [hleaf htag1, hleaf htag2]
    exact (taggedStringEqual_iff hvalid hv hw (.inl htag1) (.inl htag2)).mp heq
  | decimal p1 p2 hv' hw' htag1 htag2 heq =>
    have hleaf : ∀ {p : TaggedPtr}, getTag p = Tag.decimal →
        o.leaf (.tagged p) = .decimal (taggedToDecQuad o.mem p) := by
      intro p hp
      unfold Objects.leaf
      rw [getTag_tagged, if_neg (hp ▸ not_or.mpr ⟨hdecimal.1, hdecimal.2.1⟩), if_neg (hp ▸ hdecimal.2.2)]
      exact if_pos hp
    rw [hv', hw']
    refine ⟨htag1.trans htag2.symm, ?_⟩
    rw [hleaf htag1, hleaf htag2]
    exact heq

end Leaves

/-! ## Lists -/

variable {l : MemberArray}

theorem MemberArray.exists_get {i : Nat} (hi : i < l.length) :
    ∃ v, l.get i = some v := by
  cases l with
  | generic members => exact ⟨_, congrArg (Option.map _) (List.getElem?_eq_getElem hi)⟩
  | ints members => exact ⟨_, congrArg (Option.map _) (List.getElem?_eq_getElem hi)⟩
  | bytes members => exact ⟨_, congrArg (Option.map _) (List.getElem?_eq_getElem hi)⟩
  | floats members => exact ⟨_, congrArg (Option.map _) (List.getElem?_eq_getElem hi)⟩

theorem MemberArray.lt_length {i : Nat} {v : Member} (h : l.get i = some v) :
    i < l.length := by
  cases l with
  | generic members =>
    obtain ⟨_, hp, _⟩ := Option.map_eq_some_iff.mp h
    exact (List.getElem?_eq_some_iff.mp hp).1
  | ints members =>
    obtain ⟨_, hp, _⟩ := Option.map_eq_some_iff.mp h
    exact (List.getElem?_eq_some_iff.mp hp).1
  | bytes members =>
    obtain ⟨_, hp, _⟩ := Option.map_eq_some_iff.mp h
    exact (List.getElem?_eq_some_iff.mp hp).1
  | floats members =>
    obtain ⟨_, hp, _⟩ := Option.map_eq_some_iff.mp h
    exact (List.getElem?_eq_some_iff.mp hp).1

theorem intToTagged_in (nodes : Finset TaggedPtr) (n : Word) : (intToTagged n).In nodes := by
  unfold intToTagged
  split
  next => exact .inr (getTag_intToTagged n)
  next h => exact h

/-- The members of a list of the graph are in it. -/
theorem MemberArray.get_in {nodes : Finset TaggedPtr} (hl : ∀ p ∈ l.pointers, p ∈ nodes) {i : Nat}
    {v : Member} (h : l.get i = some v) :
    v.In nodes := by
  cases l with
  | generic members =>
    obtain ⟨p, hp, rfl⟩ := Option.map_eq_some_iff.mp h
    exact .inl (hl p (List.mem_of_getElem? hp))
  | ints members =>
    obtain ⟨n, _, rfl⟩ := Option.map_eq_some_iff.mp h
    exact intToTagged_in nodes n
  | bytes members =>
    obtain ⟨b, _, rfl⟩ := Option.map_eq_some_iff.mp h
    exact intToTagged_in nodes _
  | floats members =>
    obtain ⟨d, _, rfl⟩ := Option.map_eq_some_iff.mp h
    trivial

theorem listEqLoop_spec {eq : Member → Member → Option Bool} {l1 l2 : MemberArray} : ∀ (n i : Nat),
    (∀ j, i ≤ j → j < i + n → ∃ v w r, l1.get j = some v ∧ l2.get j = some w ∧ eq v w = some r) →
    ∃ r, listEqLoop eq l1 l2 i n = some r ∧ (r = true ↔ ∀ j, i ≤ j → j < i + n →
      ∀ v w, l1.get j = some v → l2.get j = some w → eq v w = some true)
  | 0, i, _ => ⟨true, rfl, iff_of_true rfl fun j hj hj' => absurd hj' (by omega)⟩
  | n + 1, i, h => by
    obtain ⟨v, w, r, hv, hw, hr⟩ := h i (le_refl i) (by omega)
    obtain ⟨r', hr', hiff⟩ := listEqLoop_spec n (i + 1) fun j hj hj' => h j (by omega) (by omega)
    cases r with
    | false =>
      refine ⟨false, ?_, iff_of_false Bool.false_ne_true fun hall => ?_⟩
      · simp only [listEqLoop, hv, hw, hr, Option.bind_eq_bind, Option.bind_some]
        rfl
      · have := hall i (le_refl i) (by omega) v w hv hw
        rw [hr] at this
        cases this
    | true =>
      refine ⟨r', ?_, hiff.trans ⟨fun hall j hj hj' v' w' hv' hw' => ?_, fun hall j hj hj' => ?_⟩⟩
      · simp only [listEqLoop, hv, hw, hr, Option.bind_eq_bind, Option.bind_some]
        exact hr'
      · by_cases hji : j = i
        · rw [hji, hv] at hv'
          rw [hji, hw] at hw'
          cases hv'
          cases hw'
          exact hr
        · exact hall j (by omega) (by omega) v' w' hv' hw'
      · exact hall j (by omega) (by omega)

theorem balListEqInternal_spec {o : Objects M} {eq : Member → Member → Option Bool}
    {p1 p2 : TaggedPtr} {l1 l2 : MemberArray} (hl1 : o.list (taggedToPtr p1) = some l1)
    (hl2 : o.list (taggedToPtr p2) = some l2)
    (heq : ∀ (i : Nat) v w, l1.get i = some v → l2.get i = some w → ∃ r, eq v w = some r) :
    ∃ r, balListEqInternal o eq p1 p2 = some r ∧ (r = true ↔ l1.length = l2.length ∧
      ∀ (i : Nat) v w, l1.get i = some v → l2.get i = some w → eq v w = some true) := by
  unfold balListEqInternal
  simp only [hl1, hl2, Option.bind_eq_bind, Option.bind_some]
  by_cases hlen : l2.length = l1.length
  · rw [if_neg (not_not.mpr hlen)]
    have hall : ∀ j, 0 ≤ j → j < 0 + l1.length →
        ∃ v w r, l1.get j = some v ∧ l2.get j = some w ∧ eq v w = some r := by
      intro j _ hj
      obtain ⟨v, hv⟩ := l1.exists_get (i := j) (by omega)
      obtain ⟨w, hw⟩ := l2.exists_get (i := j) (by omega)
      obtain ⟨r, hr⟩ := heq j v w hv hw
      exact ⟨v, w, r, hv, hw, hr⟩
    obtain ⟨r, hr, hiff⟩ := listEqLoop_spec l1.length 0 hall
    refine ⟨r, hr, hiff.trans ⟨fun h => ⟨hlen.symm, fun i v w hv hw => ?_⟩, fun h j _ _ => h.2 j⟩⟩
    have hlt := MemberArray.lt_length hv
    exact h i (Nat.zero_le i) (by omega) v w hv hw
  · rw [if_pos hlen]
    exact ⟨false, rfl, iff_of_false Bool.false_ne_true fun h => hlen h.1.symm⟩

/-! ## Mappings -/

section Mappings

variable {decQuadCompare : DecQuad → DecQuad → DecClass} {hashKey : HashKey} {o : Objects M}
  {eq : Member → Member → Option Bool} {m1 m2 : Mapping Key M}

/-- A mapping of the graph. -/
structure MappingIn (hashKey : HashKey) (o : Objects M) (m : Mapping Key M) : Prop where
  inv : ∃ order last, m.Inv Prod.snd (textHash hashKey) order last
  keys : ∀ f ∈ m.fields, f.key ∈ o.store.strings

theorem MappingIn.nodup (h : MappingIn hashKey o m1) : m1.texts.Nodup := by
  obtain ⟨order, last, hinv⟩ := h.inv
  unfold Mapping.texts
  rw [hinv.contents.order_eq]
  exact hinv.contents.nodup

/-- A text has one value. -/
theorem MappingIn.value_eq (h : MappingIn hashKey o m1) {f f' : MapField Key} (hf : f ∈ m1.fields)
    (hf' : f' ∈ m1.fields) (heq : f.key.2 = f'.key.2) : f.value = f'.value := by
  obtain ⟨order, last, hinv⟩ := h.inv
  have hlast := hinv.contents.last_eq f hf
  rw [heq, hinv.contents.last_eq f' hf'] at hlast
  exact (Option.some.inj hlast).symm

theorem MappingIn.lookup_cases (hreach : Reachable o.store) (h : MappingIn hashKey o m2) {key : Key}
    (hkey : key ∈ o.store.strings) :
    (∃ (j : Nat) (f2 : MapField Key), m2.fields[j]? = some f2 ∧ f2.key.2 = key.2 ∧
      m2.lookup (keyEq o.mem) key (keyHash hashKey o.mem key) = some (j : Int)) ∨
    ((∀ f2 ∈ m2.fields, f2.key.2 ≠ key.2) ∧
      ∃ j : Int, j < 0 ∧ m2.lookup (keyEq o.mem) key (keyHash hashKey o.mem key) = some j) := by
  obtain ⟨order, last, hinv⟩ := h.inv
  rcases hinv.lookup_cases (hreach.valid.keyOps hashKey) h.keys hkey with
    ⟨j, hj, htext, hres⟩ | ⟨hnew, d, _, hres⟩
  · exact .inl ⟨j, m2.fields[j], List.getElem?_eq_getElem hj, htext, hres⟩
  · refine .inr ⟨fun f2 hf2 heq => hnew ?_, _, ?_, hres⟩
    · rw [← hinv.contents.order_eq, ← heq]
      exact List.mem_map_of_mem hf2
    · omega

theorem mappingEqLoop_spec (hreach : Reachable o.store) (h2 : MappingIn hashKey o m2) :
    ∀ fields : List (MapField Key), (∀ f ∈ fields, f.key ∈ o.store.strings) →
    (∀ f ∈ fields, ∀ f2 ∈ m2.fields, ∃ r, eq (.tagged f.value) (.tagged f2.value) = some r) →
    ∃ r, mappingEqLoop hashKey o eq m2 fields = some r ∧ (r = true ↔ ∀ f ∈ fields,
      ∃ f2 ∈ m2.fields, f2.key.2 = f.key.2 ∧ eq (.tagged f.value) (.tagged f2.value) = some true)
  | [], _, _ => ⟨true, rfl, iff_of_true rfl fun f hf => absurd hf List.not_mem_nil⟩
  | f :: fields, hkeys, heq => by
    have hkey := hkeys f (.head _)
    obtain ⟨r', hr', hiff⟩ := mappingEqLoop_spec hreach h2 fields
      (fun f' hf' => hkeys f' (.tail f hf'))
      fun f' hf' => heq f' (.tail f hf')
    rcases h2.lookup_cases hreach hkey with ⟨j, f2, hj, htext, hres⟩ | ⟨hnone, j, hneg, hres⟩
    · have hf2 := List.mem_of_getElem? hj
      have hpos : ¬ (j : Int) < 0 := by omega
      obtain ⟨r, hr⟩ := heq f List.mem_cons_self f2 hf2
      cases r with
      | false =>
        refine ⟨false, ?_, iff_of_false Bool.false_ne_true fun hall => ?_⟩
        · simp only [mappingEqLoop, hres, Option.bind_eq_bind, Option.bind_some, if_neg hpos,
            Int.toNat_natCast, hj, hr]
          rfl
        · obtain ⟨f2', hf2', htext', htrue⟩ := hall f (.head _)
          rw [h2.value_eq hf2' hf2 (htext'.trans htext.symm), hr] at htrue
          cases htrue
      | true =>
        refine ⟨r', ?_, hiff.trans ⟨fun hall f' hf' => ?_, fun hall f' hf' => ?_⟩⟩
        · simp only [mappingEqLoop, hres, Option.bind_eq_bind, Option.bind_some, if_neg hpos,
            Int.toNat_natCast, hj, hr]
          exact hr'
        · rcases List.mem_cons.mp hf' with rfl | hf'
          · exact ⟨f2, hf2, htext, hr⟩
          · exact hall f' hf'
        · exact hall f' (.tail f hf')
    · refine ⟨false, ?_, iff_of_false Bool.false_ne_true fun hall => ?_⟩
      · simp only [mappingEqLoop, hres, Option.bind_eq_bind, Option.bind_some, if_pos hneg]
      · obtain ⟨f2, hf2, htext, _⟩ := hall f (.head _)
        exact hnone f2 hf2 htext

theorem balMappingEqInternal_spec (hreach : Reachable o.store) {p1 p2 : TaggedPtr}
    (hm1 : o.mapping (taggedToPtr p1) = some m1) (hm2 : o.mapping (taggedToPtr p2) = some m2)
    (h1 : MappingIn hashKey o m1) (h2 : MappingIn hashKey o m2)
    (heq : ∀ f1 ∈ m1.fields, ∀ f2 ∈ m2.fields,
      ∃ r, eq (.tagged f1.value) (.tagged f2.value) = some r) :
    ∃ r, balMappingEqInternal hashKey o eq p1 p2 = some r ∧ (r = true ↔
      (∀ s, s ∈ m1.texts ↔ s ∈ m2.texts) ∧ ∀ f1 ∈ m1.fields, ∀ f2 ∈ m2.fields,
        f1.key.2 = f2.key.2 → eq (.tagged f1.value) (.tagged f2.value) = some true) := by
  have hlen : ∀ {m : Mapping Key M}, m.texts.length = m.fields.length := List.length_map _
  unfold balMappingEqInternal
  simp only [hm1, hm2, Option.bind_eq_bind, Option.bind_some]
  by_cases hsize : m2.fields.length = m1.fields.length
  · rw [if_neg (not_not.mpr hsize)]
    obtain ⟨r, hr, hiff⟩ := mappingEqLoop_spec hreach h2 m1.fields h1.keys heq
    refine ⟨r, hr, hiff.trans ⟨fun h => ⟨?_, fun f1 hf1 f2 hf2 htext => ?_⟩, fun h f1 hf1 => ?_⟩⟩
    · -- as many keys, so all keys of the second mapping are found
      have hsub : m1.texts ⊆ m2.texts := by
        intro s hs
        obtain ⟨f1, hf1, rfl⟩ := List.mem_map.mp hs
        obtain ⟨f2, hf2, htext, _⟩ := h f1 hf1
        exact htext ▸ List.mem_map_of_mem hf2
      have hperm := (h1.nodup.subperm hsub).perm_of_length_le (by rw [hlen, hlen, hsize])
      exact fun s => hperm.mem_iff
    · obtain ⟨f2', hf2', htext', htrue⟩ := h f1 hf1
      rw [h2.value_eq hf2' hf2 (htext'.trans htext)] at htrue
      exact htrue
    · obtain ⟨f2, hf2, htext⟩ := List.mem_map.mp ((h.1 f1.key.2).mp (List.mem_map_of_mem hf1))
      exact ⟨f2, hf2, htext, h.2 f1 hf1 f2 hf2 htext.symm⟩
  · rw [if_pos hsize]
    refine ⟨false, rfl, iff_of_false Bool.false_ne_true fun h => hsize ?_⟩
    have hperm := (List.perm_ext_iff_of_nodup h1.nodup h2.nodup).mpr h.1
    rw [← hlen, ← hlen]
    exact hperm.length_eq.symm

end Mappings

/-! ## The comparison -/

section Comparison

variable {decQuadCompare : DecQuad → DecQuad → DecClass} {hashKey : HashKey} {o : Objects M}
  {nodes : Finset TaggedPtr} {v w : Member} {fuel : Nat} {stackPtr : EqStack}

theorem taggedPtrEq_self (tp : TaggedPtr) :
    taggedPtrEq decQuadCompare hashKey o (fuel + 1) stackPtr (.tagged tp) (.tagged tp) = some true := by
  unfold taggedPtrEq
  exact if_pos (sameBits_tagged.mpr rfl)

theorem taggedPtrEq_of_tag_ne (htag : v.getTag ≠ w.getTag) :
    taggedPtrEq decQuadCompare hashKey o (fuel + 1) stackPtr v w = some false := by
  have hbits : ¬ v.sameBits w = true := fun h => htag (congrArg Member.getTag (eq_of_sameBits h))
  unfold taggedPtrEq
  rw [if_neg hbits, if_pos htag]

variable {p p1 p2 : TaggedPtr}

theorem taggedPtrEq_list (htag1 : getTag p1 = Tag.list) (htag2 : getTag p2 = Tag.list) (hne : p1 ≠ p2) :
    taggedPtrEq decQuadCompare hashKey o (fuel + 1) stackPtr (.tagged p1) (.tagged p2) =
      if (p1, p2) ∈ stackPtr then some true
      else balListEqInternal o (taggedPtrEq decQuadCompare hashKey o fuel ((p1, p2) :: stackPtr))
        p1 p2 := by
  have hbits : ¬ (Member.tagged p1).sameBits (.tagged p2) = true := fun h => hne (sameBits_tagged.mp h)
  have htags : Tag.list ≠ Tag.int ∧ Tag.list ≠ Tag.float ∧ Tag.list ≠ Tag.string ∧
      Tag.list ≠ Tag.decimal := by decide
  conv_lhs => unfold taggedPtrEq
  rw [if_neg hbits, getTag_tagged, getTag_tagged, if_neg (not_not.mpr (htag1.trans htag2.symm)),
    if_neg (htag1 ▸ htags.1), if_neg (htag1 ▸ htags.2.1)]
  dsimp only
  rw [if_neg (htag1 ▸ htags.2.2.1), if_neg (htag1 ▸ htags.2.2.2), if_pos htag1]

theorem taggedPtrEq_mapping (htag1 : getTag p1 = Tag.mapping) (htag2 : getTag p2 = Tag.mapping)
    (hne : p1 ≠ p2) :
    taggedPtrEq decQuadCompare hashKey o (fuel + 1) stackPtr (.tagged p1) (.tagged p2) =
      if (p1, p2) ∈ stackPtr then some true
      else balMappingEqInternal hashKey o
        (taggedPtrEq decQuadCompare hashKey o fuel ((p1, p2) :: stackPtr)) p1 p2 := by
  have hbits : ¬ (Member.tagged p1).sameBits (.tagged p2) = true := fun h => hne (sameBits_tagged.mp h)
  have htags : Tag.mapping ≠ Tag.int ∧ Tag.mapping ≠ Tag.float ∧ Tag.mapping ≠ Tag.string ∧
      Tag.mapping ≠ Tag.decimal ∧ Tag.mapping ≠ Tag.list := by decide
  conv_lhs => unfold taggedPtrEq
  rw [if_neg hbits, getTag_tagged, getTag_tagged, if_neg (not_not.mpr (htag1.trans htag2.symm)),
    if_neg (htag1 ▸ htags.1), if_neg (htag1 ▸ htags.2.1)]
  dsimp only
  rw [if_neg (htag1 ▸ htags.2.2.1), if_neg (htag1 ▸ htags.2.2.2.1), if_neg (htag1 ▸ htags.2.2.2.2),
    if_pos htag1]

/-- The pairs on the stack, as a relation. -/
def onStack (stackPtr : EqStack) (v w : Member) : Prop :=
  ∃ p1 p2, v = .tagged p1 ∧ w = .tagged p2 ∧ (p1, p2) ∈ stackPtr

/-- What may be taken for granted while the pairs on the stack are compared. -/
def Granted (decQuadCompare : DecQuad → DecQuad → DecClass) (o : Objects M) (stackPtr : EqStack) :
    Member → Member → Prop :=
  assuming (matching decQuadCompare o) (onStack stackPtr) ⊔ onStack stackPtr

theorem granted_of_matches (h : Matches decQuadCompare o (Granted decQuadCompare o stackPtr) v w) :
    assuming (matching decQuadCompare o) (onStack stackPtr) v w := by
  have hstep : (fun v' w' => v' = v ∧ w' = w) ≤ matching decQuadCompare o
      (assuming (matching decQuadCompare o) (onStack stackPtr) ⊔ onStack stackPtr) := by
    intro v' w' heq
    rw [heq.1, heq.2]
    exact h
  exact le_assuming_of_step _ hstep v w ⟨rfl, rfl⟩

/-- A pair that has been compared on the assumption of itself is no longer an assumption. -/
theorem granted_of_pop
    (h : Matches decQuadCompare o (Granted decQuadCompare o ((p1, p2) :: stackPtr)) (.tagged p1)
      (.tagged p2)) :
    assuming (matching decQuadCompare o) (onStack stackPtr) (.tagged p1) (.tagged p2) := by
  let pair : Member → Member → Prop := fun v w => v = .tagged p1 ∧ w = .tagged p2
  have hstack : onStack ((p1, p2) :: stackPtr) = onStack stackPtr ⊔ pair := by
    ext v w
    refine ⟨fun ⟨q1, q2, hv, hw, hmem⟩ => ?_, fun hor => ?_⟩
    · rcases List.mem_cons.mp hmem with heq | hmem
      · cases heq
        exact .inr ⟨hv, hw⟩
      · exact .inl ⟨q1, q2, hv, hw, hmem⟩
    · rcases hor with ⟨q1, q2, hv, hw, hmem⟩ | ⟨hv, hw⟩
      · exact ⟨q1, q2, hv, hw, .tail _ hmem⟩
      · exact ⟨p1, p2, hv, hw, .head _⟩
  have hpair : pair ≤ assuming (matching decQuadCompare o) (onStack stackPtr ⊔ pair) := by
    intro v w hvw
    rw [hvw.1, hvw.2, ← hstack]
    exact granted_of_matches h
  exact le_assuming _ hpair _ _ ⟨rfl, rfl⟩

/-- The pairs of the graph that are not on the stack. -/
def remaining (nodes : Finset TaggedPtr) (stackPtr : EqStack) : Finset (TaggedPtr × TaggedPtr) :=
  (nodes ×ˢ nodes).filter (· ∉ stackPtr)

theorem remaining_push (h1 : p1 ∈ nodes) (h2 : p2 ∈ nodes) (hnew : (p1, p2) ∉ stackPtr) :
    (remaining nodes ((p1, p2) :: stackPtr)).card < (remaining nodes stackPtr).card := by
  refine Finset.card_lt_card (Finset.ssubset_iff_of_subset ?_ |>.mpr ⟨(p1, p2), ?_, ?_⟩)
  · intro p hp
    obtain ⟨hmem, hp⟩ := Finset.mem_filter.mp hp
    exact Finset.mem_filter.mpr ⟨hmem, fun h => hp (.tail _ h)⟩
  · exact Finset.mem_filter.mpr ⟨Finset.mem_product.mpr ⟨h1, h2⟩, hnew⟩
  · exact fun h => (Finset.mem_filter.mp h).2 (.head _)

/-- The comparison answers, and the answer is right on the assumption of the stack. -/
def Answers (decQuadCompare : DecQuad → DecQuad → DecClass) (o : Objects M) (stackPtr : EqStack)
    (v w : Member) (r : Option Bool) : Prop :=
  ∃ b, r = some b ∧ (b = true → Granted decQuadCompare o stackPtr v w) ∧
    (Bisimilar decQuadCompare o v w → b = true)

theorem mem_nodes_of_in {tp : TaggedPtr} (hin : (Member.tagged tp).In nodes)
    (htag : getTag tp = Tag.list ∨ getTag tp = Tag.mapping) : tp ∈ nodes := by
  refine hin.resolve_right fun himm => ?_
  rw [himm] at htag
  exact absurd htag (by decide)

/-- A member that is not a leaf is a node of the graph. -/
theorem exists_node (hin : v.In nodes) (hv : ¬ v.IsLeaf) :
    ∃ p ∈ nodes, v = .tagged p ∧ (getTag p = Tag.list ∨ getTag p = Tag.mapping) := by
  have htag : v.getTag = Tag.list ∨ v.getTag = Tag.mapping := by
    by_contra h
    exact hv (not_or.mp h)
  cases v with
  | tagged p => exact ⟨p, mem_nodes_of_in hin htag, rfl, htag⟩
  | newInt n => exact absurd htag (show ¬ (Tag.int = Tag.list ∨ Tag.int = Tag.mapping) by decide)
  | newFloat d =>
    exact absurd htag (show ¬ (Tag.float = Tag.list ∨ Tag.float = Tag.mapping) by decide)

theorem HasList.eq {l l' : MemberArray} (h : o.HasList (.tagged p) l')
    (hl : o.list (taggedToPtr p) = some l) : l' = l := by
  obtain ⟨tp, htp, _, hl'⟩ := h
  cases htp
  rw [hl] at hl'
  exact (Option.some.inj hl').symm

theorem HasMapping.eq {m m' : Mapping Key M} (h : o.HasMapping (.tagged p) m')
    (hm : o.mapping (taggedToPtr p) = some m) : m' = m := by
  obtain ⟨tp, htp, _, hm'⟩ := h
  cases htp
  rw [hm] at hm'
  exact (Option.some.inj hm').symm

theorem tag_of_hasList {l : MemberArray} (h : o.HasList v l) : v.getTag = Tag.list := by
  obtain ⟨tp, rfl, htag, _⟩ := h
  exact htag

theorem tag_of_hasMapping {m : Mapping Key M} (h : o.HasMapping v m) : v.getTag = Tag.mapping := by
  obtain ⟨tp, rfl, htag, _⟩ := h
  exact htag

theorem compare_list (hvalid : o.Valid decQuadCompare hashKey nodes)
    {eq : Member → Member → Option Bool} (h1 : p1 ∈ nodes) (h2 : p2 ∈ nodes)
    (htag1 : getTag p1 = Tag.list) (htag2 : getTag p2 = Tag.list)
    (heq : ∀ v w, v.In nodes → w.In nodes →
      Answers decQuadCompare o ((p1, p2) :: stackPtr) v w (eq v w)) :
    Answers decQuadCompare o stackPtr (.tagged p1) (.tagged p2) (balListEqInternal o eq p1 p2) := by
  obtain ⟨l1, hl1, hin1⟩ := hvalid.list p1 h1 htag1
  obtain ⟨l2, hl2, hin2⟩ := hvalid.list p2 h2 htag2
  have hanswers : ∀ (i : Nat) v w, l1.get i = some v → l2.get i = some w →
      Answers decQuadCompare o ((p1, p2) :: stackPtr) v w (eq v w) := fun i v w hv hw =>
    heq v w (MemberArray.get_in hin1 hv) (MemberArray.get_in hin2 hw)
  obtain ⟨b, hb, hiff⟩ := balListEqInternal_spec hl1 hl2 fun i v w hv hw =>
    (hanswers i v w hv hw).imp fun r hr => hr.1
  refine ⟨b, hb, fun htrue => ?_, fun hbisim => hiff.mpr ?_⟩
  · obtain ⟨hlen, hall⟩ := hiff.mp htrue
    refine .inl (granted_of_pop (.list l1 l2 ⟨p1, rfl, htag1, hl1⟩ ⟨p2, rfl, htag2, hl2⟩ hlen
      fun i v w hv hw => ?_))
    obtain ⟨r, hr, hgranted, _⟩ := hanswers i v w hv hw
    rw [hall i v w hv hw] at hr
    exact hgranted (Option.some.inj hr).symm
  · cases Bisimilar.matches decQuadCompare o hbisim with
    | leaf hleaf => exact absurd htag1 hleaf.1
    | list l1' l2' hl1' hl2' hlen hmembers =>
      rw [HasList.eq hl1' hl1, HasList.eq hl2' hl2] at hlen hmembers
      refine ⟨hlen, fun i v w hv hw => ?_⟩
      obtain ⟨r, hr, _, hright⟩ := hanswers i v w hv hw
      rw [hr, hright (hmembers i v w hv hw)]
    | mapping m1 m2 hm1 =>
      exact absurd (htag1.symm.trans (tag_of_hasMapping hm1)) (by decide)

theorem Objects.Valid.mappingIn (hvalid : o.Valid decQuadCompare hashKey nodes) (hp : p ∈ nodes)
    (htag : getTag p = Tag.mapping) :
    ∃ m, o.mapping (taggedToPtr p) = some m ∧ MappingIn hashKey o m ∧
      ∀ f ∈ m.fields, f.value ∈ nodes := by
  obtain ⟨m, hm, hinv, hfields⟩ := hvalid.mapping p hp htag
  exact ⟨m, hm, ⟨hinv, fun f hf => (hfields f hf).1⟩, fun f hf => (hfields f hf).2⟩

theorem compare_mapping (hvalid : o.Valid decQuadCompare hashKey nodes)
    {eq : Member → Member → Option Bool} (h1 : p1 ∈ nodes) (h2 : p2 ∈ nodes)
    (htag1 : getTag p1 = Tag.mapping) (htag2 : getTag p2 = Tag.mapping)
    (heq : ∀ v w, v.In nodes → w.In nodes →
      Answers decQuadCompare o ((p1, p2) :: stackPtr) v w (eq v w)) :
    Answers decQuadCompare o stackPtr (.tagged p1) (.tagged p2)
      (balMappingEqInternal hashKey o eq p1 p2) := by
  obtain ⟨m1, hm1, hin1, hvalues1⟩ := hvalid.mappingIn h1 htag1
  obtain ⟨m2, hm2, hin2, hvalues2⟩ := hvalid.mappingIn h2 htag2
  have hanswers : ∀ f1 ∈ m1.fields, ∀ f2 ∈ m2.fields,
      Answers decQuadCompare o ((p1, p2) :: stackPtr) (.tagged f1.value) (.tagged f2.value)
        (eq (.tagged f1.value) (.tagged f2.value)) := fun f1 hf1 f2 hf2 =>
    heq _ _ (.inl (hvalues1 f1 hf1)) (.inl (hvalues2 f2 hf2))
  obtain ⟨b, hb, hiff⟩ := balMappingEqInternal_spec hvalid.reachable hm1 hm2 hin1 hin2
    fun f1 hf1 f2 hf2 => (hanswers f1 hf1 f2 hf2).imp fun r hr => hr.1
  refine ⟨b, hb, fun htrue => ?_, fun hbisim => hiff.mpr ?_⟩
  · obtain ⟨hkeys, hall⟩ := hiff.mp htrue
    refine .inl (granted_of_pop (.mapping m1 m2 ⟨p1, rfl, htag1, hm1⟩ ⟨p2, rfl, htag2, hm2⟩ hkeys
      fun f1 hf1 f2 hf2 htext => ?_))
    obtain ⟨r, hr, hgranted, _⟩ := hanswers f1 hf1 f2 hf2
    rw [hall f1 hf1 f2 hf2 htext] at hr
    exact hgranted (Option.some.inj hr).symm
  · cases Bisimilar.matches decQuadCompare o hbisim with
    | leaf hleaf => exact absurd htag1 hleaf.2
    | list l1 l2 hl1 => exact absurd (htag1.symm.trans (tag_of_hasList hl1)) (by decide)
    | mapping m1' m2' hm1' hm2' hkeys hmembers =>
      rw [HasMapping.eq hm1' hm1, HasMapping.eq hm2' hm2] at hkeys hmembers
      refine ⟨hkeys, fun f1 hf1 f2 hf2 htext => ?_⟩
      obtain ⟨r, hr, _, hright⟩ := hanswers f1 hf1 f2 hf2
      rw [hr, hright (hmembers f1 hf1 f2 hf2 htext)]

/-- Every value of the graph is bisimilar to itself. -/
theorem bisimilar_refl (hvalid : o.Valid decQuadCompare hashKey nodes) (hv : v.In nodes) :
    Bisimilar decQuadCompare o v v := by
  refine (bisimilar_iff decQuadCompare o v v).mpr ⟨fun v w => v = w ∧ v.In nodes, ?_, rfl, hv⟩
  intro v w ⟨heq, hin⟩
  rw [← heq]
  by_cases hleaf : v.IsLeaf
  · exact .leaf hleaf hleaf (leaf_same_refl hvalid hin)
  · obtain ⟨p, hp, rfl, htag | htag⟩ := exists_node hin hleaf
    · obtain ⟨l, hl, hmembers⟩ := hvalid.list p hp htag
      refine .list l l ⟨p, rfl, htag, hl⟩ ⟨p, rfl, htag, hl⟩ rfl fun i v' w' hv' hw' => ?_
      rw [hv'] at hw'
      exact ⟨Option.some.inj hw', MemberArray.get_in hmembers hv'⟩
    · obtain ⟨m, hm, hmIn, hvalues⟩ := hvalid.mappingIn hp htag
      refine .mapping m m ⟨p, rfl, htag, hm⟩ ⟨p, rfl, htag, hm⟩ (fun _ => Iff.rfl)
        fun f1 hf1 f2 hf2 htext => ⟨?_, .inl (hvalues f1 hf1)⟩
      rw [hmIn.value_eq hf1 hf2 htext]

/-- Values with different tags that are not both leaves can be told apart. -/
theorem tag_eq_of_bisimilar (hv : ¬ v.IsLeaf) (h : Bisimilar decQuadCompare o v w) :
    v.getTag = w.getTag := by
  cases Bisimilar.matches decQuadCompare o h with
  | leaf hleaf => exact absurd hleaf hv
  | list l1 l2 hl1 hl2 => exact (tag_of_hasList hl1).trans (tag_of_hasList hl2).symm
  | mapping m1 m2 hm1 hm2 => exact (tag_of_hasMapping hm1).trans (tag_of_hasMapping hm2).symm

theorem taggedPtrEq_answers (hvalid : o.Valid decQuadCompare hashKey nodes) :
    ∀ (fuel : Nat) (stackPtr : EqStack) (v w : Member), v.In nodes → w.In nodes →
      (remaining nodes stackPtr).card < fuel →
      Answers decQuadCompare o stackPtr v w
        (taggedPtrEq decQuadCompare hashKey o fuel stackPtr v w) := by
  intro fuel
  induction fuel with
  | zero => exact fun stackPtr v w _ _ h => absurd h (Nat.not_lt_zero _)
  | succ fuel ih =>
    intro stackPtr v w hv hw hfuel
    by_cases hleaf : v.IsLeaf
    · refine ⟨leafEq decQuadCompare o v w, taggedPtrEq_leaf fuel stackPtr hleaf w, fun h => ?_,
        fun h => ?_⟩
      · obtain ⟨htag, hsame⟩ := same_of_leafEq hvalid hv hw h
        have hleaf' : w.IsLeaf := ⟨fun h => hleaf.1 (htag.trans h), fun h => hleaf.2 (htag.trans h)⟩
        exact .inl (granted_of_matches (.leaf hleaf hleaf' hsame))
      · cases Bisimilar.matches decQuadCompare o h with
        | leaf _ _ hsame => exact leafEq_of_same hvalid hv hw hsame
        | list l1 l2 hl1 => exact absurd (tag_of_hasList hl1) hleaf.1
        | mapping m1 m2 hm1 => exact absurd (tag_of_hasMapping hm1) hleaf.2
    · by_cases htag : v.getTag = w.getTag
      · have hleaf' : ¬ w.IsLeaf :=
          fun h => hleaf ⟨fun h' => h.1 (htag ▸ h'), fun h' => h.2 (htag ▸ h')⟩
        obtain ⟨p1, hp1, rfl, hkind⟩ := exists_node hv hleaf
        obtain ⟨p2, hp2, rfl, _⟩ := exists_node hw hleaf'
        have htag : getTag p1 = getTag p2 := htag
        by_cases hne : p1 = p2
        · rw [hne, taggedPtrEq_self]
          have hrefl : Bisimilar decQuadCompare o (.tagged p2) (.tagged p2) :=
            bisimilar_refl hvalid (.inl hp2)
          have hle : Bisimilar decQuadCompare o ≤
              assuming (matching decQuadCompare o) (onStack stackPtr) := gfp_le_assuming _
          exact ⟨true, rfl, fun _ => .inl (hle _ _ hrefl), fun _ => rfl⟩
        · have hmet : (p1, p2) ∈ stackPtr →
              Answers decQuadCompare o stackPtr (.tagged p1) (.tagged p2) (some true) :=
            fun h => ⟨true, rfl, fun _ => .inr ⟨p1, p2, rfl, rfl, h⟩, fun _ => rfl⟩
          have hpush : (p1, p2) ∉ stackPtr → ∀ v w, v.In nodes → w.In nodes →
              Answers decQuadCompare o ((p1, p2) :: stackPtr) v w
                (taggedPtrEq decQuadCompare hashKey o fuel ((p1, p2) :: stackPtr) v w) := by
            intro hnew v w hv hw
            have hless := remaining_push hp1 hp2 hnew
            exact ih _ v w hv hw (by omega)
          rcases hkind with hlist | hmapping
          · rw [taggedPtrEq_list hlist (htag ▸ hlist) hne]
            split
            next h => exact hmet h
            next h => exact compare_list hvalid hp1 hp2 hlist (htag ▸ hlist) (hpush h)
          · rw [taggedPtrEq_mapping hmapping (htag ▸ hmapping) hne]
            split
            next h => exact hmet h
            next h => exact compare_mapping hvalid hp1 hp2 hmapping (htag ▸ hmapping) (hpush h)
      · refine ⟨false, taggedPtrEq_of_tag_ne htag, fun h => (by cases h), fun h => ?_⟩
        exact absurd (tag_eq_of_bisimilar hleaf h) htag

/-- With nothing on the stack there is no assumption left. -/
theorem granted_nil (v w : Member) :
    Granted decQuadCompare o [] v w ↔ Bisimilar decQuadCompare o v w := by
  have hbot : onStack [] = ⊥ := by
    ext v w
    exact iff_of_false (fun ⟨_, _, _, _, hmem⟩ => List.not_mem_nil hmem) id
  unfold Granted
  rw [hbot, sup_bot_eq, assuming_bot]
  exact Iff.rfl

/-- The comparison of two values of the graph, and of those that are about to be allocated. -/
theorem taggedPtrEq_total (hvalid : o.Valid decQuadCompare hashKey nodes) (hv : v.In nodes)
    (hw : w.In nodes) :
    ∃ r, (∀ fuel > nodes.card * nodes.card,
        taggedPtrEq decQuadCompare hashKey o fuel [] v w = some r) ∧
      (r = true ↔ Bisimilar decQuadCompare o v w) := by
  have hanswer : ∀ fuel > nodes.card * nodes.card, ∃ r,
      taggedPtrEq decQuadCompare hashKey o fuel [] v w = some r ∧
        (r = true ↔ Bisimilar decQuadCompare o v w) := by
    intro fuel hfuel
    have hcard : (remaining nodes []).card ≤ nodes.card * nodes.card := by
      rw [← Finset.card_product]
      exact Finset.card_filter_le _ _
    obtain ⟨r, hr, hgranted, hright⟩ := taggedPtrEq_answers hvalid fuel [] v w hv hw (by omega)
    exact ⟨r, hr, fun h => (granted_nil v w).mp (hgranted h), hright⟩
  obtain ⟨r, _, hiff⟩ := hanswer (nodes.card * nodes.card + 1) (Nat.lt_succ_self _)
  refine ⟨r, fun fuel hfuel => ?_, hiff⟩
  obtain ⟨r', hr', hiff'⟩ := hanswer fuel hfuel
  rw [hr', Bool.eq_iff_iff.mpr (hiff'.trans hiff.symm)]

/-- On a finite graph, with its cycles and its sharing, the comparison ends and says whether the values
are bisimilar. -/
theorem taggedPtrEq_iff_bisimilar (hvalid : o.Valid decQuadCompare hashKey nodes)
    {p1 p2 : TaggedPtr} (h1 : p1 ∈ nodes) (h2 : p2 ∈ nodes) :
    ∃ r, (∀ fuel > nodes.card * nodes.card,
        taggedPtrEq decQuadCompare hashKey o fuel [] (.tagged p1) (.tagged p2) = some r) ∧
      (r = true ↔ Bisimilar decQuadCompare o (.tagged p1) (.tagged p2)) :=
  taggedPtrEq_total hvalid (.inl h1) (.inl h2)

end Comparison

/-! ## Lists that contain themselves -/

/-- A list pointer to the address. -/
def listPtr (p : Nat) : TaggedPtr := ptrAddFlags p (Tag.list <<< 56)

/-- Two lists that contain each other, and one that contains itself. -/
def cycles : Objects Unit where
  store := ⟨⟨fun _ => 0#8, []⟩, []⟩
  list p :=
    if p = 0x1000 then some (.generic [listPtr 0x2000])
    else if p = 0x2000 then some (.generic [listPtr 0x1000])
    else if p = 0x3000 then some (.generic [listPtr 0x3000])
    else none
  mapping _ := none

/-- The numbers are the same if their bits are. -/
def sameQuad (d1 d2 : DecQuad) : DecClass := if d1 = d2 then .posZero else .other

theorem cycles_valid : cycles.Valid sameQuad hashDefineKey
    {listPtr 0x1000, listPtr 0x2000, listPtr 0x3000} := by
  have hptr : taggedToPtr (listPtr 0x1000) = 0x1000 ∧ taggedToPtr (listPtr 0x2000) = 0x2000 ∧
      taggedToPtr (listPtr 0x3000) = 0x3000 := by decide
  have htag : getTag (listPtr 0x1000) = Tag.list ∧ getTag (listPtr 0x2000) = Tag.list ∧
      getTag (listPtr 0x3000) = Tag.list := by decide
  have hnodes : ∀ tp ∈ ({listPtr 0x1000, listPtr 0x2000, listPtr 0x3000} : Finset TaggedPtr),
      getTag tp = Tag.list ∧ ∃ l, cycles.list (taggedToPtr tp) = some l ∧
        ∀ p ∈ l.pointers, p ∈ ({listPtr 0x1000, listPtr 0x2000, listPtr 0x3000} : Finset TaggedPtr) := by
    intro tp htp
    simp only [Finset.mem_insert, Finset.mem_singleton] at htp
    rcases htp with rfl | rfl | rfl
    · refine ⟨htag.1, .generic [listPtr 0x2000], ?_, by simp [MemberArray.pointers]⟩
      rw [hptr.1]
      rfl
    · refine ⟨htag.2.1, .generic [listPtr 0x1000], ?_, by simp [MemberArray.pointers]⟩
      rw [hptr.2.1]
      rfl
    · refine ⟨htag.2.2, .generic [listPtr 0x3000], ?_, by simp [MemberArray.pointers]⟩
      rw [hptr.2.2]
      rfl
  have hother : ∀ {tag : Word}, Tag.list ≠ tag → ∀ tp ∈ ({listPtr 0x1000, listPtr 0x2000,
      listPtr 0x3000} : Finset TaggedPtr), getTag tp ≠ tag := fun hne tp htp => (hnodes tp htp).1 ▸ hne
  exact {
    reachable := .init _
    int := fun tp htp htag => absurd htag (hother (by decide) tp htp)
    decimal := fun tp htp htag => absurd htag (hother (by decide) tp htp)
    string := fun tp htp htag => absurd htag
      (not_or.mpr ⟨hother (by decide) tp htp, hother (by decide) tp htp⟩)
    list := fun tp htp _ => (hnodes tp htp).2
    mapping := fun tp htp htag => absurd htag (hother (by decide) tp htp) }

theorem cycles_bisimilar :
    Bisimilar sameQuad cycles (.tagged (listPtr 0x1000)) (.tagged (listPtr 0x3000)) := by
  obtain ⟨r, hr, hiff⟩ := taggedPtrEq_iff_bisimilar cycles_valid
    (Finset.mem_insert_self (listPtr 0x1000) _)
    (Finset.mem_insert_of_mem (Finset.mem_insert_of_mem (Finset.mem_singleton_self (listPtr 0x3000))))
  have hrun := hr 10 (by decide)
  refine hiff.mp (Option.some.inj (hrun.symm.trans ?_))
  decide

end Nballerina.Runtime
