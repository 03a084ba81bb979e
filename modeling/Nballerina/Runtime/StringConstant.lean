import Nballerina.Runtime.StringStore

/-!
# Constants and computed strings

A string is built in two places: `addStringDefn` of the compiler lays out a constant, and
`_bal_string_alloc` of the runtime makes room for a text that is then copied in. For one
string and one address both give the same tagged pointer and the same memory
(`addStringDefn_eq_buildString`); neither has a choice that the other does not make. So a
constant compares with the strings of a run like one of them
(`stringConstant_right`).
-/

namespace Nballerina.Runtime

open Nballerina.Lib

/-- What the runtime does for a string it has the text of: `_bal_string_alloc`, and the text is
copied in. -/
def buildString (h : Heap) (p : Nat) (str : List Char) : Option (Heap × TaggedPtr) :=
  (balStringAlloc h p (utf8 str).length str.length).map fun a =>
    ((a.memcpy 0 (utf8 str)).heap, (a.memcpy 0 (utf8 str)).result)

section Blocks

variable {h : Heap} {p size : Nat} {header : List Byte} {s : List Char}

/-- Two blocks with the same content, put at the same place of a heap, give the same heap. -/
theorem Block.heap_eq {m m' : Mem} {used : List (Nat × Nat)} (hb : Block ⟨m, used⟩ p size header s)
    (hb' : Block ⟨m', used⟩ p size header s)
    (hout : ∀ x, x < p ∨ p + size ≤ x → m x = m' x) : m = m' := by
  funext x
  by_cases hx : p ≤ x ∧ x < p + size
  · obtain ⟨k, rfl⟩ := Nat.exists_eq_add_of_le hx.1
    exact (hb.holds k (by omega)).trans (hb'.holds k (by omega)).symm
  · exact hout x (by omega)

variable {initializer : List Byte}

/-- A constant where the linker has room for it. -/
theorem addGlobal_of_fresh (hf : h.Fresh p initializer.length) :
    addGlobal h p initializer =
      some ⟨h.mem.write p initializer, (p, initializer.length) :: h.used⟩ := by
  unfold addGlobal Heap.alloc
  rw [if_pos hf]
  rfl

theorem addGlobal_of_not_fresh (hf : ¬ h.Fresh p initializer.length) :
    addGlobal h p initializer = none := by
  unfold addGlobal Heap.alloc
  rw [if_neg hf]
  rfl

/-- A constant is the block that the runtime fills. -/
theorem addGlobal_eq_fill {a : StringAlloc} (hinit : initializer.length = size)
    (hal : Allocated h p size header a)
    (hpadded : ∀ k, padded initializer k = padded (header ++ utf8 s) k)
    (hfit : header.length + (utf8 s).length ≤ size) (hpad : size < header.length + (utf8 s).length + 8) :
    addGlobal h p initializer = some (a.memcpy 0 (utf8 s)).heap := by
  subst hinit
  have hconst := addGlobal_of_fresh hal.fresh
  have hblock := (addGlobal_block hconst hpadded).2
  have hfill := hal.fill hfit hpad
  rw [hal.memcpy_heap] at hfill ⊢
  rw [hconst, hblock.heap_eq hfill]
  intro x hx
  rw [Mem.write_outside _ (by omega), Mem.write_outside _ (by omega), hal.outside x hx]

end Blocks

section Constant

variable {h : Heap} {p : Nat} {s : List Char}

theorem addStringDefn_small (hs : Small s) : addStringDefn h p s = some (h, immediateWord (utf8 s)) := by
  unfold addStringDefn
  dsimp only
  rw [if_pos ((isSmallString_iff s).mpr hs), encoded_eq]

theorem addStringDefn_medium (hs : ¬ Small s) (hshort : (utf8 s).length ≤ 0xFFFF) :
    addStringDefn h p s = (addGlobal h p (mediumHeader s ++ padBytes (utf8 s) 4)).bind fun h =>
      some (h, BitVec.ofNat 64 p + tagString) := by
  unfold addStringDefn
  dsimp only
  rw [if_neg fun hsmall => hs ((isSmallString_iff s).mp hsmall), if_pos hshort, BitVec.or_zero]
  rfl

theorem addStringDefn_large (hs : ¬ Small s) (hlong : 0xFFFF < (utf8 s).length) :
    addStringDefn h p s = (addGlobal h p (largeHeader s ++ padBytes (utf8 s) 16)).bind fun h =>
      some (h, BitVec.ofNat 64 p + (tagString ||| stringLargeFlag)) := by
  unfold addStringDefn
  dsimp only
  rw [if_neg fun hsmall => hs ((isSmallString_iff s).mp hsmall), if_neg (by omega)]
  rfl

theorem length_mediumConstant (s : List Char) :
    (mediumHeader s ++ padBytes (utf8 s) 4).length = mediumStringSize (utf8 s).length := by
  rw [List.length_append, length_mediumHeader, padBytes_length]
  rfl

theorem length_largeConstant (s : List Char) :
    (largeHeader s ++ padBytes (utf8 s) 16).length = largeStringSize (utf8 s).length := by
  rw [List.length_append, length_largeHeader, padBytes_length]
  rfl

theorem balStringAlloc_medium_none (hs : ¬ Small s) (hshort : (utf8 s).length ≤ 0xFFFF)
    (hf : ¬ h.Fresh p (mediumStringSize (utf8 s).length)) :
    balStringAlloc h p (utf8 s).length s.length = none := by
  unfold Small at hs
  unfold balStringAlloc
  rw [if_neg hs, if_pos hshort]
  unfold Heap.alloc
  dsimp only
  rw [if_neg hf]
  rfl

theorem balStringAlloc_medium_some (hs : ¬ Small s) (hshort : (utf8 s).length ≤ 0xFFFF)
    (hf : h.Fresh p (mediumStringSize (utf8 s).length)) :
    ∃ a, balStringAlloc h p (utf8 s).length s.length = some a := by
  unfold Small at hs
  unfold balStringAlloc
  rw [if_neg hs, if_pos hshort]
  unfold Heap.alloc
  dsimp only
  rw [if_pos hf]
  exact ⟨_, rfl⟩

theorem balStringAlloc_large_none (hs : ¬ Small s) (hlong : 0xFFFF < (utf8 s).length)
    (hf : ¬ h.Fresh p (largeStringSize (utf8 s).length)) :
    balStringAlloc h p (utf8 s).length s.length = none := by
  unfold Small at hs
  unfold balStringAlloc
  rw [if_neg hs, if_neg (by omega)]
  split
  next => rfl
  next =>
    unfold Heap.alloc
    dsimp only
    rw [if_neg hf]
    rfl

/-- No address space has room for a text that is too long. -/
theorem balStringAlloc_large_some (hs : ¬ Small s) (hlong : 0xFFFF < (utf8 s).length)
    (hf : h.Fresh p (largeStringSize (utf8 s).length)) :
    ∃ a, balStringAlloc h p (utf8 s).length s.length = some a := by
  have hsize := le_largeStringSize (utf8 s).length
  have hbelow := hf.2.1
  unfold Small at hs
  unfold balStringAlloc
  rw [if_neg hs, if_neg (by omega), if_neg (by omega)]
  unfold Heap.alloc
  dsimp only
  rw [if_pos hf]
  exact ⟨_, rfl⟩

theorem buildString_some {a : StringAlloc}
    (ha : balStringAlloc h p (utf8 s).length s.length = some a) :
    buildString h p s = some ((a.memcpy 0 (utf8 s)).heap, (a.memcpy 0 (utf8 s)).result) := by
  unfold buildString
  rw [ha]
  rfl

theorem buildString_none (ha : balStringAlloc h p (utf8 s).length s.length = none) :
    buildString h p s = none := by
  unfold buildString
  rw [ha]
  rfl

/-- A block is tagged the same way. -/
theorem Allocated.result_eq {size : Nat} {header : List Byte} {a : StringAlloc}
    (hal : Allocated h p size header a) (hsize : 0 < size) {flags : Word}
    (hflags : pointerMask &&& alignMask &&& flags = 0#64) (hresult : a.result = ptrAddFlags p flags) :
    (a.memcpy 0 (utf8 s)).result = BitVec.ofNat 64 p + flags := by
  have hbelow := hal.fresh.2.1
  unfold StringAlloc.memcpy
  rw [hal.bytes, ofNat_add_flags hal.fresh.1 (by omega) hflags]
  exact hresult

/-- **The constant is, bit for bit, what the runtime builds.** -/
theorem addStringDefn_eq_buildString (h : Heap) (p : Nat) (s : List Char) :
    addStringDefn h p s = buildString h p s := by
  have hmediumSize := le_mediumStringSize (utf8 s).length
  have hlargeSize := le_largeStringSize (utf8 s).length
  by_cases hs : Small s
  · have ha : balStringAlloc h p (utf8 s).length s.length =
        some ⟨h, taggedStringEmpty, .result⟩ := if_pos hs
    rw [addStringDefn_small hs, buildString_some ha, memcpy_empty_immediate hs]
    rfl
  by_cases hshort : (utf8 s).length ≤ 0xFFFF
  · rw [addStringDefn_medium hs hshort]
    by_cases hf : h.Fresh p (mediumStringSize (utf8 s).length)
    · obtain ⟨a, ha⟩ := balStringAlloc_medium_some hs hshort hf
      rw [buildString_some ha]
      rcases balStringAlloc_cases ha with ⟨hsmall, -⟩ | ⟨-, -, hresult, hal⟩ | ⟨-, hlong, -, -⟩
      · exact absurd hsmall hs
      · have hlength := length_mediumHeader s
        rw [addGlobal_eq_fill (length_mediumConstant s) hal (padded_append_padBytes _ _ _)
          (by omega) (by rw [hlength]; unfold mediumStringSize roundUp; omega),
          hal.result_eq (by omega) (by decide) hresult]
        rfl
      · omega
    · rw [buildString_none (balStringAlloc_medium_none hs hshort hf),
        addGlobal_of_not_fresh (by rwa [length_mediumConstant])]
      rfl
  · rw [addStringDefn_large hs (by omega)]
    by_cases hf : h.Fresh p (largeStringSize (utf8 s).length)
    · obtain ⟨a, ha⟩ := balStringAlloc_large_some hs (by omega) hf
      rw [buildString_some ha]
      rcases balStringAlloc_cases ha with ⟨hsmall, -⟩ | ⟨-, hshort', -, -⟩ | ⟨-, -, hresult, hal⟩
      · exact absurd hsmall hs
      · omega
      · have hlength := length_largeHeader s
        rw [addGlobal_eq_fill (length_largeConstant s) hal (padded_append_padBytes _ _ _)
          (by omega) (by rw [hlength]; unfold largeStringSize roundUp; omega),
          hal.result_eq (by omega) (by decide) hresult]
        rfl
    · rw [buildString_none (balStringAlloc_large_none hs (by omega) hf),
        addGlobal_of_not_fresh (by rwa [length_largeConstant])]
      rfl

end Constant

section Compare

variable {h : Heap} {tp1 tp2 : TaggedPtr} {s1 s2 : List Char}

/-- The words tell two strings apart when one of them is immediate. -/
theorem Represents.word_eq_iff (hr1 : Represents h tp1 s1) (hr2 : Represents h tp2 s2)
    (himmediate : tp1 &&& immediateFlag ≠ 0#64 ∨ tp2 &&& immediateFlag ≠ 0#64) :
    tp1 = tp2 ↔ s1 = s2 := by
  have hequal := hr1.equal_iff hr2
  unfold taggedStringEqual at hequal
  rw [← hequal]
  by_cases heq : tp1 = tp2
  · rw [if_pos heq]
    exact iff_of_true heq rfl
  · rw [if_neg heq]
    by_cases himmediate1 : tp1 &&& immediateFlag ≠ 0#64
    · rw [if_pos himmediate1]
      exact iff_of_false heq Bool.false_ne_true
    · rw [if_neg himmediate1, if_pos (himmediate.resolve_left himmediate1)]
      exact iff_of_false heq Bool.false_ne_true

/-- Blocks are told apart by their content. -/
theorem Represents.heapEq_iff (hr1 : Represents h tp1 s1) (hr2 : Represents h tp2 s2)
    (hblock1 : ¬ (tp1 &&& immediateFlag ≠ 0#64)) (hblock2 : ¬ (tp2 &&& immediateFlag ≠ 0#64)) :
    balStringHeapEq h.mem tp1 tp2 = true ↔ s1 = s2 := by
  cases hr1.kind with
  | immediate _ _ flag1 => exact absurd flag1 hblock1
  | medium notSmall1 short1 block1 _ large1 =>
    cases hr2.kind with
    | immediate _ _ flag2 => exact absurd flag2 hblock2
    | medium _ short2 block2 _ large2 => exact heapEq_medium short1 short2 block1 block2 large1 large2
    | large _ long2 _ _ large2 =>
      rw [heapEq_mixed fun h => large1 (h.mpr large2)]
      refine iff_of_false Bool.false_ne_true fun he => ?_
      subst he
      omega
  | large notSmall1 long1 block1 _ large1 =>
    cases hr2.kind with
    | immediate _ _ flag2 => exact absurd flag2 hblock2
    | medium _ short2 _ _ large2 =>
      rw [heapEq_mixed fun h => large2 (h.mp large1)]
      refine iff_of_false Bool.false_ne_true fun he => ?_
      subst he
      omega
    | large _ _ block2 _ large2 => exact heapEq_large block1 block2 large1 large2

end Compare

/-- What makes a constant right: it is what the runtime builds, wherever it is put; and in every
store of a run it is equal to the strings with the same text and to no others, by the tagged words
where one of the two is immediate and by `_bal_string_heap_eq` where none is. -/
structure ConstantRight (s : List Char) : Prop where
  built : ∀ (h : Heap) (p : Nat), addStringDefn h p s = buildString h p s
  equal : ∀ (st : Store), Reachable st → ∀ tp, (tp, s) ∈ st.strings → ∀ y ∈ st.strings,
    taggedStringEqual st.heap.mem tp y.1 = true ↔ s = y.2
  words : ∀ (st : Store), Reachable st → ∀ tp, (tp, s) ∈ st.strings → ∀ y ∈ st.strings,
    tp &&& immediateFlag ≠ 0#64 ∨ y.1 &&& immediateFlag ≠ 0#64 → (tp = y.1 ↔ s = y.2)
  heapEq : ∀ (st : Store), Reachable st → ∀ tp, (tp, s) ∈ st.strings → ∀ y ∈ st.strings,
    tp &&& immediateFlag = 0#64 → y.1 &&& immediateFlag = 0#64 →
      (balStringHeapEq st.heap.mem tp y.1 = true ↔ s = y.2)

theorem stringConstant_right (s : List Char) : ConstantRight s where
  built h p := addStringDefn_eq_buildString h p s
  equal _ hst _ htp y hy := (hst.valid _ htp).equal_iff (hst.valid y hy)
  words _ hst _ htp y hy himmediate := (hst.valid _ htp).word_eq_iff (hst.valid y hy) himmediate
  heapEq _ hst _ htp y hy h1 h2 :=
    (hst.valid _ htp).heapEq_iff (hst.valid y hy) (not_not_intro h1) (not_not_intro h2)

end Nballerina.Runtime
