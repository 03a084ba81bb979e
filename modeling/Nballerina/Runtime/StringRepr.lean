import Nballerina.Runtime.String

/-!
# What a tagged pointer represents

`Represents h tp s`: the tagged pointer `tp` is the string `s` in the heap `h`. There is
one representation for each `s`: which of the three it is depends on the numbers of
bytes and code points alone, and so does every byte of it, padding included. Reading a
string back gives the bytes of `s` (`Represents.length_eq`, `Represents.bytes_eq`).
-/

namespace Nballerina.Runtime

open Nballerina.Lib

/-! ## Tagged pointers -/

theorem immediateFlag_eq : immediateFlag = BitVec.twoPow 64 61 := by decide

theorem stringLargeFlag_eq : stringLargeFlag = BitVec.twoPow 64 0 := by decide

theorem and_twoPow_ne_zero (w : Word) {i : Nat} (hi : i < 64) :
    w &&& BitVec.twoPow 64 i ≠ 0#64 ↔ w.getLsbD i = true := by
  rw [BitVec.and_twoPow]
  split
  next h =>
    refine iff_of_true (fun h0 => ?_) h
    have := congrArg (fun v => v.getLsbD i) h0
    rw [BitVec.getLsbD_twoPow, BitVec.getLsbD_zero, decide_eq_true hi,
      decide_eq_true rfl] at this
    exact Bool.false_ne_true this.symm
  next h => exact iff_of_false (fun h0 => h0 rfl) h

/-- The immediate flag is a bit. -/
theorem immediate_iff (tp : TaggedPtr) : tp &&& immediateFlag ≠ 0#64 ↔ tp.getLsbD 61 = true := by
  rw [immediateFlag_eq]
  exact and_twoPow_ne_zero tp (by omega)

theorem large_iff (tp : TaggedPtr) : tp &&& stringLargeFlag ≠ 0#64 ↔ tp.getLsbD 0 = true := by
  rw [stringLargeFlag_eq]
  exact and_twoPow_ne_zero tp (by omega)

section Pointers

variable {p : Nat} (hal : p % 8 = 0) (hp : p < 2 ^ 56)

include hal hp

/-- An aligned address below `2 ^ 56` has no bits outside the pointer mask. -/
theorem ofNat_and_mask :
    BitVec.ofNat 64 p &&& (pointerMask &&& alignMask) = BitVec.ofNat 64 p := by
  apply BitVec.eq_of_getLsbD_eq
  intro i hi
  rw [BitVec.getLsbD_and, BitVec.getLsbD_ofNat, decide_eq_true hi, Bool.true_and]
  by_cases hlo : i < 3
  · have hbit : p.testBit i = false := by
      have : p.testBit i = (p % 2 ^ 3).testBit i := by
        rw [Nat.testBit_mod_two_pow, decide_eq_true hlo, Bool.true_and]
      rw [this, show p % 2 ^ 3 = 0 from hal, Nat.zero_testBit]
    rw [hbit, Bool.false_and]
  · by_cases hhi : i < 56
    · have hmask : (pointerMask &&& alignMask).getLsbD i = true := by
        have : ∀ i < 56, 3 ≤ i → (pointerMask &&& alignMask).getLsbD i = true := by decide
        exact this i hhi (by omega)
      rw [hmask, Bool.and_true]
    · have hbit : p.testBit i = false :=
        Nat.testBit_lt_two_pow (Nat.lt_of_lt_of_le hp (Nat.pow_le_pow_right (by omega) (by omega)))
      rw [hbit, Bool.false_and]

/-- Bits outside the mask are not touched by the address. -/
theorem ptrAddFlags_and {mask : Word} (flags : Word)
    (hmask : pointerMask &&& alignMask &&& mask = 0#64) :
    ptrAddFlags p flags &&& mask = flags &&& mask := by
  have h0 : BitVec.ofNat 64 p &&& mask = 0#64 := by
    rw [← ofNat_and_mask hal hp, BitVec.and_assoc, hmask, BitVec.and_zero]
  rw [ptrAddFlags, BitVec.and_or_distrib_right, h0, BitVec.zero_or]

theorem taggedToPtr_ptrAddFlags {flags : Word}
    (hflags : flags &&& (pointerMask &&& alignMask) = 0#64) :
    taggedToPtr (ptrAddFlags p flags) = p := by
  rw [taggedToPtr, ptrAddFlags, BitVec.and_or_distrib_right, hflags, ofNat_and_mask hal hp,
    BitVec.or_zero, BitVec.toNat_ofNat]
  omega

end Pointers

/-! ## The representation -/

/-- The texts that are immediate. -/
def Small (s : List Char) : Prop :=
  s.length = 1 ∨ (s.length = (utf8 s).length ∧ (utf8 s).length ≤ 7)

instance (s : List Char) : Decidable (Small s) := inferInstanceAs (Decidable (_ ∨ _))

/-- The tagged pointer of an immediate string: its bytes, `0xFF` after them, and the tag. -/
def immediateWord (bs : List Byte) : TaggedPtr :=
  wordOf fun k => if k = 7 then 0x25#8 else bs.getD k 0xFF#8

def mediumHeader (s : List Char) : List Byte := leBytes 2 (utf8 s).length ++ leBytes 2 s.length

def largeHeader (s : List Char) : List Byte := leBytes 8 (utf8 s).length ++ leBytes 8 s.length

/-- A block at `p` with a header and the bytes of a string, zeros up to its size. -/
structure Block (h : Heap) (p size : Nat) (header : List Byte) (s : List Char) : Prop where
  aligned : p % 8 = 0
  below : p + size ≤ 2 ^ 56
  inUse : ∀ k < size, h.InUse (p + k)
  holds : h.mem.Holds p size (header ++ utf8 s)

/-- The tagged pointer is the string. -/
inductive Represents (h : Heap) (tp : TaggedPtr) (s : List Char) : Prop where
  | immediate (small : Small s) (word : tp = immediateWord (utf8 s))
  | medium (p : Nat) (notSmall : ¬ Small s) (short : (utf8 s).length ≤ 0xFFFF)
      (block : Block h p (mediumStringSize (utf8 s).length) (mediumHeader s) s)
      (word : tp = ptrAddFlags p tagString)
  | large (p : Nat) (notSmall : ¬ Small s) (long : 0xFFFF < (utf8 s).length)
      (block : Block h p (largeStringSize (utf8 s).length) (largeHeader s) s)
      (word : tp = ptrAddFlags p (tagString ||| stringLargeFlag))

variable {s : List Char}

theorem Block.extends {h h' : Heap} {p size : Nat} {header : List Byte} (hb : Block h p size header s)
    (he : h.Extends h') : Block h' p size header s :=
  ⟨hb.aligned, hb.below, fun k hk => he.inUse (hb.inUse k hk),
    fun k hk => (he.mem _ (hb.inUse k hk)).trans (hb.holds k hk)⟩

/-- Writing elsewhere does not change a string. -/
theorem Represents.extends {h h' : Heap} {tp : TaggedPtr} {s : List Char}
    (hr : Represents h tp s) (he : h.Extends h') : Represents h' tp s := by
  cases hr with
  | immediate small word => exact .immediate small word
  | medium p notSmall short block word =>
    exact .medium p notSmall short (block.extends he) word
  | large p notSmall long block word => exact .large p notSmall long (block.extends he) word

theorem Small.length_le (h : Small s) : (utf8 s).length ≤ 7 := by
  rcases h with h | h
  · have := length_utf8_le_of_length_one h
    omega
  · exact h.2

/-! ## Sizes -/

theorem le_mediumStringSize (n : Nat) : n + 4 ≤ mediumStringSize n := by
  unfold mediumStringSize roundUp
  omega

theorem le_largeStringSize (n : Nat) : n + 16 ≤ largeStringSize n := by
  unfold largeStringSize roundUp
  omega

theorem mediumStringSize_shift (n : Nat) :
    8 * (mediumStringSize n >>> 3) = mediumStringSize n := by
  rw [Nat.shiftRight_eq_div_pow]
  unfold mediumStringSize roundUp
  omega

theorem largeStringSize_shift (n : Nat) :
    8 * (largeStringSize n >>> 3) = largeStringSize n := by
  rw [Nat.shiftRight_eq_div_pow]
  unfold largeStringSize roundUp
  omega

/-! ## Immediate strings -/

theorem byteAt_immediateWord_of_lt {bs : List Byte} {k : Nat} (hk : k < 7) :
    byteAt (immediateWord bs) k = bs.getD k 0xFF#8 := by
  rw [immediateWord, byteAt_wordOf _ (by omega), if_neg (by omega)]

theorem immediate_immediateWord (bs : List Byte) : immediateWord bs &&& immediateFlag ≠ 0#64 := by
  rw [immediate_iff]
  have h7 : byteAt (immediateWord bs) 7 = 0x25#8 := by
    rw [immediateWord, byteAt_wordOf _ (by omega), if_pos rfl]
  have := congrArg (fun b => b.getLsbD 5) h7
  simp only [getLsbD_byteAt] at this
  exact this

/-- The number of bytes of an ASCII string, from the zeros above it in the complement. -/
theorem clz_not_immediateWord {bs : List Byte} (hne : bs ≠ []) (hlen : bs.length ≤ 7)
    (hascii : ∀ b ∈ bs, b.toNat < 0x80) :
    8 - ((~~~immediateWord bs &&& ((1#64 <<< 56) - 1#64)).clz.toNat >>> 3) = bs.length := by
  have hpos := List.length_pos_iff.mpr hne
  have hbyte (k : Nat) (hk : k < 7) :
      byteAt (~~~immediateWord bs &&& ((1#64 <<< 56) - 1#64)) k = ~~~bs.getD k 0xFF#8 := by
    rw [← byteAt_immediateWord_of_lt hk]
    apply BitVec.eq_of_getLsbD_eq
    intro i hi
    have hmask : ((1#64 <<< 56) - 1#64 : Word).getLsbD (8 * k + i) = true := by
      have : ∀ j < 56, ((1#64 <<< 56) - 1#64 : Word).getLsbD j = true := by decide
      exact this _ (by omega)
    rw [getLsbD_byteAt, BitVec.getLsbD_and, hmask, Bool.and_true, BitVec.getLsbD_not,
      BitVec.getLsbD_not, getLsbD_byteAt, decide_eq_true hi,
      decide_eq_true (by omega : 8 * k + i < 64)]
    simp only [Bool.true_and]
  have hclz := clz_of_top_byte (w := ~~~immediateWord bs &&& ((1#64 <<< 56) - 1#64))
    (n := bs.length - 1) (by omega) ?_ ?_
  · rw [hclz, Nat.shiftRight_eq_div_pow]
    omega
  · -- the last byte is below 0x80, so its complement has the top bit
    rw [hbyte _ (by omega), getD_eq_ite, if_pos (by omega), padded_of_lt (by omega),
      BitVec.getLsbD_not]
    have hlt := hascii _ (List.getElem_mem (by omega : bs.length - 1 < bs.length))
    have hbit : (bs[bs.length - 1]).getLsbD 7 = false := Nat.testBit_lt_two_pow hlt
    rw [hbit]
    rfl
  · intro j hj hlt
    rcases Nat.lt_or_ge j 7 with hj7 | hj7
    · rw [hbyte j hj7, getD_eq_ite, if_neg (by omega)]
      rfl
    · obtain rfl : j = 7 := by omega
      apply BitVec.eq_of_getLsbD_eq
      intro i hi
      have hmask : ((1#64 <<< 56) - 1#64 : Word).getLsbD (8 * 7 + i) = false := by
        have : ∀ j < 64, 56 ≤ j → ((1#64 <<< 56) - 1#64 : Word).getLsbD j = false := by decide
        exact this _ (by omega) (by omega)
      rw [getLsbD_byteAt, BitVec.getLsbD_and, hmask, Bool.and_false, Bool.and_false,
        BitVec.getLsbD_zero]

theorem topBit_iff (b : Byte) : b &&& 0x80#8 ≠ 0#8 ↔ 0x80 ≤ b.toNat := by
  revert b
  refine byte_forall ?_
  decide +kernel

theorem clz_setWidth (b : Byte) :
    ((~~~b).setWidth 32).clz.toNat - 3 * 8 = leadingOnes b := by
  revert b
  refine byte_forall ?_
  decide +kernel

theorem immediateStringLength_of_head {b : Byte} {l : List Byte} :
    b ≠ 0xFF#8 → immediateStringLength (immediateWord (b :: l)) =
      if 0x80 ≤ b.toNat then ⟨leadingOnes b, 1⟩
      else
        let n := 8 - ((~~~immediateWord (b :: l) &&& ((1#64 <<< 56) - 1#64)).clz.toNat >>> 3)
        ⟨n, n⟩ := by
  intro hff
  have h0 : byteAt (immediateWord (b :: l)) 0 = b := byteAt_immediateWord_of_lt (by omega)
  unfold immediateStringLength
  rw [h0]
  dsimp only
  rw [clz_setWidth, if_neg hff]
  by_cases htop : 0x80 ≤ b.toNat
  · rw [if_pos htop, if_pos ((topBit_iff b).mpr htop)]
  · rw [if_neg htop, if_neg (fun h => htop ((topBit_iff b).mp h))]

theorem immediateStringLength_eq (h : Small s) :
    immediateStringLength (immediateWord (utf8 s)) = ⟨(utf8 s).length, s.length⟩ := by
  have hlen := h.length_le
  -- ASCII texts, of one code point or more, are measured by their padding
  have hascii : s ≠ [] → (utf8 s).length = s.length →
      immediateStringLength (immediateWord (utf8 s)) = ⟨(utf8 s).length, s.length⟩ := by
    intro hne heq
    obtain ⟨c, t, rfl⟩ := List.exists_cons_of_ne_nil hne
    obtain ⟨b, l, hb⟩ := List.exists_cons_of_ne_nil (encodeChar_ne_nil c)
    have hcons : utf8 (c :: t) = b :: (l ++ utf8 t) := by rw [utf8_cons, hb, List.cons_append]
    have hmem : b ∈ utf8 (c :: t) := by
      rw [hcons]
      exact List.mem_cons_self
    have hlt := ascii_of_length_eq heq hmem
    have hclz := clz_not_immediateWord (by rw [hcons]; exact List.cons_ne_nil _ _) hlen
      fun _ hb => ascii_of_length_eq heq hb
    rw [hcons, immediateStringLength_of_head (ne_ff_of_mem_utf8 hmem), ← hcons,
      if_neg (by omega)]
    dsimp only
    rw [hclz, heq]
  by_cases hnil : s = []
  · rw [hnil]
    decide +kernel
  · rcases h with h | h
    · obtain ⟨c, rfl⟩ := List.length_eq_one_iff.mp h
      obtain ⟨b, l, hb, hcases⟩ := encodeChar_head c
      rw [utf8_singleton] at hascii ⊢
      rcases hcases with ⟨-, rfl⟩ | ⟨hge, hones⟩
      · refine hascii hnil ?_
        rw [hb]
        rfl
      · have hff : b ≠ 0xFF#8 := by
          refine ne_ff_of_mem_utf8 (s := [c]) ?_
          rw [utf8_singleton, hb]
          exact List.mem_cons_self
        rw [hb, immediateStringLength_of_head hff, if_pos hge, hones]
        rfl
    · exact hascii hnil h.1.symm

/-! ## Blocks -/

section Blocks

variable {h : Heap} {p size : Nat} {header : List Byte} {s : List Char}

theorem Block.header_eq (hb : Block h p size header s) {k : Nat} (hk : k < header.length)
    (hsize : header.length ≤ size) : h.mem (p + k) = padded header k := by
  rw [hb.holds k (by omega), padded_append_left hk]

theorem Block.text_eq (hb : Block h p size header s) {k : Nat}
    (hk : header.length + k < size) : h.mem (p + header.length + k) = padded (utf8 s) k := by
  rw [Nat.add_assoc, hb.holds _ hk, padded_append_right (by omega), Nat.add_sub_cancel_left]

end Blocks

theorem length_mediumHeader (s : List Char) : (mediumHeader s).length = 4 := by
  rw [mediumHeader, List.length_append, length_leBytes, length_leBytes]

theorem length_largeHeader (s : List Char) : (largeHeader s).length = 16 := by
  rw [largeHeader, List.length_append, length_leBytes, length_leBytes]

theorem Block.load16_medium {h : Heap} {p : Nat}
    (hb : Block h p (mediumStringSize (utf8 s).length) (mediumHeader s) s)
    (hs : (utf8 s).length ≤ 0xFFFF) :
    h.mem.load16 p = (utf8 s).length ∧ h.mem.load16 (p + 2) = s.length := by
  have hle := length_le_length_utf8 s
  have hsize := le_mediumStringSize (utf8 s).length
  refine ⟨load16_eq (by omega) fun k hk => ?_, load16_eq (by omega) fun k hk => ?_⟩
  · rw [hb.header_eq (by rw [length_mediumHeader]; omega) (by rw [length_mediumHeader]; omega),
      mediumHeader, padded_append_left (by rwa [length_leBytes]), padded_leBytes hk]
  · rw [Nat.add_assoc, hb.header_eq (by rw [length_mediumHeader]; omega)
      (by rw [length_mediumHeader]; omega), mediumHeader,
      padded_append_right (by rw [length_leBytes]; omega), length_leBytes, Nat.add_sub_cancel_left,
      padded_leBytes hk]

theorem Block.loadWord_large {h : Heap} {p : Nat}
    (hb : Block h p (largeStringSize (utf8 s).length) (largeHeader s) s) :
    (h.mem.loadWord p).toNat = (utf8 s).length ∧ (h.mem.loadWord (p + 8)).toNat = s.length := by
  have hle := length_le_length_utf8 s
  have hsize := le_largeStringSize (utf8 s).length
  have hbelow := hb.below
  have h1 : h.mem.loadWord p = BitVec.ofNat 64 (utf8 s).length := by
    refine loadWord_eq fun k hk => ?_
    rw [hb.header_eq (by rw [length_largeHeader]; omega) (by rw [length_largeHeader]; omega),
      largeHeader, padded_append_left (by rwa [length_leBytes]), padded_leBytes hk]
  have h2 : h.mem.loadWord (p + 8) = BitVec.ofNat 64 s.length := by
    refine loadWord_eq fun k hk => ?_
    rw [Nat.add_assoc, hb.header_eq (by rw [length_largeHeader]; omega)
      (by rw [length_largeHeader]; omega), largeHeader,
      padded_append_right (by rw [length_leBytes]; omega), length_leBytes, Nat.add_sub_cancel_left,
      padded_leBytes hk]
  rw [h1, h2, BitVec.toNat_ofNat, BitVec.toNat_ofNat]
  omega

/-! ## Flags of a block's tagged pointer -/

section Flags

variable {p : Nat} (hal : p % 8 = 0) (hp : p < 2 ^ 56)

include hal hp

theorem medium_not_immediate : ¬ (ptrAddFlags p tagString &&& immediateFlag ≠ 0#64) := by
  rw [ptrAddFlags_and hal hp tagString (by decide)]
  decide

theorem medium_not_large : ptrAddFlags p tagString &&& stringLargeFlag = 0#64 := by
  rw [ptrAddFlags_and hal hp tagString (by decide)]
  decide

theorem taggedToPtr_medium : taggedToPtr (ptrAddFlags p tagString) = p :=
  taggedToPtr_ptrAddFlags hal hp (by decide)

theorem large_not_immediate :
    ¬ (ptrAddFlags p (tagString ||| stringLargeFlag) &&& immediateFlag ≠ 0#64) := by
  rw [ptrAddFlags_and hal hp _ (by decide)]
  decide

theorem large_large : ptrAddFlags p (tagString ||| stringLargeFlag) &&& stringLargeFlag ≠ 0#64 := by
  rw [ptrAddFlags_and hal hp _ (by decide)]
  decide

theorem taggedToPtr_large : taggedToPtr (ptrAddFlags p (tagString ||| stringLargeFlag)) = p :=
  taggedToPtr_ptrAddFlags hal hp (by decide)

end Flags

theorem Block.lt {h : Heap} {p size : Nat} {header : List Byte} (hb : Block h p size header s)
    (hsize : 0 < size) : p < 2 ^ 56 := by
  have := hb.below
  omega

/-! ## Reading a string back -/

section Read

variable {h : Heap} {tp : TaggedPtr} {s : List Char}

/-- The length read is that of the string, in bytes and in code points. -/
theorem Represents.length_eq (hr : Represents h tp s) :
    taggedStringLength h.mem tp = ⟨(utf8 s).length, s.length⟩ := by
  unfold taggedStringLength
  cases hr with
  | immediate small word =>
    rw [word, if_pos (immediate_immediateWord _), immediateStringLength_eq small]
  | medium p notSmall short block word =>
    have hp := block.lt (by have := le_mediumStringSize (utf8 s).length; omega)
    obtain ⟨h1, h2⟩ := block.load16_medium short
    rw [word, if_neg (medium_not_immediate block.aligned hp),
      if_pos (medium_not_large block.aligned hp), taggedToPtr_medium block.aligned hp]
    dsimp only
    rw [h1, h2]
  | large p notSmall long block word =>
    have hp := block.lt (by have := le_largeStringSize (utf8 s).length; omega)
    obtain ⟨h1, h2⟩ := block.loadWord_large
    rw [word, if_neg (large_not_immediate block.aligned hp),
      if_neg (large_large block.aligned hp), taggedToPtr_large block.aligned hp]
    dsimp only
    rw [h1, h2]

/-- The bytes read are those of the string. -/
theorem Represents.bytes_eq (hr : Represents h tp s) {k : Nat} (hk : k < (utf8 s).length) :
    taggedStringBytes h.mem tp k = padded (utf8 s) k := by
  unfold taggedStringBytes
  cases hr with
  | immediate small word =>
    have := small.length_le
    rw [word, if_pos (immediate_immediateWord _), byteAt_immediateWord_of_lt (by omega),
      getD_eq_ite, if_pos hk]
  | medium p notSmall short block word =>
    have hsize := le_mediumStringSize (utf8 s).length
    have hp := block.lt (by omega)
    rw [word, if_neg (medium_not_immediate block.aligned hp),
      if_pos (medium_not_large block.aligned hp), taggedToPtr_medium block.aligned hp,
      ← length_mediumHeader s, block.text_eq (by rw [length_mediumHeader]; omega)]
  | large p notSmall long block word =>
    have hsize := le_largeStringSize (utf8 s).length
    have hp := block.lt (by omega)
    rw [word, if_neg (large_not_immediate block.aligned hp),
      if_neg (large_large block.aligned hp), taggedToPtr_large block.aligned hp,
      ← length_largeHeader s, block.text_eq (by rw [length_largeHeader]; omega)]

/-- The byte sequence of a runtime string, as the code reads it. -/
def byteSequence (m : Mem) (tp : TaggedPtr) : List Byte :=
  firstBytes (taggedStringBytes m tp) (taggedStringLength m tp).nBytes

theorem Represents.byteSequence_eq (hr : Represents h tp s) : byteSequence h.mem tp = utf8 s := by
  rw [byteSequence, hr.length_eq]
  refine List.ext_getElem ?_ fun k hk hk' => ?_
  · rw [firstBytes, List.length_map, List.length_range]
  · simp only [firstBytes, List.getElem_map, List.getElem_range]
    rw [hr.bytes_eq hk', padded_of_lt hk']

end Read

end Nballerina.Runtime
