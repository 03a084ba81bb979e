import Nballerina.Runtime.StringCompare

/-!
# Strings over a whole run

Every constructor produces a represented string and leaves the others as they are: the
allocation followed by the copies (`Allocated.fill`), constants placed by the linker
(`addGlobal_block`), and immediate strings. `Step` is one event of a run: a
constructor, or anything else the program does to the rest of memory. In every
reachable store the produced strings compare and hash by their text.
-/

namespace Nballerina.Runtime

open Nballerina.Lib

/-! ## Allocation and copying -/

/-- A new block in which header and padding are in place and the text is not. -/
structure Allocated (h : Heap) (p size : Nat) (header : List Byte) (a : StringAlloc) : Prop where
  fresh : h.Fresh p size
  used : a.heap.used = (p, size) :: h.used
  outside : ∀ x, x < p ∨ p + size ≤ x → a.heap.mem x = h.mem x
  head : ∀ k < header.length, a.heap.mem (p + k) = padded header k
  padding : ∀ k, header.length ≤ k → size ≤ k + 8 → k < size → a.heap.mem (p + k) = 0#8
  bytes : a.bytes = .block (p + header.length)

/-- Two copies, one after the other, are one. -/
theorem StringAlloc.memcpy_append (a : StringAlloc) (bs bs' : List Byte) :
    (a.memcpy 0 bs).memcpy bs.length bs' = a.memcpy 0 (bs ++ bs') := by
  obtain ⟨h, result, bytes⟩ := a
  cases bytes with
  | result =>
    have hw : (wordOf fun k => if bs.length ≤ k ∧ k < bs.length + bs'.length then
        padded bs' (k - bs.length) else byteAt (wordOf fun k => if 0 ≤ k ∧ k < 0 + bs.length then
          padded bs (k - 0) else byteAt result k) k) =
        wordOf fun k => if 0 ≤ k ∧ k < 0 + (bs ++ bs').length then padded (bs ++ bs') (k - 0)
          else byteAt result k := by
      refine word_ext fun k hk => ?_
      rw [byteAt_wordOf _ hk, byteAt_wordOf _ hk, byteAt_wordOf _ hk, List.length_append]
      rcases Nat.lt_or_ge k bs.length with h1 | h1
      · rw [if_neg (by omega), if_pos (by omega), if_pos (by omega), Nat.sub_zero,
          padded_append_left h1]
      · by_cases h2 : k < bs.length + bs'.length
        · rw [if_pos (by omega), if_pos (by omega), Nat.sub_zero, padded_append_right h1]
        · rw [if_neg (by omega), if_neg (by omega), if_neg (by omega)]
    simp only [StringAlloc.memcpy]
    rw [hw]
  | block q =>
    simp only [StringAlloc.memcpy, Nat.add_zero]
    rw [Mem.write_append]

section Alloc

variable {h : Heap} {p : Nat} {a : StringAlloc}

/-- The last 8 bytes cleared, then the two fields of the header. -/
theorem allocated_of_writes {size n lengthInBytes lengthInCodePoints : Nat} {result : TaggedPtr}
    (hf : h.Fresh p size) (hsize : 2 * n ≤ size) (hn : 8 ≤ size) :
    Allocated h p size (leBytes n lengthInBytes ++ leBytes n lengthInCodePoints)
      ⟨⟨((h.mem.write (p + size - 8) (leBytes 8 0)).write p (leBytes n lengthInBytes)).write (p + n)
        (leBytes n lengthInCodePoints), (p, size) :: h.used⟩, result, .block (p + 2 * n)⟩ := by
  have hzero (k : Nat) : padded (leBytes 8 0) k = 0#8 := by
    rcases Nat.lt_or_ge k 8 with hk | hk
    · rw [padded_leBytes hk]
      revert hk
      revert k
      decide
    · exact padded_of_ge (by rwa [length_leBytes])
  refine ⟨hf, rfl, fun x hx => ?_, fun k hk => ?_, fun k hk hk8 hks => ?_, ?_⟩
  · dsimp only
    rw [Mem.write_outside _ (by rw [length_leBytes]; omega),
      Mem.write_outside _ (by rw [length_leBytes]; omega),
      Mem.write_outside _ (by rw [length_leBytes]; omega)]
  · rw [List.length_append, length_leBytes, length_leBytes] at hk
    dsimp only
    rcases Nat.lt_or_ge k n with hkn | hkn
    · rw [Mem.write_outside _ (by omega), Mem.write_inside _ (by rwa [length_leBytes]),
        padded_append_left (by rwa [length_leBytes])]
    · obtain ⟨j, rfl⟩ := Nat.exists_eq_add_of_le hkn
      rw [← Nat.add_assoc, Mem.write_inside _ (by rw [length_leBytes]; omega),
        padded_append_right (by rw [length_leBytes]; omega), length_leBytes,
        Nat.add_sub_cancel_left]
  · rw [List.length_append, length_leBytes, length_leBytes] at hk
    dsimp only
    obtain ⟨j, hj⟩ := Nat.exists_eq_add_of_le hk8
    have hadd : p + k = p + size - 8 + j := by omega
    rw [Mem.write_outside _ (by rw [length_leBytes]; omega),
      Mem.write_outside _ (by rw [length_leBytes]; omega), hadd,
      Mem.write_inside _ (by rw [length_leBytes]; omega), hzero]
  · rw [List.length_append, length_leBytes, length_leBytes, Nat.two_mul]

variable {header : List Byte} {s : List Char}

/-- What `_bal_string_alloc` gives for a text of the given lengths. -/
theorem balStringAlloc_cases (ha : balStringAlloc h p (utf8 s).length s.length = some a) :
    (Small s ∧ a = ⟨h, taggedStringEmpty, .result⟩) ∨
    (¬ Small s ∧ (utf8 s).length ≤ 0xFFFF ∧ a.result = ptrAddFlags p tagString ∧
      Allocated h p (mediumStringSize (utf8 s).length) (mediumHeader s) a) ∨
    (¬ Small s ∧ 0xFFFF < (utf8 s).length ∧
      a.result = ptrAddFlags p (tagString ||| stringLargeFlag) ∧
      Allocated h p (largeStringSize (utf8 s).length) (largeHeader s) a) := by
  unfold balStringAlloc at ha
  split at ha
  next hsmall => exact .inl ⟨hsmall, (Option.some.inj ha).symm⟩
  next hsmall =>
    split at ha
    next hshort =>
      obtain ⟨h', hal, ha⟩ := Option.bind_eq_some_iff.mp ha
      obtain ⟨hf, rfl⟩ := Heap.alloc_eq_some hal
      cases ha
      refine .inr (.inl ⟨hsmall, hshort, rfl, allocated_of_writes hf ?_ ?_⟩) <;>
        unfold mediumStringSize roundUp <;> omega
    next hlong =>
      split at ha
      next => cases ha
      next =>
        obtain ⟨h', hal, ha⟩ := Option.bind_eq_some_iff.mp ha
        obtain ⟨hf, rfl⟩ := Heap.alloc_eq_some hal
        cases ha
        refine .inr (.inr ⟨hsmall, by omega, rfl, allocated_of_writes hf ?_ ?_⟩) <;>
          unfold largeStringSize roundUp <;> omega

theorem Allocated.memcpy_heap {size : Nat} (hal : Allocated h p size header a) (bs : List Byte) :
    (a.memcpy 0 bs).heap =
      ⟨a.heap.mem.write (p + header.length) bs, (p, size) :: h.used⟩ := by
  unfold StringAlloc.memcpy
  rw [hal.bytes]
  dsimp only
  rw [hal.used, Nat.add_zero]

/-- Copies within the block leave everything in use as it is. -/
theorem Allocated.memcpy_extends {size : Nat} (hal : Allocated h p size header a) {bs : List Byte}
    (hbs : header.length + bs.length ≤ size) : h.Extends (a.memcpy 0 bs).heap := by
  rw [hal.memcpy_heap]
  refine hal.fresh.extends fun x hx => ?_
  rw [Mem.write_outside _ (by omega), hal.outside x hx]

/-- With the text copied in, the block is complete. -/
theorem Allocated.fill {size : Nat} (hal : Allocated h p size header a)
    (hfit : header.length + (utf8 s).length ≤ size) (hpad : size < header.length + (utf8 s).length + 8) :
    Block (a.memcpy 0 (utf8 s)).heap p size header s := by
  rw [hal.memcpy_heap]
  refine ⟨hal.fresh.1, hal.fresh.2.1, fun k hk => ?_, fun k hk => ?_⟩
  · exact ⟨(p, size), .head _, by dsimp only; omega⟩
  · dsimp only
    rcases Nat.lt_or_ge k header.length with h1 | h1
    · rw [Mem.write_outside _ (by omega), hal.head k h1, padded_append_left h1]
    · obtain ⟨j, rfl⟩ := Nat.exists_eq_add_of_le h1
      rw [padded_append_right h1, Nat.add_sub_cancel_left]
      rcases Nat.lt_or_ge j (utf8 s).length with h2 | h2
      · rw [← Nat.add_assoc, Mem.write_inside _ h2]
      · rw [Mem.write_outside _ (by omega), hal.padding _ h1 (by omega) hk, padded_of_ge h2]
        rfl

theorem memcpy_empty_immediate (hs : Small s) :
    ((⟨h, taggedStringEmpty, .result⟩ : StringAlloc).memcpy 0 (utf8 s)).result =
      immediateWord (utf8 s) := by
  have hempty : ∀ k < 8, byteAt taggedStringEmpty k = if k = 7 then 0x25#8 else 0xFF#8 := by
    decide
  have hlen := hs.length_le
  refine word_ext fun k hk => ?_
  simp only [StringAlloc.memcpy, immediateWord]
  rw [byteAt_wordOf _ hk, byteAt_wordOf _ hk, hempty k hk, getD_eq_ite]
  rcases Nat.lt_or_ge k (utf8 s).length with h1 | h1
  · rw [if_pos (by omega), if_neg (by omega), if_pos h1, Nat.sub_zero]
  · rw [if_neg (by omega), if_neg (by omega : ¬ k < (utf8 s).length)]

/-- Allocating for a text and copying it in gives a representation of it. -/
theorem balStringAlloc_represents (ha : balStringAlloc h p (utf8 s).length s.length = some a) :
    h.Extends (a.memcpy 0 (utf8 s)).heap ∧
      Represents (a.memcpy 0 (utf8 s)).heap (a.memcpy 0 (utf8 s)).result s := by
  have hresult {size : Nat} {header : List Byte} (hal : Allocated h p size header a) :
      (a.memcpy 0 (utf8 s)).result = a.result := by
    unfold StringAlloc.memcpy
    rw [hal.bytes]
  rcases balStringAlloc_cases ha with ⟨hs, rfl⟩ | ⟨hs, hshort, hr, hal⟩ | ⟨hs, hlong, hr, hal⟩
  · exact ⟨.refl h, .immediate hs (memcpy_empty_immediate hs)⟩
  · have hsize := le_mediumStringSize (utf8 s).length
    refine ⟨hal.memcpy_extends (by rw [length_mediumHeader]; omega),
      .medium p hs hshort (hal.fill ?_ ?_) (by rw [hresult hal, hr])⟩
    · rw [length_mediumHeader]
      omega
    · rw [length_mediumHeader]
      unfold mediumStringSize roundUp
      omega
  · have hsize := le_largeStringSize (utf8 s).length
    refine ⟨hal.memcpy_extends (by rw [length_largeHeader]; omega),
      .large p hs hlong (hal.fill ?_ ?_) (by rw [hresult hal, hr])⟩
    · rw [length_largeHeader]
      omega
    · rw [length_largeHeader]
      unfold largeStringSize roundUp
      omega

theorem Allocated.extends {size : Nat} {header : List Byte}
    (hal : Allocated h p size header a) : h.Extends a.heap := by
  have := hal.fresh.extends hal.outside
  rwa [← hal.used] at this

theorem balStringAlloc_extends (ha : balStringAlloc h p (utf8 s).length s.length = some a) :
    h.Extends a.heap := by
  rcases balStringAlloc_cases ha with ⟨-, rfl⟩ | ⟨-, -, -, hal⟩ | ⟨-, -, -, hal⟩
  · exact .refl h
  · exact hal.extends
  · exact hal.extends

/-- Copying a part of the text leaves everything in use as it is. -/
theorem balStringAlloc_memcpy_extends {bs : List Byte}
    (ha : balStringAlloc h p (utf8 s).length s.length = some a) (hbs : bs.length ≤ (utf8 s).length) :
    h.Extends (a.memcpy 0 bs).heap := by
  rcases balStringAlloc_cases ha with ⟨-, rfl⟩ | ⟨-, -, -, hal⟩ | ⟨-, -, -, hal⟩
  · exact .refl h
  · have hsize := le_mediumStringSize (utf8 s).length
    exact hal.memcpy_extends (by rw [length_mediumHeader]; omega)
  · have hsize := le_largeStringSize (utf8 s).length
    exact hal.memcpy_extends (by rw [length_largeHeader]; omega)

end Alloc

/-! ## The constructors -/

/-- The result of a constructor: nothing in use has changed, and the tagged pointer is the
string. -/
def Produces (h : Heap) (r : Option (Heap × TaggedPtr)) (s : List Char) : Prop :=
  ∀ x, r = some x → h.Extends x.1 ∧ Represents x.1 x.2 s

variable {h : Heap} {s : List Char}

theorem firstBytes_eq {tp : TaggedPtr} (hr : Represents h tp s) :
    firstBytes (taggedStringBytes h.mem tp) (utf8 s).length = utf8 s := by
  have := hr.byteSequence_eq
  rwa [byteSequence, hr.length_eq] at this

theorem balStringConcat_produces {tp1 tp2 : TaggedPtr} {s1 s2 : List Char} (p : Nat)
    (hr1 : Represents h tp1 s1) (hr2 : Represents h tp2 s2) :
    Produces h (balStringConcat h p tp1 tp2) (s1 ++ s2) := by
  intro x hx
  unfold balStringConcat at hx
  rw [hr1.length_eq, hr2.length_eq] at hx
  dsimp only at hx
  rw [← List.length_append, ← List.length_append, ← utf8_append] at hx
  obtain ⟨a, ha, hx⟩ := Option.bind_eq_some_iff.mp hx
  -- both sources are read after the allocation, the second one after the first copy
  have hr1' : Represents a.heap tp1 s1 := hr1.extends (balStringAlloc_extends ha)
  have hr2' : Represents (a.memcpy 0 (utf8 s1)).heap tp2 s2 := by
    refine hr2.extends (balStringAlloc_memcpy_extends ha ?_)
    rw [utf8_append, List.length_append]
    omega
  rw [firstBytes_eq hr1', firstBytes_eq hr2', StringAlloc.memcpy_append, ← utf8_append] at hx
  rw [← Option.some.inj hx]
  exact balStringAlloc_represents ha

theorem ascii_of_mem_toDigitsCore {c : Char} {fuel n : Nat} {ds : List Char}
    (hds : ∀ c ∈ ds, c.toNat < 0x80) (hc : c ∈ Nat.toDigitsCore 16 fuel n ds) :
    c.toNat < 0x80 := by
  induction fuel generalizing n ds with
  | zero => exact hds c hc
  | succ fuel ih =>
    have hdigit : (Nat.digitChar (n % 16)).toNat < 0x80 := by
      have : ∀ d < 16, (Nat.digitChar d).toNat < 0x80 := by decide
      exact this _ (Nat.mod_lt n (by omega))
    have hcons : ∀ c ∈ Nat.digitChar (n % 16) :: ds, c.toNat < 0x80 := by
      intro c hc
      rcases List.mem_cons.mp hc with rfl | hc
      · exact hdigit
      · exact hds c hc
    rw [Nat.toDigitsCore] at hc
    split at hc
    · exact hcons c hc
    · exact ih hcons hc

theorem length_hexText (i : Word) : (utf8 (hexText i)).length = (hexText i).length := by
  have hdigits {n : Nat} {c : Char} (hc : c ∈ Nat.toDigits 16 n) : c.toNat < 0x80 :=
    ascii_of_mem_toDigitsCore (fun c hc => absurd hc List.not_mem_nil) hc
  refine length_utf8_of_ascii fun c hc => ?_
  unfold hexText at hc
  split at hc
  · rcases List.mem_cons.mp hc with rfl | hc
    · decide
    · exact hdigits hc
  · exact hdigits hc

theorem toHexString_produces (h : Heap) (p : Nat) (i : Word) :
    Produces h (toHexString h p i) (hexText i) := by
  intro x hx
  unfold toHexString at hx
  obtain ⟨a, ha, hx⟩ := Option.bind_eq_some_iff.mp hx
  have ha' : balStringAlloc h p (utf8 (hexText i)).length (hexText i).length = some a := by
    rwa [← length_hexText i]
  rw [← Option.some.inj hx]
  exact balStringAlloc_represents ha'

/-- A constant whose initializer is header, text and zeros. -/
theorem addGlobal_block {h' : Heap} {p : Nat} {initializer header : List Byte}
    (hg : addGlobal h p initializer = some h')
    (hpad : ∀ k, padded initializer k = padded (header ++ utf8 s) k) :
    h.Extends h' ∧ Block h' p initializer.length header s := by
  obtain ⟨h1, hal, hg⟩ := Option.bind_eq_some_iff.mp hg
  obtain ⟨hf, rfl⟩ := Heap.alloc_eq_some hal
  rw [← Option.some.inj hg]
  refine ⟨hf.extends fun x hx => Mem.write_outside _ (by omega),
    ⟨hf.1, hf.2.1, fun k hk => ⟨_, .head _, by dsimp only; omega⟩, fun k hk => ?_⟩⟩
  rw [← hpad k]
  exact Mem.write_inside _ hk

/-- Adding flags to an address sets them. -/
theorem ofNat_add_flags {p : Nat} {flags : Word} (hal : p % 8 = 0) (hp : p < 2 ^ 56)
    (hflags : pointerMask &&& alignMask &&& flags = 0#64) :
    BitVec.ofNat 64 p + flags = ptrAddFlags p flags := by
  rw [ptrAddFlags, BitVec.add_eq_or_of_and_eq_zero]
  rw [← ofNat_and_mask hal hp, BitVec.and_assoc, hflags, BitVec.and_zero]

theorem padBytes_length (bytes : List Byte) (headerSize : Nat) :
    headerSize + (padBytes bytes headerSize).length = roundUp (bytes.length + headerSize) := by
  unfold padBytes roundUp
  rw [List.length_append, List.length_replicate, Nat.shiftRight_eq_div_pow, Nat.shiftLeft_eq]
  omega

theorem padded_append_padBytes (header bytes : List Byte) (headerSize k : Nat) :
    padded (header ++ padBytes bytes headerSize) k = padded (header ++ bytes) k := by
  unfold padBytes
  rw [← List.append_assoc, padded_append_zeros]

theorem encoded_eq (s : List Char) :
    (List.range 7).foldl (fun encoded i => encoded ||| ((if i < (utf8 s).length then
      padded (utf8 s) i else 0xFF#8).setWidth 64 <<< (i * 8))) 0#64 |||
      (immediateFlag ||| tagString) = immediateWord (utf8 s) := by
  have htag : ∀ k < 8, byteAt (immediateFlag ||| tagString) k =
      if k = 7 then 0x25#8 else 0#8 := by decide
  refine word_ext fun k hk => ?_
  rw [byteAt_or, htag k hk, immediateWord, byteAt_wordOf _ hk,
    byteAt_foldl_or (fun i => if i < (utf8 s).length then padded (utf8 s) i else 0xFF#8) hk]
  by_cases h7 : k = 7
  · rw [if_neg (by omega), if_pos h7, if_pos h7, BitVec.zero_or]
  · rw [if_pos (by omega), if_neg h7, if_neg h7, BitVec.or_zero, getD_eq_ite]

theorem isSmallString_iff (s : List Char) :
    isSmallString s.length (utf8 s).length = true ↔ Small s := by
  unfold isSmallString Small
  rw [Bool.or_eq_true, Bool.and_eq_true, beq_iff_eq, beq_iff_eq, decide_eq_true_iff,
    eq_comm (a := (utf8 s).length)]

theorem addStringDefn_produces (h : Heap) (p : Nat) (s : List Char) :
    Produces h (addStringDefn h p s) s := by
  intro x hx
  unfold addStringDefn at hx
  dsimp only at hx
  split at hx
  next hs =>
    rw [isSmallString_iff] at hs
    rw [← Option.some.inj hx]
    exact ⟨.refl h, .immediate hs (encoded_eq s)⟩
  next hs =>
    rw [isSmallString_iff] at hs
    split at hx
    next hshort =>
      obtain ⟨h', hg, hx⟩ := Option.bind_eq_some_iff.mp hx
      rw [← Option.some.inj hx]
      obtain ⟨he, hb⟩ := addGlobal_block hg (padded_append_padBytes (mediumHeader s) _ _)
      have hsize : (mediumHeader s ++ padBytes (utf8 s) 4).length =
          mediumStringSize (utf8 s).length := by
        rw [List.length_append, length_mediumHeader, padBytes_length]
        rfl
      rw [show leBytes 2 (utf8 s).length ++ leBytes 2 s.length = mediumHeader s from rfl,
        hsize] at hb
      have hp := hb.lt (by have := le_mediumStringSize (utf8 s).length; omega)
      refine ⟨he, .medium p hs hshort hb ?_⟩
      exact ofNat_add_flags hb.aligned hp (by decide)
    next hlong =>
      obtain ⟨h', hg, hx⟩ := Option.bind_eq_some_iff.mp hx
      rw [← Option.some.inj hx]
      obtain ⟨he, hb⟩ := addGlobal_block hg (padded_append_padBytes (largeHeader s) _ _)
      have hsize : (largeHeader s ++ padBytes (utf8 s) 16).length =
          largeStringSize (utf8 s).length := by
        rw [List.length_append, length_largeHeader, padBytes_length]
        rfl
      rw [show leBytes 8 (utf8 s).length ++ leBytes 8 s.length = largeHeader s from rfl,
        hsize] at hb
      have hp := hb.lt (by have := le_largeStringSize (utf8 s).length; omega)
      refine ⟨he, .large p hs (by omega) hb ?_⟩
      exact ofNat_add_flags hb.aligned hp (by decide)

/-- The messages have the lengths that their declaration is made for. -/
theorem length_panicMessage (code : PanicCode) :
    13 ≤ (panicMessage code).toList.length ∧ (panicMessage code).toList.length ≤ 19 ∧
      (utf8 (panicMessage code).toList).length = (panicMessage code).toList.length := by
  cases code <;> decide +kernel

theorem panicMessageString_produces (h : Heap) (p : Nat) (code : PanicCode) :
    Produces h (panicMessageString h p code) (panicMessage code).toList := by
  intro x hx
  obtain ⟨hge, hle, hlen⟩ := length_panicMessage code
  unfold panicMessageString at hx
  generalize (panicMessage code).toList = s at hge hle hlen hx ⊢
  dsimp only at hx
  obtain ⟨h', hg, hx⟩ := Option.bind_eq_some_iff.mp hx
  rw [← Option.some.inj hx]
  have hheader : leBytes 2 (utf8 s).length ++ leBytes 2 (utf8 s).length = mediumHeader s := by
    rw [mediumHeader, hlen]
  rw [hheader] at hg
  have hpad (k : Nat) : padded (mediumHeader s ++ (utf8 s ++ List.replicate (20 - (utf8 s).length)
      0#8)) k = padded (mediumHeader s ++ utf8 s) k := by
    rw [← List.append_assoc, padded_append_zeros]
  obtain ⟨he, hb⟩ := addGlobal_block hg hpad
  have hsize : (mediumHeader s ++ (utf8 s ++ List.replicate (20 - (utf8 s).length) 0#8)).length =
      mediumStringSize (utf8 s).length := by
    rw [List.length_append, List.length_append, List.length_replicate, length_mediumHeader]
    unfold mediumStringSize roundUp
    omega
  rw [hsize] at hb
  refine ⟨he, .medium p ?_ (by omega) hb rfl⟩
  intro hs
  have := hs.length_le
  omega

theorem taggedStringEmpty_represents (h : Heap) : Represents h taggedStringEmpty [] :=
  .immediate (by decide) (by decide +kernel)

/-! ## Runs -/

/-- The heap, and every string produced so far with its text. -/
structure Store where
  heap : Heap
  strings : List (TaggedPtr × List Char)

/-- One event of a run. -/
inductive Step (st : Store) : Store → Prop where
  /-- A string constant of the program. -/
  | literal (p : Nat) (str : List Char) {x : Heap × TaggedPtr}
      (hx : addStringDefn st.heap p str = some x) : Step st ⟨x.1, (x.2, str) :: st.strings⟩
  /-- The message of a panic. -/
  | panicMessage (p : Nat) (code : PanicCode) {x : Heap × TaggedPtr}
      (hx : panicMessageString st.heap p code = some x) :
      Step st ⟨x.1, (x.2, (panicMessage code).toList) :: st.strings⟩
  /-- The filler value of a string member. -/
  | emptyFiller : Step st ⟨st.heap, (taggedStringEmpty, []) :: st.strings⟩
  | concat (p : Nat) {y1 y2 : TaggedPtr × List Char} (h1 : y1 ∈ st.strings)
      (h2 : y2 ∈ st.strings) {x : Heap × TaggedPtr}
      (hx : balStringConcat st.heap p y1.1 y2.1 = some x) :
      Step st ⟨x.1, (x.2, y1.2 ++ y2.2) :: st.strings⟩
  | toHexString (p : Nat) (i : Word) {x : Heap × TaggedPtr}
      (hx : toHexString st.heap p i = some x) : Step st ⟨x.1, (x.2, hexText i) :: st.strings⟩
  /-- Everything else that happens to memory, outside the strings. -/
  | other (m : Mem) (hm : ∀ a, st.heap.InUse a → m a = st.heap.mem a) :
      Step st ⟨⟨m, st.heap.used⟩, st.strings⟩

/-- The stores of a run. -/
inductive Reachable : Store → Prop where
  | init (m : Mem) : Reachable ⟨⟨m, []⟩, []⟩
  | step {st st' : Store} (hst : Reachable st) (hs : Step st st') : Reachable st'

/-- Every produced string is what it was produced as. -/
def Store.Valid (st : Store) : Prop := ∀ y ∈ st.strings, Represents st.heap y.1 y.2

theorem Store.Valid.produces {st : Store} (hv : st.Valid) {x : Heap × TaggedPtr}
    {r : Option (Heap × TaggedPtr)} (hr : Produces st.heap r s) (hx : r = some x) :
    Store.Valid ⟨x.1, (x.2, s) :: st.strings⟩ := by
  obtain ⟨he, hrep⟩ := hr x hx
  intro y hy
  rcases List.mem_cons.mp hy with rfl | hy
  · exact hrep
  · exact (hv y hy).extends he

theorem Store.Valid.step {st st' : Store} (hv : st.Valid) (hs : Step st st') : st'.Valid := by
  cases hs with
  | literal p str hx => exact hv.produces (addStringDefn_produces _ p str) hx
  | panicMessage p code hx => exact hv.produces (panicMessageString_produces _ p code) hx
  | emptyFiller =>
    intro y hy
    rcases List.mem_cons.mp hy with rfl | hy
    · exact taggedStringEmpty_represents _
    · exact hv y hy
  | concat p h1 h2 hx => exact hv.produces (balStringConcat_produces p (hv _ h1) (hv _ h2)) hx
  | toHexString p i hx => exact hv.produces (toHexString_produces _ p i) hx
  | other m hm => exact fun y hy => (hv y hy).extends ⟨fun _ hr => hr, hm⟩

theorem Reachable.valid {st : Store} (hst : Reachable st) : st.Valid := by
  induction hst with
  | init m => exact fun y hy => absurd hy List.not_mem_nil
  | step _ hs ih => exact ih.step hs

/-! ## The operations, by the text alone -/

/-- What equality, hash and order say about two strings and their texts. -/
structure ByText (key : HashKey) (m : Mem) (y1 y2 : TaggedPtr × List Char) : Prop where
  bytes : byteSequence m y1.1 = utf8 y1.2 ∧ byteSequence m y2.1 = utf8 y2.2
  equal : taggedStringEqual m y1.1 y2.1 = true ↔ byteSequence m y1.1 = byteSequence m y2.1
  hash : byteSequence m y1.1 = byteSequence m y2.1 →
    balStringHash key m y1.1 = balStringHash key m y2.1
  cmp : Compares (balStringCmp m y1.1 y2.1) y1.2 y2.2
  cmp_zero : balStringCmp m y1.1 y2.1 = 0 ↔ taggedStringEqual m y1.1 y2.1 = true
  compare_eq : optStringCompare m y1.1 y2.1 = .eq ↔ taggedStringEqual m y1.1 y2.1 = true

/-- `_bal_string_cmp` at most zero is a total order of byte sequences. -/
structure TotalOrder (m : Mem) (strings : List (TaggedPtr × List Char)) : Prop where
  total : ∀ y1 ∈ strings, ∀ y2 ∈ strings,
    balStringCmp m y1.1 y2.1 ≤ 0 ∨ balStringCmp m y2.1 y1.1 ≤ 0
  antisymm : ∀ y1 ∈ strings, ∀ y2 ∈ strings, balStringCmp m y1.1 y2.1 ≤ 0 →
    balStringCmp m y2.1 y1.1 ≤ 0 → byteSequence m y1.1 = byteSequence m y2.1
  trans : ∀ y1 ∈ strings, ∀ y2 ∈ strings, ∀ y3 ∈ strings, balStringCmp m y1.1 y2.1 ≤ 0 →
    balStringCmp m y2.1 y3.1 ≤ 0 → balStringCmp m y1.1 y3.1 ≤ 0

/-- A string has a tag, so it is not nil. -/
theorem Represents.ne_nil {tp : TaggedPtr} (hr : Represents h tp s) :
    tp ≠ taggedNil := by
  have htag {p : Nat} (hal : p % 8 = 0) (hp : p < 2 ^ 56) {flags : Word}
      (hflags : flags &&& tagString ≠ 0#64) : ptrAddFlags p flags ≠ taggedNil := by
    intro h0
    have := @ptrAddFlags_and p hal hp tagString flags (by decide)
    rw [h0, taggedNil, BitVec.zero_and] at this
    exact hflags this.symm
  cases hr with
  | immediate small word =>
    intro h0
    refine immediate_immediateWord (utf8 s) ?_
    rw [← word, h0]
    decide
  | medium p notSmall short block word =>
    rw [word]
    exact htag block.aligned (block.lt (by have := le_mediumStringSize (utf8 s).length; omega))
      (by decide)
  | large p notSmall long block word =>
    rw [word]
    exact htag block.aligned (block.lt (by have := le_largeStringSize (utf8 s).length; omega))
      (by decide)

theorem intCompare_zero_eq (n : Int) : intCompare n 0 = .eq ↔ n = 0 := by
  unfold intCompare
  split
  next h => exact iff_of_true rfl h
  next h =>
    refine iff_of_false (fun he => ?_) h
    split at he <;> cases he

theorem Represents.byText {y1 y2 : TaggedPtr × List Char} (key : HashKey) (hr1 : Represents h y1.1 y1.2)
    (hr2 : Represents h y2.1 y2.2) :
    ByText key h.mem y1 y2 := by
  have hbytes : byteSequence h.mem y1.1 = byteSequence h.mem y2.1 ↔ y1.2 = y2.2 := by
    rw [hr1.byteSequence_eq, hr2.byteSequence_eq]
    exact ⟨utf8_injective, fun he => by rw [he]⟩
  have hcmp := hr1.cmp_compares hr2
  have hequal := hr1.equal_iff hr2
  refine ⟨⟨hr1.byteSequence_eq, hr2.byteSequence_eq⟩, hequal.trans hbytes.symm, fun heq => ?_,
    hcmp, hcmp.zero.trans hequal.symm, ?_⟩
  · have hs := hbytes.mp heq
    rw [← hs] at hr2
    exact hr1.hash_eq key hr2
  · unfold optStringCompare
    rw [if_neg hr1.ne_nil, if_neg hr2.ne_nil, intCompare_zero_eq]
    exact hcmp.zero.trans hequal.symm

/-- A result that compares is at most zero when the first list does not come after the
second. -/
theorem Compares.le_iff {r : Int} {l1 l2 : List Char} (h : Compares r l1 l2) : r ≤ 0 ↔ l1 ≤ l2 := by
  refine ⟨fun hr => not_lt.mp fun hlt => ?_, fun hle => ?_⟩
  · have := h.pos.mpr hlt
    omega
  · by_contra hgt
    exact not_lt.mpr hle (h.pos.mp (by omega))

theorem Store.Valid.totalOrder {st : Store} (hv : st.Valid) :
    TotalOrder st.heap.mem st.strings := by
  have hle {y1 y2 : TaggedPtr × List Char} (h1 : y1 ∈ st.strings) (h2 : y2 ∈ st.strings) :=
    Compares.le_iff ((hv y1 h1).cmp_compares (hv y2 h2))
  refine ⟨fun y1 h1 y2 h2 => ?_, fun y1 h1 y2 h2 h12 h21 => ?_,
    fun y1 h1 y2 h2 y3 h3 h12 h23 => ?_⟩
  · rw [hle h1 h2, hle h2 h1]
    exact le_total _ _
  · rw [hle h1 h2] at h12
    rw [hle h2 h1] at h21
    rw [(hv y1 h1).byteSequence_eq, (hv y2 h2).byteSequence_eq, le_antisymm h12 h21]
  · rw [hle h1 h2] at h12
    rw [hle h2 h3] at h23
    rw [hle h1 h3]
    exact le_trans h12 h23

/-- In every store of a run, produced strings are equal exactly when their byte sequences
are, strings with the same byte sequence have the same hash, and the comparison is the
lexicographic order of the code points. -/
theorem runtime_strings_by_text {st : Store} (hst : Reachable st) (key : HashKey) :
    (∀ y1 ∈ st.strings, ∀ y2 ∈ st.strings, ByText key st.heap.mem y1 y2) ∧
      TotalOrder st.heap.mem st.strings :=
  ⟨fun y1 h1 y2 h2 => (hst.valid y1 h1).byText key (hst.valid y2 h2), hst.valid.totalOrder⟩

/-- "hello world", put together at `0x2000` from two immediate strings. -/
def helloConcat : Heap × TaggedPtr :=
  (balStringConcat ⟨fun _ => 0#8, []⟩ 0x2000 0x25FF206F6C6C6568#64 0x25FFFF646C726F77#64).get
    (by decide +kernel)

/-- The same text as a constant at `0x1000`. -/
def helloLiteral : Heap × TaggedPtr :=
  (addStringDefn helloConcat.1 0x1000 "hello world".toList).get (by decide +kernel)

def helloStore : Store :=
  ⟨helloLiteral.1, [(helloLiteral.2, "hello world".toList),
    (helloConcat.2, "hello ".toList ++ "world".toList),
    (0x25FFFF646C726F77#64, "world".toList), (0x25FF206F6C6C6568#64, "hello ".toList)]⟩

theorem helloStore_reachable : Reachable helloStore := by
  have h1 := (Reachable.init fun _ => 0#8).step
    (.literal 0 "hello ".toList (x := (⟨fun _ => 0#8, []⟩, 0x25FF206F6C6C6568#64)) rfl)
  have h2 := h1.step
    (.literal 0 "world".toList (x := (⟨fun _ => 0#8, []⟩, 0x25FFFF646C726F77#64)) rfl)
  have h3 := h2.step (.concat 0x2000 (x := helloConcat)
    (.tail _ (.head _)) List.mem_cons_self (Option.some_get _).symm)
  exact h3.step
    (.literal 0x1000 "hello world".toList (x := helloLiteral) (Option.some_get _).symm)

theorem runtime_strings_by_text_hello : helloLiteral.2 ≠ helloConcat.2 ∧
    ByText hashDefineKey helloStore.heap.mem (helloLiteral.2, "hello world".toList)
      (helloConcat.2, "hello ".toList ++ "world".toList) ∧
    TotalOrder helloStore.heap.mem helloStore.strings := by
  have hall := runtime_strings_by_text helloStore_reachable hashDefineKey
  refine ⟨by decide +kernel, hall.1 _ List.mem_cons_self _ ?_, hall.2⟩
  exact .tail _ (.head _)

end Nballerina.Runtime
