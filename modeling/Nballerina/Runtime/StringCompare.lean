import Nballerina.Runtime.StringRepr

/-!
# Comparing and hashing strings

Equality, order and hash of two represented strings depend on the strings alone:
`Represents.equal_iff`, `Represents.cmp_compares` and `Represents.hash_eq`. The loops over
words come first, each with what it says about the bytes; then the three
representations.
-/

namespace Nballerina.Runtime

open Nballerina.Lib

/-! ## Loops over words -/

theorem heapEqLoop_iff (m : Mem) (p1 p2 : Nat) (n : Nat) : heapEqLoop m p1 p2 n = true ↔
    EqUpTo (8 * n) (fun k => m (p1 + 8 + k)) fun k => m (p2 + 8 + k) := by
  induction n generalizing p1 p2 with
  | zero => exact iff_of_true rfl fun j hj => absurd hj (by omega)
  | succ n ih =>
    rw [show 8 * (n + 1) = 8 + 8 * n by omega, eqUpTo_add, ← Mem.loadWord_eq_iff, heapEqLoop]
    split
    next hne => exact iff_of_false Bool.false_ne_true fun h => hne h.1
    next heq =>
      rw [ih]
      have heq : m.loadWord (p1 + 8) = m.loadWord (p2 + 8) := Decidable.not_not.mp heq
      refine ⟨fun h => ⟨heq, fun j hj => ?_⟩, fun h j hj => ?_⟩
      · show m (p1 + 8 + (8 + j)) = m (p2 + 8 + (8 + j))
        rw [← Nat.add_assoc, ← Nat.add_assoc]
        exact h j hj
      · have := h.2 j hj
        dsimp only at this
        rwa [← Nat.add_assoc, ← Nat.add_assoc] at this

theorem memcmp_sign (n : Nat) (f g : Nat → Byte) : SignUpTo n f g (memcmp f g n) := by
  induction n generalizing f g with
  | zero =>
    have hno {f g : Nat → Byte} : ¬ LtUpTo 0 f g := by
      intro h
      obtain ⟨d, hd, -⟩ := h
      omega
    exact ⟨fun h => absurd h hno, fun _ => rfl, fun h => absurd h hno⟩
  | succ n ih =>
    have hone : SignUpTo 1 f g (((f 0).toNat : Int) - (g 0).toNat) := by
      have h0 (f : Nat → Byte) : beNat f 1 = (f 0).toNat := by rw [beNat, beNat]; omega
      have := SignUpTo.of_beNat 1 f g
      rwa [h0, h0] at this
    have htail := ih (fun k => f (1 + k)) fun k => g (1 + k)
    have := hone.append htail
    rw [Nat.add_comm n 1]
    rw [show memcmp f g (1 + n) = if f 0 ≠ g 0 then ((f 0).toNat : Int) - (g 0).toNat
      else memcmp (fun k => f (k + 1)) (fun k => g (k + 1)) n by rw [Nat.add_comm, memcmp]]
    simp only [Nat.add_comm 1] at this ⊢
    split
    next hne =>
      have hd : ((f 0).toNat : Int) - (g 0).toNat ≠ 0 := fun h0 =>
        hne (BitVec.eq_of_toNat_eq (by omega))
      rwa [if_pos hd] at this
    next heq =>
      have heq : f 0 = g 0 := Decidable.not_not.mp heq
      rwa [heq, if_neg (by omega)] at this

theorem memcmp8_sign (m : Mem) (p1 p2 n : Nat) :
    SignUpTo (8 * n) (fun k => m (p1 + k)) (fun k => m (p2 + k)) (memcmp8 m p1 p2 n) := by
  induction n generalizing p1 p2 with
  | zero =>
    have hno {f g : Nat → Byte} : ¬ LtUpTo (8 * 0) f g := by
      intro h
      obtain ⟨d, hd, -⟩ := h
      omega
    exact ⟨fun h => absurd h hno, fun _ => rfl, fun h => absurd h hno⟩
  | succ n ih =>
    have hbytes (p : Nat) : ∀ k < 8, byteAt (m.loadWord p) k = m (p + k) :=
      fun k hk => Mem.byteAt_loadWord m p hk
    have hne {w w' : Word} (h : LtUpTo 8 (byteAt w) (byteAt w')) : w ≠ w' := by
      intro he
      rw [he] at h
      exact h.asymm h
    -- the sign of one word's difference
    have hword : SignUpTo 8 (fun k => m (p1 + k)) (fun k => m (p2 + k))
        (if m.loadWord p1 = m.loadWord p2 then 0
          else if bswap (m.loadWord p1) < bswap (m.loadWord p2) then -1 else 1) := by
      refine SignUpTo.congr (f := byteAt (m.loadWord p1)) (g := byteAt (m.loadWord p2)) ?_
        (hbytes p1) (hbytes p2)
      refine ⟨fun h => ?_, fun h => ?_, fun h => ?_⟩
      · rw [if_neg (hne h), if_pos ((bswap_lt_iff _ _).mpr h)]
        omega
      · rw [if_pos (word_ext h)]
      · rw [if_neg (hne h).symm, if_neg (fun h' => h.asymm ((bswap_lt_iff _ _).mp h'))]
        omega
    have htail := ih (p1 + 8) (p2 + 8)
    simp only [Nat.add_assoc] at htail
    have := hword.append htail
    rw [show 8 * (n + 1) = 8 + 8 * n by omega, memcmp8]
    by_cases heq : m.loadWord p1 = m.loadWord p2
    · rw [if_neg (fun h => h heq)]
      rwa [if_pos heq, if_neg (fun h => h rfl)] at this
    · rw [if_pos heq]
      rw [if_neg heq] at this
      split
      next hlt => rwa [if_pos hlt, if_pos (by omega)] at this
      next hge => rwa [if_neg hge, if_pos (by omega)] at this

variable {m m' : Mem} {p p1 p2 q size : Nat} {h : Heap}

theorem hashUpdates_congr {n : Nat} {h : Word} {first : Nat}
    (heq : ∀ i, first ≤ i → i < first + n → m.loadWord (p + 8 * i) = m'.loadWord (q + 8 * i)) :
    hashUpdates m p h first n = hashUpdates m' q h first n := by
  induction n generalizing h first with
  | zero => rfl
  | succ n ih =>
    rw [hashUpdates, hashUpdates, heq first (by omega) (by omega)]
    exact ih fun i hi hi' => heq i (by omega) (by omega)

/-! ## The kind of representation, in the bits -/

theorem both_immediate_iff (tp1 tp2 : TaggedPtr) : tp1 &&& tp2 &&& immediateFlag ≠ 0#64 ↔
    tp1 &&& immediateFlag ≠ 0#64 ∧ tp2 &&& immediateFlag ≠ 0#64 := by
  rw [immediate_iff, immediate_iff, immediate_iff, BitVec.getLsbD_and, Bool.and_eq_true]

theorem flags_differ_iff (tp1 tp2 : TaggedPtr) :
    (tp1 ^^^ tp2) &&& (immediateFlag ||| stringLargeFlag) ≠ 0#64 ↔
    ¬ (tp1 &&& immediateFlag ≠ 0#64 ↔ tp2 &&& immediateFlag ≠ 0#64) ∨
      ¬ (tp1 &&& stringLargeFlag ≠ 0#64 ↔ tp2 &&& stringLargeFlag ≠ 0#64) := by
  rw [BitVec.and_or_distrib_left, ne_eq, BitVec.or_eq_zero_iff, Decidable.not_and_iff_not_or_not]
  refine or_congr ?_ ?_
  · rw [← ne_eq, immediate_iff, immediate_iff, immediate_iff, BitVec.getLsbD_xor]
    cases tp1.getLsbD 61 <;> cases tp2.getLsbD 61 <;> decide
  · rw [← ne_eq, large_iff, large_iff, large_iff, BitVec.getLsbD_xor]
    cases tp1.getLsbD 0 <;> cases tp2.getLsbD 0 <;> decide

/-- The kind of representation, with the tests that tell it. -/
inductive Kind (h : Heap) (tp : TaggedPtr) (s : List Char) : Prop where
  | immediate (small : Small s) (word : tp = immediateWord (utf8 s))
      (flag : tp &&& immediateFlag ≠ 0#64)
  | medium (notSmall : ¬ Small s) (short : (utf8 s).length ≤ 0xFFFF)
      (block : Block h (taggedToPtr tp) (mediumStringSize (utf8 s).length) (mediumHeader s) s)
      (flag : ¬ (tp &&& immediateFlag ≠ 0#64)) (largeFlag : ¬ (tp &&& stringLargeFlag ≠ 0#64))
  | large (notSmall : ¬ Small s) (long : 0xFFFF < (utf8 s).length)
      (block : Block h (taggedToPtr tp) (largeStringSize (utf8 s).length) (largeHeader s) s)
      (flag : ¬ (tp &&& immediateFlag ≠ 0#64)) (largeFlag : tp &&& stringLargeFlag ≠ 0#64)

theorem Represents.kind {tp : TaggedPtr} {s : List Char} (hr : Represents h tp s) :
    Kind h tp s := by
  cases hr with
  | immediate small word =>
    refine .immediate small word ?_
    rw [word]
    exact immediate_immediateWord _
  | medium p notSmall short block word =>
    have hp := block.lt (by have := le_mediumStringSize (utf8 s).length; omega)
    refine .medium notSmall short ?_ ?_ ?_
    · rwa [word, taggedToPtr_medium block.aligned hp]
    · rw [word]
      exact medium_not_immediate block.aligned hp
    · rw [word]
      exact fun hne => hne (medium_not_large block.aligned hp)
  | large p notSmall long block word =>
    have hp := block.lt (by have := le_largeStringSize (utf8 s).length; omega)
    refine .large notSmall long ?_ ?_ ?_
    · rwa [word, taggedToPtr_large block.aligned hp]
    · rw [word]
      exact large_not_immediate block.aligned hp
    · rw [word]
      exact large_large block.aligned hp

/-! ## Single code points -/

/-- The bits above the first byte tell whether an ASCII text has one byte. -/
theorem padding_all_ones_iff {bs : List Byte} (hno : 0xFF#8 ∉ bs) (hlen : bs.length ≤ 7) :
    (immediateWord bs ||| (~~~pointerMask ||| 0xFF#64) == -1#64) = true ↔ bs.length ≤ 1 := by
  have hmask : ∀ k < 8, byteAt (~~~pointerMask ||| 0xFF#64) k =
      if k = 0 ∨ k = 7 then 0xFF#8 else 0#8 := by decide
  have hones : ∀ k < 8, byteAt (-1#64) k = 0xFF#8 := by decide
  rw [beq_iff_eq]
  refine ⟨fun heq => ?_, fun hle => word_ext fun k hk => ?_⟩
  · by_contra hgt
    have hbyte := congrArg (fun w => byteAt w 1) heq
    rw [byteAt_or, hmask 1 (by omega), hones 1 (by omega), if_neg (by omega), BitVec.or_zero,
      byteAt_immediateWord_of_lt (by omega), getD_eq_ite, if_pos (by omega),
      padded_of_lt (by omega)] at hbyte
    exact hno (hbyte ▸ List.getElem_mem _)
  · rw [byteAt_or, hmask k hk, hones k hk]
    split
    next => exact BitVec.or_allOnes
    next h =>
      rw [BitVec.or_zero, byteAt_immediateWord_of_lt (by omega), getD_eq_ite,
        if_neg (by omega)]

/-- Whether a string is one code point shows in the tagged pointer. -/
theorem Represents.isChar_iff {tp : TaggedPtr} {s : List Char} (hr : Represents h tp s) :
    taggedStringIsChar tp = true ↔ s.length = 1 := by
  unfold taggedStringIsChar
  cases hr.kind with
  | immediate small word flag =>
    rw [if_pos flag]
    dsimp only
    have hno : 0xFF#8 ∉ utf8 s := fun hmem => ne_ff_of_mem_utf8 hmem rfl
    have hlen := small.length_le
    cases s with
    | nil =>
      rw [word]
      exact iff_of_false (by decide +kernel) (by decide)
    | cons c t =>
      obtain ⟨b, l, hb, hcases⟩ := encodeChar_head c
      have hcons : utf8 (c :: t) = b :: (l ++ utf8 t) := by rw [utf8_cons, hb, List.cons_append]
      have h0 : byteAt tp 0 = b := by
        rw [word, hcons]
        exact byteAt_immediateWord_of_lt (by omega)
      have hff : b ≠ 0xFF#8 := by
        intro he
        rw [hcons, he] at hno
        exact hno (.head _)
      have hle := length_le_length_utf8 t
      have hlenU : (utf8 (c :: t)).length = l.length + 1 + (utf8 t).length := by
        rw [hcons, List.length_cons, List.length_append]
        omega
      rw [h0, List.length_cons]
      rcases hcases with ⟨hlt, rfl⟩ | ⟨hge, hones⟩
      · rw [if_neg (fun htop => absurd ((topBit_iff b).mp htop) (by omega)), word,
          padding_all_ones_iff hno hlen, hlenU, List.length_nil]
        rcases small with hs | hs <;> rw [List.length_cons] at hs
        · have ht : t = [] := List.length_eq_zero_iff.mp (by omega)
          rw [ht]
          exact iff_of_true (by decide) rfl
        · rw [List.length_nil] at hlenU
          omega
      · rw [if_pos ((topBit_iff b).mpr hge)]
        refine iff_of_true (bne_iff_ne.mpr hff) ?_
        rcases small with hs | hs
        · exact hs
        · -- a byte from 0x80 on is not ASCII
          have := ascii_of_length_eq hs.1.symm (b := b) (by rw [hcons]; exact .head _)
          omega
  | medium notSmall short block flag largeFlag =>
    rw [if_neg flag]
    exact iff_of_false Bool.false_ne_true fun hshort => notSmall (.inl hshort)
  | large notSmall long block flag largeFlag =>
    rw [if_neg flag]
    exact iff_of_false Bool.false_ne_true fun hshort => notSmall (.inl hshort)

/-! ## Equality -/

/-- Blocks with the same text length are the same up to their size when the texts are. -/
theorem Block.eq_of_eqUpTo {header1 header2 : List Byte} {s1 s2 : List Char}
    (hb1 : Block h p1 size header1 s1) (hb2 : Block h p2 size header2 s2)
    (hheader : header1.length = header2.length) (hlen : (utf8 s1).length = (utf8 s2).length)
    (hsize : header1.length + (utf8 s1).length ≤ size)
    (heq : EqUpTo size (fun k => h.mem (p1 + k)) fun k => h.mem (p2 + k)) : s1 = s2 := by
  apply utf8_injective
  refine (eq_iff_of_eqUpTo (n := (utf8 s1).length) (by omega) fun k hk => ?_).mpr hlen
  rw [← hb1.text_eq (by omega), ← hb2.text_eq (by omega), Nat.add_assoc, Nat.add_assoc,
    ← hheader]
  exact heq _ (by omega)

/-- The header word and the loop together look at the whole block. -/
theorem header_and_loop_iff (hsize : 8 ≤ size) (hshift : 8 * (size >>> 3) = size) :
    m.loadWord p1 = m.loadWord p2 ∧ heapEqLoop m p1 p2 (size >>> 3 - 1) = true ↔
      EqUpTo size (fun k => m (p1 + k)) fun k => m (p2 + k) := by
  rw [Mem.loadWord_eq_iff, heapEqLoop_iff,
    show size = 8 + 8 * (size >>> 3 - 1) by omega, eqUpTo_add,
    ← show size = 8 + 8 * (size >>> 3 - 1) by omega]
  simp only [Nat.add_assoc]

/-- Comparing the headers and then the other words compares the texts, when equal headers
have equal lengths. -/
theorem heapEq_blocks {s1 s2 : List Char} {size : Nat → Nat} {header : List Char → List Byte}
    (hb1 : Block h p1 (size (utf8 s1).length) (header s1) s1)
    (hb2 : Block h p2 (size (utf8 s2).length) (header s2) s2)
    (hheader : (header s1).length = (header s2).length)
    (hfit : (header s1).length + (utf8 s1).length ≤ size (utf8 s1).length)
    (hsize : 8 ≤ size (utf8 s1).length)
    (hshift : 8 * (size (utf8 s1).length >>> 3) = size (utf8 s1).length)
    (hlen : h.mem.loadWord p1 = h.mem.loadWord p2 → (utf8 s1).length = (utf8 s2).length) :
    (if h.mem.loadWord p1 ≠ h.mem.loadWord p2 then false
      else heapEqLoop h.mem p1 p2 (size (utf8 s1).length >>> 3 - 1)) = true ↔ s1 = s2 := by
  have hwhole := @header_and_loop_iff h.mem p1 p2 _ hsize hshift
  split
  next hne =>
    refine iff_of_false Bool.false_ne_true fun heq => ?_
    subst heq
    exact hne (hwhole.mpr (hb1.holds.eqUpTo hb2.holds)).1
  next heq =>
    have heq := Decidable.not_not.mp heq
    refine ⟨fun hloop => ?_, fun hs => ?_⟩
    · have hlen := hlen heq
      exact Block.eq_of_eqUpTo hb1 (by rwa [hlen]) hheader hlen hfit (hwhole.mp ⟨heq, hloop⟩)
    · subst hs
      exact (hwhole.mpr (hb1.holds.eqUpTo hb2.holds)).2

theorem loadWord_and_ffff (m : Mem) (p : Nat) :
    (m.loadWord p &&& 0xFFFF#64).toNat = m.load16 p := by
  rw [toNat_and_ffff, Mem.byteAt_loadWord _ _ (by omega), Mem.byteAt_loadWord _ _ (by omega)]
  rfl

section Equal

variable {h : Heap} {tp1 tp2 : TaggedPtr} {s1 s2 : List Char}

theorem heapEq_medium (hs1 : (utf8 s1).length ≤ 0xFFFF) (hs2 : (utf8 s2).length ≤ 0xFFFF)
    (hb1 : Block h (taggedToPtr tp1) (mediumStringSize (utf8 s1).length) (mediumHeader s1) s1)
    (hb2 : Block h (taggedToPtr tp2) (mediumStringSize (utf8 s2).length) (mediumHeader s2) s2)
    (hl1 : ¬ (tp1 &&& stringLargeFlag ≠ 0#64)) (hl2 : ¬ (tp2 &&& stringLargeFlag ≠ 0#64)) :
    balStringHeapEq h.mem tp1 tp2 = true ↔ s1 = s2 := by
  have hlen1 := (hb1.load16_medium hs1).1
  have hlen2 := (hb2.load16_medium hs2).1
  have hsize := le_mediumStringSize (utf8 s1).length
  unfold balStringHeapEq
  dsimp only
  rw [if_neg hl1, if_neg hl2, loadWord_and_ffff, hlen1]
  refine heapEq_blocks hb1 hb2 ?_ ?_ ?_ (mediumStringSize_shift _) fun heq => ?_
  · rw [length_mediumHeader, length_mediumHeader]
  · rw [length_mediumHeader]
    omega
  · unfold mediumStringSize roundUp
    omega
  · rw [← hlen1, ← hlen2, ← loadWord_and_ffff, ← loadWord_and_ffff, heq]

theorem heapEq_large
    (hb1 : Block h (taggedToPtr tp1) (largeStringSize (utf8 s1).length) (largeHeader s1) s1)
    (hb2 : Block h (taggedToPtr tp2) (largeStringSize (utf8 s2).length) (largeHeader s2) s2)
    (hl1 : tp1 &&& stringLargeFlag ≠ 0#64) (hl2 : tp2 &&& stringLargeFlag ≠ 0#64) :
    balStringHeapEq h.mem tp1 tp2 = true ↔ s1 = s2 := by
  have hlen1 := hb1.loadWord_large.1
  have hlen2 := hb2.loadWord_large.1
  have hsize := le_largeStringSize (utf8 s1).length
  unfold balStringHeapEq
  dsimp only
  rw [if_pos hl1, if_neg hl2, hlen1]
  refine heapEq_blocks hb1 hb2 ?_ ?_ ?_ (largeStringSize_shift _) fun heq => ?_
  · rw [length_largeHeader, length_largeHeader]
  · rw [length_largeHeader]
    omega
  · unfold largeStringSize roundUp
    omega
  · rw [← hlen1, ← hlen2, heq]

/-- Blocks of different kinds are not equal. -/
theorem heapEq_mixed (hl : ¬ (tp1 &&& stringLargeFlag ≠ 0#64 ↔ tp2 &&& stringLargeFlag ≠ 0#64)) :
    balStringHeapEq h.mem tp1 tp2 = false := by
  unfold balStringHeapEq
  dsimp only
  split
  next => rfl
  next =>
    split
    next h1 =>
      rw [if_pos]
      by_contra h2
      exact hl (iff_of_true h1 h2)
    next h1 =>
      rw [if_pos]
      exact fun h2 => hl (iff_of_false h1 fun hne => hne h2)

/-- The tagged pointer of an immediate string is determined by it, and no other kind of
representation has the flag. -/
theorem Represents.equal_iff (hr1 : Represents h tp1 s1) (hr2 : Represents h tp2 s2) :
    taggedStringEqual h.mem tp1 tp2 = true ↔ s1 = s2 := by
  unfold taggedStringEqual
  split
  next heq =>
    refine iff_of_true rfl (utf8_injective ?_)
    rw [← hr1.byteSequence_eq, ← hr2.byteSequence_eq, heq]
  next hne =>
    cases hr1.kind with
    | immediate small1 word1 flag1 =>
      rw [if_pos flag1]
      refine iff_of_false Bool.false_ne_true fun he => ?_
      subst he
      cases hr2.kind with
      | immediate _ word2 _ => exact hne (word1.trans word2.symm)
      | medium notSmall2 _ _ _ _ => exact notSmall2 small1
      | large notSmall2 _ _ _ _ => exact notSmall2 small1
    | medium notSmall1 short1 block1 flag1 large1 =>
      rw [if_neg flag1]
      cases hr2.kind with
      | immediate small2 _ flag2 =>
        rw [if_pos flag2]
        exact iff_of_false Bool.false_ne_true fun he => notSmall1 (he ▸ small2)
      | medium _ short2 block2 flag2 large2 =>
        rw [if_neg flag2]
        exact heapEq_medium short1 short2 block1 block2 large1 large2
      | large _ long2 _ flag2 large2 =>
        rw [if_neg flag2, heapEq_mixed fun h => large1 (h.mpr large2)]
        refine iff_of_false Bool.false_ne_true fun he => ?_
        subst he
        omega
    | large notSmall1 long1 block1 flag1 large1 =>
      rw [if_neg flag1]
      cases hr2.kind with
      | immediate small2 _ flag2 =>
        rw [if_pos flag2]
        exact iff_of_false Bool.false_ne_true fun he => notSmall1 (he ▸ small2)
      | medium _ short2 _ flag2 large2 =>
        rw [if_neg flag2, heapEq_mixed fun h => large2 (h.mp large1)]
        refine iff_of_false Bool.false_ne_true fun he => ?_
        subst he
        omega
      | large _ _ block2 flag2 large2 =>
        rw [if_neg flag2]
        exact heapEq_large block1 block2 large1 large2

end Equal

/-! ## Hashes -/

/-- Blocks that hold the same bytes have the same words. -/
theorem loadWord_eq_of_eqUpTo (heq : EqUpTo size (fun k => m (p + k)) fun k => m' (q + k)) {i : Nat}
    (hi : i < size >>> 3) : m.loadWord (p + 8 * i) = m'.loadWord (q + 8 * i) := by
  rw [Nat.shiftRight_eq_div_pow] at hi
  rw [Mem.loadWord_eq_iff]
  intro k hk
  show m (p + 8 * i + k) = m' (q + 8 * i + k)
  rw [Nat.add_assoc, Nat.add_assoc]
  exact heq (8 * i + k) (by omega)

theorem mediumStringHash_congr {len : Nat} (h : Word) (hlen : m.load16 p = len)
    (heq : EqUpTo (mediumStringSize len) (fun k => m (p + k)) fun k => m' (q + k)) :
    mediumStringHash m h p = mediumStringHash m' h q := by
  have hwords {i : Nat} := @loadWord_eq_of_eqUpTo m m' p q _ heq i
  have hsize : 1 ≤ mediumStringSize len >>> 3 := by
    rw [Nat.shiftRight_eq_div_pow]
    unfold mediumStringSize roundUp
    omega
  have h0 : m.loadWord p = m'.loadWord q := hwords (i := 0) (by omega)
  unfold mediumStringHash
  dsimp only
  rw [← h0, loadWord_and_ffff, hlen]
  -- only the words of the block are read
  have hups (n : Nat) (hn : 1 + n ≤ mediumStringSize len >>> 3) :
      hashUpdates m p h 1 n = hashUpdates m' q h 1 n :=
    hashUpdates_congr fun i _ hi => hwords (by omega)
  split
  next => rfl
  next =>
    by_cases hpad : mediumStringSize len - (len + 4) ≠ 0
    · rw [if_pos hpad, hups _ (by omega), hwords (i := mediumStringSize len >>> 3 - 1) (by omega)]
    · rw [if_neg hpad, hups _ (by omega), if_pos (Decidable.not_not.mp hpad),
        if_pos (Decidable.not_not.mp hpad)]

theorem largeStringHash_congr {len : Nat} (h : Word) (hlen : (m.loadWord p).toNat = len)
    (heq : EqUpTo (largeStringSize len) (fun k => m (p + k)) fun k => m' (q + k)) :
    largeStringHash m h p = largeStringHash m' h q := by
  have hwords {i : Nat} := @loadWord_eq_of_eqUpTo m m' p q _ heq i
  have hsize : 2 ≤ largeStringSize len >>> 3 := by
    rw [Nat.shiftRight_eq_div_pow]
    unfold largeStringSize roundUp
    omega
  have h0 : m.loadWord p = m'.loadWord q := hwords (i := 0) (by omega)
  unfold largeStringHash
  dsimp only
  rw [← h0, hlen]
  have hups (n : Nat) (hn : 2 + n ≤ largeStringSize len >>> 3) :
      hashUpdates m p h 2 n = hashUpdates m' q h 2 n :=
    hashUpdates_congr fun i _ hi => hwords (by omega)
  by_cases hpad : largeStringSize len - (len + 16) ≠ 0
  · have hwhole : 3 ≤ largeStringSize len >>> 3 := by
      rw [Nat.shiftRight_eq_div_pow]
      unfold largeStringSize roundUp at hpad ⊢
      omega
    rw [if_pos hpad, if_pos hpad, if_pos hpad, hups _ (by omega),
      hwords (i := largeStringSize len >>> 3 - 1) (by omega)]
  · rw [if_neg hpad, if_neg hpad, if_neg hpad, hups _ (by omega)]

/-- Two representations of one string have the same hash, also in two heaps. -/
theorem Represents.hash_eq {h' : Heap} {tp1 tp2 : TaggedPtr} {s : List Char} (key : HashKey)
    (hr1 : Represents h tp1 s) (hr2 : Represents h' tp2 s) :
    balStringHash key h.mem tp1 = balStringHash key h'.mem tp2 := by
  unfold balStringHash
  dsimp only
  cases hr1.kind with
  | immediate small1 word1 flag1 =>
    cases hr2.kind with
    | immediate _ word2 flag2 => rw [if_pos flag1, if_pos flag2, word1, word2]
    | medium notSmall2 _ _ _ _ => exact absurd small1 notSmall2
    | large notSmall2 _ _ _ _ => exact absurd small1 notSmall2
  | medium notSmall1 short1 block1 flag1 large1 =>
    cases hr2.kind with
    | immediate small2 _ _ => exact absurd small2 notSmall1
    | medium _ _ block2 flag2 large2 =>
      rw [if_neg flag1, if_neg flag2, if_pos (Decidable.not_not.mp large1),
        if_pos (Decidable.not_not.mp large2), mediumStringHash_congr key.init
        (block1.load16_medium short1).1 (block1.holds.eqUpTo block2.holds)]
    | large _ long2 _ _ _ => omega
  | large notSmall1 long1 block1 flag1 large1 =>
    cases hr2.kind with
    | immediate small2 _ _ => exact absurd small2 notSmall1
    | medium _ short2 _ _ _ => omega
    | large _ _ block2 flag2 large2 =>
      rw [if_neg flag1, if_neg flag2, if_neg large1, if_neg large2,
        largeStringHash_congr key.init block1.loadWord_large.1
        (block1.holds.eqUpTo block2.holds)]

/-! ## Order -/

section Order

variable {h : Heap} {tp1 tp2 : TaggedPtr} {s1 s2 : List Char}

theorem stringCmpGeneric_compares (hr1 : Represents h tp1 s1) (hr2 : Represents h tp2 s2) :
    Compares (stringCmpGeneric h.mem tp1 tp2) (utf8 s1) (utf8 s2) := by
  unfold stringCmpGeneric
  rw [hr1.length_eq, hr2.length_eq]
  dsimp only
  refine SignUpTo.compares (n := if (utf8 s1).length ≤ (utf8 s2).length then (utf8 s1).length
    else (utf8 s2).length) (by split <;> omega) ?_
  refine (memcmp_sign _ _ _).congr (fun k hk => hr1.bytes_eq ?_) fun k hk => hr2.bytes_eq ?_
  · split at hk <;> omega
  · split at hk <;> omega

/-- A byte of a word, as `stringCmpImmediate` takes it out. -/
theorem shiftRight_and_ff (w : Word) (d : Nat) :
    (w >>> (d * 8)) &&& 0xFF#64 = (byteAt w d).setWidth 64 := by
  apply BitVec.eq_of_getLsbD_eq
  intro i hi
  have hff : ∀ i < 64, (0xFF#64 : Word).getLsbD i = decide (i < 8) := by decide
  rw [BitVec.getLsbD_and, BitVec.getLsbD_ushiftRight, hff i hi, BitVec.getLsbD_setWidth,
    getLsbD_byteAt, decide_eq_true hi, Bool.true_and, Nat.mul_comm d 8, Bool.and_comm]

theorem setWidth_lt_iff (b b' : Byte) : b.setWidth 64 < b'.setWidth 64 ↔ b < b' := by
  have := b.isLt
  have := b'.isLt
  rw [BitVec.lt_def, BitVec.lt_def, BitVec.toNat_setWidth, BitVec.toNat_setWidth,
    Nat.mod_eq_of_lt (by omega), Nat.mod_eq_of_lt (by omega)]

theorem setWidth_eq_ff_iff (b : Byte) : b.setWidth 64 = 0xFF#64 ↔ b = 0xFF#8 := by
  revert b
  refine byte_forall ?_
  decide +kernel

theorem stringCmpImmediate_compares {bs1 bs2 : List Byte} (h1 : 0xFF#8 ∉ bs1) (h2 : 0xFF#8 ∉ bs2)
    (hne : immediateWord bs1 ≠ immediateWord bs2) :
    Compares (stringCmpImmediate (immediateWord bs1) (immediateWord bs2)) bs1 bs2 := by
  obtain ⟨d, hd, hshift, heq, hdiff⟩ := ctz_xor_div hne
  have hd7 : d < 7 := by
    -- the tags are the same
    refine Nat.lt_of_le_of_ne (by omega) fun h7 => hdiff ?_
    rw [h7, immediateWord, byteAt_wordOf _ (by omega), immediateWord, byteAt_wordOf _ (by omega)]
    rfl
  have heq : ∀ j < d, bs1.getD j 0xFF#8 = bs2.getD j 0xFF#8 := by
    intro j hj
    have := heq j hj
    rwa [byteAt_immediateWord_of_lt (by omega), byteAt_immediateWord_of_lt (by omega)] at this
  rw [byteAt_immediateWord_of_lt hd7, byteAt_immediateWord_of_lt hd7] at hdiff
  unfold stringCmpImmediate
  dsimp only
  rw [hshift, shiftRight_and_ff, shiftRight_and_ff, byteAt_immediateWord_of_lt hd7,
    byteAt_immediateWord_of_lt hd7]
  simp only [setWidth_lt_iff, setWidth_eq_ff_iff]
  have hmax (b : Byte) : ¬ 0xFF#8 < b := by
    revert b
    refine byte_forall ?_
    decide +kernel
  have heq' : ∀ j < d, bs2.getD j 0xFF#8 = bs1.getD j 0xFF#8 := fun j hj => (heq j hj).symm
  split
  next hlt =>
    have hff1 : bs1.getD d 0xFF#8 ≠ 0xFF#8 := by
      intro h0
      rw [h0] at hlt
      exact hmax _ hlt
    split
    next hff => exact .of_gt (by omega) (lt_of_getD h2 h1 heq' hff1 (.inl hff))
    next hff => exact .of_lt (by omega) (lt_of_getD h1 h2 heq hff (.inr hlt))
  next hge =>
    have hgt : bs2.getD d 0xFF#8 < bs1.getD d 0xFF#8 := by
      rcases BitVec.lt_trichotomy (bs1.getD d 0xFF#8) (bs2.getD d 0xFF#8) with h | h | h
      · exact absurd h hge
      · exact absurd h hdiff
      · exact h
    have hff2 : bs2.getD d 0xFF#8 ≠ 0xFF#8 := by
      intro h0
      rw [h0] at hgt
      exact hmax _ hgt
    split
    next hff => exact .of_lt (by omega) (lt_of_getD h1 h2 heq hff2 (.inl hff))
    next hff => exact .of_gt (by omega) (lt_of_getD h2 h1 heq' hff (.inr hgt))

/-- The words compared are within both blocks and cover the shorter text. -/
theorem memcmp8_blocks {p1 p2 size1 size2 first n : Nat} {header1 header2 : List Byte}
    (hb1 : Block h p1 size1 header1 s1) (hb2 : Block h p2 size2 header2 s2) (skip : Nat)
    (hskip1 : header1.length + skip = first) (hskip2 : header2.length + skip = first)
    (hsize1 : first + 8 * n ≤ size1) (hsize2 : first + 8 * n ≤ size2) :
    SignUpTo (8 * n) (fun k => padded (utf8 s1) (skip + k)) (fun k => padded (utf8 s2) (skip + k))
      (memcmp8 h.mem (p1 + first) (p2 + first) n) := by
  refine (memcmp8_sign h.mem (p1 + first) (p2 + first) n).congr (fun k hk => ?_) fun k hk => ?_
  · rw [← hb1.text_eq (by omega), ← hskip1]
    exact congrArg h.mem (by omega)
  · rw [← hb2.text_eq (by omega), ← hskip2]
    exact congrArg h.mem (by omega)

theorem stringCmpMedium_compares {p1 p2 : Nat} (hs1 : (utf8 s1).length ≤ 0xFFFF)
    (hs2 : (utf8 s2).length ≤ 0xFFFF)
    (hb1 : Block h p1 (mediumStringSize (utf8 s1).length) (mediumHeader s1) s1)
    (hb2 : Block h p2 (mediumStringSize (utf8 s2).length) (mediumHeader s2) s2) :
    Compares (stringCmpMedium h.mem p1 p2) (utf8 s1) (utf8 s2) := by
  have hsize1 : 8 ≤ mediumStringSize (utf8 s1).length := by
    unfold mediumStringSize roundUp
    omega
  have hsize2 : 8 ≤ mediumStringSize (utf8 s2).length := by
    unfold mediumStringSize roundUp
    omega
  -- the first four bytes are in the header word
  have hbytes {p : Nat} {s : List Char}
      (hb : Block h p (mediumStringSize (utf8 s).length) (mediumHeader s) s)
      (hsize : 8 ≤ mediumStringSize (utf8 s).length) :
      ∀ k < 4, byteAt (h.mem.loadWord p) (4 + k) = padded (utf8 s) k := by
    intro k hk
    rw [Mem.byteAt_loadWord _ _ (by omega), ← Nat.add_assoc,
      ← hb.text_eq (by rw [length_mediumHeader]; omega), length_mediumHeader]
  have hfour : SignUpTo 4 (padded (utf8 s1)) (padded (utf8 s2))
      (((bswap (h.mem.loadWord p1) &&& 0xFFFFFFFF#64).toNat : Int) -
        (bswap (h.mem.loadWord p2) &&& 0xFFFFFFFF#64).toNat) := by
    rw [toNat_bswap_and, toNat_bswap_and]
    exact (SignUpTo.of_beNat 4 _ _).congr (hbytes hb1 hsize1) (hbytes hb2 hsize2)
  unfold stringCmpMedium
  dsimp only
  rw [loadWord_and_ffff, loadWord_and_ffff, (hb1.load16_medium hs1).1,
    (hb2.load16_medium hs2).1]
  generalize hmin : (if (utf8 s1).length ≤ (utf8 s2).length then (utf8 s1).length
    else (utf8 s2).length) = minLen
  have hle : minLen ≤ (utf8 s1).length ∧ minLen ≤ (utf8 s2).length ∧
      min (utf8 s1).length (utf8 s2).length ≤ minLen := by
    split at hmin <;> omega
  have hshift := mediumStringSize_shift minLen
  have hrest : SignUpTo (8 * (mediumStringSize minLen >>> 3 - 1)) _ _
      (memcmp8 h.mem (p1 + 8) (p2 + 8) (mediumStringSize minLen >>> 3 - 1)) :=
    memcmp8_blocks hb1 hb2 4 (by rw [length_mediumHeader])
      (by rw [length_mediumHeader])
      (by unfold mediumStringSize roundUp at hshift ⊢; omega)
      (by unfold mediumStringSize roundUp at hshift ⊢; omega)
  have hcmp := (hfour.append hrest).compares (by
    unfold mediumStringSize roundUp at hshift ⊢
    omega)
  by_cases hd : ((bswap (h.mem.loadWord p1) &&& 0xFFFFFFFF#64).toNat : Int) -
      (bswap (h.mem.loadWord p2) &&& 0xFFFFFFFF#64).toNat ≠ 0
  · rw [if_pos hd]
    rwa [if_pos hd, if_pos hd] at hcmp
  · rw [if_neg hd]
    rwa [if_neg hd] at hcmp

theorem stringCmpLarge_compares {p1 p2 : Nat}
    (hb1 : Block h p1 (largeStringSize (utf8 s1).length) (largeHeader s1) s1)
    (hb2 : Block h p2 (largeStringSize (utf8 s2).length) (largeHeader s2) s2) :
    Compares (stringCmpLarge h.mem p1 p2) (utf8 s1) (utf8 s2) := by
  unfold stringCmpLarge
  dsimp only
  rw [hb1.loadWord_large.1, hb2.loadWord_large.1]
  generalize hmin : (if (utf8 s1).length ≤ (utf8 s2).length then (utf8 s1).length
    else (utf8 s2).length) = minLen
  have hle : minLen ≤ (utf8 s1).length ∧ minLen ≤ (utf8 s2).length ∧
      min (utf8 s1).length (utf8 s2).length ≤ minLen := by
    split at hmin <;> omega
  have hshift := largeStringSize_shift minLen
  have hrest : SignUpTo (8 * (largeStringSize minLen >>> 3 - 2)) _ _
      (memcmp8 h.mem (p1 + 16) (p2 + 16) (largeStringSize minLen >>> 3 - 2)) :=
    memcmp8_blocks hb1 hb2 0 (by rw [length_largeHeader]) (by rw [length_largeHeader])
      (by unfold largeStringSize roundUp at hshift ⊢; omega)
      (by unfold largeStringSize roundUp at hshift ⊢; omega)
  simp only [Nat.zero_add] at hrest
  exact hrest.compares (by
    unfold largeStringSize roundUp at hshift ⊢
    omega)

/-- The sign of the comparison is the order of the byte sequences. -/
theorem Represents.cmp_compares_utf8 (hr1 : Represents h tp1 s1) (hr2 : Represents h tp2 s2) :
    Compares (balStringCmp h.mem tp1 tp2) (utf8 s1) (utf8 s2) := by
  unfold balStringCmp
  split
  next heq =>
    have : utf8 s1 = utf8 s2 := by rw [← hr1.byteSequence_eq, ← hr2.byteSequence_eq, heq]
    rw [this]
    exact .refl _
  next hne =>
    have hno (s : List Char) : 0xFF#8 ∉ utf8 s := fun hmem => ne_ff_of_mem_utf8 hmem rfl
    split
    next himm =>
      rw [both_immediate_iff] at himm
      cases hr1.kind with
      | immediate _ word1 _ =>
        cases hr2.kind with
        | immediate _ word2 _ =>
          rw [word1, word2] at hne ⊢
          exact stringCmpImmediate_compares (hno s1) (hno s2) hne
        | medium _ _ _ flag2 _ => exact absurd himm.2 flag2
        | large _ _ _ flag2 _ => exact absurd himm.2 flag2
      | medium _ _ _ flag1 _ => exact absurd himm.1 flag1
      | large _ _ _ flag1 _ => exact absurd himm.1 flag1
    next himm =>
      split
      next => exact stringCmpGeneric_compares hr1 hr2
      next hsame =>
        -- both are blocks, and of one kind
        rw [flags_differ_iff, not_or, Decidable.not_not, Decidable.not_not] at hsame
        rw [both_immediate_iff] at himm
        cases hr1.kind with
        | immediate _ _ flag1 => exact absurd ⟨flag1, hsame.1.mp flag1⟩ himm
        | medium _ short1 block1 flag1 large1 =>
          rw [if_pos (Decidable.not_not.mp large1)]
          cases hr2.kind with
          | immediate _ _ flag2 => exact absurd (hsame.1.mpr flag2) flag1
          | medium _ short2 block2 _ _ =>
            exact stringCmpMedium_compares short1 short2 block1 block2
          | large _ _ _ _ large2 => exact absurd (hsame.2.mpr large2) large1
        | large _ _ block1 flag1 large1 =>
          rw [if_neg large1]
          cases hr2.kind with
          | immediate _ _ flag2 => exact absurd (hsame.1.mpr flag2) flag1
          | medium _ _ _ _ large2 => exact absurd (hsame.2.mp large1) large2
          | large _ _ block2 _ _ => exact stringCmpLarge_compares block1 block2

/-- The sign of the comparison is the order of the code points. -/
theorem Represents.cmp_compares (hr1 : Represents h tp1 s1) (hr2 : Represents h tp2 s2) :
    Compares (balStringCmp h.mem tp1 tp2) s1 s2 := by
  have hcmp := hr1.cmp_compares_utf8 hr2
  exact ⟨hcmp.neg.trans utf8_lt_iff,
    hcmp.zero.trans ⟨utf8_injective, fun he => by rw [he]⟩, hcmp.pos.trans utf8_lt_iff⟩

end Order

end Nballerina.Runtime
