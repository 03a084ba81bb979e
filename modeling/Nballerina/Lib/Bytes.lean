import Mathlib.Algebra.Group.Nat.Defs
import Mathlib.Data.Nat.Basic

/-!
# Bytes, words, and comparing them

A 64-bit word seen as eight bytes, the least significant first (`byteAt`, `wordOf`),
and the order of byte sequences. Sequences are compared by their first difference
(`LtUpTo`): that is the form in which code looks at them, a byte or a word at a
time. `SignUpTo` is what such a comparison returns, and `SignUpTo.compares` turns it
into the lexicographic order of lists that are padded with zeros.
-/

namespace Nballerina.Lib

abbrev Byte := BitVec 8
abbrev Word := BitVec 64

/-- Byte `k` of a word, counting from the least significant one. -/
def byteAt (w : Word) (k : Nat) : Byte := w.extractLsb' (8 * k) 8

/-- The word of eight bytes. -/
def wordOf (b : Nat → Byte) : Word :=
  b 7 ++ (b 6 ++ (b 5 ++ (b 4 ++ (b 3 ++ (b 2 ++ (b 1 ++ b 0))))))

/-- The word with its bytes in reverse order. -/
def bswap (w : Word) : Word := wordOf fun k => byteAt w (7 - k)

theorem getLsbD_byteAt (w : Word) (k i : Nat) :
    (byteAt w k).getLsbD i = (decide (i < 8) && w.getLsbD (8 * k + i)) := by
  rw [byteAt, BitVec.getLsbD_extractLsb']

variable {k n : Nat}

theorem byteAt_wordOf (b : Nat → Byte) (hk : k < 8) : byteAt (wordOf b) k = b k := by
  apply BitVec.eq_of_getLsbD_eq
  intro i hi
  rw [getLsbD_byteAt, decide_eq_true hi, Bool.true_and, wordOf]
  have hcases : k = 0 ∨ k = 1 ∨ k = 2 ∨ k = 3 ∨ k = 4 ∨ k = 5 ∨ k = 6 ∨ k = 7 := by omega
  simp only [BitVec.getLsbD_append]
  rcases hcases with rfl | rfl | rfl | rfl | rfl | rfl | rfl | rfl <;>
    grind

/-- A word is determined by its bytes. -/
theorem word_ext {w w' : Word} (h : ∀ k < 8, byteAt w k = byteAt w' k) : w = w' := by
  apply BitVec.eq_of_getLsbD_eq
  intro i hi
  have hb := congrArg (fun b => b.getLsbD (i % 8)) (h (i / 8) (by omega))
  simp only [getLsbD_byteAt] at hb
  have hmod : i % 8 < 8 := Nat.mod_lt i (by omega)
  rwa [decide_eq_true hmod, Bool.true_and, Bool.true_and, Nat.div_add_mod] at hb

theorem wordOf_byteAt (w : Word) : wordOf (byteAt w) = w :=
  word_ext fun _ hk => byteAt_wordOf _ hk

theorem byteAt_or (w w' : Word) (k : Nat) : byteAt (w ||| w') k = byteAt w k ||| byteAt w' k := by
  apply BitVec.eq_of_getLsbD_eq
  intro i hi
  rw [BitVec.getLsbD_or, getLsbD_byteAt, getLsbD_byteAt, getLsbD_byteAt, BitVec.getLsbD_or,
    decide_eq_true hi]
  simp only [Bool.true_and]

/-- A byte moved to its place in a word. -/
theorem byteAt_shiftLeft (b : Byte) {i : Nat} (hk : k < 8) :
    byteAt (b.setWidth 64 <<< (i * 8)) k = if k = i then b else 0#8 := by
  apply BitVec.eq_of_getLsbD_eq
  intro j hj
  rw [getLsbD_byteAt, decide_eq_true hj, Bool.true_and, BitVec.getLsbD_shiftLeft,
    BitVec.getLsbD_setWidth, decide_eq_true (by omega : 8 * k + j < 64), Bool.true_and]
  split
  next h =>
    rw [decide_eq_false (by omega), decide_eq_true (by omega), Bool.not_false, Bool.true_and,
      Bool.true_and, show 8 * k + j - i * 8 = j by omega]
  next h =>
    rw [BitVec.getLsbD_zero]
    rcases Nat.lt_or_gt_of_ne h with hlt | hgt
    · rw [decide_eq_true (by omega), Bool.not_true, Bool.false_and]
    · rw [BitVec.getLsbD_of_ge b _ (by omega), Bool.and_false, Bool.and_false]

/-- The word made by putting `n` bytes into it one by one. -/
theorem byteAt_foldl_or (b : Nat → Byte) (hk : k < 8) :
    byteAt ((List.range n).foldl (fun w i => w ||| ((b i).setWidth 64 <<< (i * 8))) 0#64) k =
      if k < n then b k else 0#8 := by
  induction n with
  | zero =>
    rw [if_neg (by omega)]
    apply BitVec.eq_of_getLsbD_eq
    intro i hi
    rw [List.range_zero, List.foldl_nil, getLsbD_byteAt, BitVec.getLsbD_zero, Bool.and_false,
      BitVec.getLsbD_zero]
  | succ n ih =>
    rw [List.range_succ, List.foldl_append, List.foldl_cons, List.foldl_nil, byteAt_or, ih,
      byteAt_shiftLeft _ hk]
    rcases Nat.lt_trichotomy k n with h | h | h
    · rw [if_pos h, if_neg (by omega), if_pos (by omega), BitVec.or_zero]
    · rw [if_neg (by omega), if_pos h, if_pos (by omega), BitVec.zero_or, h]
    · rw [if_neg (by omega), if_neg (by omega), if_neg (by omega), BitVec.or_zero]

/-- A property of bytes can be tried on all of them. -/
theorem byte_forall {P : Byte → Prop} (h : ∀ n < 256, P (BitVec.ofNat 8 n)) (b : Byte) : P b := by
  have := h b.toNat b.isLt
  rwa [BitVec.ofNat_toNat, BitVec.setWidth_eq] at this

/-! ## The first difference -/

/-- Among the first `n` bytes there is a difference, and at the first one `f` is smaller. -/
def LtUpTo (n : Nat) (f g : Nat → Byte) : Prop := ∃ d < n, (∀ j < d, f j = g j) ∧ f d < g d

/-- The first `n` bytes are the same. -/
def EqUpTo (n : Nat) (f g : Nat → Byte) : Prop := ∀ j < n, f j = g j

theorem EqUpTo.symm {n : Nat} {f g : Nat → Byte} (h : EqUpTo n f g) : EqUpTo n g f :=
  fun j hj => (h j hj).symm

theorem LtUpTo.asymm {f g : Nat → Byte} (h : LtUpTo n f g) : ¬ LtUpTo n g f := by
  intro h'
  obtain ⟨d, -, heq, hlt⟩ := h
  obtain ⟨d', -, heq', hlt'⟩ := h'
  rcases Nat.lt_trichotomy d d' with hd | rfl | hd
  · rw [heq' d hd] at hlt
    exact BitVec.lt_irrefl _ hlt
  · exact BitVec.lt_asymm hlt hlt'
  · rw [heq d' hd] at hlt'
    exact BitVec.lt_irrefl _ hlt'

theorem ltUpTo_trichotomy (f g : Nat → Byte) :
    ∀ n, LtUpTo n f g ∨ EqUpTo n f g ∨ LtUpTo n g f
  | 0 => .inr (.inl fun j hj => absurd hj (Nat.not_lt_zero j))
  | n + 1 => by
    rcases ltUpTo_trichotomy f g n with ⟨d, hd, h⟩ | heq | ⟨d, hd, h⟩
    · exact .inl ⟨d, Nat.lt_succ_of_lt hd, h⟩
    · rcases BitVec.lt_trichotomy (f n) (g n) with hlt | hn | hgt
      · exact .inl ⟨n, Nat.lt_succ_self n, heq, hlt⟩
      · refine .inr (.inl fun j hj => ?_)
        rcases Nat.lt_succ_iff_lt_or_eq.mp hj with hj | rfl
        · exact heq j hj
        · exact hn
      · exact .inr (.inr ⟨n, Nat.lt_succ_self n, heq.symm, hgt⟩)
    · exact .inr (.inr ⟨d, Nat.lt_succ_of_lt hd, h⟩)

/-- Comparing the first `a` bytes and then the next `b`. -/
theorem ltUpTo_add (a b : Nat) (f g : Nat → Byte) : LtUpTo (a + b) f g ↔
    LtUpTo a f g ∨ (EqUpTo a f g ∧ LtUpTo b (fun k => f (a + k)) fun k => g (a + k)) := by
  refine ⟨fun h => ?_, fun h => ?_⟩
  · obtain ⟨d, hd, heq, hlt⟩ := h
    rcases Nat.lt_or_ge d a with hda | hda
    · exact .inl ⟨d, hda, heq, hlt⟩
    · refine .inr ⟨fun j hj => heq j (by omega), d - a, by omega, fun j hj => ?_, ?_⟩
      · exact heq (a + j) (by omega)
      · show f (a + (d - a)) < g (a + (d - a))
        rwa [Nat.add_sub_cancel' hda]
  · rcases h with ⟨d, hd, h⟩ | ⟨heq, d, hd, heq', hlt⟩
    · exact ⟨d, by omega, h⟩
    · refine ⟨a + d, by omega, fun j hj => ?_, hlt⟩
      rcases Nat.lt_or_ge j a with hja | hja
      · exact heq j hja
      · have : f (a + (j - a)) = g (a + (j - a)) := heq' (j - a) (by omega)
        rwa [Nat.add_sub_cancel' hja] at this

theorem eqUpTo_add (a b : Nat) (f g : Nat → Byte) : EqUpTo (a + b) f g ↔
    EqUpTo a f g ∧ EqUpTo b (fun k => f (a + k)) fun k => g (a + k) := by
  refine ⟨fun h => ⟨fun j hj => h j (by omega), fun j hj => h (a + j) (by omega)⟩, fun h j hj => ?_⟩
  rcases Nat.lt_or_ge j a with hja | hja
  · exact h.1 j hja
  · have : f (a + (j - a)) = g (a + (j - a)) := h.2 (j - a) (by omega)
    rwa [Nat.add_sub_cancel' hja] at this

/-! ## Words -/

/-- The number with the bytes of `f` as digits, the first `n` of them. -/
def beNat (f : Nat → Byte) : Nat → Nat
  | 0 => 0
  | n + 1 => beNat f n * 256 + (f n).toNat

theorem beNat_eq_of_eqUpTo {f g : Nat → Byte} : ∀ {n : Nat}, EqUpTo n f g → beNat f n = beNat g n
  | 0, _ => rfl
  | n + 1, h => by
    have ih : beNat f n = beNat g n := beNat_eq_of_eqUpTo fun j hj => h j (Nat.lt_succ_of_lt hj)
    rw [beNat, beNat, ih, h n (Nat.lt_succ_self n)]

theorem beNat_lt_of_ltUpTo {f g : Nat → Byte} : ∀ {n : Nat}, LtUpTo n f g → beNat f n < beNat g n
  | 0, h => by
    obtain ⟨d, hd, -⟩ := h
    omega
  | n + 1, h => by
    rw [beNat, beNat]
    have hf := (f n).isLt
    rcases (ltUpTo_add n 1 f g).mp h with h | ⟨heq, d, hd, -, hlt⟩
    · have ih := beNat_lt_of_ltUpTo h
      omega
    · obtain rfl : d = 0 := by omega
      have hlt : (f n).toNat < (g n).toNat := hlt
      rw [beNat_eq_of_eqUpTo heq]
      omega

theorem beNat_lt_iff {f g : Nat → Byte} : beNat f n < beNat g n ↔ LtUpTo n f g := by
  refine ⟨fun h => ?_, beNat_lt_of_ltUpTo⟩
  rcases ltUpTo_trichotomy f g n with hlt | heq | hgt
  · exact hlt
  · rw [beNat_eq_of_eqUpTo heq] at h
    exact absurd h (Nat.lt_irrefl _)
  · exact absurd (beNat_lt_of_ltUpTo hgt) (Nat.lt_asymm h)

theorem toNat_wordOf (b : Nat → Byte) : (wordOf b).toNat = beNat (fun k => b (7 - k)) 8 := by
  have h (k : Nat) := (b k).isLt
  have happ {v : Nat} (x : Byte) (y : BitVec v) : (x ++ y).toNat = x.toNat * 2 ^ v + y.toNat := by
    rw [BitVec.toNat_append, ← Nat.shiftLeft_add_eq_or_of_lt y.isLt, Nat.shiftLeft_eq]
  simp only [wordOf, happ, beNat, Nat.reduceAdd, Nat.reducePow, Nat.reduceSub]
  omega

/-- Words with their bytes reversed compare like their bytes. -/
theorem bswap_lt_iff (w w' : Word) : bswap w < bswap w' ↔ LtUpTo 8 (byteAt w) (byteAt w') := by
  have h (v : Word) : (bswap v).toNat = beNat (byteAt v) 8 := by
    rw [bswap, toNat_wordOf]
    refine beNat_eq_of_eqUpTo fun k hk => ?_
    show byteAt v (7 - (7 - k)) = byteAt v k
    rw [show 7 - (7 - k) = k by omega]
  show (bswap w).toNat < (bswap w').toNat ↔ _
  rw [h, h, beNat_lt_iff]

/-- The number of trailing zeros of the exclusive or finds the first byte in which two
words differ. -/
theorem ctz_xor_div {w w' : Word} (h : w ≠ w') : ∃ d < 8, (w ^^^ w').ctz.toNat / 8 = d ∧
    (∀ j < d, byteAt w j = byteAt w' j) ∧ byteAt w d ≠ byteAt w' d := by
  have hne : w ^^^ w' ≠ 0#64 := fun hx => h (BitVec.xor_eq_zero_iff.mp hx)
  have htop := BitVec.getLsbD_true_ctz_of_ne_zero hne
  have hlt : (w ^^^ w').ctz.toNat < 64 := BitVec.lt_of_getLsbD htop
  refine ⟨_, by omega, rfl, fun j hj => ?_, fun heq => ?_⟩
  · apply BitVec.eq_of_getLsbD_eq
    intro i hi
    have hz : (w ^^^ w').getLsbD (8 * j + i) = false :=
      BitVec.getLsbD_false_of_lt_ctz (by omega)
    rw [BitVec.getLsbD_xor] at hz
    rw [getLsbD_byteAt, getLsbD_byteAt, bne_eq_false_iff_eq.mp hz]
  · have hbit := congrArg (fun b => b.getLsbD ((w ^^^ w').ctz.toNat % 8)) heq
    simp only [getLsbD_byteAt, Nat.div_add_mod] at hbit
    have hmod : (w ^^^ w').ctz.toNat % 8 < 8 := Nat.mod_lt _ (by omega)
    rw [decide_eq_true hmod, Bool.true_and, Bool.true_and] at hbit
    rw [BitVec.getLsbD_xor, hbit, Bool.xor_self] at htop
    exact Bool.false_ne_true htop

/-- The number of leading zeros finds the last byte that is not zero, when its top bit is
set. -/
theorem clz_of_top_byte {w : Word} (hn : n < 8) (htop : (byteAt w n).getLsbD 7 = true)
    (hz : ∀ j < 8, n < j → byteAt w j = 0#8) : w.clz.toNat = 64 - 8 * (n + 1) := by
  rw [getLsbD_byteAt, decide_eq_true (by omega : 7 < 8), Bool.true_and] at htop
  have hne : w ≠ 0#64 := by
    intro h0
    rw [h0, BitVec.getLsbD_zero] at htop
    exact Bool.false_ne_true htop
  have hfirst := BitVec.getLsbD_true_clz_of_ne_zero (by omega) hne
  have hpow : 2 ^ (8 * n + 7) ≤ w.toNat := Nat.ge_two_pow_of_testBit htop
  have hlt := BitVec.toNat_lt_two_pow_sub_clz (x := w)
  have hle : 8 * n + 7 < 64 - w.clz.toNat :=
    (Nat.pow_lt_pow_iff_right (by omega)).mp (Nat.lt_of_le_of_lt hpow hlt)
  -- a set bit above byte `n` would be one of a zero byte
  have hge : 64 - 1 - w.clz.toNat < 8 * (n + 1) := by
    by_contra hgt
    generalize 64 - 1 - w.clz.toNat = i at hfirst hgt
    have hi : i < 64 := BitVec.lt_of_getLsbD hfirst
    have hbyte := congrArg (fun b => b.getLsbD (i % 8)) (hz (i / 8) (by omega) (by omega))
    simp only [getLsbD_byteAt, Nat.div_add_mod, BitVec.getLsbD_zero] at hbyte
    have hmod : i % 8 < 8 := Nat.mod_lt i (by omega)
    rw [decide_eq_true hmod, Bool.true_and, hfirst] at hbyte
    exact absurd hbyte (by decide)
  omega

/-! ## Lists -/

/-- The bytes of a list, and zeros after it. -/
def padded (bs : List Byte) (k : Nat) : Byte := bs.getD k 0

theorem padded_of_lt {bs : List Byte} (h : k < bs.length) : padded bs k = bs[k] := by
  rw [padded, List.getD_eq_getElem?_getD, List.getElem?_eq_getElem h, Option.getD_some]

theorem padded_of_ge {bs : List Byte} (h : bs.length ≤ k) : padded bs k = 0 := by
  rw [padded, List.getD_eq_getElem?_getD, List.getElem?_eq_none h, Option.getD_none]

/-- Padding with another byte. -/
theorem getD_eq_ite (bs : List Byte) (pad : Byte) (k : Nat) :
    bs.getD k pad = if k < bs.length then padded bs k else pad := by
  rw [List.getD_eq_getElem?_getD]
  split
  next h => rw [padded_of_lt h, List.getElem?_eq_getElem h, Option.getD_some]
  next h => rw [List.getElem?_eq_none (by omega), Option.getD_none]

section Padded

variable {bs1 bs2 : List Byte} {n : Nat}

/-- A difference in the padded sequences is one of the lists. -/
theorem lt_of_ltUpTo (h : LtUpTo n (padded bs1) (padded bs2)) : bs1 < bs2 := by
  obtain ⟨d, -, heq, hlt⟩ := h
  -- a zero is not greater than anything, so the second list goes on at `d`
  have hd2 : d < bs2.length := by
    by_contra hge
    have hzero : padded bs2 d = 0 := padded_of_ge (by omega)
    rw [hzero] at hlt
    exact BitVec.not_lt_zero hlt
  rw [List.lt_iff_exists]
  rcases Nat.lt_or_ge d bs1.length with hd1 | hd1
  · refine .inr ⟨d, hd1, hd2, fun j hj => ?_, ?_⟩
    · have := heq j hj
      rwa [padded_of_lt (by omega), padded_of_lt (by omega)] at this
    · rwa [padded_of_lt hd1, padded_of_lt hd2] at hlt
  · refine .inl ⟨?_, by omega⟩
    refine List.ext_getElem ?_ fun j hj hj' => ?_
    · rw [List.length_take]
      omega
    · have := heq j (by omega)
      rw [padded_of_lt hj, padded_of_lt (by omega)] at this
      rw [this, List.getElem_take]

/-- Without a difference, the shorter list comes first. -/
theorem lt_iff_of_eqUpTo (hn : min bs1.length bs2.length ≤ n)
    (h : EqUpTo n (padded bs1) (padded bs2)) : bs1 < bs2 ↔ bs1.length < bs2.length := by
  rw [List.lt_iff_exists]
  refine ⟨fun hlt => ?_, fun hlt => ?_⟩
  · rcases hlt with ⟨-, hlt⟩ | ⟨d, hd1, hd2, -, hlt⟩
    · exact hlt
    · have := h d (by omega)
      rw [padded_of_lt hd1, padded_of_lt hd2] at this
      rw [this] at hlt
      exact absurd hlt (BitVec.lt_irrefl _)
  · refine .inl ⟨List.ext_getElem ?_ fun j hj hj' => ?_, hlt⟩
    · rw [List.length_take]
      omega
    · have := h j (by omega)
      rw [padded_of_lt hj, padded_of_lt (by omega)] at this
      rw [this, List.getElem_take]

theorem eq_iff_of_eqUpTo (hn : min bs1.length bs2.length ≤ n)
    (h : EqUpTo n (padded bs1) (padded bs2)) : bs1 = bs2 ↔ bs1.length = bs2.length := by
  refine ⟨congrArg List.length, fun hlen => List.ext_getElem hlen fun j hj hj' => ?_⟩
  have := h j (by omega)
  rwa [padded_of_lt hj, padded_of_lt hj'] at this

end Padded

/-- A three-way comparison: the sign of `r` is the order of the lists. -/
structure Compares {α : Type} [LT α] (r : Int) (l1 l2 : List α) : Prop where
  neg : r < 0 ↔ l1 < l2
  zero : r = 0 ↔ l1 = l2
  pos : 0 < r ↔ l2 < l1

theorem Compares.refl (l : List Byte) : Compares 0 l l :=
  ⟨iff_of_false (by omega) (List.lt_irrefl l), iff_of_true rfl rfl,
    iff_of_false (by omega) (List.lt_irrefl l)⟩

theorem Compares.of_lt {r : Int} {l1 l2 : List Byte} (hr : r < 0) (h : l1 < l2) :
    Compares r l1 l2 := by
  refine ⟨iff_of_true hr h, iff_of_false (by omega) fun he => ?_,
    iff_of_false (by omega) fun h' => List.lt_asymm h h'⟩
  rw [he] at h
  exact List.lt_irrefl _ h

theorem Compares.of_gt {r : Int} {l1 l2 : List Byte} (hr : 0 < r) (h : l2 < l1) :
    Compares r l1 l2 := by
  refine ⟨iff_of_false (by omega) fun h' => List.lt_asymm h h',
    iff_of_false (by omega) fun he => ?_, iff_of_true hr h⟩
  rw [he] at h
  exact List.lt_irrefl _ h

/-- The sign of `r` tells the first difference among the first `n` bytes. -/
structure SignUpTo (n : Nat) (f g : Nat → Byte) (r : Int) : Prop where
  lt : LtUpTo n f g → r < 0
  eq : EqUpTo n f g → r = 0
  gt : LtUpTo n g f → 0 < r

namespace SignUpTo

/-- Compare some bytes, and the next ones if there was no difference. -/
theorem append {a b : Nat} {f g : Nat → Byte} {r r' : Int} (h : SignUpTo a f g r)
    (h' : SignUpTo b (fun k => f (a + k)) (fun k => g (a + k)) r') :
    SignUpTo (a + b) f g (if r ≠ 0 then r else r') := by
  refine ⟨fun hlt => ?_, fun heq => ?_, fun hgt => ?_⟩
  · rcases (ltUpTo_add a b f g).mp hlt with hlt | ⟨heq, hlt⟩
    · have := h.lt hlt
      rwa [if_pos (by omega)]
    · rw [if_neg (fun hne => hne (h.eq heq))]
      exact h'.lt hlt
  · obtain ⟨heq, heq'⟩ := (eqUpTo_add a b f g).mp heq
    rw [if_neg (fun hne => hne (h.eq heq))]
    exact h'.eq heq'
  · rcases (ltUpTo_add a b g f).mp hgt with hgt | ⟨heq, hgt⟩
    · have := h.gt hgt
      rwa [if_pos (by omega)]
    · rw [if_neg (fun hne => hne (h.eq heq.symm))]
      exact h'.gt hgt

theorem congr {n : Nat} {f g f' g' : Nat → Byte} {r : Int} (h : SignUpTo n f g r)
    (hf : ∀ k < n, f k = f' k) (hg : ∀ k < n, g k = g' k) : SignUpTo n f' g' r := by
  have hlt {f g f' g' : Nat → Byte} (hf : ∀ k < n, f k = f' k) (hg : ∀ k < n, g k = g' k) :
      LtUpTo n f' g' → LtUpTo n f g := by
    intro hlt
    obtain ⟨d, hd, heq, hlt⟩ := hlt
    refine ⟨d, hd, fun j hj => ?_, ?_⟩
    · rw [hf j (by omega), hg j (by omega), heq j hj]
    · rwa [hf d hd, hg d hd]
  refine ⟨fun h' => h.lt (hlt hf hg h'), fun heq => h.eq fun j hj => ?_,
    fun h' => h.gt (hlt hg hf h')⟩
  rw [hf j hj, hg j hj, heq j hj]

theorem of_beNat (n : Nat) (f g : Nat → Byte) :
    SignUpTo n f g ((beNat f n : Int) - (beNat g n : Int)) := by
  refine ⟨fun h => ?_, fun h => ?_, fun h => ?_⟩
  · have := beNat_lt_of_ltUpTo h
    omega
  · rw [beNat_eq_of_eqUpTo h]
    omega
  · have := beNat_lt_of_ltUpTo h
    omega

/-- The sign of the first difference, or else of the difference in length. -/
theorem compares {bs1 bs2 : List Byte} {n : Nat} {r : Int}
    (hn : min bs1.length bs2.length ≤ n) (h : SignUpTo n (padded bs1) (padded bs2) r) :
    Compares (if r ≠ 0 then r else (bs1.length : Int) - (bs2.length : Int)) bs1 bs2 := by
  have hn' : min bs2.length bs1.length ≤ n := by omega
  rcases ltUpTo_trichotomy (padded bs1) (padded bs2) n with hd | hd | hd
  · have hr := h.lt hd
    rw [if_pos (by omega)]
    exact .of_lt hr (lt_of_ltUpTo hd)
  · rw [if_neg (fun hne => hne (h.eq hd))]
    have h1 := lt_iff_of_eqUpTo hn hd
    have h2 := lt_iff_of_eqUpTo hn' hd.symm
    have h3 := eq_iff_of_eqUpTo hn hd
    exact ⟨by rw [h1]; omega, by rw [h3]; omega, by rw [h2]; omega⟩
  · have hr := h.gt hd
    rw [if_pos (by omega)]
    exact .of_gt hr (lt_of_ltUpTo hd)

end SignUpTo

/-- Lists padded with a byte that is in neither of them: the first difference is one of the
lists, and the padding comes before every byte. -/
theorem lt_of_getD {bs1 bs2 : List Byte} {pad : Byte} (h1 : pad ∉ bs1) (h2 : pad ∉ bs2) {d : Nat}
    (heq : ∀ j < d, bs1.getD j pad = bs2.getD j pad) (hd : bs2.getD d pad ≠ pad)
    (hlt : bs1.getD d pad = pad ∨ bs1.getD d pad < bs2.getD d pad) : bs1 < bs2 := by
  have hin {bs : List Byte} {j : Nat} (hj : j < bs.length) : bs.getD j pad = bs[j] := by
    rw [getD_eq_ite, if_pos hj, padded_of_lt hj]
  have hout {bs : List Byte} {j : Nat} (hj : bs.length ≤ j) : bs.getD j pad = pad := by
    rw [getD_eq_ite, if_neg (by omega)]
  have hd2 : d < bs2.length := by
    by_contra hge
    exact hd (hout (by omega))
  -- the first list does not end before `d`
  have hd1 : d ≤ bs1.length := by
    by_contra hge
    have := heq bs1.length (by omega)
    rw [hout (Nat.le_refl _), hin (by omega)] at this
    exact h2 (this ▸ List.getElem_mem _)
  rw [List.lt_iff_exists]
  rcases Nat.lt_or_ge d bs1.length with hlt1 | hge1
  · refine .inr ⟨d, hlt1, hd2, fun j hj => ?_, ?_⟩
    · have := heq j hj
      rwa [hin (by omega), hin (by omega)] at this
    · rw [hin hlt1, hin hd2] at hlt
      exact hlt.resolve_left fun he => h1 (he ▸ List.getElem_mem _)
  · refine .inl ⟨List.ext_getElem ?_ fun j hj hj' => ?_, by omega⟩
    · rw [List.length_take]
      omega
    · have := heq j (by omega)
      rw [hin hj, hin (by omega)] at this
      rw [this, List.getElem_take]

end Nballerina.Lib
