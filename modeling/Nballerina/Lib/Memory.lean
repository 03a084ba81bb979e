import Nballerina.Lib.Bytes

/-!
# Memory

Byte-addressed memory, little-endian loads and stores, and the regions handed out by
an allocator. A region keeps its content as long as every write goes to other
addresses (`Heap.Extends`); `Mem.Holds` says what the bytes of a region are, zero
padding included.
-/

namespace Nballerina.Lib

abbrev Mem := Nat → Byte

namespace Mem

/-- A 16-bit load. -/
def load16 (m : Mem) (p : Nat) : Nat := (m p).toNat + 256 * (m (p + 1)).toNat

/-- A 64-bit load. -/
def loadWord (m : Mem) (p : Nat) : Word := wordOf fun k => m (p + k)

/-- Store a sequence of bytes. -/
def write (m : Mem) (p : Nat) (bs : List Byte) : Mem :=
  fun a => if p ≤ a ∧ a < p + bs.length then padded bs (a - p) else m a

variable {bs : List Byte}

theorem write_inside {p k : Nat} (m : Mem) (h : k < bs.length) :
    m.write p bs (p + k) = padded bs k := by
  rw [write, if_pos (by omega), Nat.add_sub_cancel_left]

theorem write_outside {p a : Nat} (m : Mem) (h : a < p ∨ p + bs.length ≤ a) :
    m.write p bs a = m a := by
  rw [write, if_neg (by omega)]

/-- The `n` bytes at `p` are those of `bs`, and zeros after them. -/
def Holds (m : Mem) (p n : Nat) (bs : List Byte) : Prop := ∀ k < n, m (p + k) = padded bs k

theorem Holds.eqUpTo {m m' : Mem} {p q n : Nat} (hp : m.Holds p n bs) (hq : m'.Holds q n bs) :
    EqUpTo n (fun k => m (p + k)) fun k => m' (q + k) :=
  fun k hk => (hp k hk).trans (hq k hk).symm

theorem byteAt_loadWord (m : Mem) (p : Nat) {k : Nat} (hk : k < 8) :
    byteAt (m.loadWord p) k = m (p + k) :=
  byteAt_wordOf _ hk

/-- Two words are the same when their bytes are. -/
theorem loadWord_eq_iff {m m' : Mem} {p q : Nat} :
    m.loadWord p = m'.loadWord q ↔ EqUpTo 8 (fun k => m (p + k)) fun k => m' (q + k) := by
  refine ⟨fun h k hk => ?_, fun h => word_ext fun k hk => ?_⟩
  · show m (p + k) = m' (q + k)
    rw [← byteAt_loadWord m p hk, h, byteAt_loadWord m' q hk]
  · rw [byteAt_loadWord m p hk, byteAt_loadWord m' q hk]
    exact h k hk

end Mem

/-- The `n` low bytes of a number, the least significant first. -/
def leBytes (n v : Nat) : List Byte := (List.range n).map (byteAt (BitVec.ofNat 64 v))

theorem length_leBytes (n v : Nat) : (leBytes n v).length = n := by
  rw [leBytes, List.length_map, List.length_range]

theorem padded_leBytes {n v k : Nat} (h : k < n) :
    padded (leBytes n v) k = byteAt (BitVec.ofNat 64 v) k := by
  rw [padded_of_lt (by rwa [length_leBytes])]
  unfold leBytes
  rw [List.getElem_map, List.getElem_range]

theorem padded_append_left {bs bs' : List Byte} {k : Nat} (h : k < bs.length) :
    padded (bs ++ bs') k = padded bs k := by
  rw [padded, padded, List.getD_eq_getElem?_getD, List.getD_eq_getElem?_getD,
    List.getElem?_append_left h]

theorem padded_append_right {bs bs' : List Byte} {k : Nat} (h : bs.length ≤ k) :
    padded (bs ++ bs') k = padded bs' (k - bs.length) := by
  rw [padded, padded, List.getD_eq_getElem?_getD, List.getD_eq_getElem?_getD,
    List.getElem?_append_right h]

theorem padded_append_zeros (bs : List Byte) (n k : Nat) :
    padded (bs ++ List.replicate n 0#8) k = padded bs k := by
  rcases Nat.lt_or_ge k bs.length with h | h
  · exact padded_append_left h
  · rw [padded_append_right h, padded_of_ge h]
    rcases Nat.lt_or_ge (k - bs.length) n with h' | h'
    · rw [padded_of_lt (by rwa [List.length_replicate]), List.getElem_replicate]
      rfl
    · rw [padded_of_ge (by rwa [List.length_replicate])]

/-- Writing one sequence after another. -/
theorem Mem.write_append (m : Mem) (p : Nat) (bs bs' : List Byte) :
    (m.write p bs).write (p + bs.length) bs' = m.write p (bs ++ bs') := by
  funext a
  rcases Nat.lt_or_ge a (p + bs.length) with h | h
  · rw [write_outside _ (Or.inl h)]
    rcases Nat.lt_or_ge a p with h' | h'
    · rw [write_outside _ (Or.inl h'), write_outside _ (Or.inl h')]
    · obtain ⟨k, rfl⟩ := Nat.exists_eq_add_of_le h'
      rw [write_inside _ (by omega), write_inside _ (by rw [List.length_append]; omega),
        padded_append_left (by omega)]
  · obtain ⟨k, rfl⟩ := Nat.exists_eq_add_of_le h
    rcases Nat.lt_or_ge k bs'.length with h' | h'
    · rw [write_inside _ h', Nat.add_assoc, write_inside _ (by rw [List.length_append]; omega),
        padded_append_right (by omega), Nat.add_sub_cancel_left]
    · rw [write_outside _ (by omega), write_outside _ (by omega),
        write_outside _ (by rw [List.length_append]; omega)]

/-- The two low bytes of a word, as a number. -/
theorem toNat_and_ffff (w : Word) :
    (w &&& 0xFFFF#64).toNat = (byteAt w 0).toNat + 256 * (byteAt w 1).toNat := by
  have hw := toNat_wordOf (byteAt w)
  rw [wordOf_byteAt] at hw
  have hb (k : Nat) := (byteAt w k).isLt
  have h0 := hb 0
  have h1 := hb 1
  simp only [beNat, Nat.reduceSub] at hw
  rw [BitVec.toNat_and, show (0xFFFF#64).toNat = 2 ^ 16 - 1 from rfl,
    Nat.and_two_pow_sub_one_eq_mod, hw]
  omega

/-- The upper four bytes of a word, compared like a sequence. -/
theorem toNat_bswap_and (w : Word) :
    (bswap w &&& 0xFFFFFFFF#64).toNat = beNat (fun k => byteAt w (4 + k)) 4 := by
  have h4 := (byteAt w 4).isLt
  have h5 := (byteAt w 5).isLt
  have h6 := (byteAt w 6).isLt
  have h7 := (byteAt w 7).isLt
  rw [BitVec.toNat_and, show (0xFFFFFFFF#64).toNat = 2 ^ 32 - 1 from rfl,
    Nat.and_two_pow_sub_one_eq_mod, bswap, toNat_wordOf]
  simp only [beNat, Nat.reduceSub, Nat.reduceAdd]
  omega

theorem load16_eq {m : Mem} {p v : Nat} (hv : v < 65536) (h : ∀ k < 2, m (p + k) =
    byteAt (BitVec.ofNat 64 v) k) : m.load16 p = v := by
  have h0 : m p = byteAt (BitVec.ofNat 64 v) 0 := h 0 (by omega)
  rw [Mem.load16, h0, h 1 (by omega), ← toNat_and_ffff, BitVec.toNat_and, BitVec.toNat_ofNat,
    show (0xFFFF#64).toNat = 2 ^ 16 - 1 from rfl, Nat.and_two_pow_sub_one_eq_mod]
  omega

theorem loadWord_eq {m : Mem} {p v : Nat} (h : ∀ k < 8, m (p + k) =
    byteAt (BitVec.ofNat 64 v) k) : m.loadWord p = BitVec.ofNat 64 v :=
  word_ext fun k hk => (Mem.byteAt_loadWord m p hk).trans (h k hk)

/-! ## Regions -/

/-- Memory together with the regions in use, each an address and a size. -/
structure Heap where
  mem : Mem
  used : List (Nat × Nat)

namespace Heap

/-- An address that belongs to a region in use. -/
def InUse (h : Heap) (a : Nat) : Prop := ∃ r ∈ h.used, r.1 ≤ a ∧ a < r.1 + r.2

/-- Every region in use keeps its content. -/
structure Extends (h h' : Heap) : Prop where
  used : ∀ r ∈ h.used, r ∈ h'.used
  mem : ∀ a, h.InUse a → h'.mem a = h.mem a

theorem Extends.inUse {h h' : Heap} (he : h.Extends h') {a : Nat} (ha : h.InUse a) :
    h'.InUse a := by
  obtain ⟨r, hr, hra⟩ := ha
  exact ⟨r, he.used r hr, hra⟩

theorem Extends.refl (h : Heap) : h.Extends h := ⟨fun _ hr => hr, fun _ _ => rfl⟩

/-- The region of `n` bytes at `p` overlaps none in use, is aligned to 8 bytes and lies
below `2 ^ 56`. -/
def Fresh (h : Heap) (p n : Nat) : Prop :=
  p % 8 = 0 ∧ p + n ≤ 2 ^ 56 ∧ ∀ r ∈ h.used, p + n ≤ r.1 ∨ r.1 + r.2 ≤ p

instance (h : Heap) (p n : Nat) : Decidable (h.Fresh p n) :=
  inferInstanceAs (Decidable (_ ∧ _ ∧ _))

/-- An allocation of `n` bytes for which the allocator gives the address `p`. The region's
bytes are what they happen to be. -/
def alloc (h : Heap) (p n : Nat) : Option Heap :=
  if h.Fresh p n then some ⟨h.mem, (p, n) :: h.used⟩ else none

theorem alloc_eq_some {h h' : Heap} {p n : Nat} (ha : h.alloc p n = some h') :
    h.Fresh p n ∧ h' = ⟨h.mem, (p, n) :: h.used⟩ := by
  unfold alloc at ha
  split at ha
  next hf => exact ⟨hf, (Option.some.inj ha).symm⟩
  next => cases ha

/-- Writing to a new region leaves the others as they are. -/
theorem Fresh.extends {h : Heap} {p n : Nat} (hf : h.Fresh p n) {m : Mem}
    (hm : ∀ a, a < p ∨ p + n ≤ a → m a = h.mem a) : h.Extends ⟨m, (p, n) :: h.used⟩ := by
  refine ⟨fun r hr => List.mem_cons_of_mem _ hr, fun a ha => hm a ?_⟩
  obtain ⟨r, hr, hra⟩ := ha
  have := hf.2.2 r hr
  omega

end Heap

end Nballerina.Lib
