import Nballerina.Types.BddPaths
import Nballerina.Types.Define

/-!
# Xml types as sets of sequences

An xml value is a sequence of items. A subtype of xml (`xml.bal`) has bits for the empty sequence and for
the sequences of one item, and a `Bdd` for the longer ones, whose atoms are sets of allowed items.

The operations compute union, intersection, difference and complement of the sets (`xmlOps_right_iff`,
first part). The emptiness test is right for a subtype unless a path of its `Bdd` has no positive atom:
`xmlCollectAllPrimitives` returns no bits for such a path, although it allows every item, and the path
is taken to be empty whatever its negative atoms are. So `xml` is a subtype of the union of the four
types of items (`not_isEmpty_right_items`).

Mirroring notes:
- `getLsbD 0` is the bit `XML_PRIMITIVE_NEVER`.
- `XmlSubtype` has the comments of the source's record as fields: which bits are used by `primitives`,
  and by the atoms of `sequence`.
-/

namespace Nballerina.Types

open Nballerina.Lib

/-! ## The sets -/

inductive XmlItem where
  | text
  | elementRo
  | piRo
  | commentRo
  | elementRw
  | piRw
  | commentRw
deriving DecidableEq, Repr

/-- The number of the bit of the item, `XML_PRIMITIVE_TEXT` to `XML_PRIMITIVE_COMMENT_RW`. -/
def XmlItem.bit : XmlItem → Nat
  | .text => 1
  | .elementRo => 2
  | .piRo => 3
  | .commentRo => 4
  | .elementRw => 5
  | .piRw => 6
  | .commentRw => 7

/-- All items of the sequence are among the bits. -/
def ItemsIn (bits : BitVec 64) (l : List XmlItem) : Prop := ∀ i ∈ l, bits.getLsbD i.bit = true

/-- The sequence belongs to the type of the atom. -/
def XmlContains (l : List XmlItem) (atom : Atom) : Prop :=
  ∃ n, atomInt atom = some n ∧ ItemsIn (BitVec.ofInt 64 n) l

/-- An atom is a set of items. -/
def XmlAtom (atom : Atom) : Prop :=
  ∃ bits : BitVec 64, bits &&& ~~~XML_PRIMITIVE_SINGLETON = 0 ∧ atom = .recAtom bits.toNat

structure XmlSubtype where
  primitives : BitVec 64
  sequence : Bdd
  primitives_mask : primitives &&& ~~~XML_PRIMITIVE_ALL_MASK = 0
  atoms : sequence.Over XmlAtom

def XmlSubtype.data (d : XmlSubtype) : ProperSubtypeData := .xml d.primitives d.sequence

/-- The sequence belongs to the subtype. -/
def XmlHas (primitives : BitVec 64) (sequence : Bdd) : List XmlItem → Prop
  | [] => primitives.getLsbD 0 = true
  | [i] => primitives.getLsbD i.bit = true
  | i :: j :: l => sequence.holds (XmlContains (i :: j :: l))

def XmlSubtype.den (d : XmlSubtype) : Set (List XmlItem) := {l | XmlHas d.primitives d.sequence l}

/-- The subtype data is xml data, and `s` is its set. -/
inductive XmlDenotes : SubtypeData → Set (List XmlItem) → Prop
  | bool (b : Bool) : XmlDenotes (.bool b) {_l | b = true}
  | proper (d : XmlSubtype) : XmlDenotes (.proper d.data) d.den

/-! ## Bits -/

theorem mask_iff (bits mask : BitVec 64) :
    bits &&& ~~~mask = 0 ↔ ∀ k, bits.getLsbD k = true → mask.getLsbD k = true := by
  constructor
  · intro h k hk
    have hlt := BitVec.lt_of_getLsbD hk
    have hbit := congrArg (BitVec.getLsbD · k) h
    simp only [BitVec.getLsbD_and, hk, BitVec.getLsbD_not, decide_eq_true hlt, Bool.true_and] at hbit
    cases hmask : mask.getLsbD k with
    | true => rfl
    | false =>
      rw [hmask] at hbit
      simp at hbit
  · intro h
    refine BitVec.eq_of_getLsbD_eq fun k hk => ?_
    cases hbit : bits.getLsbD k with
    | true => simp [hbit, h k hbit]
    | false => simp [hbit]

/-- The bits of the items are those of `XML_PRIMITIVE_SINGLETON`. -/
theorem singleton_bit (k : Nat) : XML_PRIMITIVE_SINGLETON.getLsbD k = true ↔ ∃ i : XmlItem, i.bit = k := by
  constructor
  · intro h
    have hlt := BitVec.lt_of_getLsbD h
    have hall : ∀ k : Fin 64, XML_PRIMITIVE_SINGLETON.getLsbD k.val = true →
        k.val = 1 ∨ k.val = 2 ∨ k.val = 3 ∨ k.val = 4 ∨ k.val = 5 ∨ k.val = 6 ∨ k.val = 7 := by decide
    rcases hall ⟨k, hlt⟩ h with h | h | h | h | h | h | h
    · exact ⟨.text, h.symm⟩
    · exact ⟨.elementRo, h.symm⟩
    · exact ⟨.piRo, h.symm⟩
    · exact ⟨.commentRo, h.symm⟩
    · exact ⟨.elementRw, h.symm⟩
    · exact ⟨.piRw, h.symm⟩
    · exact ⟨.commentRw, h.symm⟩
  · rintro ⟨i, rfl⟩
    cases i <;> decide

theorem all_bit (k : Nat) :
    XML_PRIMITIVE_ALL_MASK.getLsbD k = true ↔ k = 0 ∨ ∃ i : XmlItem, i.bit = k := by
  have hmask : XML_PRIMITIVE_ALL_MASK = XML_PRIMITIVE_NEVER ||| XML_PRIMITIVE_SINGLETON := by decide
  have hnever : ∀ k : Nat, XML_PRIMITIVE_NEVER.getLsbD k = true ↔ k = 0 := by
    intro k
    show (1#64).getLsbD k = true ↔ k = 0
    simp
  rw [hmask, BitVec.getLsbD_or, Bool.or_eq_true, hnever, singleton_bit]

/-- Items that are among some bits exist if there are bits. -/
theorem exists_item {bits : BitVec 64} (hmask : bits &&& ~~~XML_PRIMITIVE_SINGLETON = 0) (h : bits ≠ 0) :
    ∃ i : XmlItem, bits.getLsbD i.bit = true := by
  by_contra hnone
  refine h (BitVec.eq_of_getLsbD_eq fun k hk => ?_)
  cases hbit : bits.getLsbD k with
  | false => simp
  | true =>
    obtain ⟨i, hi⟩ := (singleton_bit k).mp ((mask_iff _ _).mp hmask k hbit)
    exact absurd ⟨i, by rw [hi]; exact hbit⟩ hnone

/-! ## Atoms -/

/-- The bits of an atom. -/
def atomBits (atom : Atom) : BitVec 64 := BitVec.ofInt 64 ((atomInt atom).getD 0)

theorem XmlAtom.spec {atom : Atom} (h : XmlAtom atom) :
    (∃ n, atomInt atom = some n ∧ BitVec.ofInt 64 n = atomBits atom) ∧
    atomBits atom &&& ~~~XML_PRIMITIVE_SINGLETON = 0 ∧
    ∀ l, XmlContains l atom ↔ ItemsIn (atomBits atom) l := by
  obtain ⟨bits, hmask, rfl⟩ := h
  have hbits : atomBits (.recAtom bits.toNat) = bits := by
    show BitVec.ofInt 64 (bits.toNat : Int) = bits
    rw [BitVec.ofInt_natCast, BitVec.ofNat_toNat, BitVec.setWidth_eq]
  refine ⟨⟨_, rfl, rfl⟩, hbits.symm ▸ hmask, fun l => ⟨?_, fun hl => ⟨_, rfl, hl⟩⟩⟩
  rintro ⟨n, hn, hl⟩
  cases hn
  exact hl

/-- Atoms of the same index have the same sequences. -/
theorem atomsByIndex_xmlContains (l : List XmlItem) : AtomsByIndex (XmlContains l) := by
  intro a b hcmp
  cases a with
  | recAtom i =>
    cases b with
    | recAtom j =>
      have heq : i = j := Int.sub_eq_zero.mp hcmp
      rw [heq]
    | typeAtom j t => cases hcmp
  | typeAtom i t =>
    cases b with
    | recAtom j => cases hcmp
    | typeAtom j t' =>
      refine iff_of_false ?_ ?_
      · rintro ⟨n, hn, _⟩
        cases hn
      · rintro ⟨n, hn, _⟩
        cases hn

/-! ## The operations -/

section Operations

variable [BddIdentity]

theorem xmlHas_union (p1 p2 : BitVec 64) (s1 s2 : Bdd) (l : List XmlItem) :
    XmlHas (p1 ||| p2) (bddUnion s1 s2) l ↔ XmlHas p1 s1 l ∨ XmlHas p2 s2 l := by
  rcases l with _ | ⟨i, _ | ⟨j, l⟩⟩
  · show (p1 ||| p2).getLsbD 0 = true ↔ p1.getLsbD 0 = true ∨ p2.getLsbD 0 = true
    rw [BitVec.getLsbD_or, Bool.or_eq_true]
  · show (p1 ||| p2).getLsbD i.bit = true ↔ p1.getLsbD i.bit = true ∨ p2.getLsbD i.bit = true
    rw [BitVec.getLsbD_or, Bool.or_eq_true]
  · exact holds_bddUnion (atomsByIndex_xmlContains _) s1 s2

theorem xmlHas_intersect (p1 p2 : BitVec 64) (s1 s2 : Bdd) (l : List XmlItem) :
    XmlHas (p1 &&& p2) (bddIntersect s1 s2) l ↔ XmlHas p1 s1 l ∧ XmlHas p2 s2 l := by
  rcases l with _ | ⟨i, _ | ⟨j, l⟩⟩
  · show (p1 &&& p2).getLsbD 0 = true ↔ p1.getLsbD 0 = true ∧ p2.getLsbD 0 = true
    rw [BitVec.getLsbD_and, Bool.and_eq_true]
  · show (p1 &&& p2).getLsbD i.bit = true ↔ p1.getLsbD i.bit = true ∧ p2.getLsbD i.bit = true
    rw [BitVec.getLsbD_and, Bool.and_eq_true]
  · exact holds_bddIntersect (atomsByIndex_xmlContains _) s1 s2

omit [BddIdentity] in
theorem getLsbD_diff (p1 p2 : BitVec 64) (k : Nat) :
    (p1 &&& ~~~p2).getLsbD k = true ↔ p1.getLsbD k = true ∧ ¬ p2.getLsbD k = true := by
  rw [BitVec.getLsbD_and, Bool.and_eq_true, BitVec.getLsbD_not]
  refine and_congr_right fun h => ?_
  have hlt := BitVec.lt_of_getLsbD h
  rw [decide_eq_true hlt, Bool.true_and, Bool.not_eq_true', Bool.not_eq_true]

theorem xmlHas_diff (p1 p2 : BitVec 64) (s1 s2 : Bdd) (l : List XmlItem) :
    XmlHas (p1 &&& ~~~p2) (bddDiff s1 s2) l ↔ XmlHas p1 s1 l ∧ ¬ XmlHas p2 s2 l := by
  rcases l with _ | ⟨i, _ | ⟨j, l⟩⟩
  · exact getLsbD_diff p1 p2 0
  · exact getLsbD_diff p1 p2 i.bit
  · exact holds_bddDiff (atomsByIndex_xmlContains _) s1 s2

omit [BddIdentity] in
theorem createXmlSubtypeOrEmpty_denotes {p : BitVec 64} {b : Bdd} {s : Set (List XmlItem)}
    (hmask : p &&& ~~~XML_PRIMITIVE_ALL_MASK = 0) (hatoms : b.Over XmlAtom)
    (hs : ∀ l, XmlHas p b l ↔ l ∈ s) : XmlDenotes (createXmlSubtypeOrEmpty p b) s := by
  unfold createXmlSubtypeOrEmpty
  split
  next h =>
    have hset : s = {_l | false = true} := by
      ext l
      rw [← hs, h.1, h.2]
      refine iff_of_false ?_ (by simp)
      rcases l with _ | ⟨i, _ | ⟨j, l⟩⟩
      · show ¬ (0 : BitVec 64).getLsbD 0 = true
        simp
      · show ¬ (0 : BitVec 64).getLsbD i.bit = true
        simp
      · exact (Bdd.holds_false (XmlContains (i :: j :: l))).mp
    rw [hset]
    exact .bool false
  next =>
    have hset : s = XmlSubtype.den ⟨p, b, hmask, hatoms⟩ := by
      ext l
      exact (hs l).symm
    rw [hset]
    exact .proper ⟨p, b, hmask, hatoms⟩

omit [BddIdentity] in
theorem xmlHas_top (l : List XmlItem) : XmlHas XML_PRIMITIVE_ALL_MASK (.leaf true) l := by
  rcases l with _ | ⟨i, _ | ⟨j, l⟩⟩
  · exact (all_bit 0).mpr (.inl rfl)
  · exact (all_bit i.bit).mpr (.inr ⟨i, rfl⟩)
  · exact (Bdd.holds_true (XmlContains (i :: j :: l))).mpr trivial

omit [BddIdentity] in
theorem createXmlSubtype_denotes {p : BitVec 64} {b : Bdd} {s : Set (List XmlItem)}
    (hmask : p &&& ~~~XML_PRIMITIVE_ALL_MASK = 0) (hatoms : b.Over XmlAtom)
    (hs : ∀ l, XmlHas p b l ↔ l ∈ s) : XmlDenotes (createXmlSubtype p b) s := by
  have hsame : p &&& XML_PRIMITIVE_ALL_MASK = p := by
    refine BitVec.eq_of_getLsbD_eq fun k hk => ?_
    cases hbit : p.getLsbD k with
    | false => simp [hbit]
    | true => simp [hbit, (mask_iff _ _).mp hmask k hbit]
  unfold createXmlSubtype
  dsimp only
  rw [hsame]
  split
  next h =>
    have hset : s = {_l | true = true} := by
      ext l
      rw [← hs, h.1, h.2]
      exact iff_of_true (xmlHas_top l) rfl
    rw [hset]
    exact .bool true
  next => exact createXmlSubtypeOrEmpty_denotes hmask hatoms hs

theorem xmlSubtypeUnion_denotes (d1 d2 : XmlSubtype) :
    ∃ r, xmlSubtypeUnion d1.data d2.data = some r ∧ XmlDenotes r (d1.den ∪ d2.den) := by
  have hmask : (d1.primitives ||| d2.primitives) &&& ~~~XML_PRIMITIVE_ALL_MASK = 0 := by
    rw [mask_iff]
    intro k hk
    rw [BitVec.getLsbD_or, Bool.or_eq_true] at hk
    exact hk.elim ((mask_iff _ _).mp d1.primitives_mask k) ((mask_iff _ _).mp d2.primitives_mask k)
  exact ⟨_, rfl, createXmlSubtype_denotes hmask (d1.atoms.union d2.atoms) (xmlHas_union _ _ _ _)⟩

theorem xmlSubtypeIntersect_denotes (d1 d2 : XmlSubtype) :
    ∃ r, xmlSubtypeIntersect d1.data d2.data = some r ∧ XmlDenotes r (d1.den ∩ d2.den) := by
  have hmask : (d1.primitives &&& d2.primitives) &&& ~~~XML_PRIMITIVE_ALL_MASK = 0 := by
    rw [mask_iff]
    intro k hk
    rw [BitVec.getLsbD_and, Bool.and_eq_true] at hk
    exact (mask_iff _ _).mp d1.primitives_mask k hk.1
  exact ⟨_, rfl, createXmlSubtypeOrEmpty_denotes hmask (d1.atoms.intersect d2.atoms)
    (xmlHas_intersect _ _ _ _)⟩

theorem xmlSubtypeDiff_denotes (d1 d2 : XmlSubtype) :
    ∃ r, xmlSubtypeDiff d1.data d2.data = some r ∧ XmlDenotes r (d1.den \ d2.den) := by
  have hmask : (d1.primitives &&& ~~~d2.primitives) &&& ~~~XML_PRIMITIVE_ALL_MASK = 0 := by
    rw [mask_iff]
    intro k hk
    exact (mask_iff _ _).mp d1.primitives_mask k ((getLsbD_diff _ _ k).mp hk).1
  exact ⟨_, rfl, createXmlSubtypeOrEmpty_denotes hmask (d1.atoms.diff d2.atoms) (xmlHas_diff _ _ _ _)⟩

/-- `XML_SUBTYPE_TOP` -/
def XmlSubtype.top : XmlSubtype where
  primitives := XML_PRIMITIVE_ALL_MASK
  sequence := .leaf true
  primitives_mask := by decide
  atoms := trivial

theorem xmlSubtypeComplement_denotes (d : XmlSubtype) :
    ∃ r, xmlSubtypeComplement d.data = some r ∧ XmlDenotes r d.denᶜ := by
  have htop : XmlSubtype.top.den \ d.den = d.denᶜ := by
    ext l
    exact and_iff_right (xmlHas_top l)
  obtain ⟨r, hr, hden⟩ := xmlSubtypeDiff_denotes XmlSubtype.top d
  exact ⟨r, hr, htop ▸ hden⟩

end Operations

/-! ## Emptiness -/

/-- The items that all atoms of the conjunction allow. -/
def commonItems : List Atom → BitVec 64
  | [] => XML_PRIMITIVE_SINGLETON
  | atom :: pos => atomBits atom &&& commonItems pos

/-- A path has no sequences: no item is allowed, or one of the negative atoms allows all of them. -/
def PathEmpty (pos neg : List Atom) : Prop :=
  commonItems pos = 0 ∨ ∃ atom ∈ neg, commonItems pos &&& ~~~atomBits atom = 0

theorem commonItems_bit (k : Nat) : ∀ pos : List Atom, (commonItems pos).getLsbD k = true ↔
    XML_PRIMITIVE_SINGLETON.getLsbD k = true ∧ ∀ atom ∈ pos, (atomBits atom).getLsbD k = true
  | [] => by
    show XML_PRIMITIVE_SINGLETON.getLsbD k = true ↔ _
    simp
  | atom :: pos => by
    unfold commonItems
    rw [BitVec.getLsbD_and, Bool.and_eq_true, commonItems_bit k pos, List.forall_mem_cons]
    tauto

/-- The sequences of a path. -/
theorem itemsIn_commonItems {pos : List Atom} (hpos : ∀ a ∈ pos, XmlAtom a) (l : List XmlItem) :
    ItemsIn (commonItems pos) l ↔ ∀ a ∈ pos, XmlContains l a := by
  constructor
  · intro h a ha
    refine ((hpos a ha).spec.2.2 l).mpr fun i hi => ?_
    exact ((commonItems_bit _ pos).mp (h i hi)).2 a ha
  · intro h i hi
    refine (commonItems_bit _ pos).mpr ⟨(singleton_bit _).mpr ⟨i, rfl⟩, fun a ha => ?_⟩
    exact ((hpos a ha).spec.2.2 l).mp (h a ha) i hi

/-- Items that show for each of the atoms that it does not allow all the bits. -/
theorem exists_avoiding {bits : BitVec 64} (hmask : bits &&& ~~~XML_PRIMITIVE_SINGLETON = 0) :
    ∀ neg : List Atom, (∀ a ∈ neg, bits &&& ~~~atomBits a ≠ 0) →
      ∃ l, ItemsIn bits l ∧ ∀ a ∈ neg, ¬ ItemsIn (atomBits a) l
  | [], _ => ⟨[], fun i hi => absurd hi List.not_mem_nil, fun a ha => absurd ha List.not_mem_nil⟩
  | atom :: neg, h => by
    obtain ⟨hatom, hneg⟩ := List.forall_mem_cons.mp h
    obtain ⟨l, hl, havoid⟩ := exists_avoiding hmask neg hneg
    have hmask' : (bits &&& ~~~atomBits atom) &&& ~~~XML_PRIMITIVE_SINGLETON = 0 := by
      rw [mask_iff]
      intro k hk
      exact (mask_iff _ _).mp hmask k ((getLsbD_diff _ _ k).mp hk).1
    obtain ⟨i, hi⟩ := exists_item hmask' hatom
    obtain ⟨hbits, hnot⟩ := (getLsbD_diff _ _ _).mp hi
    refine ⟨i :: l, List.forall_mem_cons.mpr ⟨hbits, hl⟩, List.forall_mem_cons.mpr ⟨?_, ?_⟩⟩
    · exact fun hall => hnot (hall i (.head _))
    · exact fun a ha hall => havoid a ha fun j hj => hall j (.tail _ hj)

/-- A sequence of two or more items. -/
abbrev XmlSequence := {l : List XmlItem // 2 ≤ l.length}

theorem pathEmpty_iff {pos neg : List Atom} (hpos : ∀ a ∈ pos, XmlAtom a) (hneg : ∀ a ∈ neg, XmlAtom a) :
    (∀ l : XmlSequence, (∀ a ∈ pos, XmlContains l.1 a) → ¬ ∀ a ∈ neg, ¬ XmlContains l.1 a) ↔
      PathEmpty pos neg := by
  have hmask : commonItems pos &&& ~~~XML_PRIMITIVE_SINGLETON = 0 := by
    rw [mask_iff]
    exact fun k hk => ((commonItems_bit k pos).mp hk).1
  constructor
  · intro h
    by_contra hne
    obtain ⟨hitems, hcover⟩ := not_or.mp hne
    obtain ⟨i, hi⟩ := exists_item hmask hitems
    obtain ⟨l, hl, havoid⟩ := exists_avoiding hmask neg fun a ha heq => hcover ⟨a, ha, heq⟩
    -- an item is repeated, for the length
    have hall : ItemsIn (commonItems pos) (i :: i :: l) := by
      intro j hj
      rcases List.mem_cons.mp hj with rfl | hj
      · exact hi
      rcases List.mem_cons.mp hj with rfl | hj
      · exact hi
      exact hl j hj
    refine h ⟨i :: i :: l, Nat.le_add_left 2 l.length⟩ ((itemsIn_commonItems hpos _).mp hall) ?_
    intro a ha hcontains
    refine havoid a ha fun j hj => ?_
    exact ((hneg a ha).spec.2.2 _).mp hcontains j (.tail _ (.tail _ hj))
  · rintro h ⟨l, hlength⟩ hl havoid
    have hitems := (itemsIn_commonItems hpos l).mpr hl
    rcases h with hzero | ⟨a, ha, hcover⟩
    · rcases l with _ | ⟨i, l⟩
      · cases hlength
      have hbit := hitems i (.head _)
      rw [hzero] at hbit
      simp at hbit
    · refine havoid a ha (((hneg a ha).spec.2.2 l).mpr fun i hi => ?_)
      exact (mask_iff _ _).mp hcover _ (hitems i hi)

theorem xmlCollectAllPrimitives_spec : ∀ (pos : List Atom) (bits : BitVec 64), (∀ a ∈ pos, XmlAtom a) →
    ∃ b, xmlCollectAllPrimitives pos bits = some b ∧ ∀ k, b.getLsbD k = true ↔
      bits.getLsbD k = true ∧ ∀ a ∈ pos, (atomBits a).getLsbD k = true
  | [], bits, _ => ⟨bits, rfl, fun k => by simp⟩
  | atom :: pos, bits, h => by
    obtain ⟨hatom, hpos⟩ := List.forall_mem_cons.mp h
    obtain ⟨⟨n, hn, hbits⟩, _⟩ := hatom.spec
    obtain ⟨b, hb, hiff⟩ := xmlCollectAllPrimitives_spec pos (bits &&& atomBits atom) hpos
    refine ⟨b, ?_, fun k => ?_⟩
    · unfold xmlCollectAllPrimitives
      rw [hn, ← hb, ← hbits]
      rfl
    · rw [hiff k, BitVec.getLsbD_and, Bool.and_eq_true, List.forall_mem_cons]
      tauto

theorem xmlHasTotalNegative_spec (allBits : BitVec 64) : ∀ neg : List Atom, (∀ a ∈ neg, XmlAtom a) →
    ∃ r, xmlHasTotalNegative allBits neg = some r ∧
      (r = true ↔ ∃ a ∈ neg, allBits &&& ~~~atomBits a = 0)
  | [], _ => ⟨false, rfl, by simp⟩
  | atom :: neg, h => by
    obtain ⟨hatom, hneg⟩ := List.forall_mem_cons.mp h
    obtain ⟨⟨n, hn, hbits⟩, _⟩ := hatom.spec
    obtain ⟨r, hr, hiff⟩ := xmlHasTotalNegative_spec allBits neg hneg
    have hstep : xmlHasTotalNegative allBits (atom :: neg) =
        if allBits &&& ~~~atomBits atom = 0 then some true else xmlHasTotalNegative allBits neg := by
      rw [xmlHasTotalNegative, hn, ← hbits]
      rfl
    rw [hstep]
    by_cases hcover : allBits &&& ~~~atomBits atom = 0
    · rw [if_pos hcover]
      exact ⟨true, rfl, iff_of_true rfl ⟨atom, .head _, hcover⟩⟩
    · rw [if_neg hcover]
      refine ⟨r, hr, hiff.trans ⟨fun ⟨a, ha, hz⟩ => ⟨a, .tail _ ha, hz⟩, ?_⟩⟩
      rintro ⟨a, ha, hz⟩
      rcases List.mem_cons.mp ha with rfl | ha
      · exact absurd hz hcover
      · exact ⟨a, ha, hz⟩

/-- A path is looked at only if it has a positive atom. -/
theorem xmlFormulaIsEmpty_spec {pos neg : List Atom} (hpos : ∀ a ∈ pos, XmlAtom a)
    (hneg : ∀ a ∈ neg, XmlAtom a) :
    ∃ r, xmlFormulaIsEmpty pos neg = .pure r ∧ (r = true ↔ (pos ≠ [] → PathEmpty pos neg)) := by
  cases pos with
  | nil => exact ⟨true, rfl, iff_of_true rfl fun h => absurd rfl h⟩
  | cons atom pos =>
    obtain ⟨b, hb, hbits⟩ := xmlCollectAllPrimitives_spec (atom :: pos) XML_PRIMITIVE_ALL_MASK hpos
    -- the bit of the empty sequence is in no atom
    have hcommon : b &&& XML_PRIMITIVE_ALL_MASK = commonItems (atom :: pos) := by
      refine BitVec.eq_of_getLsbD_eq fun k _ => Bool.eq_iff_iff.mpr ?_
      rw [BitVec.getLsbD_and, Bool.and_eq_true, hbits, commonItems_bit]
      have hsingle : (∀ a ∈ atom :: pos, (atomBits a).getLsbD k = true) →
          XML_PRIMITIVE_SINGLETON.getLsbD k = true := fun h =>
        (mask_iff _ _).mp (hpos atom (.head _)).spec.2.1 k (h atom (.head _))
      have hall : XML_PRIMITIVE_SINGLETON.getLsbD k = true → XML_PRIMITIVE_ALL_MASK.getLsbD k = true :=
        fun h => (all_bit k).mpr (.inr ((singleton_bit k).mp h))
      tauto
    obtain ⟨r, hr, hiff⟩ := xmlHasTotalNegative_spec (commonItems (atom :: pos)) neg hneg
    have hstep : xmlFormulaIsEmpty (atom :: pos) neg = if commonItems (atom :: pos) = 0 then .pure true
        else cast (xmlHasTotalNegative (commonItems (atom :: pos)) neg) := by
      show (cast (xmlCollectAllPrimitives (atom :: pos) XML_PRIMITIVE_ALL_MASK)).bind _ = _
      rw [hb, ← hcommon]
      rfl
    rw [hstep]
    by_cases hzero : commonItems (atom :: pos) = 0
    · rw [if_pos hzero]
      exact ⟨true, rfl, iff_of_true rfl fun _ => .inl hzero⟩
    · rw [if_neg hzero, hr]
      refine ⟨r, rfl, hiff.trans ⟨fun h _ => .inr h, fun h => ?_⟩⟩
      exact (h (List.cons_ne_nil _ _)).resolve_left hzero

/-- The subtype is empty if it has no primitives and no path has sequences. -/
theorem den_eq_empty_iff (d : XmlSubtype) :
    d.den = ∅ ↔ d.primitives = 0 ∧ d.sequence.EveryPath PathEmpty [] [] := by
  have hnil : ∀ a ∈ ([] : List Atom), XmlAtom a := fun a ha => absurd ha List.not_mem_nil
  have hpaths : d.sequence.EveryPath PathEmpty [] [] ↔
      ∀ l : XmlSequence, ¬ d.sequence.holds (XmlContains l.1) := by
    have hiff := ((d.atoms.everyPath hnil hnil).imp fun pos neg h => pathEmpty_iff h.1 h.2).iff
    rw [← hiff, Bdd.everyPath_empty_iff]
    exact ⟨fun h l => h l (fun a ha => absurd ha List.not_mem_nil) fun a ha => absurd ha List.not_mem_nil,
      fun h l _ _ => h l⟩
  rw [hpaths, Set.eq_empty_iff_forall_notMem]
  constructor
  · intro h
    refine ⟨BitVec.eq_of_getLsbD_eq fun k _ => ?_, ?_⟩
    · cases hbit : d.primitives.getLsbD k with
      | false => simp
      | true =>
        rcases (all_bit k).mp ((mask_iff _ _).mp d.primitives_mask k hbit) with rfl | ⟨i, rfl⟩
        · exact absurd hbit (h [])
        · exact absurd hbit (h [i])
    · rintro ⟨l, hlength⟩
      rcases l with _ | ⟨i, _ | ⟨j, l⟩⟩
      · cases hlength
      · exact absurd hlength (by simp)
      · exact h (i :: j :: l)
  · rintro ⟨hzero, hseq⟩ l hl
    rcases l with _ | ⟨i, _ | ⟨j, l⟩⟩
    · have hbit : d.primitives.getLsbD 0 = true := hl
      rw [hzero] at hbit
      simp at hbit
    · have hbit : d.primitives.getLsbD i.bit = true := hl
      rw [hzero] at hbit
      simp at hbit
    · exact hseq ⟨i :: j :: l, Nat.le_add_left 2 l.length⟩ hl

theorem xmlSubtypeIsEmpty_spec (d : XmlSubtype) :
    ∃ r, xmlSubtypeIsEmpty d.data = .pure r ∧ (r = true ↔ d.primitives = 0 ∧
      d.sequence.EveryPath (fun pos neg => pos ≠ [] → PathEmpty pos neg) [] []) := by
  have hnil : ∀ a ∈ ([] : List Atom), XmlAtom a := fun a ha => absurd ha List.not_mem_nil
  obtain ⟨r, hr, hiff⟩ := bddEvery_pure (fun pos neg => xmlFormulaIsEmpty_spec) d.sequence [] [] d.atoms
    hnil hnil
  show ∃ r, (if d.primitives ≠ 0 then .pure false else bddEvery xmlFormulaIsEmpty d.sequence [] []) =
    .pure r ∧ _
  by_cases hzero : d.primitives = 0
  · rw [if_neg (not_not_intro hzero)]
    exact ⟨r, hr, hiff.trans (and_iff_right hzero).symm⟩
  · rw [if_pos hzero]
    exact ⟨false, rfl, iff_of_false (by simp) fun h => hzero h.1⟩

/-- The emptiness test finds a value, or there is none on the paths without positive atoms. -/
def XmlSubtype.PathsSeen (d : XmlSubtype) : Prop :=
  d.primitives ≠ 0 ∨
  ¬ d.sequence.EveryPath (fun pos neg => pos ≠ [] → PathEmpty pos neg) [] [] ∨
  d.sequence.EveryPath (fun pos neg => pos = [] →
    ∃ atom ∈ neg, XML_PRIMITIVE_SINGLETON &&& ~~~atomBits atom = 0) [] []

/-- The operations on xml subtypes are those on their sets. The emptiness test is right for the subtypes
with a primitive, those with values on a path with a positive atom, and those where each path without
positive atoms has a negative one that allows every item. -/
theorem xmlOps_right_iff [BddIdentity] :
    (∀ d1 d2 : XmlSubtype,
      (∃ r, xmlSubtypeUnion d1.data d2.data = some r ∧ XmlDenotes r (d1.den ∪ d2.den)) ∧
      (∃ r, xmlSubtypeIntersect d1.data d2.data = some r ∧ XmlDenotes r (d1.den ∩ d2.den)) ∧
      (∃ r, xmlSubtypeDiff d1.data d2.data = some r ∧ XmlDenotes r (d1.den \ d2.den)) ∧
      (∃ r, xmlSubtypeComplement d1.data = some r ∧ XmlDenotes r d1.denᶜ)) ∧
    ∀ d : XmlSubtype, ∃ r, xmlSubtypeIsEmpty d.data = .pure r ∧
      ((r = true ↔ d.den = ∅) ↔ d.PathsSeen) := by
  refine ⟨fun d1 d2 => ⟨xmlSubtypeUnion_denotes d1 d2, xmlSubtypeIntersect_denotes d1 d2,
    xmlSubtypeDiff_denotes d1 d2, xmlSubtypeComplement_denotes d1⟩, fun d => ?_⟩
  obtain ⟨r, hr, hiff⟩ := xmlSubtypeIsEmpty_spec d
  refine ⟨r, hr, ?_⟩
  have hsplit : d.sequence.EveryPath PathEmpty [] [] ↔
      d.sequence.EveryPath (fun pos neg => pos ≠ [] → PathEmpty pos neg) [] [] ∧
      d.sequence.EveryPath (fun pos neg => pos = [] →
        ∃ atom ∈ neg, XML_PRIMITIVE_SINGLETON &&& ~~~atomBits atom = 0) [] [] := by
    rw [← Bdd.everyPath_and]
    have hnil : ∀ a ∈ ([] : List Atom), XmlAtom a := fun a ha => absurd ha List.not_mem_nil
    refine ((d.atoms.everyPath hnil hnil).imp fun pos neg _ => ?_).iff
    have hne : XML_PRIMITIVE_SINGLETON ≠ 0 := by decide
    cases pos with
    | nil => exact ⟨fun h => ⟨fun hnil => absurd rfl hnil, fun _ => h.resolve_left hne⟩, fun h => .inr (h.2 rfl)⟩
    | cons atom pos => simp
  unfold XmlSubtype.PathsSeen
  rw [hiff, den_eq_empty_iff, hsplit]
  tauto

/-- The xml values that are neither a text nor one of the other items: sequences with an element and a
comment, for example. The test takes them to be empty. -/
theorem not_isEmpty_right_items :
    let _ := BddIdentity.shared
    let element := ProperSubtypeData.xml (XML_PRIMITIVE_ELEMENT_RO ||| XML_PRIMITIVE_ELEMENT_RW) (.leaf false)
    let comment := ProperSubtypeData.xml (XML_PRIMITIVE_COMMENT_RO ||| XML_PRIMITIVE_COMMENT_RW) (.leaf false)
    let pi := ProperSubtypeData.xml (XML_PRIMITIVE_PI_RO ||| XML_PRIMITIVE_PI_RW) (.leaf false)
    ∃ text u1 u2 u3 d, makeXmlSequence XML_PRIMITIVE_TEXT (.leaf false) = .proper text ∧
      xmlSubtypeUnion element comment = some (.proper u1) ∧
      xmlSubtypeUnion u1 pi = some (.proper u2) ∧
      xmlSubtypeUnion u2 text = some (.proper u3) ∧
      xmlSubtypeComplement u3 = some (.proper (XmlSubtype.data d)) ∧
      xmlSubtypeIsEmpty d.data = .pure true ∧ [.elementRo, .commentRo] ∈ d.den := by
  intro _ element comment pi
  have hatom : (Bdd.node (.recAtom (XML_PRIMITIVE_TEXT.toNat : Int)) (.leaf false) (.leaf false)
      (.leaf true)).Over XmlAtom := ⟨⟨XML_PRIMITIVE_TEXT, by decide, rfl⟩, trivial, trivial, trivial⟩
  refine ⟨_, _, _, _, ⟨0, _, by decide, hatom⟩, rfl, rfl, rfl, rfl, rfl, rfl, ?_⟩
  refine (Bdd.holds_node _ _ _ _).mpr (.inr (.inr ⟨?_, rfl⟩))
  rintro ⟨n, hn, hitems⟩
  cases hn
  have hnot : ¬ (BitVec.ofInt 64 (XML_PRIMITIVE_TEXT.toNat : Int)).getLsbD XmlItem.elementRo.bit = true := by
    decide
  exact hnot (hitems .elementRo (.head _))

end Nballerina.Types
