import Mathlib.Data.Set.Basic
import Mathlib.Data.List.Sort
import Mathlib.Data.Fintype.Basic
import Nballerina.Types.Ops

/-!
# Exactness of union, intersection and difference

`denote t c` is the part of the basic type `c` that the semtype `t` contains.
The operations of the basic types are taken as exact (`ExactOps`); the question
is whether the bit arithmetic, the pair iterator and the shortcuts of `core.bal`
put their results together correctly.

A well-formed semtype is a bit set `all` together with a list of subtype data
sorted by code (`Rep`), and the data at a code is then a lookup (`dataAt`). The
three loops are one loop (`mergeLoop`) over the three functions `unionData`,
`intersectData`, `diffData`, so the argument is made once and finished by a case
distinction on the four bits of a code.

The general path is right for every operation. The shortcut for an operand
`VT_MASK` is not: `VT_MASK` has no bit for `BT_CELL` and `BT_UNDEF`, so
`intersect(VAL, t)` keeps and `diff(t, VAL)` loses what `t` has there.
-/

namespace Nballerina.Types

variable {δ : Type}

/-! ## Bits -/

theorem basicType_eq_twoPow (c : BasicTypeCode) : basicType c = BitVec.twoPow 32 c.val := rfl

theorem code_lt_width (c : BasicTypeCode) : c.val < 32 := by omega

@[simp] theorem getLsbD_basicType (c d : BasicTypeCode) :
    (basicType c).getLsbD d.val = decide (c = d) := by
  have := code_lt_width c
  have := code_lt_width d
  simp only [basicType_eq_twoPow, BitVec.getLsbD_twoPow, Fin.ext_iff]
  by_cases h : c.val = d.val <;> simp [h, code_lt_width]

theorem and_basicType_eq_zero (b : BasicTypeBitSet) (c : BasicTypeCode) :
    b &&& basicType c = 0 ↔ b.getLsbD c.val = false := by
  rw [basicType_eq_twoPow, BitVec.and_twoPow]
  cases h : b.getLsbD c.val with
  | false => simp
  | true =>
    simp only [if_true, Bool.true_eq_false, iff_false]
    intro h0
    have := congrArg (fun x : BitVec 32 => x.getLsbD c.val) h0
    simp [code_lt_width c] at this

@[simp] theorem and_basicType_bne_zero (b : BasicTypeBitSet) (c : BasicTypeCode) :
    (b &&& basicType c != 0#32) = b.getLsbD c.val := by
  cases h : b.getLsbD c.val with
  | false => simpa using (and_basicType_eq_zero b c).mpr h
  | true =>
    have : b &&& basicType c ≠ 0 := fun h0 => by
      rw [and_basicType_eq_zero, h] at h0
      exact absurd h0 (by simp)
    simpa using this

theorem getLsbD_not_code (b : BasicTypeBitSet) (c : BasicTypeCode) :
    (~~~b).getLsbD c.val = !b.getLsbD c.val := by
  simp [code_lt_width c]

/-- The basic types of a bit set, by increasing code. -/
def codesOf (bits : BasicTypeBitSet) : List BasicTypeCode :=
  (List.finRange 19).filter fun c => bits.getLsbD c.val

variable {t : SemTypeOf δ} {c : BasicTypeCode} {all bits : BasicTypeBitSet}
  {L : List (BasicTypeCode × δ)}

@[simp] theorem mem_codesOf :
    c ∈ codesOf bits ↔ bits.getLsbD c.val = true := by
  simp [codesOf]

theorem codesOf_sorted (bits : BasicTypeBitSet) : (codesOf bits).Pairwise (· < ·) :=
  (List.pairwise_lt_finRange 19).filter _

theorem lowestBasicTypeCode_eq (bits : BasicTypeBitSet) :
    lowestBasicTypeCode bits = (codesOf bits).head? :=
  List.head?_filter.symm

/-- Clearing the lowest bit leaves the other codes. -/
theorem codesOf_xor {cs : List BasicTypeCode} (h : codesOf bits = c :: cs) :
    codesOf (bits ^^^ basicType c) = cs := by
  have hsort := codesOf_sorted bits
  rw [h] at hsort
  have hc : bits.getLsbD c.val = true := mem_codesOf.mp (h ▸ (.head _))
  have hfilter : codesOf (bits ^^^ basicType c) = (codesOf bits).filter (fun d => d ≠ c) := by
    simp only [codesOf, List.filter_filter]
    apply List.filter_congr
    intro d _
    by_cases hd : c = d
    · subst hd
      simp [hc]
    · simp [hd, Ne.symm hd]
  rw [hfilter, h, List.filter_cons_of_neg (by simp), List.filter_eq_self]
  intro d hd
  simpa using ne_of_gt ((List.pairwise_cons.mp hsort).1 d hd)

/-! ## Sorted lists of subtype data -/

/-- The data a list has for a code. -/
def lookupCode (L : List (BasicTypeCode × δ)) (c : BasicTypeCode) : Option δ :=
  (L.find? fun e => e.1 = c).map (·.2)

/-- Codes strictly increase. -/
def SortedCodes {β : Type} (L : List (BasicTypeCode × β)) : Prop :=
  L.Pairwise fun e1 e2 => e1.1 < e2.1

@[simp] theorem lookupCode_nil (c : BasicTypeCode) :
    lookupCode ([] : List (BasicTypeCode × δ)) c = none := rfl

theorem lookupCode_cons (e : BasicTypeCode × δ) (L : List (BasicTypeCode × δ))
    (c : BasicTypeCode) :
    lookupCode (e :: L) c = if e.1 = c then some e.2 else lookupCode L c := by
  unfold lookupCode
  by_cases h : e.1 = c <;> simp [h]

theorem lookupCode_eq_none :
    lookupCode L c = none ↔ ∀ e ∈ L, e.1 ≠ c := by
  simp [lookupCode]

theorem lookupCode_of_lt (h : ∀ e ∈ L, c < e.1) : lookupCode L c = none :=
  lookupCode_eq_none.mpr fun e he => ne_of_gt (h e he)

theorem lookupCode_eq_some (hs : SortedCodes L) {d : δ} : lookupCode L c = some d ↔ (c, d) ∈ L := by
  induction L with
  | nil => simp
  | cons e L ih =>
    obtain ⟨hlt, hs'⟩ := List.pairwise_cons.mp hs
    rw [lookupCode_cons, List.mem_cons]
    by_cases h : e.1 = c
    · have hnot : (c, d) ∉ L := fun hm => absurd (hlt _ hm) (by simp [h])
      rw [if_pos h]
      constructor
      · rintro ⟨rfl⟩
        exact .inl (by rw [← h])
      · rintro (rfl | hm)
        · rfl
        · exact absurd hm hnot
    · rw [if_neg h, ih hs']
      constructor
      · exact .inr
      · rintro (rfl | hm)
        · exact absurd rfl h
        · exact hm

/-- The data of a semtype given by `all` and a sorted list. -/
def dataAt (all : BasicTypeBitSet) (L : List (BasicTypeCode × δ)) (c : BasicTypeCode) :
    SubtypeDataOf δ :=
  if all.getLsbD c.val then .bool true
  else match lookupCode L c with
    | some d => .proper d
    | none => .bool false

/-- The `k`-th entry, for the number `k` of smaller codes. -/
theorem getElem?_of_sortedCodes : ∀ {L : List (BasicTypeCode × δ)}, SortedCodes L →
    ∀ {c : BasicTypeCode} {d : δ}, (c, d) ∈ L →
      L[(L.filter fun e => e.1 < c).length]? = some (c, d)
  | [], _, _, _, h => absurd h (by simp)
  | e :: L, hs, c, d, h => by
    obtain ⟨hlt, hs'⟩ := List.pairwise_cons.mp hs
    rcases List.mem_cons.mp h with rfl | hm
    · have hnone : (L.filter fun e => decide (e.1 < c)) = [] := by
        rw [List.filter_eq_nil_iff]
        intro e he
        have := hlt e he
        simp only [decide_eq_true_eq]
        exact not_lt.mpr this.le
      simp [hnone]
    · have hc : e.1 < c := hlt _ hm
      have := getElem?_of_sortedCodes hs' hm
      simp [hc, this]

/-! ## Well-formed semtypes -/

/-- The invariant documented at `ComplexSemType`: `all` and `some` are disjoint,
`some` has only codes of basic types, and there is one entry for each bit of it. -/
structure ComplexSemType.WF (t : ComplexSemType δ) : Prop where
  disjoint : t.all &&& t.some = 0
  codes : ∀ i, t.some.getLsbD i = true → i < 19
  length : t.subtypeDataList.length = (codesOf t.some).length

/-- A semtype that the rest of the module may build. -/
def SemTypeOf.WF : SemTypeOf δ → Prop
  | .bits _ => True
  | .complex c => c.WF

theorem unpackFrom_eq : ∀ (dataList : List δ) (bits : BasicTypeBitSet),
    dataList.length = (codesOf bits).length →
      unpackFrom bits dataList = some ((codesOf bits).zip dataList)
  | [], bits, _ => by simp [unpackFrom]
  | data :: dataList, bits, h => by
    cases hc : codesOf bits with
    | nil => simp [hc] at h
    | cons c cs =>
      have hxor := codesOf_xor hc
      have hlen : dataList.length = (codesOf (bits ^^^ basicType c)).length := by
        simpa [hc, hxor] using h
      simp [unpackFrom, lowestBasicTypeCode_eq, hc, unpackFrom_eq dataList _ hlen, hxor]

/-- `t` is the bit set `all` and the sorted data `L`. -/
structure Rep (t : SemTypeOf δ) (all : BasicTypeBitSet) (L : List (BasicTypeCode × δ)) :
    Prop where
  sorted : SortedCodes L
  disjoint : ∀ e ∈ L, all.getLsbD e.1.val = false
  unpack : subtypePairIterator.unpack t = some L
  data : ∀ c, subtypeData t c = some (dataAt all L c)

/-- The bits `all` of a semtype. -/
def SemTypeOf.allBits : SemTypeOf δ → BasicTypeBitSet
  | .bits b => b
  | .complex c => c.all

/-- The bits `some` of a semtype. -/
def SemTypeOf.someBits : SemTypeOf δ → BasicTypeBitSet
  | .bits _ => 0
  | .complex c => c.some

/-- The entries of a semtype, with their codes. -/
def SemTypeOf.entries : SemTypeOf δ → List (BasicTypeCode × δ)
  | .bits _ => []
  | .complex c => (codesOf c.some).zip c.subtypeDataList

theorem map_fst_entries {c : ComplexSemType δ} (h : c.WF) :
    ((codesOf c.some).zip c.subtypeDataList).map (·.1) = codesOf c.some :=
  List.map_fst_zip (by rw [h.length])

theorem sortedCodes_of_map {β : Type} {L : List (BasicTypeCode × β)}
    (h : (L.map (·.1)).Pairwise (· < ·)) : SortedCodes L :=
  List.pairwise_map.mp h

/-- The number of bits of `some` below a code is the number of smaller entries. -/
theorem bitCount_below {c : ComplexSemType δ} (h : c.WF) (code : BasicTypeCode) :
    bitCount (c.some &&& (basicType code - 1)) =
      (((codesOf c.some).zip c.subtypeDataList).filter fun e => e.1 < code).length := by
  have hmask : ∀ (k : BasicTypeCode) (i : Fin 32),
      (basicType k - 1).getLsbD i.val = decide (i.val < k.val) := by decide +kernel
  have hlow : bitCount (c.some &&& (basicType code - 1)) =
      ((codesOf c.some).filter fun e => e < code).length := by
    have hrange : (List.range 32).filter (fun i => (c.some &&& (basicType code - 1)).getLsbD i)
        = ((List.finRange 19).map (·.val)).filter
            (fun i => c.some.getLsbD i && decide (i < code.val)) := by
      have hsplit : List.range 32 = (List.finRange 19).map (·.val) ++ List.range' 19 13 := by
        decide
      rw [hsplit, List.filter_append]
      have htail : (List.range' 19 13).filter
          (fun i => (c.some &&& (basicType code - 1)).getLsbD i) = [] := by
        rw [List.filter_eq_nil_iff]
        intro i hi
        have hi' : 19 ≤ i := (List.mem_range'_1.mp hi).1
        simp only [BitVec.getLsbD_and, Bool.and_eq_true, not_and]
        intro hb
        exact absurd (h.codes i hb) (by omega)
      rw [htail, List.append_nil]
      apply List.filter_congr
      intro i hi
      obtain ⟨k, _, rfl⟩ := List.mem_map.mp hi
      have := hmask code ⟨k.val, code_lt_width k⟩
      simp only at this
      rw [BitVec.getLsbD_and, this]
    rw [bitCount, hrange, List.filter_map, List.length_map]
    congr 1
    simp only [codesOf, List.filter_filter]
    apply List.filter_congr
    intro k _
    simp [Bool.and_comm]
  have hmap := congrArg (fun l => (l.filter fun e => decide (e < code)).length) (map_fst_entries h)
  simp only [List.filter_map, List.length_map] at hmap
  rw [hlow, ← hmap]
  rfl

/-- A well-formed semtype is represented by its bits and entries. -/
theorem rep_of_wf (h : t.WF) : Rep t t.allBits t.entries := by
  cases t with
  | bits b =>
    refine ⟨List.Pairwise.nil, by simp [SemTypeOf.entries], rfl, ?_⟩
    intro c
    simp only [subtypeData, dataAt, SemTypeOf.allBits, SemTypeOf.entries, lookupCode_nil]
    by_cases hb : b.getLsbD c.val = true <;> simp [hb]
  | complex t =>
    have hsorted : SortedCodes ((codesOf t.some).zip t.subtypeDataList) :=
      sortedCodes_of_map (by rw [map_fst_entries h]; exact codesOf_sorted _)
    have hmem : ∀ e ∈ (codesOf t.some).zip t.subtypeDataList, t.some.getLsbD e.1.val = true :=
      fun e he => mem_codesOf.mp (List.of_mem_zip he).1
    refine ⟨hsorted, ?_, unpackFrom_eq _ _ h.length, ?_⟩
    · intro e he
      have := congrArg (fun x : BitVec 32 => x.getLsbD e.1.val) h.disjoint
      simpa [hmem e he, SemTypeOf.allBits] using this
    · intro c
      simp only [subtypeData, getComplexSubtypeData, dataAt, SemTypeOf.allBits,
        SemTypeOf.entries, ne_eq, and_basicType_eq_zero]
      by_cases hall : t.all.getLsbD c.val = true
      · simp [hall]
      · simp only [hall, not_true_eq_false, if_false, Bool.false_eq_true]
        by_cases hsome : t.some.getLsbD c.val = true
        · have hc : c ∈ ((codesOf t.some).zip t.subtypeDataList).map (·.1) := by
            rw [map_fst_entries h]
            exact mem_codesOf.mpr hsome
          obtain ⟨⟨c', d⟩, he, rfl⟩ := List.mem_map.mp hc
          have hget := getElem?_of_sortedCodes hsorted he
          rw [← bitCount_below h] at hget
          have hlookup := (lookupCode_eq_some hsorted).mpr he
          rw [List.getElem?_zip_eq_some] at hget
          simpa [hsome, hlookup] using hget.2
        · have hnone : lookupCode ((codesOf t.some).zip t.subtypeDataList) c = none := by
            rw [lookupCode_eq_none]
            rintro e he rfl
            exact hsome (hmem e he)
          simp [hsome, hnone]

/-! ## The pair iterator -/

theorem includes_eq (bits : BasicTypeBitSet) (c : BasicTypeCode) :
    subtypePairs.includes bits c = bits.getLsbD c.val :=
  and_basicType_bne_zero bits c

/-- A pair of the iterator: an included code and what the two lists have for it. -/
def IsPair (bits : BasicTypeBitSet) (L1 L2 : List (BasicTypeCode × δ))
    (p : BasicTypeCode × Option δ × Option δ) : Prop :=
  bits.getLsbD p.1.val = true ∧ p.2.1 = lookupCode L1 p.1 ∧ p.2.2 = lookupCode L2 p.1 ∧
    (lookupCode L1 p.1 ≠ none ∨ lookupCode L2 p.1 ≠ none)

theorem sortedCodes_map_filter {β : Type} (h : SortedCodes L) (keep : BasicTypeCode × δ → Bool)
    (f : BasicTypeCode × δ → BasicTypeCode × β) (hf : ∀ e, (f e).1 = e.1) :
    SortedCodes ((L.filter keep).map f) := by
  unfold SortedCodes
  rw [List.pairwise_map]
  simpa only [hf] using h.filter keep

theorem mem_emit {d1 d2 : Option δ} {rest : List (BasicTypeCode × Option δ × Option δ)}
    {p : BasicTypeCode × Option δ × Option δ} :
    p ∈ subtypePairs.emit bits c d1 d2 rest ↔
      (bits.getLsbD c.val = true ∧ p = (c, d1, d2)) ∨ p ∈ rest := by
  unfold subtypePairs.emit
  rw [includes_eq]
  split
  next h => simp [h]
  next h => simp [h]

theorem sortedCodes_emit {d1 d2 : Option δ} {rest : List (BasicTypeCode × Option δ × Option δ)}
    (hr : SortedCodes rest) (hlt : ∀ p ∈ rest, c < p.1) :
    SortedCodes (subtypePairs.emit bits c d1 d2 rest) := by
  unfold subtypePairs.emit
  split
  · exact List.pairwise_cons.mpr ⟨hlt, hr⟩
  · exact hr

/-- What the merge of two sorted lists yields. -/
theorem subtypePairs_spec (bits : BasicTypeBitSet) :
    ∀ (L1 L2 : List (BasicTypeCode × δ)), SortedCodes L1 → SortedCodes L2 →
      SortedCodes (subtypePairs bits L1 L2) ∧
      ∀ p, p ∈ subtypePairs bits L1 L2 ↔ IsPair bits L1 L2 p
  | [], L2, _, h2 => by
    rw [subtypePairs]
    refine ⟨sortedCodes_map_filter h2 _ _ (fun _ => rfl), fun p => ?_⟩
    obtain ⟨c, d1, d2⟩ := p
    simp only [List.mem_map, List.mem_filter, includes_eq, IsPair, lookupCode_nil]
    constructor
    · rintro ⟨⟨c', d⟩, ⟨hm, hb⟩, heq⟩
      cases heq
      have := (lookupCode_eq_some h2).mpr hm
      simp [hb, this]
    · rintro ⟨hb, hfst, hsnd, hne⟩
      simp only [ne_eq, not_true_eq_false, false_or] at hne
      obtain ⟨d, hd⟩ := Option.ne_none_iff_exists'.mp hne
      exact ⟨(c, d), ⟨(lookupCode_eq_some h2).mp hd, hb⟩, by simp [hfst, hsnd, hd]⟩
  | e1 :: L1, [], h1, _ => by
    rw [subtypePairs]
    refine ⟨sortedCodes_map_filter h1 _ _ (fun _ => rfl), fun p => ?_⟩
    obtain ⟨c, d1, d2⟩ := p
    simp only [List.mem_map, List.mem_filter, includes_eq, IsPair, lookupCode_nil]
    constructor
    · rintro ⟨⟨c', d⟩, ⟨hm, hb⟩, heq⟩
      cases heq
      have := (lookupCode_eq_some h1).mpr hm
      simp [hb, this]
    · rintro ⟨hb, hfst, hsnd, hne⟩
      simp only [ne_eq, not_true_eq_false, or_false] at hne
      obtain ⟨d, hd⟩ := Option.ne_none_iff_exists'.mp hne
      exact ⟨(c, d), ⟨(lookupCode_eq_some h1).mp hd, hb⟩, by simp [hfst, hsnd, hd]⟩
  | (c1, x1) :: L1, (c2, x2) :: L2, h1, h2 => by
    obtain ⟨hlt1, hs1⟩ := List.pairwise_cons.mp h1
    obtain ⟨hlt2, hs2⟩ := List.pairwise_cons.mp h2
    rw [subtypePairs]
    -- the code emitted first is before everything the rest of the merge can yield
    have hafter : ∀ {M1 M2 : List (BasicTypeCode × δ)} {c : BasicTypeCode},
        (∀ e ∈ M1, c < e.1) → (∀ e ∈ M2, c < e.1) →
        ∀ p, IsPair bits M1 M2 p → c < p.1 := by
      intro M1 M2 c hM1 hM2 p hp
      by_contra hge
      have hno : ∀ {M : List (BasicTypeCode × δ)}, (∀ e ∈ M, c < e.1) →
          lookupCode M p.1 = none := fun hM =>
        lookupCode_of_lt fun e he => lt_of_le_of_lt (not_lt.mp hge) (hM e he)
      rcases hp.2.2.2 with h | h
      · exact h (hno hM1)
      · exact h (hno hM2)
    split
    next heq =>
      subst heq
      obtain ⟨ihs, ihm⟩ := subtypePairs_spec bits L1 L2 hs1 hs2
      refine ⟨sortedCodes_emit ihs fun p hp => hafter hlt1 hlt2 p ((ihm p).mp hp), ?_⟩
      rintro ⟨c, d1, d2⟩
      rw [mem_emit, ihm]
      simp only [IsPair, lookupCode_cons]
      by_cases hc : c1 = c
      · subst hc
        simp [lookupCode_of_lt hlt1, lookupCode_of_lt hlt2]
      · simp [hc, Ne.symm hc]
    next hne =>
      split
      next hlt =>
        obtain ⟨ihs, ihm⟩ := subtypePairs_spec bits L1 ((c2, x2) :: L2) hs1 h2
        have hlt2' : ∀ e ∈ (c2, x2) :: L2, c1 < e.1 := by
          intro e he
          rcases List.mem_cons.mp he with rfl | he
          · exact hlt
          · exact hlt.trans (hlt2 e he)
        refine ⟨sortedCodes_emit ihs fun p hp => hafter hlt1 hlt2' p ((ihm p).mp hp), ?_⟩
        rintro ⟨c, d1, d2⟩
        rw [mem_emit, ihm]
        have hnone : lookupCode ((c2, x2) :: L2) c1 = none := lookupCode_of_lt hlt2'
        unfold IsPair
        by_cases hc : c1 = c
        · subst hc
          simp [lookupCode_cons (c1, x1), hnone, lookupCode_of_lt hlt1]
        · simp [lookupCode_cons (c1, x1), hc, Ne.symm hc]
      next hge =>
        have hlt : c2 < c1 := lt_of_le_of_ne (not_lt.mp hge) (Ne.symm hne)
        obtain ⟨ihs, ihm⟩ := subtypePairs_spec bits ((c1, x1) :: L1) L2 h1 hs2
        have hlt1' : ∀ e ∈ (c1, x1) :: L1, c2 < e.1 := by
          intro e he
          rcases List.mem_cons.mp he with rfl | he
          · exact hlt
          · exact hlt.trans (hlt1 e he)
        refine ⟨sortedCodes_emit ihs fun p hp => hafter hlt1' hlt2 p ((ihm p).mp hp), ?_⟩
        rintro ⟨c, d1, d2⟩
        rw [mem_emit, ihm]
        have hnone : lookupCode ((c1, x1) :: L1) c2 = none := lookupCode_of_lt hlt1'
        unfold IsPair
        by_cases hc : c2 = c
        · subst hc
          simp [lookupCode_cons (c2, x2), hnone, lookupCode_of_lt hlt2]
        · simp [lookupCode_cons (c2, x2), hc, Ne.symm hc]
termination_by L1 L2 => L1.length + L2.length

/-! ## The result of a merge -/

theorem getLsbD_foldl_basicType : ∀ (L : List (BasicTypeCode × δ)) (b : BasicTypeBitSet) (i : Nat),
    (L.foldl (fun bits e => bits ||| basicType e.1) b).getLsbD i = true ↔
      b.getLsbD i = true ∨ ∃ e ∈ L, e.1.val = i
  | [], b, i => by simp
  | e :: L, b, i => by
    rw [List.foldl_cons, getLsbD_foldl_basicType L]
    have hbit : (basicType e.1).getLsbD i = true ↔ e.1.val = i := by
      rw [basicType_eq_twoPow, BitVec.getLsbD_twoPow]
      simp only [Bool.and_eq_true, decide_eq_true_eq]
      exact ⟨fun h => h.2, fun h => ⟨code_lt_width e.1, h⟩⟩
    rw [BitVec.getLsbD_or, Bool.or_eq_true, hbit]
    simp only [List.mem_cons, exists_eq_or_imp]
    tauto

theorem codesOf_createComplexSemType (all : BasicTypeBitSet) (hs : SortedCodes L) :
    codesOf (createComplexSemType all L).some = L.map (·.1) := by
  refine (codesOf_sorted _).eq_of_mem_iff (List.pairwise_map.mpr hs) fun c => ?_
  rw [mem_codesOf]
  simp only [createComplexSemType, getLsbD_foldl_basicType, List.mem_map]
  simp [Fin.ext_iff]

theorem createComplexSemType_wf (hs : SortedCodes L) (hd : ∀ e ∈ L, all.getLsbD e.1.val = false) :
    (createComplexSemType all L).WF where
  disjoint := by
    apply BitVec.eq_of_getLsbD_eq
    intro i _
    have hbits := getLsbD_foldl_basicType L 0 i
    simp only [createComplexSemType, BitVec.getLsbD_and]
    by_cases h : (L.foldl (fun bits e => bits ||| basicType e.1) 0).getLsbD i = true
    · obtain h0 | ⟨e, he, rfl⟩ := hbits.mp h
      · simp at h0
      · simp [hd e he]
    · rw [Bool.eq_false_iff.mpr h]
      simp
  codes := by
    intro i hi
    simp only [createComplexSemType, getLsbD_foldl_basicType] at hi
    obtain h0 | ⟨e, _, rfl⟩ := hi
    · simp at h0
    · exact e.1.isLt
  length := by
    rw [codesOf_createComplexSemType all hs]
    simp [createComplexSemType]

/-- Finishing keeps what was collected. -/
theorem subtypeData_finishSemType (hs : SortedCodes L) (hd : ∀ e ∈ L, all.getLsbD e.1.val = false)
    (c : BasicTypeCode) :
    subtypeData (finishSemType (all, L)) c = some (dataAt all L c) := by
  unfold finishSemType
  cases L with
  | nil => exact (rep_of_wf (t := SemTypeOf.bits (δ := δ) all) trivial).data c
  | cons e L =>
    have hrep := rep_of_wf (t := SemTypeOf.complex (createComplexSemType all (e :: L)))
      (createComplexSemType_wf hs hd)
    have hentries : SemTypeOf.entries (.complex (createComplexSemType all (e :: L)))
        = e :: L := by
      simp only [SemTypeOf.entries, codesOf_createComplexSemType all hs]
      exact (List.zip_of_prod rfl rfl).symm
    rw [hentries] at hrep
    simpa [SemTypeOf.allBits, createComplexSemType] using hrep.data c

theorem finishSemType_wf (hs : SortedCodes L) (hd : ∀ e ∈ L, all.getLsbD e.1.val = false) :
    (finishSemType (all, L)).WF := by
  unfold finishSemType
  split
  · trivial
  · exact createComplexSemType_wf hs hd

/-- The loop of `diff`, over the function that gives the data of a code. The
loops of `union` and `intersect` differ from it only in panicking on data that
cannot occur. -/
def mergeLoop (f : BasicTypeCode → Option δ → Option δ → Option (SubtypeDataOf δ)) :
    List (BasicTypeCode × Option δ × Option δ) → BasicTypeBitSet × List (BasicTypeCode × δ) →
      Option (BasicTypeBitSet × List (BasicTypeCode × δ))
  | [], acc => some acc
  | (code, data1, data2) :: pairs, (all, subtypes) => do
    match ← f code data1 data2 with
    | .proper data => mergeLoop f pairs (all, subtypes ++ [(code, data)])
    | .bool true => mergeLoop f pairs (all ||| basicType code, subtypes)
    | .bool false => mergeLoop f pairs (all, subtypes)

/-- What the loop adds to `all` and to the subtype list, code by code. -/
theorem mergeLoop_spec (f : BasicTypeCode → Option δ → Option δ → Option (SubtypeDataOf δ))
    (g : BasicTypeCode × Option δ × Option δ → SubtypeDataOf δ) :
    ∀ (pairs : List (BasicTypeCode × Option δ × Option δ)) (all : BasicTypeBitSet)
      (acc : List (BasicTypeCode × δ)), SortedCodes pairs →
      (∀ p ∈ pairs, f p.1 p.2.1 p.2.2 = some (g p)) →
      (∀ p ∈ pairs, all.getLsbD p.1.val = false) →
      ∃ all' new, mergeLoop f pairs (all, acc) = some (all', acc ++ new) ∧
        SortedCodes new ∧ (∀ e ∈ new, ∃ p ∈ pairs, p.1 = e.1) ∧
        (∀ e ∈ new, all'.getLsbD e.1.val = false) ∧
        (∀ p ∈ pairs, dataAt all' new p.1 = g p) ∧
        ∀ c, (∀ p ∈ pairs, p.1 ≠ c) → all'.getLsbD c.val = all.getLsbD c.val
  | [], all, acc, _, _, _ => ⟨all, [], by simp [mergeLoop], by simp [SortedCodes], by simp,
      by simp, by simp, by simp⟩
  | (c, d1, d2) :: pairs, all, acc, hs, hf, hall => by
    obtain ⟨hlt, hs'⟩ := List.pairwise_cons.mp hs
    have hf' : ∀ p ∈ pairs, f p.1 p.2.1 p.2.2 = some (g p) := fun p hp =>
      hf p (.tail _ hp)
    have hall' : ∀ p ∈ pairs, all.getLsbD p.1.val = false := fun p hp =>
      hall p (.tail _ hp)
    have hc : all.getLsbD c.val = false := hall (c, d1, d2) (.head _)
    have hne : ∀ p ∈ pairs, p.1 ≠ c := fun p hp => ne_of_gt (hlt p hp)
    have hstep := hf (c, d1, d2) (.head _)
    simp only [mergeLoop, hstep, Option.bind_eq_bind, Option.bind_some]
    have hothers : ∀ {new : List (BasicTypeCode × δ)}, (∀ e ∈ new, ∃ p ∈ pairs, p.1 = e.1) →
        lookupCode new c = none := by
      intro new hnew
      refine lookupCode_eq_none.mpr fun e he => ?_
      obtain ⟨p, hp, hpe⟩ := hnew e he
      exact hpe ▸ hne p hp
    match hg : g (c, d1, d2) with
    | .proper d =>
      obtain ⟨all', new, heq, hsn, hnew, hdis, hdata, hkeep⟩ :=
        mergeLoop_spec f g pairs all (acc ++ [(c, d)]) hs' hf' hall'
      have hallc : all'.getLsbD c.val = false := by rw [hkeep c hne, hc]
      refine ⟨all', (c, d) :: new, by simpa using heq, ?_, ?_, ?_, ?_, ?_⟩
      · refine List.pairwise_cons.mpr ⟨fun e he => ?_, hsn⟩
        obtain ⟨p, hp, hpe⟩ := hnew e he
        exact hpe ▸ hlt p hp
      · intro e he
        rcases List.mem_cons.mp he with rfl | he
        · exact ⟨_, .head _, rfl⟩
        · obtain ⟨p, hp, hpe⟩ := hnew e he
          exact ⟨p, .tail _ hp, hpe⟩
      · intro e he
        rcases List.mem_cons.mp he with rfl | he
        · exact hallc
        · exact hdis e he
      · intro p hp
        rcases List.mem_cons.mp hp with rfl | hp
        · simp [dataAt, hallc, lookupCode_cons, hg]
        · rw [← hdata p hp]
          simp [dataAt, lookupCode_cons, Ne.symm (hne p hp)]
      · exact fun c' h => hkeep c' fun p hp => h p (.tail _ hp)
    | .bool true =>
      have hall'' : ∀ p ∈ pairs, (all ||| basicType c).getLsbD p.1.val = false := by
        intro p hp
        simp [hall' p hp, Ne.symm (hne p hp)]
      obtain ⟨all', new, heq, hsn, hnew, hdis, hdata, hkeep⟩ :=
        mergeLoop_spec f g pairs (all ||| basicType c) acc hs' hf' hall''
      refine ⟨all', new, heq, hsn, fun e he => ?_, hdis, ?_, ?_⟩
      · obtain ⟨p, hp, hpe⟩ := hnew e he
        exact ⟨p, .tail _ hp, hpe⟩
      · intro p hp
        rcases List.mem_cons.mp hp with rfl | hp
        · simp [dataAt, hkeep c hne, hg]
        · exact hdata p hp
      · intro c' h
        rw [hkeep c' fun p hp => h p (.tail _ hp)]
        have : c ≠ c' := h (c, d1, d2) (.head _)
        simp [this]
    | .bool false =>
      obtain ⟨all', new, heq, hsn, hnew, hdis, hdata, hkeep⟩ :=
        mergeLoop_spec f g pairs all acc hs' hf' hall'
      refine ⟨all', new, heq, hsn, fun e he => ?_, hdis, ?_, ?_⟩
      · obtain ⟨p, hp, hpe⟩ := hnew e he
        exact ⟨p, .tail _ hp, hpe⟩
      · intro p hp
        rcases List.mem_cons.mp hp with rfl | hp
        · simp [dataAt, hkeep c hne, hc, hothers hnew, hg]
        · exact hdata p hp
      · exact fun c' h => hkeep c' fun p hp => h p (.tail _ hp)

/-- The second half of each operation, over the function of a code's data. -/
def mergeWith (f : BasicTypeCode → Option δ → Option δ → Option (SubtypeDataOf δ))
    (t1 t2 : SemTypeOf δ) (all some : BasicTypeBitSet) : Option (SemTypeOf δ) :=
  if some = 0 then return .bits all
  else do
    let pairs ← subtypePairIterator t1 t2 some
    let result ← mergeLoop f pairs (all, [])
    return finishSemType result

/-- The data of a merged semtype: a code with data on either side, inside the
bits merged, gets what `f` says; any other code keeps its bit of `all`. -/
theorem mergeWith_spec {f : BasicTypeCode → Option δ → Option δ → Option (SubtypeDataOf δ)}
    {g : BasicTypeCode × Option δ × Option δ → SubtypeDataOf δ} {t1 t2 : SemTypeOf δ} (h1 : t1.WF)
    (h2 : t2.WF) {some : BasicTypeBitSet}
    (hdis : ∀ c : BasicTypeCode, some.getLsbD c.val = true → all.getLsbD c.val = false)
    (hf : ∀ p, IsPair some t1.entries t2.entries p → f p.1 p.2.1 p.2.2 = .some (g p)) :
    ∃ t, mergeWith f t1 t2 all some = .some t ∧ t.WF ∧ ∀ c : BasicTypeCode,
      (IsPair some t1.entries t2.entries (c, lookupCode t1.entries c, lookupCode t2.entries c) →
        subtypeData t c = .some (g (c, lookupCode t1.entries c, lookupCode t2.entries c))) ∧
      (¬ IsPair some t1.entries t2.entries (c, lookupCode t1.entries c, lookupCode t2.entries c) →
        subtypeData t c = .some (.bool (all.getLsbD c.val))) := by
  have hrep1 := rep_of_wf h1
  have hrep2 := rep_of_wf h2
  unfold mergeWith
  split
  next h0 =>
    refine ⟨_, rfl, trivial, fun c => ⟨fun hp => ?_, fun _ => ?_⟩⟩
    · exact absurd hp.1 (by simp [h0])
    · simp [subtypeData]
  next h0 =>
    obtain ⟨hsp, hmem⟩ := subtypePairs_spec some t1.entries t2.entries hrep1.sorted hrep2.sorted
    obtain ⟨all', new, heq, hsn, hnew, hdn, hdata, hkeep⟩ :=
      mergeLoop_spec f g (subtypePairs some t1.entries t2.entries) all [] hsp
        (fun p hp => hf p ((hmem p).mp hp)) (fun p hp => hdis _ ((hmem p).mp hp).1)
    refine ⟨finishSemType (all', new), ?_, finishSemType_wf hsn hdn, fun c => ?_⟩
    · simp [subtypePairIterator, hrep1.unpack, hrep2.unpack, heq]
    · rw [subtypeData_finishSemType hsn hdn]
      constructor
      · intro hp
        rw [hdata _ ((hmem _).mpr hp)]
      · intro hp
        have hnot : ∀ p ∈ subtypePairs some t1.entries t2.entries, p.1 ≠ c := by
          rintro ⟨c', o1, o2⟩ hpm rfl
          have hpair := (hmem _).mp hpm
          exact hp ⟨hpair.1, rfl, rfl, hpair.2.2.2⟩
        have hlook : lookupCode new c = none := by
          refine lookupCode_eq_none.mpr fun e he => ?_
          obtain ⟨p, hpm, hpe⟩ := hnew e he
          exact hpe ▸ hnot p hpm
        rw [dataAt, hlook, hkeep c hnot]
        by_cases hb : all.getLsbD c.val = true <;> simp [hb]

/-! ## Denotation -/

/-- The three ways a semtype can stand at a code. -/
inductive AtCode (t : SemTypeOf δ) (c : BasicTypeCode) : SubtypeDataOf δ → Prop where
  | whole : t.allBits.getLsbD c.val = true → t.someBits.getLsbD c.val = false →
      lookupCode t.entries c = none → AtCode t c (.bool true)
  | part {d : δ} : t.allBits.getLsbD c.val = false → t.someBits.getLsbD c.val = true →
      lookupCode t.entries c = some d → AtCode t c (.proper d)
  | nothing : t.allBits.getLsbD c.val = false → t.someBits.getLsbD c.val = false →
      lookupCode t.entries c = none → AtCode t c (.bool false)

/-- A code has an entry exactly when its bit of `some` is set. -/
theorem lookupCode_entries_eq_none (h : t.WF) (c : BasicTypeCode) :
    lookupCode t.entries c = none ↔ t.someBits.getLsbD c.val = false := by
  cases t with
  | bits b => simp [SemTypeOf.entries, SemTypeOf.someBits]
  | complex t =>
    have hmap : c ∈ codesOf t.some ↔ ∃ e ∈ (codesOf t.some).zip t.subtypeDataList, e.1 = c := by
      rw [← List.mem_map, map_fst_entries h]
    rw [lookupCode_eq_none, ← Bool.not_eq_true, SemTypeOf.someBits, ← mem_codesOf, hmap]
    simp only [SemTypeOf.entries, not_exists, not_and, ne_eq]

theorem atCode (h : t.WF) (c : BasicTypeCode) :
    ∃ r, AtCode t c r ∧ subtypeData t c = some r := by
  have hrep := rep_of_wf h
  refine ⟨_, ?_, hrep.data c⟩
  unfold dataAt
  cases hl : lookupCode t.entries c with
  | none =>
    have hs := (lookupCode_entries_eq_none h c).mp hl
    by_cases ha : t.allBits.getLsbD c.val = true
    · simpa [ha] using AtCode.whole ha hs hl
    · simpa [ha] using AtCode.nothing (Bool.eq_false_iff.mpr ha) hs hl
  | some d =>
    have ha := hrep.disjoint (c, d) ((lookupCode_eq_some hrep.sorted).mp hl)
    have hs : t.someBits.getLsbD c.val = true := by
      by_contra hs
      rw [(lookupCode_entries_eq_none h c).mpr (Bool.eq_false_iff.mpr hs)] at hl
      exact absurd hl (by simp)
    simpa [show t.allBits.getLsbD c.val = false from ha] using AtCode.part ha hs hl

section Exact

variable {V : BasicTypeCode → Type} (den : (c : BasicTypeCode) → δ → Set (V c))

/-- What subtype data of the basic type `c` denotes. -/
def denData (c : BasicTypeCode) : SubtypeDataOf δ → Set (V c)
  | .bool true => Set.univ
  | .bool false => ∅
  | .proper d => den c d

/-- The part of the basic type `c` that a semtype contains. -/
def denote (t : SemTypeOf δ) (c : BasicTypeCode) : Set (V c) :=
  {v | ∃ r, subtypeData t c = some r ∧ v ∈ denData den c r}

variable {t : SemTypeOf δ} {c : BasicTypeCode} {r1 r2 : SubtypeDataOf δ}

theorem denote_eq {r : SubtypeDataOf δ} (h : subtypeData t c = some r) :
    denote den t c = denData den c r := by
  ext v
  simp [denote, h]

/-- The operations of the basic types are exact on the data `valid` for them: they
return data that denote the right set. The loops cast the result of a union
(intersection) to proper data unless it is `true` (`false`), so a union of proper
data is not reported as nothing, nor an intersection as everything. -/
structure ExactOps (valid : BasicTypeCode → δ → Prop) (ops : BasicTypeCode → BasicTypeOps δ) :
    Prop where
  union : ∀ {c d1 d2}, valid c d1 → valid c d2 → ∃ r, (ops c).union d1 d2 = some r ∧
    r ≠ .bool false ∧ denData den c r = den c d1 ∪ den c d2
  intersect : ∀ {c d1 d2}, valid c d1 → valid c d2 → ∃ r, (ops c).intersect d1 d2 = some r ∧
    r ≠ .bool true ∧ denData den c r = den c d1 ∩ den c d2
  complement : ∀ {c d}, valid c d → ∃ r, (ops c).complement d = some r ∧
    denData den c r = (den c d)ᶜ ∧ ∀ d', r = .proper d' → valid c d'
  diff : ∀ {c f d1 d2}, (ops c).diff = some f → valid c d1 → valid c d2 →
    ∃ r, f d1 d2 = some r ∧ denData den c r = den c d1 \ den c d2

/-- Every entry of the semtype is data of its basic type. -/
def SemTypeOf.Valid (valid : BasicTypeCode → δ → Prop) (t : SemTypeOf δ) : Prop :=
  ∀ e ∈ t.entries, valid e.1 e.2

variable {den} {valid : BasicTypeCode → δ → Prop} {ops : BasicTypeCode → BasicTypeOps δ}
  {t1 t2 : SemTypeOf δ}

theorem valid_of_lookup (h : t.WF) (hv : t.Valid valid) {d : δ} (hl : lookupCode t.entries c = some d) :
    valid c d :=
  hv (c, d) ((lookupCode_eq_some (rep_of_wf h).sorted).mp hl)

theorem unionLoop_eq : ∀ (pairs : List (BasicTypeCode × Option δ × Option δ))
    (acc : BasicTypeBitSet × List (BasicTypeCode × δ)),
    (∀ p ∈ pairs, unionData ops p.1 p.2.1 p.2.2 ≠ some (.bool false)) →
      unionLoop ops pairs acc = mergeLoop (unionData ops) pairs acc
  | [], _, _ => rfl
  | (c, d1, d2) :: pairs, (all, subtypes), h => by
    have hrest := fun acc => unionLoop_eq pairs acc fun p hp => h p (.tail _ hp)
    have hc := h (c, d1, d2) (.head _)
    simp only [unionLoop, mergeLoop]
    match hr : unionData ops c d1 d2 with
    | none => rfl
    | some (.bool true) => simp [hrest]
    | some (.proper d) => simp [hrest]
    | some (.bool false) => exact absurd hr hc

theorem intersectLoop_eq (all : BasicTypeBitSet) :
    ∀ (pairs : List (BasicTypeCode × Option δ × Option δ)) (subtypes : List (BasicTypeCode × δ)),
    (∀ p ∈ pairs, intersectData ops p.1 p.2.1 p.2.2 ≠ some (.bool true)) →
      (intersectLoop ops pairs subtypes).map (fun s => (all, s)) =
        mergeLoop (intersectData ops) pairs (all, subtypes)
  | [], _, _ => rfl
  | (c, d1, d2) :: pairs, subtypes, h => by
    have hrest := fun acc =>
      intersectLoop_eq all pairs acc fun p hp => h p (.tail _ hp)
    have hc := h (c, d1, d2) (.head _)
    simp only [intersectLoop, mergeLoop]
    match hr : intersectData ops c d1 d2 with
    | none => rfl
    | some (.bool false) => simp [hrest]
    | some (.proper d) => simp [hrest]
    | some (.bool true) => exact absurd hr hc

theorem diffLoop_eq : ∀ (pairs : List (BasicTypeCode × Option δ × Option δ))
    (acc : BasicTypeBitSet × List (BasicTypeCode × δ)),
      diffLoop ops pairs acc = mergeLoop (diffData ops) pairs acc
  | [], _ => rfl
  | (c, d1, d2) :: pairs, (all, subtypes) => by
    have hrest := fun acc => diffLoop_eq pairs acc
    simp only [diffLoop, mergeLoop]
    match hr : diffData ops c d1 d2 with
    | none => rfl
    | some (.bool true) => simp [hrest]
    | some (.bool false) => simp [hrest]
    | some (.proper d) => simp [hrest]

variable (den) in
/-- The result of an operation: it does not panic, it is well formed, and it denotes
`S` in every basic type. -/
def Computes (r : Option (SemTypeOf δ)) (S : (c : BasicTypeCode) → Set (V c)) : Prop :=
  ∃ t, r = some t ∧ t.WF ∧ ∀ c, denote den t c = S c

/-- A merge computes the set operation `S` at every code if `f` does where there is
data to merge, and the bits of `all` do elsewhere. -/
theorem mergeWith_exact {f : BasicTypeCode → Option δ → Option δ → Option (SubtypeDataOf δ)}
    {S : {c : BasicTypeCode} → Set (V c) → Set (V c) → Set (V c)} (h1 : t1.WF) (h2 : t2.WF)
    {all some : BasicTypeBitSet}
    (hdis : ∀ c : BasicTypeCode, some.getLsbD c.val = true → all.getLsbD c.val = false)
    (hf : ∀ {c r1 r2}, AtCode t1 c r1 → AtCode t2 c r2 → some.getLsbD c.val = true →
      (lookupCode t1.entries c ≠ none ∨ lookupCode t2.entries c ≠ none) →
      ∃ r, f c (lookupCode t1.entries c) (lookupCode t2.entries c) = .some r ∧
        denData den c r = S (denData den c r1) (denData den c r2))
    (hall : ∀ {c r1 r2}, AtCode t1 c r1 → AtCode t2 c r2 →
      ¬ (some.getLsbD c.val = true ∧
        (lookupCode t1.entries c ≠ none ∨ lookupCode t2.entries c ≠ none)) →
      denData den c (.bool (all.getLsbD c.val)) = S (denData den c r1) (denData den c r2)) :
    Computes den (mergeWith f t1 t2 all some)
      fun c => S (denote den t1 c) (denote den t2 c) := by
  have hg : ∀ p, IsPair some t1.entries t2.entries p →
      f p.1 p.2.1 p.2.2 = .some ((f p.1 p.2.1 p.2.2).getD (.bool false)) := by
    rintro p ⟨hb, hp1, hp2, hne⟩
    obtain ⟨r1, ha1, -⟩ := atCode h1 p.1
    obtain ⟨r2, ha2, -⟩ := atCode h2 p.1
    obtain ⟨r, hr, -⟩ := hf ha1 ha2 hb hne
    rw [hp1, hp2, hr]
    rfl
  obtain ⟨t, ht, hwf, hdata⟩ := mergeWith_spec h1 h2 hdis hg
  refine ⟨t, ht, hwf, fun c => ?_⟩
  obtain ⟨r1, ha1, hr1⟩ := atCode h1 c
  obtain ⟨r2, ha2, hr2⟩ := atCode h2 c
  simp only [denote_eq den hr1, denote_eq den hr2]
  by_cases hp : some.getLsbD c.val = true ∧
      (lookupCode t1.entries c ≠ none ∨ lookupCode t2.entries c ≠ none)
  · obtain ⟨r, hr, hS⟩ := hf ha1 ha2 hp.1 hp.2
    have := (hdata c).1 ⟨hp.1, rfl, rfl, hp.2⟩
    rw [hr, Option.getD_some] at this
    rw [denote_eq den this, hS]
  · have := (hdata c).2 fun h => hp ⟨h.1, h.2.2.2⟩
    rw [denote_eq den this, hall ha1 ha2 hp]

/-- Every pair of the iterator is a code with data on some side. -/
theorem mergeWith_congr {f : BasicTypeCode → Option δ → Option δ → Option (SubtypeDataOf δ)}
    {loop : List (BasicTypeCode × Option δ × Option δ) →
      Option (BasicTypeBitSet × List (BasicTypeCode × δ))}
    (h1 : t1.WF) (h2 : t2.WF) {all some : BasicTypeBitSet}
    (hloop : ∀ pairs, (∀ p ∈ pairs, IsPair some t1.entries t2.entries p) →
      loop pairs = mergeLoop f pairs (all, [])) :
    (if some = 0 then .some (.bits all)
      else (subtypePairIterator t1 t2 some).bind fun pairs =>
        (loop pairs).bind fun result => .some (finishSemType result)) =
      mergeWith f t1 t2 all some := by
  have hrep1 := rep_of_wf h1
  have hrep2 := rep_of_wf h2
  obtain ⟨-, hmem⟩ := subtypePairs_spec some t1.entries t2.entries hrep1.sorted hrep2.sorted
  have := hloop (subtypePairs some t1.entries t2.entries) fun p hp => (hmem p).mp hp
  unfold mergeWith
  simp [subtypePairIterator, hrep1.unpack, hrep2.unpack, this]

/-- A union of the data of a code, inside the bits that are merged. -/
theorem unionData_exact (hops : ExactOps den valid ops) (h1 : t1.WF) (h2 : t2.WF) (hv1 : t1.Valid valid)
    (hv2 : t2.Valid valid) (ha1 : AtCode t1 c r1) (ha2 : AtCode t2 c r2)
    (hb : ((t1.someBits ||| t2.someBits) &&&
      ~~~(t1.allBits ||| t2.allBits)).getLsbD c.val = true)
    (hne : lookupCode t1.entries c ≠ none ∨ lookupCode t2.entries c ≠ none) :
    ∃ r, unionData ops c (lookupCode t1.entries c) (lookupCode t2.entries c) = some r ∧
      r ≠ .bool false ∧ denData den c r = denData den c r1 ∪ denData den c r2 := by
  cases ha1 with
  | whole a1 s1 l1 => simp [a1] at hb
  | part a1 s1 l1 =>
    cases ha2 with
    | whole a2 s2 l2 => simp [a2] at hb
    | part a2 s2 l2 =>
      rw [l1, l2]
      exact hops.union (valid_of_lookup h1 hv1 l1) (valid_of_lookup h2 hv2 l2)
    | nothing a2 s2 l2 => exact ⟨_, by rw [l1, l2]; rfl, by simp, by simp [denData]⟩
  | nothing a1 s1 l1 =>
    cases ha2 with
    | whole a2 s2 l2 => simp [a2] at hb
    | part a2 s2 l2 => exact ⟨_, by rw [l1, l2]; rfl, by simp, by simp [denData]⟩
    | nothing a2 s2 l2 => simp [l1, l2] at hne

/-- The general path of `union`. -/
theorem unionMerge_exact (hops : ExactOps den valid ops) (h1 : t1.WF) (h2 : t2.WF)
    (hv1 : t1.Valid valid) (hv2 : t2.Valid valid) :
    Computes den (unionMerge ops t1 t2 t1.allBits t1.someBits t2.allBits t2.someBits)
      fun c => denote den t1 c ∪ denote den t2 c := by
  have heq : unionMerge ops t1 t2 t1.allBits t1.someBits t2.allBits t2.someBits =
      mergeWith (unionData ops) t1 t2 (t1.allBits ||| t2.allBits)
        ((t1.someBits ||| t2.someBits) &&& ~~~(t1.allBits ||| t2.allBits)) := by
    refine mergeWith_congr h1 h2 fun pairs hpairs => unionLoop_eq pairs _ ?_
    intro p hp
    obtain ⟨hb, hp1, hp2, hne⟩ := hpairs p hp
    obtain ⟨r1, ha1, -⟩ := atCode h1 p.1
    obtain ⟨r2, ha2, -⟩ := atCode h2 p.1
    obtain ⟨r, hr, hrne, -⟩ := unionData_exact hops h1 h2 hv1 hv2 ha1 ha2 hb hne
    rw [hp1, hp2, hr]
    simpa using hrne
  rw [heq]
  refine mergeWith_exact (S := fun A B => A ∪ B) h1 h2 ?_ ?_ ?_
  · intro c hb
    simp only [BitVec.getLsbD_and, BitVec.getLsbD_not, Bool.and_eq_true, Bool.not_eq_true'] at hb
    exact hb.2.2
  · intro c r1 r2 ha1 ha2 hb hne
    obtain ⟨r, hr, -, hden⟩ := unionData_exact hops h1 h2 hv1 hv2 ha1 ha2 hb hne
    exact ⟨r, hr, hden⟩
  · intro c r1 r2 ha1 ha2 hnot
    simp only [BitVec.getLsbD_and, BitVec.getLsbD_or, getLsbD_not_code] at hnot ⊢
    cases ha1 with
    | whole a1 s1 l1 => simp [a1, denData]
    | part a1 s1 l1 =>
      cases ha2 with
      | whole a2 s2 l2 => simp [a2, denData]
      | part a2 s2 l2 => simp [a1, a2, s1, l1] at hnot
      | nothing a2 s2 l2 => simp [a1, a2, s1, l1] at hnot
    | nothing a1 s1 l1 =>
      cases ha2 with
      | whole a2 s2 l2 => simp [a2, denData]
      | part a2 s2 l2 => simp [a1, a2, s2, l2] at hnot
      | nothing a2 s2 l2 => simp [a1, a2, denData]

/-- An intersection of the data of a code, inside the bits that are merged. -/
theorem intersectData_exact (hops : ExactOps den valid ops) (h1 : t1.WF) (h2 : t2.WF)
    (hv1 : t1.Valid valid) (hv2 : t2.Valid valid) (ha1 : AtCode t1 c r1) (ha2 : AtCode t2 c r2)
    (hb : (((t1.someBits ||| t1.allBits) &&& (t2.someBits ||| t2.allBits)) &&&
      ~~~(t1.allBits &&& t2.allBits)).getLsbD c.val = true)
    (hne : lookupCode t1.entries c ≠ none ∨ lookupCode t2.entries c ≠ none) :
    ∃ r, intersectData ops c (lookupCode t1.entries c) (lookupCode t2.entries c) = some r ∧
      r ≠ .bool true ∧ denData den c r = denData den c r1 ∩ denData den c r2 := by
  cases ha1 with
  | whole a1 s1 l1 =>
    cases ha2 with
    | whole a2 s2 l2 => simp [l1, l2] at hne
    | part a2 s2 l2 => exact ⟨_, by rw [l1, l2]; rfl, by simp, by simp [denData]⟩
    | nothing a2 s2 l2 => simp [l1, l2] at hne
  | part a1 s1 l1 =>
    cases ha2 with
    | whole a2 s2 l2 => exact ⟨_, by rw [l1, l2]; rfl, by simp, by simp [denData]⟩
    | part a2 s2 l2 =>
      rw [l1, l2]
      exact hops.intersect (valid_of_lookup h1 hv1 l1) (valid_of_lookup h2 hv2 l2)
    | nothing a2 s2 l2 => simp [a2, s2] at hb
  | nothing a1 s1 l1 => simp [a1, s1] at hb

/-- The general path of `intersect`. -/
theorem intersectMerge_exact (hops : ExactOps den valid ops) (h1 : t1.WF) (h2 : t2.WF)
    (hv1 : t1.Valid valid) (hv2 : t2.Valid valid) :
    Computes den (intersectMerge ops t1 t2 t1.allBits t1.someBits t2.allBits t2.someBits)
      fun c => denote den t1 c ∩ denote den t2 c := by
  have heq : intersectMerge ops t1 t2 t1.allBits t1.someBits t2.allBits t2.someBits =
      mergeWith (intersectData ops) t1 t2 (t1.allBits &&& t2.allBits)
        (((t1.someBits ||| t1.allBits) &&& (t2.someBits ||| t2.allBits)) &&&
          ~~~(t1.allBits &&& t2.allBits)) := by
    have hcongr := fun h => @mergeWith_congr _ t1 t2 (intersectData ops)
      (fun pairs => (intersectLoop ops pairs []).map fun s => (t1.allBits &&& t2.allBits, s))
      h1 h2 (t1.allBits &&& t2.allBits) (((t1.someBits ||| t1.allBits) &&&
        (t2.someBits ||| t2.allBits)) &&& ~~~(t1.allBits &&& t2.allBits)) h
    rw [← hcongr]
    · simp [intersectMerge, Option.bind_map]
    intro pairs hpairs
    refine intersectLoop_eq _ pairs [] fun p hp => ?_
    obtain ⟨hb, hp1, hp2, hne⟩ := hpairs p hp
    obtain ⟨r1, ha1, -⟩ := atCode h1 p.1
    obtain ⟨r2, ha2, -⟩ := atCode h2 p.1
    obtain ⟨r, hr, hrne, -⟩ := intersectData_exact hops h1 h2 hv1 hv2 ha1 ha2 hb hne
    rw [hp1, hp2, hr]
    simpa using hrne
  rw [heq]
  refine mergeWith_exact (S := fun A B => A ∩ B) h1 h2 ?_ ?_ ?_
  · intro c hb
    simp only [BitVec.getLsbD_and, BitVec.getLsbD_not, Bool.and_eq_true, Bool.not_eq_true'] at hb
    simpa using hb.2.2
  · intro c r1 r2 ha1 ha2 hb hne
    obtain ⟨r, hr, -, hden⟩ := intersectData_exact hops h1 h2 hv1 hv2 ha1 ha2 hb hne
    exact ⟨r, hr, hden⟩
  · intro c r1 r2 ha1 ha2 hnot
    simp only [BitVec.getLsbD_and, BitVec.getLsbD_or, getLsbD_not_code] at hnot ⊢
    cases ha1 with
    | whole a1 s1 l1 =>
      cases ha2 with
      | whole a2 s2 l2 => simp [a1, a2, denData]
      | part a2 s2 l2 => simp [a1, a2, s2, l2] at hnot
      | nothing a2 s2 l2 => simp [a2, denData]
    | part a1 s1 l1 =>
      cases ha2 with
      | whole a2 s2 l2 => simp [a1, a2, s1, l1] at hnot
      | part a2 s2 l2 => simp [a1, a2, s1, s2, l1] at hnot
      | nothing a2 s2 l2 => simp [a2, denData]
    | nothing a1 s1 l1 => simp [a1, denData]

/-- `subtypeDiff` is exact, whether or not the basic type has a `diff` of its own. -/
theorem subtypeDiff_exact (hops : ExactOps den valid ops) {d1 d2 : δ} (hv1 : valid c d1)
    (hv2 : valid c d2) :
    ∃ r, subtypeDiff ops c d1 d2 = some r ∧ denData den c r = den c d1 \ den c d2 := by
  unfold subtypeDiff
  split
  next f hf => exact hops.diff hf hv1 hv2
  next hf =>
    obtain ⟨r, hr, hden, hvalid⟩ := hops.complement hv2
    rw [Set.sdiff_eq, ← hden]
    simp only [hr, Option.bind_eq_bind, Option.bind_some]
    match r with
    | .bool true => exact ⟨_, rfl, by simp [denData]⟩
    | .bool false => exact ⟨_, rfl, by simp [denData]⟩
    | .proper d =>
      obtain ⟨r', hr', -, hden'⟩ := hops.intersect hv1 (hvalid d rfl)
      exact ⟨r', hr', hden'⟩

/-- A difference of the data of a code, inside the bits that are merged. -/
theorem diffData_exact (hops : ExactOps den valid ops) (h1 : t1.WF) (h2 : t2.WF) (hv1 : t1.Valid valid)
    (hv2 : t2.Valid valid) (ha1 : AtCode t1 c r1) (ha2 : AtCode t2 c r2)
    (hb : (((t1.allBits ||| t1.someBits) &&& ~~~t2.allBits) &&&
      ~~~(t1.allBits &&& ~~~(t2.allBits ||| t2.someBits))).getLsbD c.val = true)
    (hne : lookupCode t1.entries c ≠ none ∨ lookupCode t2.entries c ≠ none) :
    ∃ r, diffData ops c (lookupCode t1.entries c) (lookupCode t2.entries c) = some r ∧
      denData den c r = denData den c r1 \ denData den c r2 := by
  cases ha1 with
  | whole a1 s1 l1 =>
    cases ha2 with
    | whole a2 s2 l2 => simp [l1, l2] at hne
    | part a2 s2 l2 =>
      obtain ⟨r, hr, hden, -⟩ := hops.complement (valid_of_lookup h2 hv2 l2)
      refine ⟨r, by rw [l1, l2]; exact hr, ?_⟩
      rw [hden]
      simp [denData, Set.compl_eq_univ_sdiff]
    | nothing a2 s2 l2 => simp [l1, l2] at hne
  | part a1 s1 l1 =>
    cases ha2 with
    | whole a2 s2 l2 => simp [a2] at hb
    | part a2 s2 l2 =>
      rw [l1, l2]
      exact subtypeDiff_exact hops (valid_of_lookup h1 hv1 l1) (valid_of_lookup h2 hv2 l2)
    | nothing a2 s2 l2 => exact ⟨_, by rw [l1, l2]; rfl, by simp [denData]⟩
  | nothing a1 s1 l1 => simp [a1, s1] at hb

/-- The general path of `diff`. -/
theorem diffMerge_exact (hops : ExactOps den valid ops) (h1 : t1.WF) (h2 : t2.WF)
    (hv1 : t1.Valid valid) (hv2 : t2.Valid valid) :
    Computes den (diffMerge ops t1 t2 t1.allBits t1.someBits t2.allBits t2.someBits)
      fun c => denote den t1 c \ denote den t2 c := by
  have heq : diffMerge ops t1 t2 t1.allBits t1.someBits t2.allBits t2.someBits =
      mergeWith (diffData ops) t1 t2 (t1.allBits &&& ~~~(t2.allBits ||| t2.someBits))
        (((t1.allBits ||| t1.someBits) &&& ~~~t2.allBits) &&&
          ~~~(t1.allBits &&& ~~~(t2.allBits ||| t2.someBits))) :=
    mergeWith_congr h1 h2 fun pairs _ => diffLoop_eq pairs _
  rw [heq]
  refine mergeWith_exact (S := fun A B => A \ B) h1 h2 ?_ ?_ ?_
  · intro c hb
    simp only [BitVec.getLsbD_and, BitVec.getLsbD_not, Bool.and_eq_true, Bool.not_eq_true'] at hb
    simpa using hb.2.2
  · intro c r1 r2 ha1 ha2 hb hne
    exact diffData_exact hops h1 h2 hv1 hv2 ha1 ha2 hb hne
  · intro c r1 r2 ha1 ha2 hnot
    simp only [BitVec.getLsbD_and, BitVec.getLsbD_or, getLsbD_not_code] at hnot ⊢
    cases ha1 with
    | whole a1 s1 l1 =>
      cases ha2 with
      | whole a2 s2 l2 => simp [a1, a2, denData]
      | part a2 s2 l2 => simp [a1, a2, s2, l2] at hnot
      | nothing a2 s2 l2 => simp [a1, a2, s2, denData]
    | part a1 s1 l1 =>
      cases ha2 with
      | whole a2 s2 l2 => simp [a2, denData]
      | part a2 s2 l2 => simp [a1, a2, s1, l1] at hnot
      | nothing a2 s2 l2 => simp [a1, a2, s1, l1] at hnot
    | nothing a1 s1 l1 => simp [a1, denData]

/-! ## The shortcuts -/

theorem denote_bits (b : BasicTypeBitSet) (c : BasicTypeCode) :
    denote den (.bits b) c = if b.getLsbD c.val then Set.univ else ∅ := by
  rw [denote_eq den (r := .bool (b.getLsbD c.val)) (by simp [subtypeData])]
  by_cases hb : b.getLsbD c.val = true <;> simp [hb, denData]

theorem denote_zero (c : BasicTypeCode) : denote den (.bits 0) c = ∅ := by
  simp [denote_bits]

@[simp] theorem wf_bits (b : BasicTypeBitSet) : (SemTypeOf.bits b : SemTypeOf δ).WF := trivial

theorem computes_self {S : (c : BasicTypeCode) → Set (V c)} (h : t.WF) :
    Computes den (some t) S ↔ ∀ c, denote den t c = S c := by
  constructor
  · rintro ⟨t', heq, -, hS⟩
    cases heq
    exact hS
  · exact fun hS => ⟨t, rfl, h, hS⟩

theorem union_exact (hops : ExactOps den valid ops) (h1 : t1.WF) (h2 : t2.WF)
    (hv1 : t1.Valid valid) (hv2 : t2.Valid valid) :
    Computes den (union ops t1 t2) fun c => denote den t1 c ∪ denote den t2 c := by
  have hmerge := unionMerge_exact hops h1 h2 hv1 hv2
  match t1, t2 with
  | .bits b1, .bits b2 =>
    refine (computes_self (wf_bits _)).mpr fun c => ?_
    simp only [denote_bits, BitVec.getLsbD_or]
    by_cases hb : b1.getLsbD c.val = true <;> simp [hb]
  | .bits b1, .complex c2 =>
    simp only [union]
    split
    next h0 => exact (computes_self h2).mpr fun c => by rw [h0, denote_zero, Set.empty_union]
    next => exact hmerge
  | .complex c1, .bits b2 =>
    simp only [union]
    split
    next h0 => exact (computes_self h1).mpr fun c => by rw [h0, denote_zero, Set.union_empty]
    next => exact hmerge
  | .complex c1, .complex c2 => exact hmerge

/-- Nothing of `t` lies outside the basic types of values. -/
def WithinValues (den : (c : BasicTypeCode) → δ → Set (V c)) (t : SemTypeOf δ) : Prop :=
  ∀ c : BasicTypeCode, VT_MASK.getLsbD c.val = false → denote den t c = ∅

theorem withinValues_iff :
    WithinValues den t ↔ denote den t BT_CELL = ∅ ∧ denote den t BT_UNDEF = ∅ := by
  have hmask : ∀ c : BasicTypeCode, VT_MASK.getLsbD c.val = false ↔ c = BT_CELL ∨ c = BT_UNDEF := by
    decide
  simp only [WithinValues, hmask]
  constructor
  · exact fun h => ⟨h _ (.inl rfl), h _ (.inr rfl)⟩
  · rintro ⟨h1, h2⟩ c (rfl | rfl)
    · exact h1
    · exact h2

/-- The shortcut of `intersect` for `VT_MASK` keeps the other operand. -/
theorem denote_inter_mask_iff :
    (∀ c, denote den t c = denote den t c ∩ denote den (.bits VT_MASK) c) ↔
      WithinValues den t := by
  constructor
  · intro h c hc
    rw [h c, denote_bits, hc]
    simp
  · intro h c
    rw [denote_bits]
    split
    next => simp
    next hc =>
      rw [h c (Bool.eq_false_iff.mpr hc)]
      simp

/-- The shortcut of `diff` for `VT_MASK` gives nothing. -/
theorem denote_diff_mask_iff :
    (∀ c, denote den (SemTypeOf.bits 0 : SemTypeOf δ) c =
        denote den t c \ denote den (.bits VT_MASK) c) ↔ WithinValues den t := by
  simp only [denote_zero]
  constructor
  · intro h c hc
    have := h c
    rw [denote_bits, hc] at this
    simpa using this.symm
  · intro h c
    rw [denote_bits]
    split
    next => simp
    next hc =>
      rw [h c (Bool.eq_false_iff.mpr hc)]
      simp

/-- The condition under which the shortcuts for `VT_MASK` are right: a complex
operand beside `VT_MASK` has no part in `BT_CELL` and `BT_UNDEF`. -/
def MaskShortcutsSound (den : (c : BasicTypeCode) → δ → Set (V c)) :
    SemTypeOf δ → SemTypeOf δ → Prop
  | .bits b1, .complex c2 => b1 = VT_MASK → WithinValues den (.complex c2)
  | .complex c1, .bits b2 => b2 = VT_MASK → WithinValues den (.complex c1)
  | _, _ => True

theorem vt_mask_ne_zero : VT_MASK ≠ 0 := by decide

theorem intersect_exact_iff (hops : ExactOps den valid ops) (h1 : t1.WF) (h2 : t2.WF)
    (hv1 : t1.Valid valid) (hv2 : t2.Valid valid) :
    (Computes den (intersect ops t1 t2) fun c => denote den t1 c ∩ denote den t2 c) ↔
      MaskShortcutsSound den t1 t2 := by
  have hmerge := intersectMerge_exact hops h1 h2 hv1 hv2
  match t1, t2 with
  | .bits b1, .bits b2 =>
    refine iff_of_true ((computes_self (wf_bits _)).mpr fun c => ?_) trivial
    simp only [denote_bits, BitVec.getLsbD_and]
    by_cases hb : b1.getLsbD c.val = true <;> simp [hb]
  | .bits b1, .complex c2 =>
    simp only [intersect, MaskShortcutsSound]
    split
    next h0 =>
      refine iff_of_true ((computes_self h1).mpr fun c => ?_)
        fun h => absurd (h.symm.trans h0) vt_mask_ne_zero
      rw [h0, denote_zero, Set.empty_inter]
    next =>
      split
      next hm =>
        simp only [hm, forall_const, computes_self h2, ← denote_inter_mask_iff,
          Set.inter_comm (denote den (.bits VT_MASK) _)]
      next hm => exact iff_of_true hmerge fun h => absurd h hm
  | .complex c1, .bits b2 =>
    simp only [intersect, MaskShortcutsSound]
    split
    next h0 =>
      refine iff_of_true ((computes_self h2).mpr fun c => ?_)
        fun h => absurd (h.symm.trans h0) vt_mask_ne_zero
      rw [h0, denote_zero, Set.inter_empty]
    next =>
      split
      next hm => simp only [hm, forall_const, computes_self h1, ← denote_inter_mask_iff]
      next hm => exact iff_of_true hmerge fun h => absurd h hm
  | .complex c1, .complex c2 => exact iff_of_true hmerge trivial

theorem diff_exact (hops : ExactOps den valid ops) (h1 : t1.WF) (h2 : t2.WF)
    (hv1 : t1.Valid valid) (hv2 : t2.Valid valid) (hs : MaskShortcutsSound den t1 t2) :
    Computes den (diff ops t1 t2) fun c => denote den t1 c \ denote den t2 c := by
  have hmerge := diffMerge_exact hops h1 h2 hv1 hv2
  match t1, t2 with
  | .bits b1, .bits b2 =>
    refine (computes_self (wf_bits _)).mpr fun c => ?_
    simp only [denote_bits, BitVec.getLsbD_and, getLsbD_not_code]
    by_cases hb : b1.getLsbD c.val = true <;> by_cases hb' : b2.getLsbD c.val = true <;>
      simp [hb, hb']
  | .bits b1, .complex c2 =>
    simp only [diff]
    split
    next h0 =>
      exact (computes_self h1).mpr fun c => by rw [h0, denote_zero, Set.empty_sdiff]
    next => exact hmerge
  | .complex c1, .bits b2 =>
    simp only [diff]
    split
    next hm =>
      refine (computes_self (wf_bits _)).mpr ?_
      rw [hm]
      exact denote_diff_mask_iff.mpr (hs hm)
    next => exact hmerge
  | .complex c1, .complex c2 => exact hmerge

/-- The three operations and their general paths compute the set operations. -/
structure ExactOnPair (den : (c : BasicTypeCode) → δ → Set (V c))
    (ops : BasicTypeCode → BasicTypeOps δ) (t1 t2 : SemTypeOf δ) : Prop where
  union : Computes den (union ops t1 t2) fun c => denote den t1 c ∪ denote den t2 c
  intersect : Computes den (intersect ops t1 t2) fun c => denote den t1 c ∩ denote den t2 c
  diff : Computes den (diff ops t1 t2) fun c => denote den t1 c \ denote den t2 c
  unionMerge : Computes den
    (unionMerge ops t1 t2 t1.allBits t1.someBits t2.allBits t2.someBits)
    fun c => denote den t1 c ∪ denote den t2 c
  intersectMerge : Computes den
    (intersectMerge ops t1 t2 t1.allBits t1.someBits t2.allBits t2.someBits)
    fun c => denote den t1 c ∩ denote den t2 c
  diffMerge : Computes den
    (diffMerge ops t1 t2 t1.allBits t1.someBits t2.allBits t2.someBits)
    fun c => denote den t1 c \ denote den t2 c

/-- Union, intersection and difference are exact in every basic type, on the shortcuts
as on the general path, exactly when no operand beside `VT_MASK` has a part in
`BT_CELL` or `BT_UNDEF`. -/
theorem exactOnPair_iff (hops : ExactOps den valid ops) (h1 : t1.WF) (h2 : t2.WF)
    (hv1 : t1.Valid valid) (hv2 : t2.Valid valid) :
    ExactOnPair den ops t1 t2 ↔ MaskShortcutsSound den t1 t2 := by
  constructor
  · exact fun h => (intersect_exact_iff hops h1 h2 hv1 hv2).mp h.intersect
  · exact fun hs =>
      { union := union_exact hops h1 h2 hv1 hv2
        intersect := (intersect_exact_iff hops h1 h2 hv1 hv2).mpr hs
        diff := diff_exact hops h1 h2 hv1 hv2 hs
        unionMerge := unionMerge_exact hops h1 h2 hv1 hv2
        intersectMerge := intersectMerge_exact hops h1 h2 hv1 hv2
        diffMerge := diffMerge_exact hops h1 h2 hv1 hv2 }

end Exact

/-! ## The source's own table -/

/-- The values of one singleton boolean type. -/
def booleanDen (c : BasicTypeCode) : ProperSubtypeData → Set Bool
  | .boolean b => {v | c = BT_BOOLEAN ∧ v = b}
  | _ => ∅

/-- Boolean data, at the code of `boolean`. -/
def booleanValid (c : BasicTypeCode) (d : ProperSubtypeData) : Prop :=
  c = BT_BOOLEAN ∧ ∃ b, d = .boolean b

theorem exactOps_boolean [BddIdentity] : ExactOps booleanDen booleanValid ops where
  union := by
    rintro c d1 d2 ⟨rfl, b1, rfl⟩ ⟨-, b2, rfl⟩
    refine ⟨_, rfl, ?_, ?_⟩
    · split <;> simp
    · ext v
      cases b1 <;> cases b2 <;> cases v <;> simp [denData, booleanDen]
  intersect := by
    rintro c d1 d2 ⟨rfl, b1, rfl⟩ ⟨-, b2, rfl⟩
    refine ⟨_, rfl, ?_, ?_⟩
    · split <;> simp
    · ext v
      cases b1 <;> cases b2 <;> cases v <;> simp [denData, booleanDen]
  complement := by
    rintro c d ⟨rfl, b, rfl⟩
    refine ⟨_, rfl, ?_, ?_⟩
    · ext v
      cases b <;> cases v <;> simp [denData, booleanDen]
    · rintro d' ⟨rfl⟩
      exact ⟨rfl, _, rfl⟩
  diff := by
    rintro c f d1 d2 hf ⟨rfl, b1, rfl⟩ ⟨-, b2, rfl⟩
    cases Option.some.inj hf
    refine ⟨_, rfl, ?_⟩
    ext v
    cases b1 <;> cases b2 <;> cases v <;> simp [denData, booleanDen]

/-- `true` alone, and, with `UNDEF`, the type of an optional field of type `true`. -/
def singletonTrue (all : BasicTypeBitSet) : SemType :=
  .complex ⟨all, basicType BT_BOOLEAN, [.boolean true]⟩

theorem codesOf_boolean : codesOf (basicType BT_BOOLEAN) = [BT_BOOLEAN] := by decide

theorem singletonTrue_wf (h : all &&& basicType BT_BOOLEAN = 0) :
    (singletonTrue all).WF where
  disjoint := h
  codes := by
    intro i hi
    have heq : BT_BOOLEAN.val < 32 ∧ BT_BOOLEAN.val = i := by
      simpa [singletonTrue, basicType_eq_twoPow, BitVec.getLsbD_twoPow] using hi
    exact heq.2 ▸ BT_BOOLEAN.isLt
  length := by simp [codesOf_boolean]

theorem singletonTrue_valid (all : BasicTypeBitSet) :
    (singletonTrue all).Valid booleanValid := by
  intro e he
  simp only [singletonTrue, SemTypeOf.entries, codesOf_boolean, List.zip_cons_cons, List.zip_nil_left,
    List.mem_singleton] at he
  exact he ▸ ⟨rfl, true, rfl⟩

/-- `true` and the type of all values. -/
theorem exactOnPair_true_val :
    @ExactOnPair _ (fun _ => Bool) booleanDen (@ops .shared) (singletonTrue 0) (.bits VAL) := by
  let _ := BddIdentity.shared
  refine (exactOnPair_iff exactOps_boolean (singletonTrue_wf (by decide)) (wf_bits _)
    (singletonTrue_valid _) (by intro e he; cases he)).mpr fun _ => withinValues_iff.mpr ?_
  constructor
  · rw [denote_eq booleanDen (r := .bool false) rfl]
    rfl
  · rw [denote_eq booleanDen (r := .bool false) rfl]
    rfl

/-- For an optional field of type `true`, `diff(t, VAL)` is `NEVER` although the field
may be absent, and `intersect(t, VAL)` still lets it be absent. -/
theorem not_exactOnPair_optional_val :
    ExactOps booleanDen booleanValid (@ops .shared) ∧ (singletonTrue UNDEF).WF ∧
      (singletonTrue UNDEF).Valid booleanValid ∧
      ¬ @ExactOnPair _ (fun _ => Bool) booleanDen (@ops .shared) (singletonTrue UNDEF)
        (.bits VAL) := by
  let _ := BddIdentity.shared
  refine ⟨exactOps_boolean, singletonTrue_wf (by decide), singletonTrue_valid _, fun h => ?_⟩
  obtain ⟨t, ht, -, hden⟩ := h.diff
  have hdiff : diff ops (singletonTrue UNDEF) (.bits VAL) = some (.bits 0) := rfl
  cases hdiff.symm.trans ht
  have hundef := hden BT_UNDEF
  dsimp only at hundef
  rw [denote_zero, denote_eq booleanDen (t := singletonTrue UNDEF) (r := .bool true) rfl,
    denote_eq booleanDen (t := .bits VAL) (r := .bool false) rfl] at hundef
  have : (true : Bool) ∈ (∅ : Set Bool) := hundef ▸ ⟨trivial, fun h => h⟩
  exact this

end Nballerina.Types
