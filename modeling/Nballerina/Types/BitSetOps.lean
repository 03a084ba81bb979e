import Nballerina.Types.CoreExact

/-!
# Operations with a bit set

Union, intersection and difference of a complex type and a bit set leave the data of the type as it is, if
the bit set has none of its basic types. So `UNDEF` can be added to a type and taken out again
(`Plain.union_undef`).

The operations on two types of one basic type are the operations on their data.
-/

namespace Nballerina.Types

variable {δ : Type} {ops : BasicTypeCode → BasicTypeOps δ}

section Complex

variable {all b : BasicTypeBitSet} {L : List (BasicTypeCode × δ)}

/-- The bits of the data. -/
def dataBits (L : List (BasicTypeCode × δ)) : BasicTypeBitSet :=
  L.foldl (fun bits entry => bits ||| basicType entry.1) 0

theorem unpack_create (all : BasicTypeBitSet) (hs : SortedCodes L) :
    unpackComplexSemType (createComplexSemType all L) = some L := by
  have hcodes := codesOf_createComplexSemType all hs
  unfold unpackComplexSemType
  have hlength : (createComplexSemType all L).subtypeDataList.length =
      (codesOf (createComplexSemType all L).some).length := by
    rw [hcodes, List.length_map]
    exact List.length_map _
  rw [unpackFrom_eq _ _ hlength, hcodes]
  exact congrArg some (List.zip_of_prod rfl rfl).symm

/-- The data has none of these basic types. -/
def DataOutside (L : List (BasicTypeCode × δ)) (b : BasicTypeBitSet) : Prop :=
  ∀ e ∈ L, b.getLsbD e.1.val = false

theorem DataOutside.bits (h : DataOutside L b) : dataBits L &&& ~~~b = dataBits L := by
  refine BitVec.eq_of_getLsbD_eq fun i hi => ?_
  cases hbit : (dataBits L).getLsbD i with
  | false => simp [hbit]
  | true =>
    rcases (getLsbD_foldl_basicType L 0 i).mp hbit with hzero | ⟨e, he, rfl⟩
    · simp at hzero
    · rw [BitVec.getLsbD_and, BitVec.getLsbD_not, h e he, hbit, decide_eq_true hi]
      rfl

theorem dataBits_ne_zero (hL : L ≠ []) : dataBits L ≠ 0 := by
  obtain ⟨e, L', rfl⟩ := List.exists_cons_of_ne_nil hL
  intro hzero
  have hbit := (getLsbD_foldl_basicType (e :: L') 0 e.1.val).mpr (Or.inr ⟨e, List.mem_cons_self, rfl⟩)
  rw [show (e :: L').foldl _ _ = _ from hzero] at hbit
  simp at hbit

theorem subtypePairs_left_all (L : List (BasicTypeCode × δ)) :
    subtypePairs (dataBits L) L [] = L.map fun e => (e.1, some e.2, none) := by
  have hall : L.filter (subtypePairs.includes (dataBits L) ·.1) = L := by
    refine List.filter_eq_self.mpr fun e he => ?_
    rw [includes_eq]
    exact (getLsbD_foldl_basicType L 0 _).mpr (Or.inr ⟨e, he, rfl⟩)
  cases L with
  | nil =>
    rw [subtypePairs]
    rfl
  | cons e L =>
    rw [subtypePairs, hall]

theorem subtypePairIterator_bits (all b : BasicTypeBitSet) (hs : SortedCodes L) :
    subtypePairIterator (.complex (createComplexSemType all L)) (.bits b) (dataBits L) =
      some (L.map fun e => (e.1, some e.2, none)) := by
  show (do
    let u1 ← unpackComplexSemType (createComplexSemType all L)
    return subtypePairs (dataBits L) u1 []) = _
  rw [unpack_create all hs]
  exact congrArg some (subtypePairs_left_all L)

theorem unionLoop_left (all : BasicTypeBitSet) : ∀ (L acc : List (BasicTypeCode × δ)),
    unionLoop ops (L.map fun e => (e.1, some e.2, none)) (all, acc) = some (all, acc ++ L)
  | [], acc => by
    rw [List.append_nil]
    rfl
  | e :: L, acc => by
    show unionLoop ops (L.map fun e => (e.1, some e.2, none)) (all, acc ++ [(e.1, e.2)]) = _
    rw [unionLoop_left all L, List.append_assoc]
    rfl

theorem diffLoop_leftOnly (all : BasicTypeBitSet) : ∀ (L acc : List (BasicTypeCode × δ)),
    diffLoop ops (L.map fun e => (e.1, some e.2, none)) (all, acc) = some (all, acc ++ L)
  | [], acc => by
    rw [List.append_nil]
    rfl
  | e :: L, acc => by
    show diffLoop ops (L.map fun e => (e.1, some e.2, none)) (all, acc ++ [(e.1, e.2)]) = _
    rw [diffLoop_leftOnly all L, List.append_assoc]
    rfl

theorem finishSemType_ne (hL : L ≠ []) (all : BasicTypeBitSet) :
    finishSemType (all, L) = .complex (createComplexSemType all L) := by
  unfold finishSemType
  rw [if_neg (by simpa using hL)]

theorem union_bits (hL : L ≠ []) (hs : SortedCodes L) (hb : b ≠ 0) (hout : DataOutside L (all ||| b)) :
    union ops (.complex (createComplexSemType all L)) (.bits b) =
      some (.complex (createComplexSemType (all ||| b) L)) := by
  have hzero : dataBits L ||| 0 = dataBits L := BitVec.or_zero
  have hsome : (dataBits L ||| 0) &&& ~~~(all ||| b) = dataBits L := by
    rw [hzero, hout.bits]
  show (if b = 0 then some (.complex (createComplexSemType all L)) else
    unionMerge ops (.complex (createComplexSemType all L)) (.bits b) all (dataBits L) b 0) = _
  rw [if_neg hb]
  unfold unionMerge
  dsimp only
  rw [hsome, if_neg (dataBits_ne_zero hL), subtypePairIterator_bits all b hs]
  show (do
    let result ← unionLoop ops (L.map fun e : BasicTypeCode × δ => (e.1, some e.2, none)) (all ||| b, [])
    return finishSemType result) = _
  rw [unionLoop_left]
  exact congrArg some (finishSemType_ne hL _)

theorem diff_bits (hL : L ≠ []) (hs : SortedCodes L) (hb : b ≠ VT_MASK) (hall : DataOutside L all)
    (hout : DataOutside L b) : diff ops (.complex (createComplexSemType all L)) (.bits b) =
      some (.complex (createComplexSemType (all &&& ~~~b) L)) := by
  have hzero : b ||| 0 = b := BitVec.or_zero
  have hsome : ((all ||| dataBits L) &&& ~~~b) &&& ~~~(all &&& ~~~(b ||| 0)) = dataBits L := by
    rw [hzero]
    refine BitVec.eq_of_getLsbD_eq fun i hi => ?_
    have hdata := congrArg (BitVec.getLsbD · i) hout.bits
    have hdata' := congrArg (BitVec.getLsbD · i) hall.bits
    simp only [BitVec.getLsbD_and, BitVec.getLsbD_or, BitVec.getLsbD_not, hi, decide_true,
      Bool.true_and] at hdata hdata' ⊢
    cases hx : (dataBits L).getLsbD i with
    | true =>
      rw [hx, Bool.true_and] at hdata hdata'
      rw [hdata, Bool.not_eq_true' _ |>.mp hdata']
      rfl
    | false => cases all.getLsbD i <;> cases b.getLsbD i <;> rfl
  show (if b = VT_MASK then some (.bits 0) else
    diffMerge ops (.complex (createComplexSemType all L)) (.bits b) all (dataBits L) b 0) = _
  rw [if_neg hb]
  unfold diffMerge
  dsimp only
  rw [hsome, if_neg (dataBits_ne_zero hL), subtypePairIterator_bits all b hs, hzero]
  show (do
    let result ← diffLoop ops (L.map fun e : BasicTypeCode × δ => (e.1, some e.2, none)) (all &&& ~~~b, [])
    return finishSemType result) = _
  rw [diffLoop_leftOnly]
  exact congrArg some (finishSemType_ne hL _)

end Complex

/-! ## Intersection with a bit set that has the type -/

section Inside

variable {b : BasicTypeBitSet} {L : List (BasicTypeCode × δ)}

theorem intersectLoop_left : ∀ (L acc : List (BasicTypeCode × δ)),
    intersectLoop ops (L.map fun e => (e.1, some e.2, none)) acc = some (acc ++ L)
  | [], acc => by
    rw [List.append_nil]
    rfl
  | e :: L, acc => by
    show intersectLoop ops (L.map fun e => (e.1, some e.2, none)) (acc ++ [(e.1, e.2)]) = _
    rw [intersectLoop_left L, List.append_assoc]
    rfl

/-- The data is of these basic types. -/
theorem dataBits_and (h : ∀ e ∈ L, b.getLsbD e.1.val = true) : dataBits L &&& b = dataBits L := by
  refine BitVec.eq_of_getLsbD_eq fun i hi => ?_
  rw [BitVec.getLsbD_and]
  cases hbit : (dataBits L).getLsbD i with
  | false => rfl
  | true =>
    rcases (getLsbD_foldl_basicType L 0 i).mp hbit with hzero | ⟨e, he, rfl⟩
    · simp at hzero
    · rw [h e he]
      rfl

theorem intersect_bits (hL : L ≠ []) (hs : SortedCodes L) (hb : b ≠ 0)
    (hin : ∀ e ∈ L, b.getLsbD e.1.val = true) :
    intersect ops (.complex (createComplexSemType 0 L)) (.bits b) =
      some (.complex (createComplexSemType 0 L)) := by
  have hand : (0 : BasicTypeBitSet) &&& b = 0 := BitVec.zero_and
  have hor : dataBits L ||| 0 = dataBits L := BitVec.or_zero
  have hor' : 0 ||| b = b := BitVec.zero_or
  have hnot : dataBits L &&& ~~~0 = dataBits L := by
    have hones : ~~~(0 : BasicTypeBitSet) = BitVec.allOnes 32 := BitVec.not_zero
    rw [hones]
    exact BitVec.and_allOnes
  show (if b = 0 then some (.bits b) else
    if b = VT_MASK then some (.complex (createComplexSemType 0 L)) else
      intersectMerge ops (.complex (createComplexSemType 0 L)) (.bits b) 0 (dataBits L) b 0) = _
  rw [if_neg hb]
  by_cases hmask : b = VT_MASK
  · exact if_pos hmask
  · rw [if_neg hmask]
    unfold intersectMerge
    dsimp only
    rw [hand, hor, hor', dataBits_and hin, hnot, if_neg (dataBits_ne_zero hL),
      subtypePairIterator_bits 0 b hs]
    show (do
      let subtypes ← intersectLoop ops (L.map fun e : BasicTypeCode × δ => (e.1, some e.2, none)) []
      return finishSemType (0, subtypes)) = _
    rw [intersectLoop_left]
    exact congrArg some (finishSemType_ne hL 0)

end Inside

section OneBasicType

variable {c : BasicTypeCode} {d d1 d2 : δ}

theorem basicType_bits (c : BasicTypeCode) : (0 ||| basicType c : BasicTypeBitSet) = basicType c ∧
    basicType c ≠ 0 ∧ basicType c &&& ~~~(0 ||| 0) = basicType c ∧
    basicType c &&& ~~~(0 &&& 0) = basicType c := by
  revert c
  decide

theorem unpack_basicSubtype (c : BasicTypeCode) (d : δ) :
    subtypePairIterator.unpack (basicSubtype c d) = some [(c, d)] :=
  unpack_create 0 (List.pairwise_singleton ..)

theorem subtypePairs_one (c : BasicTypeCode) (d1 d2 : δ) :
    subtypePairs (basicType c) [(c, d1)] [(c, d2)] = [(c, some d1, some d2)] := by
  have hincludes : subtypePairs.includes (basicType c) c = true := by
    revert c
    decide
  rw [subtypePairs, if_pos rfl]
  unfold subtypePairs.emit
  rw [if_pos hincludes, subtypePairs]
  rfl

theorem subtypePairIterator_one (c : BasicTypeCode) (d1 d2 : δ) :
    subtypePairIterator (basicSubtype c d1) (basicSubtype c d2) (basicType c) =
      some [(c, some d1, some d2)] := by
  unfold subtypePairIterator
  rw [unpack_basicSubtype, unpack_basicSubtype]
  exact congrArg some (subtypePairs_one c d1 d2)

theorem subtypePairIterator_right (c : BasicTypeCode) (d : δ) :
    subtypePairIterator (.bits (basicType c)) (basicSubtype c d) (basicType c) =
      some [(c, none, some d)] := by
  have hbit : (basicType c).getLsbD c.val = true := by
    revert c
    decide
  have hfilter : [(c, d)].filter (subtypePairs.includes (basicType c) ·.1) = [(c, d)] :=
    List.filter_eq_self.mpr fun e he => by
      rw [List.mem_singleton.mp he, includes_eq]
      exact hbit
  unfold subtypePairIterator
  rw [unpack_basicSubtype]
  show some (subtypePairs (basicType c) [] [(c, d)]) = _
  rw [subtypePairs, hfilter]
  rfl

theorem union_basicSubtype (h : (ops c).union d1 d2 = some (.proper d)) :
    union ops (basicSubtype c d1) (basicSubtype c d2) = some (basicSubtype c d) := by
  obtain ⟨hsome, hne, hall, _⟩ := basicType_bits c
  show unionMerge ops (basicSubtype c d1) (basicSubtype c d2) 0 (0 ||| basicType c) 0
    (0 ||| basicType c) = _
  unfold unionMerge
  dsimp only
  rw [hsome, BitVec.or_self, hall, if_neg hne, subtypePairIterator_one]
  have hdata : unionData ops c (some d1) (some d2) = some (.proper d) := h
  have hloop : unionLoop ops [(c, some d1, some d2)] (0 ||| 0, []) = some (0 ||| 0, [(c, d)]) := by
    unfold unionLoop
    rw [hdata]
    rfl
  show (do
    let result ← unionLoop ops [(c, some d1, some d2)] (0 ||| 0, [])
    return finishSemType result) = _
  rw [hloop]
  rfl

theorem intersect_basicSubtype (h : (ops c).intersect d1 d2 = some (.proper d)) :
    intersect ops (basicSubtype c d1) (basicSubtype c d2) = some (basicSubtype c d) := by
  obtain ⟨hsome, hne, _, hall⟩ := basicType_bits c
  have hor : basicType c ||| 0 = basicType c := BitVec.or_zero
  show intersectMerge ops (basicSubtype c d1) (basicSubtype c d2) 0 (0 ||| basicType c) 0
    (0 ||| basicType c) = _
  unfold intersectMerge
  dsimp only
  rw [hsome, hor, BitVec.and_self, hall, if_neg hne, subtypePairIterator_one]
  have hdata : intersectData ops c (some d1) (some d2) = some (.proper d) := h
  have hloop : intersectLoop ops [(c, some d1, some d2)] [] = some [(c, d)] := by
    unfold intersectLoop
    rw [hdata]
    rfl
  show (do
    let subtypes ← intersectLoop ops [(c, some d1, some d2)] []
    return finishSemType (0 &&& 0, subtypes)) = _
  rw [hloop]
  rfl

theorem union_basicSubtype_all (c : BasicTypeCode) (d : δ) :
    union ops (basicSubtype c d) (.bits (basicType c)) = some (.bits (basicType c)) ∧
      union ops (.bits (basicType c)) (basicSubtype c d) = some (.bits (basicType c)) := by
  obtain ⟨hzero, hne, _, _⟩ := basicType_bits c
  have hor : basicType c ||| 0 = basicType c := BitVec.or_zero
  have hnone : basicType c &&& ~~~basicType c = 0 := BitVec.and_not_self _
  constructor
  · show (if basicType c = 0 then some (basicSubtype c d) else unionMerge ops (basicSubtype c d)
      (.bits (basicType c)) 0 (0 ||| basicType c) (basicType c) 0) = _
    rw [if_neg hne]
    unfold unionMerge
    dsimp only
    rw [hzero, hor, hnone, if_pos rfl]
    rfl
  · show (if basicType c = 0 then some (basicSubtype c d) else unionMerge ops (.bits (basicType c))
      (basicSubtype c d) (basicType c) 0 0 (0 ||| basicType c)) = _
    rw [if_neg hne]
    unfold unionMerge
    dsimp only
    rw [hzero, hor, hzero, hnone, if_pos rfl]
    rfl

theorem intersect_basicSubtype_all (c : BasicTypeCode) (d : δ) :
    intersect ops (basicSubtype c d) (.bits (basicType c)) = some (basicSubtype c d) ∧
      intersect ops (.bits (basicType c)) (basicSubtype c d) = some (basicSubtype c d) := by
  obtain ⟨hzero, hne, _, hall⟩ := basicType_bits c
  have hmask : basicType c ≠ VT_MASK := by
    revert c
    decide
  have hbit : (basicType c).getLsbD c.val = true := by
    revert c
    decide
  constructor
  · exact intersect_bits (List.cons_ne_nil _ _) (List.pairwise_singleton ..) hne fun e he => by
      rw [List.mem_singleton.mp he]
      exact hbit
  · have hor : basicType c ||| 0 = basicType c := BitVec.or_zero
    have hand : basicType c &&& 0 = 0 := BitVec.and_zero
    have hall' : basicType c &&& ~~~0 = basicType c := hall
    show (if basicType c = 0 then some (.bits (basicType c)) else
      if basicType c = VT_MASK then some (basicSubtype c d) else
        intersectMerge ops (.bits (basicType c)) (basicSubtype c d) (basicType c) 0 0
          (0 ||| basicType c)) = _
    rw [if_neg hne, if_neg hmask]
    unfold intersectMerge
    dsimp only
    rw [hzero, hor, BitVec.and_self, hand, hall', if_neg hne, subtypePairIterator_right]
    rfl

/-- A difference that is nothing. -/
theorem diff_basicSubtype (h : subtypeDiff ops c d1 d2 = some (.bool false)) :
    diff ops (basicSubtype c d1) (basicSubtype c d2) = some (.bits 0) := by
  obtain ⟨hzero, hne, _, hall⟩ := basicType_bits c
  have hnot : (0 : BasicTypeBitSet) &&& ~~~basicType c = 0 := BitVec.zero_and
  have hall' : basicType c &&& ~~~0 = basicType c := hall
  have hloop : diffLoop ops [(c, some d1, some d2)] (0, []) = some (0, []) := by
    unfold diffLoop diffData
    dsimp only
    rw [h]
    rfl
  show diffMerge ops (basicSubtype c d1) (basicSubtype c d2) 0 (0 ||| basicType c) 0
    (0 ||| basicType c) = _
  unfold diffMerge
  dsimp only
  rw [hzero, hzero, hnot, hall', hall', if_neg hne, subtypePairIterator_one]
  dsimp only [Option.bind_eq_bind, Option.bind_some]
  rw [hloop]
  rfl

/-- What is left of a basic type is the complement. -/
theorem diff_basicSubtype_all (h : (ops c).complement d1 = some (.proper d)) :
    diff ops (.bits (basicType c)) (basicSubtype c d1) = some (basicSubtype c d) := by
  obtain ⟨hzero, hne, _, hall⟩ := basicType_bits c
  have hor : basicType c ||| 0 = basicType c := BitVec.or_zero
  have hnot : basicType c &&& ~~~basicType c = 0 := BitVec.and_not_self _
  have hall' : basicType c &&& ~~~0 = basicType c := hall
  have hloop : diffLoop ops [(c, none, some d1)] (0, []) = some (0, [(c, d)]) := by
    unfold diffLoop diffData
    dsimp only [Option.bind_some]
    rw [h]
    rfl
  show (if basicType c = 0 then some (.bits (basicType c)) else
    diffMerge ops (.bits (basicType c)) (basicSubtype c d1) (basicType c) 0 0 (0 ||| basicType c)) = _
  rw [if_neg hne]
  unfold diffMerge
  dsimp only
  rw [hzero, hzero, hor, hnot, hall', hall', if_neg hne, subtypePairIterator_right]
  dsimp only [Option.bind_eq_bind, Option.bind_some]
  rw [hloop]
  rfl

end OneBasicType

/-- A type without `UNDEF`, in the form that the operations give it. -/
inductive Plain : SemTypeOf δ → Prop
  | bits {b : BasicTypeBitSet} : b &&& UNDEF = 0 → Plain (.bits b)
  | complex {all : BasicTypeBitSet} {L : List (BasicTypeCode × δ)} : L ≠ [] → SortedCodes L →
      DataOutside L all → DataOutside L UNDEF → all &&& UNDEF = 0 →
      Plain (.complex (createComplexSemType all L))

theorem andNot_of_disjoint {b c : BasicTypeBitSet} (h : b &&& c = 0) : b &&& ~~~c = b := by
  refine BitVec.eq_of_getLsbD_eq fun i hi => ?_
  have hbit : (b &&& c).getLsbD i = false := by
    rw [h]
    exact BitVec.getLsbD_zero
  rw [BitVec.getLsbD_and] at hbit
  rw [BitVec.getLsbD_and, BitVec.getLsbD_not, decide_eq_true hi, Bool.true_and]
  cases hb : b.getLsbD i with
  | false => rfl
  | true =>
    rw [hb, Bool.true_and] at hbit
    rw [hbit]
    rfl

theorem Plain.diff_undef {t : SemTypeOf δ} (h : Plain t) : diff ops t (.bits UNDEF) = some t := by
  cases h with
  | bits hb => exact congrArg (fun c => some (SemTypeOf.bits c)) (andNot_of_disjoint hb)
  | complex hL hs hall hundef hb =>
    rw [diff_bits hL hs (by decide) hall hundef, andNot_of_disjoint hb]

/-- `UNDEF` can be added and taken out again. -/
theorem Plain.union_undef {t : SemTypeOf δ} (h : Plain t) :
    ∃ u, union ops t (.bits UNDEF) = some u ∧ diff ops u (.bits UNDEF) = some t := by
  have hback : ∀ {b : BasicTypeBitSet}, b &&& UNDEF = 0 → (b ||| UNDEF) &&& ~~~UNDEF = b := by
    intro b hb
    have hself : UNDEF &&& ~~~UNDEF = 0 := by decide
    rw [BitVec.and_comm, BitVec.and_or_distrib_left, BitVec.and_comm _ b, BitVec.and_comm _ UNDEF, hself,
      andNot_of_disjoint hb]
    exact BitVec.or_zero
  cases h with
  | bits hb => exact ⟨_, rfl, congrArg (fun c => some (SemTypeOf.bits c)) (hback hb)⟩
  | @complex all L hL hs hall hundef hb =>
    have hout : DataOutside L (all ||| UNDEF) := by
      intro e he
      rw [BitVec.getLsbD_or, hall e he, hundef e he]
      rfl
    refine ⟨_, union_bits hL hs (by decide) hout, ?_⟩
    rw [diff_bits hL hs (by decide) hout hundef, hback hb]

end Nballerina.Types
