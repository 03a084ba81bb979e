import Nballerina.Runtime.Compare

/-!
# The order of lists

`optListDoCompare` does not look at the members if it gets one tagged pointer twice: then the result is equal. With
another list of the same members it is not, if one of these is NaN, which is not equal to NaN, and the pointer to the
same list with the other `EXACT_FLAG` is such another pointer (`exists_otherPointer`). So the order depends on the
members only (`MembersOnly`) in those heaps where no list has NaN among its members (`membersOnly_iff`).

Of everything else the comparison sees the values only: a list comes before another whichever blocks have their
members, and after it the other way round (`agree_of_copies`).

Mirroring notes:
- Of the decNumber library it is used that numbers compare the other way round when they are swapped
  (`DecNumber.Swaps`).
- Lists of finite depth are compared; `Copies` is inductive.
-/

namespace Nballerina.Runtime

open Nballerina.Lib Nballerina.Types

variable {M : Type}

/-! ## Scalars -/

/-- The result for the values the other way round. -/
def CompareResult.swap : CompareResult → CompareResult
  | .un => .un
  | .lt => .gt
  | .eq => .eq
  | .gt => .lt

theorem CompareResult.swap_eq_eq {r : CompareResult} : r.swap = .eq ↔ r = .eq := by
  cases r <;> decide

theorem intCompare_swap (n1 n2 : Int) : intCompare n2 n1 = (intCompare n1 n2).swap := by
  unfold intCompare
  rcases lt_trichotomy n1 n2 with h | h | h
  · rw [if_neg (by omega), if_neg (by omega), if_neg (by omega), if_pos h]
    rfl
  · rw [if_pos h.symm, if_pos h]
    rfl
  · rw [if_neg (by omega), if_pos h, if_neg (by omega), if_neg (by omega)]
    rfl

theorem intCompare_self (n : Int) : intCompare n n = .eq := if_pos rfl

theorem fcmpOeq_comm (d1 d2 : Word) : fcmpOeq d2 d1 = fcmpOeq d1 d2 := by
  unfold fcmpOeq
  rw [Bool.and_comm (!floatIsNaN d2), Bool.and_comm (floatIsZero d2), BEq.comm]

theorem fcmpOlt_asymm {d1 d2 : Word} (h : fcmpOlt d1 d2 = true) : fcmpOlt d2 d1 = false := by
  unfold fcmpOlt at h ⊢
  rw [Bool.and_eq_true, decide_eq_true_eq] at h
  rw [decide_eq_false (by omega), Bool.and_false]

theorem floatCompare_swap (d1 d2 : Word) : floatCompare d2 d1 = (floatCompare d1 d2).swap := by
  unfold floatCompare
  rw [fcmpOeq_comm]
  split
  next => rfl
  next =>
    cases hlt : fcmpOlt d1 d2 with
    | true => rw [fcmpOlt_asymm hlt]; rfl
    | false =>
      rw [if_neg Bool.false_ne_true]
      split
      · rfl
      · rfl

/-- NaN is in no order. -/
theorem floatCompare_self (d : Word) : floatCompare d d = if floatIsNaN d then .un else .eq := by
  unfold floatCompare fcmpOeq fcmpOlt
  cases floatIsNaN d with
  | true => rfl
  | false => simp

/-- Numbers compare the other way round when they are swapped. -/
structure DecNumber.Swaps (dec : DecNumber) : Prop where
  zero : ∀ {d1 d2}, dec.compare d1 d1 = .posZero → dec.compare d2 d2 = .posZero →
    (dec.compare d2 d1 = .posZero ↔ dec.compare d1 d2 = .posZero)
  normal : ∀ {d1 d2}, dec.compare d1 d1 = .posZero → dec.compare d2 d2 = .posZero →
    (dec.compare d2 d1 = .posNormal ↔ dec.compare d1 d2 = .other)

/-- A value that is not a list or a mapping. -/
inductive Scalar where
  | nil
  | boolean (b : Bool)
  | int (n : Int)
  | float (d : Word)
  | decimal (d : DecQuad)
  | string (s : List Char)

def Scalar.code : Scalar → BasicTypeCode
  | .nil => BT_NIL
  | .boolean _ => BT_BOOLEAN
  | .int _ => BT_INT
  | .float _ => BT_FLOAT
  | .decimal _ => BT_DECIMAL
  | .string _ => BT_STRING

/-- The tag without the flag of immediate values. -/
def Scalar.tag (x : Scalar) : Word := BitVec.ofNat 64 x.code.val

/-- The comparison of values. -/
def Scalar.compare (dec : DecNumber) : Scalar → Scalar → CompareResult
  | .nil, .nil => .eq
  | .boolean b1, .boolean b2 => if b1 = b2 then .eq else if b1 < b2 then .lt else .gt
  | .int n1, .int n2 => intCompare n1 n2
  | .float d1, .float d2 => floatCompare d1 d2
  | .decimal d1, .decimal d2 =>
    match dec.compare d1 d2 with
    | .posZero => .eq
    | .posNormal => .gt
    | .other => .lt
  | .string s1, .string s2 => if s1 = s2 then .eq else if s1 < s2 then .lt else .gt
  | _, _ => .un

/-- A decimal is a number. -/
def Scalar.IsNumber (dec : DecNumber) : Scalar → Prop
  | .decimal d => dec.compare d d = .posZero
  | _ => True

def Scalar.IsNaN : Scalar → Prop
  | .float d => floatIsNaN d = true
  | _ => False

section Scalars

variable {dec : DecNumber} {x y : Scalar}

/-- The tag of a basic type tells it. -/
theorem code_eq_of_tag : ∀ {c1 c2 : BasicTypeCode}, BitVec.ofNat 64 c1.val = BitVec.ofNat 64 c2.val → c1 = c2 := by
  decide

theorem Scalar.code_eq_of_tag_eq (h : x.tag = y.tag) : x.code = y.code := code_eq_of_tag h

theorem Scalar.tag_ne_list (x : Scalar) : x.tag ≠ Tag.list := by
  intro h
  have hcode : x.code = BT_LIST := code_eq_of_tag h
  cases x <;> cases hcode

/-- Values of different basic types are not ordered. -/
theorem Scalar.compare_of_tag_ne (h : x.tag ≠ y.tag) : x.compare dec y = .un := by
  cases x <;> cases y <;> first | rfl | exact absurd rfl h

/-- Numbers that are swapped compare the other way. -/
theorem Scalar.compare_swap (hdec : dec.Swaps) (hx : x.IsNumber dec) (hy : y.IsNumber dec) :
    y.compare dec x = (x.compare dec y).swap := by
  cases x with
  | nil => cases y <;> rfl
  | boolean b1 =>
    cases y with
    | boolean b2 => cases b1 <;> cases b2 <;> rfl
    | _ => rfl
  | int n1 =>
    cases y with
    | int n2 => exact intCompare_swap n1 n2
    | _ => rfl
  | float d1 =>
    cases y with
    | float d2 => exact floatCompare_swap d1 d2
    | _ => rfl
  | decimal d1 =>
    cases y with
    | decimal d2 =>
      have hzero := hdec.zero hx hy
      have hnormal := hdec.normal hx hy
      have hnormal' := hdec.normal hy hx
      unfold Scalar.compare
      dsimp only
      cases h1 : dec.compare d1 d2 with
      | posZero => rw [hzero.mpr h1]; rfl
      | posNormal => rw [hnormal'.mp h1]; rfl
      | other => rw [hnormal.mpr h1]; rfl
    | _ => rfl
  | string s1 =>
    cases y with
    | string s2 =>
      unfold Scalar.compare
      dsimp only
      rcases lt_trichotomy s1 s2 with h | h | h
      · rw [if_neg h.ne', if_neg h.asymm, if_neg h.ne, if_pos h]
        rfl
      · rw [if_pos h.symm, if_pos h]
        rfl
      · rw [if_neg h.ne, if_neg h.asymm, if_neg h.ne', if_pos h]
        rfl
    | _ => rfl

/-- A number is equal to itself, and only NaN is not. -/
theorem Scalar.compare_self (hx : x.IsNumber dec) : x.compare dec x = .eq ↔ ¬ x.IsNaN := by
  cases x with
  | nil => exact iff_of_true rfl id
  | boolean b => exact iff_of_true (if_pos rfl) id
  | int n => exact iff_of_true (intCompare_self n) id
  | float d =>
    show floatCompare d d = .eq ↔ ¬ floatIsNaN d = true
    rw [floatCompare_self]
    cases floatIsNaN d <;> decide
  | decimal d =>
    refine iff_of_true ?_ id
    unfold Scalar.compare
    dsimp only
    rw [show dec.compare d d = .posZero from hx]
  | string s => exact iff_of_true (if_pos rfl) id

end Scalars

/-! ## Members -/

section Members

variable (dec : DecNumber) (o : Objects M)

/-- The value of a member that is not a list or a mapping. -/
inductive IsScalar : Member → Scalar → Prop where
  | nil : IsScalar (.tagged taggedNil) .nil
  | boolean (b : Bool) : IsScalar (.tagged (taggedBoolean b)) (.boolean b)
  | int (v : Member) (htag : v.getTag = Tag.int ∨ v.getTag = Tag.int ||| Tag.immediate) :
      IsScalar v (.int (taggedToInt o.mem v).toInt)
  | float (v : Member) (htag : v.getTag = Tag.float) : IsScalar v (.float (loadBox o.mem v))
  | decimal (tp : TaggedPtr) (htag : getTag tp = Tag.decimal)
      (hnumber : dec.compare (taggedToDecQuad o.mem tp) (taggedToDecQuad o.mem tp) = .posZero) :
      IsScalar (.tagged tp) (.decimal (taggedToDecQuad o.mem tp))
  | string (tp : TaggedPtr) (s : List Char) (hmem : (tp, s) ∈ o.store.strings) :
      IsScalar (.tagged tp) (.string s)

/-- Two values that a program cannot tell apart but by their addresses: scalars with one value, or lists with such
members. -/
inductive Copies : Member → Member → Prop where
  | scalar {v w : Member} {x : Scalar} (hv : IsScalar dec o v x) (hw : IsScalar dec o w x) : Copies v w
  | list {v w : Member} {l1 l2 : MemberArray} (hv : o.HasList v l1) (hw : o.HasList w l2)
      (length : l1.length = l2.length) (members : ∀ p ∈ l1.values.zip l2.values, Copies p.1 p.2) : Copies v w

end Members

section Right

variable {dec : DecNumber} {o : Objects M} {u v w v' w' : Member} {x y : Scalar}

theorem IsScalar.isNumber (h : IsScalar dec o v x) : x.IsNumber dec := by
  cases h with
  | decimal tp htag hnumber => exact hnumber
  | _ => trivial

theorem IsScalar.getTag_eq (hstore : Reachable o.store) (h : IsScalar dec o v x) :
    v.getTag &&& 0x1F#64 = x.tag := by
  cases h with
  | nil => decide
  | boolean b => cases b <;> decide
  | int v htag =>
    show _ = BitVec.ofNat 64 BT_INT.val
    rcases htag with htag | htag
    · rw [htag]
      decide
    · rw [htag]
      decide
  | float v htag =>
    show _ = BitVec.ofNat 64 BT_FLOAT.val
    rw [htag]
    decide
  | decimal tp htag hnumber =>
    show getTag tp &&& 0x1F#64 = BitVec.ofNat 64 BT_DECIMAL.val
    rw [htag]
    decide
  | string tp s hmem =>
    show getTag tp &&& 0x1F#64 = BitVec.ofNat 64 BT_STRING.val
    rw [Represents.getTag_eq (hstore.valid _ hmem)]
    split
    · decide
    · decide

variable {l : MemberArray} {r : CompareResult} {ps : List (Member × Member)}

theorem getTag_hasList (h : o.HasList v l) : v.getTag &&& 0x1F#64 = Tag.list := by
  rw [tag_of_hasList h]
  decide

theorem not_isScalar_of_hasList (hstore : Reachable o.store) (h : o.HasList v l) :
    ¬ IsScalar dec o v x := fun hx =>
  x.tag_ne_list ((hx.getTag_eq hstore).symm.trans (getTag_hasList h))

/-- A member has one value. -/
theorem IsScalar.unique (hstore : Reachable o.store) (hx : IsScalar dec o v x) (hy : IsScalar dec o v y) :
    x = y := by
  have hcode := Scalar.code_eq_of_tag_eq ((hx.getTag_eq hstore).symm.trans (hy.getTag_eq hstore))
  cases hx with
  | nil =>
    cases y with
    | nil => rfl
    | _ => cases hcode
  | boolean b =>
    generalize hp : taggedBoolean b = p at hy
    cases hy with
    | boolean b' => cases b <;> cases b' <;> first | rfl | exact absurd hp (by decide)
    | _ => cases hcode
  | int v htag =>
    cases hy with
    | int _ _ => rfl
    | _ => cases hcode
  | float v htag =>
    cases hy with
    | float _ _ => rfl
    | _ => cases hcode
  | decimal tp htag hnumber =>
    cases hy with
    | decimal _ _ _ => rfl
    | _ => cases hcode
  | string tp s hmem =>
    cases hy with
    | string _ s' hmem' =>
      have hbytes := Represents.byteSequence_eq (hstore.valid _ hmem)
      rw [Represents.byteSequence_eq (hstore.valid _ hmem')] at hbytes
      exact congrArg Scalar.string (utf8_injective hbytes).symm
    | _ => cases hcode

theorem intCompare_of_compares {r : Int} {s1 s2 : List Char} (h : Lib.Compares r s1 s2) :
    intCompare r 0 = if s1 = s2 then .eq else if s1 < s2 then .lt else .gt := by
  unfold intCompare
  rw [if_congr h.zero rfl (if_congr h.neg rfl rfl)]

theorem taggedBooleanCompare_eq (b1 b2 : Bool) :
    taggedBooleanCompare (.tagged (taggedBoolean b1)) (.tagged (taggedBoolean b2)) =
      some (if b1 = b2 then .eq else if b1 < b2 then .lt else .gt) := by
  cases b1 <;> cases b2 <;> decide

/-- Of scalars `taggedPtrCompare` compares the values. -/
theorem taggedPtrCompare_of_scalars (hstore : Reachable o.store) (hx : IsScalar dec o v x)
    (hy : IsScalar dec o w y) (fuel : Nat) : taggedPtrCompare dec o (fuel + 1) v w = some (x.compare dec y) := by
  have hxtag := hx.getTag_eq hstore
  have hytag := hy.getTag_eq hstore
  by_cases htag : x.tag = y.tag
  · have hcode := Scalar.code_eq_of_tag_eq htag
    have hof : ∀ c : MemberComparator, c.code = x.code →
        taggedPtrCompare dec o (fuel + 1) v w = c.compare dec o fuel v w := by
      intro c hc
      refine taggedPtrCompare_of_tags c fuel ?_ ?_
      · rw [hxtag, hc]
        rfl
      · rw [hytag, ← htag, hc]
        rfl
    have hdo : x.code ≠ BT_NIL → ∀ compare, optDoCompare v w compare = compare v w := by
      intro hne compare
      have hnil : ∀ {u : Member}, u.getTag &&& 0x1F#64 = x.tag → u.isNil = false := fun hu =>
        Bool.eq_false_iff.mpr fun h => hne (code_eq_of_tag (hu.symm.trans (getTag_of_isNil h)))
      unfold optDoCompare
      rw [hnil hxtag, hnil (hytag.trans htag.symm)]
      rfl
    cases hx with
    | nil =>
      cases hy with
      | nil => exact taggedPtrCompare_of_nil .int fuel (.inl rfl) (.inl rfl) (.inl rfl)
      | _ => cases hcode
    | boolean b1 =>
      generalize hp : taggedBoolean b1 = p at hy hof hdo
      cases hy with
      | boolean b2 =>
        rw [hof .boolean rfl]
        refine (hdo (show BT_BOOLEAN ≠ BT_NIL by decide) taggedBooleanCompare).trans ?_
        rw [← hp]
        exact taggedBooleanCompare_eq b1 b2
      | _ => cases hcode
    | int v htag' =>
      cases hy with
      | int w htag'' =>
        rw [hof .int rfl]
        exact hdo (show BT_INT ≠ BT_NIL by decide) fun tp1 tp2 => some (taggedIntCompare o.mem tp1 tp2)
      | _ => cases hcode
    | float v htag' =>
      cases hy with
      | float w htag'' =>
        rw [hof .float rfl]
        exact hdo (show BT_FLOAT ≠ BT_NIL by decide) fun tp1 tp2 => some (taggedFloatCompare o.mem tp1 tp2)
      | _ => cases hcode
    | decimal tp htag' hnumber =>
      cases hy with
      | decimal tp' htag'' hnumber' =>
        rw [hof .decimal rfl]
        refine (hdo (show BT_DECIMAL ≠ BT_NIL by decide) (taggedDecimalCompare dec.compare o.mem)).trans (congrArg some ?_)
        unfold balDecimalCmp Scalar.compare
        dsimp only
        cases dec.compare (taggedToDecQuad o.mem tp) (taggedToDecQuad o.mem tp') <;> rfl
      | _ => cases hcode
    | string tp s hmem =>
      cases hy with
      | string tp' s' hmem' =>
        rw [hof .string rfl]
        refine (hdo (show BT_STRING ≠ BT_NIL by decide) (taggedStringCompare o.mem)).trans (congrArg some ?_)
        exact intCompare_of_compares ((hstore.valid _ hmem).cmp_compares (hstore.valid _ hmem'))
      | _ => cases hcode
  · unfold taggedPtrCompare
    dsimp only
    rw [hxtag, hytag, if_pos htag, Scalar.compare_of_tag_ne htag]

/-! ## More fuel -/

theorem listCompareLoop_mono {f g : Member → Member → Option CompareResult}
    (hfg : ∀ v w r, f v w = some r → g v w = some r) : ∀ {ps : List (Member × Member)} {r : CompareResult},
      listCompareLoop f ps = some r → listCompareLoop g ps = some r
  | [], _, h => h
  | (v, w) :: ps, r, h => by
    unfold listCompareLoop at h ⊢
    obtain ⟨result, hresult, h⟩ := Option.bind_eq_some_iff.mp h
    rw [hfg v w result hresult]
    show (if result ≠ .eq then some result else listCompareLoop g ps) = some r
    split at h
    next hne =>
      rw [if_pos hne]
      exact h
    next heq =>
      rw [if_neg heq]
      exact listCompareLoop_mono hfg h

/-- More fuel for the members changes no result. -/
theorem optListDoCompare_mono {f g : Member → Member → Option CompareResult}
    (hfg : ∀ v w r, f v w = some r → g v w = some r) (h : optListDoCompare o f v w = some r) :
    optListDoCompare o g v w = some r := by
  unfold optListDoCompare at h ⊢
  split at h
  next hbits =>
    rw [if_pos hbits]
    exact h
  next hbits =>
    rw [if_neg hbits]
    split at h
    next hnil =>
      rw [if_pos hnil]
      exact h
    next hnil =>
      rw [if_neg hnil]
      cases v with
      | tagged p1 =>
        cases w with
        | tagged p2 =>
          obtain ⟨lp1, hlp1, h⟩ := Option.bind_eq_some_iff.mp h
          obtain ⟨lp2, hlp2, h⟩ := Option.bind_eq_some_iff.mp h
          obtain ⟨result, hresult, h⟩ := Option.bind_eq_some_iff.mp h
          dsimp only
          rw [hlp1, hlp2]
          dsimp only [Option.bind_eq_bind, Option.bind_some]
          rw [listCompareLoop_mono hfg hresult]
          exact h
        | _ => cases h
      | _ => cases h

/-- Two values of which one is not a list need no more fuel. -/
theorem taggedPtrCompare_of_not_list (fuel fuel' : Nat)
    (h : ¬ (v.getTag &&& 0x1F#64 = Tag.list ∧ w.getTag &&& 0x1F#64 = Tag.list)) :
    taggedPtrCompare dec o (fuel + 1) v w = taggedPtrCompare dec o (fuel' + 1) v w := by
  unfold taggedPtrCompare
  dsimp only
  by_cases htag : v.getTag &&& 0x1F#64 = w.getTag &&& 0x1F#64
  · have hlist : ¬ v.getTag &&& 0x1F#64 = Tag.list := fun hv => h ⟨hv, htag.symm.trans hv⟩
    rw [if_neg hlist, if_neg hlist]
  · rw [if_pos htag, if_pos htag]

theorem taggedPtrCompare_of_lists (fuel : Nat) (hv : v.getTag &&& 0x1F#64 = Tag.list)
    (hw : w.getTag &&& 0x1F#64 = Tag.list) :
    taggedPtrCompare dec o (fuel + 1) v w = optListDoCompare o (taggedPtrCompare dec o fuel) v w :=
  taggedPtrCompare_of_tags .list fuel hv hw

theorem taggedPtrCompare_succ : ∀ (fuel : Nat) (v w : Member) (r : CompareResult),
    taggedPtrCompare dec o fuel v w = some r → taggedPtrCompare dec o (fuel + 1) v w = some r
  | 0, _, _, _, h => by cases h
  | fuel + 1, v, w, r, h => by
    by_cases hlist : v.getTag &&& 0x1F#64 = Tag.list ∧ w.getTag &&& 0x1F#64 = Tag.list
    · rw [taggedPtrCompare_of_lists _ hlist.1 hlist.2] at h ⊢
      exact optListDoCompare_mono (taggedPtrCompare_succ fuel) h
    · rw [taggedPtrCompare_of_not_list (fuel + 1) fuel hlist]
      exact h

/-- More fuel changes no result. -/
theorem taggedPtrCompare_mono {fuel fuel' : Nat} (hle : fuel ≤ fuel') (v w : Member) (r : CompareResult)
    (h : taggedPtrCompare dec o fuel v w = some r) : taggedPtrCompare dec o fuel' v w = some r := by
  induction hle with
  | refl => exact h
  | step _ ih => exact taggedPtrCompare_succ _ v w r ih

/-! ## Results -/

/-- The result of the comparison. -/
def Gives (dec : DecNumber) (o : Objects M) (v w : Member) (r : CompareResult) : Prop :=
  ∃ fuel, taggedPtrCompare dec o fuel v w = some r

/-- The result of the loop over the members. -/
def LoopGives (dec : DecNumber) (o : Objects M) (ps : List (Member × Member)) (r : CompareResult) : Prop :=
  ∃ fuel, listCompareLoop (taggedPtrCompare dec o fuel) ps = some r

/-- There is one result. -/
theorem Gives.unique {r' : CompareResult} (h : Gives dec o v w r) (h' : Gives dec o v w r') :
    r = r' := by
  obtain ⟨fuel, h⟩ := h
  obtain ⟨fuel', h'⟩ := h'
  have hmax := taggedPtrCompare_mono (Nat.le_max_left fuel fuel') v w r h
  have hmax' := taggedPtrCompare_mono (Nat.le_max_right fuel fuel') v w r' h'
  exact Option.some.inj (hmax.symm.trans hmax')

theorem gives_of_scalars (hstore : Reachable o.store) (hx : IsScalar dec o v x) (hy : IsScalar dec o w y) :
    Gives dec o v w (x.compare dec y) :=
  ⟨1, taggedPtrCompare_of_scalars hstore hx hy 0⟩

theorem gives_of_tag_ne (h : v.getTag &&& 0x1F#64 ≠ w.getTag &&& 0x1F#64) : Gives dec o v w .un :=
  ⟨1, if_pos h⟩

/-- A list is equal to itself, whatever its members. -/
theorem gives_self (hv : o.HasList v l) : Gives dec o v v .eq := by
  refine ⟨1, ?_⟩
  rw [taggedPtrCompare_of_lists 0 (getTag_hasList hv) (getTag_hasList hv)]
  obtain ⟨tp, rfl, _, _⟩ := hv
  exact if_pos (sameBits_tagged.mpr rfl)

theorem loopGives_nil : LoopGives dec o [] .eq := ⟨0, rfl⟩

theorem loopGives_cons_ne (h : Gives dec o v w r) (hne : r ≠ .eq) :
    LoopGives dec o ((v, w) :: ps) r := by
  obtain ⟨fuel, h⟩ := h
  refine ⟨fuel, ?_⟩
  unfold listCompareLoop
  rw [h]
  exact if_pos hne

theorem loopGives_cons_eq (h : Gives dec o v w .eq) (hps : LoopGives dec o ps r) :
    LoopGives dec o ((v, w) :: ps) r := by
  obtain ⟨fuel, h⟩ := h
  obtain ⟨fuel', hps⟩ := hps
  refine ⟨max fuel fuel', ?_⟩
  unfold listCompareLoop
  rw [taggedPtrCompare_mono (Nat.le_max_left fuel fuel') v w _ h]
  show (if CompareResult.eq ≠ .eq then some .eq else listCompareLoop (taggedPtrCompare dec o (max fuel fuel')) ps) = _
  rw [if_neg (not_not.mpr rfl)]
  exact listCompareLoop_mono (taggedPtrCompare_mono (Nat.le_max_right fuel fuel')) hps

/-- If the members are equal, the lengths are compared. -/
def withLengths (r : CompareResult) (l1 l2 : MemberArray) : CompareResult :=
  if r ≠ .eq then r else intCompare l1.length l2.length

theorem isNil_of_hasList (h : o.HasList v l) : v.isNil = false := by
  refine Bool.eq_false_iff.mpr fun hnil => ?_
  have htag := (getTag_of_isNil hnil).symm.trans (getTag_hasList h)
  exact absurd htag (by decide)

/-- Two lists compare as their members do, then as their lengths. -/
theorem gives_of_loop {l1 l2 : MemberArray} (hv : o.HasList v l1) (hw : o.HasList w l2) (hne : v ≠ w)
    (h : LoopGives dec o (l1.values.zip l2.values) r) : Gives dec o v w (withLengths r l1 l2) := by
  obtain ⟨fuel, h⟩ := h
  refine ⟨fuel + 1, ?_⟩
  rw [taggedPtrCompare_of_lists _ (getTag_hasList hv) (getTag_hasList hw)]
  have hnil := isNil_of_hasList hv
  have hnil' := isNil_of_hasList hw
  obtain ⟨tp1, rfl, _, hl1⟩ := hv
  obtain ⟨tp2, rfl, _, hl2⟩ := hw
  unfold optListDoCompare
  rw [if_neg fun hbits => hne (eq_of_sameBits hbits), hnil, hnil', if_neg (by decide)]
  dsimp only
  rw [hl1, hl2]
  show (do
    let result ← listCompareLoop (taggedPtrCompare dec o fuel) (l1.values.zip l2.values)
    if result ≠ CompareResult.eq then return result
    else return intCompare l1.length l2.length) = _
  rw [h]
  show (if r ≠ .eq then some r else some (intCompare l1.length l2.length)) = some (withLengths r l1 l2)
  unfold withLengths
  split
  · rfl
  · rfl

/-! ## Copies -/

theorem copies_symm (h : Copies dec o v w) : Copies dec o w v := by
  induction h with
  | scalar hv hw => exact .scalar hw hv
  | list hv hw length members ih =>
    refine .list hw hv length.symm fun p hp => ?_
    rw [← List.zip_swap] at hp
    obtain ⟨q, hq, rfl⟩ := List.mem_map.mp hp
    exact ih q hq

theorem hasList_unique {l' : MemberArray} (h : o.HasList v l) (h' : o.HasList v l') : l = l' := by
  obtain ⟨tp, rfl, _, hl⟩ := h
  exact (HasList.eq h' hl).symm

theorem values_length (l : MemberArray) : l.values.length = l.length := by
  cases l <;> exact List.length_map _

theorem exists_mem_zip : ∀ {as bs cs : List Member} {p : Member × Member}, as.length = bs.length →
    p ∈ as.zip cs → ∃ b, (p.1, b) ∈ as.zip bs ∧ (b, p.2) ∈ bs.zip cs
  | [], _, _, _, _, hp => by cases hp
  | _ :: _, _, [], _, _, hp => by cases hp
  | _ :: _, [], _ :: _, _, hlen, _ => by cases hlen
  | a :: as, b :: bs, c :: cs, p, hlen, hp => by
    rw [List.zip_cons_cons] at hp
    rcases List.mem_cons.mp hp with rfl | hp
    · exact ⟨b, .head _, .head _⟩
    · obtain ⟨b', hleft, hright⟩ := exists_mem_zip (Nat.succ.inj hlen) hp
      exact ⟨b', .tail _ hleft, .tail _ hright⟩

theorem copies_trans (hstore : Reachable o.store) (h : Copies dec o u v) (h' : Copies dec o v w) :
    Copies dec o u w := by
  induction h generalizing w with
  | scalar hu hv =>
    cases h' with
    | scalar hv' hw =>
      cases hv.unique hstore hv'
      exact .scalar hu hw
    | list hv' _ _ _ => exact absurd hv (not_isScalar_of_hasList hstore hv')
  | @list u v l1 l2 hu hv length members ih =>
    cases h' with
    | scalar hv' _ => exact absurd hv' (not_isScalar_of_hasList hstore hv)
    | @list _ _ l2' l3 hv' hw length' members' =>
      cases hasList_unique hv hv'
      have hlength : l1.values.length = l2.values.length := by
        rw [values_length, values_length]
        exact length
      refine .list hu hw (length.trans length') fun p hp => ?_
      obtain ⟨b, hleft, hright⟩ := exists_mem_zip hlength hp
      exact ih _ hleft (members' _ hright)

theorem members_forall₂ {R : Member → Member → Prop} {l1 l2 : MemberArray} (length : l1.length = l2.length)
    (h : ∀ p ∈ l1.values.zip l2.values, R p.1 p.2) : List.Forall₂ R l1.values l2.values := by
  refine List.forall₂_iff_zip.mpr ⟨?_, fun {a b} hp => h (a, b) hp⟩
  rw [values_length, values_length]
  exact length

/-! ## The result depends on the values -/

/-- No list has NaN among its members. The first condition says that the list is one of finite depth. -/
def NoNaNMembers (dec : DecNumber) (o : Objects M) : Prop :=
  ∀ v l, Copies dec o v v → o.HasList v l → ∀ u ∈ l.values, ∀ x, IsScalar dec o u x → ¬ x.IsNaN

/-- `EXACT_FLAG` -/
def exactFlag : Word := 0x4#64

/-- There is a second pointer to each list, the one with the other `EXACT_FLAG`. -/
theorem exists_otherPointer (h : o.HasList v l) : ∃ w, v ≠ w ∧ o.HasList w l := by
  obtain ⟨tp, rfl, htag, hl⟩ := h
  have hne : tp ≠ tp ^^^ exactFlag := by
    intro heq
    have hbit := congrArg (·.getLsbD 2) heq
    simp [exactFlag] at hbit
  have htag' : getTag (tp ^^^ exactFlag) = getTag tp := by
    unfold getTag
    rw [BitVec.ushiftRight_xor_distrib, show exactFlag >>> 56 = 0#64 by decide, BitVec.xor_zero]
  have hand : ∀ m : Word, exactFlag &&& m = 0#64 → (tp ^^^ exactFlag) &&& m = tp &&& m := by
    intro m hm
    refine BitVec.eq_of_getLsbD_eq fun i _ => ?_
    have hbit := congrArg (·.getLsbD i) hm
    rw [BitVec.getLsbD_and, BitVec.getLsbD_zero] at hbit
    rw [BitVec.getLsbD_and, BitVec.getLsbD_and, BitVec.getLsbD_xor, Bool.and_xor_distrib_right, hbit,
      Bool.xor_false]
  have hptr : taggedToPtr (tp ^^^ exactFlag) = taggedToPtr tp :=
    congrArg BitVec.toNat (hand _ (by decide))
  refine ⟨.tagged (tp ^^^ exactFlag), fun heq => hne (Member.tagged.inj heq), _, rfl,
    htag'.trans htag, ?_⟩
  rwa [hptr]

/-- Copies are compared with one result, and the other way round with the swapped one. -/
def Agree (dec : DecNumber) (o : Objects M) (v v' w w' : Member) : Prop :=
  ∃ r, Gives dec o v w r ∧ Gives dec o v' w' r ∧ Gives dec o w v r.swap ∧ Gives dec o w' v' r.swap

/-- Equal members leave it to the lengths. -/
theorem loopGives_self (h : ∀ p ∈ ps, Gives dec o p.1 p.2 .eq) :
    LoopGives dec o ps .eq := by
  induction ps with
  | nil => exact loopGives_nil
  | cons p ps ih =>
    exact loopGives_cons_eq (h p (.head _)) (ih fun q hq => h q (.tail p hq))

/-- Lists that are copies are equal, if NaN is no member of them. -/
theorem gives_eq_of_copies (hstore : Reachable o.store) (hnan : NoNaNMembers dec o) (h : Copies dec o v w) :
    ∀ {l}, o.HasList v l → Gives dec o v w .eq := by
  induction h with
  | scalar hv hw => exact fun hl => absurd hv (not_isScalar_of_hasList hstore hl)
  | @list v w l1 l2 hv hw length members ih =>
    intro l _
    by_cases hne : v = w
    · subst hne
      exact gives_self hv
    · have hcopies := Copies.list hv hw length members
      have hself := copies_trans hstore hcopies (copies_symm hcopies)
      have hmembers : ∀ p ∈ l1.values.zip l2.values, Gives dec o p.1 p.2 .eq := by
        intro p hp
        cases members p hp with
        | @scalar _ _ x hx hx' =>
          have hnot := hnan _ _ hself hv p.1 (List.of_mem_zip hp).1 x hx
          have hgives := gives_of_scalars hstore hx hx'
          rwa [(Scalar.compare_self hx.isNumber).mpr hnot] at hgives
        | list hl _ _ _ => exact ih p hp hl
      have hgives := gives_of_loop hv hw hne (loopGives_self hmembers)
      rwa [withLengths, if_neg (not_not.mpr rfl), length, intCompare_self] at hgives

/-- What the loop gives for members whose copies are compared alike. -/
theorem loop_agree {as as' bs bs' : List Member}
    (has : List.Forall₂ (fun v v' => ∀ w w', Copies dec o w w' → Agree dec o v v' w w') as as')
    (hbs : List.Forall₂ (Copies dec o) bs bs') :
    ∃ r, LoopGives dec o (as.zip bs) r ∧ LoopGives dec o (as'.zip bs') r ∧
      LoopGives dec o (bs.zip as) r.swap ∧ LoopGives dec o (bs'.zip as') r.swap := by
  induction has generalizing bs bs' with
  | nil =>
    refine ⟨.eq, loopGives_nil, loopGives_nil, ?_, ?_⟩
    · rw [List.zip_nil_right]
      exact loopGives_nil
    · rw [List.zip_nil_right]
      exact loopGives_nil
  | cons hv has ih =>
    cases hbs with
    | nil => exact ⟨.eq, loopGives_nil, loopGives_nil, loopGives_nil, loopGives_nil⟩
    | cons hw hbs =>
      obtain ⟨r, h, h', hswap, hswap'⟩ := hv _ _ hw
      by_cases hr : r = .eq
      · subst hr
        obtain ⟨r, hl, hl', hlswap, hlswap'⟩ := ih hbs
        exact ⟨r, loopGives_cons_eq h hl, loopGives_cons_eq h' hl', loopGives_cons_eq hswap hlswap,
          loopGives_cons_eq hswap' hlswap'⟩
      · have hne : r.swap ≠ .eq := fun heq => hr (CompareResult.swap_eq_eq.mp heq)
        exact ⟨r, loopGives_cons_ne h hr, loopGives_cons_ne h' hr, loopGives_cons_ne hswap hne,
          loopGives_cons_ne hswap' hne⟩

theorem withLengths_swap (r : CompareResult) (l1 l2 : MemberArray) :
    withLengths r.swap l2 l1 = (withLengths r l1 l2).swap := by
  unfold withLengths
  by_cases hr : r = .eq
  · rw [hr, if_neg (not_not.mpr rfl)]
    exact intCompare_swap _ _
  · rw [if_pos hr, if_pos fun heq => hr (CompareResult.swap_eq_eq.mp heq)]

/-- The result for two values is that for copies of them, whichever blocks they have. -/
theorem agree_of_copies (hstore : Reachable o.store) (hdec : dec.Swaps) (hnan : NoNaNMembers dec o)
    (h : Copies dec o v v') : ∀ w w', Copies dec o w w' → Agree dec o v v' w w' := by
  induction h with
  | @scalar v v' x hv hv' =>
    intro w w' hw
    cases hw with
    | @scalar _ _ y hw hw' =>
      have hswap := Scalar.compare_swap hdec hv.isNumber hw.isNumber
      have hgives := gives_of_scalars hstore hw hv
      have hgives' := gives_of_scalars hstore hw' hv'
      rw [hswap] at hgives hgives'
      exact ⟨_, gives_of_scalars hstore hv hw, gives_of_scalars hstore hv' hw', hgives, hgives'⟩
    | list hw hw' _ _ =>
      have hne : ∀ {u u' : Member} {l}, IsScalar dec o u x → o.HasList u' l →
          u.getTag &&& 0x1F#64 ≠ u'.getTag &&& 0x1F#64 := by
        intro u u' l hu hu'
        rw [hu.getTag_eq hstore, getTag_hasList hu']
        exact x.tag_ne_list
      exact ⟨.un, gives_of_tag_ne (hne hv hw), gives_of_tag_ne (hne hv' hw'), gives_of_tag_ne (hne hv hw).symm,
        gives_of_tag_ne (hne hv' hw').symm⟩
  | @list v v' l1 l1' hv hv' length members ih =>
    intro w w' hw
    cases hw with
    | @scalar _ _ y hw hw' =>
      have hne : ∀ {u u' : Member} {l}, IsScalar dec o u y → o.HasList u' l →
          u.getTag &&& 0x1F#64 ≠ u'.getTag &&& 0x1F#64 := by
        intro u u' l hu hu'
        rw [hu.getTag_eq hstore, getTag_hasList hu']
        exact y.tag_ne_list
      exact ⟨.un, gives_of_tag_ne (hne hw hv).symm, gives_of_tag_ne (hne hw' hv').symm,
        gives_of_tag_ne (hne hw hv), gives_of_tag_ne (hne hw' hv')⟩
    | @list _ _ l2 l2' hw hw' length' members' =>
      have hvv' := Copies.list hv hv' length members
      have hww' := Copies.list hw hw' length' members'
      by_cases hboth : v = w ∨ v' = w'
      · -- the one pair are copies because the other pair are one list
        have hvw : Copies dec o v w ∧ Copies dec o v' w' := by
          rcases hboth with rfl | rfl
          · exact ⟨copies_trans hstore hvv' (copies_symm hvv'), copies_trans hstore (copies_symm hvv') hww'⟩
          · exact ⟨copies_trans hstore hvv' (copies_symm hww'), copies_trans hstore (copies_symm hvv') hvv'⟩
        exact ⟨.eq, gives_eq_of_copies hstore hnan hvw.1 hv, gives_eq_of_copies hstore hnan hvw.2 hv',
          gives_eq_of_copies hstore hnan (copies_symm hvw.1) hw,
          gives_eq_of_copies hstore hnan (copies_symm hvw.2) hw'⟩
      · obtain ⟨hne, hne'⟩ := not_or.mp hboth
        obtain ⟨r, hl, hl', hlswap, hlswap'⟩ := loop_agree (members_forall₂ length ih)
          (members_forall₂ length' members')
        have hgives := gives_of_loop hw hv (fun heq => hne heq.symm) hlswap
        have hgives' := gives_of_loop hw' hv' (fun heq => hne' heq.symm) hlswap'
        rw [withLengths_swap] at hgives hgives'
        refine ⟨withLengths r l1 l2, gives_of_loop hv hw hne hl, ?_, hgives, ?_⟩
        · have hgives := gives_of_loop hv' hw' hne' hl'
          rwa [show withLengths r l1' l2' = withLengths r l1 l2 by
            unfold withLengths; rw [length, length']] at hgives
        · rwa [show withLengths r l1' l2' = withLengths r l1 l2 by
            unfold withLengths; rw [length, length']] at hgives'

end Right

/-! ## The comparators of lists -/

/-- `_bal_opt_list_compare`, `_bal_array_int_compare` and so on, and `_bal_array_exact_int_compare`. -/
inductive ListComparator where
  | opt
  | array (c : MemberComparator)
  | exactInt

namespace ListComparator

variable (dec : DecNumber) (o : Objects M)

def compare (fuel : Nat) : ListComparator → Member → Member → Option CompareResult
  | .opt, tp1, tp2 => optListDoCompare o (taggedPtrCompare dec o fuel) tp1 tp2
  | .array c, tp1, tp2 => balArrayCompare dec o c fuel tp1 tp2
  | .exactInt, .tagged tp1, .tagged tp2 => balArrayExactIntCompare o tp1 tp2
  | .exactInt, _, _ => none

/-- The result of the comparator. -/
def Gives (k : ListComparator) (v w : Member) (r : CompareResult) : Prop :=
  ∃ fuel, k.compare dec o fuel v w = some r

/-- The lists that the comparator is for. -/
def For : ListComparator → Member → Prop
  | .opt, v => v.isNil = true ∨ ∃ l, o.HasList v l
  | .array c, v => v.isNil = true ∨ ∃ l, o.HasList v l ∧ ∀ u ∈ l.values, c.Handles u
  | .exactInt, v => ∃ members, o.HasList v (.ints members)

end ListComparator

/-- The result does not change when lists are replaced by copies, and it is swapped with the lists. -/
def MembersOnly (dec : DecNumber) (o : Objects M) : Prop :=
  ∀ (k : ListComparator) (v v' w w' : Member), k.For o v → k.For o v' → k.For o w → k.For o w' →
    Copies dec o v v' → Copies dec o w w' →
      ∃ r, k.Gives dec o v w r ∧ k.Gives dec o v' w' r ∧ k.Gives dec o w v r.swap

section Comparators

variable {dec : DecNumber} {o : Objects M} {u v w v' w' : Member} {r : CompareResult}

theorem handles_list_of_for (h : ListComparator.opt.For o v) : MemberComparator.list.Handles v := by
  rcases h with hnil | ⟨l, hl⟩
  · exact .inl hnil
  · exact .inr (getTag_hasList hl)

/-- The comparator of optional members is the general one on its lists. -/
theorem opt_gives (hv : ListComparator.opt.For o v) (hw : ListComparator.opt.For o w) :
    ListComparator.opt.Gives dec o v w r ↔ Gives dec o v w r := by
  have hcompare : ∀ fuel, optListDoCompare o (taggedPtrCompare dec o fuel) v w =
      taggedPtrCompare dec o (fuel + 1) v w := fun fuel =>
    MemberComparator.compare_eq .list fuel (handles_list_of_for hv) (handles_list_of_for hw)
  constructor
  · rintro ⟨fuel, h⟩
    exact ⟨fuel + 1, (hcompare fuel).symm.trans h⟩
  · rintro ⟨fuel, h⟩
    exact ⟨fuel, (hcompare fuel).trans (taggedPtrCompare_succ fuel v w r h)⟩

theorem for_opt_of_array {c : MemberComparator} (h : (ListComparator.array c).For o v) :
    ListComparator.opt.For o v :=
  h.imp_right fun ⟨l, hl, _⟩ => ⟨l, hl⟩

/-- What holds of all pairs holds of those reached. -/
theorem reached_of_forall {P : Member → Member → Prop} {ps : List (Member × Member)} (h : ∀ p ∈ ps, P p.1 p.2) :
    Reached dec o P ps := by
  induction ps with
  | nil => trivial
  | cons p ps ih => exact ⟨h p (.head _), fun _ => ih fun q hq => h q (.tail p hq)⟩

theorem optListDoCompare_of_nil (f g : Member → Member → Option CompareResult)
    (h : v.isNil = true ∨ w.isNil = true) : optListDoCompare o f v w = optListDoCompare o g v w := by
  unfold optListDoCompare
  rw [if_pos (Bool.or_eq_true_iff.mpr h), if_pos (Bool.or_eq_true_iff.mpr h)]

/-- A comparator for members of one type gives what the one for all members does. -/
theorem array_gives {c : MemberComparator} (hv : (ListComparator.array c).For o v)
    (hw : (ListComparator.array c).For o w) (h : Gives dec o v w r) :
    (ListComparator.array c).Gives dec o v w r := by
  obtain ⟨fuel, h⟩ := (opt_gives (for_opt_of_array hv) (for_opt_of_array hw)).mpr h
  have hsucc : optListDoCompare o (taggedPtrCompare dec o (fuel + 1)) v w = some r :=
    optListDoCompare_mono (taggedPtrCompare_succ fuel) h
  refine ⟨fuel, ?_⟩
  show balArrayCompare dec o c fuel v w = some r
  rcases hv with hnil | ⟨l, hl, hall⟩
  · exact (optListDoCompare_of_nil _ _ (.inl hnil)).trans h
  · rcases hw with hnil | ⟨l', hl', hall'⟩
    · exact (optListDoCompare_of_nil _ _ (.inr hnil)).trans h
    · rw [optListDoCompare_congr c fuel, hsucc]
      intro p1 p2 lp1 lp2 hp1 hp2 _ _ _ hlp1 hlp2
      subst hp1 hp2
      rw [HasList.eq hl hlp1] at hall
      rw [HasList.eq hl' hlp2] at hall'
      refine reached_of_forall fun p hp => .inl ?_
      obtain ⟨hleft, hright⟩ := List.of_mem_zip hp
      exact ⟨hall p.1 hleft, hall' p.2 hright⟩

theorem exactIntCompareLoop_self (ns : List Word) : exactIntCompareLoop (ns.zip ns) = .eq := by
  induction ns with
  | nil => rfl
  | cons n ns ih =>
    have hlt : n.slt n = false := by
      rw [BitVec.slt_eq_decide]
      exact decide_eq_false (lt_irrefl _)
    rw [List.zip_cons_cons, exactIntCompareLoop, hlt, if_neg Bool.false_ne_true, if_neg Bool.false_ne_true]
    exact ih

theorem exactIntCompareLoop_swap : ∀ ns ms : List Word,
    exactIntCompareLoop (ms.zip ns) = (exactIntCompareLoop (ns.zip ms)).swap
  | [], ms => by
    rw [List.zip_nil_right]
    rfl
  | _ :: _, [] => rfl
  | n :: ns, m :: ms => by
    rw [List.zip_cons_cons, List.zip_cons_cons, exactIntCompareLoop, exactIntCompareLoop]
    rw [BitVec.slt_eq_decide, BitVec.slt_eq_decide]
    rcases lt_trichotomy n.toInt m.toInt with h | h | h
    · rw [decide_eq_true h, decide_eq_false h.asymm, if_pos rfl, if_neg Bool.false_ne_true, if_pos rfl]
      rfl
    · rw [h, decide_eq_false (lt_irrefl _), if_neg Bool.false_ne_true, if_neg Bool.false_ne_true,
        if_neg Bool.false_ne_true]
      exact exactIntCompareLoop_swap ns ms
    · rw [decide_eq_true h, decide_eq_false h.asymm, if_pos rfl, if_neg Bool.false_ne_true, if_pos rfl]
      rfl

/-- The ints of two lists, compared without a look at the lists. -/
def exactIntResult (ns ms : List Word) : CompareResult :=
  withLengths (exactIntCompareLoop (ns.zip ms)) (.ints ns) (.ints ms)

/-- Exact lists of ints are compared word by word. -/
theorem exactInt_compare {ns ms : List Word} (fuel : Nat) (hv : o.HasList v (.ints ns))
    (hw : o.HasList w (.ints ms)) :
    ListComparator.exactInt.compare dec o fuel v w = some (exactIntResult ns ms) := by
  obtain ⟨p1, rfl, htag, hl1⟩ := hv
  obtain ⟨p2, rfl, _, hl2⟩ := hw
  show balArrayExactIntCompare o p1 p2 = _
  unfold balArrayExactIntCompare
  split
  next heq =>
    subst heq
    cases hl1.symm.trans hl2
    rw [exactIntResult, exactIntCompareLoop_self, withLengths, if_neg (not_not.mpr rfl), intCompare_self]
  next =>
    rw [hl1, hl2]
    dsimp only [Option.bind_eq_bind, Option.bind_some]
    unfold exactIntResult withLengths
    split
    · rfl
    · rfl

theorem isScalar_intToTagged (n : Word) : IsScalar dec o (intToTagged n) (.int n.toInt) := by
  have h : IsScalar dec o (intToTagged n) (.int (taggedToInt o.mem (intToTagged n)).toInt) := by
    refine .int _ ?_
    unfold intToTagged
    split
    · exact .inr (getTag_intToTagged n)
    · exact .inl rfl
  rwa [taggedToInt_intToTagged] at h

/-- Lists of ints that are copies have the same ints. -/
theorem ints_eq_of_copies (hstore : Reachable o.store) {ns ms : List Word} (hv : o.HasList v (.ints ns))
    (hw : o.HasList w (.ints ms)) (h : Copies dec o v w) : ns = ms := by
  cases h with
  | scalar hx _ => exact absurd hx (not_isScalar_of_hasList hstore hv)
  | @list _ _ l1 l2 hv' hw' length members =>
    cases hasList_unique hv hv'
    cases hasList_unique hw hw'
    have hall : List.Forall₂ (Copies dec o) (ns.map intToTagged) (ms.map intToTagged) :=
      members_forall₂ length members
    rw [List.forall₂_map_left_iff, List.forall₂_map_right_iff] at hall
    refine List.forall₂_eq_eq_eq ▸ hall.imp fun n m hnm => ?_
    cases hnm with
    | @scalar _ _ x hx hx' =>
      have hn := hx.unique hstore (isScalar_intToTagged n)
      have hm := hx'.unique hstore (isScalar_intToTagged m)
      exact BitVec.toInt_inj.mp (Scalar.int.inj (hn.symm.trans hm))
    | list hl _ _ _ =>
      have hint : IsScalar dec o (intToTagged n) (.int n.toInt) := isScalar_intToTagged n
      exact absurd hint (not_isScalar_of_hasList hstore hl)

/-- Where the loop ends in `eq`, all members were equal. -/
theorem members_of_listCompareLoop {f : Member → Member → Option CompareResult} {ps : List (Member × Member)}
    (h : listCompareLoop f ps = some .eq) : ∀ p ∈ ps, f p.1 p.2 = some .eq := by
  induction ps with
  | nil => exact fun p hp => by cases hp
  | cons q ps ih =>
    unfold listCompareLoop at h
    obtain ⟨result, hresult, h⟩ := Option.bind_eq_some_iff.mp h
    split at h
    next hne => exact absurd (Option.some.inj h) hne
    next heq =>
      intro p hp
      rcases List.mem_cons.mp hp with rfl | hp
      · rw [hresult, not_not.mp heq]
      · exact ih h p hp

/-- The members of different lists that are equal are equal. -/
theorem gives_members (hne : v ≠ w) (h : Gives dec o v w .eq) {l1 l2 : MemberArray} (hv : o.HasList v l1)
    (hw : o.HasList w l2) : ∀ p ∈ l1.values.zip l2.values, Gives dec o p.1 p.2 .eq := by
  intro p hp
  obtain ⟨fuel, h⟩ := h
  have h := taggedPtrCompare_succ fuel v w _ h
  rw [taggedPtrCompare_of_lists fuel (getTag_hasList hv) (getTag_hasList hw)] at h
  have hnil := isNil_of_hasList hv
  have hnil' := isNil_of_hasList hw
  obtain ⟨tp1, rfl, _, hl1⟩ := hv
  obtain ⟨tp2, rfl, _, hl2⟩ := hw
  unfold optListDoCompare at h
  rw [if_neg fun hbits => hne (eq_of_sameBits hbits), hnil, hnil', if_neg (by decide)] at h
  dsimp only at h
  rw [hl1, hl2] at h
  dsimp only [Option.bind_eq_bind, Option.bind_some] at h
  obtain ⟨result, hresult, h⟩ := Option.bind_eq_some_iff.mp h
  split at h
  next hne => exact absurd (Option.some.inj h) hne
  next heq =>
    rw [not_not.mp heq] at hresult
    exact ⟨fuel, members_of_listCompareLoop hresult p hp⟩

theorem exists_pair {as bs : List Member} (h : as.length = bs.length) (hu : u ∈ as) :
    ∃ b, (u, b) ∈ as.zip bs := by
  induction as generalizing bs with
  | nil => cases hu
  | cons a as ih =>
    cases bs with
    | nil => cases h
    | cons b bs =>
      rcases List.mem_cons.mp hu with rfl | hu
      · exact ⟨b, .head _⟩
      · obtain ⟨b', hb'⟩ := ih (Nat.succ.inj h) hu
        exact ⟨b', .tail _ hb'⟩

/-- **Lists are compared by their members alone if and only if no list has NaN among its members.** -/
theorem membersOnly_iff (hstore : Reachable o.store) (hdec : dec.Swaps) :
    MembersOnly dec o ↔ NoNaNMembers dec o := by
  constructor
  · intro h v l hself hl u hu x hx hnan
    -- the other pointer to the list
    obtain ⟨w, hne, hw⟩ := exists_otherPointer hl
    have hcopies : Copies dec o v w := by
      cases hself with
      | scalar hx' _ => exact absurd hx' (not_isScalar_of_hasList hstore hl)
      | @list _ _ l1 l2 hv hv' length members =>
        cases hasList_unique hv' hl
        exact .list hv hw length members
    cases hcopies with
    | scalar hx' _ => exact absurd hx' (not_isScalar_of_hasList hstore hl)
    | @list _ _ l1 l2 hv hw length members =>
      cases hasList_unique hl hv
      have hforv : ListComparator.opt.For o v := .inr ⟨_, hv⟩
      have hforw : ListComparator.opt.For o w := .inr ⟨_, hw⟩
      obtain ⟨r, hvv, hvw, _⟩ := h .opt v v v w hforv hforv hforv hforw hself (.list hv hw length members)
      cases ((opt_gives hforv hforv).mp hvv).unique (gives_self hv)
      have hmembers := gives_members hne ((opt_gives hforv hforw).mp hvw) hv hw
      have hlength : l.values.length = l2.values.length := by
        rw [values_length, values_length]
        exact length
      obtain ⟨u', hp⟩ := exists_pair hlength hu
      -- the member of the copy is NaN too
      cases members _ hp with
      | @scalar _ _ y hy hy' =>
        cases hx.unique hstore hy
        have heq := (hmembers _ hp).unique (gives_of_scalars hstore hy hy')
        exact (Scalar.compare_self hy.isNumber).mp heq.symm hnan
      | list hl' _ _ _ => exact absurd hx (not_isScalar_of_hasList hstore hl')
  · intro hnan k v v' w w' hv hv' hw hw' hvv' hww'
    obtain ⟨r, hgives, hgives', hswap, _⟩ := agree_of_copies hstore hdec hnan hvv' w w' hww'
    cases k with
    | opt => exact ⟨r, (opt_gives hv hw).mpr hgives, (opt_gives hv' hw').mpr hgives', (opt_gives hw hv).mpr hswap⟩
    | array c => exact ⟨r, array_gives hv hw hgives, array_gives hv' hw' hgives', array_gives hw hv hswap⟩
    | exactInt =>
      obtain ⟨ns, hv⟩ := hv
      obtain ⟨ns', hv'⟩ := hv'
      obtain ⟨ms, hw⟩ := hw
      obtain ⟨ms', hw'⟩ := hw'
      cases ints_eq_of_copies hstore hv hv' hvv'
      cases ints_eq_of_copies hstore hw hw' hww'
      refine ⟨exactIntResult ns ms, ⟨0, exactInt_compare 0 hv hw⟩, ⟨0, exactInt_compare 0 hv' hw'⟩, 0, ?_⟩
      rw [exactInt_compare 0 hw hv, exactIntResult, exactIntCompareLoop_swap, withLengths_swap]
      rfl

end Comparators

/-! ## Two lists of one float -/

/-- Numbers in the order of their bits. -/
def quadOrder : DecNumber where
  compare d1 d2 :=
    if d1 = d2 then .posZero
    else if d2.1.toNat * 2 ^ 64 + d2.2.toNat < d1.1.toNat * 2 ^ 64 + d1.2.toNat then .posNormal
    else .other
  canonical d := d
  value _ := 0

theorem quadOrder_swaps : quadOrder.Swaps where
  zero {d1 d2} _ _ := by
    have hiff : ∀ d1 d2, quadOrder.compare d1 d2 = .posZero ↔ d1 = d2 := by
      intro d1 d2
      unfold quadOrder
      dsimp only
      split
      next h => exact iff_of_true rfl h
      next h =>
        refine iff_of_false ?_ h
        split
        · decide
        · decide
    rw [hiff, hiff]
    exact eq_comm
  normal {d1 d2} _ _ := by
    unfold quadOrder
    dsimp only
    by_cases heq : d1 = d2
    · rw [if_pos heq, if_pos heq.symm]
      decide
    · have hne : d1.1.toNat * 2 ^ 64 + d1.2.toNat ≠ d2.1.toNat * 2 ^ 64 + d2.2.toNat := by
        intro h
        have hlt1 := d1.2.isLt
        have hlt2 := d2.2.isLt
        exact heq (Prod.ext (BitVec.eq_of_toNat_eq (by omega)) (BitVec.eq_of_toNat_eq (by omega)))
      rw [if_neg heq, if_neg fun h => heq h.symm]
      rcases Nat.lt_or_gt_of_ne hne with hlt | hlt
      · rw [if_pos hlt, if_neg hlt.asymm]
        decide
      · rw [if_neg hlt.asymm, if_pos hlt]
        decide

/-- Two lists with the same float. -/
def floatLists (d : Word) : Objects Unit where
  store := ⟨⟨fun _ => 0#8, []⟩, []⟩
  list p := if p = 0x1000 ∨ p = 0x2000 then some (.floats [d]) else none
  mapping _ := none

def floatList : Member := .tagged (listPtr 0x1000)
def floatListCopy : Member := .tagged (listPtr 0x2000)

theorem floatLists_hasList (d : Word) : (floatLists d).HasList floatList (.floats [d]) ∧
    (floatLists d).HasList floatListCopy (.floats [d]) := by
  have hptr : taggedToPtr (listPtr 0x1000) = 0x1000 ∧ taggedToPtr (listPtr 0x2000) = 0x2000 := by decide
  refine ⟨⟨_, rfl, by decide, ?_⟩, _, rfl, by decide, ?_⟩
  · rw [hptr.1]
    rfl
  · rw [hptr.2]
    rfl

theorem floatLists_copies (dec : DecNumber) (d : Word) : Copies dec (floatLists d) floatList floatListCopy := by
  refine .list (floatLists_hasList d).1 (floatLists_hasList d).2 rfl fun p hp => ?_
  obtain rfl := List.mem_singleton.mp (show p ∈ [(Member.newFloat d, Member.newFloat d)] from hp)
  exact .scalar (.float (.newFloat d) rfl) (.float (.newFloat d) rfl)

theorem membersOnly_iff_one : MembersOnly quadOrder (floatLists 0x3FF0000000000000#64) := by
  refine (membersOnly_iff (.init _) quadOrder_swaps).mpr fun v l _ hl u hu x hx => ?_
  obtain ⟨tp, _, _, hlist⟩ := hl
  have hl : l = .floats [0x3FF0000000000000#64] := by
    unfold floatLists at hlist
    dsimp only at hlist
    split at hlist
    · exact (Option.some.inj hlist).symm
    · cases hlist
  rw [hl] at hu
  obtain rfl := List.mem_singleton.mp (show u ∈ [Member.newFloat 0x3FF0000000000000#64] from hu)
  have hfloat : IsScalar quadOrder (floatLists 0x3FF0000000000000#64) (.newFloat 0x3FF0000000000000#64)
      (.float 0x3FF0000000000000#64) := .float _ rfl
  cases hx.unique (.init _) hfloat
  show ¬ floatIsNaN 0x3FF0000000000000#64 = true
  decide

/-- A list with NaN is equal to itself, and not to be compared with its copy. -/
theorem not_membersOnly_nan : ¬ MembersOnly quadOrder (floatLists 0x7FF8000000000000#64) := by
  intro h
  have hcopies := floatLists_copies quadOrder 0x7FF8000000000000#64
  have hlists := floatLists_hasList 0x7FF8000000000000#64
  have hfor : ListComparator.opt.For (floatLists 0x7FF8000000000000#64) floatList := .inr ⟨_, hlists.1⟩
  have hfor' : ListComparator.opt.For (floatLists 0x7FF8000000000000#64) floatListCopy := .inr ⟨_, hlists.2⟩
  obtain ⟨r, hself, hcopy, _⟩ := h .opt _ _ _ _ hfor hfor hfor hfor'
    (copies_trans (.init _) hcopies (copies_symm hcopies)) hcopies
  have heq : ListComparator.opt.compare quadOrder (floatLists 0x7FF8000000000000#64) 1 floatList floatList =
      some .eq := by decide
  have hun : ListComparator.opt.compare quadOrder (floatLists 0x7FF8000000000000#64) 1 floatList floatListCopy =
      some .un := by decide
  have hone := ((opt_gives hfor hfor).mp hself).unique ((opt_gives hfor hfor).mp ⟨1, heq⟩)
  have hother := ((opt_gives hfor hfor').mp hcopy).unique ((opt_gives hfor hfor').mp ⟨1, hun⟩)
  cases hone.symm.trans hother

end Nballerina.Runtime
