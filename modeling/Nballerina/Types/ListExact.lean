import Nballerina.Types.CellSem
import Nballerina.Types.ListSamples
import Mathlib.Order.Interval.Finset.Basic
import Mathlib.Data.Int.Interval

/-!
# Looking at samples decides whether a list type is inhabited

`listInhabited` looks for a list in the positive type that each negative excludes, either
because the list is too short for it or because of one member. It only looks at the indices
that `listSamples` gives. This file shows that this loses no list: when `diff` and `isEmpty`
are exact on the types of members, the answer is whether some list belongs to the positive
type and to no negative (`listInhabited_exact`), for all lists with indices that are `int`s.

A *sampled* list has a member for each of the first samples. The two steps are
- the search finds a sampled list that avoids all negatives, if there is one
  (`listInhabited_ensures`), and
- there is one if and only if there is a list. A list has a member that matters for each
  negative, and these go to different samples of the same parts (`exists_sampled`).
-/

namespace Nballerina.Types

open Nballerina.Lib

variable {V : Type}

/-! ## Lists and sampled lists -/

/-- A list has at least the fixed length and members of the right types. -/
def ListAtomicType.Contains (den : SemType → Set V) (lt : ListAtomicType) (l : List V) : Prop :=
  lt.members.fixedLength ≤ l.length ∧ ∀ (i : Nat) (v : V) (t : SemType), l[i]? = some v →
    listMemberAt lt.members lt.rest i = some t → v ∈ den t

/-- An atom of the environment contains the list. -/
def Env.ListContains (den : SemType → Set V) (env : Env) (l : List V) (atom : Atom) : Prop :=
  ∃ lt, env.listAtomType atom = some lt ∧ lt.Contains den l

/-- A list atom with types in `S`. -/
structure ListAtomicType.Over (S : SemType → Prop) (lt : ListAtomicType) : Prop where
  valid : lt.members.Valid
  initial : ∀ t ∈ lt.members.initial, S t
  rest : S lt.rest

theorem ListAtomicType.Over.memberAt {S : SemType → Prop} {lt : ListAtomicType} (h : lt.Over S)
    {x : Int} (hx : 0 ≤ x) : ∃ t, listMemberAt lt.members lt.rest x = some t ∧ S t := by
  obtain ⟨t, ht, ⟨-, hmem⟩ | ⟨-, rfl⟩⟩ := exists_listMemberAt h.valid lt.rest hx
  · exact ⟨t, ht, h.initial t hmem⟩
  · exact ⟨lt.rest, ht, h.rest⟩

/-- What is assumed of the operations on the types of members. `Cell` is a set of cell types
on which `diff` is exact, `Atomic` a part of it with the types of single cell atoms; a member
of a list is never undefined, so `cellContainingInnerVal` keeps the members. -/
structure ExactItems [BddIdentity] (den : SemType → Set V)
    (R : CellAtomicType → TypeAtom → Prop) (Cell Atomic : SemType → Prop) : Prop where
  cell : ∀ {t : SemType}, Atomic t → Cell t
  innerVal : ∀ {t : SemType}, Atomic t → ∃ ty, cellInnerVal t = some ty ∧ (ty = NEVER → den t = ∅)
  diff : ∀ {t1 t2 : SemType}, Cell t1 → Cell t2 →
    ∃ d, diff ops t1 t2 = some d ∧ Cell d ∧ den d = den t1 \ den t2
  containing : ∀ {t : SemType}, Atomic t →
    (cellContainingInnerVal t).Ensures R Cell (EmptyRight den) fun t' => Cell t' ∧ den t' = den t

/-- The types of single cells have exact operations, if no member is undefined. -/
theorem CellTable.exactItems [BddIdentity] (T : CellTable V) (hdefined : T.Defined) :
    ExactItems T.den T.Names Positive T.Single where
  cell := Single.positive
  innerVal := T.cellInnerVal_single hdefined
  diff h1 h2 := by
    obtain ⟨d, hdiff, -, hd, hden⟩ := T.diff_exact h1 h2
    exact ⟨d, hdiff, hd, hden⟩
  containing h := (T.cellContainingInnerVal_ensures hdefined h).imp fun _ h => ⟨h.1.positive, h.2⟩

section Search

variable {den : SemType → Set V} {R : CellAtomicType → TypeAtom → Prop}
  {Cell Atomic : SemType → Prop} {indices : List Int}

/-- `w` has a member for each of the first samples, at least for those that are required. -/
structure Sampled (den : SemType → Set V) (memberTypes : List SemType) (nRequired : Nat)
    (w : List V) : Prop where
  required : nRequired ≤ w.length
  length : w.length ≤ memberTypes.length
  mem : ∀ (j : Nat) (v : V) (t : SemType), w[j]? = some v → memberTypes[j]? = some t → v ∈ den t

/-- A sampled list is not in `nt`: it ends before the next sample, at which `nt` still has
fixed members, or one of its members has another type. -/
def Avoids (den : SemType → Set V) (indices : List Int) (w : List V) (nt : ListAtomicType) : Prop :=
  (∃ x, indices[w.length]? = some x ∧ x < nt.members.fixedLength) ∨
  ∃ (j : Nat) (v : V) (x : Int) (t : SemType), w[j]? = some v ∧ indices[j]? = some x ∧
    listMemberAt nt.members nt.rest x = some t ∧ v ∉ den t

/-- Some sampled list avoids the negatives. -/
def SampleAvoidable (den : SemType → Set V) (env : Env) (indices : List Int) (neg : List Atom)
    (memberTypes : List SemType) (nRequired : Nat) : Prop :=
  ∃ w, Sampled den memberTypes nRequired w ∧
    ∀ atom ∈ neg, ∃ nt, env.listAtomType atom = some nt ∧ Avoids den indices w nt

/-- What the search keeps: every sample so far has an inhabited type. -/
structure Searchable (den : SemType → Set V) (Cell : SemType → Prop) (indices : List Int)
    (memberTypes : List SemType) (nRequired : Nat) : Prop where
  cell : ∀ t ∈ memberTypes, Cell t
  nonempty : ∀ t ∈ memberTypes, (den t).Nonempty
  required : nRequired ≤ memberTypes.length
  length : memberTypes.length ≤ indices.length

theorem Searchable.take {memberTypes : List SemType} {nRequired i : Nat}
    (h : Searchable den Cell indices memberTypes nRequired) (h1 : nRequired ≤ i)
    (h2 : i ≤ memberTypes.length) : Searchable den Cell indices (memberTypes.take i) nRequired where
  cell t ht := h.cell t (List.mem_of_mem_take ht)
  nonempty t ht := h.nonempty t (List.mem_of_mem_take ht)
  required := by
    rw [List.length_take]
    omega
  length := by
    have := h.length
    rw [List.length_take]
    omega

theorem Searchable.set {memberTypes : List SemType} {nRequired i : Nat}
    (h : Searchable den Cell indices memberTypes nRequired) (hi : i < memberTypes.length)
    {d : SemType} (hd : Cell d) (hne : (den d).Nonempty) :
    Searchable den Cell indices (memberTypes.set i d) (max nRequired (i + 1)) where
  cell t ht := (List.mem_or_eq_of_mem_set ht).elim (h.cell t) fun heq => heq ▸ hd
  nonempty t ht := (List.mem_or_eq_of_mem_set ht).elim (h.nonempty t) fun heq => heq ▸ hne
  required := by
    have := h.required
    rw [List.length_set]
    omega
  length := by
    rw [List.length_set]
    exact h.length

variable {nRequired : Nat} {memberTypes : List SemType} {lt : ListAtomicType}

/-- With no negatives left, members can be chosen at will. -/
theorem Searchable.exists_sampled (h : Searchable den Cell indices memberTypes nRequired) :
    ∃ w, Sampled den memberTypes nRequired w := by
  have hw : ∃ w : List V, List.Forall₂ (fun v t => v ∈ den t) w memberTypes := by
    have hne := h.nonempty
    clear h
    induction memberTypes with
    | nil => exact ⟨[], List.Forall₂.nil⟩
    | cons t types ih =>
      obtain ⟨v, hv⟩ := hne t (.head _)
      obtain ⟨w, hw⟩ := ih fun u hu => hne u (.tail _ hu)
      exact ⟨v :: w, List.Forall₂.cons hv hw⟩
  obtain ⟨w, hw⟩ := hw
  have hlen := hw.length_eq
  refine ⟨w, hlen ▸ h.required, hlen.le, fun j v t hv ht => ?_⟩
  obtain ⟨hj, rfl⟩ := List.getElem?_eq_some_iff.mp hv
  obtain ⟨hj', rfl⟩ := List.getElem?_eq_some_iff.mp ht
  exact (List.forall₂_iff_get.mp hw).2 j hj hj'

/-! ## The search -/

variable [BddIdentity] {next : List SemType → Nat → EmptyM Bool} {G : List SemType → Nat → Prop}

omit [BddIdentity] in
/-- The loop over shorter lists finds the first `i` samples that suffice. -/
theorem listInhabitedShorter_ensures
    (hnext : ∀ types n, Searchable den Cell indices types n →
      (next types n).Ensures R Cell (EmptyRight den) fun r => r = true ↔ G types n)
    (hsorted : indices.Pairwise (· < ·)) {memberTypes : List SemType} {nRequired : Nat}
    (hs : Searchable den Cell indices memberTypes nRequired) (negLen : Int) :
    ∀ is : List Nat, is.Pairwise (· < ·) → (∀ i ∈ is, nRequired ≤ i ∧ i < memberTypes.length) →
      (listInhabitedShorter next indices memberTypes nRequired negLen is).Ensures R Cell
        (EmptyRight den) fun r => r = true ↔ ∃ i ∈ is, ∃ x, indices[i]? = some x ∧ x < negLen ∧
          G (memberTypes.take i) nRequired
  | [], _, _ => by
    show false = true ↔ _
    simp
  | i :: is, his, hbound => by
    obtain ⟨hlt, his⟩ := List.pairwise_cons.mp his
    obtain ⟨hi1, hi2⟩ := hbound i (.head _)
    have hlen := hs.length
    have hx : indices[i]? = some indices[i] := List.getElem?_eq_getElem (by omega)
    refine Prog.Ensures.ofOption hx ?_
    split
    next hge =>
      -- all further samples are too far as well
      refine iff_of_false Bool.false_ne_true fun ⟨j, hj, x, hjx, hxlt, _⟩ => ?_
      have hij : i ≤ j := by
        rcases List.mem_cons.mp hj with rfl | hj
        · exact Nat.le_refl _
        · exact Nat.le_of_lt (hlt j hj)
      have := le_of_getElem?_le hsorted hx hjx hij
      omega
    next hge =>
      refine (hnext _ _ (hs.take hi1 (Nat.le_of_lt hi2))).bind fun r hr => ?_
      cases r with
      | true =>
        exact iff_of_true rfl ⟨i, .head _, _, hx, by omega, hr.mp rfl⟩
      | false =>
        refine (listInhabitedShorter_ensures hnext hsorted hs negLen is his fun j hj =>
          hbound j (.tail _ hj)).imp fun r' hr' => ?_
        have hnot : ¬ G (memberTypes.take i) nRequired := fun h => absurd (hr.mpr h) (by decide)
        rw [hr', List.exists_mem_cons_iff]
        refine (or_iff_right fun ⟨_, _, _, hG⟩ => hnot hG).symm

/-- The loop over the members finds one that can be outside the negative. -/
theorem listInhabitedMember_ensures (hx : ExactItems den R Cell Atomic)
    (hnext : ∀ types n, Searchable den Cell indices types n →
      (next types n).Ensures R Cell (EmptyRight den) fun r => r = true ↔ G types n)
    (hnonneg : ∀ x ∈ indices, 0 ≤ x) {nt : ListAtomicType} (hnt : nt.Over Atomic)
    {memberTypes : List SemType} {nRequired : Nat}
    (hs : Searchable den Cell indices memberTypes nRequired) :
    ∀ is : List Nat, (∀ i ∈ is, i < memberTypes.length) →
      (listInhabitedMember next nt indices memberTypes nRequired is).Ensures R Cell (EmptyRight den)
        fun r => r = true ↔ ∃ i ∈ is, ∃ t x u d, memberTypes[i]? = some t ∧ indices[i]? = some x ∧
          listMemberAt nt.members nt.rest x = some u ∧ diff ops t u = some d ∧ (den d).Nonempty ∧
          G (memberTypes.set i d) (max nRequired (i + 1))
  | [], _ => by
    show false = true ↔ _
    simp
  | i :: is, hbound => by
    have hi := hbound i (.head _)
    have hlen := hs.length
    have hidx : indices[i]? = some indices[i] := List.getElem?_eq_getElem (by omega)
    obtain ⟨u, hu, huAtomic⟩ := hnt.memberAt (hnonneg _ (List.mem_of_getElem? hidx))
    have ht : memberTypes[i]? = some memberTypes[i] := List.getElem?_eq_getElem hi
    obtain ⟨d, hdiff, hd, hden⟩ := hx.diff (hs.cell _ (List.mem_of_getElem? ht)) (hx.cell huAtomic)
    have ih := listInhabitedMember_ensures hx hnext hnonneg hnt hs is fun j hj =>
      hbound j (.tail _ hj)
    refine Prog.Ensures.ofOption hidx (Prog.Ensures.ofOption hu (Prog.Ensures.ofOption ht
      (Prog.Ensures.ofOption hdiff ⟨hd, fun b hb => ?_⟩)))
    -- the types at `i` are those just computed
    have hself : (∃ t x u' d', memberTypes[i]? = some t ∧ indices[i]? = some x ∧
        listMemberAt nt.members nt.rest x = some u' ∧ diff ops t u' = some d' ∧
        (den d').Nonempty ∧ G (memberTypes.set i d') (max nRequired (i + 1))) ↔
        (den d).Nonempty ∧ G (memberTypes.set i d) (max nRequired (i + 1)) := by
      refine ⟨fun ⟨t, x, u', d', ht', hidx', hu', hdiff', h⟩ => ?_, fun h =>
        ⟨_, _, u, d, ht, hidx, hu, hdiff, h⟩⟩
      rw [ht] at ht'
      rw [hidx] at hidx'
      cases ht'
      cases hidx'
      rw [hu] at hu'
      cases hu'
      rw [hdiff] at hdiff'
      cases hdiff'
      exact h
    rw [List.exists_mem_cons_iff, hself]
    cases b with
    | true =>
      have hempty : den d = ∅ := hb.mp rfl
      refine ih.imp fun r hr => ?_
      rw [hr]
      refine (or_iff_right fun ⟨hne, _⟩ => ?_).symm
      rw [hempty] at hne
      exact Set.not_nonempty_empty hne
    | false =>
      have hne : (den d).Nonempty := Set.nonempty_iff_ne_empty.mpr fun hempty =>
        absurd (hb.mpr hempty) (by decide)
      refine (hnext _ _ (hs.set hi hd hne)).bind fun r hr => ?_
      cases r with
      | true => exact iff_of_true rfl (.inl ⟨hne, hr.mp rfl⟩)
      | false =>
        refine ih.imp fun r' hr' => ?_
        rw [hr']
        exact (or_iff_right fun ⟨_, hG⟩ => absurd (hr.mpr hG) (by decide)).symm

/-! ### One negative more -/

section Cons

variable {env : Env} {atom : Atom} {neg : List Atom} {nt : ListAtomicType}
  {memberTypes : List SemType} {nRequired : Nat}

omit [BddIdentity] in
theorem sampleAvoidable_cons (hnt : env.listAtomType atom = some nt) :
    SampleAvoidable den env indices (atom :: neg) memberTypes nRequired ↔
      ∃ w, Sampled den memberTypes nRequired w ∧ Avoids den indices w nt ∧
        ∀ atom ∈ neg, ∃ nt, env.listAtomType atom = some nt ∧ Avoids den indices w nt := by
  refine exists_congr fun w => and_congr_right fun _ => ?_
  rw [List.forall_mem_cons]
  refine and_congr_left fun _ => ⟨fun ⟨nt', hnt', h⟩ => ?_, fun h => ⟨nt, hnt, h⟩⟩
  rw [hnt] at hnt'
  cases hnt'
  exact h

omit [BddIdentity] in
/-- A negative that all lists avoid can be skipped. -/
theorem sampleAvoidable_skip (hnt : env.listAtomType atom = some nt)
    (h : ∀ w, Sampled den memberTypes nRequired w → Avoids den indices w nt) :
    SampleAvoidable den env indices (atom :: neg) memberTypes nRequired ↔
      SampleAvoidable den env indices neg memberTypes nRequired := by
  rw [sampleAvoidable_cons hnt]
  exact exists_congr fun w => and_congr_right fun hw => and_iff_right (h w hw)

omit [BddIdentity] in
theorem Sampled.take {w : List V} {i : Nat} :
    Sampled den (memberTypes.take i) nRequired w ↔
      Sampled den memberTypes nRequired w ∧ w.length ≤ i := by
  refine ⟨fun h => ?_, fun ⟨h, hi⟩ => ⟨h.required, ?_, fun j v t hv ht => ?_⟩⟩
  · have hlen := h.length
    rw [List.length_take] at hlen
    refine ⟨⟨h.required, by omega, fun j v t hv ht => h.mem j v t hv ?_⟩, by omega⟩
    have hj := (List.getElem?_eq_some_iff.mp hv).1
    rw [List.getElem?_take_of_lt (by omega)]
    exact ht
  · rw [List.length_take]
    exact Nat.le_min.mpr ⟨hi, h.length⟩
  · have hj := (List.getElem?_eq_some_iff.mp hv).1
    rw [List.getElem?_take_of_lt (by omega)] at ht
    exact h.mem j v t hv ht

omit [BddIdentity] in
theorem Sampled.set {w : List V} {i : Nat} {t u d : SemType} (ht : memberTypes[i]? = some t)
    (hd : den d = den t \ den u) :
    Sampled den (memberTypes.set i d) (max nRequired (i + 1)) w ↔
      Sampled den memberTypes nRequired w ∧ ∃ v, w[i]? = some v ∧ v ∉ den u := by
  have hi := (List.getElem?_eq_some_iff.mp ht).1
  refine ⟨fun h => ?_, fun ⟨h, v, hv, hvu⟩ => ⟨?_, ?_, fun j v' t' hv' ht' => ?_⟩⟩
  · have hreq := h.required
    have hlen := h.length
    rw [List.length_set] at hlen
    have hv : w[i]? = some (w[i]) := List.getElem?_eq_getElem (by omega)
    have hmem := h.mem i _ d hv (by rw [List.getElem?_set_self hi])
    rw [hd] at hmem
    refine ⟨⟨by omega, hlen, fun j v t' hv' ht' => ?_⟩, _, hv, hmem.2⟩
    by_cases hj : i = j
    · subst hj
      rw [hv] at hv'
      rw [ht] at ht'
      cases hv'
      cases ht'
      exact hmem.1
    · exact h.mem j v t' hv' (by rw [List.getElem?_set_ne hj, ht'])
  · have hj := (List.getElem?_eq_some_iff.mp hv).1
    have := h.required
    omega
  · rw [List.length_set]
    exact h.length
  · by_cases hj : i = j
    · subst hj
      rw [List.getElem?_set_self hi] at ht'
      rw [hv] at hv'
      cases hv'
      cases ht'
      rw [hd]
      exact ⟨h.mem i v t hv ht, hvu⟩
    · rw [List.getElem?_set_ne hj] at ht'
      exact h.mem j v' t' hv' ht'

/-- Where the positive may be as long as the negative, the two loops look at all ways to
avoid the negative. -/
theorem sampleAvoidable_loops (hx : ExactItems den R Cell Atomic)
    (hsorted : indices.Pairwise (· < ·)) (hnonneg : ∀ x ∈ indices, 0 ≤ x)
    (hnt : env.listAtomType atom = some nt) (hover : nt.Over Atomic)
    (hs : Searchable den Cell indices memberTypes nRequired)
    (hlong : ∀ x, indices[memberTypes.length]? = some x → ¬ x < nt.members.fixedLength) :
    SampleAvoidable den env indices (atom :: neg) memberTypes nRequired ↔
      (∃ i ∈ List.range' nRequired (memberTypes.length - nRequired), ∃ x, indices[i]? = some x ∧
        x < nt.members.fixedLength ∧
        SampleAvoidable den env indices neg (memberTypes.take i) nRequired) ∨
      ∃ i ∈ List.range memberTypes.length, ∃ t x u d, memberTypes[i]? = some t ∧
        indices[i]? = some x ∧ listMemberAt nt.members nt.rest x = some u ∧
        diff ops t u = some d ∧ (den d).Nonempty ∧
        SampleAvoidable den env indices neg (memberTypes.set i d) (max nRequired (i + 1)) := by
  have hlen := hs.length
  have hreq := hs.required
  rw [sampleAvoidable_cons hnt]
  refine ⟨fun ⟨w, hw, havoid, hrest⟩ => ?_, fun h => ?_⟩
  · have hwreq := hw.required
    have hwlen := hw.length
    rcases havoid with ⟨x, hidx, hlt⟩ | ⟨j, v, x, u, hv, hidx, hu, hvu⟩
    · refine .inl ⟨w.length, ?_, x, hidx, hlt, w, Sampled.take.mpr ⟨hw, Nat.le_refl _⟩, hrest⟩
      have hne : w.length ≠ memberTypes.length := fun heq => hlong x (heq ▸ hidx) hlt
      rw [List.mem_range'_1]
      omega
    · have hj := (List.getElem?_eq_some_iff.mp hv).1
      have ht : memberTypes[j]? = some memberTypes[j] := List.getElem?_eq_getElem (by omega)
      obtain ⟨u', hu', huAtomic⟩ := hover.memberAt (hnonneg x (List.mem_of_getElem? hidx))
      rw [hu] at hu'
      cases hu'
      obtain ⟨d, hdiff, -, hden⟩ := hx.diff (hs.cell _ (List.mem_of_getElem? ht)) (hx.cell huAtomic)
      refine .inr ⟨j, List.mem_range.mpr (by omega), _, x, u, d, ht, hidx, hu, hdiff, ⟨v, ?_⟩,
        w, (Sampled.set ht hden).mpr ⟨hw, v, hv, hvu⟩, hrest⟩
      rw [hden]
      exact ⟨hw.mem j v _ hv ht, hvu⟩
  · rcases h with ⟨i, hi, x, hidx, hlt, w, hw, hrest⟩ |
      ⟨i, hi, t, x, u, d, ht, hidx, hu, hdiff, hne, w, hw, hrest⟩
    · obtain ⟨hw, hwi⟩ := Sampled.take.mp hw
      refine ⟨w, hw, .inl ?_, hrest⟩
      have hilt := (List.getElem?_eq_some_iff.mp hidx).1
      have hwx : indices[w.length]? = some indices[w.length] := List.getElem?_eq_getElem (by omega)
      have := le_of_getElem?_le hsorted hwx hidx hwi
      exact ⟨_, hwx, by omega⟩
    · obtain ⟨u', hu', huAtomic⟩ := hover.memberAt (hnonneg x (List.mem_of_getElem? hidx))
      rw [hu] at hu'
      cases hu'
      obtain ⟨d', hdiff', -, hden⟩ :=
        hx.diff (hs.cell _ (List.mem_of_getElem? ht)) (hx.cell huAtomic)
      rw [hdiff] at hdiff'
      cases hdiff'
      obtain ⟨hw, v, hv, hvu⟩ := (Sampled.set ht hden).mp hw
      exact ⟨w, hw, .inr ⟨i, v, x, u, hv, hidx, hu, hvu⟩, hrest⟩

end Cons

/-- The list atoms have types in `S`. -/
def Env.ListsOver (S : SemType → Prop) (env : Env) (atoms : List Atom) : Prop :=
  ∀ atom ∈ atoms, ∃ lt, env.listAtomType atom = some lt ∧ lt.Over S

/-- The search finds a sampled list that avoids all negatives, if there is one. -/
theorem listInhabited_ensures (hx : ExactItems den R Cell Atomic)
    (hsorted : indices.Pairwise (· < ·)) (hnonneg : ∀ x ∈ indices, 0 ≤ x) {env : Env} :
    ∀ (neg : List Atom) (memberTypes : List SemType) (nRequired : Nat),
      env.ListsOver Atomic neg → Searchable den Cell indices memberTypes nRequired →
      (listInhabited env indices neg memberTypes nRequired).Ensures R Cell (EmptyRight den)
        fun r => r = true ↔ SampleAvoidable den env indices neg memberTypes nRequired
  | [], memberTypes, nRequired, _, hs => by
    obtain ⟨w, hw⟩ := hs.exists_sampled
    exact iff_of_true rfl ⟨w, hw, fun atom hatom => absurd hatom List.not_mem_nil⟩
  | atom :: neg, memberTypes, nRequired, hneg, hs => by
    obtain ⟨nt, hnt, hover⟩ := hneg atom (.head _)
    have hlen := hs.length
    have hreq := hs.required
    have hnext := fun types n => listInhabited_ensures hx hsorted hnonneg neg types n fun a ha =>
      hneg a (.tail _ ha)
    rw [listInhabited]
    refine Prog.Ensures.ofOption hnt ?_
    -- the type that the negative gives to the last required sample
    have hskip : ∃ skip, (if nRequired > 0 then do
        let last ← indices[nRequired - 1]?
        return decide ((← listMemberAtInnerVal nt.members nt.rest last) = NEVER)
      else some false) = some skip ∧ (skip = true → ∀ w, Sampled den memberTypes nRequired w →
        Avoids den indices w nt) := by
      by_cases hpos : nRequired > 0
      · have hidx : indices[nRequired - 1]? = some indices[nRequired - 1] :=
          List.getElem?_eq_getElem (by omega)
        obtain ⟨u, hu, huAtomic⟩ := hover.memberAt (hnonneg _ (List.mem_of_getElem? hidx))
        obtain ⟨ty, hty, hnever⟩ := hx.innerVal huAtomic
        refine ⟨decide (ty = NEVER), ?_, fun h w hw => .inr ?_⟩
        · rw [if_pos hpos, hidx]
          show (do return decide ((← listMemberAtInnerVal _ _ _) = NEVER)) = _
          unfold listMemberAtInnerVal
          rw [hu]
          show (do return decide ((← cellInnerVal u) = NEVER)) = _
          rw [hty]
          rfl
        · have hwreq := hw.required
          have hv : w[nRequired - 1]? = some w[nRequired - 1] := List.getElem?_eq_getElem (by omega)
          refine ⟨nRequired - 1, _, _, u, hv, hidx, hu, ?_⟩
          rw [hnever (of_decide_eq_true h)]
          exact Set.notMem_empty _
      · exact ⟨false, if_neg hpos, fun h => absurd h Bool.false_ne_true⟩
    obtain ⟨skip, hskipEq, hskip⟩ := hskip
    refine Prog.Ensures.ofOption hskipEq ?_
    cases skip with
    | true =>
      refine (hnext memberTypes nRequired hs).imp fun r hr => ?_
      rw [hr, sampleAvoidable_skip hnt (hskip rfl)]
    | false =>
      -- whether all lists end before the negative's fixed members do
      have hshort : ∃ short, (if nt.members.fixedLength > 0 ∧ memberTypes.length < indices.length then do
          return decide ((← indices[memberTypes.length]?) < nt.members.fixedLength)
        else some false) = some short ∧ (short = true ↔ ∃ x,
          indices[memberTypes.length]? = some x ∧ x < nt.members.fixedLength) := by
        by_cases h : nt.members.fixedLength > 0 ∧ memberTypes.length < indices.length
        · have hidx : indices[memberTypes.length]? = some indices[memberTypes.length] :=
            List.getElem?_eq_getElem h.2
          refine ⟨decide (indices[memberTypes.length] < nt.members.fixedLength), ?_, ?_⟩
          · rw [if_pos h, hidx]
            rfl
          · rw [decide_eq_true_iff, hidx]
            simp
        · refine ⟨false, if_neg h, iff_of_false Bool.false_ne_true fun ⟨x, hidx, hlt⟩ => h ?_⟩
          have := hnonneg x (List.mem_of_getElem? hidx)
          exact ⟨by omega, (List.getElem?_eq_some_iff.mp hidx).1⟩
      obtain ⟨short, hshortEq, hshort⟩ := hshort
      refine Prog.Ensures.ofOption hshortEq ?_
      cases short with
      | true =>
        obtain ⟨x, hidx, hlt⟩ := hshort.mp rfl
        refine (hnext memberTypes nRequired hs).imp fun r hr => ?_
        rw [hr, sampleAvoidable_skip hnt fun w hw => .inl ?_]
        have hwlen := hw.length
        have hilt := (List.getElem?_eq_some_iff.mp hidx).1
        have hwx : indices[w.length]? = some indices[w.length] := List.getElem?_eq_getElem (by omega)
        have := le_of_getElem?_le hsorted hwx hidx hwlen
        exact ⟨_, hwx, by omega⟩
      | false =>
        have hlong : ∀ x, indices[memberTypes.length]? = some x → ¬ x < nt.members.fixedLength :=
          fun x hidx hlt => absurd (hshort.mpr ⟨x, hidx, hlt⟩) (by decide)
        rw [sampleAvoidable_loops hx hsorted hnonneg hnt hover hs hlong]
        have hmember := listInhabitedMember_ensures hx hnext hnonneg hover hs
          (List.range memberTypes.length) fun i hi => List.mem_range.mp hi
        show (if nt.members.fixedLength > 0 then _ else _ : EmptyM Bool).Ensures _ _ _ _
        split
        next =>
          refine (listInhabitedShorter_ensures hnext hsorted hs nt.members.fixedLength _
            (List.pairwise_lt_range' 1 (by decide)) fun i hi => ?_).bind fun r hr => ?_
          · rw [List.mem_range'_1] at hi
            omega
          · cases r with
            | true => exact iff_of_true rfl (.inl (hr.mp rfl))
            | false =>
              refine hmember.imp fun r' hr' => ?_
              rw [hr']
              exact (or_iff_right fun h => absurd (hr.mpr h) (by decide)).symm
        next hzero =>
          refine hmember.imp fun r' hr' => ?_
          rw [hr']
          refine (or_iff_right fun ⟨i, _, x, hidx, hlt, _⟩ => hzero ?_).symm
          have := hnonneg x (List.mem_of_getElem? hidx)
          omega

/-! ## The types of the samples -/

/-- The samples so far have the types that the positive gives them, and those that are
required are before the fixed length. -/
structure SampleTypes (den : SemType → Set V) (Cell : SemType → Prop) (lt : ListAtomicType)
    (indices : List Int) (memberTypes : List SemType) (nRequired : Nat) : Prop
    extends Searchable den Cell indices memberTypes nRequired where
  types : ∀ (q : Nat) (t : SemType) (x : Int) (u : SemType), memberTypes[q]? = some t →
    indices[q]? = some x → listMemberAt lt.members lt.rest x = some u → den t = den u
  before : ∀ (q : Nat) (x : Int), indices[q]? = some x → q < memberTypes.length →
    (x < lt.members.fixedLength ↔ q < nRequired)

omit [BddIdentity] in
theorem SampleTypes.push (h : SampleTypes den Cell lt indices memberTypes nRequired)
    (hsorted : indices.Pairwise (· < ·)) {x : Int} (hidx : indices[memberTypes.length]? = some x)
    {t u : SemType} (hu : listMemberAt lt.members lt.rest x = some u) (ht : Cell t)
    (hden : den t = den u) (hne : (den t).Nonempty) :
    SampleTypes den Cell lt indices (memberTypes ++ [t])
      (if x < lt.members.fixedLength then memberTypes.length + 1 else nRequired) where
  cell t' ht' := (List.mem_append.mp ht').elim (h.cell t') fun hmem =>
    List.mem_singleton.mp hmem ▸ ht
  nonempty t' ht' := (List.mem_append.mp ht').elim (h.nonempty t') fun hmem =>
    List.mem_singleton.mp hmem ▸ hne
  required := by
    have := h.required
    rw [List.length_append, List.length_singleton]
    split <;> omega
  length := by
    have := (List.getElem?_eq_some_iff.mp hidx).1
    rw [List.length_append, List.length_singleton]
    omega
  types q t' x' u' ht' hidx' hu' := by
    rcases Nat.lt_trichotomy q memberTypes.length with hq | hq | hq
    · rw [List.getElem?_append_left hq] at ht'
      exact h.types q t' x' u' ht' hidx' hu'
    · subst hq
      rw [List.getElem?_concat_length] at ht'
      rw [hidx] at hidx'
      cases ht'
      cases hidx'
      rw [hu] at hu'
      cases hu'
      exact hden
    · rw [List.getElem?_eq_none (by rw [List.length_append, List.length_singleton]; omega)] at ht'
      cases ht'
  before q x' hidx' hq := by
    have hreq := h.required
    rw [List.length_append, List.length_singleton] at hq
    rcases Nat.lt_or_eq_of_le (Nat.le_of_lt_succ hq) with hq | hq
    · have hx' := lt_of_getElem?_lt hsorted hidx' hidx hq
      split
      next hlt => exact iff_of_true (by omega) (by omega)
      next => exact h.before q x' hidx' hq
    · subst hq
      rw [hidx] at hidx'
      cases hidx'
      split
      next hlt => exact iff_of_true hlt (by omega)
      next hlt => exact iff_of_false hlt (by omega)

/-- The types of the samples, if `cellContainingInnerVal` keeps the members and `isEmpty` answers
rightly for its results. -/
theorem listSampleTypesLoop_ensures {C : SemType → Prop} {A : SemType → Bool → Prop}
    (hcontaining : ∀ {t : SemType}, Atomic t →
      (cellContainingInnerVal t).Ensures R C A fun t' => Cell t' ∧ den t' = den t)
    (hcall : ∀ {t : SemType}, Cell t → C t)
    (hanswer : ∀ {t : SemType} {b : Bool}, Cell t → A t b → EmptyRight den t b)
    {lt : ListAtomicType} (hover : lt.Over Atomic) (hsorted : indices.Pairwise (· < ·))
    (hnonneg : ∀ x ∈ indices, 0 ≤ x) :
    ∀ (is : List Int) (memberTypes : List SemType) (nRequired : Nat),
      indices.drop memberTypes.length = is →
      SampleTypes den Cell lt indices memberTypes nRequired →
      (listSampleTypesLoop lt.members lt.rest is memberTypes.length memberTypes nRequired).Ensures
        R C A fun r => SampleTypes den Cell lt indices r.1 r.2 ∧
          ∀ (x : Int) (u : SemType), indices[r.1.length]? = some x →
            listMemberAt lt.members lt.rest x = some u → den u = ∅
  | [], memberTypes, nRequired, hdrop, h => by
    refine ⟨h, fun x u hidx => ?_⟩
    have hlen := (List.getElem?_eq_some_iff.mp hidx).1
    rw [List.drop_eq_nil_iff] at hdrop
    exact absurd hlen (by dsimp only; omega)
  | x :: is, memberTypes, nRequired, hdrop, h => by
    have hidx : indices[memberTypes.length]? = some x := by
      have hhead : (indices.drop memberTypes.length)[0]? = indices[memberTypes.length + 0]? :=
        List.getElem?_drop
      rw [hdrop] at hhead
      exact hhead.symm
    obtain ⟨u, hu, huAtomic⟩ := hover.memberAt (hnonneg x (List.mem_of_getElem? hidx))
    refine Prog.Ensures.ofOption hu ?_
    refine (hcontaining huAtomic).bind fun t ht => ?_
    refine ⟨hcall ht.1, fun b hb => ?_⟩
    have hright := hanswer ht.1 hb
    cases b with
    | true =>
      refine ⟨h, fun x' u' hidx' hu' => ?_⟩
      rw [hidx] at hidx'
      cases hidx'
      rw [hu] at hu'
      cases hu'
      rw [← ht.2]
      exact hright.mp rfl
    | false =>
      have hne : (den t).Nonempty := Set.nonempty_iff_ne_empty.mpr fun hempty =>
        absurd (hright.mpr hempty) (by decide)
      have hpush := h.push hsorted hidx hu ht.1 ht.2 hne
      have hlen : (memberTypes ++ [t]).length = memberTypes.length + 1 := by
        rw [List.length_append, List.length_singleton]
      have hdrop' : indices.drop (memberTypes ++ [t]).length = is := by
        rw [hlen, ← List.drop_drop, hdrop]
        rfl
      have ih := listSampleTypesLoop_ensures hcontaining hcall hanswer hover hsorted hnonneg is _ _
        hdrop' hpush
      rw [hlen] at ih
      exact ih

omit [BddIdentity] in
/-- Where the types stop, the fixed members are over. -/
theorem SampleTypes.required_of_lt (h : SampleTypes den Cell lt indices memberTypes nRequired)
    (hsorted : indices.Pairwise (· < ·)) (hnonneg : ∀ x ∈ indices, 0 ≤ x) (hvalid : lt.members.Valid)
    (hne : ∀ t ∈ lt.members.initial, (den t).Nonempty)
    (hstop : ∀ (x : Int) (u : SemType), indices[memberTypes.length]? = some x →
      listMemberAt lt.members lt.rest x = some u → den u = ∅) {q : Nat} {x : Int}
    (hidx : indices[q]? = some x) (hlt : x < lt.members.fixedLength) :
    q < nRequired := by
  by_cases hq : q < memberTypes.length
  · exact (h.before q x hidx hq).mp hlt
  · have hqlen := (List.getElem?_eq_some_iff.mp hidx).1
    have hend : indices[memberTypes.length]? = some indices[memberTypes.length] :=
      List.getElem?_eq_getElem (by omega)
    have hle := le_of_getElem?_le hsorted hend hidx (by omega)
    obtain ⟨t, ht, ⟨-, hmem⟩ | ⟨hge, -⟩⟩ :=
      exists_listMemberAt hvalid lt.rest (hnonneg _ (List.mem_of_getElem? hend))
    · have hempty := hstop _ t hend ht
      exact absurd (hne t hmem) (by rw [hempty]; exact Set.not_nonempty_empty)
    · omega

/-! ## A list from a sampled list -/

omit [BddIdentity] in
/-- The members of a list, one by one. -/
theorem exists_list_of_forall {P : Nat → V → Prop} : ∀ n : Nat, (∀ i, i < n → ∃ v, P i v) →
    ∃ l : List V, l.length = n ∧ ∀ (i : Nat) (v : V), l[i]? = some v → P i v
  | 0, _ => ⟨[], rfl, fun i v h => by simp at h⟩
  | n + 1, h => by
    obtain ⟨l, hlen, hl⟩ := exists_list_of_forall n fun i hi => h i (Nat.lt_succ_of_lt hi)
    obtain ⟨v, hv⟩ := h n (Nat.lt_succ_self n)
    refine ⟨l ++ [v], by rw [List.length_append, hlen, List.length_singleton], fun i v' hi => ?_⟩
    rcases Nat.lt_trichotomy i l.length with hlt | heq | hgt
    · rw [List.getElem?_append_left hlt] at hi
      exact hl i v' hi
    · rw [heq, List.getElem?_concat_length] at hi
      cases hi
      rw [heq, hlen]
      exact hv
    · rw [List.getElem?_eq_none (by rw [List.length_append, List.length_singleton]; omega)] at hi
      cases hi

/-- What the samples are to the positive type and the negatives. -/
structure SamplesOf (env : Env) (lt : ListAtomicType) (neg : List Atom) (boundaries : List Int)
    (lastBoundary : Int) (indices : List Int) : Prop
    extends Sampling boundaries lastBoundary (max neg.length 1) indices where
  pos : lt.members.CutBy boundaries
  neg : ∀ atom ∈ neg, ∀ nt, env.listAtomType atom = some nt → nt.members.CutBy boundaries

section Samples

variable {env : Env} {lt : ListAtomicType} {neg : List Atom} {boundaries : List Int}
  {lastBoundary : Int} {memberTypes : List SemType} {nRequired : Nat}

omit [BddIdentity] in
theorem SamplesOf.nonneg_of_mem (h : SamplesOf env lt neg boundaries lastBoundary indices) :
    ∀ x ∈ indices, 0 ≤ x := fun x hx => ((h.mem_iff x).mp hx).1

omit [BddIdentity] in
/-- The last index before a boundary is a sample. -/
theorem SamplesOf.pred_mem (h : SamplesOf env lt neg boundaries lastBoundary indices) {b : Int}
    (hb : b ∈ boundaries) (hpos : 0 < b) : b - 1 ∈ indices := by
  rw [h.mem_iff, endOf_pred h.sorted_boundaries hb]
  refine ⟨by omega, ?_⟩
  show b - (max neg.length 1 : Nat) ≤ b - 1
  omega

variable {c n x : Int} {RestInhabited : Prop}

omit [BddIdentity] in
theorem SamplesOf.le_int (h : SamplesOf env lt neg boundaries lastBoundary indices) (hx : x ∈ indices) :
    x ≤ intMaxValue := by
  have hint := h.int
  obtain ⟨-, hx⟩ := (h.mem_iff x).mp hx
  cases hend : endOf boundaries x with
  | none =>
    rw [hend] at hx
    exact hx.2.2
  | some b =>
    have := lt_of_endOf hend
    have := h.last b (mem_of_endOf hend)
    omega

omit [BddIdentity] in
/-- A sampled list extends to a list that avoids the same negatives. -/
theorem exists_list_of_sampled (hsamples : SamplesOf env lt neg boundaries lastBoundary indices)
    (hover : lt.Over Atomic) (hne : ∀ t ∈ lt.members.initial, (den t).Nonempty)
    (htypes : SampleTypes den Cell lt indices memberTypes nRequired)
    (hstop : ∀ (x : Int) (u : SemType), indices[memberTypes.length]? = some x →
      listMemberAt lt.members lt.rest x = some u → den u = ∅)
    (h : SampleAvoidable den env indices neg memberTypes nRequired) :
    ∃ l : List V, (l.length : Int) ≤ intMaxValue + 1 ∧ lt.Contains den l ∧
      ∀ atom ∈ neg, ¬ env.ListContains den l atom := by
  obtain ⟨w, hw, havoid⟩ := h
  have hwlen := hw.length
  have hwreq := hw.required
  have hlen := htypes.length
  -- the list ends with the last sample
  have hn : ∃ n : Nat, (n : Int) ≤ intMaxValue + 1 ∧
      (∀ (q : Nat) (x : Int), indices[q]? = some x → (x < n ↔ q < w.length)) ∧
      ∀ i : Nat, i < n → ∃ (q : Nat) (x : Int), indices[q]? = some x ∧ q < w.length ∧ i ≤ x := by
    by_cases hzero : w.length = 0
    · refine ⟨0, by decide, fun q x hidx => ?_, fun i hi => absurd hi (Nat.not_lt_zero i)⟩
      have := hsamples.nonneg_of_mem x (List.mem_of_getElem? hidx)
      omega
    · have hidx : indices[w.length - 1]? = some indices[w.length - 1] :=
        List.getElem?_eq_getElem (by omega)
      have hnonneg := hsamples.nonneg_of_mem _ (List.mem_of_getElem? hidx)
      have hint := hsamples.le_int (List.mem_of_getElem? hidx)
      refine ⟨(indices[w.length - 1] + 1).toNat, by omega, fun q x hq => ⟨fun hlt => ?_, fun hlt => ?_⟩,
        fun i hi => ⟨w.length - 1, _, hidx, by omega, by omega⟩⟩
      · by_contra hge
        have := lt_of_getElem?_lt hsamples.sorted hidx hq (by omega)
        omega
      · have := le_of_getElem?_le hsamples.sorted hq hidx (by omega)
        omega
  obtain ⟨n, hint, hbelow, hsample⟩ := hn
  have hmember : ∀ i : Nat, i < n → ∃ v : V,
      (∀ u, listMemberAt lt.members lt.rest i = some u → v ∈ den u) ∧
      ∀ (j : Nat) (v' : V), w[j]? = some v' → indices[j]? = some (i : Int) → v = v' := by
    intro i hi
    by_cases hex : ∃ j : Nat, indices[j]? = some (i : Int)
    · -- the member of the sample
      obtain ⟨j, hj⟩ := hex
      have hjw : j < w.length := (hbelow j i hj).mp (by omega)
      have hv : w[j]? = some w[j] := List.getElem?_eq_getElem hjw
      have ht : memberTypes[j]? = some memberTypes[j] := List.getElem?_eq_getElem (by omega)
      refine ⟨w[j], fun u hu => ?_, fun j' v' hv' hj' => ?_⟩
      · rw [← htypes.types j _ _ u ht hj hu]
        exact hw.mem j _ _ hv ht
      · have hjj : j = j' := by
          rcases Nat.lt_trichotomy j j' with hlt | heq | hlt
          · exact absurd (lt_of_getElem?_lt hsamples.sorted hj hj' hlt) (Int.lt_irrefl _)
          · exact heq
          · exact absurd (lt_of_getElem?_lt hsamples.sorted hj' hj hlt) (Int.lt_irrefl _)
        subst hjj
        rw [hv] at hv'
        cases hv'
        rfl
    · -- any member will do
      obtain ⟨t, ht, hcase⟩ := exists_listMemberAt hover.valid lt.rest (Int.natCast_nonneg i)
      have hnonempty : (den t).Nonempty := by
        rcases hcase with ⟨-, hmem⟩ | ⟨hge, rfl⟩
        · exact hne t hmem
        · obtain ⟨q, x, hidx, hq, hix⟩ := hsample i hi
          have htq : memberTypes[q]? = some memberTypes[q] := List.getElem?_eq_getElem (by omega)
          have hrest : listMemberAt lt.members lt.rest x = some lt.rest := by
            unfold listMemberAt
            rw [if_neg (by omega)]
          rw [← htypes.types q _ x _ htq hidx hrest]
          exact htypes.nonempty _ (List.mem_of_getElem? htq)
      obtain ⟨v, hv⟩ := hnonempty
      refine ⟨v, fun u hu => ?_, fun j v' _ hj => absurd ⟨j, hj⟩ hex⟩
      rw [ht] at hu
      cases hu
      exact hv
  obtain ⟨l, hl, hmem⟩ := exists_list_of_forall n hmember
  refine ⟨l, by omega, ⟨?_, fun i v t hv ht => (hmem i v hv).1 t ht⟩, fun atom hatom => ?_⟩
  · -- the last fixed member is a sample, and required
    by_cases hpos : 0 < lt.members.fixedLength
    · have hlast := hsamples.pred_mem (hsamples.pos.fixedLength hpos) hpos
      obtain ⟨q, hq⟩ := List.mem_iff_getElem?.mp hlast
      have hreq := htypes.required_of_lt hsamples.sorted hsamples.nonneg_of_mem hover.valid hne hstop
        hq (by omega)
      have := (hbelow q _ hq).mpr (by omega)
      omega
    · omega
  · intro ⟨nt, hnt, hcontains⟩
    obtain ⟨nt', hnt', h⟩ := havoid atom hatom
    rw [hnt] at hnt'
    cases hnt'
    rcases h with ⟨x, hidx, hlt⟩ | ⟨j, v, x, t, hv, hidx, ht, hvt⟩
    · have hge := mt (hbelow _ x hidx).mp (Nat.lt_irrefl _)
      have := hcontains.1
      omega
    · have hj := (List.getElem?_eq_some_iff.mp hv).1
      have hxn := (hbelow j x hidx).mpr hj
      have hnonneg := hsamples.nonneg_of_mem x (List.mem_of_getElem? hidx)
      obtain ⟨i, rfl⟩ := Int.eq_ofNat_of_zero_le hnonneg
      have hi : l[i]? = some l[i] := List.getElem?_eq_getElem (by omega)
      have heq := (hmem i _ hi).2 j v hv hidx
      exact hvt (heq ▸ hcontains.2 i _ t hi ht)

/-! ## A sampled list from a list -/

omit [BddIdentity] in
/-- A list outside the negatives has one member that matters for each negative; none for a
negative that is longer. -/
theorem exists_members {l : List V} : ∀ neg : List Atom, env.ListsOver Atomic neg →
    (∀ atom ∈ neg, ¬ env.ListContains den l atom) →
    ∃ D : Finset Int, (∀ x ∈ D, 0 ≤ x ∧ x < l.length) ∧ D.card ≤ neg.length ∧
      ((∃ atom ∈ neg, ∃ nt, env.listAtomType atom = some nt ∧
        (l.length : Int) < nt.members.fixedLength) → D.card + 1 ≤ neg.length) ∧
      ∀ atom ∈ neg, ∃ nt, env.listAtomType atom = some nt ∧
        ((l.length : Int) < nt.members.fixedLength ∨ ∃ (i : Nat) (v : V) (t : SemType),
          (i : Int) ∈ D ∧ l[i]? = some v ∧ listMemberAt nt.members nt.rest i = some t ∧ v ∉ den t)
  | [], _, _ => ⟨∅, by simp, by simp, by simp, by simp⟩
  | atom :: neg, hneg, havoid => by
    obtain ⟨D, hD, hcard, hshort, hmembers⟩ := exists_members neg
      (fun a ha => hneg a (.tail _ ha)) fun a ha => havoid a (.tail _ ha)
    obtain ⟨nt, hnt, -⟩ := hneg atom (.head _)
    by_cases hlen : (l.length : Int) < nt.members.fixedLength
    · refine ⟨D, hD, Nat.le_succ_of_le hcard, fun _ => Nat.succ_le_succ hcard, fun a ha => ?_⟩
      rcases List.mem_cons.mp ha with rfl | ha
      · exact ⟨nt, hnt, .inl hlen⟩
      · exact hmembers a ha
    · have hnot : ¬ nt.Contains den l := fun h => havoid atom (.head _) ⟨nt, hnt, h⟩
      have hex : ∃ (i : Nat) (v : V) (t : SemType), l[i]? = some v ∧
          listMemberAt nt.members nt.rest i = some t ∧ v ∉ den t := by
        by_contra hall
        refine hnot ⟨by omega, fun i v t hv ht => ?_⟩
        by_contra hvt
        exact hall ⟨i, v, t, hv, ht, hvt⟩
      obtain ⟨i, v, t, hv, ht, hvt⟩ := hex
      have hi := (List.getElem?_eq_some_iff.mp hv).1
      refine ⟨insert (i : Int) D, fun x hx => ?_, ?_, fun ⟨a, ha, nt', hnt', hlt⟩ => ?_, fun a ha => ?_⟩
      · rcases Finset.mem_insert.mp hx with rfl | hx
        · omega
        · exact hD x hx
      · exact Nat.le_trans (Finset.card_insert_le _ _) (Nat.succ_le_succ hcard)
      · rcases List.mem_cons.mp ha with rfl | ha
        · rw [hnt] at hnt'
          cases hnt'
          exact absurd hlt hlen
        · have := hshort ⟨a, ha, nt', hnt', hlt⟩
          have := Finset.card_insert_le (i : Int) D
          rw [List.length_cons]
          omega
      · rcases List.mem_cons.mp ha with rfl | ha
        · exact ⟨nt, hnt, .inr ⟨i, v, t, Finset.mem_insert_self _ _, hv, ht, hvt⟩⟩
        · obtain ⟨nt', hnt', h⟩ := hmembers a ha
          refine ⟨nt', hnt', h.imp_right fun ⟨i', v', t', hi', h'⟩ => ?_⟩
          exact ⟨i', v', t', Finset.mem_insert_of_mem hi', h'⟩

omit [BddIdentity] in
/-- Of a part that ends either all members are samples or the last ones, one for each
negative. -/
theorem SamplesOf.part (h : SamplesOf env lt neg boundaries lastBoundary indices) (b : Int) :
    (∀ y, 0 ≤ y → endOf boundaries y = some b → y ∈ indices) ∨
      ∀ z, b - (max neg.length 1 : Nat) ≤ z → z < b → z ∈ indices ∧ endOf boundaries z = some b := by
  by_cases hall : ∀ y, 0 ≤ y → endOf boundaries y = some b → y ∈ indices
  · exact .inl hall
  · push Not at hall
    obtain ⟨y, hy, hend, hnot⟩ := hall
    rw [h.mem_iff, hend] at hnot
    have hlt : y < b - (max neg.length 1 : Nat) := by
      by_contra hge
      exact hnot ⟨hy, Int.not_lt.mp hge⟩
    refine .inr fun z hz hzb => ?_
    have hendz := endOf_of_between h.sorted_boundaries hend (by omega) hzb
    refine ⟨?_, hendz⟩
    rw [h.mem_iff, hendz]
    exact ⟨by omega, hz⟩

/-- How many samples a sampled list for a list of length `n` has: those below `c`. They have
members and include those required, and each part has enough of them for `k` members of the
list. -/
structure Cut (lt : ListAtomicType) (boundaries indices : List Int) (n : Int) (k : Nat)
    (RestInhabited : Prop) (c : Int) : Prop where
  inhabited : ∀ x ∈ indices, x < c → lt.members.fixedLength ≤ x → RestInhabited
  required : ∀ x ∈ indices, x < lt.members.fixedLength → x < c
  enough : ∀ x : Int, 0 ≤ x → x < n →
    (∀ y : Int, 0 ≤ y → y < n → endOf boundaries y = endOf boundaries x → y ∈ indices ∧ y < c) ∨
    ∃ s : Int, ∀ y : Int, s ≤ y → y < s + k →
      y ∈ indices ∧ y < c ∧ endOf boundaries y = endOf boundaries x

omit [BddIdentity] in
theorem SamplesOf.last_le (h : SamplesOf env lt neg boundaries lastBoundary indices) (hx : 0 ≤ x)
    (hend : endOf boundaries x = none) : lastBoundary ≤ x := by
  rcases h.attained with hzero | hmem
  · omega
  · exact endOf_eq_none_iff.mp hend _ hmem

omit [BddIdentity] in
/-- The cut of a list that ends in the part without end: all samples. -/
theorem SamplesOf.cut_last (h : SamplesOf env lt neg boundaries lastBoundary indices)
    (hfixed : lt.members.fixedLength ≤ n) (hrest : lt.members.fixedLength < n → RestInhabited)
    (hend : endOf boundaries (n - 1) = none) (hpos : 0 < n)
    (hfit : n ≤ intMaxValue + 1 ∨ lastBoundary + (max neg.length 1 : Nat) ≤ intMaxValue + 1) {k : Nat}
    (hk : k ≤ max neg.length 1) :
    Cut lt boundaries indices n k RestInhabited (intMaxValue + 1) where
  inhabited x hx _ _ := by
    refine hrest ?_
    by_cases hzero : 0 < lt.members.fixedLength
    · have := endOf_eq_none_iff.mp hend _ (h.pos.fixedLength hzero)
      omega
    · omega
  required x hx _ := by
    have := h.le_int hx
    omega
  enough x hx hxn := by
    cases hendx : endOf boundaries x with
    | none =>
      by_cases hall : n ≤ lastBoundary + (max neg.length 1 : Nat) ∧ n ≤ intMaxValue + 1
      · refine .inl fun y hy hyn hendy => ⟨?_, by omega⟩
        rw [h.mem_iff, hendy]
        exact ⟨hy, h.last_le hy hendy, by omega, by omega⟩
      · refine .inr ⟨lastBoundary, fun y hy hyn => ?_⟩
        have hnonneg := h.nonneg
        have hendy : endOf boundaries y = none := endOf_eq_none_iff.mpr fun b hb => by
          have := h.last b hb
          omega
        refine ⟨?_, by omega, hendy⟩
        rw [h.mem_iff, hendy]
        exact ⟨by omega, hy, by omega, by omega⟩
    | some b =>
      have hblast := h.last b (mem_of_endOf hendx)
      have hint := h.int
      rcases h.part b with hall | hlast
      · refine .inl fun y hy _ hendy => ⟨hall y hy hendy, ?_⟩
        have := lt_of_endOf hendy
        omega
      · refine .inr ⟨b - (max neg.length 1 : Nat), fun y hy hyb => ?_⟩
        obtain ⟨hmem, hendy⟩ := hlast y hy (by omega)
        exact ⟨hmem, by omega, hendy⟩

omit [BddIdentity] in
/-- The cut of a list that ends in a part with an end `e`: the samples of that part and the
parts before, less the last one if a negative is to be longer. -/
theorem SamplesOf.cut_part (h : SamplesOf env lt neg boundaries lastBoundary indices)
    (hfixed : lt.members.fixedLength ≤ n) (hrest : lt.members.fixedLength < n → RestInhabited) {e : Int}
    (hend : endOf boundaries (n - 1) = some e) (hpos : 0 < n) {k : Nat}
    (hc : (c = e ∧ k ≤ max neg.length 1) ∨ (c = e - 1 ∧ n < e ∧ k + 1 ≤ max neg.length 1)) :
    Cut lt boundaries indices n k RestInhabited c where
  inhabited x hx hxc hge := by
    refine hrest ?_
    obtain ⟨-, -, hmin⟩ := (endOf_eq_some_iff h.sorted_boundaries).mp hend
    by_cases hzero : 0 < lt.members.fixedLength
    · have := hmin _ (h.pos.fixedLength hzero)
      omega
    · omega
  required x hx hlt := by
    have := lt_of_endOf hend
    omega
  enough x hx hxn := by
    -- the part of `x` is not after that of the last index
    have hendx : ∃ b, endOf boundaries x = some b ∧ b ≤ e := by
      obtain ⟨hmem, hlt, -⟩ := (endOf_eq_some_iff h.sorted_boundaries).mp hend
      cases hendx : endOf boundaries x with
      | none =>
        have := endOf_eq_none_iff.mp hendx e hmem
        omega
      | some b =>
        exact ⟨b, rfl, ((endOf_eq_some_iff h.sorted_boundaries).mp hendx).2.2 e hmem (by omega)⟩
    obtain ⟨b, hendx, hbe⟩ := hendx
    rw [hendx]
    rcases h.part b with hall | hlast
    · refine .inl fun y hy hyn hendy => ⟨hall y hy hendy, ?_⟩
      have := lt_of_endOf hendy
      omega
    · refine .inr ⟨b - (max neg.length 1 : Nat), fun y hy hyb => ?_⟩
      obtain ⟨hmem, hendy⟩ := hlast y hy (by omega)
      exact ⟨hmem, by omega, hendy⟩

omit [BddIdentity] in
/-- Each list has a cut; if some negative is longer than the list, so that it needs no member,
then also the cut is before the last fixed member of the negative. -/
theorem SamplesOf.exists_cut (h : SamplesOf env lt neg boundaries lastBoundary indices) (hn : 0 ≤ n)
    (hfixed : lt.members.fixedLength ≤ n) (hrest : lt.members.fixedLength < n → RestInhabited)
    (hfit : n ≤ intMaxValue + 1 ∨ lastBoundary + (max neg.length 1 : Nat) ≤ intMaxValue + 1) {k : Nat}
    {short : Prop} (hk : k ≤ max neg.length 1) (hshort : short → k + 1 ≤ max neg.length 1) :
    ∃ c, Cut lt boundaries indices n k RestInhabited c ∧
      ∀ b ∈ boundaries, n < b → short → c < b := by
  by_cases hzero : n = 0
  · subst hzero
    refine ⟨0, ⟨fun x hx hx0 _ => ?_, fun x hx hlt => ?_, fun x hx hx0 => ?_⟩, fun b _ hb _ => hb⟩
    · exact absurd (h.nonneg_of_mem x hx) (by omega)
    · omega
    · omega
  · cases hend : endOf boundaries (n - 1) with
    | none =>
      refine ⟨_, h.cut_last hfixed hrest hend (by omega) hfit hk, fun b hb hlt _ => ?_⟩
      have := endOf_eq_none_iff.mp hend b hb
      omega
    | some e =>
      obtain ⟨-, hlt, hmin⟩ := (endOf_eq_some_iff h.sorted_boundaries).mp hend
      by_cases hs : short ∧ n < e
      · refine ⟨e - 1, h.cut_part hfixed hrest hend (by omega) (.inr ⟨rfl, hs.2, hshort hs.1⟩),
          fun b hb hnb _ => ?_⟩
        have := hmin b hb (by omega)
        omega
      · refine ⟨e, h.cut_part hfixed hrest hend (by omega) (.inl ⟨rfl, hk⟩),
          fun b hb hnb hsh => ?_⟩
        have hne : ¬ n < e := fun hne => hs ⟨hsh, hne⟩
        omega

/-- What is used of the samples below: they increase, and where types change there is a boundary. -/
structure Aligned (env : Env) (lt : ListAtomicType) (neg : List Atom) (boundaries indices : List Int) :
    Prop where
  sorted : indices.Pairwise (· < ·)
  nonneg : ∀ x ∈ indices, 0 ≤ x
  sorted_boundaries : boundaries.Pairwise (· < ·)
  pos : lt.members.CutBy boundaries
  neg : ∀ atom ∈ neg, ∀ nt, env.listAtomType atom = some nt → nt.members.CutBy boundaries

omit [BddIdentity] in
theorem SamplesOf.aligned (h : SamplesOf env lt neg boundaries lastBoundary indices) :
    Aligned env lt neg boundaries indices :=
  ⟨h.sorted, h.nonneg_of_mem, h.sorted_boundaries, h.pos, h.neg⟩

/-- The members of the list in `D` are enough to keep it out of the negatives that are not longer. -/
def MembersMatter (den : SemType → Set V) (env : Env) (neg : List Atom) (l : List V)
    (D : Finset Int) : Prop :=
  ∀ atom ∈ neg, ∃ nt, env.listAtomType atom = some nt ∧
    ((l.length : Int) < nt.members.fixedLength ∨ ∃ (i : Nat) (v : V) (t : SemType),
      (i : Int) ∈ D ∧ l[i]? = some v ∧ listMemberAt nt.members nt.rest i = some t ∧ v ∉ den t)

omit [BddIdentity] in
/-- Where the members in `D` go to different samples of the same parts by `φ`, all of them below `c`,
there is a sampled list that has them there and avoids the negatives. -/
theorem exists_sampled_of_cut (halign : Aligned env lt neg boundaries indices) (hover : lt.Over Atomic)
    (htypes : SampleTypes den Cell lt indices memberTypes nRequired)
    (hstop : ∀ (x : Int) (u : SemType), indices[memberTypes.length]? = some x →
      listMemberAt lt.members lt.rest x = some u → den u = ∅) {l : List V} (hl : lt.Contains den l)
    {D : Finset Int} (hD : ∀ x ∈ D, 0 ≤ x ∧ x < l.length) (hmembers : MembersMatter den env neg l D)
    (hnonempty : ∀ x ∈ indices, x < c → ∀ u, listMemberAt lt.members lt.rest x = some u →
      (den u).Nonempty) (hrequired : ∀ x ∈ indices, x < lt.members.fixedLength → x < c)
    (hlonger : ∀ atom ∈ neg, ∀ nt, env.listAtomType atom = some nt →
      (l.length : Int) < nt.members.fixedLength → ∃ x ∈ indices, c ≤ x ∧ x < nt.members.fixedLength)
    {φ : Int → Int} (hinj : Set.InjOn φ D)
    (hφ : ∀ x ∈ D, φ x ∈ indices ∧ φ x < c ∧ endOf boundaries (φ x) = endOf boundaries x) :
    ∃ w, Sampled den memberTypes nRequired w ∧
      (∀ atom ∈ neg, ∃ nt, env.listAtomType atom = some nt ∧ Avoids den indices w nt) ∧
      ∀ i q : Nat, (i : Int) ∈ D → indices[q]? = some (φ i) → w[q]? = l[i]? := by
  obtain ⟨m, hm, hmcut⟩ := Lib.exists_cut halign.sorted c
  have hmlen : m ≤ memberTypes.length := by
    by_contra hlt
    have hlen : memberTypes.length < indices.length := by omega
    have hidx : indices[memberTypes.length]? = some indices[memberTypes.length] :=
      List.getElem?_eq_getElem hlen
    have hmem := List.mem_of_getElem? hidx
    obtain ⟨u, hu, -⟩ := hover.memberAt (halign.nonneg _ hmem)
    have hu' := hnonempty _ hmem ((hmcut _ _ hidx).mpr (by omega)) u hu
    rw [hstop _ u hidx hu] at hu'
    exact Set.not_nonempty_empty hu'
  have hmember : ∀ q : Nat, q < m → ∃ v : V, ∀ x : Int, indices[q]? = some x →
      (∀ u, listMemberAt lt.members lt.rest x = some u → v ∈ den u) ∧
      ∀ (i : Nat) (v' : V), (i : Int) ∈ D → φ i = x → l[i]? = some v' → v = v' := by
    intro q hq
    have hidx : indices[q]? = some indices[q] := List.getElem?_eq_getElem (by omega)
    have hmem := List.mem_of_getElem? hidx
    by_cases hex : ∃ d ∈ D, φ d = indices[q]
    · -- the member that goes to this sample
      obtain ⟨d, hd, hdx⟩ := hex
      obtain ⟨i, rfl⟩ := Int.eq_ofNat_of_zero_le (hD d hd).1
      have hi : i < l.length := by
        have := (hD _ hd).2
        omega
      have hv : l[i]? = some l[i] := List.getElem?_eq_getElem hi
      refine ⟨l[i], fun x hx => ?_⟩
      rw [hidx] at hx
      cases hx
      refine ⟨fun u hu => ?_, fun i' v' hi' hφi' hv' => ?_⟩
      · have hend := (hφ _ hd).2.2
        rw [hdx] at hend
        refine hl.2 i _ u hv ?_
        rw [← hu]
        exact (listMemberAt_congr halign.sorted_boundaries halign.pos lt.rest
          (halign.nonneg _ hmem) (Int.natCast_nonneg i) hend).symm
      · have hii : (i' : Int) = i := hinj hi' hd (hφi'.trans hdx.symm)
        rw [Int.ofNat_inj.mp hii, hv] at hv'
        cases hv'
        rfl
    · obtain ⟨u, hu, -⟩ := hover.memberAt (halign.nonneg _ hmem)
      obtain ⟨v, hv⟩ := hnonempty _ hmem ((hmcut _ _ hidx).mpr hq) u hu
      refine ⟨v, fun x hx => ?_⟩
      rw [hidx] at hx
      cases hx
      refine ⟨fun u' hu' => ?_, fun i v' hi hφi => absurd ⟨_, hi, hφi⟩ hex⟩
      rw [hu] at hu'
      cases hu'
      exact hv
  obtain ⟨w, hwlen, hw⟩ := exists_list_of_forall m hmember
  -- a member of `D` is found at its sample
  have hfound : ∀ i q : Nat, (i : Int) ∈ D → indices[q]? = some (φ i) → w[q]? = l[i]? := by
    intro i q hi hq
    have hqm := (hmcut q _ hq).mp (hφ _ hi).2.1
    have hlt : i < l.length := by
      have := (hD _ hi).2
      omega
    have hwq : w[q]? = some w[q] := List.getElem?_eq_getElem (by omega)
    have hv : l[i]? = some l[i] := List.getElem?_eq_getElem hlt
    rw [hwq, hv, (hw q _ hwq _ hq).2 i _ hi rfl hv]
  refine ⟨w, ⟨?_, by omega, fun q v t hv ht => ?_⟩, fun atom hatom => ?_, hfound⟩
  · -- the required samples are below the cut
    rw [hwlen]
    by_contra hlt
    have hreq := htypes.required
    have hlen := htypes.length
    have hidx : indices[nRequired - 1]? = some indices[nRequired - 1] :=
      List.getElem?_eq_getElem (by omega)
    have hbefore := (htypes.before _ _ hidx (by omega)).mpr (by omega)
    have := (hmcut _ _ hidx).mp (hrequired _ (List.mem_of_getElem? hidx) hbefore)
    omega
  · have hq := (List.getElem?_eq_some_iff.mp hv).1
    have hidx : indices[q]? = some indices[q] := List.getElem?_eq_getElem (by omega)
    obtain ⟨u, hu, -⟩ := hover.memberAt (halign.nonneg _ (List.mem_of_getElem? hidx))
    rw [htypes.types q t _ u ht hidx hu]
    exact (hw q v hv _ hidx).1 u hu
  · obtain ⟨nt, hnt, hcase⟩ := hmembers atom hatom
    refine ⟨nt, hnt, ?_⟩
    have hntcut := halign.neg atom hatom nt hnt
    rcases hcase with hlt | ⟨i, v, t, hi, hv, ht, hvt⟩
    · -- some sample after the cut is before the fixed length of the negative
      obtain ⟨x, hx, hcx, hxlt⟩ := hlonger atom hatom nt hnt hlt
      obtain ⟨q, hq⟩ := List.mem_iff_getElem?.mp hx
      have hmq : ¬ q < m := fun h => absurd ((hmcut q _ hq).mpr h) (by omega)
      have hqlen := (List.getElem?_eq_some_iff.mp hq).1
      have hidx : indices[w.length]? = some indices[w.length] := List.getElem?_eq_getElem (by omega)
      have := le_of_getElem?_le halign.sorted hidx hq (by omega)
      exact .inl ⟨_, hidx, by omega⟩
    · obtain ⟨hmem, hlt, hend⟩ := hφ _ hi
      obtain ⟨q, hq⟩ := List.mem_iff_getElem?.mp hmem
      have hwq := hfound i q hi hq
      rw [hv] at hwq
      refine .inr ⟨q, v, _, t, hwq, hq, ?_, hvt⟩
      rw [← ht]
      exact listMemberAt_congr halign.sorted_boundaries hntcut nt.rest
        (halign.nonneg _ hmem) (Int.natCast_nonneg i) hend

omit [BddIdentity] in
/-- The members of a list that are past the fixed length are in the rest type. -/
theorem rest_nonempty (hvalid : lt.members.Valid) {l : List V} (hl : lt.Contains den l)
    (hlt : lt.members.fixedLength < l.length) : (den lt.rest).Nonempty := by
  have hnonneg := hvalid.nonneg
  have hlast : l.length - 1 < l.length := by omega
  have hv : l[l.length - 1]? = some l[l.length - 1] := List.getElem?_eq_getElem hlast
  refine ⟨_, hl.2 _ _ lt.rest hv ?_⟩
  unfold listMemberAt
  rw [if_neg (by omega)]

omit [BddIdentity] in
/-- Each part has at least as many samples below the cut as members in `D`. -/
theorem Cut.card_le {D : Finset Int} (hcut : Cut lt boundaries indices n D.card RestInhabited c)
    (hD : ∀ x ∈ D, 0 ≤ x ∧ x < n) (hx : 0 ≤ x ∧ x < n) :
    (D.filter (endOf boundaries · = endOf boundaries x)).card ≤
      ((indices.toFinset.filter (· < c)).filter (endOf boundaries · = endOf boundaries x)).card := by
  rcases hcut.enough x hx.1 hx.2 with hall | ⟨s, hs⟩
  · refine Finset.card_le_card fun y hy => ?_
    obtain ⟨hyD, hend⟩ := Finset.mem_filter.mp hy
    obtain ⟨hmem, hlt⟩ := hall y (hD y hyD).1 (hD y hyD).2 hend
    exact Finset.mem_filter.mpr ⟨Finset.mem_filter.mpr ⟨List.mem_toFinset.mpr hmem, hlt⟩, hend⟩
  · have hsub : Finset.Ico s (s + D.card) ⊆
        (indices.toFinset.filter (· < c)).filter (endOf boundaries · = endOf boundaries x) := by
      intro y hy
      rw [Finset.mem_Ico] at hy
      obtain ⟨hmem, hlt, hend⟩ := hs y hy.1 hy.2
      exact Finset.mem_filter.mpr ⟨Finset.mem_filter.mpr ⟨List.mem_toFinset.mpr hmem, hlt⟩, hend⟩
    have hle := Finset.card_le_card hsub
    rw [Int.card_Ico] at hle
    have := Finset.card_filter_le D (endOf boundaries · = endOf boundaries x)
    omega

omit [BddIdentity] in
/-- A list that avoids the negatives has a sampled list that does so, too. -/
theorem exists_sampled_of_list (hsamples : SamplesOf env lt neg boundaries lastBoundary indices)
    (hover : lt.Over Atomic) (hne : ∀ t ∈ lt.members.initial, (den t).Nonempty)
    (htypes : SampleTypes den Cell lt indices memberTypes nRequired)
    (hstop : ∀ (x : Int) (u : SemType), indices[memberTypes.length]? = some x →
      listMemberAt lt.members lt.rest x = some u → den u = ∅)
    (hneg : env.ListsOver Atomic neg) {l : List V}
    (hfit : (l.length : Int) ≤ intMaxValue + 1 ∨
      lastBoundary + (max neg.length 1 : Nat) ≤ intMaxValue + 1)
    (hl : lt.Contains den l) (havoid : ∀ atom ∈ neg, ¬ env.ListContains den l atom) :
    SampleAvoidable den env indices neg memberTypes nRequired := by
  obtain ⟨D, hD, hcard, hshort, hmembers⟩ := exists_members neg hneg havoid
  obtain ⟨c, hcut, hlonger⟩ := hsamples.exists_cut (Int.natCast_nonneg l.length) hl.1
    (rest_nonempty hover.valid hl) hfit (Nat.le_trans hcard (Nat.le_max_left _ 1)) fun h =>
      Nat.le_trans (hshort h) (Nat.le_max_left _ 1)
  -- the members that matter go to different samples of the same parts
  obtain ⟨φ, hinj, hφ⟩ := exists_injOn_of_fibers (endOf boundaries) D
    (indices.toFinset.filter (· < c)) fun x hx => hcut.card_le hD (hD x hx)
  have hnonempty : ∀ x ∈ indices, x < c → ∀ u, listMemberAt lt.members lt.rest x = some u →
      (den u).Nonempty := by
    intro x hx hxc u hu
    obtain ⟨t, ht, hcase⟩ := exists_listMemberAt hover.valid lt.rest (hsamples.nonneg_of_mem x hx)
    rw [hu] at ht
    cases ht
    rcases hcase with ⟨-, hmem⟩ | ⟨hge, rfl⟩
    · exact hne u hmem
    · exact hcut.inhabited x hx hxc hge
  have hafter : ∀ atom ∈ neg, ∀ nt, env.listAtomType atom = some nt →
      (l.length : Int) < nt.members.fixedLength →
      ∃ x ∈ indices, c ≤ x ∧ x < nt.members.fixedLength := by
    intro atom hatom nt hnt hlt
    -- the last fixed member of the negative is a sample after the cut
    have hb := (hsamples.neg atom hatom nt hnt).fixedLength (by omega)
    have hcb := hlonger _ hb hlt ⟨atom, hatom, nt, hnt, hlt⟩
    exact ⟨_, hsamples.pred_mem hb (by omega), by omega, by omega⟩
  have hsample : ∀ x ∈ D, φ x ∈ indices ∧ φ x < c ∧ endOf boundaries (φ x) = endOf boundaries x := by
    intro x hx
    obtain ⟨hsample, hend⟩ := hφ x hx
    obtain ⟨hmem, hlt⟩ := Finset.mem_filter.mp hsample
    exact ⟨List.mem_toFinset.mp hmem, hlt, hend⟩
  obtain ⟨w, hw, hwavoid, -⟩ := exists_sampled_of_cut hsamples.aligned hover htypes hstop hl hD
    hmembers hnonempty hcut.required hafter hinj hsample
  exact ⟨w, hw, hwavoid⟩

end Samples

/-! ## The answer -/

/-- What `listFormulaIsEmpty` does after it has combined the positive atoms: the samples, their
types, and the search. -/
def listSampledInhabited (env : Env) (members : FixedLengthArray) (rest : SemType)
    (neg : List Atom) : EmptyM Bool := do
  let indices ← cast (listSamples env members neg)
  let (memberTypes, nRequired) ← listSampleTypes members rest indices
  listInhabited env indices neg memberTypes nRequired

/-- A list in the positive type and in no negative. -/
def ListInhabited (den : SemType → Set V) (env : Env) (lt : ListAtomicType) (neg : List Atom)
    (l : List V) : Prop :=
  lt.Contains den l ∧ ∀ atom ∈ neg, ¬ env.ListContains den l atom

/-- The lengths leave room for one sample for each negative after them. -/
def RoomForSamples (env : Env) (lt : ListAtomicType) (neg : List Atom) : Prop :=
  lt.members.fixedLength + (max neg.length 1 : Nat) ≤ intMaxValue + 1 ∧
    LengthsLe env neg (intMaxValue + 1 - (max neg.length 1 : Nat))

theorem listSampledInhabited_ensures (hx : ExactItems den R Cell Atomic) {env : Env}
    (hpos : lt.Over Atomic) (hne : ∀ t ∈ lt.members.initial, (den t).Nonempty) {neg : List Atom}
    (hneg : env.ListsOver Atomic neg) :
    (listSampledInhabited env lt.members lt.rest neg).Ensures R Cell (EmptyRight den) fun r =>
      (r = true ↔ ∃ l : List V, (l.length : Int) ≤ intMaxValue + 1 ∧ ListInhabited den env lt neg l) ∧
      (RoomForSamples env lt neg → (r = true ↔ ∃ l : List V, ListInhabited den env lt neg l)) := by
  obtain ⟨boundaries, lastBoundary, indices, hindices, -, hsampling, hcut, hnegcut, hbound⟩ :=
    listSamples_spec hpos.valid fun atom hatom => by
      obtain ⟨nt, hnt, hover⟩ := hneg atom hatom
      exact ⟨nt, hnt, hover.valid⟩
  have hsamples : SamplesOf env lt neg boundaries lastBoundary indices :=
    ⟨hsampling, hcut, hnegcut⟩
  refine Prog.Ensures.ofOption hindices ?_
  have hstart : SampleTypes den Cell lt indices [] 0 :=
    ⟨⟨by simp, by simp, Nat.le_refl 0, Nat.zero_le _⟩, by simp, by simp⟩
  refine (listSampleTypesLoop_ensures hx.containing (fun h => h) (fun _ h => h) hpos hsamples.sorted
    hsamples.nonneg_of_mem indices [] 0 rfl hstart).bind fun r hr => ?_
  obtain ⟨memberTypes, nRequired⟩ := r
  obtain ⟨htypes, hstop⟩ := hr
  refine (listInhabited_ensures hx hsamples.sorted hsamples.nonneg_of_mem neg memberTypes nRequired
    hneg htypes.toSearchable).imp fun r hr => ?_
  have hlist := exists_list_of_sampled hsamples hpos hne htypes hstop
  have hsampled : ∀ l : List V, _ → ListInhabited den env lt neg l → _ := fun l hfit hl =>
    exists_sampled_of_list hsamples hpos hne htypes hstop hneg hfit hl.1 hl.2
  rw [hr]
  refine ⟨⟨fun h => ?_, fun ⟨l, hlen, hl⟩ => hsampled l (.inl hlen) hl⟩, fun hroom =>
    ⟨fun h => ?_, fun ⟨l, hl⟩ => hsampled l (.inr ?_) hl⟩⟩
  · obtain ⟨l, hlen, hl⟩ := hlist h
    exact ⟨l, hlen, hl⟩
  · obtain ⟨l, -, hl⟩ := hlist h
    exact ⟨l, hl⟩
  · have := hbound _ (by have := hroom.1; omega) hroom.2
    omega

/-- Searching only the samples never changes the answer, whatever state the environment and the
memo tables are in: if the operations on the types of members are exact (`hx`), interning gives
an atom for the cell (`hintern`) and `isEmpty` answers rightly (`hcall`), then the search
returns, and returns `true` exactly when some list whose indices are `int`s belongs to the
positive type and to no negative. Where there is room for the samples, that is so exactly when
there is any such list. -/
theorem listInhabited_exact {S : Type} (hx : ExactItems den R Cell Atomic)
    {intern : CellAtomicType → S → TypeAtom × S} {memo : BddIsEmpty → S → Outcome S Bool}
    {call : SemType → S → Outcome S Bool} (hintern : ∀ c s, R c (intern c s).1)
    (hcall : ∀ t s, Cell t → ∃ b s', call t s = .done b s' ∧ EmptyRight den t b) {env : Env}
    {lt : ListAtomicType} (hpos : lt.Over Atomic) (hne : ∀ t ∈ lt.members.initial, (den t).Nonempty)
    {neg : List Atom} (hneg : env.ListsOver Atomic neg) (s : S) :
    ∃ r s', (listSampledInhabited env lt.members lt.rest neg).exec intern memo call s = .done r s' ∧
      (r = true ↔ ∃ l : List V, (l.length : Int) ≤ intMaxValue + 1 ∧ ListInhabited den env lt neg l) ∧
      (RoomForSamples env lt neg → (r = true ↔ ∃ l : List V, ListInhabited den env lt neg l)) :=
  (listSampledInhabited_ensures hx hpos hne hneg).exec hintern hcall s

end Search

/-- `(int|string)[]` without `int[]` and `string[]`. -/
theorem listInhabited_exact_arrays :
    let _ := BddIdentity.shared
    let T := bitCells VAL
    let env := Env.init
    let INT := basicType BT_INT
    let lt : ListAtomicType := ⟨⟨[], 0⟩, bitCell VAL (INT ||| STRING) .limited⟩
    let neg := [Atom.typeAtom 12 (.list [] 0 (bitCell VAL INT .limited)),
      Atom.typeAtom 13 (.list [] 0 (bitCell VAL STRING .limited))]
    ∃ r s', (listSampledInhabited env lt.members lt.rest neg).exec
        T.intern (fun _ _ => .panic) T.isEmpty () = .done r s' ∧
      (r = true ↔ ∃ l : List (BitMember VAL), (l.length : Int) ≤ intMaxValue + 1 ∧
        ListInhabited T.den env lt neg l) ∧
      (RoomForSamples env lt neg →
        (r = true ↔ ∃ l : List (BitMember VAL), ListInhabited T.den env lt neg l)) := by
  intro _ T env INT lt neg
  have hover : ∀ b, b ≠ UNDEF → (⟨⟨[], 0⟩, bitCell VAL b .limited⟩ : ListAtomicType).Over T.Single :=
    fun b hb => ⟨⟨iff_of_true rfl rfl, Int.le_refl 0, by show (0 : Int) ≤ intMaxValue; decide⟩,
      fun t ht => absurd ht List.not_mem_nil, single_bitCell VAL (by decide) fun h => absurd h hb⟩
  refine listInhabited_exact (T.exactItems bitCells_defined) T.names_intern
    (fun t s _ => T.emptyRight_isEmpty t s) (hover _ (by decide))
    (fun t ht => absurd ht List.not_mem_nil) (fun atom hatom => ?_) ()
  rcases List.mem_cons.mp hatom with rfl | hatom
  · exact ⟨_, rfl, hover INT (by decide)⟩
  · rw [List.mem_singleton] at hatom
    subst hatom
    exact ⟨_, rfl, hover STRING (by decide)⟩

/-! ## Lists longer than the indices -/

theorem listMemberAt_array (t rest : SemType) (n : Int) (i : Nat) :
    listMemberAt ⟨[t], n⟩ rest i = some (if (i : Int) < n then t else rest) := by
  unfold listMemberAt fixedArrayGet
  have hmin : min (i : Int) ((([t] : List SemType).length : Int) - 1) = 0 := by
    rw [List.length_singleton]
    omega
  dsimp only
  rw [hmin]
  split
  next => rfl
  next => rfl

/-- A list of `n` members or more of one type, and of others from there on. -/
theorem contains_array {den : SemType → Set V} {t rest : SemType} {n : Int} {l : List V} :
    (⟨⟨[t], n⟩, rest⟩ : ListAtomicType).Contains den l ↔ n ≤ l.length ∧
      ∀ (i : Nat) (v : V), l[i]? = some v → v ∈ den (if (i : Int) < n then t else rest) := by
  refine and_congr_right fun _ => ⟨fun h i v hv => ?_, fun h i v u hv hu => ?_⟩
  · exact h i v _ hv (listMemberAt_array t rest n i)
  · rw [listMemberAt_array] at hu
    cases hu
    exact h i v hv

/-- The two negatives each give the member at index `int:MAX_VALUE` and all after it another
type, so a list outside both has a member after that: such a list exists, but no sample is
left for it, and the answer is `false`. -/
theorem not_listInhabited_long :
    let _ := BddIdentity.shared
    let T := bitCells VAL
    let env := Env.init
    let INT := basicType BT_INT
    let A := bitCell VAL (INT ||| STRING) .none
    let lt : ListAtomicType := ⟨⟨[A], intMaxValue⟩, A⟩
    let neg := [Atom.typeAtom 12 (.list [A] intMaxValue (bitCell VAL INT .none)),
      Atom.typeAtom 13 (.list [A] intMaxValue (bitCell VAL STRING .none))]
    ExactItems T.den T.Names CellTable.Positive T.Single ∧ lt.Over T.Single ∧
      (∀ t ∈ lt.members.initial, (T.den t).Nonempty) ∧ env.ListsOver T.Single neg ∧
      (listSampledInhabited env lt.members lt.rest neg).exec
        T.intern (fun _ _ => .panic) T.isEmpty () = .done false () ∧
      ∃ l : List (BitMember VAL), ListInhabited T.den env lt neg l := by
  intro _ T env INT A lt neg
  have hx := T.exactItems bitCells_defined
  have hden : ∀ b, b ≠ UNDEF → T.den (bitCell VAL b .none) =
      {v | v.types &&& ~~~b = 0 ∧ (v.isMutable = true → CellMutability.none = .limited)} :=
    fun b hb => den_bitCell VAL (by decide) fun h => absurd h hb
  have hsingle : ∀ b, T.Single (bitCell VAL b .none) := fun b =>
    single_bitCell VAL (by decide) fun _ => rfl
  have hover : ∀ b, (⟨⟨[A], intMaxValue⟩, bitCell VAL b .none⟩ : ListAtomicType).Over T.Single :=
    fun b => ⟨⟨by simp [intMaxValue], by simp [intMaxValue], Int.le_refl _⟩, fun t ht => by
      rw [List.mem_singleton.mp ht]
      exact hsingle _, hsingle b⟩
  have hneg : env.ListsOver T.Single neg := by
    intro atom hatom
    rcases List.mem_cons.mp hatom with rfl | hatom
    · exact ⟨_, rfl, hover INT⟩
    · rw [List.mem_singleton] at hatom
      subst hatom
      exact ⟨_, rfl, hover STRING⟩
  let int : BitMember VAL := ⟨false, INT, by decide, by decide, fun _ => ⟨BT_INT, rfl⟩, by decide⟩
  let string : BitMember VAL :=
    ⟨false, STRING, by decide, by decide, fun _ => ⟨BT_STRING, rfl⟩, by decide⟩
  have hint : int ∈ T.den A := by
    rw [hden _ (by decide)]
    exact ⟨by decide, fun h => by cases h⟩
  have hstring : string ∈ T.den A := by
    rw [hden _ (by decide)]
    exact ⟨by decide, fun h => by cases h⟩
  have hne : ∀ t ∈ lt.members.initial, (T.den t).Nonempty := fun t ht => by
    rw [List.mem_singleton.mp ht]
    exact ⟨int, hint⟩
  have hA : ∀ v ∈ T.den A, v ∈ T.den (bitCell VAL INT .none) ∨
      v ∈ T.den (bitCell VAL STRING .none) := by
    intro v hv
    rw [hden _ (by decide)] at hv
    obtain ⟨htypes, hmut⟩ := hv
    have himm : v.isMutable = false := by
      cases h : v.isMutable with
      | false => rfl
      | true => cases hmut h
    obtain ⟨code, hcode⟩ := v.single himm
    have hcodes : ∀ code : BasicTypeCode, basicType code &&& ~~~(INT ||| STRING) = 0 →
        basicType code &&& ~~~INT = 0 ∨ basicType code &&& ~~~STRING = 0 := by decide
    rw [hden _ (by decide), hden _ (by decide)]
    rw [hcode] at htypes
    exact (hcodes code htypes).imp (fun h => ⟨hcode ▸ h, hmut⟩) fun h => ⟨hcode ▸ h, hmut⟩
  refine ⟨hx, hover _, hne, hneg, ?_, ?_⟩
  · obtain ⟨r, s', hexec, hr, -⟩ := (listSampledInhabited_ensures hx (hover (INT ||| STRING)) hne
      hneg).exec T.names_intern (fun t s _ => T.emptyRight_isEmpty t s) ()
    have hfalse : ¬ r = true := by
      intro htrue
      obtain ⟨l, hlen, hl, havoid⟩ := hr.mp htrue
      obtain ⟨hge, hmem⟩ := contains_array.mp hl
      -- at most one member is after the fixed ones, and one of the negatives allows it
      have hrest : ∀ b, (∀ (i : Nat) (v : BitMember VAL), l[i]? = some v → ¬ (i : Int) < intMaxValue →
          v ∈ T.den (bitCell VAL b .none)) →
          (⟨⟨[A], intMaxValue⟩, bitCell VAL b .none⟩ : ListAtomicType).Contains T.den l := by
        intro b hb
        refine contains_array.mpr ⟨hge, fun i v hv => ?_⟩
        have := hmem i v hv
        split
        next hlt =>
          rw [if_pos hlt] at this
          exact this
        next hlt => exact hb i v hv hlt
      have hlast : ∀ (i : Nat) (v : BitMember VAL), l[i]? = some v → ¬ (i : Int) < intMaxValue →
          i = intMaxValue.toNat := by
        intro i v hv hlt
        have := (List.getElem?_eq_some_iff.mp hv).1
        omega
      have hnot1 := havoid _ (.head _)
      have hnot2 := havoid _ (.tail _ (.head _))
      cases hv : l[intMaxValue.toNat]? with
      | none =>
        refine hnot1 ⟨_, rfl, hrest INT fun i v hi hlt => ?_⟩
        rw [hlast i v hi hlt, hv] at hi
        cases hi
      | some v =>
        have hvA := hmem _ v hv
        rw [if_neg (by decide)] at hvA
        rcases hA v hvA with hvb | hvb
        · refine hnot1 ⟨_, rfl, hrest INT fun i v' hi hlt => ?_⟩
          rw [hlast i v' hi hlt, hv] at hi
          cases hi
          exact hvb
        · refine hnot2 ⟨_, rfl, hrest STRING fun i v' hi hlt => ?_⟩
          rw [hlast i v' hi hlt, hv] at hi
          cases hi
          exact hvb
    rw [Bool.not_eq_true] at hfalse
    subst hfalse
    exact hexec
  · obtain ⟨l, hlen, hl⟩ := exists_list_of_forall (intMaxValue.toNat + 2)
      (fun i _ => ⟨if i = intMaxValue.toNat then string else int, rfl⟩)
    have hget : ∀ i, i < intMaxValue.toNat + 2 →
        l[i]? = some (if i = intMaxValue.toNat then string else int) := by
      intro i hi
      have hi' : l[i]? = some l[i] := List.getElem?_eq_getElem (by omega)
      rw [hi', hl i _ hi']
    have hlt1 : intMaxValue.toNat < intMaxValue.toNat + 2 := by omega
    have hlt2 : intMaxValue.toNat + 1 < intMaxValue.toNat + 2 := by omega
    refine ⟨l, contains_array.mpr ⟨by omega, fun i v hv => ?_⟩, fun atom hatom => ?_⟩
    · rw [ite_self, ← hl i v hv]
      split
      next => exact hstring
      next => exact hint
    · rcases List.mem_cons.mp hatom with rfl | hatom
      · intro ⟨nt, hnt, hcontains⟩
        cases hnt
        have hmem := (contains_array.mp hcontains).2 _ _ (hget _ hlt1)
        rw [if_pos rfl, if_neg (by decide), hden _ (by decide)] at hmem
        exact absurd hmem.1 (by decide)
      · rw [List.mem_singleton] at hatom
        subst hatom
        intro ⟨nt, hnt, hcontains⟩
        cases hnt
        have hmem := (contains_array.mp hcontains).2 _ _ (hget _ hlt2)
        rw [if_neg (by decide), if_neg (by decide), hden _ (by decide)] at hmem
        exact absurd hmem.1 (by decide)

end Nballerina.Types
