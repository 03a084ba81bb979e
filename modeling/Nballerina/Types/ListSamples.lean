import Nballerina.Types.Emptiness
import Nballerina.Lib.Partition

/-!
# The sample indices of list types

What `listSamples` returns: the lengths of the atoms cut the indices into parts in which
every atom has one type (`listMemberAt_congr`), and of each part the last `nNeg` indices are
taken, of the open part at the end the first `nNeg` (`Sampling.mem_iff`).
-/

namespace Nballerina.Types

open Nballerina.Lib

/-! ## The parts -/

/-- What the comment on `FixedLengthArray` asks for; the length is an `int`. -/
structure FixedLengthArray.Valid (m : FixedLengthArray) : Prop where
  empty : m.fixedLength = 0 ↔ m.initial = []
  length : (m.initial.length : Int) ≤ m.fixedLength
  int : m.fixedLength ≤ intMaxValue

variable {m : FixedLengthArray}

theorem FixedLengthArray.Valid.nonneg (h : m.Valid) : 0 ≤ m.fixedLength := by
  have := h.length
  omega

/-- The places where the types of the members change are boundaries. -/
structure FixedLengthArray.CutBy (m : FixedLengthArray) (boundaries : List Int) : Prop where
  initial : ∀ i : Nat, 1 ≤ i → i ≤ m.initial.length → (i : Int) ∈ boundaries
  fixedLength : 0 < m.fixedLength → m.fixedLength ∈ boundaries

/-- Indices in one part have the same type. -/
theorem listMemberAt_congr {boundaries : List Int} (hsorted : boundaries.Pairwise (· < ·))
    (hcut : m.CutBy boundaries) (rest : SemType) {x y : Int} (hx : 0 ≤ x) (hy : 0 ≤ y)
    (h : endOf boundaries x = endOf boundaries y) :
    listMemberAt m rest x = listMemberAt m rest y := by
  have hfixed : x < m.fixedLength ↔ y < m.fixedLength := by
    by_cases hpos : 0 < m.fixedLength
    · exact lt_iff_of_endOf_eq hsorted h (hcut.fixedLength hpos)
    · omega
  have hinitial : ∀ i : Nat, 1 ≤ i → i ≤ m.initial.length → (x < i ↔ y < i) := fun i h1 h2 =>
    lt_iff_of_endOf_eq hsorted h (hcut.initial i h1 h2)
  have hmin : min x ((m.initial.length : Int) - 1) = min y ((m.initial.length : Int) - 1) := by
    by_cases hk : m.initial.length = 0
    · omega
    · have hlast := hinitial m.initial.length (by omega) (Nat.le_refl _)
      by_cases hlt : x < m.initial.length
      · -- both indices are those of single members
        have h1 := hinitial (x.toNat + 1) (by omega) (by omega)
        have h2 := hinitial (y.toNat + 1) (by omega) (by omega)
        omega
      · omega
  unfold listMemberAt fixedArrayGet
  dsimp only
  rw [hmin]
  split
  next hlt => rw [if_pos (hfixed.mp hlt)]
  next hlt => rw [if_neg fun hlt' => hlt (hfixed.mpr hlt')]

theorem exists_listMemberAt (h : m.Valid) (rest : SemType) {x : Int} (hx : 0 ≤ x) :
    ∃ t, listMemberAt m rest x = some t ∧
      ((x < m.fixedLength ∧ t ∈ m.initial) ∨ (m.fixedLength ≤ x ∧ t = rest)) := by
  unfold listMemberAt
  split
  next hlt =>
    have hne : m.initial.length ≠ 0 := fun hzero => by
      have := h.empty.mpr (List.length_eq_zero_iff.mp hzero)
      omega
    unfold fixedArrayGet
    dsimp only
    rw [if_pos (by omega), List.getElem?_eq_getElem (by omega)]
    exact ⟨_, rfl, .inl ⟨hlt, List.getElem_mem _⟩⟩
  next hlt => exact ⟨rest, rfl, .inr ⟨by omega, rfl⟩⟩

/-! ## The boundaries -/

/-- A bound of all lengths of the negatives. -/
def LengthsLe (env : Env) (neg : List Atom) (bound : Int) : Prop :=
  ∀ atom ∈ neg, ∀ nt, env.listAtomType atom = some nt → nt.members.fixedLength ≤ bound

theorem sampleLengths_spec {env : Env} :
    ∀ (neg : List Atom) (acc : Nat × List Int), (∀ atom ∈ neg, ∃ nt, env.listAtomType atom = some nt ∧
      nt.members.Valid) → (∀ n ∈ acc.2, 0 ≤ n) →
      ∃ r, sampleLengths env neg acc = some r ∧ acc.1 ≤ r.1 ∧ acc.2 ⊆ r.2 ∧ (∀ n ∈ r.2, 0 ≤ n) ∧
        (∀ bound : Int, acc.1 ≤ bound → (∀ n ∈ acc.2, n ≤ bound) → LengthsLe env neg bound →
          r.1 ≤ bound ∧ ∀ n ∈ r.2, n ≤ bound) ∧
        ∀ atom ∈ neg, ∀ nt, env.listAtomType atom = some nt → nt.members.initial.length ≤ r.1 ∧
          (nt.members.fixedLength ≤ r.1 ∨ nt.members.fixedLength ∈ r.2)
  | [], acc, _, hlengths =>
    ⟨acc, rfl, Nat.le_refl _, fun _ hn => hn, hlengths, fun _ h1 h2 _ => ⟨h1, h2⟩,
      fun _ h => absurd h List.not_mem_nil⟩
  | atom :: neg, (maxInitialLength, fixedLengths), h, hlengths => by
    obtain ⟨nt, hnt, hvalid⟩ := h atom (.head _)
    have hlen := hvalid.length
    have hnonneg := hvalid.nonneg
    dsimp only at hlengths
    let maxInitialLength' := max maxInitialLength nt.members.initial.length
    let fixedLengths' := if nt.members.fixedLength > maxInitialLength' then
      fixedLengths ++ [nt.members.fixedLength] else fixedLengths
    have hsub : fixedLengths ⊆ fixedLengths' := by
      dsimp only [fixedLengths']
      split
      next => exact List.subset_append_left _ _
      next => exact fun _ hn => hn
    have hfrom : ∀ n ∈ fixedLengths', n ∈ fixedLengths ∨ n = nt.members.fixedLength := by
      intro n hn
      dsimp only [fixedLengths'] at hn
      split at hn
      next => exact (List.mem_append.mp hn).imp_right List.mem_singleton.mp
      next => exact .inl hn
    have hself : nt.members.fixedLength ≤ maxInitialLength' ∨
        nt.members.fixedLength ∈ fixedLengths' := by
      by_cases hgt : nt.members.fixedLength > maxInitialLength'
      · refine .inr ?_
        dsimp only [fixedLengths']
        rw [if_pos hgt]
        exact List.mem_append_right _ (.head _)
      · exact .inl (Int.not_lt.mp hgt)
    have hmax : (maxInitialLength : Int) ≤ maxInitialLength' ∧
        (nt.members.initial.length : Int) ≤ maxInitialLength' ∧ ∀ bound : Int,
        maxInitialLength ≤ bound → nt.members.fixedLength ≤ bound →
          (maxInitialLength' : Int) ≤ bound := by
      dsimp only [maxInitialLength']
      refine ⟨by omega, by omega, fun bound h1 h2 => by omega⟩
    obtain ⟨r, hr, hle, hsub', hlengthsr, hbound, hatoms⟩ :=
      sampleLengths_spec neg (maxInitialLength', fixedLengths')
        (fun a ha => h a (.tail _ ha)) fun n hn => (hfrom n hn).elim (hlengths n)
          fun heq => heq ▸ hnonneg
    dsimp only at hle hsub' hbound
    refine ⟨r, ?_, by dsimp only; omega, fun n hn => hsub' (hsub hn), hlengthsr,
      fun bound h1 h2 h3 => ?_, fun a ha nt' hnt' => ?_⟩
    · rw [sampleLengths, hnt]
      exact hr
    · have hfixed := h3 atom List.mem_cons_self nt hnt
      refine hbound bound (hmax.2.2 bound h1 hfixed) (fun n hn => ?_)
        fun a ha => h3 a (.tail _ ha)
      exact (hfrom n hn).elim (h2 n) fun heq => heq ▸ hfixed
    · rcases List.mem_cons.mp ha with rfl | ha
      · rw [hnt] at hnt'
        cases hnt'
        exact ⟨by omega, hself.imp (by omega) fun hmem => hsub' hmem⟩
      · exact hatoms a ha nt' hnt'

theorem addBoundaries_spec : ∀ (fixedLengths boundaries : List Int),
    fixedLengths.Pairwise (· ≤ ·) → boundaries.Pairwise (· < ·) →
    (addBoundaries fixedLengths boundaries).Pairwise (· < ·) ∧
      boundaries ⊆ addBoundaries fixedLengths boundaries ∧
      (∀ n ∈ addBoundaries fixedLengths boundaries, n ∈ boundaries ∨ n ∈ fixedLengths) ∧
      ∀ n ∈ fixedLengths, n ∈ addBoundaries fixedLengths boundaries ∨
        ∃ last, boundaries.getLast? = some last ∧ n ≤ last
  | [], boundaries, _, hb =>
    ⟨hb, fun _ hn => hn, fun _ hn => .inl hn, fun _ hn => absurd hn List.not_mem_nil⟩
  | n :: fixedLengths, boundaries, hf, hb => by
    obtain ⟨hle, hf⟩ := List.pairwise_cons.mp hf
    -- the length is new
    have hpush : (∀ b ∈ boundaries, b < n) →
        (addBoundaries fixedLengths (boundaries ++ [n])).Pairwise (· < ·) ∧
        boundaries ⊆ addBoundaries fixedLengths (boundaries ++ [n]) ∧
        (∀ k ∈ addBoundaries fixedLengths (boundaries ++ [n]),
          k ∈ boundaries ∨ k ∈ n :: fixedLengths) ∧
        ∀ k ∈ n :: fixedLengths, k ∈ addBoundaries fixedLengths (boundaries ++ [n]) := by
      intro hlt
      have hb' : (boundaries ++ [n]).Pairwise (· < ·) := List.pairwise_append.mpr
        ⟨hb, List.pairwise_singleton _ _, fun b hbm k hk => by
          rw [List.mem_singleton.mp hk]
          exact hlt b hbm⟩
      obtain ⟨hsorted, hsub, hfrom, hall⟩ := addBoundaries_spec fixedLengths _ hf hb'
      have hn : n ∈ addBoundaries fixedLengths (boundaries ++ [n]) :=
        hsub (List.mem_append_right _ (.head _))
      refine ⟨hsorted, fun k hk => hsub (List.mem_append_left _ hk), fun k hk => ?_, fun k hk => ?_⟩
      · rcases hfrom k hk with hk | hk
        · rcases List.mem_append.mp hk with hk | hk
          · exact .inl hk
          · exact .inr (List.mem_singleton.mp hk ▸ (.head _))
        · exact .inr (.tail _ hk)
      · rcases List.mem_cons.mp hk with rfl | hk
        · exact hn
        · rcases hall k hk with hk' | ⟨last, hlast, hklast⟩
          · exact hk'
          · -- it is the length that was just added
            rw [List.getLast?_concat] at hlast
            cases hlast
            have heq : k = n := Int.le_antisymm hklast (hle k hk)
            rw [heq]
            exact hn
    rw [addBoundaries]
    cases hlast : boundaries.getLast? with
    | none =>
      rw [List.getLast?_eq_none_iff] at hlast
      obtain ⟨h1, h2, h3, h4⟩ := hpush (by rw [hlast]; simp)
      exact ⟨h1, h2, h3, fun k hk => .inl (h4 k hk)⟩
    | some last =>
      dsimp only
      split
      next hgt =>
        have hlt : ∀ b ∈ boundaries, b < n := by
          intro b hbm
          obtain ⟨init, rfl⟩ := List.getLast?_eq_some_iff.mp hlast
          rcases List.mem_append.mp hbm with hbm | hbm
          · have := (List.pairwise_append.mp hb).2.2 b hbm last (.head _)
            omega
          · rw [List.mem_singleton.mp hbm]
            exact hgt
        obtain ⟨h1, h2, h3, h4⟩ := hpush hlt
        exact ⟨h1, h2, h3, fun k hk => .inl (h4 k hk)⟩
      next hgt =>
        obtain ⟨h1, h2, h3, h4⟩ := addBoundaries_spec fixedLengths boundaries hf hb
        refine ⟨h1, h2, fun k hk => ?_, fun k hk => ?_⟩
        · exact (h3 k hk).imp_right (.tail _)
        · rcases List.mem_cons.mp hk with rfl | hk
          · exact .inr ⟨last, rfl, by omega⟩
          · exact hlast ▸ h4 k hk

/-! ## The samples -/

theorem mem_intRange {lo hi x : Int} : x ∈ intRange lo hi ↔ lo ≤ x ∧ x < hi := by
  unfold intRange
  rw [List.mem_map]
  refine ⟨fun ⟨i, hi', h⟩ => ?_, fun h => ⟨(x - lo).toNat, ?_, by omega⟩⟩
  · rw [List.mem_range] at hi'
    omega
  · rw [List.mem_range]
    omega

theorem pairwise_intRange (lo hi : Int) : (intRange lo hi).Pairwise (· < ·) := by
  unfold intRange
  rw [List.pairwise_map]
  exact List.pairwise_lt_range.imp fun hlt => by omega

/-- The samples of the parts that end: of each part the last `nNeg` members. -/
theorem sampleIndices_spec (nNeg : Nat) : ∀ (boundaries : List Int) (lastBoundary : Int)
    (indices : List Int), boundaries.Pairwise (· < ·) → (∀ b ∈ boundaries, lastBoundary ≤ b) →
    indices.Pairwise (· < ·) → (∀ x ∈ indices, x < lastBoundary) →
    ∃ r, sampleIndices nNeg boundaries lastBoundary indices = r ∧ r.1.Pairwise (· < ·) ∧
      (∀ b ∈ boundaries, b ≤ r.2) ∧ lastBoundary ≤ r.2 ∧ (r.2 = lastBoundary ∨ r.2 ∈ boundaries) ∧
      (∀ x ∈ r.1, x < r.2) ∧
      ∀ x, x ∈ r.1 ↔ x ∈ indices ∨
        (lastBoundary ≤ x ∧ ∃ b, endOf boundaries x = some b ∧ b - nNeg ≤ x)
  | [], lastBoundary, indices, _, _, hindices, hlt =>
    ⟨_, rfl, hindices, fun b hb => absurd hb List.not_mem_nil, Int.le_refl _, .inl rfl, hlt,
      fun x => ⟨.inl, fun h => h.elim id fun ⟨_, b, hb, _⟩ => by cases hb⟩⟩
  | b :: boundaries, lastBoundary, indices, hb, hle, hindices, hlt => by
    obtain ⟨hbs, hb⟩ := List.pairwise_cons.mp hb
    have hlast := hle b (.head _)
    let part := intRange (b - min (b - lastBoundary) nNeg) b
    have hpart : ∀ x, x ∈ part ↔ lastBoundary ≤ x ∧ x < b ∧ b - nNeg ≤ x := by
      intro x
      rw [mem_intRange]
      omega
    have hsorted : (indices ++ part).Pairwise (· < ·) := List.pairwise_append.mpr
      ⟨hindices, pairwise_intRange _ _, fun x hx y hy => by
        have := hlt x hx
        have := (hpart y).mp hy
        omega⟩
    have hltb : ∀ x ∈ indices ++ part, x < b := by
      intro x hx
      rcases List.mem_append.mp hx with hx | hx
      · have := hlt x hx
        omega
      · exact ((hpart x).mp hx).2.1
    obtain ⟨r, hr, hrsorted, hrle, hrlast, hrmem, hrlt, hriff⟩ := sampleIndices_spec nNeg boundaries b
      (indices ++ part) hb (fun b' hb' => Int.le_of_lt (hbs b' hb')) hsorted hltb
    refine ⟨r, hr, hrsorted, fun b' hb' => ?_, by omega, .inr ?_, hrlt, fun x => ?_⟩
    · rcases List.mem_cons.mp hb' with rfl | hb'
      · exact hrlast
      · exact hrle b' hb'
    · rcases hrmem with heq | hmem
      · exact heq ▸ (.head _)
      · exact .tail _ hmem
    · rw [hriff, List.mem_append, hpart]
      unfold endOf
      rw [List.find?_cons]
      by_cases hxb : x < b
      · -- the sample is of the first part
        rw [decide_eq_true hxb]
        have hnot : ¬ b ≤ x := by omega
        simp only [Option.some.injEq, exists_eq_left']
        grind only
      · rw [decide_eq_false hxb]
        have hle' : lastBoundary ≤ x ↔ b ≤ x := by omega
        rw [hle']
        grind only

/-- A prefix that a predicate selects, where it cannot become true again. -/
theorem takeWhile_eq_filter {α : Type} {p : α → Bool} {l : List α}
    (h : l.Pairwise fun a b => p b = true → p a = true) : l.takeWhile p = l.filter p := by
  induction l with
  | nil => rfl
  | cons a l ih =>
    obtain ⟨ha, hl⟩ := List.pairwise_cons.mp h
    rw [List.takeWhile_cons, List.filter_cons, ih hl]
    split
    next => rfl
    next hp =>
      symm
      rw [List.filter_eq_nil_iff]
      exact fun b hb hpb => hp (ha b hb hpb)

/-- What `listSamples` returns: of each part that ends at a boundary the last `nNeg` members,
and the first `nNeg` members of the part that does not end, as far as they are `int`s. -/
structure Sampling (boundaries : List Int) (lastBoundary : Int) (nNeg : Nat) (indices : List Int) :
    Prop where
  sorted_boundaries : boundaries.Pairwise (· < ·)
  nonneg : 0 ≤ lastBoundary
  last : ∀ b ∈ boundaries, b ≤ lastBoundary
  attained : lastBoundary = 0 ∨ lastBoundary ∈ boundaries
  int : lastBoundary ≤ intMaxValue
  sorted : indices.Pairwise (· < ·)
  mem_iff : ∀ x, x ∈ indices ↔ 0 ≤ x ∧
    (endOf boundaries x).elim (lastBoundary ≤ x ∧ x < lastBoundary + nNeg ∧ x ≤ intMaxValue)
      fun b => b - nNeg ≤ x

/-- The `boundaries` of `listSamples`, for a positive with these lengths. -/
def sampleBoundaries (env : Env) (initialLength : Nat) (fixedLength : Int) (neg : List Atom) :
    Option (List Int) := do
  let (maxInitialLength, fixedLengths) ← sampleLengths env neg (initialLength, [fixedLength])
  return addBoundaries (fixedLengths.mergeSort fun a b => decide (a ≤ b))
    ((List.range maxInitialLength).map fun (i : Nat) => (i : Int) + 1)

theorem listSamples_spec {env : Env} {members : FixedLengthArray} {neg : List Atom}
    (hmembers : members.Valid)
    (hneg : ∀ atom ∈ neg, ∃ nt, env.listAtomType atom = some nt ∧ nt.members.Valid) :
    ∃ boundaries lastBoundary indices, listSamples env members neg = some indices ∧
      sampleBoundaries env members.initial.length members.fixedLength neg = some boundaries ∧
      Sampling boundaries lastBoundary (max neg.length 1) indices ∧ members.CutBy boundaries ∧
      (∀ atom ∈ neg, ∀ nt, env.listAtomType atom = some nt → nt.members.CutBy boundaries) ∧
      ∀ bound, members.fixedLength ≤ bound → LengthsLe env neg bound → lastBoundary ≤ bound := by
  have hlen := hmembers.length
  obtain ⟨⟨maxInitialLength, fixedLengths⟩, hr, hmax, hsub, hnonneg, hbound, hatoms⟩ :=
    sampleLengths_spec neg (members.initial.length, [members.fixedLength]) hneg fun n hn => by
      rw [List.mem_singleton.mp hn]
      exact hmembers.nonneg
  dsimp only at hmax hsub hnonneg hbound hatoms
  let initial := (List.range maxInitialLength).map fun (i : Nat) => (i : Int) + 1
  let sorted := fixedLengths.mergeSort fun a b => decide (a ≤ b)
  let nNeg := if neg.length = 0 then 1 else neg.length
  have hnNeg : nNeg = max neg.length 1 := by
    dsimp only [nNeg]
    split <;> omega
  have hinitial : ∀ x, x ∈ initial ↔ 1 ≤ x ∧ x ≤ maxInitialLength := by
    intro x
    rw [List.mem_map]
    refine ⟨fun ⟨i, hi, h⟩ => ?_, fun h => ⟨(x - 1).toNat, ?_, by omega⟩⟩
    · rw [List.mem_range] at hi
      omega
    · rw [List.mem_range]
      omega
  have hmemSorted : ∀ x, x ∈ sorted ↔ x ∈ fixedLengths := fun x => List.mem_mergeSort
  have hsorted : sorted.Pairwise (· ≤ ·) := by
    refine (List.pairwise_mergeSort (fun a b c h1 h2 => ?_) (fun a b => ?_) _).imp
      fun h => of_decide_eq_true h
    · rw [decide_eq_true_iff] at h1 h2 ⊢
      omega
    · rw [Bool.or_eq_true, decide_eq_true_iff, decide_eq_true_iff]
      omega
  have hinitialSorted : initial.Pairwise (· < ·) := by
    rw [List.pairwise_map]
    exact List.pairwise_lt_range.imp fun hlt => by omega
  obtain ⟨hbs, hbsub, hbfrom, hball⟩ := addBoundaries_spec sorted initial hsorted hinitialSorted
  let boundaries := addBoundaries sorted initial
  -- every place where types change is a boundary
  have hcut : ∀ m : FixedLengthArray, m.initial.length ≤ maxInitialLength →
      (m.fixedLength ≤ maxInitialLength ∨ m.fixedLength ∈ fixedLengths) → m.CutBy boundaries := by
    intro m hm hfixed
    refine ⟨fun i h1 h2 => hbsub ((hinitial i).mpr (by omega)), fun hpos => ?_⟩
    rcases hfixed with hle | hmem
    · exact hbsub ((hinitial _).mpr ⟨by omega, hle⟩)
    · rcases hball _ ((hmemSorted _).mpr hmem) with hb | ⟨last, hlast, hle⟩
      · exact hb
      · have hlast := (hinitial last).mp (List.mem_of_getLast? hlast)
        exact hbsub ((hinitial _).mpr (by omega))
  have hbnonneg : ∀ b ∈ boundaries, 0 ≤ b := by
    intro b hb
    rcases hbfrom b hb with hb | hb
    · have := (hinitial b).mp hb
      omega
    · exact hnonneg b ((hmemSorted b).mp hb)
  obtain ⟨⟨parts, lastBoundary⟩, hparts, hpsorted, hplast, hpnonneg, hpmem, hplt, hpiff⟩ :=
    sampleIndices_spec nNeg boundaries 0 [] hbs hbnonneg List.Pairwise.nil
      fun x hx => absurd hx List.not_mem_nil
  dsimp only at hpsorted hplast hpnonneg hpmem hplt hpiff
  have hlastBound : ∀ bound, members.fixedLength ≤ bound → LengthsLe env neg bound →
      lastBoundary ≤ bound := by
    intro bound h1 h2
    have h0 := hmembers.nonneg
    obtain ⟨hmaxle, hfixedle⟩ := hbound bound (by omega)
      (fun n hn => List.mem_singleton.mp hn ▸ h1) h2
    rcases hpmem with heq | hmem
    · omega
    · rcases hbfrom _ hmem with hb | hb
      · have := (hinitial _).mp hb
        omega
      · exact hfixedle _ ((hmemSorted _).mp hb)
  have hlastInt : lastBoundary ≤ intMaxValue := hlastBound intMaxValue hmembers.int
    fun atom hatom nt hnt => by
      obtain ⟨nt', hnt', hvalid⟩ := hneg atom hatom
      rw [hnt] at hnt'
      cases hnt'
      exact hvalid.int
  let tail := ((List.range nNeg).takeWhile fun (i : Nat) =>
    decide (¬ lastBoundary > intMaxValue - i)).map fun (i : Nat) => lastBoundary + i
  have htail : ∀ x, x ∈ tail ↔ lastBoundary ≤ x ∧ x < lastBoundary + nNeg ∧ x ≤ intMaxValue := by
    intro x
    dsimp only [tail]
    rw [takeWhile_eq_filter (List.pairwise_lt_range.imp fun {i j} hlt => by
      rw [decide_eq_true_iff, decide_eq_true_iff]
      omega), List.mem_map]
    refine ⟨fun ⟨i, hi, h⟩ => ?_, fun h => ⟨(x - lastBoundary).toNat, ?_, by omega⟩⟩
    · rw [List.mem_filter, List.mem_range, decide_eq_true_iff] at hi
      omega
    · rw [List.mem_filter, List.mem_range, decide_eq_true_iff]
      omega
  have htailSorted : tail.Pairwise (· < ·) := by
    dsimp only [tail]
    rw [List.pairwise_map]
    exact (List.pairwise_lt_range.sublist (List.takeWhile_sublist _)).imp fun hlt => by omega
  refine ⟨boundaries, lastBoundary, parts ++ tail, ?_, ?_, ⟨hbs, hpnonneg, hplast, hpmem, hlastInt, ?_, ?_⟩,
    hcut members hmax (.inr (hsub (.head _))),
    fun atom hatom nt hnt => hcut _ (hatoms atom hatom nt hnt).1 (hatoms atom hatom nt hnt).2,
    hlastBound⟩
  · unfold listSamples
    rw [hr, Option.bind_eq_bind, Option.bind_some]
    dsimp only
    rw [show sampleIndices _ _ 0 [] = _ from hparts]
    rfl
  · unfold sampleBoundaries
    rw [hr]
    rfl
  · refine List.pairwise_append.mpr ⟨hpsorted, htailSorted, fun x hx y hy => ?_⟩
    have := hplt x hx
    have := (htail y).mp hy
    omega
  · intro x
    rw [List.mem_append, hpiff, htail, ← hnNeg]
    cases hend : endOf boundaries x with
    | none => simp; omega
    | some b =>
      have hxb := lt_of_endOf hend
      have hblast := hplast b (mem_of_endOf hend)
      simp
      omega

end Nballerina.Types
