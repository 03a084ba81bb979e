import Nballerina.Types.ListProj

/-!
# Which members the samples of a projection find

A member that a list has at an index of the key is found if the list can be replaced by a sampled
list with that member at a sample of the key. As for `listInhabited`, one member of the list matters
for each negative, and these go to different samples of the same parts; but here there is one member
more, the one that is looked for, and its sample has to belong to the key.

So each part with indices of the key needs a sample more than there are negatives, unless all its
indices are samples (`EnoughSamples`). `listSamples` takes one for each negative, and the ends of the
ranges of the key are added; together that may be too few. Where there are enough of them, nothing
is lost (`mem_sampledAt`).
-/

namespace Nballerina.Types

open Nballerina.Lib

variable {V : Type}

/-! ## The samples -/

theorem IntKey.contains_spec (k : IntKey) (i : Int) :
    ∃ b, k.contains i = some b ∧ (b = true ↔ k.Has i) := by
  cases k with
  | all => exact ⟨true, rfl, iff_of_true rfl trivial⟩
  | ranges v =>
    cases hb : intSubtypeContains (.proper (.int v)) i with
    | none => cases hb
    | some b =>
      refine ⟨b, hb, ?_⟩
      show _ ↔ rangesHave v i
      rw [← intSubtypeContains_iff, hb, Option.some.injEq]

/-- Each sample says whether it is in the key. -/
def Marked (k : IntKey) (v : List (Int × Bool)) : Prop := ∀ e ∈ v, e.2 = true ↔ k.Has e.1

theorem mapM_contains_spec (k : IntKey) : ∀ indices : List Int,
    ∃ v, (indices.mapM fun i => do return (i, ← k.contains i)) = some v ∧ Marked k v ∧
      v.map (·.1) = indices
  | [] => ⟨[], rfl, fun e he => absurd he List.not_mem_nil, rfl⟩
  | i :: indices => by
    obtain ⟨b, hb, hhas⟩ := k.contains_spec i
    obtain ⟨v, hv, hmarked, hfst⟩ := mapM_contains_spec k indices
    refine ⟨(i, b) :: v, ?_, fun e he => ?_, ?_⟩
    · rw [List.mapM_cons, hb, hv]
      rfl
    · rcases List.mem_cons.mp he with heq | he
      · rw [heq]
        exact hhas
      · exact hmarked e he
    · rw [List.map_cons, hfst]

/-- The ends of a range, from 0 on. -/
theorem mem_rangeSamples {r : Range} (hr : r.min ≤ r.max) (e : Int × Bool) :
    e ∈ rangeSamples r ↔ 0 ≤ r.max ∧ (e.1 = r.max ∨ e.1 = max 0 r.min) ∧ e.2 = true := by
  obtain ⟨x, b⟩ := e
  unfold rangeSamples
  by_cases hmax : r.max ≥ 0
  · rw [if_pos hmax]
    dsimp only
    split
    next hlt =>
      rw [List.mem_cons, List.mem_singleton, Prod.mk.injEq, Prod.mk.injEq]
      grind only
    next hle =>
      have heq : max 0 r.min = r.max := by omega
      rw [List.mem_singleton, Prod.mk.injEq, heq]
      grind only
  · rw [if_neg hmax]
    refine iff_of_false List.not_mem_nil fun h => ?_
    have := h.1
    omega

theorem marked_rangeSamples {k : IntKey} (hk : k.Valid) :
    Marked k ((keyRanges k).flatMap rangeSamples) := by
  intro e he
  obtain ⟨r, hr, hmem⟩ := List.mem_flatMap.mp he
  cases k with
  | all => exact absurd hr List.not_mem_nil
  | ranges v =>
    have hne := ((hk.normalised v rfl).fits r hr).nonempty
    obtain ⟨hmax, hend, htrue⟩ := (mem_rangeSamples hne e).mp hmem
    refine iff_of_true htrue ⟨r, hr, ?_⟩
    unfold Range.Has
    omega

theorem pairwise_of_sampleLe {v : List (Int × Bool)} :
    (v.mergeSort sampleLe).Pairwise fun a b => a.1 ≤ b.1 := by
  refine (List.pairwise_mergeSort (fun a b c hab hbc => ?_) (fun a b => ?_) v).imp fun {a b} h => ?_
  · unfold sampleLe at *
    grind only
  · unfold sampleLe
    grind only
  · unfold sampleLe at h
    grind only

/-- What `listProjSamples` gives: the samples increase, and `keyIndices` are the positions of those in
the key. -/
structure KeySamples (k : IntKey) (indices : List Int) (keyIndices : List Nat) : Prop where
  sorted : indices.Pairwise (· < ·)
  inKey : ∀ (q : Nat) (x : Int), indices[q]? = some x → (q ∈ keyIndices ↔ k.Has x)
  bound : ∀ q ∈ keyIndices, q < indices.length

/-- One sample more. -/
theorem KeySamples.push {k : IntKey} {indices : List Int} {keyIndices : List Nat}
    (h : KeySamples k indices keyIndices) {x : Int} (hlt : ∀ y ∈ indices, y < x) {inKey : Bool}
    (hx : inKey = true ↔ k.Has x) :
    KeySamples k (indices ++ [x])
      (if inKey then keyIndices ++ [indices.length] else keyIndices) where
  sorted := List.pairwise_append.mpr ⟨h.sorted, List.pairwise_singleton _ _, fun y hy z hz => by
    rw [List.mem_singleton.mp hz]
    exact hlt y hy⟩
  inKey q y hq := by
    have hqlen := (List.getElem?_eq_some_iff.mp hq).1
    rw [List.length_append, List.length_singleton] at hqlen
    have hmem : q ∈ (if inKey then keyIndices ++ [indices.length] else keyIndices) ↔
        q ∈ keyIndices ∨ (inKey = true ∧ q = indices.length) := by
      cases inKey <;> simp
    rw [hmem]
    rcases Nat.lt_or_eq_of_le (Nat.le_of_lt_succ hqlen) with hlt' | heq
    · rw [List.getElem?_append_left hlt'] at hq
      rw [← h.inKey q y hq]
      exact or_iff_left fun hlast => Nat.ne_of_lt hlt' hlast.2
    · rw [heq, List.getElem?_concat_length] at hq
      cases hq
      rw [← hx]
      refine ⟨fun hor => ?_, fun htrue => .inr ⟨htrue, heq⟩⟩
      rcases hor with hold | hnew
      · exact absurd (h.bound q hold) (by omega)
      · exact hnew.1
  bound q hq := by
    rw [List.length_append, List.length_singleton]
    cases inKey with
    | true =>
      rcases List.mem_append.mp hq with hq | hq
      · exact Nat.lt_succ_of_lt (h.bound q hq)
      · rw [List.mem_singleton.mp hq]
        exact Nat.lt_succ_self _
    | false => exact Nat.lt_succ_of_lt (h.bound q hq)

theorem dropRepeated_spec {k : IntKey} : ∀ (v : List (Int × Bool)) (indices : List Int)
    (keyIndices : List Nat), Marked k v → v.Pairwise (fun a b => a.1 ≤ b.1) →
    (∀ e ∈ v, ∀ y ∈ indices, y ≤ e.1) → KeySamples k indices keyIndices →
    KeySamples k (dropRepeated v indices keyIndices).1 (dropRepeated v indices keyIndices).2 ∧
      ∀ x, x ∈ (dropRepeated v indices keyIndices).1 ↔ x ∈ indices ∨ ∃ e ∈ v, e.1 = x
  | [], indices, keyIndices, _, _, _, h => by
    refine ⟨h, fun x => ⟨.inl, fun hor => hor.elim id fun ⟨e, he, _⟩ => ?_⟩⟩
    exact absurd he List.not_mem_nil
  | (i, inKey) :: v, indices, keyIndices, hmarked, hsorted, hle, h => by
    obtain ⟨hfirst, hsorted⟩ := List.pairwise_cons.mp hsorted
    have hmarked' : Marked k v := fun e he => hmarked e (.tail _ he)
    unfold dropRepeated
    by_cases hlast : indices.getLast? = some i
    · rw [if_pos hlast]
      obtain ⟨hkey, hmem⟩ := dropRepeated_spec v indices keyIndices hmarked' hsorted
        (fun e he => hle e (.tail _ he)) h
      refine ⟨hkey, fun x => ?_⟩
      rw [hmem, List.exists_mem_cons_iff]
      refine ⟨fun hor => hor.imp_right .inr, fun hor => ?_⟩
      rcases hor with hx | heq | hx
      · exact .inl hx
      · exact .inl (heq ▸ List.mem_of_getLast? hlast)
      · exact .inr hx
    · rw [if_neg hlast]
      -- the last sample is the greatest, and it is another one
      have hlt : ∀ y ∈ indices, y < i := by
        intro y hy
        obtain ⟨z, hz⟩ : ∃ z, indices.getLast? = some z := by
          cases hget : indices.getLast? with
          | none => exact absurd (List.getLast?_eq_none_iff.mp hget ▸ hy) List.not_mem_nil
          | some z => exact ⟨z, rfl⟩
        have hzi : z ≤ i := hle _ List.mem_cons_self z (List.mem_of_getLast? hz)
        have hyz : y ≤ z := by
          rw [List.getLast?_eq_getElem?] at hz
          obtain ⟨q, hq⟩ := List.mem_iff_getElem?.mp hy
          have := (List.getElem?_eq_some_iff.mp hq).1
          exact le_of_getElem?_le h.sorted hq hz (by omega)
        have hne : z ≠ i := fun heq => hlast (heq ▸ hz)
        omega
      have hle' : ∀ e ∈ v, ∀ y ∈ indices ++ [i], y ≤ e.1 := by
        intro e he y hy
        rcases List.mem_append.mp hy with hy | hy
        · exact hle e (.tail _ he) y hy
        · rw [List.mem_singleton.mp hy]
          exact hfirst e he
      obtain ⟨hkey, hmem⟩ := dropRepeated_spec v (indices ++ [i]) _ hmarked' hsorted hle'
        (h.push hlt (hmarked _ (.head _)))
      refine ⟨hkey, fun x => ?_⟩
      rw [hmem, List.exists_mem_cons_iff, List.mem_append, List.mem_singleton, or_assoc,
        eq_comm (a := x)]

/-- The samples of a projection: those of the search, and the ends of the ranges of the key. -/
structure ProjSamples (key : IntKey) (samples indices : List Int) (keyIndices : List Nat) : Prop
    extends KeySamples key indices keyIndices where
  mem_iff : ∀ x, x ∈ indices ↔ x ∈ samples ∨ ∃ r ∈ keyRanges key, 0 ≤ r.max ∧
    (x = r.max ∨ x = max 0 r.min)

theorem listProjSamples_spec {k : IntKey} (hk : k.Valid) (samples : List Int) :
    ∃ indices keyIndices, listProjSamples samples k = some (indices, keyIndices) ∧
      ProjSamples k samples indices keyIndices := by
  obtain ⟨v, hv, hmarked, hfst⟩ := mapM_contains_spec k samples
  let ends := (keyRanges k).flatMap rangeSamples
  let sorted := (v ++ ends).mergeSort sampleLe
  have hmarked' : Marked k sorted := by
    intro e he
    rcases List.mem_append.mp (List.mem_mergeSort.mp he) with he | he
    · exact hmarked e he
    · exact marked_rangeSamples hk e he
  have hempty : KeySamples k [] [] :=
    ⟨List.Pairwise.nil, fun q x hq => by simp at hq, fun q hq => absurd hq List.not_mem_nil⟩
  obtain ⟨hkey, hmem⟩ := dropRepeated_spec sorted [] [] hmarked' pairwise_of_sampleLe
    (fun e _ y hy => absurd hy List.not_mem_nil) hempty
  refine ⟨_, _, ?_, ⟨hkey, fun x => ?_⟩⟩
  · unfold listProjSamples
    rw [hv]
    rfl
  · rw [hmem]
    have hin : (∃ e ∈ sorted, e.1 = x) ↔ (∃ e ∈ v, e.1 = x) ∨ ∃ e ∈ ends, e.1 = x := by
      simp only [sorted, List.mem_mergeSort, List.mem_append, or_and_right, exists_or]
    have hold : (∃ e ∈ v, e.1 = x) ↔ x ∈ samples := by
      rw [← hfst, List.mem_map]
    have hends : (∃ e ∈ ends, e.1 = x) ↔ ∃ r ∈ keyRanges k, 0 ≤ r.max ∧
        (x = r.max ∨ x = max 0 r.min) := by
      have hnonempty : ∀ r ∈ keyRanges k, r.min ≤ r.max := by
        intro r hr
        cases k with
        | all => exact absurd hr List.not_mem_nil
        | ranges v => exact ((hk.normalised v rfl).fits r hr).nonempty
      refine ⟨fun ⟨e, he, hex⟩ => ?_, fun ⟨r, hr, hmax, hx⟩ => ?_⟩
      · obtain ⟨r, hr, he⟩ := List.mem_flatMap.mp he
        obtain ⟨hmax, hend, _⟩ := (mem_rangeSamples (hnonempty r hr) e).mp he
        exact ⟨r, hr, hmax, hex ▸ hend⟩
      · refine ⟨(x, true), List.mem_flatMap.mpr ⟨r, hr, ?_⟩, rfl⟩
        exact (mem_rangeSamples (hnonempty r hr) _).mpr ⟨hmax, hx, rfl⟩
    rw [hin, hold, hends]
    exact or_iff_right List.not_mem_nil

/-- Each part with an index of the key at which lists have members has a sample more than there are
negatives, if not all its indices are samples. -/
def EnoughSamples (boundaries samples : List Int) (nNeg : Nat) (key : IntKey) (hasMember : Int → Prop) :
    Prop :=
  ∀ j : Int, 0 ≤ j → j ≤ intMaxValue → key.Has j → hasMember j →
    (∀ y : Int, 0 ≤ y → y ≤ intMaxValue → endOf boundaries y = endOf boundaries j → y ∈ samples) ∨
    nNeg < (samples.filter fun x => decide (endOf boundaries x = endOf boundaries j)).length

/-! ## A sampled list with the member -/

section Samples

variable {env : Env} {lt : ListAtomicType} {neg : List Atom} {boundaries : List Int}
  {lastBoundary : Int} {samples indices : List Int} {key : IntKey}

/-- The cut of a list of length `n` for all samples, those of the ranges of the key included. A part
of the list is below the cut, but for one index if some negative is to be longer. -/
structure KeyCut (lt : ListAtomicType) (boundaries samples : List Int) (n : Int) (k : Nat)
    (short : Prop) (c : Int) : Prop extends Cut lt boundaries samples n k (lt.members.fixedLength < n) c where
  rest : ∀ x : Int, 0 ≤ x → x < c → lt.members.fixedLength ≤ x → lt.members.fixedLength < n
  fixed : ∀ x : Int, x ≤ intMaxValue → x < lt.members.fixedLength → x < c
  longer : ∀ b ∈ boundaries, n < b → short → c < b
  below : ∀ x : Int, x < n → x < c
  part : ∀ x : Int, 0 ≤ x → x < n →
    (∀ y : Int, y ≤ intMaxValue → endOf boundaries y = endOf boundaries x → y < c) ∨
    (short ∧ ∀ y : Int, endOf boundaries y = endOf boundaries x → y < c ∨ y = c)

theorem SamplesOf.exists_keyCut (h : SamplesOf env lt neg boundaries lastBoundary samples) {n : Int}
    (hn : 0 < n) (hint : n ≤ intMaxValue + 1) (hfixed : lt.members.fixedLength ≤ n) {k : Nat}
    {short : Prop} (hk : k ≤ max neg.length 1) (hshort : short → k + 1 ≤ max neg.length 1) :
    ∃ c, KeyCut lt boundaries samples n k short c := by
  cases hend : endOf boundaries (n - 1) with
  | none =>
    have hle := endOf_eq_none_iff.mp hend
    have hrest : lt.members.fixedLength < n := by
      by_cases hpos : 0 < lt.members.fixedLength
      · have := hle _ (h.pos.fixedLength hpos)
        omega
      · omega
    refine ⟨intMaxValue + 1, h.cut_last hfixed (fun h => h) hend hn (.inl hint) hk,
      fun _ _ _ _ => hrest, fun x hx _ => by omega, fun b hb hnb _ => ?_, fun x hx => by omega,
      fun x _ _ => .inl fun y hy _ => by omega⟩
    have := hle b hb
    omega
  | some e =>
    obtain ⟨he, hlt, hmin⟩ := (endOf_eq_some_iff h.sorted_boundaries).mp hend
    -- past the part of the last index the positive has no fixed members
    have hrest : ∀ x, x < e → lt.members.fixedLength ≤ x → lt.members.fixedLength < n := by
      intro x hx hle
      by_cases hpos : 0 < lt.members.fixedLength
      · have := hmin _ (h.pos.fixedLength hpos)
        omega
      · omega
    have hpart : ∀ x, 0 ≤ x → x < n → ∀ y, endOf boundaries y = endOf boundaries x → y < e := by
      intro x hx hxn y hy
      exact (lt_iff_of_endOf_eq h.sorted_boundaries hy he).mpr (by omega)
    by_cases hs : short ∧ n < e
    · refine ⟨e - 1, h.cut_part hfixed (fun h => h) hend hn (.inr ⟨rfl, hs.2, hshort hs.1⟩),
        fun x _ hx hle => hrest x (by omega) hle, fun x _ hx => by omega, fun b hb hnb _ => ?_,
        fun x hx => by omega, fun x hx hxn => .inr ⟨hs.1, fun y hy => ?_⟩⟩
      · have := hmin b hb (by omega)
        omega
      · have := hpart x hx hxn y hy
        omega
    · refine ⟨e, h.cut_part hfixed (fun h => h) hend hn (.inl ⟨rfl, hk⟩),
        fun x _ hx hle => hrest x hx hle, fun x _ hx => by omega, fun b hb hnb hsh => ?_,
        fun x hx => by omega, fun x hx hxn => .inl fun y _ hy => hpart x hx hxn y hy⟩
      have hne : ¬ n < e := fun hne => hs ⟨hsh, hne⟩
      omega

/-- A part with an index of the key that has a sample below the cut has one in the key. -/
theorem exists_key_sample (hsorted : boundaries.Pairwise (· < ·))
    (hends : ∀ r ∈ keyRanges key, 0 ≤ r.max → r.max ∈ indices ∧ max 0 r.min ∈ indices) {c j s : Int}
    (hj : key.Has j) (hnonneg : 0 ≤ j) (hjc : j < c) (hs : s ∈ indices)
    (hsc : s < c) (hend : endOf boundaries s = endOf boundaries j) :
    ∃ x ∈ indices, x < c ∧ endOf boundaries x = endOf boundaries j ∧ key.Has x := by
  cases key with
  | all => exact ⟨s, hs, hsc, hend, trivial⟩
  | ranges v =>
    obtain ⟨r, hr, hmin, hmax⟩ := hj
    obtain ⟨hmaxMem, hminMem⟩ := hends r hr (by omega)
    by_cases hstart : endOf boundaries (max 0 r.min) = endOf boundaries j
    · -- the range starts in the part
      refine ⟨max 0 r.min, hminMem, by omega, hstart, r, hr, ?_⟩
      unfold Range.Has
      omega
    · have hafter : max 0 r.min ≤ s := by
        by_contra hlt
        refine hstart ?_
        rw [← hend]
        exact endOf_eq_of_between hsorted hend (by omega) (by omega)
      by_cases hle : s ≤ r.max
      · refine ⟨s, hs, hsc, hend, r, hr, ?_⟩
        unfold Range.Has
        omega
      · -- the range ends in the part
        have hlast := endOf_eq_of_between hsorted hend.symm hmax (by omega)
        refine ⟨r.max, hmaxMem, by omega, hlast, r, hr, ?_⟩
        unfold Range.Has
        omega

/-- With the member that is looked for, each part still has as many samples below the cut as members
of the list that matter. -/
theorem card_le_of_enoughSamples {n c : Int} {D : Finset Int} {short : Prop}
    (hsub : samples ⊆ indices) (hsorted : indices.Pairwise (· < ·))
    (hint : ∀ x ∈ indices, x ≤ intMaxValue) (hcut : KeyCut lt boundaries samples n D.card short c)
    (hn : n ≤ intMaxValue + 1) (hD : ∀ x ∈ D, 0 ≤ x ∧ x < n) (hcard : D.card ≤ neg.length)
    (hshort : short → D.card + 1 ≤ neg.length) {hasMember : Int → Prop}
    (henough : EnoughSamples boundaries indices neg.length key hasMember) {j : Int} (hj : key.Has j)
    (hmember : hasMember j) (hnonneg : 0 ≤ j) (hjn : j < n) {x : Int} (hx : x ∈ insert j D) :
    ((insert j D).filter (endOf boundaries · = endOf boundaries x)).card ≤
      ((indices.toFinset.filter (· < c)).filter (endOf boundaries · = endOf boundaries x)).card := by
  by_cases hpart : endOf boundaries x = endOf boundaries j
  · rw [hpart]
    have hins := Finset.card_filter_le (insert j D) (endOf boundaries · = endOf boundaries j)
    have hins' := Finset.card_insert_le j D
    rcases henough j hnonneg (by omega) hj hmember with hall | hmore
    · -- every member stays where it is
      refine Finset.card_le_card fun y hy => ?_
      obtain ⟨hyD, hend⟩ := Finset.mem_filter.mp hy
      have hyn : 0 ≤ y ∧ y < n := by
        rcases Finset.mem_insert.mp hyD with rfl | hyD
        · exact ⟨hnonneg, hjn⟩
        · exact hD y hyD
      refine Finset.mem_filter.mpr ⟨Finset.mem_filter.mpr ⟨?_, hcut.below y hyn.2⟩, hend⟩
      exact List.mem_toFinset.mpr (hall y hyn.1 (by omega) hend)
    · -- the samples of the part
      let part := indices.toFinset.filter (endOf boundaries · = endOf boundaries j)
      have hpartCard : neg.length < part.card := by
        have heq : part = (indices.filter fun x =>
            decide (endOf boundaries x = endOf boundaries j)).toFinset := by
          ext y
          simp [part]
        rw [heq, List.toFinset_card_of_nodup ((hsorted.imp (fun h => ne_of_lt h)).filter _)]
        exact hmore
      rcases hcut.part j hnonneg hjn with hwhole | ⟨hs, hbut⟩
      · have hsub : part ⊆ (indices.toFinset.filter (· < c)).filter
            (endOf boundaries · = endOf boundaries j) := by
          intro y hy
          obtain ⟨hmem, hend⟩ := Finset.mem_filter.mp hy
          have hyint := hint y (List.mem_toFinset.mp hmem)
          exact Finset.mem_filter.mpr ⟨Finset.mem_filter.mpr ⟨hmem, hwhole y hyint hend⟩, hend⟩
        have := Finset.card_le_card hsub
        omega
      · have hsub : part ⊆ insert c ((indices.toFinset.filter (· < c)).filter
            (endOf boundaries · = endOf boundaries j)) := by
          intro y hy
          obtain ⟨hmem, hend⟩ := Finset.mem_filter.mp hy
          rcases hbut y hend with hlt | heq
          · exact Finset.mem_insert_of_mem
              (Finset.mem_filter.mpr ⟨Finset.mem_filter.mpr ⟨hmem, hlt⟩, hend⟩)
          · exact heq ▸ Finset.mem_insert_self _ _
        have := Finset.card_le_card hsub
        have := Finset.card_insert_le c ((indices.toFinset.filter (· < c)).filter
          (endOf boundaries · = endOf boundaries j))
        have := hshort hs
        omega
  · -- the member that is looked for is in another part
    have hxD : x ∈ D := by
      rcases Finset.mem_insert.mp hx with rfl | hxD
      · exact absurd rfl hpart
      · exact hxD
    have heq : (insert j D).filter (endOf boundaries · = endOf boundaries x) =
        D.filter (endOf boundaries · = endOf boundaries x) := by
      rw [Finset.filter_insert, if_neg fun h => hpart h.symm]
    rw [heq]
    refine (hcut.toCut.card_le hD (hD x hxD)).trans (Finset.card_le_card ?_)
    refine Finset.filter_subset_filter _ (Finset.filter_subset_filter _ fun y hy => ?_)
    exact List.mem_toFinset.mpr (hsub (List.mem_toFinset.mp hy))

section Proj

variable {keyIndices : List Nat} (h : ProjSamples key samples indices keyIndices)
include h

theorem ProjSamples.subset : samples ⊆ indices := fun x hx => (h.mem_iff x).mpr (.inl hx)

theorem ProjSamples.ends {r : Range} (hr : r ∈ keyRanges key) (hmax : 0 ≤ r.max) :
    r.max ∈ indices ∧ max 0 r.min ∈ indices :=
  ⟨(h.mem_iff _).mpr (.inr ⟨r, hr, hmax, .inl rfl⟩),
    (h.mem_iff _).mpr (.inr ⟨r, hr, hmax, .inr rfl⟩)⟩

theorem ProjSamples.nonneg (hsamples : ∀ x ∈ samples, 0 ≤ x) : ∀ x ∈ indices, 0 ≤ x := by
  intro x hx
  rcases (h.mem_iff x).mp hx with hx | ⟨r, _, hmax, heq⟩
  · exact hsamples x hx
  · omega

theorem ProjSamples.le_int (hkey : key.Valid) (hsamples : ∀ x ∈ samples, x ≤ intMaxValue) :
    ∀ x ∈ indices, x ≤ intMaxValue := by
  intro x hx
  rcases (h.mem_iff x).mp hx with hx | ⟨r, hr, hmax, heq⟩
  · exact hsamples x hx
  · cases key with
    | all => exact absurd hr List.not_mem_nil
    | ranges v =>
      have hfits := (hkey.normalised v rfl).fits r hr
      have := hfits.upper
      have := hfits.nonempty
      omega

end Proj

/-- If there are enough samples, then what a list that avoids the negatives has at an index of the key
is what some sampled list has at a sample of the key. -/
theorem mem_sampledAt {den : SemType → Set V} {Cell Atomic : SemType → Prop} {keyIndices : List Nat}
    {memberTypes : List SemType} {nRequired : Nat}
    (hsamples : SamplesOf env lt neg boundaries lastBoundary samples)
    (hproj : ProjSamples key samples indices keyIndices) (hkey : key.Valid)
    {hasMember : Int → Prop} (henough : EnoughSamples boundaries indices neg.length key hasMember)
    (hmember : ∀ i : Int, i < lt.members.fixedLength ∨ (valDen den lt.rest).Nonempty → hasMember i)
    (hover : lt.Over Atomic)
    (htypes : SampleTypes (valDen den) Cell lt indices memberTypes nRequired)
    (hstop : ∀ (x : Int) (u : SemType), indices[memberTypes.length]? = some x →
      listMemberAt lt.members lt.rest x = some u → valDen den u = ∅)
    (hneg : env.ListsOver Atomic neg) {l : List V} (hint : (l.length : Int) ≤ intMaxValue + 1)
    (hl : lt.Contains (valDen den) l) (havoid : ∀ atom ∈ neg, ¬ env.ListContains (valDen den) l atom)
    {j : Nat} {v : V} (hj : key.Has j) (hv : l[j]? = some v) :
    v ∈ SampledAt den env indices keyIndices neg memberTypes nRequired := by
  obtain ⟨D, hD, hcard, hshort, hmembers⟩ := exists_members neg hneg havoid
  have hjlen := (List.getElem?_eq_some_iff.mp hv).1
  have hjn : (j : Int) < l.length := by omega
  have hjnonneg := Int.natCast_nonneg j
  have hjmember : hasMember j := by
    refine hmember j ((lt_or_ge _ _).imp_right fun hge => ⟨v, hl.2 j v _ hv ?_⟩)
    unfold listMemberAt
    rw [if_neg (by omega)]
  obtain ⟨c, hcut⟩ := hsamples.exists_keyCut (by omega) hint hl.1
    (Nat.le_trans hcard (Nat.le_max_left _ 1)) fun h => Nat.le_trans (hshort h) (Nat.le_max_left _ 1)
  have hsamplesInt : ∀ x ∈ samples, x ≤ intMaxValue := fun x hx => hsamples.le_int hx
  have hnonneg := hproj.nonneg hsamples.nonneg_of_mem
  have hfibers : ∀ x ∈ insert (j : Int) D, _ := fun x hx => card_le_of_enoughSamples hproj.subset
    hproj.sorted (hproj.le_int hkey hsamplesInt) hcut hint hD hcard hshort henough hj hjmember hjnonneg hjn hx
  -- the sample of the key to which the member goes
  obtain ⟨s, hs⟩ : ((indices.toFinset.filter (· < c)).filter
      (endOf boundaries · = endOf boundaries (j : Int))).Nonempty := by
    rw [← Finset.card_pos]
    refine Nat.lt_of_lt_of_le ?_ (hfibers j (Finset.mem_insert_self _ _))
    exact Finset.card_pos.mpr ⟨j, Finset.mem_filter.mpr ⟨Finset.mem_insert_self _ _, rfl⟩⟩
  obtain ⟨hsc, hsend⟩ := Finset.mem_filter.mp hs
  obtain ⟨hsmem, hsc⟩ := Finset.mem_filter.mp hsc
  obtain ⟨x, hx, hxc, hxend, hxkey⟩ := exists_key_sample hsamples.sorted_boundaries
    (fun r hr hmax => hproj.ends hr hmax) hj hjnonneg (hcut.below j hjn) (List.mem_toFinset.mp hsmem)
    hsc hsend
  obtain ⟨φ, hinj, hφ, hφj⟩ := exists_injOn_of_fibers_at (endOf boundaries) (insert (j : Int) D)
    (indices.toFinset.filter (· < c)) hfibers (Finset.mem_insert_self _ _)
    (Finset.mem_filter.mpr ⟨List.mem_toFinset.mpr hx, hxc⟩) hxend
  have hD' : ∀ y ∈ insert (j : Int) D, 0 ≤ y ∧ y < (l.length : Int) := by
    intro y hy
    rcases Finset.mem_insert.mp hy with rfl | hy
    · exact ⟨hjnonneg, hjn⟩
    · exact hD y hy
  have hmembers' : MembersMatter (valDen den) env neg l (insert (j : Int) D) := by
    intro atom hatom
    obtain ⟨nt, hnt, hcase⟩ := hmembers atom hatom
    refine ⟨nt, hnt, hcase.imp_right ?_⟩
    intro ⟨i, v', t, hi, hrest⟩
    exact ⟨i, v', t, Finset.mem_insert_of_mem hi, hrest⟩
  have hnonempty : ∀ y ∈ indices, y < c → ∀ u, listMemberAt lt.members lt.rest y = some u →
      (valDen den u).Nonempty := by
    intro y hy hyc u hu
    have hypos := hnonneg y hy
    by_cases hyfixed : y < lt.members.fixedLength
    · -- the list itself has a member here
      have hlen := hl.1
      obtain ⟨i, rfl⟩ := Int.eq_ofNat_of_zero_le hypos
      have hi : l[i]? = some l[i] := List.getElem?_eq_getElem (by omega)
      exact ⟨_, hl.2 i _ u hi hu⟩
    · have hrest := rest_nonempty hover.valid hl (hcut.rest y hypos hyc (by omega))
      unfold listMemberAt at hu
      rw [if_neg hyfixed] at hu
      cases hu
      exact hrest
  have hafter : ∀ atom ∈ neg, ∀ nt, env.listAtomType atom = some nt →
      (l.length : Int) < nt.members.fixedLength →
      ∃ y ∈ indices, c ≤ y ∧ y < nt.members.fixedLength := by
    intro atom hatom nt hnt hlt
    have hb := (hsamples.neg atom hatom nt hnt).fixedLength (by omega)
    have hcb := hcut.longer _ hb hlt ⟨atom, hatom, nt, hnt, hlt⟩
    exact ⟨_, hproj.subset (hsamples.pred_mem hb (by omega)), by omega, by omega⟩
  have hφ' : ∀ y ∈ insert (j : Int) D, φ y ∈ indices ∧ φ y < c ∧
      endOf boundaries (φ y) = endOf boundaries y := by
    intro y hy
    obtain ⟨hsample, hend⟩ := hφ y hy
    obtain ⟨hmem, hlt⟩ := Finset.mem_filter.mp hsample
    exact ⟨List.mem_toFinset.mp hmem, hlt, hend⟩
  have halign : Aligned env lt neg boundaries indices :=
    ⟨hproj.sorted, hnonneg, hsamples.sorted_boundaries, hsamples.pos, hsamples.neg⟩
  obtain ⟨w, hw, hwavoid, hfound⟩ := exists_sampled_of_cut halign hover htypes hstop hl hD' hmembers'
    hnonempty (fun y hy => hcut.fixed y (hproj.le_int hkey hsamplesInt y hy)) hafter hinj hφ'
  obtain ⟨q, hq⟩ := List.mem_iff_getElem?.mp hx
  refine ⟨w, hw, hwavoid, q, (hproj.inKey q x hq).mpr hxkey, ?_⟩
  rw [hfound j q (Finset.mem_insert_self _ _) (hφj ▸ hq), hv]

end Samples

end Nballerina.Types
