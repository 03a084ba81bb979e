import Nballerina.Types.ExactTypes

/-!
# The emptiness of cell types is exact

A cell type is a `Bdd` of cell atoms, and `cellFormulaIsEmpty` decides whether the cells of some
atoms are all cells of others. As values, a read-only cell holds one value, and of a writable cell
only the set of values that may be stored in it counts. So a read-only cell may be covered by
several negatives together, while a writable cell lies in one of them or in none; a read-only
negative has no writable cells at all.

`cellFormulaIsEmpty_exact`: where the operations on the inner types are exact, the answer is right
for any number of atoms with mutability `CELL_MUT_NONE` or `CELL_MUT_LIMITED`.
-/

namespace Nballerina.Types

open Nballerina.Lib

variable {V : Type}

/-- A cell as a value. -/
inductive CellValue (V : Type) where
  /-- holds `v` for ever -/
  | readOnly (v : V)
  /-- the values that may be stored -/
  | writable (storable : Set V) (nonempty : storable.Nonempty)

/-- The cells of a type: a read-only cell by the value it holds, a writable cell if the type is
writable and allows all that may be stored. -/
def CellAtomicType.Contains (den : SemType → Set V) (c : CellAtomicType) : CellValue V → Prop
  | .readOnly v => v ∈ den c.ty
  | .writable storable _ => c.mutability = .limited ∧ storable ⊆ den c.ty

/-- The cell belongs to the atom. -/
def CellContains (den : SemType → Set V) (x : CellValue V) (atom : Atom) : Prop :=
  ∃ c, cellAtomType atom = some c ∧ c.Contains den x

/-- Cell atoms with inner types in `Q`, none of which is `CELL_MUT_UNLIMITED`. -/
def CellsOver (Q : SemType → Prop) (atoms : List Atom) : Prop :=
  ∀ atom ∈ atoms, ∃ c, cellAtomType atom = some c ∧ c.mutability ≠ .unlimited ∧ Q c.ty

theorem cellContains_iff {den : SemType → Set V} {x : CellValue V} {atom : Atom}
    {c : CellAtomicType} (h : cellAtomType atom = some c) :
    CellContains den x atom ↔ c.Contains den x := by
  refine ⟨fun ⟨c', hc', hx⟩ => ?_, fun hx => ⟨c, h, hx⟩⟩
  rw [h] at hc'
  cases hc'
  exact hx

theorem CellsOver.tail {Q : SemType → Prop} {atom : Atom} {atoms : List Atom}
    (h : CellsOver Q (atom :: atoms)) : CellsOver Q atoms :=
  fun a ha => h a (.tail _ ha)

section Exact

variable [BddIdentity] {den : SemType → Set V} {Q : SemType → Prop}
  {R : CellAtomicType → TypeAtom → Prop}

/-! ## The positive atoms -/

omit [BddIdentity] in
/-- Of two mutabilities the smaller is writable if both are. -/
theorem min_mutability {m1 m2 : CellMutability} (h1 : m1 ≠ .unlimited) (h2 : m2 ≠ .unlimited) :
    m1.min m2 ≠ .unlimited ∧ (m1.min m2 = .limited ↔ m1 = .limited ∧ m2 = .limited) := by
  cases m1 with
  | unlimited => exact absurd rfl h1
  | none =>
    cases m2 with
    | unlimited => exact absurd rfl h2
    | none => simp [CellMutability.min, CellMutability.toNat]
    | limited => simp [CellMutability.min, CellMutability.toNat]
  | limited =>
    cases m2 with
    | unlimited => exact absurd rfl h2
    | none => simp [CellMutability.min, CellMutability.toNat]
    | limited => simp [CellMutability.min, CellMutability.toNat]

/-- The intersection of two cell atoms has the cells of both. -/
theorem intersectCellAtomicType_exact (hx : ExactTypes den Q) {c1 c2 : CellAtomicType}
    (h1 : Q c1.ty) (h2 : Q c2.ty) (hm1 : c1.mutability ≠ .unlimited)
    (hm2 : c2.mutability ≠ .unlimited) :
    ∃ c, intersectCellAtomicType c1 c2 = some c ∧ c.mutability ≠ .unlimited ∧ Q c.ty ∧
      ∀ x, c.Contains den x ↔ c1.Contains den x ∧ c2.Contains den x := by
  obtain ⟨t, ht, hQ, hden⟩ := hx.intersect h1 h2
  obtain ⟨hne, hlimited⟩ := min_mutability hm1 hm2
  refine ⟨⟨t, c1.mutability.min c2.mutability⟩, ?_, hne, hQ, fun x => ?_⟩
  · unfold intersectCellAtomicType
    rw [ht]
    rfl
  · cases x with
    | readOnly v =>
      show v ∈ den t ↔ _
      rw [hden]
      rfl
    | writable storable _ =>
      show _ = CellMutability.limited ∧ storable ⊆ den t ↔ _
      rw [hlimited, hden, Set.subset_inter_iff]
      exact ⟨fun h => ⟨⟨h.1.1, h.2.1⟩, h.1.2, h.2.2⟩, fun h => ⟨⟨h.1.1, h.2.1⟩, h.1.2, h.2.2⟩⟩

theorem combineCells_exact (hx : ExactTypes den Q) : ∀ (posList : List Atom)
    (combined : CellAtomicType), CellsOver Q posList → combined.mutability ≠ .unlimited →
    Q combined.ty →
    ∃ c, combineCells posList combined = some c ∧ c.mutability ≠ .unlimited ∧ Q c.ty ∧
      ∀ x, c.Contains den x ↔ combined.Contains den x ∧ ∀ atom ∈ posList, CellContains den x atom := by
  intro posList
  induction posList with
  | nil =>
    intro combined _ hm hQ
    exact ⟨combined, rfl, hm, hQ, fun x => ⟨fun h => ⟨h, fun a ha => absurd ha List.not_mem_nil⟩,
      fun h => h.1⟩⟩
  | cons atom posList ih =>
    intro combined hpos hm hQ
    obtain ⟨c, hc, hcm, hcQ⟩ := hpos atom (.head _ ..)
    obtain ⟨both, hboth, hbm, hbQ, hcontains⟩ := intersectCellAtomicType_exact hx hQ hcQ hm hcm
    obtain ⟨r, hr, hrm, hrQ, hrest⟩ := ih both hpos.tail hbm hbQ
    refine ⟨r, ?_, hrm, hrQ, fun x => ?_⟩
    · unfold combineCells
      rw [hc]
      show (do combineCells posList (← intersectCellAtomicType combined c)) = _
      rw [hboth]
      exact hr
    · rw [hrest, hcontains, List.forall_mem_cons, cellContains_iff hc, and_assoc]

/-! ## The negative atoms -/

/-- The union of the negatives has the values of their read-only cells. -/
theorem cellNegListUnion_exact (hx : ExactTypes den Q) : ∀ (negList : List Atom) (negUnion : SemType),
    CellsOver Q negList → Q negUnion →
    ∃ u, cellNegListUnion negList negUnion = some u ∧ Q u ∧
      ∀ v, v ∈ den u ↔ v ∈ den negUnion ∨ ∃ atom ∈ negList, CellContains den (.readOnly v) atom := by
  intro negList
  induction negList with
  | nil =>
    intro negUnion _ hQ
    exact ⟨negUnion, rfl, hQ, fun v => ⟨.inl, fun h => h.resolve_right fun ⟨_, ha, _⟩ => by cases ha⟩⟩
  | cons atom negList ih =>
    intro negUnion hneg hQ
    obtain ⟨c, hc, _, hcQ⟩ := hneg atom (.head _ ..)
    obtain ⟨u, hu, huQ, hden⟩ := hx.union hQ hcQ
    obtain ⟨r, hr, hrQ, hrest⟩ := ih u hneg.tail huQ
    refine ⟨r, ?_, hrQ, fun v => ?_⟩
    · unfold cellNegListUnion
      rw [hc]
      show (do cellNegListUnion negList (← union ops negUnion c.ty)) = _
      rw [hu]
      exact hr
    · rw [hrest, hden, Set.mem_union, or_assoc]
      refine or_congr_right ⟨fun h => ?_, fun ⟨a, ha, hv⟩ => ?_⟩
      · rcases h with hv | ⟨a, ha, hv⟩
        · exact ⟨atom, .head _ .., (cellContains_iff hc).mpr hv⟩
        · exact ⟨a, .tail _ ha, hv⟩
      · rcases List.mem_cons.mp ha with rfl | ha
        · exact .inl ((cellContains_iff hc).mp hv)
        · exact .inr ⟨a, ha, hv⟩

variable {negList : List Atom}

/-- Read-only cells are compared with the union of the negatives. -/
theorem cellMutNoneInhabited_ensures (hx : ExactTypes den Q) {pos : SemType} (hpos : Q pos)
    (hne : den pos ≠ ∅) (hneg : CellsOver Q negList) :
    (cellMutNoneInhabited pos negList).Ensures R Q (EmptyRight den) fun r =>
      r = true ↔ ∃ v ∈ den pos, ∀ atom ∈ negList, ¬ CellContains den (.readOnly v) atom := by
  obtain ⟨u, hu, huQ, hmem⟩ := cellNegListUnion_exact hx negList NEVER hneg hx.never
  have hout : ∀ v, (v ∉ den u) ↔ ∀ atom ∈ negList, ¬ CellContains den (.readOnly v) atom := by
    intro v
    rw [hmem, hx.den_never]
    exact ⟨fun h atom ha hc => h (.inr ⟨atom, ha, hc⟩),
      fun h hu => hu.elim (fun h' => h') fun ⟨atom, ha, hc⟩ => h atom ha hc⟩
  refine Prog.Ensures.ofOption hu ?_
  unfold outsideInhabited
  split
  next hnever =>
    -- without negatives, or with empty ones only, a value of `pos` will do
    obtain ⟨v, hv⟩ := Set.nonempty_iff_ne_empty.mpr hne
    refine iff_of_true rfl ⟨v, hv, (hout v).mp ?_⟩
    rw [hnever, hx.den_never]
    exact Set.notMem_empty v
  next =>
    obtain ⟨d, hd, hdQ, hden⟩ := hx.diff hpos huQ
    refine Prog.Ensures.ofOption hd ((isEmpty_ensures hdQ).bind fun r hr => ?_)
    show (!r) = true ↔ _
    rw [Bool.not_eq_true', ← Bool.not_eq_true, hr, hden, ← Ne, ← Set.nonempty_iff_ne_empty]
    exact exists_congr fun v => and_congr_right fun _ => hout v

/-- A writable cell that allows all of `pos` is compared with each negative that is writable. -/
theorem cellMutLimitedInhabited_ensures (hx : ExactTypes den Q) {pos : SemType} (hpos : Q pos) :
    ∀ negList : List Atom, CellsOver Q negList →
    (cellMutLimitedInhabited pos negList).Ensures R Q (EmptyRight den) fun r =>
      r = true ↔ ∀ atom ∈ negList, ∀ c, cellAtomType atom = some c → c.mutability = .limited →
        ¬ den pos ⊆ den c.ty := by
  intro negList
  induction negList with
  | nil =>
    intro _
    exact iff_of_true rfl fun a ha => absurd ha List.not_mem_nil
  | cons atom negList ih =>
    intro hneg
    obtain ⟨c, hc, hm, hcQ⟩ := hneg atom (.head _ ..)
    have hrest := ih hneg.tail
    have hcons : (∀ a ∈ atom :: negList, ∀ c, cellAtomType a = some c → c.mutability = .limited →
        ¬ den pos ⊆ den c.ty) ↔ (c.mutability = .limited → ¬ den pos ⊆ den c.ty) ∧
          ∀ a ∈ negList, ∀ c, cellAtomType a = some c → c.mutability = .limited →
            ¬ den pos ⊆ den c.ty := by
      rw [List.forall_mem_cons]
      refine and_congr_left fun _ => ⟨fun h => h c hc, fun h c' hc' => ?_⟩
      rw [hc] at hc'
      cases hc'
      exact h
    rw [hcons]
    unfold cellMutLimitedInhabited
    refine Prog.Ensures.ofOption hc ?_
    split
    next hlimited =>
      have hlimited' : c.mutability = .limited := hlimited.resolve_right hm
      obtain ⟨d, hd, hdQ, hden⟩ := hx.diff hpos hcQ
      refine Prog.Ensures.ofOption hd ((isEmpty_ensures hdQ).bind fun r hr => ?_)
      rw [hden, Set.sdiff_eq_empty] at hr
      cases r with
      | true => exact iff_of_false (fun h => by cases h) fun h => h.1 hlimited' (hr.mp rfl)
      | false =>
        refine hrest.imp fun r' hr' => ?_
        rw [hr']
        exact ⟨fun h => ⟨fun _ hsub => absurd (hr.mpr hsub) Bool.false_ne_true, h⟩, fun h => h.2⟩
    next hnone =>
      refine hrest.imp fun r hr => ?_
      rw [hr]
      exact ⟨fun h => ⟨fun hlimited => absurd (.inl hlimited) hnone, h⟩, fun h => h.2⟩

/-! ## Both -/

omit [BddIdentity] in
/-- The cells of a writable type that are in no negative: if there is any, then the cell that
allows everything is one. -/
theorem exists_writable_iff {pos : CellAtomicType} (hm : pos.mutability = .limited)
    (hne : den pos.ty ≠ ∅) (hneg : CellsOver Q negList) :
    (∃ x, pos.Contains den x ∧ ∀ atom ∈ negList, ¬ CellContains den x atom) ↔
      ∀ atom ∈ negList, ∀ c, cellAtomType atom = some c → c.mutability = .limited →
        ¬ den pos.ty ⊆ den c.ty := by
  refine ⟨fun ⟨x, hx, havoid⟩ atom ha c hc hlimited hsub => ?_, fun h => ?_⟩
  · refine havoid atom ha ((cellContains_iff hc).mpr ?_)
    cases x with
    | readOnly v => exact hsub hx
    | writable storable hstorable => exact ⟨hlimited, hx.2.trans hsub⟩
  · refine ⟨.writable (den pos.ty) (Set.nonempty_iff_ne_empty.mpr hne), ⟨hm, subset_rfl⟩, ?_⟩
    intro atom ha hcontains
    obtain ⟨c, hc, _, _⟩ := hneg atom ha
    have hcontains' := (cellContains_iff hc).mp hcontains
    exact h atom ha c hc hcontains'.1 hcontains'.2

theorem cellInhabited_ensures (hx : ExactTypes den Q) {pos : CellAtomicType}
    (hm : pos.mutability ≠ .unlimited) (hpos : Q pos.ty) (hneg : CellsOver Q negList) :
    (cellInhabited pos negList).Ensures R Q (EmptyRight den) fun r =>
      r = true ↔ ∃ x, pos.Contains den x ∧ ∀ atom ∈ negList, ¬ CellContains den x atom := by
  unfold cellInhabited
  refine (isEmpty_ensures hpos).bind fun r hr => ?_
  cases r with
  | true =>
    refine iff_of_false (fun h => by cases h) fun ⟨x, hcontains, _⟩ => ?_
    have hempty := hr.mp rfl
    cases x with
    | readOnly v =>
      have hv : v ∈ den pos.ty := hcontains
      rw [hempty] at hv
      exact hv
    | writable storable hstorable =>
      obtain ⟨v, hv⟩ := hstorable
      have hv' := hcontains.2 hv
      rw [hempty] at hv'
      exact hv'
  | false =>
    have hne : den pos.ty ≠ ∅ := fun h => Bool.false_ne_true (hr.mpr h)
    obtain ⟨ty, mutability⟩ := pos
    cases mutability with
    | unlimited => exact absurd rfl hm
    | limited =>
      refine (cellMutLimitedInhabited_ensures hx hpos negList hneg).imp fun r hr => ?_
      exact hr.trans (exists_writable_iff rfl hne hneg).symm
    | none =>
      refine (cellMutNoneInhabited_ensures hx hpos hne hneg).imp fun r hr => ?_
      refine hr.trans ⟨fun ⟨v, hv, havoid⟩ => ⟨.readOnly v, hv, havoid⟩, fun ⟨x, hcontains, havoid⟩ => ?_⟩
      cases x with
      | readOnly v => exact ⟨v, hcontains, havoid⟩
      | writable storable _ => exact absurd hcontains.1 (fun h => by cases h)

theorem cellFormulaIsEmpty_ensures (hx : ExactTypes den Q) {posList : List Atom} (hne : posList ≠ [])
    (hpos : CellsOver Q posList) (hneg : CellsOver Q negList) :
    (cellFormulaIsEmpty posList negList).Ensures R Q (EmptyRight den) fun r =>
      r = true ↔ ¬ ∃ x : CellValue V, (∀ atom ∈ posList, CellContains den x atom) ∧
        ∀ atom ∈ negList, ¬ CellContains den x atom := by
  cases posList with
  | nil => exact absurd rfl hne
  | cons atom posList =>
    obtain ⟨c, hc, hcm, hcQ⟩ := hpos atom (.head _ ..)
    obtain ⟨combined, hcombined, hm, hQ, hcontains⟩ := combineCells_exact hx posList c hpos.tail hcm hcQ
    have hcast : (do combineCells posList (← cellAtomType atom)) = some combined := by
      rw [hc]
      exact hcombined
    unfold cellFormulaIsEmpty
    refine Prog.Ensures.ofOption hcast ((cellInhabited_ensures hx hm hQ hneg).bind fun r hr => ?_)
    show (!r) = true ↔ _
    rw [Bool.not_eq_true', ← Bool.not_eq_true, hr]
    refine not_congr (exists_congr fun x => and_congr_left fun _ => ?_)
    rw [hcontains, List.forall_mem_cons, cellContains_iff hc]

/-- The emptiness of a conjunction of cell atoms is decided exactly, whatever state the environment
and the memo tables are in. -/
theorem cellFormulaIsEmpty_exact {S : Type} (hx : ExactTypes den Q)
    {intern : CellAtomicType → S → TypeAtom × S} {memo : BddIsEmpty → S → Outcome S Bool}
    {call : SemType → S → Outcome S Bool}
    (hcall : ∀ t s, Q t → ∃ b s', call t s = .done b s' ∧ EmptyRight den t b)
    {posList negList : List Atom} (hne : posList ≠ []) (hpos : CellsOver Q posList)
    (hneg : CellsOver Q negList) (s : S) :
    ∃ r s', (cellFormulaIsEmpty posList negList).exec intern memo call s = .done r s' ∧
      (r = true ↔ ¬ ∃ x : CellValue V, (∀ atom ∈ posList, CellContains den x atom) ∧
        ∀ atom ∈ negList, ¬ CellContains den x atom) :=
  (cellFormulaIsEmpty_ensures (R := fun _ _ => True) hx hne hpos hneg).exec (fun _ _ => trivial)
    hcall s

end Exact

/-- A writable cell of `int|string` against a read-only cell of `int` and a writable one of
`string`. -/
theorem cellFormulaIsEmpty_exact_int_string :
    let _ := BddIdentity.shared
    let INT := basicType BT_INT
    let pos := [Atom.typeAtom 12 (.cell (.bits (INT ||| STRING)) .limited)]
    let neg := [Atom.typeAtom 13 (.cell (.bits INT) .none),
      Atom.typeAtom 14 (.cell (.bits STRING) .limited)]
    ∃ r s', (cellFormulaIsEmpty pos neg).exec (fun c s => (⟨12, c.toAtomicType⟩, s))
        (fun _ _ => .panic) bitsIsEmpty () = .done r s' ∧
      (r = true ↔ ¬ ∃ x : CellValue BasicTypeCode, (∀ atom ∈ pos, CellContains bitsDen x atom) ∧
        ∀ atom ∈ neg, ¬ CellContains bitsDen x atom) := by
  intro _ INT pos neg
  have hover : ∀ i b (m : CellMutability), m ≠ .unlimited → ∀ atom ∈ [Atom.typeAtom i (.cell (.bits b) m)],
      ∃ c, cellAtomType atom = some c ∧ c.mutability ≠ .unlimited ∧ IsBits c.ty := by
    intro i b m hm atom hatom
    rw [List.mem_singleton.mp hatom]
    exact ⟨⟨.bits b, m⟩, rfl, hm, isBits b⟩
  refine cellFormulaIsEmpty_exact exactTypes_bits
    (fun t s _ => emptyRight_bitsIsEmpty t s) (List.cons_ne_nil _ _)
    (hover 12 _ .limited (by decide)) (fun atom hatom => ?_) ()
  rcases List.mem_cons.mp hatom with rfl | hatom
  · exact hover 13 INT .none (by decide) _ (List.mem_singleton.mpr rfl)
  · exact hover 14 STRING .limited (by decide) atom hatom

end Nballerina.Types
