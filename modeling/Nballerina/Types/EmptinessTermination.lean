import Nballerina.Types.EmptinessScope

/-!
# Queries terminate

`Env.Built` says which semtypes are made in an `Env`: from its atoms, with the
operations of the module. Each is a combination of finitely many atoms
(`Env.Built.combination`), and so is everything in the tables of an `Env` that was
itself made from such semtypes (`Env.Covered`, kept by every operation). With
`emptiness_bounded` this gives a bound on the depth of a query.

Nothing is assumed about which atoms compare equal: the argument only counts `Bdd`s.
-/

namespace Nballerina.Types

open Nballerina.Lib Relation

/-! ## The atoms of an environment -/

/-- The constants, the atoms of the tables, and the numbers in `D` (of distinct error
types) as atoms. -/
def Env.atoms (env : Env) (D : Finset Int) : Finset Atom :=
  (BDD_REC_ATOM_READONLY :: predefinedAtoms ++ env.atomTable.map TypeAtom.toAtom).toFinset ∪
    (Finset.range (env.recListAtoms.length + env.recMappingAtoms.length +
      env.recFunctionAtoms.length)).image (fun i : Nat => Atom.recAtom i) ∪
    D.image Atom.recAtom

section Atoms

variable {env env' : Env} {D D' : Finset Int} {a : Atom}

theorem Env.mem_atoms : a ∈ env.atoms D ↔ a = BDD_REC_ATOM_READONLY ∨ a ∈ predefinedAtoms ∨
    (∃ ta ∈ env.atomTable, ta.toAtom = a) ∨
    (∃ i < env.recListAtoms.length + env.recMappingAtoms.length + env.recFunctionAtoms.length,
      Atom.recAtom (i : Nat) = a) ∨ ∃ i ∈ D, Atom.recAtom i = a := by
  simp only [Env.atoms, Finset.mem_union, List.mem_toFinset, List.cons_append, List.mem_cons,
    List.mem_append, List.mem_map, Finset.mem_image, Finset.mem_range, or_assoc]

theorem Env.atoms_mono (h : env.Extends env') (hD : D ⊆ D') : env.atoms D ⊆ env'.atoms D' := by
  intro a ha
  rw [Env.mem_atoms] at ha ⊢
  rcases ha with ha | ha | ⟨ta, hta, ha⟩ | ⟨i, hi, ha⟩ | ⟨i, hi, ha⟩
  · exact .inl ha
  · exact .inr (.inl ha)
  · exact .inr (.inr (.inl ⟨ta, h.atomTable ta hta, ha⟩))
  · have := h.recList
    have := h.recMapping
    have := h.recFunction
    exact .inr (.inr (.inr (.inl ⟨i, by omega, ha⟩)))
  · exact .inr (.inr (.inr (.inr ⟨i, hD hi, ha⟩)))

theorem Env.predefined_mem (env : Env) (D : Finset Int) (h : a ∈ predefinedAtoms) :
    a ∈ env.atoms D :=
  Env.mem_atoms.mpr (.inr (.inl h))

theorem Env.readonly_mem (env : Env) (D : Finset Int) : BDD_REC_ATOM_READONLY ∈ env.atoms D :=
  Env.mem_atoms.mpr (.inl rfl)

/-- Any atom of the `Env` is one of finitely many, with one more number if need be. -/
theorem Env.Direct.mem_atoms {kind : AtomKind} (h : env.Direct kind a) :
    ∃ D, a ∈ env.atoms D := by
  cases h with
  | predefined h => exact ⟨∅, env.predefined_mem ∅ h⟩
  | interned h => exact ⟨∅, Env.mem_atoms.mpr (.inr (.inr (.inl ⟨_, h, rfl⟩)))⟩
  | @allocated i _ h =>
    exact ⟨{i}, Env.mem_atoms.mpr
      (.inr (.inr (.inr (.inr ⟨i, Finset.mem_singleton_self i, rfl⟩))))⟩

end Atoms

/-! ## The constants -/

section Constants

variable {A : Finset Atom} {r : Nat}

/-- The semtype of a cell atom. -/
theorem Combination.cell {ty : SemType} (h : Combination A r ty) (i : Int) (m : CellMutability) :
    Combination A (r + 1) (cellSemType (.typeAtom i (.cell ty m))) := by
  refine Combination.atom fun kind hk => ?_
  cases hk
  intro c hc
  cases hc
  exact h

theorem Combination.ofEntries {all : BasicTypeBitSet}
    {L : List (BasicTypeCode × ProperSubtypeData)} (hs : SortedCodes L)
    (hd : ∀ e ∈ L, all.getLsbD e.1.val = false)
    (h : ∀ e ∈ L, DataOver (CombinationAtom A (Combination A r)) e.1 e.2) :
    Combination A (r + 1) (.complex (createComplexSemType all L)) := by
  refine ⟨createComplexSemType_wf hs hd, fun e he => h e ?_⟩
  have hentries : (SemTypeOf.complex (createComplexSemType all L)).entries = L := by
    show (codesOf (createComplexSemType all L).some).zip (L.map (·.2)) = L
    rw [codesOf_createComplexSemType all hs]
    exact (List.zip_of_prod rfl rfl).symm
  rwa [hentries] at he

theorem dataOver_atom {ok : AtomKind → Atom → Prop} {c : BasicTypeCode} {a : Atom}
    (h : ∀ kind, codeKind c = some kind → ok kind a) :
    DataOver ok c (.bddNode a (.leaf true) (.leaf false) (.leaf false)) := by
  intro kind hk b hb
  cases hb
  exact .bddAtom (h kind hk)

theorem combination_innerReadonly (h : BDD_REC_ATOM_READONLY ∈ A) (h' : ATOM_LIST_MAPPING_RO ∈ A) :
    Combination A 1 INNER_READONLY := by
  refine Combination.ofEntries (by simp [SortedCodes, readonlySubtypes]; decide)
    (by decide) fun e he => ?_
  simp only [readonlySubtypes, List.mem_cons, List.not_mem_nil, or_false] at he
  rcases he with rfl | rfl | rfl | rfl
  · refine dataOver_atom fun kind hk => ?_
    cases hk
    exact h
  · refine dataOver_atom fun kind hk => ?_
    cases hk
    exact h
  · refine dataOver_atom fun kind hk => ?_
    cases hk
    exact h'
  · intro kind hk
    cases hk

theorem combination_mappingReadonly (h : BDD_REC_ATOM_READONLY ∈ A) :
    Combination A 1 (.complex ⟨UNDEF, MAPPING,
      [.bddNode BDD_REC_ATOM_READONLY (.leaf true) (.leaf false) (.leaf false)]⟩) := by
  have hcomplex : Combination A 1 (.complex (createComplexSemType UNDEF
      [(BT_MAPPING, .bddNode BDD_REC_ATOM_READONLY (.leaf true) (.leaf false) (.leaf false))])) := by
    refine Combination.ofEntries (List.pairwise_singleton _ _) (by decide) fun e he => ?_
    cases List.mem_singleton.mp he
    refine dataOver_atom fun kind hk => ?_
    cases hk
    exact h
  exact hcomplex

/-- The constants are made of each other. -/
theorem combination_predefined (hA : ∀ a ∈ predefinedAtoms, a ∈ A)
    (hro : BDD_REC_ATOM_READONLY ∈ A) {i : Int} {t : AtomicType}
    (ht : .typeAtom i t ∈ predefinedAtoms) : AllIn A 2 t.semTypes := by
  have hmapping : Combination A 1 MAPPING_SEMTYPE_OBJECT_MEMBER := by
    refine Combination.atom fun kind hk => ?_
    cases hk
    exact hA _ (by simp [predefinedAtoms])
  have hinner := combination_innerReadonly hro (hA _ (by simp [predefinedAtoms]))
  have hmro := combination_mappingReadonly hro
  have hbits (b : BasicTypeBitSet) (r : Nat) := Combination.bits A b r
  simp only [predefinedAtoms, List.mem_cons, List.not_mem_nil, or_false] at ht
  rcases ht with h | h | h | h | h | h | h | h | h | h | h | h
  all_goals cases h
  · exact List.forall_mem_singleton.mpr (hbits _ _)
  · exact List.forall_mem_singleton.mpr (hbits _ _)
  · exact List.forall_mem_singleton.mpr (hbits _ _)
  · exact List.forall_mem_singleton.mpr (hbits _ _)
  · exact List.forall_mem_singleton.mpr (Combination.cell (hbits _ _) _ _)
  · exact List.forall_mem_singleton.mpr (hmro.mono (Finset.Subset.refl A) (by omega))
  · exact List.forall_mem_singleton.mpr (hmro.cell _ _)
  · exact List.forall_mem_singleton.mpr (hinner.mono (Finset.Subset.refl A) (by omega))
  · exact List.forall_mem_singleton.mpr (hmapping.cell _ _)
  · refine List.forall_mem_cons.mpr ⟨Combination.cell (hbits _ _) _ _, ?_⟩
    refine List.forall_mem_cons.mpr ⟨Combination.cell (hbits _ _) _ _, ?_⟩
    exact List.forall_mem_singleton.mpr (Combination.cell (hbits _ _) _ _)
  · exact List.forall_mem_singleton.mpr (hmapping.mono (Finset.Subset.refl A) (by omega))
  · exact List.forall_mem_singleton.mpr (hbits _ _)

end Constants

/-! ## The tables -/

/-- What the tables hold is made of the atoms of the `Env` and the numbers in `D`. -/
structure Env.Covered (env : Env) (D : Finset Int) (r : Nat) : Prop where
  interned : ∀ ta ∈ env.atomTable, AllIn (env.atoms D) r ta.atomicType.semTypes
  recList : ∀ t, some t ∈ env.recListAtoms → AllIn (env.atoms D) r t.toAtomicType.semTypes
  recMapping : ∀ t, some t ∈ env.recMappingAtoms → AllIn (env.atoms D) r t.toAtomicType.semTypes
  recFunction : ∀ t, some t ∈ env.recFunctionAtoms → AllIn (env.atoms D) r t.toAtomicType.semTypes

section Tables

variable {env env' : Env} {D D' : Finset Int} {r r' : Nat}

theorem Env.hasConstants (env : Env) (D : Finset Int) : HasConstants (env.atoms D) :=
  ⟨env.readonly_mem D, env.predefined_mem D (by simp [predefinedAtoms]),
    env.predefined_mem D (by simp [predefinedAtoms])⟩

theorem AllIn.mono {A B : Finset Atom} (hA : A ⊆ B) (hr : r ≤ r') {ts : List SemType}
    (h : AllIn A r ts) : AllIn B r' ts :=
  fun t ht => (h t ht).mono hA hr

variable {kind : AtomKind} {t : AtomicType}

theorem Env.predefined_allIn (env : Env) (D : Finset Int) {i : Int}
    (ht : .typeAtom i t ∈ predefinedAtoms) : AllIn (env.atoms D) 2 t.semTypes :=
  combination_predefined (fun _ ha => env.predefined_mem D ha) (env.readonly_mem D) ht

/-- A `TypeAtom` stands for its own atomic type or for nothing. -/
theorem Env.eq_of_atomType {i : Int} {u : AtomicType} (h : env.atomType kind (.typeAtom i t) = some u) :
    u = t := by
  cases kind <;> cases t <;> cases h <;> rfl

/-- The members of an atom that is a constant, interned, or recursive. -/
theorem Env.Covered.member (h : env.Covered D r) (hr : 2 ≤ r) {a : Atom}
    (ht : env.atomType kind a = some t)
    (ha : a ∈ predefinedAtoms ∨ (∃ ta ∈ env.atomTable, ta.toAtom = a) ∨ ∃ i, a = .recAtom i) :
    AllIn (env.atoms D) r t.semTypes := by
  cases a with
  | typeAtom i u =>
    cases env.eq_of_atomType ht
    rcases ha with ha | ⟨ta, hta, ha⟩ | ⟨i, ha⟩
    · exact (env.predefined_allIn D ha).mono (Finset.Subset.refl _) hr
    · cases ha
      exact h.interned ta hta
    · cases ha
  | recAtom i =>
    cases kind with
    | list =>
      obtain ⟨l, hl, rfl⟩ := Option.map_eq_some_iff.mp ht
      exact h.recList l (Env.getRecAtomType_mem hl)
    | mapping =>
      obtain ⟨l, hl, rfl⟩ := Option.map_eq_some_iff.mp ht
      exact h.recMapping l (Env.getRecAtomType_mem hl)
    | cell => cases ht
    | function =>
      obtain ⟨l, hl, rfl⟩ := Option.map_eq_some_iff.mp ht
      exact h.recFunction l (Env.getRecAtomType_mem hl)

theorem Env.Covered.closed (h : env.Covered D r) (hr : 2 ≤ r) : ClosedEnv env (env.atoms D) r where
  constants := env.hasConstants D
  members {kind a t} ha ht := by
    refine h.member hr ht ?_
    rcases Env.mem_atoms.mp ha with ha | ha | ha | ⟨i, -, ha⟩ | ⟨i, -, ha⟩
    · exact .inr (.inr ⟨_, ha⟩)
    · exact .inl ha
    · exact .inr (.inl ha)
    · exact .inr (.inr ⟨_, ha.symm⟩)
    · exact .inr (.inr ⟨_, ha.symm⟩)

theorem Env.Covered.direct (h : env.Covered D r) (hr : 2 ≤ r) {a : Atom} (ha : env.Direct kind a)
    (ht : env.atomType kind a = some t) :
    AllIn (env.atoms D) r t.semTypes := by
  cases ha with
  | predefined ha => exact h.member hr ht (.inl ha)
  | interned ha => exact h.member hr ht (.inr (.inl ⟨_, ha, rfl⟩))
  | allocated _ => exact h.member hr ht (.inr (.inr ⟨_, rfl⟩))

/-- A new `Env`. -/
theorem Env.init_covered : init.Covered ∅ 2 := by
  have hro : AllIn (init.atoms ∅) 2 [CELL_SEMTYPE_INNER_RO] :=
    List.forall_mem_singleton.mpr (Combination.cell (combination_innerReadonly
      (init.readonly_mem ∅) (init.predefined_mem ∅ (by simp [predefinedAtoms]))) _ _)
  refine ⟨fun ta hta => init.predefined_allIn ∅ (init_mem hta), fun t ht => ?_, fun t ht => ?_,
    fun t ht => ?_⟩
  · rw [init_recAtoms.1] at ht
    cases Option.some.inj (List.mem_singleton.mp ht)
    exact hro
  · rw [init_recAtoms.2.1] at ht
    cases Option.some.inj (List.mem_singleton.mp ht)
    exact hro
  · rw [init_recAtoms.2.2] at ht
    cases ht

end Tables

/-! ## Semtypes made in an environment -/

section Built

variable [BddIdentity]

/-- The semtypes made in an `Env`. The data of a basic type may be used for another one
of the same kind: tables are made from lists, objects and error types from mappings. -/
inductive Env.Built (env : Env) : SemType → Prop where
  | bits (b : BasicTypeBitSet) : Built env (.bits b)
  | simple {c : BasicTypeCode} (d : ProperSubtypeData) : codeKind c = none →
      Built env (basicSubtype c d)
  | atom {c : BasicTypeCode} {kind : AtomKind} {a : Atom} : codeKind c = some kind →
      env.Direct kind a → Built env (atomSemType c a)
  | recast {c c' : BasicTypeCode} {t : SemType} {d : ProperSubtypeData} : Built env t →
      subtypeData t c = some (.proper d) → codeKind c = codeKind c' →
      Built env (basicSubtype c' d)
  | member {kind : AtomKind} {a : Atom} {t : AtomicType} {s : SemType} : env.Direct kind a →
      env.atomType kind a = some t → s ∈ t.semTypes → Built env s
  | union {t1 t2 t : SemType} : Built env t1 → Built env t2 → Types.union ops t1 t2 = some t →
      Built env t
  | intersect {t1 t2 t : SemType} : Built env t1 → Built env t2 →
      Types.intersect ops t1 t2 = some t → Built env t
  | diff {t1 t2 t : SemType} : Built env t1 → Built env t2 → Types.diff ops t1 t2 = some t →
      Built env t

variable {env : Env} {D : Finset Int} {r : Nat}

/-- A combination of the atoms of the `Env` and finitely many numbers. -/
def Env.Combined (env : Env) (t : SemType) : Prop := ∃ D r, Combination (env.atoms D) r t

omit [BddIdentity] in
/-- Finitely many combinations are so over the same numbers and at the same rank. -/
theorem Env.combined_all (D : Finset Int) (r : Nat) : ∀ {ts : List SemType},
    (∀ t ∈ ts, env.Combined t) → ∃ D' r', D ⊆ D' ∧ r ≤ r' ∧ AllIn (env.atoms D') r' ts
  | [], _ => ⟨D, r, Finset.Subset.refl D, Nat.le_refl r, fun t ht => by cases ht⟩
  | t :: ts, h => by
    obtain ⟨⟨D1, r1, h1⟩, hts⟩ := List.forall_mem_cons.mp h
    obtain ⟨D2, r2, hD, hr, h2⟩ := Env.combined_all D r hts
    have hsub1 : env.atoms D1 ⊆ env.atoms (D1 ∪ D2) :=
      Env.atoms_mono env.extends_refl Finset.subset_union_left
    have hsub2 : env.atoms D2 ⊆ env.atoms (D1 ∪ D2) :=
      Env.atoms_mono env.extends_refl Finset.subset_union_right
    refine ⟨D1 ∪ D2, max r1 r2, hD.trans Finset.subset_union_right, hr.trans (Nat.le_max_right _ _),
      List.forall_mem_cons.mpr ⟨h1.mono hsub1 (Nat.le_max_left _ _), ?_⟩⟩
    exact h2.mono hsub2 (Nat.le_max_right _ _)

omit [BddIdentity] in
theorem Env.Combined.both {t1 t2 : SemType} (h1 : env.Combined t1) (h2 : env.Combined t2) :
    ∃ D r, Combination (env.atoms D) r t1 ∧ Combination (env.atoms D) r t2 := by
  obtain ⟨D, r, -, -, h⟩ := Env.combined_all ∅ 0
    (List.forall_mem_cons.mpr ⟨h1, List.forall_mem_singleton.mpr h2⟩)
  exact ⟨D, r, h t1 (.head _), h t2 (.tail _ (.head _))⟩

/-- Every semtype made in the `Env` is a combination. -/
theorem Env.Built.combined (h : env.Covered D r) (hr : 2 ≤ r) {t : SemType} (ht : env.Built t) :
    env.Combined t := by
  induction ht with
  | bits b => exact ⟨∅, 0, Combination.bits _ b 0⟩
  | simple d hc =>
    refine ⟨∅, 1, over_basicSubtype fun kind hk => ?_⟩
    rw [hc] at hk
    cases hk
  | @atom c kind a hc ha =>
    obtain ⟨D', hD'⟩ := ha.mem_atoms
    cases kind with
    | cell =>
      -- the content of the cell is a member of its atom
      refine ⟨D, r + 1, Combination.atom fun kind hk => ?_⟩
      cases hc.symm.trans hk
      intro c hc
      have hcell : env.atomType .cell a = some c.toAtomicType := by simp [Env.atomType, hc]
      exact h.direct hr ha hcell c.ty (List.mem_singleton_self c.ty)
    | list | mapping | function =>
      refine ⟨D', 1, Combination.atom fun kind hk => ?_⟩
      cases hc.symm.trans hk
      exact hD'
  | @recast c c' t d _ hd hc ih =>
    obtain ⟨D, r, ht⟩ := ih
    have ht : Combination (env.atoms D) (r + 1) t := ht.mono (Finset.Subset.refl _) (Nat.le_succ r)
    obtain ⟨r', hat, hr'⟩ := atCode ht.wf c
    cases hd.symm.trans hr'
    cases hat with
    | part _ _ hl =>
      refine ⟨D, r + 1, over_basicSubtype fun kind hk => ?_⟩
      exact valid_of_lookup ht.wf ht.valid hl kind (hc.trans hk)
  | member ha ht hs => exact ⟨D, r, h.direct hr ha ht _ hs⟩
  | union _ _ heq ih1 ih2 =>
    obtain ⟨D, r, h1, h2⟩ := ih1.both ih2
    exact ⟨D, r, h1.union (env.hasConstants D) h2 heq⟩
  | intersect _ _ heq ih1 ih2 =>
    obtain ⟨D, r, h1, h2⟩ := ih1.both ih2
    exact ⟨D, r, h1.intersect (env.hasConstants D) h2 heq⟩
  | diff _ _ heq ih1 ih2 =>
    obtain ⟨D, r, h1, h2⟩ := ih1.both ih2
    exact ⟨D, r, h1.diff (env.hasConstants D) h2 heq⟩

/-! ## Runs -/

/-- The semtypes an operation is given are made in the `Env`. -/
def TypeOp.BuiltArgs (env : Env) (op : TypeOp) : Prop := ∀ t ∈ op.args, env.Built t

/-- Every operation of a run is given semtypes made in the `Env` it runs in. -/
def BuiltRun (env : Env) (ops : List TypeOp) : Prop :=
  ∀ (n : Nat) (op : TypeOp), ops[n]? = some op → op.BuiltArgs (runOps env (ops.take n))

omit [BddIdentity] in
theorem Env.extends_typeAtom (env : Env) (t : AtomicType) : env.Extends (env.typeAtom t).2 := by
  by_cases hmem : ∃ ta ∈ env.atomTable, ta.atomicType = t
  · rw [Env.typeAtom_of_mem hmem]
    exact env.extends_refl
  · rw [Env.typeAtom_of_new fun ta hta heq => hmem ⟨ta, hta, heq⟩]
    exact ⟨fun ta hta => List.mem_append_left _ hta, Nat.le_refl _, Nat.le_refl _, Nat.le_refl _⟩

omit [BddIdentity] in
/-- Interning an atomic type made of combinations. -/
theorem Env.Covered.typeAtom (h : env.Covered D r) {t : AtomicType}
    (ht : AllIn (env.atoms D) r t.semTypes) : (env.typeAtom t).2.Covered D r := by
  have hsub : env.atoms D ⊆ (env.typeAtom t).2.atoms D :=
    Env.atoms_mono (env.extends_typeAtom t) (Finset.Subset.refl D)
  by_cases hmem : ∃ ta ∈ env.atomTable, ta.atomicType = t
  · rwa [Env.typeAtom_of_mem hmem]
  · rw [Env.typeAtom_of_new fun ta hta heq => hmem ⟨ta, hta, heq⟩] at hsub ⊢
    refine ⟨fun ta hta => ?_, fun u hu => (h.recList u hu).mono hsub (Nat.le_refl r),
      fun u hu => (h.recMapping u hu).mono hsub (Nat.le_refl r),
      fun u hu => (h.recFunction u hu).mono hsub (Nat.le_refl r)⟩
    rcases List.mem_append.mp hta with hta | hta
    · exact (h.interned ta hta).mono hsub (Nat.le_refl r)
    · cases List.mem_singleton.mp hta
      exact ht.mono hsub (Nat.le_refl r)

omit [BddIdentity] in
/-- Allocating or defining a recursive atom, with combinations as arguments. -/
theorem Env.Covered.recStep (h : env.Covered D r) {env' : Env} {args : List SemType}
    (hs : env.RecStep args env') (hargs : AllIn (env.atoms D) r args) : env'.Covered D r := by
  have hsub : env.atoms D ⊆ env'.atoms D := Env.atoms_mono hs.grown (Finset.Subset.refl D)
  have hnew : ∀ t : AtomicType, t.semTypes ⊆ args → AllIn (env'.atoms D) r t.semTypes :=
    fun t ht u hu => (hargs u (ht hu)).mono hsub (Nat.le_refl r)
  refine ⟨fun ta hta => ?_, fun t ht => ?_, fun t ht => ?_, fun t ht => ?_⟩
  · rw [hs.atomTable] at hta
    exact (h.interned ta hta).mono hsub (Nat.le_refl r)
  · rcases hs.recList ht with ht | ht
    · exact (h.recList t ht).mono hsub (Nat.le_refl r)
    · exact hnew _ ht
  · rcases hs.recMapping ht with ht | ht
    · exact (h.recMapping t ht).mono hsub (Nat.le_refl r)
    · exact hnew _ ht
  · rcases hs.recFunction ht with ht | ht
    · exact (h.recFunction t ht).mono hsub (Nat.le_refl r)
    · exact hnew _ ht

omit [BddIdentity] in
theorem Env.Covered.mono {D' : Finset Int} {r' : Nat} (h : env.Covered D r) (hD : D ⊆ D')
    (hr : r ≤ r') : env.Covered D' r' := by
  have hsub := Env.atoms_mono env.extends_refl hD
  exact ⟨fun ta hta => (h.interned ta hta).mono hsub hr, fun t ht => (h.recList t ht).mono hsub hr,
    fun t ht => (h.recMapping t ht).mono hsub hr, fun t ht => (h.recFunction t ht).mono hsub hr⟩

/-- One operation. -/
theorem TypeOp.apply_covered (h : env.Covered D r) (hr : 2 ≤ r) {op : TypeOp}
    (hop : op.BuiltArgs env) : ∃ D' r', 2 ≤ r' ∧ (op.apply env).Covered D' r' := by
  obtain ⟨D', r', hD, hr', hargs⟩ := Env.combined_all D r fun t ht => (hop t ht).combined h hr
  have h' := h.mono hD hr'
  refine ⟨D', r', hr.trans hr', ?_⟩
  rcases TypeOp.apply_cases env op with ⟨t, -, ht, heq⟩ | ⟨-, hs⟩
  · rw [heq]
    exact h'.typeAtom fun s hs => hargs s (ht hs)
  · exact h'.recStep hs hargs

/-- A whole run. -/
theorem runOps_covered : ∀ (ops : List TypeOp) {env : Env}, (∃ D r, 2 ≤ r ∧ env.Covered D r) →
    BuiltRun env ops → ∃ D r, 2 ≤ r ∧ (runOps env ops).Covered D r
  | [], _, h, _ => h
  | op :: ops, env, ⟨D, r, hr, h⟩, hrun => by
    refine runOps_covered ops (TypeOp.apply_covered h hr (hrun 0 op rfl)) fun n op' hn => ?_
    exact hrun (n + 1) op' hn

/-! ## The theorem -/

/-- A context on the `Env` with no query in progress. -/
abbrev AtRest (env : Env) (cx : Context) : Prop :=
  Idle (emptiness env) env Set.univ Set.univ cx

/-- The query returns or panics from every context at rest, given enough fuel, and leaves
a context at rest; all the `Bdd`s it can ask for are in a finite set. -/
structure QueryTerminates (env : Env) (q : EmptyQuery) : Prop where
  bounded : ∃ (P : BddIsEmpty → Prop) (C : Nat → SemType → Prop) (maxRank : Nat)
    (K : Finset (MemoTable × Bdd)), Bounded (emptiness env) env P C maxRank K ∧
      q.prog.Within ((emptiness env).Named env) P (fun t => ∃ r, C r t) fun _ => True
  terminates : ∃ fuel0, ∀ fuel ≥ fuel0, ∀ cx, AtRest env cx →
    (emptiness env).runProg fuel q.prog cx ≠ .timeout
  atRest : ∀ fuel cx b cx', AtRest env cx →
    (emptiness env).runProg fuel q.prog cx = .done b cx' → AtRest env cx'

/-- A program over combinations, run from a context at rest. -/
theorem queryTerminates_of_inScope {A : Finset Atom} (h : ClosedEnv env A (r + 1)) {q : EmptyQuery}
    {n : Nat} (hq : InScope A n q.prog fun _ => True) : QueryTerminates env q := by
  obtain ⟨K, hb⟩ := emptiness_bounded h
  have hstable := emptiness_stable env
  have hw : q.prog.Within ((emptiness env).Named env) (fun p => p.key.2.OrderedOver (· ∈ A))
      (Combination A n) fun _ => True :=
    hq.of_names fun _ _ => named_atomicType
  have hw' := hw.mono fun t (ht : Combination A n t) => (⟨n, ht⟩ : ∃ r, Combination A r t)
  refine ⟨⟨_, _, r + 1, K, hb, hw'⟩, ⟨budget (r + 1) K.card + n + 1, ?_⟩, ?_⟩
  · intro fuel hfuel cx hcx
    have hopen : Open (emptiness env) env K K.card cx := .inr ⟨hcx, Nat.le_refl _⟩
    have hfuel : budget (r + 1) K.card + n + 1 ≤ fuel := hfuel
    refine runProg_ne_timeout hstable hb (fun t ht => ⟨n, ht⟩) (fun p cx hp ho => ?_)
      (fun t cx ht ho => ?_) _ cx hw hopen
    · exact (run_ne_timeout hstable hb fuel _ cx ho).1 p hp (by omega)
    · exact (run_ne_timeout hstable hb fuel _ cx ho).2 n t ht hfuel
  · intro fuel cx b cx' hcx heq
    exact (runProg_idle hstable hb.verdicts (call_idle hstable hb.verdicts fuel) _ hw' hcx heq).1

/-- In every `Env` made from semtypes that were made in it, ready or not, `isSubtype` and
`isEmpty` terminate on all semtypes made in it. -/
theorem isSubtype_isEmpty_terminate (ops : List TypeOp) (hrun : BuiltRun .init ops)
    {t1 t2 : SemType} (h1 : (runOps .init ops).Built t1) (h2 : (runOps .init ops).Built t2) :
    QueryTerminates (runOps .init ops) (.isSubtype t1 t2) ∧
      QueryTerminates (runOps .init ops) (.isEmpty t1) ∧
      QueryTerminates (runOps .init ops) (.isEmpty t2) := by
  obtain ⟨D, r, hr, hcov⟩ := runOps_covered ops ⟨∅, 2, Nat.le_refl 2, Env.init_covered⟩ hrun
  -- the atoms and the rank of both types and of the tables
  obtain ⟨D', r', hD, hr', hboth⟩ := Env.combined_all D r
    (List.forall_mem_cons.mpr
      ⟨h1.combined hcov hr, List.forall_mem_singleton.mpr (h2.combined hcov hr)⟩)
  have hc1 := hboth t1 (.head _)
  have hc2 := hboth t2 (.tail _ (.head _))
  have hclosed := (hcov.mono hD hr').closed (hr.trans hr')
  obtain ⟨n, rfl⟩ : ∃ n, r' = n + 1 := ⟨r' - 1, by omega⟩
  exact ⟨queryTerminates_of_inScope hclosed (inScope_isSubtype hclosed.constants hc1 hc2),
    queryTerminates_of_inScope hclosed (inScope_isEmpty hc1),
    queryTerminates_of_inScope hclosed (inScope_isEmpty hc2)⟩

end Built

/-! ## A recursive type -/

/-- `type R record {| R x; |};` as operations on a new `Env`. -/
def recursiveRecordOps : List TypeOp :=
  [.mappingGetSemType {},
   .cellContaining (atomSemType BT_MAPPING (.recAtom 1)) .limited,
   .mappingDefine ⟨some 1, some (atomSemType BT_MAPPING (.recAtom 1))⟩
     [("x", recursiveRecordCell)] CELL_SEMTYPE_NEVER]

theorem recursiveRecord_allocated {env : Env} (h : env.recMappingAtoms.length = 2) :
    env.Direct .mapping (.recAtom 1) := by
  refine .allocated ?_
  show (1 : Int).toNat < env.recMappingAtoms.length
  rw [h]
  decide

theorem recursiveRecord_interned :
    (runOps .init (recursiveRecordOps.take 2)).atomTable.map TypeAtom.toAtom =
      predefinedAtoms.take 8 ++
        [.typeAtom 8 (.cell (atomSemType BT_MAPPING (.recAtom 1)) .limited)] := by
  decide +kernel

theorem recursiveRecord_builtRun [BddIdentity] : BuiltRun .init recursiveRecordOps := by
  intro n op hn t ht
  match n with
  | 0 =>
    cases hn
    cases ht
  | 1 =>
    cases hn
    cases List.mem_singleton.mp ht
    exact .atom rfl (recursiveRecord_allocated rfl)
  | 2 =>
    cases hn
    rcases List.mem_cons.mp ht with rfl | ht
    · have hmem : Atom.typeAtom 8 (.cell (atomSemType BT_MAPPING (.recAtom 1)) .limited) ∈
          (runOps .init (recursiveRecordOps.take 2)).atomTable.map TypeAtom.toAtom := by
        rw [recursiveRecord_interned]
        exact List.mem_append_right _ (List.mem_singleton_self _)
      obtain ⟨⟨i, u⟩, hta, heq⟩ := List.mem_map.mp hmem
      cases heq
      exact .atom rfl (.interned hta)
    · cases List.mem_singleton.mp ht
      have hmem : ATOM_CELL_NEVER ∈ predefinedAtoms := by simp [predefinedAtoms]
      exact .atom rfl (.predefined hmem)
  | n + 3 => simp [recursiveRecordOps] at hn

/-- In a ready `Env` with a recursive definition, its type against `map<any|error>`. -/
theorem isSubtype_isEmpty_terminate_recursiveRecord :
    (runOps .init recursiveRecordOps).isReady = true ∧
    @BuiltRun .shared .init recursiveRecordOps ∧
    @QueryTerminates .shared (runOps .init recursiveRecordOps)
      (.isSubtype (atomSemType BT_MAPPING (.recAtom 1)) (.bits MAPPING)) ∧
    @QueryTerminates .shared (runOps .init recursiveRecordOps)
      (.isEmpty (atomSemType BT_MAPPING (.recAtom 1))) := by
  let _ := BddIdentity.shared
  have hR : (runOps .init recursiveRecordOps).Built (atomSemType BT_MAPPING (.recAtom 1)) := by
    refine .atom rfl (recursiveRecord_allocated ?_)
    simp only [recursiveRecordOps, runOps, List.foldl, TypeOp.apply, MappingDefinition.define]
    rfl
  have h := isSubtype_isEmpty_terminate recursiveRecordOps recursiveRecord_builtRun hR
    (.bits MAPPING)
  exact ⟨by decide +kernel, recursiveRecord_builtRun, h.1, h.2.1⟩

end Nballerina.Types
