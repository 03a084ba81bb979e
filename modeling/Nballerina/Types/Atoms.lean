import Nballerina.Types.BddOrder
import Nballerina.Types.Env

/-!
# What an atom stands for

The Bdd operations compare atoms by index only (`atomCmp`), so everything rests on
two atoms of one kind with the same index standing for the same atomic type. An
`Env` keeps this among its own atoms: an index is the position in `atomTable`. The
constants of `Ops.lean` have their indices from elsewhere, and `Env.init` only
reserves the first eight of them. The four constants of object types
(`ATOM_MAPPING_OBJECT`, `ATOM_MAPPING_OBJECT_MEMBER`, `ATOM_CELL_OBJECT_MEMBER`,
`ATOM_CELL_OBJECT_MEMBER_KIND`) have the indices 8 to 11, which the first types
defined in an `Env` get too.

`coherent_run_iff` says exactly when that does harm: some step interns a new
atomic type of the same kind as the constant whose index it gets.
-/

namespace Nballerina.Types

/-- The kinds of atoms that are compared with each other. -/
inductive AtomKind where
  | list
  | mapping
  | cell
  | function
deriving DecidableEq, Repr

def AtomicType.kind : AtomicType → AtomKind
  | .list .. => .list
  | .mapping .. => .mapping
  | .cell .. => .cell
  | .function .. => .function

/-- The kind of the atoms in the `Bdd` of a basic type. Tables are lists of
mappings, and objects and error details are mappings. The atoms in the data of
`xml` are numbers of its own. -/
def codeKind (code : BasicTypeCode) : Option AtomKind :=
  if code = BT_LIST ∨ code = BT_TABLE then some .list
  else if code = BT_MAPPING ∨ code = BT_OBJECT ∨ code = BT_ERROR then some .mapping
  else if code = BT_FUNCTION then some .function
  else if code = BT_CELL then some .cell
  else none

def Bdd.atoms : Bdd → List Atom
  | .leaf _ => []
  | .node a l m r => a :: (l.atoms ++ m.atoms ++ r.atoms)

/-- The atoms of the subtype data of a basic type. -/
def dataAtoms (code : BasicTypeCode) : ProperSubtypeData → List (AtomKind × Atom)
  | .bddNode a l m r =>
    match codeKind code with
    | some kind => (Bdd.node a l m r).atoms.map fun atom => (kind, atom)
    | none => []
  | _ => []

/-- The atoms of a semtype, each with its kind. -/
def semTypeAtoms : SemType → List (AtomKind × Atom)
  | .bits _ => []
  | .complex c => ((unpackComplexSemType c).getD []).flatMap fun e => dataAtoms e.1 e.2

/-- The semtypes an atomic type is made of. -/
def AtomicType.semTypes : AtomicType → List SemType
  | .list initial _ rest => initial ++ [rest]
  | .mapping _ types rest => types ++ [rest]
  | .cell ty _ => [ty]
  | .function args ret => [args, ret]

/-- The atoms of these semtypes. -/
def AtomicType.atoms (t : AtomicType) : List (AtomKind × Atom) := t.semTypes.flatMap semTypeAtoms

namespace Env

/-- The atomic type an atom stands for, as the code of its kind looks it up. -/
def atomType (env : Env) : AtomKind → Atom → Option AtomicType
  | .list, a => (env.listAtomType a).map ListAtomicType.toAtomicType
  | .mapping, a => (env.mappingAtomType a).map MappingAtomicType.toAtomicType
  | .cell, a => (cellAtomType a).map CellAtomicType.toAtomicType
  | .function, a => (env.functionAtomType a).map FunctionAtomicType.toAtomicType

/-- A `TypeAtom` of the right kind stands for its own atomic type. -/
theorem atomType_typeAtom (env : Env) (i : Int) (t : AtomicType) :
    env.atomType t.kind (.typeAtom i t) = some t := by
  cases t <;> rfl

/-- The atoms that can turn up in a semtype made in the `Env`: constants, interned
atoms, recursive atoms that have been allocated, the negative numbers of distinct
error types, and the atoms of the types these stand for. -/
inductive Reachable (env : Env) : AtomKind → Atom → Prop where
  | predefined {i : Int} {t : AtomicType} : .typeAtom i t ∈ predefinedAtoms →
      Reachable env t.kind (.typeAtom i t)
  | interned {ta : TypeAtom} : ta ∈ env.atomTable → Reachable env ta.atomicType.kind ta.toAtom
  | recList {i : Nat} : i < env.recListAtoms.length → Reachable env .list (.recAtom i)
  | recMapping {i : Nat} : i < env.recMappingAtoms.length → Reachable env .mapping (.recAtom i)
  | recFunction {i : Nat} : i < env.recFunctionAtoms.length →
      Reachable env .function (.recAtom i)
  | distinctError {i : Int} : i < 0 → Reachable env .mapping (.recAtom i)
  | member {kind kind' : AtomKind} {a a' : Atom} {t : AtomicType} : Reachable env kind a →
      env.atomType kind a = some t → (kind', a') ∈ t.atoms → Reachable env kind' a'

/-- Both are recursive atoms, or both are type atoms, of the same index. -/
def SameIndex : Atom → Atom → Prop
  | .recAtom i, .recAtom j => i = j
  | .typeAtom i _, .typeAtom j _ => i = j
  | _, _ => False

/-- Atoms are told apart by kind and index, and `atomCmp` orders those of a kind. -/
structure Coherent (env : Env) : Prop where
  sameType : ∀ {kind a b}, env.Reachable kind a → env.Reachable kind b → SameIndex a b →
    env.atomType kind a = env.atomType kind b
  eq_of_cmp : ∀ {kind a b}, env.Reachable kind a → env.Reachable kind b →
    (atomCmp a b = 0 ↔ a = b)
  asymm : ∀ {kind a b}, env.Reachable kind a → env.Reachable kind b →
    (atomCmp a b < 0 ↔ atomCmp b a > 0)
  trans : ∀ {kind a b c}, env.Reachable kind a → env.Reachable kind b → env.Reachable kind c →
    atomCmp a b < 0 → atomCmp b c < 0 → atomCmp a c < 0

end Env

/-! ## The operations -/

/-- What the module does with an `Env`: making cells, the two methods of each kind of
definition, and interning the intersection of two list or mapping atoms. -/
inductive TypeOp where
  | cellContaining (ty : SemType) (mutability : CellMutability)
  | listGetSemType (d : Definition)
  | listDefine (d : Definition) (initial : List SemType) (fixedLength : Int) (rest : SemType)
  | mappingGetSemType (d : Definition)
  | mappingDefine (d : Definition) (fields : List (String × SemType)) (rest : SemType)
  | functionGetSemType (d : Definition)
  | functionDefine (d : Definition) (args ret : SemType)
  | listAtom (atomicType : ListAtomicType)
  | mappingAtom (atomicType : MappingAtomicType)

namespace TypeOp

/-- The `Env` after the operation. -/
def apply (env : Env) : TypeOp → Env
  | .cellContaining ty mutability => (Types.cellContaining env ty mutability).2
  | .listGetSemType d => (ListDefinition.getSemType d env).2.2
  | .listDefine d initial fixedLength rest =>
    (ListDefinition.define d env initial fixedLength rest).2.2
  | .mappingGetSemType d => (MappingDefinition.getSemType d env).2.2
  | .mappingDefine d fields rest => (MappingDefinition.define d env fields rest).2.2
  | .functionGetSemType d => (FunctionDefinition.getSemType d env).2.2
  | .functionDefine d args ret => (FunctionDefinition.define d env args ret).2.2
  | .listAtom atomicType => (env.listAtom atomicType).2
  | .mappingAtom atomicType => (env.mappingAtom atomicType).2

/-- The semtypes an operation is given. -/
def args : TypeOp → List SemType
  | .cellContaining ty _ => [ty]
  | .listDefine _ initial _ rest => initial ++ [rest]
  | .mappingDefine _ fields rest => fields.map (·.2) ++ [rest]
  | .functionDefine _ args ret => [args, ret]
  | .listAtom t => t.members.initial ++ [t.rest]
  | .mappingAtom t => t.types ++ [t.rest]
  | .listGetSemType _ | .mappingGetSemType _ | .functionGetSemType _ => []

/-- "All the SemTypes used in any type operation must have been created using the
Env." -/
def Made (env : Env) (op : TypeOp) : Prop :=
  ∀ t ∈ op.args, ∀ p ∈ semTypeAtoms t, env.Reachable p.1 p.2

/-- The atomic type an operation asks an atom for. -/
def interns : TypeOp → Option AtomicType
  | .cellContaining ty mutability => some (.cell ty mutability)
  | .listDefine d initial fixedLength rest =>
    if d.recAtom.isSome ∨ (fixedLength = 0 ∧ rest = CELL_SEMTYPE_INNER) then none
    else some (ListAtomicType.toAtomicType
      ⟨fixedLengthNormalize ⟨initial, fixedLength⟩, rest⟩)
  | .mappingDefine d fields rest =>
    if d.recAtom.isSome ∨ (fields.length = 0 ∧ rest = CELL_SEMTYPE_INNER) then none
    else some (.mapping (splitFields fields).1 (splitFields fields).2 rest)
  | .functionDefine d args ret => if d.recAtom.isSome then none else some (.function args ret)
  | .listAtom t => some t.toAtomicType
  | .mappingAtom t => some t.toAtomicType
  | .listGetSemType _ | .mappingGetSemType _ | .functionGetSemType _ => none

/-- The operation does not give the index of a constant to a new atomic type of the
same kind. -/
def KeepsReserved (env : Env) (op : TypeOp) : Prop :=
  ∀ t, op.interns = some t → (∀ ta ∈ env.atomTable, ta.atomicType ≠ t) →
    ∀ u, .typeAtom env.atomTable.length u ∈ predefinedAtoms → u.kind = t.kind → u = t

end TypeOp

/-! ## The invariant of the tables -/

namespace Env

/-- An allocated recursive atom, or the number of a distinct error type. -/
def Allocated (env : Env) (i : Int) : AtomKind → Prop
  | .list => 0 ≤ i ∧ i.toNat < env.recListAtoms.length
  | .mapping => i.toNat < env.recMappingAtoms.length
  | .cell => False
  | .function => 0 ≤ i ∧ i.toNat < env.recFunctionAtoms.length

/-- The atoms that are reachable without going through another one. -/
inductive Direct (env : Env) : AtomKind → Atom → Prop where
  | predefined {i : Int} {t : AtomicType} : .typeAtom i t ∈ predefinedAtoms →
      Direct env t.kind (.typeAtom i t)
  | interned {ta : TypeAtom} : ta ∈ env.atomTable → Direct env ta.atomicType.kind ta.toAtom
  | allocated {i : Int} {kind : AtomKind} : env.Allocated i kind → Direct env kind (.recAtom i)

/-- An atomic type made of such atoms. -/
def Known (env : Env) (t : AtomicType) : Prop := ∀ p ∈ t.atoms, env.Direct p.1 p.2

/-- What the tables hold is made of atoms of the tables and constants, and an index is
a position in `atomTable`. -/
structure WF (env : Env) : Prop where
  index : ∀ {n : Nat} {ta : TypeAtom}, env.atomTable[n]? = some ta → ta.index = n
  interned : ∀ {ta}, ta ∈ env.atomTable → env.Known ta.atomicType
  recList : ∀ {t}, some t ∈ env.recListAtoms → env.Known t.toAtomicType
  recMapping : ∀ {t}, some t ∈ env.recMappingAtoms → env.Known t.toAtomicType
  recFunction : ∀ {t}, some t ∈ env.recFunctionAtoms → env.Known t.toAtomicType
  recList_pos : 0 < env.recListAtoms.length
  recMapping_pos : 0 < env.recMappingAtoms.length

/-- No interned atom has the kind and the index of a constant that it is not. -/
def ReservedKept (env : Env) : Prop :=
  ∀ ta ∈ env.atomTable, ∀ u, .typeAtom ta.index u ∈ predefinedAtoms →
    u.kind = ta.atomicType.kind → u = ta.atomicType

/-- The tables have grown. -/
structure Extends (env env' : Env) : Prop where
  atomTable : ∀ ta ∈ env.atomTable, ta ∈ env'.atomTable
  recList : env.recListAtoms.length ≤ env'.recListAtoms.length
  recMapping : env.recMappingAtoms.length ≤ env'.recMappingAtoms.length
  recFunction : env.recFunctionAtoms.length ≤ env'.recFunctionAtoms.length

variable {env : Env} {kind : AtomKind} {t : AtomicType}

theorem Allocated.extend {env' : Env} (h : env.Extends env') {i : Int} :
    ∀ {kind : AtomKind}, env.Allocated i kind → env'.Allocated i kind
  | .list, ha => ⟨ha.1, Nat.lt_of_lt_of_le ha.2 h.recList⟩
  | .mapping, ha => Nat.lt_of_lt_of_le ha h.recMapping
  | .cell, ha => ha
  | .function, ha => ⟨ha.1, Nat.lt_of_lt_of_le ha.2 h.recFunction⟩

theorem Direct.extend {env env' : Env} (h : env.Extends env') {kind : AtomKind} {a : Atom} :
    env.Direct kind a → env'.Direct kind a
  | .predefined hp => .predefined hp
  | .interned ht => .interned (h.atomTable _ ht)
  | .allocated ha => .allocated (Allocated.extend h ha)

/-- A constant that can be a member of another one: a constant of the kind, or the
recursive atom of `readonly`. -/
def isPredefined (kind : AtomKind) : Atom → Bool
  | .typeAtom i t => decide (kind = t.kind ∧ Atom.typeAtom i t ∈ predefinedAtoms)
  | .recAtom i => decide (i = 0 ∧ (kind = .list ∨ kind = .mapping))

theorem isPredefined_members : (predefinedAtoms.all fun
    | .typeAtom _ t => t.atoms.all fun p => isPredefined p.1 p.2
    | .recAtom _ => false) = true := by
  decide +kernel

theorem direct_of_isPredefined (hl : 0 < env.recListAtoms.length) (hm : 0 < env.recMappingAtoms.length) :
    ∀ {a : Atom}, isPredefined kind a = true → env.Direct kind a
  | .typeAtom i t, hp => by
    obtain ⟨rfl, hmem⟩ := of_decide_eq_true hp
    exact .predefined hmem
  | .recAtom i, hp => by
    obtain ⟨rfl, rfl | rfl⟩ := of_decide_eq_true hp
    · exact .allocated ⟨Int.le_refl 0, hl⟩
    · exact .allocated hm

theorem known_of_predefined (hl : 0 < env.recListAtoms.length) (hm : 0 < env.recMappingAtoms.length)
    {i : Int} (ht : .typeAtom i t ∈ predefinedAtoms) : env.Known t := by
  intro p hp
  have hall := List.all_eq_true.mp isPredefined_members _ ht
  exact direct_of_isPredefined hl hm (List.all_eq_true.mp hall p hp)

theorem getRecAtomType_mem {α : Type} {table : List (Option α)} {ra : Int} {t : α}
    (h : getRecAtomType table ra = some t) : some t ∈ table := by
  unfold getRecAtomType at h
  split at h
  · exact List.mem_of_getElem? (Option.join_eq_some_iff.mp h)
  · cases h

/-- Following an atom to its members does not leave the tables and the constants. -/
theorem WF.members (h : env.WF) {a : Atom} (ha : env.Direct kind a) (ht : env.atomType kind a = some t) :
    env.Known t := by
  cases ha with
  | predefined hp =>
    rw [atomType_typeAtom] at ht
    cases ht
    exact known_of_predefined h.recList_pos h.recMapping_pos hp
  | @interned ta hta =>
    rw [TypeAtom.toAtom, atomType_typeAtom] at ht
    cases ht
    exact h.interned hta
  | @allocated i kind hi =>
    cases kind with
    | list =>
      obtain ⟨l, hl, rfl⟩ := Option.map_eq_some_iff.mp ht
      exact h.recList (getRecAtomType_mem hl)
    | mapping =>
      obtain ⟨l, hl, rfl⟩ := Option.map_eq_some_iff.mp ht
      exact h.recMapping (getRecAtomType_mem hl)
    | cell => exact absurd hi id
    | function =>
      obtain ⟨l, hl, rfl⟩ := Option.map_eq_some_iff.mp ht
      exact h.recFunction (getRecAtomType_mem hl)

theorem WF.direct (h : env.WF) {a : Atom} (ha : env.Reachable kind a) : env.Direct kind a := by
  induction ha with
  | predefined hp => exact .predefined hp
  | interned ht => exact .interned ht
  | recList hi => exact .allocated ⟨Int.natCast_nonneg _, by simpa using hi⟩
  | recMapping hi => exact .allocated (by simpa [Allocated] using hi)
  | recFunction hi => exact .allocated ⟨Int.natCast_nonneg _, by simpa using hi⟩
  | distinctError hi =>
    refine .allocated ?_
    have hpos := h.recMapping_pos
    simp only [Allocated]
    omega
  | member _ ht hm ih => exact h.members ih ht _ hm

theorem predefined_index_nodup : (predefinedAtoms.map fun
    | .typeAtom i _ => i
    | .recAtom i => i).Nodup := by
  decide

theorem predefined_unique {i : Int} {u : AtomicType} (ht : .typeAtom i t ∈ predefinedAtoms)
    (hu : .typeAtom i u ∈ predefinedAtoms) : t = u := by
  have := List.inj_on_of_nodup_map predefined_index_nodup ht hu rfl
  cases this
  rfl

theorem WF.interned_unique (h : env.WF) {ta tb : TypeAtom} (ha : ta ∈ env.atomTable)
    (hb : tb ∈ env.atomTable) (hi : ta.index = tb.index) : ta = tb := by
  obtain ⟨n, hn⟩ := List.getElem?_of_mem ha
  obtain ⟨m, hm⟩ := List.getElem?_of_mem hb
  have hnm : n = m := by
    have := h.index hn
    have := h.index hm
    omega
  subst hnm
  exact Option.some.inj (hn.symm.trans hm)

/-- Two reachable atoms of a kind with the same index are the same atom. -/
theorem WF.eq_of_sameIndex (h : env.WF) (hr : env.ReservedKept) {a b : Atom} (ha : env.Direct kind a)
    (hb : env.Direct kind b) (hi : SameIndex a b) :
    a = b := by
  cases ha with
  | predefined hp =>
    generalize hk : AtomicType.kind _ = k at hb
    cases hb with
    | predefined hq =>
      cases hi
      rw [predefined_unique hp hq]
    | interned hta =>
      cases hi
      rw [hr _ hta _ hp hk]
      rfl
    | allocated _ => exact absurd hi id
  | @interned ta hta =>
    generalize hk : AtomicType.kind _ = k at hb
    cases hb with
    | predefined hq =>
      cases hi
      rw [hr _ hta _ hq hk.symm]
      rfl
    | interned htb => rw [h.interned_unique hta htb hi]
    | allocated _ => exact absurd hi id
  | allocated _ =>
    cases hb with
    | allocated _ => exact congrArg Atom.recAtom hi
    | predefined _ => exact absurd hi id
    | interned _ => exact absurd hi id

theorem sameIndex_of_cmp : ∀ {a b : Atom}, atomCmp a b = 0 → SameIndex a b
  | .recAtom i, .recAtom j, h => by
    have : i - j = 0 := h
    simp only [SameIndex]
    omega
  | .typeAtom i _, .typeAtom j _, h => by
    have : i - j = 0 := h
    simp only [SameIndex]
    omega
  | .recAtom _, .typeAtom _ _, h => absurd h (by simp [atomCmp])
  | .typeAtom _ _, .recAtom _, h => absurd h (by simp [atomCmp])

theorem WF.coherent (h : env.WF) (hr : env.ReservedKept) : env.Coherent where
  sameType ha hb hi := by rw [h.eq_of_sameIndex hr (h.direct ha) (h.direct hb) hi]
  eq_of_cmp ha hb := by
    constructor
    · exact fun hc => h.eq_of_sameIndex hr (h.direct ha) (h.direct hb) (sameIndex_of_cmp hc)
    · rintro rfl
      rename_i a
      cases a <;> simp [atomCmp]
  asymm := by
    intro kind a b _ _
    have := atomCmp_swap a b
    omega
  trans _ _ _ hab hbc := atomLt_trans hab hbc

/-! ## One operation -/

theorem extends_refl (env : Env) : env.Extends env :=
  ⟨fun _ h => h, Nat.le_refl _, Nat.le_refl _, Nat.le_refl _⟩

theorem typeAtom_of_mem (h : ∃ ta ∈ env.atomTable, ta.atomicType = t) :
    (env.typeAtom t).2 = env := by
  unfold typeAtom
  split
  next => rfl
  next hnone =>
    obtain ⟨ta, hta, heq⟩ := h
    exact absurd heq (by simpa using List.find?_eq_none.mp hnone ta hta)

theorem typeAtom_of_new (h : ∀ ta ∈ env.atomTable, ta.atomicType ≠ t) :
    (env.typeAtom t).2 =
      { env with atomTable := env.atomTable ++ [⟨env.atomTable.length, t⟩] } := by
  unfold typeAtom
  split
  next ta hta =>
    have := List.find?_some hta
    exact absurd (of_decide_eq_true this) (h ta (List.mem_of_find?_eq_some hta))
  next => rfl

theorem WF.typeAtom {env : Env} (h : env.WF) {t : AtomicType}
    (ht : env.Known t) : (env.typeAtom t).2.WF := by
  by_cases hmem : ∃ ta ∈ env.atomTable, ta.atomicType = t
  · rwa [typeAtom_of_mem hmem]
  · rw [typeAtom_of_new fun ta hta heq => hmem ⟨ta, hta, heq⟩]
    have hext : env.Extends
        { env with atomTable := env.atomTable ++ [⟨env.atomTable.length, t⟩] } :=
      ⟨fun ta hta => List.mem_append_left _ hta, Nat.le_refl _, Nat.le_refl _, Nat.le_refl _⟩
    exact
      { index := by
          intro n ta hn
          rcases Nat.lt_or_ge n env.atomTable.length with hlt | hge
          · rw [List.getElem?_append_left hlt] at hn
            exact h.index hn
          · rw [List.getElem?_append_right hge, List.getElem?_singleton] at hn
            split at hn
            next hzero =>
              cases hn
              simp only [Int.natCast_inj]
              omega
            next => cases hn
        interned := by
          intro ta hta p hp
          rcases List.mem_append.mp hta with hta | hta
          · exact (h.interned hta p hp).extend hext
          · cases List.mem_singleton.mp hta
            exact (ht p hp).extend hext
        recList := fun hm p hp => (h.recList hm p hp).extend hext
        recMapping := fun hm p hp => (h.recMapping hm p hp).extend hext
        recFunction := fun hm p hp => (h.recFunction hm p hp).extend hext
        recList_pos := h.recList_pos
        recMapping_pos := h.recMapping_pos }

/-- Only the tables of recursive atoms change: they may grow, and an entry that was
not there before is made of semtypes in `args`. -/
structure RecStep (args : List SemType) (env env' : Env) : Prop where
  atomTable : env'.atomTable = env.atomTable
  grown : env.Extends env'
  recList : ∀ {t}, some t ∈ env'.recListAtoms →
    some t ∈ env.recListAtoms ∨ t.toAtomicType.semTypes ⊆ args
  recMapping : ∀ {t}, some t ∈ env'.recMappingAtoms →
    some t ∈ env.recMappingAtoms ∨ t.toAtomicType.semTypes ⊆ args
  recFunction : ∀ {t}, some t ∈ env'.recFunctionAtoms →
    some t ∈ env.recFunctionAtoms ∨ t.toAtomicType.semTypes ⊆ args

theorem WF.recStep {env' : Env} {args : List SemType} (h : env.WF) (hs : env.RecStep args env')
    (hk : ∀ t : AtomicType, t.semTypes ⊆ args → env.Known t) :
    env'.WF where
  index := by
    rw [hs.atomTable]
    exact h.index
  interned := by
    rw [hs.atomTable]
    exact fun hta p hp => (h.interned hta p hp).extend hs.grown
  recList hm p hp := (hs.recList hm).elim (fun hm => (h.recList hm p hp).extend hs.grown)
    fun ht => (hk _ ht p hp).extend hs.grown
  recMapping hm p hp := (hs.recMapping hm).elim
    (fun hm => (h.recMapping hm p hp).extend hs.grown) fun ht => (hk _ ht p hp).extend hs.grown
  recFunction hm p hp := (hs.recFunction hm).elim
    (fun hm => (h.recFunction hm p hp).extend hs.grown) fun ht => (hk _ ht p hp).extend hs.grown
  recList_pos := Nat.lt_of_lt_of_le h.recList_pos hs.grown.recList
  recMapping_pos := Nat.lt_of_lt_of_le h.recMapping_pos hs.grown.recMapping

theorem recStep_refl (args : List SemType) (env : Env) : env.RecStep args env :=
  ⟨rfl, env.extends_refl, .inl, .inl, .inl⟩

/-- Allocating appends an entry that is not defined yet. -/
theorem recStep_recAtom (args : List SemType) (env : Env) : env.RecStep args env.recListAtom.2 ∧
    env.RecStep args env.recMappingAtom.2 ∧ env.RecStep args env.recFunctionAtom.2 := by
  refine ⟨⟨rfl, ⟨fun _ h => h, ?_, Nat.le_refl _, Nat.le_refl _⟩, ?_, .inl, .inl⟩,
    ⟨rfl, ⟨fun _ h => h, Nat.le_refl _, ?_, Nat.le_refl _⟩, .inl, ?_, .inl⟩,
    ⟨rfl, ⟨fun _ h => h, Nat.le_refl _, Nat.le_refl _, ?_⟩, .inl, .inl, ?_⟩⟩
  all_goals simp [recListAtom, recMappingAtom, recFunctionAtom]
  all_goals exact fun h => .inl h

/-- A member of a list after `set` was there before, or is the new one. -/
theorem mem_set_some {α : Type} {table : List (Option α)} {n : Nat} {t u : α} {P : α → Prop}
    (ht : P t) (h : some u ∈ table.set n (some t)) : some u ∈ table ∨ P u := by
  rcases List.mem_or_eq_of_mem_set h with hu | hu
  · exact .inl hu
  · cases hu
    exact .inr ht

section SetRec

variable {env : Env} {args : List SemType} {ra : Int}

theorem recStep_setRecList {t : ListAtomicType} (ht : t.toAtomicType.semTypes ⊆ args) :
    env.RecStep args (env.setRecListAtomType ra t) :=
  ⟨rfl, ⟨fun _ h => h, by simp [setRecListAtomType], Nat.le_refl _, Nat.le_refl _⟩,
    mem_set_some (P := fun t : ListAtomicType => t.toAtomicType.semTypes ⊆ args) ht,
    .inl, .inl⟩

theorem recStep_setRecMapping {t : MappingAtomicType} (ht : t.toAtomicType.semTypes ⊆ args) :
    env.RecStep args (env.setRecMappingAtomType ra t) :=
  ⟨rfl, ⟨fun _ h => h, Nat.le_refl _, by simp [setRecMappingAtomType], Nat.le_refl _⟩, .inl,
    mem_set_some (P := fun t : MappingAtomicType => t.toAtomicType.semTypes ⊆ args) ht, .inl⟩

theorem recStep_setRecFunction {t : FunctionAtomicType} (ht : t.toAtomicType.semTypes ⊆ args) :
    env.RecStep args (env.setRecFunctionAtomType ra t) :=
  ⟨rfl, ⟨fun _ h => h, Nat.le_refl _, Nat.le_refl _, by simp [setRecFunctionAtomType]⟩,
    .inl, .inl,
    mem_set_some (P := fun t : FunctionAtomicType => t.toAtomicType.semTypes ⊆ args) ht⟩

end SetRec

end Env

theorem fixedLengthNormalize_subset {array : FixedLengthArray} {t : SemType}
    (h : t ∈ (fixedLengthNormalize array).initial) : t ∈ array.initial := by
  unfold fixedLengthNormalize at h
  split at h
  · cases h
  · split at h
    · exact h
    · split at h
      · exact h
      · exact List.mem_of_mem_take h

theorem mem_splitFields {fields : List (String × SemType)} {t : SemType}
    (h : t ∈ (splitFields fields).2) : t ∈ fields.map (·.2) := by
  obtain ⟨f, hf, rfl⟩ := List.mem_map.mp h
  exact List.mem_map_of_mem ((List.mergeSort_perm fields _).mem_iff.mp hf)

theorem listDefine_semTypes (initial : List SemType) (fixedLength : Int) (rest : SemType) :
    (ListAtomicType.toAtomicType
      ⟨fixedLengthNormalize ⟨initial, fixedLength⟩, rest⟩).semTypes ⊆ initial ++ [rest] := by
  intro t ht
  rcases List.mem_append.mp ht with ht | ht
  · exact List.mem_append_left _ (fixedLengthNormalize_subset ht)
  · exact List.mem_append_right _ ht

theorem mappingDefine_semTypes (fields : List (String × SemType)) (rest : SemType) :
    (AtomicType.mapping (splitFields fields).1 (splitFields fields).2 rest).semTypes ⊆
      fields.map (·.2) ++ [rest] := by
  intro t ht
  rcases List.mem_append.mp ht with ht | ht
  · exact List.mem_append_left _ (mem_splitFields ht)
  · exact List.mem_append_right _ ht

/-- What one operation does to the `Env`: it interns an atomic type made of its
arguments, or touches only the tables of recursive atoms. -/
theorem TypeOp.apply_cases (env : Env) (op : TypeOp) :
    (∃ t, op.interns = some t ∧ t.semTypes ⊆ op.args ∧ op.apply env = (env.typeAtom t).2) ∨
    (op.interns = none ∧ env.RecStep op.args (op.apply env)) := by
  obtain ⟨hlist, hmapping, hfunction⟩ := env.recStep_recAtom op.args
  have hrefl := env.recStep_refl op.args
  cases op with
  | cellContaining ty mutability => exact .inl ⟨_, rfl, fun _ h => h, rfl⟩
  | listGetSemType d =>
    refine .inr ⟨rfl, ?_⟩
    simp only [apply, ListDefinition.getSemType, Definition.getSemType]
    split
    · exact hrefl
    · exact hlist
  | mappingGetSemType d =>
    refine .inr ⟨rfl, ?_⟩
    simp only [apply, MappingDefinition.getSemType, Definition.getSemType]
    split
    · exact hrefl
    · exact hmapping
  | functionGetSemType d =>
    refine .inr ⟨rfl, ?_⟩
    simp only [apply, FunctionDefinition.getSemType, Definition.getSemType]
    split
    · exact hrefl
    · exact hfunction
  | listDefine d initial fixedLength rest =>
    have ht := listDefine_semTypes initial fixedLength rest
    cases hrec : d.recAtom with
    | some ra =>
      refine .inr ⟨by simp [interns, hrec], ?_⟩
      simp only [apply, ListDefinition.define, hrec]
      exact Env.recStep_setRecList ht
    | none =>
      by_cases htop : fixedLength = 0 ∧ rest = CELL_SEMTYPE_INNER
      · refine .inr ⟨by simp [interns, htop], ?_⟩
        simp only [apply, ListDefinition.define, hrec, if_pos htop]
        exact hrefl
      · refine .inl ⟨_, by simp only [interns, hrec]; rw [if_neg (by simpa using htop)], ht, ?_⟩
        simp only [apply, ListDefinition.define, hrec, if_neg htop]
        rfl
  | mappingDefine d fields rest =>
    have ht := mappingDefine_semTypes fields rest
    cases hrec : d.recAtom with
    | some ra =>
      refine .inr ⟨by simp [interns, hrec], ?_⟩
      simp only [apply, MappingDefinition.define, hrec]
      exact Env.recStep_setRecMapping ht
    | none =>
      by_cases htop : fields.length = 0 ∧ rest = CELL_SEMTYPE_INNER
      · refine .inr ⟨by simp only [interns]; rw [if_pos (.inr htop)], ?_⟩
        simp only [apply, MappingDefinition.define, hrec, if_pos htop]
        exact hrefl
      · refine .inl ⟨_, by simp only [interns, hrec]; rw [if_neg (by simpa using htop)], ht, ?_⟩
        simp only [apply, MappingDefinition.define, hrec, if_neg htop]
        rfl
  | functionDefine d args ret =>
    cases hrec : d.recAtom with
    | some ra =>
      refine .inr ⟨by simp [interns, hrec], ?_⟩
      simp only [apply, FunctionDefinition.define, hrec]
      exact Env.recStep_setRecFunction fun _ h => h
    | none =>
      refine .inl ⟨.function args ret, by simp [interns, hrec], fun _ h => h, ?_⟩
      simp only [apply, FunctionDefinition.define, hrec]
      rfl
  | listAtom t => exact .inl ⟨_, rfl, fun _ h => h, rfl⟩
  | mappingAtom t => exact .inl ⟨_, rfl, fun _ h => h, rfl⟩

variable {env : Env} {op : TypeOp}

/-- What is made of the arguments of an operation is made of known atoms. -/
theorem TypeOp.Made.known (h : env.WF) (hmade : op.Made env) {t : AtomicType}
    (ht : t.semTypes ⊆ op.args) : env.Known t := by
  intro p hp
  obtain ⟨s, hs, hp⟩ := List.mem_flatMap.mp hp
  exact h.direct (hmade s (ht hs) p hp)

theorem TypeOp.apply_wf (h : env.WF) (hmade : op.Made env) :
    (op.apply env).WF := by
  rcases apply_cases env op with ⟨t, -, ht, heq⟩ | ⟨-, hs⟩
  · rw [heq]
    exact h.typeAtom (hmade.known h ht)
  · exact h.recStep hs fun _ ht => hmade.known h ht

/-- Under the condition, an operation keeps the atoms apart from the constants. -/
theorem TypeOp.apply_reservedKept (hr : env.ReservedKept) (hk : op.KeepsReserved env) :
    (op.apply env).ReservedKept := by
  rcases apply_cases env op with ⟨t, hint, ht, heq⟩ | ⟨-, hs⟩
  · rw [heq]
    by_cases hmem : ∃ ta ∈ env.atomTable, ta.atomicType = t
    · rwa [Env.typeAtom_of_mem hmem]
    · have hnew : ∀ ta ∈ env.atomTable, ta.atomicType ≠ t := fun ta hta heq => hmem ⟨ta, hta, heq⟩
      rw [Env.typeAtom_of_new hnew]
      intro ta hta u hu hkind
      rcases List.mem_append.mp hta with hta | hta
      · exact hr ta hta u hu hkind
      · cases List.mem_singleton.mp hta
        exact hk t hint hnew u hu hkind
  · intro ta hta
    rw [hs.atomTable] at hta
    exact hr ta hta

/-- Without the condition, the new atom and the constant are confused at once. -/
theorem TypeOp.keepsReserved_of_coherent (hc : (op.apply env).Coherent) : op.KeepsReserved env := by
  intro t hint hnew u hu hkind
  rcases apply_cases env op with ⟨t', hint', ht, heq⟩ | ⟨hint', -⟩
  · cases hint.symm.trans hint'
    rw [heq, Env.typeAtom_of_new hnew] at hc
    let env' : Env := { env with atomTable := env.atomTable ++ [⟨env.atomTable.length, t⟩] }
    have hnewAtom : env'.Reachable _ _ :=
      .interned (List.mem_append_right _ (List.mem_singleton_self _))
    have hconst : env'.Reachable _ _ := .predefined hu
    rw [hkind] at hconst
    have hsame := hc.sameType hconst hnewAtom rfl
    rw [TypeAtom.toAtom, Env.atomType_typeAtom, ← hkind, Env.atomType_typeAtom] at hsame
    exact Option.some.inj hsame
  · exact absurd (hint.symm.trans hint') (by simp)

/-! ## Runs -/

/-- The `Env` after a sequence of operations. -/
def runOps (env : Env) (ops : List TypeOp) : Env := ops.foldl TypeOp.apply env

/-- Every operation is given semtypes made in the `Env` it runs in. -/
def MadeRun (env : Env) (ops : List TypeOp) : Prop :=
  ∀ (n : Nat) (op : TypeOp), ops[n]? = some op → op.Made (runOps env (ops.take n))

theorem coherent_run_iff_of_wf : ∀ (ops : List TypeOp) (env : Env), env.WF → env.ReservedKept →
    MadeRun env ops →
    ((∀ n, (runOps env (ops.take n)).Coherent) ↔
      ∀ (n : Nat) (op : TypeOp), ops[n]? = some op → op.KeepsReserved (runOps env (ops.take n)))
  | [], env, h, hr, _ => by
    refine iff_of_true (fun n => ?_) (fun n op hn => by simp at hn)
    rw [List.take_nil]
    exact h.coherent hr
  | op :: ops, env, h, hr, hmade => by
    have hop : op.Made env := hmade 0 op rfl
    have hrest : MadeRun (op.apply env) ops := fun n o hn => hmade (n + 1) o hn
    have hstep (hk : op.KeepsReserved env) := coherent_run_iff_of_wf ops (op.apply env)
      (TypeOp.apply_wf h hop) (TypeOp.apply_reservedKept hr hk) hrest
    constructor
    · intro hc
      have hk := TypeOp.keepsReserved_of_coherent (hc 1)
      intro n o hn
      cases n with
      | zero =>
        cases Option.some.inj hn
        exact hk
      | succ n => exact (hstep hk).mp (fun m => hc (m + 1)) n o hn
    · intro hk n
      cases n with
      | zero => exact h.coherent hr
      | succ n =>
        exact (hstep (hk 0 op rfl)).mpr (fun m o hm => hk (m + 1) o hm) n

/-! ## A new `Env` -/

/-- `init` gives the first eight constants their own indices. -/
theorem Env.init_atomTable : init.atomTable.map TypeAtom.toAtom = predefinedAtoms.take 8 := by
  decide +kernel

theorem Env.init_index : init.atomTable.map TypeAtom.index = [0, 1, 2, 3, 4, 5, 6, 7] := by
  decide +kernel

theorem Env.init_mem {ta : TypeAtom} (h : ta ∈ init.atomTable) : ta.toAtom ∈ predefinedAtoms :=
  List.mem_of_mem_take (init_atomTable ▸ List.mem_map_of_mem h)

theorem Env.init_recAtoms : init.recListAtoms = fresh.recListAtoms ∧
    init.recMappingAtoms = fresh.recMappingAtoms ∧
    init.recFunctionAtoms = fresh.recFunctionAtoms := ⟨rfl, rfl, rfl⟩

theorem Env.init_wf : init.WF := by
  have hl : 0 < init.recListAtoms.length := by rw [init_recAtoms.1]; decide
  have hm : 0 < init.recMappingAtoms.length := by rw [init_recAtoms.2.1]; decide
  have hreadonly : ((semTypeAtoms CELL_SEMTYPE_INNER_RO).all fun p => isPredefined p.1 p.2) = true := by
    decide +kernel
  have hro : ∀ p ∈ semTypeAtoms CELL_SEMTYPE_INNER_RO, init.Direct p.1 p.2 :=
    fun p hp => direct_of_isPredefined hl hm (List.all_eq_true.mp hreadonly p hp)
  exact
    { index := by
        intro n ta hn
        have hmap : (init.atomTable.map TypeAtom.index)[n]? = some ta.index := by simp [hn]
        rw [init_index] at hmap
        have hlt : n < 8 := by
          by_contra hge
          rw [List.getElem?_eq_none (by simpa using hge)] at hmap
          cases hmap
        match n, hlt with
        | 0, _ | 1, _ | 2, _ | 3, _ | 4, _ | 5, _ | 6, _ | 7, _ => exact (Option.some.inj hmap).symm
      interned := fun hta => known_of_predefined hl hm (init_mem hta)
      recList := by
        intro t ht
        rw [init_recAtoms.1] at ht
        cases Option.some.inj (List.mem_singleton.mp ht)
        exact hro
      recMapping := by
        intro t ht
        rw [init_recAtoms.2.1] at ht
        cases Option.some.inj (List.mem_singleton.mp ht)
        exact hro
      recFunction := by
        intro t ht
        rw [init_recAtoms.2.2] at ht
        cases ht
      recList_pos := hl
      recMapping_pos := hm }

theorem Env.init_reservedKept : init.ReservedKept :=
  fun _ hta _ hu _ => predefined_unique hu (init_mem hta)

/-- In a run from a new `Env`, atoms are coherent in every state reached exactly when
no step gives a new atomic type the index of a constant of its kind. -/
theorem coherent_run_iff (ops : List TypeOp) (hmade : MadeRun .init ops) :
    (∀ n, (runOps .init (ops.take n)).Coherent) ↔
      ∀ (n : Nat) (op : TypeOp), ops[n]? = some op →
        op.KeepsReserved (runOps .init (ops.take n)) :=
  coherent_run_iff_of_wf ops .init Env.init_wf Env.init_reservedKept hmade

/-- The cell for the rest of an array or a map of ints. -/
def intCell : AtomicType := .cell (.bits (basicType BT_INT ||| UNDEF)) .limited

def defineIntCell : TypeOp := .cellContaining (.bits (basicType BT_INT ||| UNDEF)) .limited

theorem made_defineIntCell (env : Env) : defineIntCell.Made env := by
  intro t ht p hp
  cases List.mem_singleton.mp ht
  cases hp

theorem Env.init_length : init.atomTable.length = 8 := by
  simpa using congrArg List.length init_index

theorem madeRun_defineIntCell : MadeRun .init [defineIntCell] := by
  intro n op hn
  match n with
  | 0 => exact Option.some.inj hn ▸ made_defineIntCell _
  | n + 1 => simp at hn

/-- In a new `Env` the cell gets index 8, which no constant cell has. -/
theorem coherent_defineIntCell : MadeRun .init [defineIntCell] ∧
    ∀ n, (runOps .init ([defineIntCell].take n)).Coherent := by
  refine ⟨madeRun_defineIntCell, (coherent_run_iff _ madeRun_defineIntCell).mpr ?_⟩
  intro n op hn
  match n with
  | 0 =>
    cases Option.some.inj hn
    intro t ht _ u hu hkind
    cases Option.some.inj ht
    have hconst : u = MAPPING_ATOMIC_OBJECT := by
      refine Env.predefined_unique hu ?_
      simp only [List.take_zero, runOps, List.foldl_nil, Env.init_length]
      decide +kernel
    rw [hconst] at hkind
    cases hkind
  | n + 1 => simp at hn

/-- `map<int>`, once its cell has index 8. -/
def defineIntMap : TypeOp := .mappingDefine {} [] (atomSemType BT_CELL (.typeAtom 8 intCell))

theorem apply_defineIntCell :
    (defineIntCell.apply .init).atomTable.map TypeAtom.toAtom =
      predefinedAtoms.take 8 ++ [.typeAtom 8 intCell] := by
  decide +kernel

theorem made_defineIntMap : defineIntMap.Made (defineIntCell.apply .init) := by
  have hmem : Atom.typeAtom 8 intCell ∈
      (defineIntCell.apply .init).atomTable.map TypeAtom.toAtom := by
    rw [apply_defineIntCell]
    exact List.mem_append_right _ (List.mem_singleton_self _)
  obtain ⟨⟨i, u⟩, hta, heq⟩ := List.mem_map.mp hmem
  cases heq
  intro t ht p hp
  cases List.mem_singleton.mp ht
  have hp' : p = (.cell, .typeAtom 8 intCell) := by
    have hatoms : semTypeAtoms (atomSemType BT_CELL (.typeAtom 8 intCell)) =
        [(.cell, .typeAtom 8 intCell)] := by decide +kernel
    exact List.mem_singleton.mp (hatoms ▸ hp)
  rw [hp']
  exact Env.Reachable.interned hta

/-- The atom of `map<int>`, the first type defined in an `Env`, has kind and index of
`ATOM_MAPPING_OBJECT_MEMBER`. -/
theorem not_coherent_intMap : MadeRun .init [defineIntCell, defineIntMap] ∧
    ¬ ∀ n, (runOps .init ([defineIntCell, defineIntMap].take n)).Coherent := by
  constructor
  · intro n op hn
    match n with
    | 0 => exact Option.some.inj hn ▸ made_defineIntCell _
    | 1 => exact Option.some.inj hn ▸ made_defineIntMap
    | n + 2 => simp at hn
  · intro hc
    have hkeeps := @TypeOp.keepsReserved_of_coherent _ defineIntMap (hc 2)
    have hlength : (defineIntCell.apply .init).atomTable.length = 9 := by
      simpa [predefinedAtoms] using congrArg List.length apply_defineIntCell
    have hnew : ∀ t ∈ (defineIntCell.apply .init).atomTable.map TypeAtom.atomicType,
        t ≠ .mapping [] [] (atomSemType BT_CELL (.typeAtom 8 intCell)) := by
      decide +kernel
    have hconst : Atom.typeAtom ((9 : Nat) : Int) MAPPING_ATOMIC_OBJECT_MEMBER ∈
        predefinedAtoms := by
      decide +kernel
    have hinterns : defineIntMap.interns =
        some (.mapping [] [] (atomSemType BT_CELL (.typeAtom 8 intCell))) := by
      decide +kernel
    have heq := hkeeps _ hinterns (fun ta hta => hnew _ (List.mem_map_of_mem hta))
      MAPPING_ATOMIC_OBJECT_MEMBER (hlength ▸ hconst) rfl
    exact absurd heq (by decide +kernel)

end Nballerina.Types
