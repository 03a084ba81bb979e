import Nballerina.Types.Atoms
import Nballerina.Types.CellExact
import Nballerina.Types.ExactTypes
import Nballerina.Types.MappingExact
import Nballerina.Types.MemberType
import Nballerina.Types.StringCoverage

/-!
# Types of mapping members

`mappingMemberTypeInner` (`core.bal`) is the type of the members that the mappings of a type have at
the keys of a string type; an absent member has the type `UNDEF`. The front end asks it whether a
field may be missing.

- `mappingMemberTypeInner_contains`: it contains every member, and `UNDEF` if one may be missing, as
  long as the names that the key type covers are told right and no intersection loses a value.
- Negative atoms are left out, so the answer depends on how a type is written
  (`mappingMemberTypeInner_not_semantic`). The fields of the two types there are read-only: of
  writable fields `cell.bal` takes the mappings of an int or a string that are no mappings of an int
  for more than the mappings of a string, since a cell made for both may hold an int.

Mirroring notes:
- a mapping is an assignment of cells to all names, as in `CellExact`: a read-only cell holds one
  value, a writable cell any of those that may be stored. A name that the mapping lacks has a cell
  with a value of type `UNDEF`. No field is `CELL_MUT_UNLIMITED` (only object members are);
- `SemType? memberType` is an `Option`, inside the `Option` of panics.
-/

namespace Nballerina.Types

variable {V : Type}

/-- `StringSubtype|true`. -/
inductive StringKey where
  | all
  | subtype (d : StringSubtype)
deriving DecidableEq, Repr

/-- `stringSubtype(t)`; the inner `none` is `false`. -/
def stringSubtype (t : SemType) : Option (Option StringKey) := do
  match ← subtypeData t BT_STRING with
  | .bool true => some (some .all)
  | .bool false => some none
  | .proper (.string d) => some (some (.subtype d))
  | .proper _ => none

def mappingAtomicApplicableMemberTypesInner (atomic : MappingAtomicType) (key : StringKey) :
    Option (List SemType) := do
  let types ← atomic.types.mapM cellInner
  let rest ← cellInner atomic.rest
  match key with
  | .all => some (types ++ [rest])
  | .subtype d =>
    let coverage := stringSubtypeListCoverage d atomic.names
    let memberTypes ← coverage.indices.mapM (types[·]?)
    some (if coverage.isSubtype then memberTypes else memberTypes ++ [rest])

section Source

variable [BddIdentity]

/-- The body of the loop of `mappingAtomicMemberTypeInner`. -/
def unionMember (memberType : Option SemType) (ty : SemType) : Option (Option SemType) :=
  match memberType with
  | none => some (some ty)
  | some m => do return some (← union ops m ty)

def mappingAtomicMemberTypeInner (atomic : MappingAtomicType) (key : StringKey) : Option SemType := do
  let types ← mappingAtomicApplicableMemberTypesInner atomic key
  let memberType ← types.foldlM unionMember none
  return memberType.getD (.bits UNDEF)

def Env.mappingAtomMemberType (env : Env) (key : StringKey) (atom : Atom) : Option SemType := do
  mappingAtomicMemberTypeInner (← env.mappingAtomType atom) key

def bddMappingMemberTypeInner (env : Env) (b : Bdd) (key : StringKey) (accum : SemType) :
    Option SemType :=
  bddMemberType (env.mappingAtomMemberType key) b accum

def mappingMemberTypeInner (env : Env) (t k : SemType) : Option SemType :=
  match t with
  | .bits b => some (.bits (if b &&& MAPPING ≠ 0 then VAL else UNDEF))
  | .complex c => do
    match ← stringSubtype k with
    | none => some (.bits UNDEF)
    | some key =>
      let data ← getComplexSubtypeData c BT_MAPPING
      let bdd ← data.toBdd
      bddMappingMemberTypeInner env bdd key (.bits INNER)

end Source

/-! ## Mappings and keys -/

def StringKey.Has : StringKey → String → Prop
  | .all, _ => True
  | .subtype d, s => s ∈ d.den

/-- The string belongs to the type. -/
def InStringKey (k : SemType) (s : String) : Prop :=
  ∃ key, stringSubtype k = some (some key) ∧ key.Has s

def mappingBdd (t : SemType) : Option Bdd := (subtypeData t BT_MAPPING).bind (·.toBdd)

/-- The value that the cell holds, or one that it may come to hold. -/
def CellValue.CanHold : CellValue V → V → Prop
  | .readOnly v, w => w = v
  | .writable storable _, w => w ∈ storable

/-- The cells of a cell type. -/
def cellsOf (den : SemType → Set V) (c : SemType) : Set (CellValue V) :=
  {x | ∃ a, cellAtomicType c = some a ∧ a.Contains den x}

/-- An assignment of cells, or of a member's absence, to the names that belongs to the type. -/
structure MappingOf (den : SemType → Set V) (env : Env) (t : SemType) (f : String → CellValue V) :
    Prop where
  values : ∀ s v, (f s).CanHold v → v ∈ den (.bits INNER)
  holds : ∃ b, mappingBdd t = some b ∧ b.holds (env.MappingContains (cellsOf den) f)

variable {den : SemType → Set V}

/-- Whatever a cell of the type holds is in its inner type. -/
theorem canHold_inner {c ty : SemType} {x : CellValue V} (hx : x ∈ cellsOf den c)
    (hinner : cellInner c = some ty) {v : V} (hv : x.CanHold v) :
    v ∈ den ty := by
  obtain ⟨a, ha, hcontains⟩ := hx
  unfold cellInner at hinner
  rw [ha] at hinner
  cases hinner
  cases x with
  | readOnly w => exact (show v = w from hv) ▸ hcontains
  | writable storable _ => exact hcontains.2 hv

/-- Which of the names are keys, and whether all keys are names, is told right by the coverage. -/
def Told (d : StringSubtype) (names : List String) : Prop :=
  (Found Chars d.char names ∧ Found Charsᶜ d.nonChar names) ∧ Counted d names

/-- A key type whose coverage of the names is told right. -/
def StringKey.Told : StringKey → List String → Prop
  | .all, _ => True
  | .subtype d, names => d.Valid ∧ Types.Told d names

/-- A finite set of strings is told right, in particular a single string. -/
theorem told_of_allowed {d : StringSubtype} (hchar : d.char.allowed = true)
    (hnonChar : d.nonChar.allowed = true) (names : List String) : Told d names :=
  ⟨⟨fun _ _ _ _ => .inl hchar, fun _ _ _ _ => .inl hnonChar⟩,
    fun h => absurd ⟨hchar, hnonChar⟩ h⟩

/-- The types that the atoms of a `Bdd` give to the keys. -/
def KeyTypes [BddIdentity] (env : Env) (b : Bdd) (key : StringKey) (ty : SemType) : Prop :=
  ∃ atom ∈ b.atoms, env.mappingAtomMemberType key atom = some ty

theorem Bdd.over_of_atoms {P : Atom → Prop} : ∀ {b : Bdd}, (∀ atom ∈ b.atoms, P atom) → b.Over P
  | .leaf _, _ => trivial
  | .node atom left middle right, h => by
    unfold Bdd.atoms at h
    simp only [List.mem_cons, List.mem_append] at h
    exact ⟨h atom (.inl rfl), over_of_atoms fun a ha => h a (.inr (.inl (.inl ha))),
      over_of_atoms fun a ha => h a (.inr (.inl (.inr ha))),
      over_of_atoms fun a ha => h a (.inr (.inr ha))⟩

/-! ## One atom -/

theorem exists_mapM {α β : Type} {f : α → Option β} {P : α → β → Prop} : ∀ {l : List α},
    (∀ a ∈ l, ∃ b, f a = some b ∧ P a b) → ∃ l', l.mapM f = some l' ∧ List.Forall₂ P l l'
  | [], _ => ⟨[], rfl, .nil⟩
  | a :: l, h => by
    obtain ⟨b, hb, hP⟩ := h a (.head _)
    obtain ⟨l', hl', hall⟩ := exists_mapM fun a' ha' => h a' (.tail a ha')
    refine ⟨b :: l', ?_, .cons hP hall⟩
    rw [List.mapM_cons, hb, hl']
    rfl

theorem exists_of_forall₂ {α β : Type} {P : α → β → Prop} {l1 : List α} {l2 : List β}
    (h : List.Forall₂ P l1 l2) : ∀ a ∈ l1, ∃ b ∈ l2, P a b := by
  induction h with
  | nil => exact fun a ha => absurd ha List.not_mem_nil
  | @cons a b l1 l2 hab _ ih =>
    intro a' ha'
    rcases List.mem_cons.mp ha' with heq | ha'
    · exact ⟨b, .head _, heq ▸ hab⟩
    · obtain ⟨b', hb', hP⟩ := ih a' ha'
      exact ⟨b', .tail b hb', hP⟩

/-- The type of a name that has one of its own. -/
theorem memberAt_of_getElem? {m : MappingAtomicType} (h : m.Sorted) {i : Nat} {s : String}
    (hs : m.names[i]? = some s) : m.types[i]? = some (mappingAtomicTypeMemberAt m s) := by
  obtain ⟨hi, hget⟩ := List.getElem?_eq_some_iff.mp hs
  have hi' : i < m.types.length := h.length ▸ hi
  have hmem : (s, m.types[i]) ∈ m.fields := by
    refine List.mem_of_getElem? (i := i) ?_
    unfold MappingAtomicType.fields
    rw [List.getElem?_zip_eq_some]
    exact ⟨hs, List.getElem?_eq_getElem hi'⟩
  rw [List.getElem?_eq_getElem hi']
  exact congrArg some (fieldType_of_mem h.fields.nodup hmem m.rest).symm

section Atom

variable [BddIdentity] {den : SemType → Set V} {W : SemType → Prop} {m : MappingAtomicType}

omit [BddIdentity] in
/-- Every key has its type among the types that are united. -/
theorem applicableMemberTypes_spec (hm : m.Over (CellOf W)) {key : StringKey}
    (htold : key.Told m.names) :
    ∃ tys, mappingAtomicApplicableMemberTypesInner m key = some tys ∧ (∀ ty ∈ tys, W ty) ∧
      ∀ s, key.Has s → ∃ ty ∈ tys, cellInner (mappingAtomicTypeMemberAt m s) = some ty := by
  obtain ⟨types, htypes, hall⟩ := exists_mapM (f := cellInner)
    (P := fun c ty => cellInner c = some ty ∧ W ty)
    fun c hc => (hm.types c hc).imp fun ty h => ⟨h.1, h⟩
  obtain ⟨rest, hrest, hWrest⟩ := hm.rest
  have hW : ∀ ty ∈ types, W ty := forall_of_forall₂ hall fun c ty h => h.2
  have hnamed : ∀ {i : Nat} {s : String}, m.names[i]? = some s →
      ∃ ty, types[i]? = some ty ∧ cellInner (mappingAtomicTypeMemberAt m s) = some ty := by
    intro i s hs
    obtain ⟨hi, heq⟩ := List.getElem?_eq_some_iff.mp (memberAt_of_getElem? hm.sorted hs)
    have hi' : i < types.length := hall.length_eq ▸ hi
    refine ⟨types[i], List.getElem?_eq_getElem hi', ?_⟩
    rw [← heq]
    exact (hall.get hi hi').1
  have hother : ∀ {s : String}, s ∉ m.names →
      cellInner (mappingAtomicTypeMemberAt m s) = some rest := by
    intro s hs
    rw [memberAt_of_notMem hm.sorted hs]
    exact hrest
  unfold mappingAtomicApplicableMemberTypesInner
  rw [htypes, hrest]
  cases key with
  | all =>
    refine ⟨types ++ [rest], rfl, fun ty hty => ?_, fun s _ => ?_⟩
    · rcases List.mem_append.mp hty with hty | hty
      · exact hW ty hty
      · rw [List.mem_singleton.mp hty]
        exact hWrest
    · by_cases hs : s ∈ m.names
      · obtain ⟨i, hi⟩ := List.mem_iff_getElem?.mp hs
        obtain ⟨ty, hty, hinner⟩ := hnamed hi
        exact ⟨ty, List.mem_append_left _ (List.mem_of_getElem? hty), hinner⟩
      · exact ⟨rest, List.mem_append_right _ (List.mem_singleton_self rest), hother hs⟩
  | subtype d =>
    obtain ⟨hvalid, hfound, hcounted⟩ := htold
    have hnames : SortedBy compareEnumerable m.names :=
      hm.sorted.names.imp fun hlt => compareEnumerable_lt.mpr hlt
    have hindices := mem_indices_iff hnames hvalid hfound
    have hsubtype := (isSubtype_right_iff hnames hvalid hfound).mpr hcounted
    obtain ⟨tys, htys, hpos⟩ := exists_mapM (f := fun i : Nat => types[i]?)
      (P := fun i ty => types[i]? = some ty)
      (l := (stringSubtypeListCoverage d m.names).indices) fun i hi => by
        obtain ⟨s, hs, _⟩ := (hindices i).mp hi
        obtain ⟨ty, hty, _⟩ := hnamed hs
        exact ⟨ty, hty, hty⟩
    have hWtys : ∀ ty ∈ tys, W ty :=
      forall_of_forall₂ hpos fun i ty h => hW ty (List.mem_of_getElem? h)
    -- the rest type is left out only if every key is a name
    refine ⟨if (stringSubtypeListCoverage d m.names).isSubtype then tys else tys ++ [rest], ?_, ?_, ?_⟩
    · show (do
        let memberTypes ← (stringSubtypeListCoverage d m.names).indices.mapM (types[·]?)
        some (if (stringSubtypeListCoverage d m.names).isSubtype then memberTypes
          else memberTypes ++ [rest])) = _
      rw [htys]
      rfl
    · intro ty hty
      split at hty
      next => exact hWtys ty hty
      next =>
        rcases List.mem_append.mp hty with hty | hty
        · exact hWtys ty hty
        · rw [List.mem_singleton.mp hty]
          exact hWrest
    · intro s hs
      by_cases hname : s ∈ m.names
      · obtain ⟨i, hi⟩ := List.mem_iff_getElem?.mp hname
        obtain ⟨ty', hty', hinner⟩ := hnamed hi
        obtain ⟨ty, hty, hget⟩ := exists_of_forall₂ hpos i ((hindices i).mpr ⟨s, hi, hs⟩)
        have heq : ty' = ty := Option.some.inj (hty'.symm.trans hget)
        refine ⟨ty, ?_, heq ▸ hinner⟩
        split
        next => exact hty
        next => exact List.mem_append_left _ hty
      · have hnot : ¬ (stringSubtypeListCoverage d m.names).isSubtype = true :=
          fun h => hname (hsubtype.mp h s hs)
        rw [if_neg hnot]
        exact ⟨rest, List.mem_append_right _ (List.mem_singleton_self rest), hother hname⟩

theorem foldlM_unionMember_spec (hx : LossyTypes den W) : ∀ (tys : List SemType) (m : Option SemType),
    (∀ ty ∈ tys, W ty) → (∀ ty, m = some ty → W ty) →
    ∃ m', tys.foldlM unionMember m = some m' ∧ (∀ ty, m' = some ty → W ty) ∧
      ∀ ty, ty ∈ tys ∨ m = some ty → ∃ t, m' = some t ∧ den ty ⊆ den t
  | [], m, _, hm => by
    refine ⟨m, rfl, hm, fun ty hty => ⟨ty, ?_, subset_rfl⟩⟩
    exact hty.resolve_left List.not_mem_nil
  | ty :: tys, m, htys, hm => by
    have hty : W ty := htys ty (.head _)
    have hstep : ∃ t, unionMember m ty = some (some t) ∧ W t ∧ den ty ⊆ den t ∧
        ∀ ty', m = some ty' → den ty' ⊆ den t := by
      cases m with
      | none => exact ⟨ty, rfl, hty, subset_rfl, fun ty' h => by cases h⟩
      | some ty0 =>
        obtain ⟨t, ht, hW, hden⟩ := hx.union (hm ty0 rfl) hty
        refine ⟨t, ?_, hW, hden ▸ Set.subset_union_right, fun ty' h => ?_⟩
        · show (do return some (← union ops ty0 ty)) = _
          rw [ht]
          rfl
        · cases h
          exact hden ▸ Set.subset_union_left
    obtain ⟨t, ht, hW, hle, hle'⟩ := hstep
    obtain ⟨m', hm', hWm', hmem⟩ := foldlM_unionMember_spec hx tys (some t)
      (fun ty' hty' => htys ty' (.tail ty hty'))
      fun ty' h => (by cases h; exact hW)
    obtain ⟨t', ht', hle''⟩ := hmem t (.inr rfl)
    refine ⟨m', ?_, hWm', fun ty' hty' => ?_⟩
    · rw [List.foldlM_cons, ht]
      exact hm'
    · rcases hty' with hty' | hty'
      · rcases List.mem_cons.mp hty' with heq | hty'
        · exact ⟨t', ht', heq ▸ hle.trans hle''⟩
        · exact hmem ty' (.inl hty')
      · exact ⟨t', ht', (hle' ty' hty').trans hle''⟩

/-- An atom's type for the keys contains what its mappings have there. -/
theorem mappingAtomicMemberTypeInner_spec (hx : LossyTypes den W) (hundef : W (.bits UNDEF))
    (hm : m.Over (CellOf W)) {key : StringKey} (htold : key.Told m.names) :
    ∃ t, mappingAtomicMemberTypeInner m key = some t ∧ W t ∧
      ∀ f s v, m.Contains (cellsOf den) f → key.Has s → (f s).CanHold v → v ∈ den t := by
  obtain ⟨tys, htys, hW, hmem⟩ := applicableMemberTypes_spec hm htold
  obtain ⟨m', hm', hWm', hle⟩ := foldlM_unionMember_spec hx tys none hW fun ty h => (by cases h)
  refine ⟨m'.getD (.bits UNDEF), ?_, ?_, fun f s v hf hs hv => ?_⟩
  · unfold mappingAtomicMemberTypeInner
    rw [htys]
    show (do
      let memberType ← tys.foldlM unionMember none
      return memberType.getD (.bits UNDEF)) = _
    rw [hm']
    rfl
  · cases m' with
    | none => exact hundef
    | some t => exact hWm' t rfl
  · obtain ⟨ty, hty, hinner⟩ := hmem s hs
    obtain ⟨t, ht, hle'⟩ := hle ty (.inl hty)
    rw [ht]
    exact hle' (canHold_inner (hf s) hinner hv)

end Atom

/-! ## Every path -/

section Sound

variable [BddIdentity] {den : SemType → Set V} {W : SemType → Prop} {env : Env} {t k : SemType}
  {b : Bdd} {r : Option StringKey}

omit [BddIdentity] in
theorem mappingBdd_complex (c : ComplexSemType ProperSubtypeData) :
    mappingBdd (.complex c) = (getComplexSubtypeData c BT_MAPPING).bind (·.toBdd) := rfl

/-- The member type has every value that a mapping can hold at a key, and `UNDEF` if it can lack the
member; if `t` is a bit set, it has the values. -/
theorem mappingMemberTypeInner_contains (hx : LossyTypes den W) (hinner : W (.bits INNER))
    (hundef : W (.bits UNDEF)) (hb : mappingBdd t = some b)
    (hatoms : ∀ atom ∈ b.atoms, ∃ m, env.mappingAtomType atom = some m ∧ m.Over (CellOf W))
    (hr : stringSubtype k = some r)
    (htold : ∀ key, r = some key → ∀ atom ∈ b.atoms, ∀ m, env.mappingAtomType atom = some m →
      key.Told m.names)
    (hkeeps : ∀ key, r = some key → KeepsCommon den (KeyTypes env b key) (.bits INNER)) :
    ∃ ty, mappingMemberTypeInner env t k = some ty ∧ ∀ f s v, MappingOf den env t f →
      InStringKey k s → (f s).CanHold v → (∀ bits, t = .bits bits → v ∈ den (.bits VAL)) →
      v ∈ den ty := by
  unfold mappingMemberTypeInner
  cases t with
  | bits bits =>
    refine ⟨_, rfl, fun f s v hf _ _ hval => ?_⟩
    obtain ⟨b', hb', hholds⟩ := hf.holds
    cases hb'
    have hbit : bits &&& MAPPING ≠ 0 := by
      have : (bits &&& basicType BT_MAPPING != 0) = true := hholds
      exact bne_iff_ne.mp this
    rw [if_pos hbit]
    exact hval bits rfl
  | complex c =>
    rw [hr]
    cases r with
    | none =>
      refine ⟨.bits UNDEF, rfl, fun f s v _ hs => ?_⟩
      obtain ⟨key, hsome, _⟩ := hs
      rw [hr] at hsome
      cases hsome
    | some key =>
      obtain ⟨data, hdata, hbdd⟩ := Option.bind_eq_some_iff.mp ((mappingBdd_complex c).symm.trans hb)
      have hspec : ∀ atom ∈ b.atoms, ∃ m ty, env.mappingAtomType atom = some m ∧
          env.mappingAtomMemberType key atom = some ty ∧ W ty ∧
          ∀ f s v, m.Contains (cellsOf den) f → key.Has s → (f s).CanHold v → v ∈ den ty := by
        intro atom hatom
        obtain ⟨m, hm, hover⟩ := hatoms atom hatom
        obtain ⟨ty, hty, hW, hmem⟩ := mappingAtomicMemberTypeInner_spec hx hundef hover
          (htold key rfl atom hatom m hm)
        refine ⟨m, ty, hm, ?_, hW, hmem⟩
        unfold Env.mappingAtomMemberType
        rw [hm]
        exact hty
      have hW : ∀ ty, KeyTypes env b key ty → W ty := by
        intro ty ⟨atom, hatom, hty⟩
        obtain ⟨m, ty', _, hty', hW, _⟩ := hspec atom hatom
        rw [hty] at hty'
        cases hty'
        exact hW
      obtain ⟨ty, hty, _, hmem⟩ := bddMemberType_sound (P := (· ∈ b.atoms)) hx hW hinner
        (hkeeps key rfl)
        (fun atom hatom => by
          obtain ⟨_, ty, _, hty, _⟩ := hspec atom hatom
          exact ⟨ty, hty, atom, hatom, hty⟩)
        b (.bits INNER) (Bdd.over_of_atoms fun _ ha => ha) Accumulated.start
      refine ⟨ty, ?_, fun f s v hf hs hv _ => ?_⟩
      · show (do
          let data ← getComplexSubtypeData c BT_MAPPING
          let bdd ← data.toBdd
          bddMappingMemberTypeInner env bdd key (.bits INNER)) = _
        rw [hdata]
        show (do
          let bdd ← data.toBdd
          bddMappingMemberTypeInner env bdd key (.bits INNER)) = _
        rw [hbdd]
        exact hty
      · obtain ⟨b', hb', hholds⟩ := hf.holds
        rw [hb] at hb'
        cases hb'
        obtain ⟨key', hkey', hhas⟩ := hs
        rw [hr] at hkey'
        cases hkey'
        refine hmem f v hholds (hf.values s v hv) fun atom ty' hatom hcontains hty' => ?_
        obtain ⟨m, ty0, hm, hty0, _, hmember⟩ := hspec atom hatom
        rw [hty'] at hty0
        cases hty0
        exact hmember f s v ((Env.mappingContains_iff hm f).mp hcontains) hhas hv

end Sound

/-! ## The same mappings, written in two ways -/

def mappingType (atom : Atom) (left middle right : Bdd) : SemType :=
  basicSubtype BT_MAPPING (.bddNode atom left middle right)

theorem mappingBdd_mappingType (atom : Atom) (left middle right : Bdd) :
    mappingBdd (mappingType atom left middle right) = some (.node atom left middle right) := by
  unfold mappingBdd mappingType
  rw [subtypeData_basicSubtype]
  rfl

theorem mappingOf_mappingType {env : Env} {atom : Atom} {left middle right : Bdd}
    {f : String → CellValue V} :
    MappingOf den env (mappingType atom left middle right) f ↔
      (∀ s v, (f s).CanHold v → v ∈ den (.bits INNER)) ∧
      (Bdd.node atom left middle right).holds (env.MappingContains (cellsOf den) f) := by
  refine ⟨fun h => ⟨h.values, ?_⟩, fun h => ⟨h.1, _, mappingBdd_mappingType _ _ _ _, h.2⟩⟩
  obtain ⟨b, hb, hholds⟩ := h.holds
  rw [mappingBdd_mappingType] at hb
  cases hb
  exact hholds

theorem mappingMemberTypeInner_mappingType [BddIdentity] (env : Env) (atom : Atom)
    (left middle right : Bdd) :
    mappingMemberTypeInner env (mappingType atom left middle right) (.bits STRING) =
      bddMemberType (env.mappingAtomMemberType .all) (.node atom left middle right) (.bits INNER) := by
  let d : ProperSubtypeData := .bddNode atom left middle right
  have hdata : getComplexSubtypeData (createComplexSemType 0 [(BT_MAPPING, d)]) BT_MAPPING =
      some (.proper d) := subtypeData_basicSubtype BT_MAPPING d
  show (do
    let data ← getComplexSubtypeData (createComplexSemType 0 [(BT_MAPPING, d)]) BT_MAPPING
    let bdd ← data.toBdd
    bddMappingMemberTypeInner env bdd .all (.bits INNER)) = _
  rw [hdata]
  rfl

/-- The cells are those that hold a value of the type for ever. -/
theorem mem_cellsOf_readOnlyCell {i : Nat} {ty : SemType} {x : CellValue V} :
    x ∈ cellsOf den (readOnlyCell i ty) ↔ ∃ v, x = .readOnly v ∧ v ∈ den ty := by
  refine ⟨fun ⟨a, ha, hx⟩ => ?_, fun ⟨v, heq, hv⟩ => ?_⟩
  · rw [cellAtomicType_readOnlyCell] at ha
    cases ha
    cases x with
    | readOnly v => exact ⟨v, rfl, hx⟩
    | writable storable _ => exact nomatch hx.1
  · rw [heq]
    exact ⟨_, cellAtomicType_readOnlyCell i ty, hv⟩

/-- A closed record with one read-only field `x`. -/
def recordAtomicType (i : Nat) (ty : BasicTypeBitSet) : MappingAtomicType :=
  ⟨["x"], [readOnlyCell i (.bits ty)], readOnlyCell 2 (.bits UNDEF)⟩

def recordAtom (i : Nat) (ty : BasicTypeBitSet) : Atom :=
  .typeAtom i (.mapping ["x"] [readOnlyCell i (.bits ty)] (readOnlyCell 2 (.bits UNDEF)))

theorem mappingAtomType_recordAtom (env : Env) (i : Nat) (ty : BasicTypeBitSet) :
    env.mappingAtomType (recordAtom i ty) = some (recordAtomicType i ty) := rfl

theorem contains_recordAtom {env : Env} {i : Nat} {ty : BasicTypeBitSet}
    {f : String → CellValue BasicTypeCode} :
    env.MappingContains (cellsOf bitsDen) f (recordAtom i ty) ↔
      (∃ v, f "x" = .readOnly v ∧ v ∈ bitsDen (.bits ty)) ∧
        ∀ s ≠ "x", ∃ v, f s = .readOnly v ∧ v ∈ bitsDen (.bits UNDEF) := by
  rw [Env.mappingContains_iff (mappingAtomType_recordAtom env i ty)]
  have hfield : ∀ s, mappingAtomicTypeMemberAt (recordAtomicType i ty) s =
      if s = "x" then readOnlyCell i (.bits ty) else readOnlyCell 2 (.bits UNDEF) := by
    intro s
    exact fieldType_cons ("x", readOnlyCell i (.bits ty)) [] _ s
  refine ⟨fun h => ⟨?_, fun s hs => ?_⟩, fun h s => ?_⟩
  · have hx := h "x"
    rw [hfield, if_pos rfl] at hx
    exact mem_cellsOf_readOnlyCell.mp hx
  · have hx := h s
    rw [hfield, if_neg hs] at hx
    exact mem_cellsOf_readOnlyCell.mp hx
  · rw [hfield]
    split
    next hs => exact mem_cellsOf_readOnlyCell.mpr (hs ▸ h.1)
    next hs => exact mem_cellsOf_readOnlyCell.mpr (h.2 s hs)

theorem memberType_recordAtom [BddIdentity] (env : Env) (i : Nat) (ty : BasicTypeBitSet) :
    env.mappingAtomMemberType .all (recordAtom i ty) = some (.bits (ty ||| UNDEF)) := by
  show (do
    let types ← mappingAtomicApplicableMemberTypesInner (recordAtomicType i ty) .all
    let memberType ← types.foldlM unionMember none
    return memberType.getD (.bits UNDEF)) = _
  have htypes : mappingAtomicApplicableMemberTypesInner (recordAtomicType i ty) .all =
      some [.bits ty, .bits UNDEF] := by
    show (do
      let types ← [readOnlyCell i (.bits ty)].mapM cellInner
      let rest ← cellInner (readOnlyCell 2 (.bits UNDEF))
      some (types ++ [rest])) = _
    rw [List.mapM_cons, cellInner_readOnlyCell, cellInner_readOnlyCell]
    rfl
  rw [htypes]
  rfl

theorem bddMemberType_recordAtom [BddIdentity] {env : Env} {i : Nat} {ty accum : BasicTypeBitSet}
    {left middle right : Bdd} {l m r : BasicTypeBitSet}
    (hl : bddMemberType (env.mappingAtomMemberType .all) left (.bits ((ty ||| UNDEF) &&& accum)) =
      some (.bits l))
    (hm : bddMemberType (env.mappingAtomMemberType .all) middle (.bits accum) = some (.bits m))
    (hr : bddMemberType (env.mappingAtomMemberType .all) right (.bits accum) = some (.bits r)) :
    bddMemberType (env.mappingAtomMemberType .all) (.node (recordAtom i ty) left middle right)
      (.bits accum) = some (.bits (l ||| (m ||| r))) :=
  bddMemberType_node (memberType_recordAtom env i ty) rfl hl hm hr rfl

/-- `{|readonly int|string x;|} & !{|readonly int x;|}`. -/
def eitherNotInt : SemType :=
  mappingType (recordAtom 0 (basicType BT_INT ||| STRING))
    (.node (recordAtom 1 (basicType BT_INT)) (.leaf false) (.leaf false) (.leaf true))
    (.leaf false) (.leaf false)

/-- `{|readonly string x;|}`. -/
def stringRecord : SemType := mappingType (recordAtom 3 STRING) (.leaf true) (.leaf false) (.leaf false)

/-- The string `x`. -/
def xSubtype : StringSubtype := ⟨⟨true, ["x"]⟩, ⟨true, []⟩⟩

theorem xSubtype_valid : xSubtype.Valid := by
  refine ⟨⟨List.pairwise_singleton _ _, fun v hv => ?_⟩, List.Pairwise.nil, fun v hv => ?_⟩
  · rw [List.mem_singleton.mp hv]
    rfl
  · cases hv

theorem over_recordAtomicType (i : Nat) (ty : BasicTypeBitSet) :
    (recordAtomicType i ty).Over (CellOf IsBits) where
  sorted := ⟨rfl, List.pairwise_singleton _ _⟩
  types c hc := by
    rw [List.mem_singleton.mp hc]
    exact ⟨_, cellInner_readOnlyCell _ _, isBits ty⟩
  rest := ⟨_, cellInner_readOnlyCell _ _, isBits UNDEF⟩

/-- The members of these records at `x`. -/
theorem mappingMemberTypeInner_contains_x :
    let _ := BddIdentity.shared
    ∃ ty, mappingMemberTypeInner Env.init eitherNotInt (basicSubtype BT_STRING (.string xSubtype)) =
      some ty ∧ ∀ f s v, MappingOf bitsDen Env.init eitherNotInt f →
        InStringKey (basicSubtype BT_STRING (.string xSubtype)) s → (f s).CanHold v →
        (∀ bits, eitherNotInt = .bits bits → v ∈ bitsDen (.bits VAL)) → v ∈ bitsDen ty := by
  intro _
  have hkey : stringSubtype (basicSubtype BT_STRING (.string xSubtype)) =
      some (some (.subtype xSubtype)) := by
    unfold stringSubtype
    rw [subtypeData_basicSubtype]
    rfl
  have hatoms : ∀ atom ∈ (Bdd.node (recordAtom 0 (basicType BT_INT ||| STRING))
      (.node (recordAtom 1 (basicType BT_INT)) (.leaf false) (.leaf false) (.leaf true))
      (.leaf false) (.leaf false)).atoms, ∃ m, Env.init.mappingAtomType atom = some m ∧
        m.Over (CellOf IsBits) := by
    intro atom hatom
    simp only [Bdd.atoms, List.append_nil, List.mem_cons, List.not_mem_nil, or_false] at hatom
    rcases hatom with heq | heq
    · rw [heq]
      exact ⟨_, mappingAtomType_recordAtom _ _ _, over_recordAtomicType _ _⟩
    · rw [heq]
      exact ⟨_, mappingAtomType_recordAtom _ _ _, over_recordAtomicType _ _⟩
  have htold : ∀ names, (StringKey.subtype xSubtype).Told names :=
    fun names => ⟨xSubtype_valid, told_of_allowed rfl rfl names⟩
  refine mappingMemberTypeInner_contains exactTypes_bits.lossy (isBits INNER) (isBits UNDEF)
    (mappingBdd_mappingType _ _ _ _) hatoms hkey ?_ ?_
  · intro key heq atom _ m _
    cases heq
    exact htold m.names
  · intro key heq
    cases heq
    refine exactTypes_bits.keepsCommon (fun ty ⟨atom, hatom, hty⟩ => ?_) (isBits INNER)
    obtain ⟨m, hm, hover⟩ := hatoms atom hatom
    obtain ⟨ty', hty', hbits, _⟩ := mappingAtomicMemberTypeInner_spec exactTypes_bits.lossy
      (isBits UNDEF) hover (htold m.names)
    unfold Env.mappingAtomMemberType at hty
    rw [hm] at hty
    have heq : ty' = ty := Option.some.inj (hty'.symm.trans hty)
    exact heq ▸ hbits

theorem string_iff : ∀ c : BasicTypeCode, STRING.getLsbD c.val = true ↔
    (basicType BT_INT ||| STRING).getLsbD c.val = true ∧ ¬ (basicType BT_INT).getLsbD c.val = true := by
  decide

theorem keyBits_ne :
    0 ||| (0 ||| ((basicType BT_INT ||| STRING ||| UNDEF) &&& INNER)) ||| (0 ||| 0) ≠
      ((STRING ||| UNDEF) &&& INNER) ||| (0 ||| 0) := by
  decide

/-- Both have the same mappings, but only one has no int among its members. -/
theorem mappingMemberTypeInner_not_semantic :
    let _ := BddIdentity.shared
    (∀ f, MappingOf bitsDen Env.init eitherNotInt f ↔ MappingOf bitsDen Env.init stringRecord f) ∧
      ∃ ty1 ty2, mappingMemberTypeInner Env.init eitherNotInt (.bits STRING) = some ty1 ∧
        mappingMemberTypeInner Env.init stringRecord (.bits STRING) = some ty2 ∧ ty1 ≠ ty2 := by
  intro _
  refine ⟨fun f => ?_, _, _, ?_, ?_, fun h => keyBits_ne (SemTypeOf.bits.inj h)⟩
  · unfold eitherNotInt stringRecord
    rw [mappingOf_mappingType, mappingOf_mappingType]
    simp only [Bdd.holds_node, Bdd.holds_true, Bdd.holds_false, contains_recordAtom, and_true,
      and_false, or_false, false_or]
    refine and_congr_right fun _ => ⟨?_, ?_⟩
    · rintro ⟨⟨⟨v, hx, hv⟩, hrest⟩, hnot⟩
      exact ⟨⟨v, hx, (string_iff v).mpr ⟨hv, fun hint => hnot ⟨⟨v, hx, hint⟩, hrest⟩⟩⟩, hrest⟩
    · rintro ⟨⟨v, hx, hv⟩, hrest⟩
      refine ⟨⟨⟨v, hx, ((string_iff v).mp hv).1⟩, hrest⟩, ?_⟩
      rintro ⟨⟨w, hx', hint⟩, -⟩
      rw [hx] at hx'
      cases hx'
      exact ((string_iff v).mp hv).2 hint
  · unfold eitherNotInt
    rw [mappingMemberTypeInner_mappingType]
    exact bddMemberType_recordAtom (bddMemberType_recordAtom rfl rfl rfl) rfl rfl
  · unfold stringRecord
    rw [mappingMemberTypeInner_mappingType]
    exact bddMemberType_recordAtom rfl rfl rfl

end Nballerina.Types
