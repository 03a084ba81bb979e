import Nballerina.Front.ResolveSpec
import Nballerina.Types.FixedLength

/-!
# Lengths of arrays

The member lists that `resolveTypeDesc` passes to `ListDefinition.define` are those of tuples, whose length is the
number of members, and those of array dimensions, whose length is a constant of the program.
"array length should be a non-negative integer constant" is the message if the constant is no `int`; that it is
not negative is not checked, and a negative length is stored as it is (`listsNormal_defineDimension_iff`).
If no length is negative, all lists of the `Env` are normal after every run (`steps_resolver`).
-/

namespace Nballerina.Front

open Nballerina.Types

/-! ## Making cells and structures -/

/-- The function keeps lists normal. -/
def KeepsLists {α : Type} (f : EnvM α) : Prop :=
  ∀ ⦃env a env'⦄, f env = some (a, env') → env.ListsNormal → env'.ListsNormal

section Keeps

variable {α β : Type}

theorem keeps_pure (a : α) : KeepsLists (pure a : EnvM α) := by
  intro env b env' h hnormal
  cases h
  exact hnormal

theorem keeps_lift (o : Option α) : KeepsLists (StateT.lift o : EnvM α) := by
  intro env a env' h hnormal
  cases o with
  | none => cases h
  | some b =>
    cases h
    exact hnormal

theorem KeepsLists.bind {f : EnvM α} {g : α → EnvM β} (hf : KeepsLists f) (hg : ∀ a, KeepsLists (g a)) :
    KeepsLists (f >>= g) := by
  intro env b env2 h hnormal
  obtain ⟨⟨a, env1⟩, hfa, hgb⟩ := Option.bind_eq_some_iff.mp h
  exact hg a hgb (hf hfa hnormal)

theorem keeps_mapM {f : α → EnvM β} (hf : ∀ a, KeepsLists (f a)) : ∀ l : List α, KeepsLists (l.mapM f) := by
  intro l
  induction l with
  | nil =>
    rw [List.mapM_nil]
    exact keeps_pure []
  | cons a l ih =>
    rw [List.mapM_cons]
    exact (hf a).bind fun b => ih.bind fun bs => keeps_pure (b :: bs)

theorem length_mapM {f : α → EnvM β} : ∀ {l : List α} {env : Env} {l' : List β} {env' : Env},
    l.mapM f env = some (l', env') → l'.length = l.length
  | [], env, l', env', h => by
    cases h
    rfl
  | a :: l, env, l', env', h => by
    rw [List.mapM_cons] at h
    obtain ⟨⟨b, env1⟩, _, h⟩ := Option.bind_eq_some_iff.mp h
    obtain ⟨⟨bs, env2⟩, hbs, h⟩ := Option.bind_eq_some_iff.mp h
    cases h
    exact congrArg Nat.succ (length_mapM hbs)

theorem keeps_makeCell (ty : SemType) (mutability : CellMutability) : KeepsLists (makeCell ty mutability) := by
  intro env a env' h hnormal
  cases h
  exact (hnormal.typeAtom_iff _).mpr fun l hl => by cases hl

theorem keeps_defineMapping (fields : List (String × SemType)) (rest : SemType) :
    KeepsLists (defineMapping {} fields rest) := by
  intro env a env' h hnormal
  by_cases htop : fields.length = 0 ∧ rest = CELL_SEMTYPE_INNER
  · simp only [defineMapping, MappingDefinition.define, if_pos htop] at h
    cases h
    exact hnormal
  · simp only [defineMapping, MappingDefinition.define, if_neg htop] at h
    cases h
    exact (hnormal.typeAtom_iff _).mpr fun l hl => by cases hl

variable [BddIdentity]

theorem keeps_restCell (rest : SemType) (mutability : CellMutability) :
    KeepsLists (restCell rest mutability) :=
  (keeps_lift _).bind fun ty => keeps_makeCell ty _

theorem keeps_listCells (initial : List SemType) (rest : SemType) (mutability : CellMutability) :
    KeepsLists (listCells initial rest mutability) :=
  (keeps_mapM (fun ty => keeps_makeCell ty mutability) initial).bind fun cells =>
    (keeps_restCell rest mutability).bind fun cell => keeps_pure (cells, cell)

/-- There is a cell for each member. -/
theorem length_listCells {initial : List SemType} {rest : SemType} {mutability : CellMutability} {env : Env}
    {cells : List SemType × SemType} {env' : Env} (h : listCells initial rest mutability env = some (cells, env')) :
    cells.1.length = initial.length := by
  obtain ⟨⟨initialCells, env1⟩, hcells, h⟩ := Option.bind_eq_some_iff.mp h
  obtain ⟨⟨restCell, env2⟩, _, h⟩ := Option.bind_eq_some_iff.mp h
  cases h
  exact length_mapM hcells

omit [BddIdentity] in
/-- The number of the members fits. -/
theorem lengthFits_length (initial : List SemType) : LengthFits initial initial.length := by
  by_cases hnil : initial = []
  · subst hnil
    exact .inl rfl
  · have hpos := List.length_pos_of_ne_nil hnil
    refine .inr ⟨initial.length - 1, by omega, by omega, fun i hi hlt => ?_⟩
    rw [List.getLast?_eq_getElem?, show i = initial.length - 1 by omega]

omit [BddIdentity] in
/-- One member fits each length but the negative ones. -/
theorem lengthFits_singleton (cell : SemType) (length : Int) : LengthFits [cell] length ↔ 0 ≤ length := by
  constructor
  · rintro (h | ⟨k, _, hk, _⟩)
    · omega
    · omega
  · intro h
    rcases eq_or_lt_of_le h with hzero | hpos
    · exact .inl hzero.symm
    · refine .inr ⟨0, Nat.one_pos, hpos, fun i _ hi => ?_⟩
      obtain rfl : i = 0 := by
        rw [List.length_singleton] at hi
        omega
      rfl

/-- The lists that the front end wraps have their own length. -/
theorem keeps_defineListTypeWrapped (initial : List SemType) (rest : SemType) (mutability : CellMutability) :
    KeepsLists (defineListTypeWrapped {} initial initial.length rest mutability) := by
  intro env a env' h hnormal
  obtain ⟨⟨cells, env1⟩, hcells, h⟩ := Option.bind_eq_some_iff.mp h
  have henv : env' = (ListDefinition.define {} env1 cells.1 initial.length cells.2).2.2 :=
    (congrArg Prod.snd (Option.some.inj h)).symm
  rw [henv]
  refine (keeps_listCells _ _ _ hcells hnormal).define ?_
  rw [← length_listCells hcells]
  exact lengthFits_length cells.1

theorem keeps_tableContaining (mappingType : SemType) (mutability : CellMutability) :
    KeepsLists (tableContaining mappingType mutability) := by
  refine (keeps_defineListTypeWrapped [] mappingType mutability).bind fun listType => ?_
  refine (keeps_lift _).bind fun data => (keeps_lift _).bind fun bdd => ?_
  split
  · exact keeps_pure _
  · exact keeps_pure _

theorem keeps_mappingCells (fields : List Field) (rest : SemType) (mutability : CellMutability) :
    KeepsLists (mappingCells fields rest mutability) := by
  have hfield : ∀ f : Field, KeepsLists (fieldCell f mutability) := fun f =>
    (keeps_lift _).bind fun ty => (keeps_makeCell ty _).bind fun cell => keeps_pure (f.name, cell)
  exact (keeps_mapM hfield fields).bind fun cells =>
    (keeps_restCell rest mutability).bind fun cell => keeps_pure (cells, cell)

theorem keeps_memberRecord (valueTy : SemType) (kind : MemberKind) : KeepsLists (memberRecord valueTy kind) := by
  cases kind with
  | field =>
    exact ((keeps_mappingCells _ _ _).bind fun cells =>
      keeps_defineMapping cells.1 cells.2).bind fun s => keeps_pure s.1
  | method =>
    exact ((keeps_mappingCells _ _ _).bind fun cells =>
      keeps_defineMapping cells.1 cells.2).bind fun s => keeps_pure s.1

theorem keeps_objectCells (members : List Member) : KeepsLists (objectCells members) := by
  have hmember : ∀ member : Member, KeepsLists (objectMemberCell member) := fun member =>
    (keeps_memberRecord _ _).bind fun ty => (keeps_makeCell ty _).bind fun cell =>
      keeps_pure (member.name, cell)
  have hrest : KeepsLists restMemberType :=
    (keeps_memberRecord _ _).bind fun t1 => (keeps_memberRecord _ _).bind fun t2 =>
      (keeps_lift _).bind fun ty => keeps_makeCell ty _
  exact (keeps_mapM hmember members).bind fun cells => hrest.bind fun rest =>
    keeps_pure (cells, rest)

end Keeps

/-- Asking for emptiness only interns cells. -/
theorem listsNormal_runProg [BddIdentity] {env : Env} {fuel : Nat} {p : EmptyM Bool} {cx cx' : Context}
    {b : Bool} (h : (emptiness env).runProg fuel p cx = .done b cx') (hnormal : cx.env.ListsNormal) :
    cx'.env.ListsNormal := by
  have hgrown : (emptiness env).Grown cx.env cx'.env :=
    exec_grown (fun p => run_grown fuel (.inl p)) (fun q => run_grown fuel (.inr q)) p cx h
  generalize cx'.env = env' at hgrown ⊢
  induction hgrown with
  | refl => exact hnormal
  | tail _ hstep ih =>
    obtain ⟨c, rfl⟩ := hstep
    exact (ih.typeAtom_iff _).mpr fun l hl => by cases hl

theorem length_inEnv_listCells [BddIdentity] {initial : List SemType} {rest : SemType}
    {mutability : CellMutability} {st st' : ResolveState} {cells : List SemType × SemType}
    (h : inEnv (listCells initial rest mutability) st = .ok (cells, st')) : cells.1.length = initial.length := by
  unfold inEnv at h
  split at h
  next c env henv =>
    cases h
    exact length_listCells henv
  next => cases h

/-! ## Steps -/

/-- No dimension of an array of the module has a negative length. -/
def NonNegativeLengths (mod : Module) (st : ResolveState) : Prop :=
  ∀ td member dimensions, mod.td td = .array member dimensions → ∀ len ∈ dimensions.1,
    ∀ modDefn n, LengthIs mod st modDefn len (some n) → 0 ≤ n

/-- From `st` to `st'` lists stay normal, if no length is negative; constants keep their values. -/
structure ListsStep (mod : Module) (st st' : ResolveState) : Prop where
  resolved : ∀ {name r}, st.resolved name = .resolved r → st'.resolved name = .resolved r
  evaluating : ∀ {name}, st.resolved name = .evaluating → st'.resolved name = .evaluating
  lists : NonNegativeLengths mod st' → st.env.ListsNormal → st'.env.ListsNormal

section Steps

variable {mod : Module} {st st' st'' : ResolveState} {α β : Type}

/-- The lengths that are known are known later. -/
theorem NonNegativeLengths.of_later (hst : NonNegativeLengths mod st')
    (h : ∀ {name r}, st.resolved name = .resolved r → st'.resolved name = .resolved r) :
    NonNegativeLengths mod st := by
  intro td member dimensions htd len hlen modDefn n hn
  refine hst td member dimensions htd len hlen modDefn n ?_
  cases hn with
  | literal => exact .literal
  | const hname hvalue => exact .const (h hname) hvalue
  | imported hq hdefn hvalue => exact .imported hq hdefn hvalue

/-- Lengths that are not negative later are not so before. -/
theorem ListsStep.nonNegative (h : ListsStep mod st st') (hst : NonNegativeLengths mod st') :
    NonNegativeLengths mod st := hst.of_later h.resolved

theorem ListsStep.refl (mod : Module) (st : ResolveState) : ListsStep mod st st := ⟨id, id, fun _ => id⟩

theorem ListsStep.trans (h : ListsStep mod st st') (h' : ListsStep mod st' st'') : ListsStep mod st st'' where
  resolved hr := h'.resolved (h.resolved hr)
  evaluating he := h'.evaluating (h.evaluating he)
  lists hst hnormal := h'.lists hst (h.lists (h'.nonNegative hst) hnormal)

/-- Only the environment changes. -/
theorem ListsStep.ofEnv (hresolved : st'.resolved = st.resolved)
    (henv : st.env.ListsNormal → st'.env.ListsNormal) : ListsStep mod st st' :=
  ⟨fun h => hresolved ▸ h, fun h => hresolved ▸ h, fun _ => henv⟩

/-- Running `x` is such a step. -/
def Steps (mod : Module) (x : ResolveM α) : Prop := ∀ ⦃st a st'⦄, x st = .ok (a, st') → ListsStep mod st st'

theorem steps_pure (a : α) : Steps mod (pure a : ResolveM α) := by
  intro st b st' h
  cases h
  exact .refl mod st

/-- Steps follow each other. -/
theorem Steps.bind {x : ResolveM α} {f : α → ResolveM β} (hx : Steps mod x) (hf : ∀ a, Steps mod (f a)) :
    Steps mod (x >>= f) := by
  intro st b st'' h
  obtain ⟨a, st', hxa, hfb⟩ := bind_ok h
  exact (hx hxa).trans (hf a hfb)

theorem steps_fail (f : Failure) : Steps mod (fail f : ResolveM α) := by
  intro st b st' h
  cases h

theorem steps_semanticErr (message : String) (loc : Location) :
    Steps mod (semanticErr message loc : ResolveM α) := steps_fail _

theorem steps_need (o : Option α) : Steps mod (need o) := by
  intro st a st' h
  obtain ⟨_, rfl⟩ := need_ok h
  exact .refl mod _

theorem steps_get : Steps mod (get : ResolveM ResolveState) := by
  intro st a st' h
  cases h
  exact .refl mod st

theorem steps_modify {f : ResolveState → ResolveState} (henv : ∀ st, (f st).env = st.env)
    (hresolved : ∀ st, (f st).resolved = st.resolved) : Steps mod (modify f : ResolveM Unit) := by
  intro st a st' h
  cases h
  exact .ofEnv (hresolved st) fun hnormal => (henv st).symm ▸ hnormal

theorem Steps.map {x : ResolveM α} (hx : Steps mod x) (f : α → β) : Steps mod (f <$> x) := by
  rw [map_eq_pure_bind]
  exact hx.bind fun a => steps_pure (f a)

theorem steps_mapM {f : α → ResolveM β} (hf : ∀ a, Steps mod (f a)) : ∀ l : List α, Steps mod (l.mapM f) := by
  intro l
  induction l with
  | nil =>
    rw [List.mapM_nil]
    exact steps_pure []
  | cons a l ih =>
    rw [List.mapM_cons]
    exact (hf a).bind fun b => ih.bind fun bs => steps_pure (b :: bs)

theorem steps_inEnv {f : EnvM α} (hf : KeepsLists f) : Steps mod (inEnv f) := by
  intro st a st' h
  unfold inEnv at h
  split at h
  next b env henv =>
    cases h
    exact .ofEnv rfl (hf henv)
  next => cases h

theorem steps_getSemTypeFor (owner : Owner) (kind : DefinitionKind) (d : Definition) :
    Steps mod (getSemTypeFor owner kind d) := by
  intro st a st' h
  have hkeep : st.env.ListsNormal → (kind.getSemType d st.env).2.2.ListsNormal := by
    intro hnormal
    cases hs : d.semType with
    | some s => cases kind <;> simpa only [DefinitionKind.getSemType, ListDefinition.getSemType,
        MappingDefinition.getSemType, FunctionDefinition.getSemType, Definition.getSemType, hs] using hnormal
    | none =>
      cases kind with
      | list =>
        simp only [DefinitionKind.getSemType, ListDefinition.getSemType, Definition.getSemType, hs]
        refine ⟨hnormal.interned, fun l hl => ?_⟩
        rcases List.mem_append.mp hl with hl | hl
        · exact hnormal.recursive l hl
        · cases List.mem_singleton.mp hl
      | mapping =>
        simp only [DefinitionKind.getSemType, MappingDefinition.getSemType, Definition.getSemType, hs]
        exact ⟨hnormal.interned, hnormal.recursive⟩
      | function =>
        simp only [DefinitionKind.getSemType, FunctionDefinition.getSemType, Definition.getSemType, hs]
        exact ⟨hnormal.interned, hnormal.recursive⟩
  unfold getSemTypeFor at h
  dsimp only at h
  split at h <;> (cases h; exact .ofEnv rfl hkeep)

variable {d : Definition} {kind : DefinitionKind}
  {define : Definition → Env → SemType × Definition × Env}

/-- Defining something in a way that keeps lists normal, if no length is negative. -/
theorem step_defineWith {r : SemType × Definition} (h : defineWith kind d define st = .ok (r, st'))
    (hdefine : NonNegativeLengths mod st → st.env.ListsNormal → (define d st.env).2.2.ListsNormal) :
    ListsStep mod st st' := by
  unfold defineWith at h
  dsimp only at h
  have hstep : ListsStep mod st (st.setEnv (define d st.env).2.2) :=
    ⟨id, id, fun hst => hdefine (hst.of_later id)⟩
  split at h
  · cases h
    exact hstep.trans (.ofEnv rfl id)
  · cases h
    exact hstep

/-- A definition of a descriptor is a step if `define` keeps lists normal. -/
theorem step_defineDesc {td : TdId} {s : SemType} (h : defineDesc kind td define st = .ok (s, st'))
    (hdefine : NonNegativeLengths mod st → ∀ d, st.env.ListsNormal → (define d st.env).2.2.ListsNormal) :
    ListsStep mod st st' := by
  obtain ⟨d, _, s', d', st2, hwith, _, rfl⟩ := defineDesc_ok h
  exact (step_defineWith hwith fun hst => hdefine hst d).trans (.ofEnv rfl id)

theorem steps_defineWith (hdefine : ∀ d env, env.ListsNormal → (define d env).2.2.ListsNormal) :
    Steps mod (defineWith kind d define) := fun _ _ _ h => step_defineWith h fun _ => hdefine d _

theorem steps_defineDesc {td : TdId}
    (hdefine : ∀ d env, env.ListsNormal → (define d env).2.2.ListsNormal) :
    Steps mod (defineDesc kind td define) := fun _ _ _ h => step_defineDesc h fun _ d => hdefine d _

theorem steps_getSemTypeAgain (kind : DefinitionKind) (td : TdId) (d : Definition) :
    Steps mod (getSemTypeAgain kind td d) :=
  (steps_modify (fun _ => by rfl) fun _ => by rfl).bind fun _ => (steps_getSemTypeFor _ kind d).bind fun _ =>
    (steps_modify (fun _ => by rfl) fun _ => by rfl).bind fun _ => steps_pure _

theorem steps_newDefn (td : TdId) : Steps mod (newDefn td) := by
  intro st a st' h
  cases h
  exact .ofEnv rfl id

theorem steps_finish (td : TdId) : Steps mod (finish td) := steps_modify (fun _ => by rfl) fun _ => by rfl

/-! A definition of each kind keeps lists normal. -/

theorem listsNormal_defineList {env : Env} (cells : List SemType) (rest : SemType) (h : env.ListsNormal) :
    (ListDefinition.define d env cells cells.length rest).2.2.ListsNormal :=
  h.define (lengthFits_length cells)

theorem listsNormal_defineMapping {env : Env} (fields : List (String × SemType)) (rest : SemType)
    (h : env.ListsNormal) : (MappingDefinition.define d env fields rest).2.2.ListsNormal := by
  cases hrec : d.recAtom with
  | some ra =>
    simp only [MappingDefinition.define, hrec, Definition.createSemType]
    exact ⟨h.interned, h.recursive⟩
  | none =>
    simp only [MappingDefinition.define, hrec, Definition.createSemType]
    split
    next => exact h
    next => exact (h.typeAtom_iff _).mpr fun l hl => by cases hl

theorem listsNormal_defineFunction {env : Env} (args ret : SemType) (h : env.ListsNormal) :
    (FunctionDefinition.define d env args ret).2.2.ListsNormal := by
  cases hrec : d.recAtom with
  | some ra =>
    simp only [FunctionDefinition.define, hrec, Definition.createSemType]
    exact ⟨h.interned, h.recursive⟩
  | none =>
    simp only [FunctionDefinition.define, hrec, Definition.createSemType]
    exact (h.typeAtom_iff _).mpr fun l hl => by cases hl

section Resolve

variable [BddIdentity]

theorem steps_ask (fuel : Nat) (p : EmptyM Bool) : Steps mod (ask fuel p) := by
  intro st b st' h
  unfold ask at h
  split at h
  next r tc hdone =>
    cases h
    exact .ofEnv rfl (listsNormal_runProg hdone)
  next => cases h
  next => cases h

theorem steps_defineListAndMapping (listDef mapDef : Definition) (ty : SemType) :
    Steps mod (defineListAndMapping listDef mapDef ty) := by
  intro st u st' h
  obtain ⟨⟨cells, rest⟩, st1, hcells, h⟩ := bind_ok h
  obtain rfl : cells = [] := List.eq_nil_of_length_eq_zero (length_inEnv_listCells hcells)
  refine (steps_inEnv (keeps_listCells _ _ _) hcells).trans ?_
  refine ((steps_defineWith fun d env => listsNormal_defineList [] rest).bind fun _ =>
    (steps_inEnv (keeps_mappingCells _ _ _)).bind fun fields =>
      (steps_defineWith fun d env => listsNormal_defineMapping fields.1 fields.2).bind fun _ =>
        steps_pure ()) h

theorem steps_createJson : Steps mod createJson := by
  refine steps_get.bind fun st => ?_
  split
  next => exact steps_pure _
  next =>
    exact (steps_getSemTypeFor _ _ _).bind fun _ => (steps_getSemTypeFor _ _ _).bind fun _ =>
      (steps_need _).bind fun _ => (steps_defineListAndMapping _ _ _).bind fun _ =>
        (steps_modify (fun _ => by rfl) fun _ => by rfl).bind fun _ => steps_pure _

theorem steps_createAnydata : Steps mod createAnydata := by
  refine steps_get.bind fun st => ?_
  split
  next => exact steps_pure _
  next =>
    exact (steps_getSemTypeFor _ _ _).bind fun _ => (steps_inEnv (keeps_tableContaining _ _)).bind fun _ =>
      (steps_getSemTypeFor _ _ _).bind fun _ => (steps_need _).bind fun _ =>
        (steps_defineListAndMapping _ _ _).bind fun _ =>
          (steps_modify (fun _ => by rfl) fun _ => by rfl).bind fun _ => steps_pure _

theorem steps_isCyclic (fuel : Nat) (ty : SemType) : Steps mod (isCyclic fuel ty) := by
  refine (steps_ask fuel _).bind fun b => ?_
  split
  · exact steps_get.bind fun st => steps_need _
  · exact steps_pure _

theorem steps_nonEmptyTypeNoDefer (fuel : Nat) (semType : SemType) (modDefn : String) (td : TdId) :
    Steps mod (nonEmptyTypeNoDefer fuel mod semType modDefn td) := by
  refine (steps_ask fuel _).bind fun b => ?_
  split
  · refine Steps.bind ?_ fun b => ?_
    · unfold emptyByIntersection
      split
      · exact steps_pure _
      · exact steps_get.bind fun st => steps_need _
    · split
      · exact steps_semanticErr _ _
      · refine (steps_isCyclic fuel semType).bind fun b => ?_
        split
        · exact steps_semanticErr _ _
        · exact steps_modify (fun _ => by rfl) fun _ => by rfl
  · exact steps_pure _

theorem steps_nonEmptyType (fuel : Nat) (modDefn : String) (td : TdId) (semType : SemType) :
    Steps mod (nonEmptyType fuel mod modDefn td semType) := by
  refine steps_get.bind fun st => ?_
  split
  · exact (steps_modify (fun _ => by rfl) fun _ => by rfl).bind fun _ => steps_pure _
  · exact (steps_nonEmptyTypeNoDefer fuel semType modDefn td).bind fun _ => steps_pure _

/-! ## Descriptors -/

/-- What is known of the functions that are called recursively. -/
structure CalleesStep (c : Callees) (mod : Module) : Prop where
  typeDesc : ∀ modDefn depth td, Steps mod (c.typeDesc modDefn depth td)
  constDefn : ∀ name, Steps mod (c.constDefn name)
  constValue : ∀ {name st r st'}, c.constDefn name st = .ok (r, st') → st'.resolved name = .resolved r

variable {c : Callees}

omit [BddIdentity] in
theorem steps_resolveTypeDefn (hc : CalleesStep c mod) (name : String) (td : TdId) (depth : Int) :
    Steps mod (resolveTypeDefn c name td depth) := by
  refine steps_get.bind fun st => ?_
  split
  · exact steps_pure _
  · refine steps_get.bind fun st => ?_
    split
    · exact steps_semanticErr _ _
    · refine (steps_modify (fun _ => by rfl) fun _ => by rfl).bind fun _ => (hc.typeDesc _ _ _).bind fun s => ?_
      refine steps_get.bind fun st => ?_
      split
      · exact (steps_modify (fun _ => by rfl) fun _ => by rfl).bind fun _ => steps_pure _
      · exact steps_pure _

theorem steps_resolveSubsetTypeDesc (hc : CalleesStep c mod) (modDefn : String) (td : TdId) :
    Steps mod (resolveSubsetTypeDesc c modDefn td) := by
  refine (hc.typeDesc _ _ _).bind fun ty => (steps_ask _ _).bind fun b => ?_
  split
  · exact steps_semanticErr _ _
  · exact steps_pure _

omit [BddIdentity] in
theorem steps_lookupPrefix (modDefn qualifier : String) (place : Place) :
    Steps mod (lookupPrefix mod modDefn qualifier place) := by
  unfold lookupPrefix
  split
  · exact steps_pure _
  · exact steps_semanticErr _ _

omit [BddIdentity] in
theorem steps_ofLiteral (result : Except Failure ResolvedConst) : Steps mod (ofLiteral result) := by
  intro st r st' h
  cases result with
  | error e => cases h
  | ok r' =>
    cases h
    exact .refl mod _

omit [BddIdentity] in
theorem steps_resolveVarRef (hc : CalleesStep c mod) (modDefn : String) (qualifier : Option String) (name : String) :
    Steps mod (resolveVarRef c mod modDefn qualifier name) := by
  unfold resolveVarRef
  split
  · refine (steps_lookupPrefix _ _ _).bind fun defns => ?_
    split
    · exact steps_pure _
    · exact steps_fail _
    · exact steps_semanticErr _ _
  · split
    · exact hc.constDefn name
    · exact steps_fail _

omit [BddIdentity] in
theorem steps_resolveLength (hc : CalleesStep c mod) (modDefn : String) (len : Option SimpleConstExpr) :
    Steps mod (resolveLength c mod modDefn len) := by
  cases len with
  | none => exact steps_pure _
  | some e =>
    refine Steps.map (Steps.bind ?_ fun r => ?_) _
    · cases e with
      | literal result => exact steps_ofLiteral result
      | varRef qualifier name => exact steps_resolveVarRef hc modDefn qualifier name
    · split
      · exact steps_pure _
      · exact steps_semanticErr _ _

omit [BddIdentity] in
/-- A prefix that is found is that of an imported module. -/
theorem lookupPrefix_ok {modDefn q : String} {place : Place} {st st' : ResolveState}
    {defns : String → Option ExportedDefn} (h : lookupPrefix mod modDefn q place st = .ok (defns, st')) :
    mod.imported modDefn q = some defns := by
  cases hd : mod.imported modDefn q with
  | none =>
    simp only [lookupPrefix, hd] at h
    cases h
  | some d =>
    simp only [lookupPrefix, hd] at h
    cases h
    rfl

omit [BddIdentity] in
/-- A constant that is referred to is resolved afterwards. -/
theorem resolveVarRef_resolved (hc : CalleesStep c mod) {modDefn name : String} {st st' : ResolveState}
    {r : ResolvedConst} (h : resolveVarRef c mod modDefn none name st = .ok (r, st')) :
    st'.resolved name = .resolved r := by
  cases hd : mod.defn name with
  | none =>
    simp only [resolveVarRef, hd] at h
    cases h
  | some defn =>
    cases defn with
    | constDefn td expr =>
      simp only [resolveVarRef, hd] at h
      exact hc.constValue h
    | _ =>
      simp only [resolveVarRef, hd] at h
      cases h

variable {length : Option Int}

omit [BddIdentity] in
/-- The length that is found is the one of the expression. -/
theorem lengthIs_of_resolveLength (hc : CalleesStep c mod) {modDefn : String}
    {len : Option SimpleConstExpr} {st st' : ResolveState}
    (h : resolveLength c mod modDefn len st = .ok (length, st')) :
    LengthIs mod st' modDefn len length := by
  cases len with
  | none =>
    cases h
    exact .unspecified
  | some e =>
    have h : (some <$> resolveConstExprForInt c mod modDefn e
        "array length should be a non-negative integer constant") st = .ok (length, st') := h
    rw [map_eq_pure_bind] at h
    obtain ⟨n, st1, hn, h⟩ := bind_ok h
    cases h
    obtain ⟨⟨semType, v⟩, st2, hr, hn⟩ := bind_ok hn
    cases v with
    | int value =>
      cases hn
      cases e with
      | literal result =>
        cases result with
        | error e => cases hr
        | ok r =>
          cases hr
          exact .literal
      | varRef qualifier name =>
        cases qualifier with
        | some q =>
          obtain ⟨defns, st3, hdefns, hr⟩ := bind_ok hr
          have hd := lookupPrefix_ok hdefns
          cases hname : defns name with
          | none =>
            rw [hname] at hr
            cases hr
          | some defn =>
            rw [hname] at hr
            cases defn with
            | const r =>
              cases hr
              exact .imported hd hname rfl
            | _ => cases hr
        | none =>
          have hr : resolveVarRef c mod modDefn none name st = _ := hr
          exact .const (resolveVarRef_resolved hc hr) rfl
    | _ => cases hn

/-- One dimension keeps lists normal if its length is not negative. -/
theorem step_defineDimension {td : TdId} {t s : SemType} {st st' : ResolveState}
    (h : defineDimension td t length st = .ok (s, st'))
    (hlength : NonNegativeLengths mod st → ∀ n, length = some n → 0 ≤ n) : ListsStep mod st st' := by
  obtain ⟨⟨cells, rest⟩, st1, hcells, h⟩ := bind_ok h
  have hstep : ListsStep mod st st1 := steps_inEnv (keeps_listCells _ _ _) hcells
  refine hstep.trans (step_defineDesc h fun hst d hnormal => ?_)
  have hlen := length_inEnv_listCells hcells
  refine hnormal.define ?_
  cases length with
  | none => exact .inl rfl
  | some n =>
    obtain ⟨cell, rfl⟩ := List.length_eq_one_iff.mp hlen
    exact (lengthFits_singleton cell n).mpr (hlength (hstep.nonNegative hst) n rfl)

/-- The dimensions of an array of the module. -/
theorem steps_resolveDimensions (hc : CalleesStep c mod) {td member : TdId} {dimensions : Dimensions}
    (htd : mod.td td = .array member dimensions) (modDefn : String) :
    ∀ (lens : List (Option SimpleConstExpr)), (∀ len ∈ lens, len ∈ dimensions.1) → ∀ t : SemType,
      Steps mod (resolveDimensions c mod modDefn td lens t)
  | [], _, t => steps_pure t
  | len :: lens, hmem, t => by
    intro st s st' h
    obtain ⟨length, st1, hlength, h⟩ := bind_ok h
    obtain ⟨t', st2, hdefine, h⟩ := bind_ok h
    have hdimension : ListsStep mod st1 st2 := by
      refine step_defineDimension hdefine fun hst n hn => ?_
      refine hst td member dimensions htd len (hmem len (.head _)) modDefn n ?_
      rw [← hn]
      exact lengthIs_of_resolveLength hc hlength
    refine ((steps_resolveLength hc modDefn len hlength).trans hdimension).trans ?_
    exact steps_resolveDimensions hc htd modDefn lens
      (fun len hlen => hmem len (.tail _ hlen)) t' h

/-- Only here a fixed length is not that of the members. -/
theorem steps_resolveArrayTypeDesc (hc : CalleesStep c mod) {td member : TdId} {dimensions : Dimensions}
    (htd : mod.td td = .array member dimensions) (modDefn : String) (depth : Int) :
    Steps mod (resolveArrayTypeDesc c mod modDefn depth td member dimensions) := by
  refine steps_get.bind fun st => ?_
  split
  · refine (steps_newDefn td).bind fun _ => (hc.typeDesc _ _ _).bind fun t => ?_
    refine Steps.bind ?_ fun t => (steps_finish td).bind fun _ => steps_nonEmptyType _ _ _ _
    exact steps_resolveDimensions hc htd modDefn _ (fun len hlen => List.mem_reverse.mp hlen) t
  · exact (steps_getSemTypeAgain _ _ _).bind fun t => steps_nonEmptyType _ _ _ _

omit [BddIdentity] in
theorem steps_resolveOptional (hc : CalleesStep c mod) (modDefn : String) (depth : Int) (default : SemType)
    (td : Option TdId) : Steps mod (resolveOptional c modDefn depth default td) := by
  cases td with
  | none => exact steps_pure _
  | some td => exact hc.typeDesc _ _ _

theorem steps_resolveTupleTypeDesc (hc : CalleesStep c mod) (modDefn : String) (depth : Int) (td : TdId)
    (members : List TdId) (rest : Option TdId) :
    Steps mod (resolveTupleTypeDesc c mod modDefn depth td members rest) := by
  refine steps_get.bind fun st => ?_
  split
  · refine (steps_newDefn td).bind fun _ => (steps_mapM (fun x => hc.typeDesc _ _ x) members).bind fun tys => ?_
    refine (steps_resolveOptional hc _ _ _ _).bind fun restTy => ?_
    refine (steps_inEnv (keeps_listCells _ _ _)).bind fun cells => ?_
    exact (steps_defineDesc fun d env => listsNormal_defineList cells.1 cells.2).bind fun t =>
      (steps_finish td).bind fun _ => steps_nonEmptyType _ _ _ _
  · exact (steps_getSemTypeAgain _ _ _).bind fun t => steps_nonEmptyType _ _ _ _

omit [BddIdentity] in
theorem steps_resolveMembers (hc : CalleesStep c mod) (modDefn : String) (depth : Int) (td : TdId) :
    ∀ (members : List MemberDesc) (memberNames : List String),
      Steps mod (resolveMembers c modDefn depth td members memberNames)
  | [], _ => steps_pure _
  | memberDesc :: members, memberNames => by
    unfold resolveMembers
    split
    · exact steps_semanticErr _ _
    · exact (hc.typeDesc _ _ _).bind fun ty =>
        (steps_resolveMembers hc modDefn depth td members _).bind fun ms => steps_pure _

theorem steps_defineObject (td : TdId) (members : List Member) : Steps mod (defineObject td members) := by
  unfold defineObject
  split
  · exact steps_pure _
  · refine (steps_inEnv (keeps_objectCells members)).bind fun cells => ?_
    exact (steps_defineDesc fun d env => listsNormal_defineMapping cells.1 cells.2).bind fun t => steps_need _

theorem steps_resolveObjectTypeDesc (hc : CalleesStep c mod) (modDefn : String) (depth : Int) (td : TdId)
    (members : List MemberDesc) : Steps mod (resolveObjectTypeDesc c mod modDefn depth td members) := by
  refine steps_get.bind fun st => ?_
  split
  · exact (steps_newDefn td).bind fun _ => (steps_resolveMembers hc _ _ _ _ _).bind fun ms =>
      (steps_defineObject td ms).bind fun t => (steps_finish td).bind fun _ => steps_nonEmptyType _ _ _ _
  · exact (steps_getSemTypeAgain _ _ _).bind fun mappingType => (steps_need _).bind fun t =>
      steps_nonEmptyType _ _ _ _

omit [BddIdentity] in
theorem steps_resolveFields (hc : CalleesStep c mod) (modDefn : String) (depth : Int) (td : TdId) :
    ∀ fieldDescs : List FieldDesc, Steps mod (resolveFields c modDefn depth td fieldDescs)
  | [] => steps_pure _
  | f :: fieldDescs => by
    refine (hc.typeDesc _ _ _).bind fun ty => ?_
    split
    · exact steps_semanticErr _ _
    · exact (steps_resolveFields hc modDefn depth td fieldDescs).bind fun fields => steps_pure _

omit [BddIdentity] in
theorem steps_checkDuplicateFields (modDefn : String) (td : TdId) :
    ∀ (fieldDescs : List FieldDesc) (names : List String),
      Steps mod (checkDuplicateFields modDefn td fieldDescs names)
  | [], _ => steps_pure _
  | f :: fieldDescs, names => by
    unfold checkDuplicateFields
    split
    · exact steps_semanticErr _ _
    · exact steps_checkDuplicateFields modDefn td fieldDescs _

theorem steps_resolveRest (hc : CalleesStep c mod) (modDefn : String) (depth : Int) (rest : RestDesc) :
    Steps mod (resolveRest c modDefn depth rest) := by
  cases rest with
  | closed => exact steps_pure _
  | inclusive => exact steps_createAnydata
  | typeDesc td => exact hc.typeDesc _ _ _

theorem steps_resolveMappingTypeDesc (hc : CalleesStep c mod) (modDefn : String) (depth : Int) (td : TdId)
    (fieldDescs : Option (List FieldDesc)) (rest : RestDesc) :
    Steps mod (resolveMappingTypeDesc c mod modDefn depth td fieldDescs rest) := by
  refine steps_get.bind fun st => ?_
  split
  · refine (steps_newDefn td).bind fun _ => Steps.bind ?_ fun fields => ?_
    · cases fieldDescs with
      | none => exact steps_pure _
      | some fieldDescs =>
        exact (steps_resolveFields hc _ _ _ _).bind fun fields =>
          (steps_checkDuplicateFields _ _ _ _).bind fun _ => steps_pure _
    refine (steps_resolveRest hc _ _ _).bind fun restTy => ?_
    refine (steps_inEnv (keeps_mappingCells _ _ _)).bind fun cells => ?_
    exact (steps_defineDesc fun d env => listsNormal_defineMapping cells.1 cells.2).bind fun t =>
      (steps_finish td).bind fun _ => steps_nonEmptyType _ _ _ _
  · exact (steps_getSemTypeAgain _ _ _).bind fun t => steps_nonEmptyType _ _ _ _

omit [BddIdentity] in
theorem steps_resolveRestParam (hc : CalleesStep c mod) (modDefn : String) (depth : Int) :
    ∀ (params : List FunctionTypeParam) (rest : SemType), Steps mod (resolveRestParam c modDefn depth params rest)
  | [], _ => steps_pure _
  | arg :: params, rest => by
    unfold resolveRestParam
    split
    · exact (hc.typeDesc _ _ _).bind fun rest => steps_resolveRestParam hc modDefn depth params rest
    · exact steps_resolveRestParam hc modDefn depth params rest

theorem steps_resolveFunctionTypeDesc (hc : CalleesStep c mod) (modDefn : String) (depth : Int) (td : TdId)
    (params : List FunctionTypeParam) (ret : Option TdId) :
    Steps mod (resolveFunctionTypeDesc c modDefn depth td params ret) := by
  refine steps_get.bind fun st => ?_
  split
  · refine (steps_newDefn td).bind fun _ => (steps_resolveRestParam hc _ _ _ _).bind fun rest => ?_
    refine (steps_mapM (fun x : FunctionTypeParam => hc.typeDesc _ _ x.td) _).bind fun args => ?_
    refine (steps_resolveOptional hc _ _ _ _).bind fun retTy => ?_
    refine (steps_inEnv (keeps_defineListTypeWrapped args rest .none)).bind fun list => ?_
    exact (steps_defineDesc fun d env => listsNormal_defineFunction list.1 retTy).bind fun t =>
      (steps_finish td).bind fun _ => steps_pure _
  · exact steps_getSemTypeAgain _ _ _

theorem steps_resolveOperands (hc : CalleesStep c mod) (modDefn : String) (depth : Int) (td : TdId)
    (op : BinaryTypeOp) : ∀ (i : Nat) (tds : List TdId) (accumType : SemType),
      Steps mod (resolveOperands c modDefn depth td op i tds accumType)
  | _, [], _ => steps_pure _
  | i, x :: tds, accumType => by
    refine (hc.typeDesc _ _ _).bind fun next => (steps_need _).bind fun accumType => ?_
    split
    · refine Steps.bind ?_ fun b => ?_
      · cases accumType with
        | bits b => exact steps_pure _
        | complex t =>
          refine steps_get.bind fun st => ?_
          split
          · exact steps_ask _ _
          · exact steps_pure _
      · split
        · exact steps_semanticErr _ _
        · exact steps_resolveOperands hc modDefn depth td op (i + 1) tds accumType
    · exact steps_resolveOperands hc modDefn depth td op (i + 1) tds accumType

theorem steps_resolveBinaryTypeDesc (hc : CalleesStep c mod) (modDefn : String) (depth : Int) (td : TdId)
    (op : BinaryTypeOp) (tds : List TdId) : Steps mod (resolveBinaryTypeDesc c mod modDefn depth td op tds) := by
  cases tds with
  | nil => exact steps_fail _
  | cons x tds =>
    exact (hc.typeDesc _ _ _).bind fun t => (steps_resolveOperands hc _ _ _ _ _ _ _).bind fun accumType =>
      steps_nonEmptyType _ _ _ _

omit [BddIdentity] in
theorem steps_unlessAll {x : ResolveM SemType} (hx : Steps mod x) (f : Failure) :
    Steps mod (if mod.allowAllTypes then x else fail f) := by
  split
  · exact hx
  · exact steps_fail f

theorem steps_resolveBuiltin (modDefn : String) (td : TdId) (name : BuiltinTypeName) :
    Steps mod (resolveBuiltin mod modDefn td name) := by
  cases name with
  | anydata => exact steps_createAnydata
  | json => exact steps_unlessAll steps_createJson _
  | handle | never | readonly | typedesc | xml => exact steps_unlessAll (steps_pure _) _
  | _ => exact steps_pure _

omit [BddIdentity] in
theorem steps_resolveTypeDescRef (hc : CalleesStep c mod) (modDefn : String) (depth : Int) (td : TdId)
    (qualifier : Option String) (typeName : String) :
    Steps mod (resolveTypeDescRef c mod modDefn depth td qualifier typeName) := by
  unfold resolveTypeDescRef
  split
  · split
    · exact steps_semanticErr _ _
    · exact steps_resolveTypeDefn hc _ _ _
    · exact (hc.constDefn _).bind fun r => steps_pure _
    · exact steps_semanticErr _ _
  · refine (steps_lookupPrefix _ _ _).bind fun defns => ?_
    split
    · split
      · exact steps_pure _
      · exact steps_fail _
    · exact steps_pure _
    · exact steps_semanticErr _ _
    · exact steps_semanticErr _ _

/-- Each descriptor of a type is a step if those inside it are. -/
theorem steps_resolveTypeDesc (hc : CalleesStep c mod) (modDefn : String) (depth : Int) (td : TdId) :
    Steps mod (resolveTypeDesc c mod modDefn depth td) := by
  unfold resolveTypeDesc
  split
  · exact steps_resolveBuiltin _ _ _
  · exact steps_resolveBinaryTypeDesc hc _ _ _ _ _
  · exact steps_resolveTupleTypeDesc hc _ _ _ _ _
  · exact steps_resolveObjectTypeDesc hc _ _ _ _
  next htd => exact steps_resolveArrayTypeDesc hc htd modDefn depth
  · exact steps_resolveMappingTypeDesc hc _ _ _ _ _
  · exact steps_resolveTypeDescRef hc _ _ _ _ _
  · exact (steps_ofLiteral _).bind fun r => steps_pure _
  · exact (hc.typeDesc _ _ _).bind fun ty => steps_need _
  · exact hc.typeDesc _ _ _
  · exact steps_resolveFunctionTypeDesc hc _ _ _ _ _
  · exact steps_unlessAll ((hc.typeDesc _ _ _).bind fun t => steps_need _) _
  · exact steps_unlessAll ((hc.typeDesc _ _ _).bind fun t => steps_need _) _
  · refine steps_unlessAll ((hc.typeDesc _ _ _).bind fun t => ?_) _
    split
    · exact steps_semanticErr _ _
    · exact steps_need _
  · refine steps_unlessAll ((hc.typeDesc _ _ _).bind fun t => ?_) _
    split
    · exact steps_semanticErr _ _
    · exact steps_inEnv (keeps_tableContaining _ _)

/-! ## Constants -/

theorem steps_resolveExpectedType (td : Option BuiltinTypeName) : Steps mod (resolveExpectedType td) := by
  cases td with
  | none => exact steps_pure _
  | some td =>
    refine Steps.map ?_ _
    cases td with
    | anydata => exact steps_createAnydata
    | handle | json | never | null | readonly | typedesc | xml => exact steps_fail _
    | _ => exact steps_pure _

theorem steps_resolveConstExpr (hc : CalleesStep c mod) (modDefn : String) (e : ConstExpr) :
    Steps mod (resolveConstExpr c modDefn e) := by
  induction e with
  | done result => exact steps_pure _
  | fail failure => exact steps_fail _
  | const name k ih => exact (hc.constDefn name).bind ih
  | typeDesc td k ih => exact (steps_resolveSubsetTypeDesc hc modDefn td).bind ih
  | anydata k ih => exact steps_createAnydata.bind ih
  | ask p k ih => exact (steps_ask _ p).bind ih

/-- A constant that is being evaluated stays so until it gets its value. -/
theorem step_resolveConstDefn (hc : CalleesStep c mod) {name : String} {st st' : ResolveState}
    {r : ResolvedConst} (h : resolveConstDefn c mod name st = .ok (r, st')) :
    ListsStep mod st st' ∧ st'.resolved name = .resolved r := by
  cases hdefn : mod.defn name with
  | none =>
    simp only [resolveConstDefn, hdefn] at h
    cases h
  | some defn =>
    cases defn with
    | typeDefn td =>
      simp only [resolveConstDefn, hdefn] at h
      cases h
    | functionDefn params ret =>
      simp only [resolveConstDefn, hdefn] at h
      cases h
    | constDefn td expr =>
      simp only [resolveConstDefn, hdefn] at h
      obtain ⟨_, _, hget, hcase⟩ := bind_ok h
      cases hget
      cases hname : st.resolved name with
      | evaluating =>
        simp only [hname] at hcase
        cases hcase
      | resolved r' =>
        simp only [hname] at hcase
        cases hcase
        exact ⟨.refl mod _, hname⟩
      | unresolved =>
        simp only [hname] at hcase
        obtain ⟨_, st1, hset, hexpected⟩ := bind_ok hcase
        obtain ⟨expectedType, st2, htype, hexpr⟩ := bind_ok hexpected
        obtain ⟨resolvedConst, _, hconst, hneed⟩ := bind_ok hexpr
        obtain ⟨hasType, st3, hcheck, hlast⟩ := bind_ok hneed
        obtain ⟨_, rfl⟩ := need_ok hcheck
        have hstep : ListsStep mod st1 st3 :=
          (steps_resolveExpectedType td htype).trans (steps_resolveConstExpr hc name _ hconst)
        split at hlast
        next => cases hlast
        next =>
          cases hset
          cases hlast
          have hevaluating : st3.resolved name = .evaluating := hstep.evaluating (Function.update_self ..)
          have hbefore : ∀ {n}, n ≠ name →
              (Function.update st.resolved name ConstState.evaluating) n = st.resolved n :=
            fun hn => Function.update_of_ne hn ..
          have hafter : ∀ {n}, n ≠ name → (Function.update st3.resolved name (.resolved r)) n = st3.resolved n :=
            fun hn => Function.update_of_ne hn ..
          refine ⟨⟨fun {n r'} hr => ?_, fun {n} he => ?_, fun hst hnormal => ?_⟩, Function.update_self ..⟩
          · have hn : n ≠ name := by
              rintro rfl
              rw [hname] at hr
              cases hr
            exact (hafter hn).trans (hstep.resolved ((hbefore hn).trans hr))
          · have hn : n ≠ name := by
              rintro rfl
              rw [hname] at he
              cases he
            exact (hafter hn).trans (hstep.evaluating ((hbefore hn).trans he))
          · refine hstep.lists (hst.of_later fun {n r'} hr => ?_) hnormal
            have hn : n ≠ name := by
              rintro rfl
              rw [hevaluating] at hr
              cases hr
            exact (hafter hn).trans hr

/-- The run lemma: by induction on the depth of the calls. -/
theorem steps_resolver (mod : Module) : ∀ fuel : Nat, CalleesStep (resolver mod fuel) mod
  | 0 => ⟨fun _ _ _ => steps_fail _, fun _ => steps_fail _, fun h => by cases h⟩
  | fuel + 1 =>
    have ih := steps_resolver mod fuel
    ⟨fun modDefn depth td => steps_resolveTypeDesc ih modDefn depth td,
      fun _ _ _ _ h => (step_resolveConstDefn ih h).1, fun h => (step_resolveConstDefn ih h).2⟩

/-! ## Modules -/

theorem steps_resolveParams (hc : CalleesStep c mod) (modDefn : String) :
    ∀ params : List FunctionTypeParam, Steps mod (resolveParams c modDefn params)
  | [] => steps_pure _
  | x :: params => by
    refine (steps_resolveSubsetTypeDesc hc _ _).bind fun ty => ?_
    split
    · exact (steps_inEnv (keeps_defineListTypeWrapped [] ty .none)).bind fun _ =>
        (steps_resolveParams hc modDefn params).bind fun _ => steps_pure _
    · exact (steps_resolveParams hc modDefn params).bind fun _ => steps_pure _

theorem steps_resolveDefn (hc : CalleesStep c mod) (name : String) (defn : ModuleLevelDefn) :
    Steps mod (resolveDefn c name defn) := by
  cases defn with
  | typeDefn td => exact (steps_resolveTypeDefn hc _ _ _).bind fun _ => steps_pure ()
  | constDefn td expr => exact (hc.constDefn name).bind fun _ => steps_pure ()
  | functionDefn params ret =>
    refine Steps.bind ?_ fun signature => steps_modify (fun _ => by rfl) fun _ => by rfl
    refine (steps_resolveParams hc name params).bind fun types => ?_
    cases ret with
    | none => exact steps_pure _
    | some td => exact (steps_resolveSubsetTypeDesc hc _ _).bind fun _ => steps_pure _

theorem steps_resolveDefns (hc : CalleesStep c mod) :
    ∀ defns : List (String × ModuleLevelDefn), Steps mod (resolveDefns c defns)
  | [] => steps_pure ()
  | defn :: defns => (steps_resolveDefn hc defn.1 defn.2).bind fun _ => steps_resolveDefns hc defns

theorem steps_checkDeferred : ∀ checks : List (SemType × String × TdId), Steps mod (checkDeferred c mod checks)
  | [] => steps_pure ()
  | _ :: checks =>
    (steps_nonEmptyTypeNoDefer _ _ _ _).bind fun _ => steps_checkDeferred checks

/-- Resolving a module is one step, by induction on the fuel. -/
theorem steps_resolveTypes (mod : Module) (fuel : Nat) : Steps mod (resolveTypes mod fuel) := by
  refine (steps_resolveDefns (steps_resolver mod fuel) mod.defns).bind fun _ => steps_get.bind fun st => ?_
  split
  · exact steps_fail _
  · refine steps_get.bind fun st => (steps_checkDeferred _).bind fun _ => steps_get.bind fun st => ?_
    split
    · exact steps_semanticErr _ _
    · exact steps_pure ()

/-! ## One dimension -/

/-- A dimension keeps lists normal exactly if its length is not negative. -/
theorem listsNormal_defineDimension_iff {td : TdId} {t s : SemType} {st st' : ResolveState}
    (h : defineDimension td t length st = .ok (s, st')) (hnormal : st.env.ListsNormal)
    (hrec : ∀ d, st.defn td = some d → d.InTable st.env) :
    st'.env.ListsNormal ↔ ∀ n, length = some n → 0 ≤ n := by
  obtain ⟨⟨cells, rest⟩, st1, hcells, h⟩ := bind_ok h
  obtain ⟨hquiet, _⟩ := inEnv_ok (interns_listCells _ _ _) hcells
  obtain ⟨d, hd, s', d', st2, hwith, _, rfl⟩ := defineDesc_ok h
  have hlen := length_inEnv_listCells hcells
  have henv : st2.env =
      (ListDefinition.define d st1.env cells (dimensionArgs t length).2.1 rest).2.2 := by
    unfold defineWith at hwith
    dsimp only at hwith
    split at hwith
    · cases hwith
      rfl
    · cases hwith
      rfl
  have hnormal1 : st1.env.ListsNormal := by
    unfold inEnv at hcells
    split at hcells
    next c env hmake =>
      cases hcells
      exact keeps_listCells _ _ _ hmake hnormal
    next => cases hcells
  have htable : d.InTable st1.env := by
    intro ra hra
    have hin := hrec d (by rw [← hd, hquiet.defn]) ra hra
    have hlist := congrArg List.length (hquiet.env.recTable .list)
    simp only [Env.recTable, List.length_map] at hlist
    rw [hlist]
    exact hin
  show st2.env.ListsNormal ↔ _
  rw [henv, hnormal1.define_iff htable]
  cases length with
  | none => exact iff_of_true (.inl rfl) fun n hn => by cases hn
  | some n =>
    obtain ⟨cell, rfl⟩ := List.length_eq_one_iff.mp hlen
    refine (lengthFits_singleton cell n).trans ⟨fun hn m hm => ?_, fun hall => hall n rfl⟩
    cases hm
    exact hn

end Resolve

end Steps

/-! ## All lists -/

theorem listsNormal_foldl : ∀ (types : List AtomicType) {env : Env}, env.ListsNormal →
    (∀ t ∈ types, ∀ l, t.toList = some l → l.members.Normal) →
      (types.foldl (fun env t => (env.typeAtom t).2) env).ListsNormal
  | [], env, h, _ => h
  | t :: types, env, h, htypes => by
    refine listsNormal_foldl types ?_ fun u hu => htypes u (.tail _ hu)
    exact (h.typeAtom_iff t).mpr (htypes t (.head _))

theorem normal_empty : FixedLengthArray.Normal ⟨[], 0⟩ :=
  (normal_fixedLengthNormalize_iff [] 0).mpr (.inl rfl)

theorem listsNormal_init : Env.init.ListsNormal := by
  refine listsNormal_foldl _ ⟨fun ta hta => absurd hta List.not_mem_nil, fun l hl => ?_⟩ fun t ht l hl => ?_
  · cases List.mem_singleton.mp hl
    exact normal_empty
  · have hmembers : ∀ t ∈ Env.reservedAtomicTypes, ∀ l, t.toList = some l → l.members = ⟨[], 0⟩ := by
      intro t ht l hl
      simp only [Env.reservedAtomicTypes, List.mem_cons, List.not_mem_nil, or_false] at ht
      rcases ht with rfl | rfl | rfl | rfl | rfl | rfl | rfl | rfl <;> cases hl <;> rfl
    rw [hmembers t ht l hl]
    exact normal_empty

/-- What `define` stores reads as it was given, and is normal exactly if the length fits; of the lengths that
`resolveTypeDesc` passes it is only the constants of arrays that may not fit, and exactly if they are negative. -/
theorem storedLists_normal_iff [BddIdentity] :
    (∀ (d : Definition) (env : Env) (initial : List SemType) (fixedLength : Int) (rest : SemType),
      d.InTable env → ((ListDefinition.define d env initial fixedLength rest).1 = .bits LIST ∧
          fixedLength = 0 ∧ rest = CELL_SEMTYPE_INNER) ∨
        ∃ atom stored, (ListDefinition.define d env initial fixedLength rest).1 = atomSemType BT_LIST atom ∧
          (ListDefinition.define d env initial fixedLength rest).2.2.listAtomType atom = some stored ∧
          (stored.members.Normal ↔ LengthFits initial fixedLength) ∧
          ∀ i : Int, 0 ≤ i → listMemberAt stored.members stored.rest i =
            listMemberAt ⟨initial, fixedLength⟩ rest i) ∧
    (∀ (td : TdId) (t s : SemType) (length : Option Int) (st st' : ResolveState),
      st.env.ListsNormal → (∀ d, st.defn td = some d → d.InTable st.env) →
        defineDimension td t length st = .ok (s, st') →
          (st'.env.ListsNormal ↔ ∀ n, length = some n → 0 ≤ n)) ∧
    (∀ (mod : Module) (fuel : Nat) (modDefn : String) (depth : Int) (td : TdId) (s : SemType)
      (st st' : ResolveState), st.env.ListsNormal → NonNegativeLengths mod st' →
        (resolver mod fuel).typeDesc modDefn depth td st = .ok (s, st') → st'.env.ListsNormal) ∧
    (∀ (mod : Module) (fuel : Nat) (st st' : ResolveState), st.env.ListsNormal →
      NonNegativeLengths mod st' → resolveTypes mod fuel st = .ok ((), st') → st'.env.ListsNormal) := by
  refine ⟨?_, ?_, ?_, ?_⟩
  · intro d env initial fixedLength rest hd
    rcases define_stores initial fixedLength rest hd with
      hall | ⟨atom, hs, hstored⟩
    · exact .inl hall
    · exact .inr ⟨atom, _, hs, hstored, normal_fixedLengthNormalize_iff initial fixedLength,
        fun i hi => listMemberAt_fixedLengthNormalize initial fixedLength rest hi⟩
  · intro td t s length st st' hnormal hrec h
    exact listsNormal_defineDimension_iff h hnormal hrec
  · intro mod fuel modDefn depth td s st st' hnormal hst h
    exact ((steps_resolver mod fuel).typeDesc modDefn depth td h).lists hst hnormal
  · intro mod fuel st st' hnormal hst h
    exact (steps_resolveTypes mod fuel h).lists hst hnormal

/-! ## An array in a module -/

theorem nodup_arrayNames : ["N", "T"].Nodup := by decide

/-- `const N = n;` and `type T int[..]..[..];` with the dimensions. -/
def arrayModule (n : Int) (dimensions : { l : List (Option SimpleConstExpr) // l ≠ [] }) : Module where
  td td := if td = 0 then .array 1 dimensions else .builtin .int
  defns := [("N", .constDefn none fun _ => .done ⟨basicSubtype BT_INT (.int [⟨n, n⟩]), .int n⟩),
    ("T", .typeDefn 0)]
  nodup := nodup_arrayNames
  allowAllTypes := false
  imported _ _ := none

/-- The lengths of the lists that a run leaves in the table. -/
def storedLengths (result : Except Failure (Unit × ResolveState)) : Option (List Int) :=
  result.toOption.map fun r =>
    (r.2.env.atomTable.filterMap fun ta => ta.atomicType.toList).map (·.members.fixedLength)

/-- Stored lengths are those of atoms of the table. -/
theorem exists_of_storedLengths {result : Except Failure (Unit × ResolveState)} {lengths : List Int}
    (h : storedLengths result = some lengths) : ∃ st', result = .ok ((), st') ∧
      ∀ n ∈ lengths, ∃ ta ∈ st'.env.atomTable, ∃ l, ta.atomicType.toList = some l ∧ l.members.fixedLength = n := by
  cases result with
  | error e => cases h
  | ok r =>
    obtain rfl := Option.some.inj h
    refine ⟨r.2, rfl, fun n hn => ?_⟩
    obtain ⟨l, hl, rfl⟩ := List.mem_map.mp hn
    obtain ⟨ta, hta, htl⟩ := List.mem_filterMap.mp hl
    exact ⟨ta, hta, l, htl, rfl⟩

def lengthLiteral (n : Int) : SimpleConstExpr := .literal (.ok ⟨basicSubtype BT_INT (.int [⟨n, n⟩]), .int n⟩)

/-- `type T int[2][][3];` -/
def threeDimensions : Module :=
  arrayModule 2 ⟨[some (lengthLiteral 2), none, some (lengthLiteral 3)], List.cons_ne_nil _ _⟩

theorem storedLists_normal_three :
    let _ := BddIdentity.shared
    ∃ st', resolveTypes threeDimensions 18 (.new Env.init) = .ok ((), st') ∧ st'.env.ListsNormal := by
  intro _
  have hrun : storedLengths (resolveTypes threeDimensions 18 (.new Env.init)) = some [0, 0, 3, 0, 2] := by
    decide +kernel
  obtain ⟨st', hst', _⟩ := exists_of_storedLengths hrun
  refine ⟨st', hst', storedLists_normal_iff.2.2.2 _ 18 (.new Env.init) st' listsNormal_init ?_ hst'⟩
  intro td member dimensions htd len hlen modDefn n hn
  unfold threeDimensions arrayModule at htd
  dsimp only at htd
  split at htd
  · cases htd
    rcases List.mem_cons.mp hlen with heq | hlen
    · cases heq
      cases hn
      decide
    rcases List.mem_cons.mp hlen with heq | hlen
    · cases heq
      cases hn
    · cases List.mem_singleton.mp hlen
      cases hn
      decide
  · cases htd

/-- `const N = -1; type T int[N];` is accepted, and stored as it is. -/
theorem not_storedLists_normal :
    let _ := BddIdentity.shared
    ∃ st', resolveTypes (arrayModule (-1) ⟨[some (.varRef none "N")], List.cons_ne_nil _ _⟩) 8 (.new Env.init) = .ok ((), st') ∧
      ¬ st'.env.ListsNormal := by
  intro _
  have hrun : storedLengths (resolveTypes (arrayModule (-1) ⟨[some (.varRef none "N")], List.cons_ne_nil _ _⟩) 8 (.new Env.init)) =
      some [0, 0, -1] := by decide +kernel
  obtain ⟨st', hst', hlengths⟩ := exists_of_storedLengths hrun
  refine ⟨st', hst', fun hnormal => ?_⟩
  obtain ⟨ta, hta, l, hl, hlen⟩ := hlengths (-1) (by decide)
  have hle := (hnormal.interned ta hta l hl).length_le
  rw [hlen] at hle
  omega

end Nballerina.Front
