import Nballerina.Types.Define
import Nballerina.Types.EmptinessSound

/-!
# The tables of recursive atoms

`isReady` compares a counter with the lengths of three tables. This file says what the
operations of an `Env` do to the tables and the counter, for all three kinds at once, and that
the counter tells the truth as long as it is the number of defined atoms
(`Counted.isReady_iff`).

The other half is interning. What a function that only interns returns does not depend on
when it runs: once it has run, it returns the same in every later `Env` (`Interns`).
-/

namespace Nballerina.Types

open Nballerina.Lib

/-! ## One table for each kind -/

namespace Env

/-- The table of a kind. -/
def recTable (env : Env) : DefinitionKind → List (Option AtomicType)
  | .list => env.recListAtoms.map (Option.map ListAtomicType.toAtomicType)
  | .mapping => env.recMappingAtoms.map (Option.map MappingAtomicType.toAtomicType)
  | .function => env.recFunctionAtoms.map (Option.map FunctionAtomicType.toAtomicType)

/-- What is read back through a recursive atom, as the code of its kind looks it up. -/
def readRecAtom (env : Env) : DefinitionKind → Int → Option AtomicType
  | .list, ra => (env.listAtomType (.recAtom ra)).map ListAtomicType.toAtomicType
  | .mapping, ra => (env.mappingAtomType (.recAtom ra)).map MappingAtomicType.toAtomicType
  | .function, ra => (env.functionAtomType (.recAtom ra)).map FunctionAtomicType.toAtomicType

theorem readRecAtom_natCast (env : Env) (kind : DefinitionKind) (i : Nat) :
    env.readRecAtom kind i = (env.recTable kind)[i]?.join := by
  cases kind <;>
    simp [readRecAtom, recTable, listAtomType, mappingAtomType, functionAtomType, getRecAtomType,
      Option.join_map_eq_map_join]

/-- All the recursive atoms are defined. -/
def AllSet (env : Env) : Prop := ∀ kind, none ∉ env.recTable kind

/-- The counter is the number of defined atoms. -/
def Counted (env : Env) : Prop :=
  env.recAtomCount = ((env.recTable .list).countP Option.isSome +
    (env.recTable .mapping).countP Option.isSome +
    (env.recTable .function).countP Option.isSome : Nat)

theorem none_not_mem_iff {α : Type} {table : List (Option α)} :
    none ∉ table ↔ table.countP Option.isSome = table.length := by
  rw [List.countP_eq_length]
  refine ⟨fun h a ha => ?_, fun h hnone => by simpa using h none hnone⟩
  cases a with
  | none => exact absurd ha h
  | some t => rfl

variable {env env' : Env}

/-- `isReady` is true exactly when all the atoms are defined. -/
theorem Counted.isReady_iff (h : env.Counted) : env.isReady = true ↔ env.AllSet := by
  have hl := (env.recTable .list).countP_le_length (p := Option.isSome)
  have hm := (env.recTable .mapping).countP_le_length (p := Option.isSome)
  have hf := (env.recTable .function).countP_le_length (p := Option.isSome)
  have hlen : env.isReady = true ↔ env.recAtomCount = ((env.recTable .list).length +
      (env.recTable .mapping).length + (env.recTable .function).length : Nat) := by
    simp [isReady, recTable]
  rw [hlen, h, Int.natCast_inj]
  refine ⟨fun heq kind => none_not_mem_iff.mpr ?_, fun hall => ?_⟩
  · cases kind <;> omega
  · have h1 := none_not_mem_iff.mp (hall .list)
    have h2 := none_not_mem_iff.mp (hall .mapping)
    have h3 := none_not_mem_iff.mp (hall .function)
    omega

/-- Only the table of interned atoms has grown. -/
structure Interned (env env' : Env) : Prop where
  atomTable : env.atomTable <+: env'.atomTable
  recTable : ∀ kind, env'.recTable kind = env.recTable kind
  recAtomCount : env'.recAtomCount = env.recAtomCount

theorem Interned.refl (env : Env) : env.Interned env :=
  ⟨List.prefix_rfl, fun _ => rfl, rfl⟩

theorem Interned.trans {env env' env'' : Env} (h : env.Interned env')
    (h' : env'.Interned env'') : env.Interned env'' :=
  ⟨h.atomTable.trans h'.atomTable, fun kind => (h'.recTable kind).trans (h.recTable kind),
    h'.recAtomCount.trans h.recAtomCount⟩

theorem Interned.counted (h : env.Interned env') (hc : env.Counted) :
    env'.Counted := by
  unfold Counted at hc ⊢
  rw [h.recAtomCount, h.recTable, h.recTable, h.recTable, hc]

theorem interned_typeAtom (env : Env) (t : AtomicType) : env.Interned (env.typeAtom t).2 := by
  unfold typeAtom
  split
  next => exact Interned.refl env
  next => exact ⟨List.prefix_append _ _, fun kind => by cases kind <;> rfl, rfl⟩

/-- An atom is allocated: `ra`, at the end of the table of its kind. -/
structure Allocates (kind : DefinitionKind) (ra : Int) (env env' : Env) : Prop where
  index : ra = (env.recTable kind).length
  self : env'.recTable kind = env.recTable kind ++ [none]
  other : ∀ kind', kind' ≠ kind → env'.recTable kind' = env.recTable kind'
  recAtomCount : env'.recAtomCount = env.recAtomCount
  atomTable : env'.atomTable = env.atomTable

/-- The atom `ra` is defined as `t`. -/
structure Sets (kind : DefinitionKind) (ra : Int) (t : AtomicType) (env env' : Env) : Prop where
  self : env'.recTable kind = (env.recTable kind).set ra.toNat (some t)
  other : ∀ kind', kind' ≠ kind → env'.recTable kind' = env.recTable kind'
  recAtomCount : env'.recAtomCount = env.recAtomCount + 1
  atomTable : env'.atomTable = env.atomTable

theorem allocates_recListAtom (env : Env) :
    env.Allocates .list env.recListAtom.1 env.recListAtom.2 where
  index := by simp [recListAtom, recTable]
  self := by simp [recListAtom, recTable]
  other kind' hk := by cases kind' <;> first | exact absurd rfl hk | rfl
  recAtomCount := rfl
  atomTable := rfl

theorem allocates_recMappingAtom (env : Env) :
    env.Allocates .mapping env.recMappingAtom.1 env.recMappingAtom.2 where
  index := by simp [recMappingAtom, recTable]
  self := by simp [recMappingAtom, recTable]
  other kind' hk := by cases kind' <;> first | exact absurd rfl hk | rfl
  recAtomCount := rfl
  atomTable := rfl

theorem allocates_recFunctionAtom (env : Env) :
    env.Allocates .function env.recFunctionAtom.1 env.recFunctionAtom.2 where
  index := by simp [recFunctionAtom, recTable]
  self := by simp [recFunctionAtom, recTable]
  other kind' hk := by cases kind' <;> first | exact absurd rfl hk | rfl
  recAtomCount := rfl
  atomTable := rfl

theorem Allocates.counted {kind : DefinitionKind} {ra : Int} (h : env.Allocates kind ra env')
    (hc : env.Counted) : env'.Counted := by
  have hsame : ∀ kind', (env'.recTable kind').countP Option.isSome =
      (env.recTable kind').countP Option.isSome := by
    intro kind'
    by_cases hk : kind' = kind
    · rw [hk, h.self, List.countP_append]
      rfl
    · rw [h.other kind' hk]
  unfold Counted at hc ⊢
  rw [h.recAtomCount, hsame, hsame, hsame, hc]

theorem countP_set_none {table : List (Option AtomicType)} {i : Nat} {t : AtomicType}
    (h : table[i]? = some none) :
    (table.set i (some t)).countP Option.isSome = table.countP Option.isSome + 1 := by
  obtain ⟨hlt, hi⟩ := List.getElem?_eq_some_iff.mp h
  rw [List.countP_set hlt, hi]
  simp

/-- Defining an atom that is not defined yet keeps the counter right. -/
theorem Sets.counted {kind : DefinitionKind} {ra : Int} {t : AtomicType} (h : env.Sets kind ra t env')
    (hnone : (env.recTable kind)[ra.toNat]? = some none) (hc : env.Counted) : env'.Counted := by
  have hself := countP_set_none (t := t) hnone
  rw [← h.self] at hself
  unfold Counted at hc ⊢
  rw [h.recAtomCount, hc]
  cases kind with
  | list =>
    rw [h.other .mapping (by decide), h.other .function (by decide)]
    omega
  | mapping =>
    rw [h.other .list (by decide), h.other .function (by decide)]
    omega
  | function =>
    rw [h.other .list (by decide), h.other .mapping (by decide)]
    omega

end Env

/-! ## The methods of a definition -/

/-- `getSemType` returns what is known, or allocates an atom. -/
theorem getSemType_cases (kind : DefinitionKind) (d : Definition) (env : Env) :
    (∃ s, d.semType = some s ∧ kind.getSemType d env = (s, d, env)) ∨
    (d.semType = none ∧ ∃ ra env', env.Allocates kind ra env' ∧ kind.getSemType d env =
      (atomSemType kind.code (.recAtom ra),
        ⟨some ra, some (atomSemType kind.code (.recAtom ra))⟩, env')) := by
  cases hd : d.semType with
  | some s =>
    refine .inl ⟨s, rfl, ?_⟩
    cases kind <;>
      simp [DefinitionKind.getSemType, ListDefinition.getSemType, MappingDefinition.getSemType,
        FunctionDefinition.getSemType, Definition.getSemType, hd]
  | none =>
    refine .inr ⟨rfl, ?_⟩
    cases kind with
    | list =>
      refine ⟨env.recListAtom.1, env.recListAtom.2, env.allocates_recListAtom, ?_⟩
      simp only [DefinitionKind.getSemType, ListDefinition.getSemType, Definition.getSemType, hd]
      rfl
    | mapping =>
      refine ⟨env.recMappingAtom.1, env.recMappingAtom.2, env.allocates_recMappingAtom, ?_⟩
      simp only [DefinitionKind.getSemType, MappingDefinition.getSemType, Definition.getSemType,
        hd]
      rfl
    | function =>
      refine ⟨env.recFunctionAtom.1, env.recFunctionAtom.2, env.allocates_recFunctionAtom, ?_⟩
      simp only [DefinitionKind.getSemType, FunctionDefinition.getSemType, Definition.getSemType,
        hd]
      rfl

/-- `s` is the type of the atomic type `t`, interned. -/
def StandsFor (kind : DefinitionKind) (env : Env) (t : AtomicType) (s : SemType) : Prop :=
  (s = .bits (basicType kind.code) ∧ (t = LIST_ATOMIC_INNER ∨ t = MAPPING_ATOMIC_INNER)) ∨
    ∃ ta ∈ env.atomTable, ta.atomicType = t ∧ s = atomSemType kind.code ta.toAtom

theorem StandsFor.mono {kind : DefinitionKind} {env env' : Env} {t : AtomicType} {s : SemType}
    (hle : env.atomTable <+: env'.atomTable) (h : StandsFor kind env t s) :
    StandsFor kind env' t s := by
  rcases h with htop | ⟨ta, hta, ht, hs⟩
  · exact .inl htop
  · exact .inr ⟨ta, hle.subset hta, ht, hs⟩

/-- The function defines the atomic type `t`: it fills in the atom of the definition, if there
is one, and interns `t` otherwise. -/
def Defining (kind : DefinitionKind) (t : AtomicType)
    (define : Definition → Env → SemType × Definition × Env) : Prop :=
  ∀ d env,
    (∃ ra env', d.recAtom = some ra ∧ env.Sets kind ra t env' ∧ define d env =
      (atomSemType kind.code (.recAtom ra),
        ⟨some ra, some (atomSemType kind.code (.recAtom ra))⟩, env')) ∨
    (d.recAtom = none ∧ ∃ s env', env.Interned env' ∧ StandsFor kind env' t s ∧
      define d env = (s, ⟨none, some s⟩, env'))

/-- The atomic type that `ListDefinition.define` makes. -/
def listAtomicType (cells : List SemType) (fixedLength : Int) (rest : SemType) : AtomicType :=
  ListAtomicType.toAtomicType ⟨fixedLengthNormalize ⟨cells, fixedLength⟩, rest⟩

/-- The atomic type that `MappingDefinition.define` makes. -/
def mappingAtomicType (fields : List (String × SemType)) (rest : SemType) : AtomicType :=
  .mapping (splitFields fields).1 (splitFields fields).2 rest

theorem standsFor_typeAtom (kind : DefinitionKind) (env : Env) (t : AtomicType) :
    StandsFor kind (env.typeAtom t).2 t (atomSemType kind.code (env.typeAtom t).1.toAtom) := by
  have hfind := env.find?_typeAtom_self t
  have hself := List.find?_some hfind
  exact .inr ⟨_, List.mem_of_find?_eq_some hfind, of_decide_eq_true hself, rfl⟩

theorem set_map {α β : Type} (f : α → β) (table : List (Option α)) (i : Nat) (a : α) :
    (table.set i (some a)).map (Option.map f) = (table.map (Option.map f)).set i (some (f a)) := by
  rw [List.map_set]
  rfl

theorem defining_list (cells : List SemType) (fixedLength : Int) (rest : SemType) :
    Defining .list (listAtomicType cells fixedLength rest)
      fun d env => ListDefinition.define d env cells fixedLength rest := by
  intro d env
  cases hd : d.recAtom with
  | some ra =>
    refine .inl ⟨ra, env.setRecListAtomType ra ⟨fixedLengthNormalize ⟨cells, fixedLength⟩, rest⟩,
      rfl, ⟨set_map _ _ _ _, ?_, rfl, rfl⟩, ?_⟩
    · intro kind' hk
      cases kind' <;> first | exact absurd rfl hk | rfl
    · simp only [ListDefinition.define, hd, Definition.createSemType, DefinitionKind.code]
  | none =>
    refine .inr ⟨rfl, ?_⟩
    simp only [ListDefinition.define, hd, Definition.createSemType]
    split
    next htop =>
      refine ⟨_, env, Env.Interned.refl env, .inl ⟨rfl, .inl ?_⟩, rfl⟩
      simp [listAtomicType, ListAtomicType.toAtomicType, fixedLengthNormalize, htop.1, htop.2,
        LIST_ATOMIC_INNER]
    next => exact ⟨_, _, env.interned_typeAtom _, standsFor_typeAtom .list env _, rfl⟩

theorem defining_mapping (fields : List (String × SemType)) (rest : SemType) :
    Defining .mapping (mappingAtomicType fields rest)
      fun d env => MappingDefinition.define d env fields rest := by
  intro d env
  cases hd : d.recAtom with
  | some ra =>
    refine .inl ⟨ra, env.setRecMappingAtomType ra
      ⟨(splitFields fields).1, (splitFields fields).2, rest⟩, rfl,
      ⟨set_map _ _ _ _, ?_, rfl, rfl⟩, ?_⟩
    · intro kind' hk
      cases kind' <;> first | exact absurd rfl hk | rfl
    · simp only [MappingDefinition.define, hd, Definition.createSemType, DefinitionKind.code]
  | none =>
    refine .inr ⟨rfl, ?_⟩
    simp only [MappingDefinition.define, hd, Definition.createSemType]
    split
    next htop =>
      obtain rfl := List.length_eq_zero_iff.mp htop.1
      refine ⟨_, env, Env.Interned.refl env, .inl ⟨rfl, .inr ?_⟩, rfl⟩
      simp [mappingAtomicType, splitFields, htop.2, MAPPING_ATOMIC_INNER]
    next => exact ⟨_, _, env.interned_typeAtom _, standsFor_typeAtom .mapping env _, rfl⟩

theorem defining_function (args ret : SemType) :
    Defining .function (.function args ret)
      fun d env => FunctionDefinition.define d env args ret := by
  intro d env
  cases hd : d.recAtom with
  | some ra =>
    refine .inl ⟨ra, env.setRecFunctionAtomType ra ⟨args, ret⟩, rfl,
      ⟨set_map _ _ _ _, ?_, rfl, rfl⟩, ?_⟩
    · intro kind' hk
      cases kind' <;> first | exact absurd rfl hk | rfl
    · simp only [FunctionDefinition.define, hd, Definition.createSemType, DefinitionKind.code]
  | none =>
    refine .inr ⟨rfl, ?_⟩
    simp only [FunctionDefinition.define, hd, Definition.createSemType]
    exact ⟨_, _, env.interned_typeAtom _, standsFor_typeAtom .function env _, rfl⟩

/-! ## Functions that only intern -/

/-- The function only interns, and in an `Env` where all it interns is there already it
returns the same and changes nothing. -/
def Interns {α : Type} (f : EnvM α) : Prop :=
  ∀ ⦃env : Env⦄ ⦃a : α⦄ ⦃env' : Env⦄, f env = some (a, env') → env.Interned env' ∧
    ∀ env'' : Env, env'.atomTable <+: env''.atomTable → f env'' = some (a, env'')

section Interns

variable {α β : Type}

theorem interns_pure (a : α) : Interns (pure a : EnvM α) := by
  intro env b env' h
  cases h
  exact ⟨Env.Interned.refl env, fun _ _ => rfl⟩

theorem interns_lift (o : Option α) : Interns (StateT.lift o : EnvM α) := by
  intro env a env' h
  cases o with
  | none => cases h
  | some b =>
    cases h
    exact ⟨Env.Interned.refl env, fun _ _ => rfl⟩

theorem Interns.bind {f : EnvM α} {g : α → EnvM β} (hf : Interns f) (hg : ∀ a, Interns (g a)) :
    Interns (f >>= g) := by
  intro env b env2 h
  obtain ⟨⟨a, env1⟩, hfa, hgb⟩ := Option.bind_eq_some_iff.mp h
  obtain ⟨hint1, hsame1⟩ := hf hfa
  obtain ⟨hint2, hsame2⟩ := hg a hgb
  refine ⟨hint1.trans hint2, fun env'' hle => ?_⟩
  show (f env'').bind _ = _
  rw [hsame1 env'' (hint2.atomTable.trans hle)]
  exact hsame2 env'' hle

theorem interns_mapM {f : α → EnvM β} (hf : ∀ a, Interns (f a)) :
    ∀ l : List α, Interns (l.mapM f) := by
  intro l
  induction l with
  | nil =>
    rw [List.mapM_nil]
    exact interns_pure []
  | cons a l ih =>
    rw [List.mapM_cons]
    exact (hf a).bind fun b => ih.bind fun bs => interns_pure (b :: bs)

/-- Interning an atomic type and using its atom. -/
theorem interns_typeAtom (t : AtomicType) (f : TypeAtom → α) :
    Interns (fun env => some (f (env.typeAtom t).1, (env.typeAtom t).2)) := by
  intro env a env' h
  cases h
  refine ⟨env.interned_typeAtom t, fun env'' hle => ?_⟩
  obtain ⟨added, hadded⟩ := hle
  have hfind : env''.atomTable.find? (fun ta => ta.atomicType = t) = some (env.typeAtom t).1 := by
    rw [← hadded, List.find?_append, env.find?_typeAtom_self t]
    rfl
  have hmem : ∃ ta ∈ env''.atomTable, ta.atomicType = t := by
    have hself := List.find?_some hfind
    exact ⟨_, List.mem_of_find?_eq_some hfind, of_decide_eq_true hself⟩
  show some (f (env''.typeAtom t).1, (env''.typeAtom t).2) = _
  rw [Env.typeAtom_fst hfind, Env.typeAtom_of_mem hmem]

theorem interns_makeCell (ty : SemType) (mutability : CellMutability) :
    Interns (makeCell ty mutability) :=
  interns_typeAtom (.cell ty mutability) fun atom => atomSemType BT_CELL atom.toAtom

variable [BddIdentity]

theorem interns_restCell (rest : SemType) (mutability : CellMutability) :
    Interns (restCell rest mutability) :=
  (interns_lift _).bind fun ty => interns_makeCell ty _

theorem interns_listCells (initial : List SemType) (rest : SemType) (mutability : CellMutability) :
    Interns (listCells initial rest mutability) :=
  (interns_mapM (fun ty => interns_makeCell ty mutability) initial).bind fun cells =>
    (interns_restCell rest mutability).bind fun cell => interns_pure (cells, cell)

end Interns

/-! ## Asking for emptiness -/

section Grown

variable {σ ι ν π ρ κ : Type} [DecidableEq κ] {sys : System σ ι ν π ρ κ}

omit [DecidableEq κ] in
/-- A program whose questions are answered by interning only interns. -/
theorem exec_grown {α : Type} {memo : π → MemoContext σ κ → Outcome (MemoContext σ κ) Bool}
    {call : ρ → MemoContext σ κ → Outcome (MemoContext σ κ) Bool}
    (hmemo : ∀ p cx b cx', memo p cx = .done b cx' → sys.Grown cx.env cx'.env)
    (hcall : ∀ q cx b cx', call q cx = .done b cx' → sys.Grown cx.env cx'.env) :
    ∀ (x : Prog ι ν π ρ α) (cx : MemoContext σ κ) {a : α} {cx' : MemoContext σ κ},
      x.exec sys.internCx memo call cx = .done a cx' → sys.Grown cx.env cx'.env := by
  intro x
  induction x with
  | pure a =>
    intro cx b cx' h
    cases h
    exact .refl
  | panic =>
    intro cx b cx' h
    cases h
  | intern c k ih =>
    intro cx b cx' h
    exact Relation.ReflTransGen.head ⟨c, rfl⟩ (ih _ (sys.internCx c cx).2 h)
  | memo p k ih =>
    intro cx b cx' h
    obtain ⟨r, cx1, hp, hk⟩ := Outcome.andThen_eq_done h
    exact (hmemo p cx r cx1 hp).trans (ih r cx1 hk)
  | call q k ih =>
    intro cx b cx' h
    obtain ⟨r, cx1, hq, hk⟩ := Outcome.andThen_eq_done h
    exact (hcall q cx r cx1 hq).trans (ih r cx1 hk)

theorem finish_env (cx : MemoContext σ κ) (k : κ) (depth : Nat) (isEmpty : Bool) :
    (cx.finish k depth isEmpty).env = cx.env := by
  unfold MemoContext.finish
  split
  · exact (MemoContext.resolve_spec isEmpty _ cx).1
  · rfl

theorem memoSubtypeIsEmpty_grown
    {predicate : MemoContext σ κ → Outcome (MemoContext σ κ) Bool}
    (hpred : ∀ cx b cx', predicate cx = .done b cx' → sys.Grown cx.env cx'.env) {k : κ}
    {cx cx' : MemoContext σ κ} {b : Bool}
    (h : memoSubtypeIsEmpty predicate k cx = .done b cx') : sys.Grown cx.env cx'.env := by
  unfold memoSubtypeIsEmpty at h
  split at h
  · cases h
    exact .refl
  · cases h
    exact .refl
  · cases h
    exact .refl
  · cases h
    exact .refl
  · obtain ⟨r, cx1, hp, hdone⟩ := Outcome.andThen_eq_done h
    cases hdone
    rw [finish_env]
    have hgrown := hpred _ _ _ hp
    exact hgrown

/-- A run changes the `Env` by interning only. -/
theorem run_grown : ∀ (fuel : Nat) (q : π ⊕ ρ) (cx : MemoContext σ κ) (b : Bool)
    (cx' : MemoContext σ κ), sys.run fuel q cx = .done b cx' → sys.Grown cx.env cx'.env := by
  intro fuel
  induction fuel with
  | zero =>
    intro q cx b cx' h
    cases h
  | succ fuel ih =>
    intro q cx b cx' h
    cases q with
    | inl p =>
      refine memoSubtypeIsEmpty_grown (fun cx b cx' hp => ?_) h
      exact exec_grown (fun p => ih (.inl p)) (fun q => ih (.inr q)) _ cx hp
    | inr q => exact exec_grown (fun p => ih (.inl p)) (fun q => ih (.inr q)) _ cx h

end Grown

end Nballerina.Types
