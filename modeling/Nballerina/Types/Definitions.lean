import Mathlib.Data.List.Nodup
import Mathlib.Logic.Function.Basic
import Nballerina.Types.RecAtoms

/-!
# Definitions over a whole run

A type that may refer to itself is made with a definition object: `getSemType` hands out the type
before it is known, with a recursive atom, and `define` says what it is. Objects for several types
are used in turn, for the types refer to each other.

`Objects` is what the callers have done: which objects handed out an atom, in the order of the
atoms, and what the others were defined as. However the methods of any number of objects follow
each other, the tables of the `Env` are what this says (`RefinesObjects`).
-/

namespace Nballerina.Types

/-! ## Calls -/

/-- The arguments of `define`. -/
inductive Contents where
  | list (initial : List SemType) (fixedLength : Int) (rest : SemType)
  | mapping (fields : List (String × SemType)) (rest : SemType)
  | function (args ret : SemType)

namespace Contents

def kind : Contents → DefinitionKind
  | .list .. => .list
  | .mapping .. => .mapping
  | .function .. => .function

def define : Contents → Definition → Env → SemType × Definition × Env
  | .list initial fixedLength rest => fun d env =>
    ListDefinition.define d env initial fixedLength rest
  | .mapping fields rest => fun d env => MappingDefinition.define d env fields rest
  | .function args ret => fun d env => FunctionDefinition.define d env args ret

def atomicType : Contents → AtomicType
  | .list initial fixedLength rest => listAtomicType initial fixedLength rest
  | .mapping fields rest => mappingAtomicType fields rest
  | .function args ret => .function args ret

theorem defining (c : Contents) : Defining c.kind c.atomicType c.define := by
  cases c with
  | list initial fixedLength rest => exact defining_list initial fixedLength rest
  | mapping fields rest => exact defining_mapping fields rest
  | function args ret => exact defining_function args ret

end Contents

/-- A call of a method of the object `i`. -/
inductive DefinitionCall where
  | getSemType (i : Nat)
  | define (i : Nat) (contents : Contents)

/-- An `Env` and the objects. -/
structure Definitions where
  env : Env
  defn : Nat → Definition

variable (kind : Nat → DefinitionKind)

namespace DefinitionCall

def object : DefinitionCall → Nat
  | .getSemType i => i
  | .define i _ => i

/-- The method that is called; `kind i` is the class of the object `i`. -/
def method : DefinitionCall → Definition → Env → SemType × Definition × Env
  | .getSemType i => (kind i).getSemType
  | .define _ contents => contents.define

end DefinitionCall

namespace Definitions

/-- The objects are new. -/
def start (env : Env) : Definitions := ⟨env, fun _ => {}⟩

/-- What a call returns, and the state after it. -/
def call (st : Definitions) (c : DefinitionCall) : SemType × Definitions :=
  let (s, d, env) := c.method kind (st.defn c.object) st.env
  (s, ⟨env, Function.update st.defn c.object d⟩)

def run (st : Definitions) (calls : List DefinitionCall) : Definitions :=
  calls.foldl (fun st c => (st.call kind c).2) st

theorem call_snd {kind : Nat → DefinitionKind} {st : Definitions} {c : DefinitionCall}
    {s : SemType} {d : Definition} {env : Env}
    (h : c.method kind (st.defn c.object) st.env = (s, d, env)) :
    (st.call kind c).2 = ⟨env, Function.update st.defn c.object d⟩ := by
  unfold call
  rw [h]

end Definitions

/-! ## What the objects are for -/

/-- The objects as their callers see them. -/
structure Objects where
  owners : DefinitionKind → List Nat
  contents : Nat → Option Contents

namespace Objects

def start : Objects := ⟨fun _ => [], fun _ => none⟩

/-- An object is defined once at most, as its class says. -/
def Allows (o : Objects) : DefinitionCall → Prop
  | .getSemType _ => True
  | .define i c => c.kind = kind i ∧ o.contents i = none

/-- Only the first call of an object can allocate an atom. -/
def call (o : Objects) : DefinitionCall → Objects
  | .getSemType i =>
    if i ∈ o.owners (kind i) ∨ (o.contents i).isSome then o
    else { o with owners := Function.update o.owners (kind i) (o.owners (kind i) ++ [i]) }
  | .define i c => { o with contents := Function.update o.contents i (some c) }

def run (o : Objects) (calls : List DefinitionCall) : Objects :=
  calls.foldl (fun o c => o.call kind c) o

def Legal : Objects → List DefinitionCall → Prop
  | _, [] => True
  | o, c :: calls => o.Allows kind c ∧ Legal (o.call kind c) calls

/-- What is read through the atom of an object. -/
def atomicType (o : Objects) (i : Nat) : Option AtomicType :=
  (o.contents i).map Contents.atomicType

end Objects

/-- The object with the recursive atom `ra`. -/
def atomDefinition (k : DefinitionKind) (ra : Int) : Definition :=
  ⟨some ra, some (atomSemType k.code (.recAtom ra))⟩

/-- An object without an atom: it is new, or its contents are interned. -/
def Atomless (o : Objects) (st : Definitions) (i : Nat) : Prop :=
  (st.defn i).recAtom = none ∧
    ((st.defn i).semType = none ∧ o.contents i = none ∨ ∃ s c, (st.defn i).semType = some s ∧
      o.contents i = some c ∧ StandsFor (kind i) st.env c.atomicType s)

theorem Atomless.mono {kind : Nat → DefinitionKind} {o o' : Objects} {st st' : Definitions}
    {i : Nat} (h : Atomless kind o st i) (hcontents : o'.contents i = o.contents i)
    (hdefn : st'.defn i = st.defn i) (hle : st.env.atomTable <+: st'.env.atomTable) :
    Atomless kind o' st' i := by
  unfold Atomless at h ⊢
  rw [hcontents, hdefn]
  refine ⟨h.1, h.2.imp id ?_⟩
  rintro ⟨s, c, hs, hc, hstands⟩
  exact ⟨s, c, hs, hc, hstands.mono hle⟩

/-- The `Env` and the objects are what the callers see. -/
structure RefinesObjects (env0 : Env) (o : Objects) (st : Definitions) : Prop where
  counted : st.env.Counted
  table : ∀ k, st.env.recTable k = env0.recTable k ++ (o.owners k).map o.atomicType
  nodup : ∀ k, (o.owners k).Nodup
  kind_eq : ∀ k, ∀ i ∈ o.owners k, kind i = k
  owner : ∀ i n, (o.owners (kind i))[n]? = some i →
    st.defn i = atomDefinition (kind i) ((env0.recTable (kind i)).length + n : Nat)
  other : ∀ i, i ∉ o.owners (kind i) → Atomless kind o st i

namespace RefinesObjects

variable {kind} {env0 : Env} {o : Objects} {st : Definitions}

theorem start (hcounted : env0.Counted) :
    RefinesObjects kind env0 Objects.start (Definitions.start env0) where
  counted := hcounted
  table _ := (List.append_nil _).symm
  nodup _ := List.nodup_nil
  kind_eq _ _ h := absurd h List.not_mem_nil
  owner _ _ h := by cases h
  other _ _ := ⟨rfl, Or.inl ⟨rfl, rfl⟩⟩

variable {i : Nat} {c : Contents}

theorem recAtom_ne_none (h : RefinesObjects kind env0 o st) (hmem : i ∈ o.owners (kind i)) :
    (st.defn i).recAtom ≠ none := by
  obtain ⟨n, hn⟩ := List.getElem?_of_mem hmem
  rw [h.owner i n hn]
  exact Option.some_ne_none _

/-- An object without a type is new. -/
theorem new (h : RefinesObjects kind env0 o st) (hnone : (st.defn i).semType = none) :
    i ∉ o.owners (kind i) ∧ o.contents i = none := by
  have hnot : i ∉ o.owners (kind i) := by
    intro hmem
    obtain ⟨n, hn⟩ := List.getElem?_of_mem hmem
    rw [h.owner i n hn] at hnone
    cases hnone
  refine ⟨hnot, ?_⟩
  rcases (h.other i hnot).2 with hnew | ⟨s, _, hs, _⟩
  · exact hnew.2
  · rw [hs] at hnone
    cases hnone

/-- What has a type is not new. -/
theorem not_new (h : RefinesObjects kind env0 o st) {s : SemType} (hs : (st.defn i).semType = some s) :
    i ∈ o.owners (kind i) ∨ (o.contents i).isSome = true := by
  by_cases hmem : i ∈ o.owners (kind i)
  · exact Or.inl hmem
  · rcases (h.other i hmem).2 with hnew | ⟨_, c, _, hc, _⟩
    · rw [hs] at hnew
      cases hnew.1
    · exact Or.inr (by rw [hc]; rfl)

/-- Only the owners have atoms. -/
theorem exists_owner (h : RefinesObjects kind env0 o st) {ra : Int}
    (hra : (st.defn i).recAtom = some ra) : ∃ n : Nat, (o.owners (kind i))[n]? = some i ∧
      ra = ((env0.recTable (kind i)).length + n : Nat) := by
  by_cases hmem : i ∈ o.owners (kind i)
  · obtain ⟨n, hn⟩ := List.getElem?_of_mem hmem
    rw [h.owner i n hn] at hra
    exact ⟨n, hn, (Option.some.inj hra).symm⟩
  · rw [(h.other i hmem).1] at hra
    cases hra

theorem getSemType (h : RefinesObjects kind env0 o st) (i : Nat) :
    RefinesObjects kind env0 (o.call kind (.getSemType i)) (st.call kind (.getSemType i)).2 := by
  show RefinesObjects kind env0 (if i ∈ o.owners (kind i) ∨ (o.contents i).isSome then o
    else ⟨Function.update o.owners (kind i) (o.owners (kind i) ++ [i]), o.contents⟩) _
  rcases getSemType_cases (kind i) (st.defn i) st.env with ⟨s, hs, heq⟩ | ⟨hnone, ra, env', ha, heq⟩
  · rw [Definitions.call_snd (c := .getSemType i) heq, if_pos (h.not_new hs)]
    show RefinesObjects kind env0 o ⟨st.env, Function.update st.defn i (st.defn i)⟩
    rw [Function.update_eq_self]
    exact h
  obtain ⟨hnot, hcontents⟩ := h.new hnone
  have hisSome : ¬ (i ∈ o.owners (kind i) ∨ (o.contents i).isSome = true) := by
    rw [hcontents]
    exact not_or.mpr ⟨hnot, Bool.false_ne_true⟩
  rw [Definitions.call_snd (c := .getSemType i) heq, if_neg hisSome]
  have hself : Function.update o.owners (kind i) (o.owners (kind i) ++ [i]) (kind i) =
      o.owners (kind i) ++ [i] := Function.update_self ..
  have hother : ∀ k, k ≠ kind i →
      Function.update o.owners (kind i) (o.owners (kind i) ++ [i]) k = o.owners k :=
    fun k hk => Function.update_of_ne hk ..
  generalize Function.update o.owners (kind i) (o.owners (kind i) ++ [i]) = owners at hself hother ⊢
  have hold : ∀ {j n}, (o.owners (kind j))[n]? = some j →
      Function.update st.defn i (atomDefinition (kind i) ra) j =
        atomDefinition (kind j) ((env0.recTable (kind j)).length + n : Nat) := by
    intro j n hj
    have hne : j ≠ i := fun hji => hnot (hji ▸ List.mem_of_getElem? hj)
    exact (Function.update_of_ne hne ..).trans (h.owner j n hj)
  have hmem : ∀ {k j}, j ∈ owners k ↔ j ∈ o.owners k ∨ k = kind i ∧ j = i := by
    intro k j
    by_cases hk : k = kind i
    · subst hk
      rw [hself, List.mem_append, List.mem_singleton, and_iff_right rfl]
    · rw [hother k hk]
      exact (or_iff_left fun hki => hk hki.1).symm
  refine ⟨ha.counted h.counted, fun k => ?_, fun k => ?_, fun k j hj => ?_, fun j n hj => ?_,
    fun j hj => ?_⟩
  · show env'.recTable k = env0.recTable k ++ (owners k).map o.atomicType
    by_cases hk : k = kind i
    · subst hk
      rw [hself, ha.self, h.table, List.map_append, List.append_assoc]
      show _ = _ ++ (_ ++ [(o.contents i).map Contents.atomicType])
      rw [hcontents]
      rfl
    · rw [hother k hk, ha.other k hk]
      exact h.table k
  · show (owners k).Nodup
    by_cases hk : k = kind i
    · subst hk
      rw [hself]
      exact List.concat_eq_append ▸ (h.nodup _).concat hnot
    · rw [hother k hk]
      exact h.nodup k
  · rcases hmem.mp hj with hj | ⟨rfl, rfl⟩
    · exact h.kind_eq k j hj
    · rfl
  · replace hj : (owners (kind j))[n]? = some j := hj
    by_cases hk : kind j = kind i
    · rw [hk, hself] at hj
      rcases Nat.lt_or_ge n (o.owners (kind i)).length with hlt | hge
      · rw [List.getElem?_append_left hlt, ← hk] at hj
        exact hold hj
      · -- the atom that was allocated
        obtain ⟨hn, rfl⟩ := List.getElem?_eq_some_iff.mp hj
        rw [List.length_append, List.length_singleton] at hn
        have hra : ra = ((env0.recTable (kind i)).length + n : Nat) := by
          rw [ha.index, h.table, List.length_append, List.length_map]
          omega
        have hi : (o.owners (kind i) ++ [i])[n] = i := by
          rw [List.getElem_append_right hge, List.getElem_singleton]
        rw [hi, ← hra]
        exact Function.update_self ..
    · rw [hother _ hk] at hj
      exact hold hj
  · replace hj : j ∉ o.owners (kind j) ∧ ¬ (kind j = kind i ∧ j = i) := not_or.mp (mt hmem.mpr hj)
    have hne : j ≠ i := fun hji => hj.2 ⟨congrArg kind hji, hji⟩
    exact (h.other j hj.1).mono rfl (Function.update_of_ne hne ..) (ha.atomTable ▸ List.prefix_rfl)

theorem contents_define_self :
    (o.call kind (.define i c)).contents i = some c := Function.update_self ..

theorem contents_define_ne {j : Nat} (hj : j ≠ i) :
    (o.call kind (.define i c)).contents j = o.contents j := Function.update_of_ne hj ..

/-- Defining an object changes what is read through its atom, and nothing else. -/
theorem map_atomicType_of_notMem {l : List Nat} (hi : i ∉ l) :
    l.map (o.call kind (.define i c)).atomicType = l.map o.atomicType := by
  refine List.map_congr_left fun j hj => ?_
  have hne : j ≠ i := fun hji => hi (hji ▸ hj)
  exact congrArg (Option.map _) (contents_define_ne hne)

theorem map_atomicType_set {n : Nat} {l : List Nat} (hnodup : l.Nodup) (hn : l[n]? = some i) :
    l.map (o.call kind (.define i c)).atomicType =
      (l.map o.atomicType).set n (some c.atomicType) := by
  obtain ⟨hlt, rfl⟩ := List.getElem?_eq_some_iff.mp hn
  refine List.ext_getElem (by rw [List.length_set, List.length_map, List.length_map])
    fun m hm _ => ?_
  rw [List.length_map] at hm
  rw [List.getElem_map, List.getElem_set, List.getElem_map]
  split
  next hnm =>
    subst hnm
    exact congrArg (Option.map _) contents_define_self
  next hnm =>
    have hne : l[m] ≠ l[n] := fun heq => hnm ((hnodup.getElem_inj_iff.mp heq).symm)
    exact congrArg (Option.map _) (contents_define_ne hne)

theorem define (h : RefinesObjects kind env0 o st) {i : Nat} {c : Contents}
    (hkind : c.kind = kind i) (hnew : o.contents i = none) :
    RefinesObjects kind env0 (o.call kind (.define i c)) (st.call kind (.define i c)).2 := by
  have hnotMem : ∀ k, k ≠ kind i → i ∉ o.owners k := fun k hk hmem => hk (h.kind_eq k i hmem).symm
  have hdefining := c.defining
  rw [hkind] at hdefining
  rcases hdefining (st.defn i) st.env with ⟨ra, env', hrec, hs, heq⟩ | ⟨hrec, s, env', hs, hst, heq⟩
  · -- the atom of the object is set
    obtain ⟨n, hn, rfl⟩ := h.exists_owner hrec
    have hsame : Function.update st.defn i
        (atomDefinition (kind i) ((env0.recTable (kind i)).length + n : Nat)) = st.defn := by
      rw [← h.owner i n hn, Function.update_eq_self]
    have hget : (st.env.recTable (kind i))[(env0.recTable (kind i)).length + n]? = some none := by
      rw [h.table, List.getElem?_append_right (Nat.le_add_right _ _), Nat.add_sub_cancel_left,
        List.getElem?_map, hn]
      exact congrArg (fun contents => some (Option.map _ contents)) hnew
    rw [Definitions.call_snd (c := .define i c) heq]
    show RefinesObjects kind env0 _ ⟨env', Function.update st.defn i (atomDefinition _ _)⟩
    rw [hsame]
    refine ⟨hs.counted hget h.counted, fun k => ?_, h.nodup, h.kind_eq, h.owner, fun j hj => ?_⟩
    · by_cases hk : k = kind i
      · subst hk
        show _ = _ ++ (o.owners (kind i)).map _
        rw [hs.self, h.table, Int.toNat_natCast, List.set_append_right _ _ (Nat.le_add_right _ _),
          Nat.add_sub_cancel_left, map_atomicType_set (h.nodup _) hn]
      · show _ = _ ++ (o.owners k).map _
        rw [hs.other k hk, h.table, map_atomicType_of_notMem (hnotMem k hk)]
    · have hne : j ≠ i := by
        rintro rfl
        exact hj (List.mem_of_getElem? hn)
      exact (h.other j hj).mono (contents_define_ne hne) rfl (hs.atomTable ▸ List.prefix_rfl)
  · -- there is no atom; the contents are interned
    have hnot : ∀ k, i ∉ o.owners k := by
      intro k hmem
      have hk := h.kind_eq k i hmem
      exact h.recAtom_ne_none (hk ▸ hmem) hrec
    rw [Definitions.call_snd (c := .define i c) heq]
    refine ⟨hs.counted h.counted, fun k => ?_, h.nodup, h.kind_eq, fun j n hj => ?_,
      fun j hj => ?_⟩
    · show _ = _ ++ (o.owners k).map _
      rw [map_atomicType_of_notMem (hnot k), ← h.table k]
      exact hs.recTable k
    · have hne : j ≠ i := fun hji => hnot _ (hji ▸ List.mem_of_getElem? hj)
      exact (Function.update_of_ne hne ..).trans (h.owner j n hj)
    · by_cases hji : j = i
      · subst hji
        have hself : Function.update st.defn j ⟨none, some s⟩ j = ⟨none, some s⟩ :=
          Function.update_self ..
        exact ⟨congrArg Definition.recAtom hself,
          Or.inr ⟨s, c, congrArg Definition.semType hself, contents_define_self, hst⟩⟩
      · exact (h.other j hj).mono (contents_define_ne hji) (Function.update_of_ne hji ..)
          hs.atomTable

theorem run (h : RefinesObjects kind env0 o st) {calls : List DefinitionCall}
    (hlegal : o.Legal kind calls) :
    RefinesObjects kind env0 (o.run kind calls) (st.run kind calls) := by
  induction calls generalizing o st with
  | nil => exact h
  | cons c calls ih =>
    refine ih ?_ hlegal.2
    cases c with
    | getSemType i => exact h.getSemType i
    | define i c => exact h.define hlegal.1.1 hlegal.1.2

end RefinesObjects

/-! ## Runs -/

variable {kind} {env0 : Env} {calls : List DefinitionCall} {o : Objects} {st : Definitions}

/-- Methods of any number of objects are called in any order, none defined twice. The `Env` is
ready exactly when it was before and all the objects that handed out an atom are defined; through
the atom of an object is read what it was defined as, or nothing yet; no two objects share an atom;
and an object without an atom stands for what it was defined as, interned. -/
theorem definitions_run (hcounted : env0.Counted) (hlegal : Objects.start.Legal kind calls)
    (ho : Objects.start.run kind calls = o) (hst : (Definitions.start env0).run kind calls = st) :
    (st.env.isReady = true ↔ env0.isReady = true ∧
      ∀ i, (st.defn i).recAtom ≠ none → o.contents i ≠ none) ∧
    (∀ i ra, (st.defn i).recAtom = some ra →
      st.env.readRecAtom (kind i) ra = (o.contents i).map Contents.atomicType) ∧
    (∀ i j ra, (st.defn i).recAtom = some ra → (st.defn j).recAtom = some ra →
      kind i = kind j → i = j) ∧
    ∀ i c, (st.defn i).recAtom = none → o.contents i = some c → ∃ s,
      (st.defn i).semType = some s ∧ StandsFor (kind i) st.env c.atomicType s := by
  have h : RefinesObjects kind env0 o st := ho ▸ hst ▸ (RefinesObjects.start hcounted).run hlegal
  refine ⟨?_, fun i ra hra => ?_, fun i j ra hi hj hkind => ?_, fun i c hi hc => ?_⟩
  · rw [h.counted.isReady_iff, hcounted.isReady_iff]
    refine ⟨fun hall => ⟨fun k hk => hall k ?_, fun i hi hnone => ?_⟩, fun ⟨hall, hdone⟩ k hk => ?_⟩
    · rw [h.table]
      exact List.mem_append_left _ hk
    · obtain ⟨ra, hra⟩ := Option.ne_none_iff_exists'.mp hi
      obtain ⟨n, hn, _⟩ := h.exists_owner hra
      refine hall (kind i) ?_
      rw [h.table]
      refine List.mem_append_right _ (List.mem_map.mpr ⟨i, List.mem_of_getElem? hn, ?_⟩)
      exact congrArg (Option.map _) hnone
    · rw [h.table] at hk
      rcases List.mem_append.mp hk with hk | hk
      · exact hall k hk
      · obtain ⟨i, hi, hnone⟩ := List.mem_map.mp hk
        have hik := h.kind_eq k i hi
        exact hdone i (h.recAtom_ne_none (hik ▸ hi)) (Option.map_eq_none_iff.mp hnone)
  · obtain ⟨n, hn, rfl⟩ := h.exists_owner hra
    rw [Env.readRecAtom_natCast, h.table, List.getElem?_append_right (Nat.le_add_right _ _),
      Nat.add_sub_cancel_left, List.getElem?_map, hn]
    rfl
  · obtain ⟨n, hn, rfl⟩ := h.exists_owner hi
    obtain ⟨m, hm, heq⟩ := h.exists_owner hj
    rw [hkind] at heq hn
    have hnm : n = m := by omega
    rw [hnm, hm] at hn
    exact (Option.some.inj hn).symm
  · have hnot : i ∉ o.owners (kind i) := fun hmem => h.recAtom_ne_none hmem hi
    rcases (h.other i hnot).2 with hnew | ⟨s, c', hs, hc', hstands⟩
    · rw [hc] at hnew
      cases hnew.2
    · rw [hc] at hc'
      cases hc'
      exact ⟨s, hs, hstands⟩

/-- Two lists, each with members of the other, and a function from the first to the second: the lists
are handed out first. -/
def listsOfEachOther : List DefinitionCall :=
  [.getSemType 0, .getSemType 1,
    .define 2 (.function (atomSemType BT_LIST (.recAtom 1)) (atomSemType BT_LIST (.recAtom 2))),
    .define 1 (.list [atomSemType BT_LIST (.recAtom 1)] 1 NEVER),
    .define 0 (.list [] 0 (atomSemType BT_LIST (.recAtom 2)))]

def listsKind (i : Nat) : DefinitionKind := if i = 2 then .function else .list

theorem definitions_run_listsOfEachOther :
    let st := (Definitions.start Env.init).run listsKind listsOfEachOther
    st.env.isReady = true ∧
    st.env.readRecAtom .list 1 = some (listAtomicType [] 0 (atomSemType BT_LIST (.recAtom 2))) ∧
    st.env.readRecAtom .list 2 = some (listAtomicType [atomSemType BT_LIST (.recAtom 1)] 1 NEVER) ∧
    ∃ s, (st.defn 2).semType = some s ∧ StandsFor .function st.env
      (.function (atomSemType BT_LIST (.recAtom 1)) (atomSemType BT_LIST (.recAtom 2))) s := by
  intro st
  have hlegal : Objects.start.Legal listsKind listsOfEachOther :=
    ⟨trivial, trivial, ⟨rfl, rfl⟩, ⟨rfl, rfl⟩, ⟨rfl, rfl⟩, trivial⟩
  have hcounted : Env.init.Counted := rfl
  obtain ⟨hready, hread, -, hstands⟩ := definitions_run hcounted hlegal rfl rfl
  refine ⟨hready.mpr ⟨rfl, fun i hi hnone => ?_⟩, hread 0 1 rfl, hread 1 2 rfl, hstands 2 _ rfl rfl⟩
  by_cases h0 : i = 0
  · rw [h0] at hnone
    cases hnone
  by_cases h1 : i = 1
  · rw [h1] at hnone
    cases hnone
  by_cases h2 : i = 2
  · rw [h2] at hnone
    cases hnone
  · -- the other objects are new
    have hnew : st.defn i = {} := (Function.update_of_ne h0 ..).trans <|
      (Function.update_of_ne h1 ..).trans <| (Function.update_of_ne h2 ..).trans <|
      (Function.update_of_ne h1 ..).trans (Function.update_of_ne h0 ..)
    exact hi (congrArg Definition.recAtom hnew)

end Nballerina.Types
