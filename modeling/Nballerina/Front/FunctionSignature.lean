import Nballerina.Front.ResolveSpec
import Nballerina.Types.CellExact
import Nballerina.Types.ListMember
import Nballerina.Types.Shapes

/-!
# Function signatures and function types

A function type keeps the parameters of a signature as one tuple type with readonly cells
(`functionSemType`, `function.bal`), and `functionSignature` reads them back. The rest parameter is
there twice: a signature has its type, and as the last of the parameter types the type of the array
that a call passes. The tuple has it once, as its rest type, so `functionSignature` makes the array
type again.

It makes it with `CELL_MUT_LIMITED`, the default of `defineListTypeWrapped`, while
`resolveFunctionSignature` makes it with `CELL_MUT_NONE`. So the way there and back gives the same
signature if and only if there is no rest parameter (`functionSignature_sameSignature_iff`), whatever
the two memo tables hold.

Mirroring notes:
- `SignatureContext` is the part of a `Context` that is used here. A memo table is a list in order of
  insertion; its key lookup is by deep equality.
- Everything else that changes the `Env` between two calls is one step of a `SignatureContext`.
-/

namespace Nballerina.Front

open Nballerina.Lib Nballerina.Types

deriving instance DecidableEq for FunctionSignature

deriving instance DecidableEq for FunctionAtomicType

structure SignatureContext where
  env : Env
  functionAtomicTypeMemo : List (FunctionSignature × SemType)
  functionSignatureMemo : List (FunctionAtomicType × FunctionSignature)

abbrev SignatureM := StateT SignatureContext Option

/-- A query answers from its table, or creates the answer and adds it to the table. -/
def memoise {κ β : Type} [DecidableEq κ] (table : SignatureContext → List (κ × β))
    (setTable : SignatureContext → List (κ × β) → SignatureContext) (create : κ → EnvM β) (key : κ) :
    SignatureM β := fun cx =>
  match (table cx).lookup key with
  | some value => some (value, cx)
  | none => (create key cx.env).map fun (value, env) =>
    (value, setTable { cx with env } (table cx ++ [(key, value)]))

section Source

variable [BddIdentity]

/-! ## To a type and back -/

/-- The parameters without the array of the rest parameter; `slice` panics if there is none. -/
def FunctionSignature.requiredParams (signature : FunctionSignature) : Option (List SemType) :=
  if signature.restParamType = none then some signature.paramTypes
  else if signature.paramTypes = [] then none
  else some signature.paramTypes.dropLast

/-- What `functionSemType` makes of a signature that is not in the table. -/
def createFunctionSemType (signature : FunctionSignature) : EnvM SemType := do
  let requiredParams ← StateT.lift signature.requiredParams
  let rest := signature.restParamType.getD NEVER
  let (args, _) ← defineListTypeWrapped {} requiredParams requiredParams.length rest .none
  fun env =>
    let (s, _, env) := FunctionDefinition.define {} env args signature.returnType
    some (s, env)

def functionSemType : FunctionSignature → SignatureM SemType :=
  memoise (·.functionAtomicTypeMemo) (fun cx table => { cx with functionAtomicTypeMemo := table })
    createFunctionSemType

/-- What `functionSignature` makes of an atomic type that is not in the table. -/
def createFunctionSignature (atomic : FunctionAtomicType) : EnvM FunctionSignature := do
  let env ← get
  let listAtom ← StateT.lift (do (← env.listAtomicType atomic.args))
  let paramTypes ← StateT.lift ((List.range listAtom.members.fixedLength.toNat).mapM fun (i : Nat) =>
    listMemberAtInnerVal listAtom.members listAtom.rest i)
  let restInnerVal ← StateT.lift (cellInnerVal listAtom.rest)
  if restInnerVal = NEVER then return ⟨paramTypes, atomic.ret, none⟩
  else
    let (arrTy, _) ← defineListTypeWrapped {} [] 0 restInnerVal .limited
    return ⟨paramTypes ++ [arrTy], atomic.ret, some restInnerVal⟩

def functionSignature : FunctionAtomicType → SignatureM FunctionSignature :=
  memoise (·.functionSignatureMemo) (fun cx table => { cx with functionSignatureMemo := table })
    createFunctionSignature

/-- What can happen to a context. -/
inductive SignatureContext.Step : SignatureContext → SignatureContext → Prop
  | env {cx : SignatureContext} (env : Env) : Step cx { cx with env }
  | semType {cx cx' : SignatureContext} {signature : FunctionSignature} {t : SemType} :
      functionSemType signature cx = some (t, cx') → Step cx cx'
  | signature {cx cx' : SignatureContext} {atomic : FunctionAtomicType} {signature : FunctionSignature} :
      functionSignature atomic cx = some (signature, cx') → Step cx cx'

/-- A context that some queries have been made on. -/
def SignatureContext.Reachable (cx : SignatureContext) : Prop :=
  ∃ env, Relation.ReflTransGen Step ⟨env, [], []⟩ cx

end Source

/-! ## Signatures that are resolved -/

section RoundTrip

variable {V : Type}

/-- The values of the cells of a type. -/
def cellValues (den : SemType → Set V) (c : SemType) : Set (CellValue V) :=
  {x | ∃ ct, cellAtomicType c = some ct ∧ ct.Contains den x}

/-- A list of cells that belongs to the type. -/
def ListOfCells (den : SemType → Set V) (env : Env) (t : SemType) (l : List (CellValue V)) : Prop :=
  ∃ b, listBdd t = some b ∧ b.holds (env.ListContains (cellValues den) l)

variable [BddIdentity]

/-- A signature that `resolveFunctionSignature` makes: no type of a parameter is empty. -/
inductive Resolved (den : SemType → Set V) : FunctionSignature → Prop
  | required {tys : List SemType} {ret : SemType} :
      (∀ ty ∈ tys, Plain ty) → Resolved den ⟨tys, ret, none⟩
  | rest {tys : List SemType} {ret ty arrTy : SemType} {d : Definition} {env env' : Env} :
      (∀ ty ∈ tys, Plain ty) → Plain ty → (den ty).Nonempty →
      defineListTypeWrapped {} [] 0 ty .none env = some ((arrTy, d), env') →
      Resolved den ⟨tys ++ [arrTy], ret, some ty⟩

/-- Type equivalence: equal types are equivalent, and equivalent types have the same lists. -/
structure TypeEquivalence (den : SemType → Set V) (env : Env) (equiv : SemType → SemType → Prop) :
    Prop where
  refl : ∀ t, equiv t t
  lists : ∀ {t u : SemType}, equiv t u → ∀ l, ListOfCells den env t l ↔ ListOfCells den env u l

/-- Equal up to equivalence of the parameter types and of the rest parameter. -/
structure SameSignature (equiv : SemType → SemType → Prop) (signature signature' : FunctionSignature) :
    Prop where
  returnType : signature.returnType = signature'.returnType
  paramTypes : List.Forall₂ equiv signature.paramTypes signature'.paramTypes
  restParamType : Option.Rel equiv signature.restParamType signature'.restParamType

/-! ## The array of a rest parameter -/

omit [BddIdentity] in
theorem listOfCells_atom (den : SemType → Set V) (env : Env) (atom : Atom) (l : List (CellValue V)) :
    ListOfCells den env (atomSemType BT_LIST atom) l ↔ env.ListContains (cellValues den) l atom := by
  have hbdd : listBdd (atomSemType BT_LIST atom) =
      some (.node atom (.leaf true) (.leaf false) (.leaf false)) := by
    unfold listBdd atomSemType
    rw [subtypeData_basicSubtype]
    rfl
  unfold ListOfCells
  rw [hbdd]
  refine ⟨fun ⟨b, hb, hl⟩ => ?_, fun hl => ⟨_, rfl, ?_⟩⟩
  · cases hb
    simpa using hl
  · simpa using hl

variable {den : SemType → Set V} {signature : FunctionSignature}

omit [BddIdentity] in
/-- An array has a list of one cell if the cell belongs to the rest type. -/
theorem listOfCells_array {env : Env} {u t : SemType} {mutability restMut : CellMutability}
    (h : IsList [] u mutability restMut t) (x : CellValue V) :
    ListOfCells den env t [x] ↔ (CellAtomicType.mk u restMut).Contains den x := by
  obtain ⟨i, cells, c, rfl, hcells, hc⟩ := h
  cases hcells
  rw [listOfCells_atom]
  have hatom : env.listAtomType (.typeAtom i (ListAtomicType.toAtomicType
      ⟨fixedLengthNormalize ⟨[], ([] : List SemType).length⟩, c⟩)) = some ⟨⟨[], 0⟩, c⟩ := rfl
  constructor
  · rintro ⟨lt, hlt, -, hmem⟩
    rw [hatom] at hlt
    cases hlt
    obtain ⟨ct, hct, hx⟩ := hmem 0 x c rfl rfl
    rw [hc.cellAtomicType] at hct
    cases hct
    exact hx
  · intro hx
    refine ⟨_, hatom, Int.natCast_nonneg 1, fun k v ty hv hty => ?_⟩
    obtain ⟨rfl, rfl⟩ : k = 0 ∧ x = v := by
      cases k with
      | zero => exact ⟨rfl, Option.some.inj hv⟩
      | succ k => cases hv
    cases hty
    exact ⟨_, hc.cellAtomicType, hx⟩

omit [BddIdentity] in
theorem listOfCells_list (den : SemType → Set V) (env : Env) (l : List (CellValue V)) :
    ListOfCells den env (.bits LIST) l :=
  ⟨.leaf true, rfl, by simp⟩

omit [BddIdentity] in
/-- The array that `functionSignature` makes has lists with a writable cell, and the array that
`resolveFunctionSignature` makes has none. -/
theorem not_equiv_array {env : Env} {equiv : SemType → SemType → Prop}
    (hequiv : TypeEquivalence den env equiv) {u t t' : SemType} (hu : (den u).Nonempty)
    (ht : IsList [] u .none .none t) (ht' : IsList [] u .limited .limited t' ∨ t' = .bits LIST) :
    ¬ equiv t' t := by
  intro h
  let x : CellValue V := .writable (den u) hu
  have hin : ListOfCells den env t' [x] := by
    rcases ht' with ht' | rfl
    · exact (listOfCells_array ht' x).mpr ⟨rfl, Set.Subset.rfl⟩
    · exact listOfCells_list den env [x]
  have hout := (listOfCells_array ht x).mp ((hequiv.lists h [x]).mp hin)
  exact absurd hout.1 (fun heq => by cases heq)

/-! ## The way there -/

/-- The function type has the parameters of the signature and its return type. -/
def FunctionTypeOf (signature : FunctionSignature) (t : SemType) : Prop :=
  ∃ (tys : List SemType) (i j : Int) (lt : ListAtomicType), signature.requiredParams = some tys ∧
    lt.Keeps tys (signature.restParamType.getD NEVER) ∧
    t = atomSemType BT_FUNCTION (.typeAtom i
      (.function (atomSemType BT_LIST (.typeAtom j lt.toAtomicType)) signature.returnType))

/-- The types of the parameters that the tuple keeps. -/
theorem Resolved.parts (h : Resolved den signature) :
    ∃ tys, signature.requiredParams = some tys ∧ (∀ ty ∈ tys, Plain ty) ∧
      Plain (signature.restParamType.getD NEVER) := by
  cases h with
  | @required tys ret htys => exact ⟨tys, rfl, htys, .bits rfl⟩
  | @rest tys ret ty arrTy d env env' htys hty hne harr =>
    refine ⟨tys, ?_, htys, hty⟩
    unfold FunctionSignature.requiredParams
    dsimp only
    rw [if_neg (Option.some_ne_none ty), if_neg (by simp), List.dropLast_concat]

theorem gives_createFunctionSemType (h : Resolved den signature) :
    Gives (createFunctionSemType signature) (FunctionTypeOf signature) := by
  obtain ⟨tys, hrequired, htys, hrest⟩ := h.parts
  obtain ⟨u, hu, hback⟩ := hrest.union_undef
  refine (gives_lift (P := (· = tys)) hrequired rfl).bind fun x hx => ?_
  subst hx
  refine (gives_defineListTypeWrapped x hu .none).bind fun ⟨args, d⟩ hargs => ?_
  have hlist : IsList x u .none (restMutability (signature.restParamType.getD NEVER) .none) args := by
    rcases hargs with hargs | ⟨-, -, -, hmut⟩
    · exact hargs
    · unfold restMutability at hmut
      split at hmut <;> cases hmut
  obtain ⟨j, lt, heq, hkeeps⟩ := hlist.keeps htys hback
  have hdefine : Gives (fun env => some ((FunctionDefinition.define {} env args signature.returnType).1,
      (FunctionDefinition.define {} env args signature.returnType).2.2)) fun t => ∃ i,
        t = atomSemType BT_FUNCTION (.typeAtom i (.function args signature.returnType)) :=
    fun env => ⟨_, _, rfl, _, congrArg (atomSemType BT_FUNCTION) (typeAtom_toAtom env _)⟩
  refine hdefine.imp fun t ht => ?_
  obtain ⟨i, rfl⟩ := ht
  exact ⟨x, i, j, lt, hrequired, hkeeps, by rw [heq]⟩

/-! ## The way back -/

/-- What is made of the parameters that a tuple keeps. -/
inductive Rebuilt (tys : List SemType) (ret rest : SemType) : FunctionSignature → Prop
  | required : rest = NEVER → Rebuilt tys ret rest ⟨tys, ret, none⟩
  | rest {u arrTy : SemType} : rest ≠ NEVER → union ops rest (.bits UNDEF) = some u →
      IsList [] u .limited .limited arrTy ∨ arrTy = .bits LIST →
      Rebuilt tys ret rest ⟨tys ++ [arrTy], ret, some rest⟩

omit [BddIdentity] in
theorem mapM_range'_getElem? {α : Type} {f : Nat → Option α} : ∀ {l : List α} {start : Nat},
    (∀ i < l.length, f (start + i) = l[i]?) → (List.range' start l.length).mapM f = some l
  | [], _, _ => rfl
  | a :: l, start, h => by
    have hhead : f start = some a := h 0 (Nat.zero_lt_succ _)
    have htail : (List.range' (start + 1) l.length).mapM f = some l := by
      refine mapM_range'_getElem? fun i hi => ?_
      rw [Nat.add_assoc, Nat.add_comm 1 i]
      exact h (i + 1) (Nat.succ_lt_succ hi)
    rw [List.length_cons, List.range'_succ, List.mapM_cons, hhead, htail]
    rfl

theorem gives_createFunctionSignature {tys : List SemType} {ret rest : SemType} {lt : ListAtomicType}
    (j : Int) (hkeeps : lt.Keeps tys rest) (hrest : Plain rest) :
    Gives (createFunctionSignature ⟨atomSemType BT_LIST (.typeAtom j lt.toAtomicType), ret⟩)
      (Rebuilt tys ret rest) := by
  have hget : Gives (get : EnvM Env) fun _ => True := fun env => ⟨env, env, rfl, trivial⟩
  refine hget.bind fun env _ => ?_
  have hlist : env.listAtomicType (atomSemType BT_LIST (.typeAtom j lt.toAtomicType)) = some (some lt) :=
    atomicTypeOf_atomSemType rfl
  have hcast : (do (← env.listAtomicType (atomSemType BT_LIST (.typeAtom j lt.toAtomicType)))) = some lt := by
    rw [hlist]
    rfl
  refine (gives_lift (P := (· = lt)) hcast rfl).bind fun x hx => ?_
  subst hx
  have hmembers : ((List.range x.members.fixedLength.toNat).mapM fun (i : Nat) =>
      listMemberAtInnerVal x.members x.rest i) = some tys := by
    rw [hkeeps.fixedLength, Int.toNat_natCast, List.range_eq_range']
    refine mapM_range'_getElem? fun i hi => ?_
    rw [Nat.zero_add]
    exact hkeeps.members i hi
  refine (gives_lift (P := (· = tys)) hmembers rfl).bind fun y hy => ?_
  subst hy
  refine (gives_lift (P := (· = rest)) hkeeps.rest rfl).bind fun z hz => ?_
  subst hz
  by_cases hnever : z = NEVER
  · rw [if_pos hnever]
    exact gives_pure (.required hnever)
  · rw [if_neg hnever]
    obtain ⟨u, hu, -⟩ := hrest.union_undef
    refine (gives_defineListTypeWrapped [] hu .limited).bind fun ⟨arrTy, d⟩ harr => ?_
    have hmut : restMutability z .limited = .limited := if_neg hnever
    rw [hmut] at harr
    exact gives_pure (.rest hnever hu (harr.imp_right And.left))

/-! ## The memo tables -/

section Memo

omit [BddIdentity]

variable {κ β : Type} [DecidableEq κ] {table : SignatureContext → List (κ × β)}
  {setTable : SignatureContext → List (κ × β) → SignatureContext} {create : κ → EnvM β}

/-- The value was created for the key in some `Env`. -/
def Created (create : κ → EnvM β) (e : κ × β) : Prop := ∃ env env', create e.1 env = some (e.2, env')

theorem mem_of_lookup {key : κ} {value : β} : ∀ {l : List (κ × β)},
    l.lookup key = some value → (key, value) ∈ l
  | (key', value') :: l, h => by
    rw [List.lookup_cons] at h
    by_cases hkey : key = key'
    · subst hkey
      rw [beq_self_eq_true] at h
      cases h
      exact .head _
    · rw [beq_eq_false_iff_ne.mpr hkey] at h
      exact .tail _ (mem_of_lookup h)

omit [DecidableEq κ] in
theorem Gives.created {f : κ → EnvM β} {P : β → Prop} {e : κ × β} (h : Gives (f e.1) P)
    (he : Created f e) : P e.2 := by
  obtain ⟨env, env', hcreate⟩ := he
  obtain ⟨value, env'', hcreate', hvalue⟩ := h env
  rw [hcreate] at hcreate'
  cases hcreate'
  exact hvalue

/-- A query does not panic, and its answer has the property that a new one has. -/
theorem memoise_gives {P : β → Prop} {key : κ} (hcreate : Gives (create key) P) {cx : SignatureContext}
    (htable : ∀ e ∈ table cx, Created create e) :
    ∃ value cx', memoise table setTable create key cx = some (value, cx') ∧ P value := by
  unfold memoise
  cases hlookup : (table cx).lookup key with
  | some value => exact ⟨value, cx, rfl, Gives.created hcreate (htable _ (mem_of_lookup hlookup))⟩
  | none =>
    obtain ⟨value, env', hvalue, hP⟩ := hcreate cx.env
    refine ⟨value, setTable { cx with env := env' } (table cx ++ [(key, value)]), ?_, hP⟩
    dsimp only
    rw [hvalue]
    rfl

theorem memoise_cases {key : κ} {value : β} {cx cx' : SignatureContext}
    (h : memoise table setTable create key cx = some (value, cx')) : cx' = cx ∨
      ∃ env, Created create (key, value) ∧ cx' = setTable { cx with env } (table cx ++ [(key, value)]) := by
  unfold memoise at h
  cases hlookup : (table cx).lookup key with
  | some v =>
    rw [hlookup] at h
    cases h
    exact .inl rfl
  | none =>
    rw [hlookup] at h
    obtain ⟨⟨v, env⟩, hcreate, heq⟩ := Option.map_eq_some_iff.mp h
    cases heq
    exact .inr ⟨env, ⟨cx.env, env, hcreate⟩, rfl⟩

end Memo

/-- What the tables hold was created. -/
structure MemoRight (cx : SignatureContext) : Prop where
  semType : ∀ e ∈ cx.functionAtomicTypeMemo, Created createFunctionSemType e
  signature : ∀ e ∈ cx.functionSignatureMemo, Created createFunctionSignature e

theorem MemoRight.step {cx cx' : SignatureContext} (h : MemoRight cx) (hstep : cx.Step cx') :
    MemoRight cx' := by
  cases hstep with
  | env env => exact ⟨h.semType, h.signature⟩
  | semType hquery =>
    rcases memoise_cases hquery with rfl | ⟨env, hcreated, rfl⟩
    · exact h
    · refine ⟨fun e he => ?_, h.signature⟩
      rcases List.mem_append.mp he with he | he
      · exact h.semType e he
      · rw [List.mem_singleton.mp he]
        exact hcreated
  | signature hquery =>
    rcases memoise_cases hquery with rfl | ⟨env, hcreated, rfl⟩
    · exact h
    · refine ⟨h.semType, fun e he => ?_⟩
      rcases List.mem_append.mp he with he | he
      · exact h.signature e he
      · rw [List.mem_singleton.mp he]
        exact hcreated

theorem SignatureContext.Reachable.memoRight {cx : SignatureContext} (h : cx.Reachable) :
    MemoRight cx := by
  obtain ⟨env, hrun⟩ := h
  induction hrun with
  | refl => exact ⟨fun e he => absurd he (by simp), fun e he => absurd he (by simp)⟩
  | tail _ hstep ih => exact ih.step hstep

/-! ## There and back -/

/-- The signature comes back as it was if and only if it has no rest parameter. -/
theorem Rebuilt.sameSignature_iff {env : Env} {equiv : SemType → SemType → Prop}
    (hequiv : TypeEquivalence den env equiv) (hnever : den NEVER = ∅)
    (hundef : ∀ {t u : SemType}, union ops t (.bits UNDEF) = some u → den t ⊆ den u)
    {signature' : FunctionSignature} (hsig : Resolved den signature) {tys : List SemType}
    (hrequired : signature.requiredParams = some tys)
    (h : Rebuilt tys signature.returnType (signature.restParamType.getD NEVER) signature') :
    SameSignature equiv signature' signature ↔ signature.restParamType = none := by
  cases hsig with
  | @required tys' ret htys =>
    refine ⟨fun _ => rfl, fun _ => ?_⟩
    cases hrequired
    cases h with
    | required _ => exact ⟨rfl, List.forall₂_same.mpr fun ty _ => hequiv.refl ty, .none⟩
    | rest hne => exact absurd rfl hne
  | @rest tys' ret ty arrTy d env1 env2 htys hty hne harr =>
    refine ⟨fun hsame => ?_, fun hnone => by cases hnone⟩
    obtain ⟨v, hv⟩ := hne
    obtain ⟨u, hu, -⟩ := hty.union_undef
    cases h with
    | required hnone =>
      have hzero : ty = NEVER := hnone
      rw [hzero, hnever] at hv
      exact absurd hv (Set.notMem_empty v)
    | @rest u' arrTy' hne hu' harr' =>
      have hu'' : u' = u := Option.some.inj (hu'.symm.trans hu)
      subst hu''
      have harrTy : IsList [] u' .none .none arrTy := by
        obtain ⟨r, env', hr, hshape⟩ := gives_defineListTypeWrapped [] hu .none env1
        have heq : some ((arrTy, d), env2) = some (r, env') := harr.symm.trans hr
        cases heq
        have hmut : restMutability ty .none = .none := by
          unfold restMutability
          split <;> rfl
        rw [hmut] at hshape
        rcases hshape with hshape | ⟨-, -, -, hlimited⟩
        · exact hshape
        · cases hlimited
      have hlast := hsame.paramTypes
      have hrequired' : tys = tys' := by
        unfold FunctionSignature.requiredParams at hrequired
        dsimp only at hrequired
        rw [if_neg (Option.some_ne_none ty), if_neg (by simp), List.dropLast_concat] at hrequired
        exact (Option.some.inj hrequired).symm
      subst hrequired'
      have harrays : equiv arrTy' arrTy := by
        have hrev := List.rel_reverse hlast
        rw [List.reverse_append, List.reverse_append] at hrev
        exact (List.forall₂_cons.mp hrev).1
      exact absurd harrays (not_equiv_array hequiv ⟨v, hundef hu hv⟩ harrTy harr')

/-- A resolved signature that is made a function type, and read back from the atomic type of this type
in the same context or another one, is the same up to type equivalence if and only if it has no rest
parameter. -/
theorem functionSignature_sameSignature_iff {den : SemType → Set V} {env : Env}
    {equiv : SemType → SemType → Prop} (hequiv : TypeEquivalence den env equiv) (hnever : den NEVER = ∅)
    (hundef : ∀ {t u : SemType}, union ops t (.bits UNDEF) = some u → den t ⊆ den u)
    {signature : FunctionSignature} (hsig : Resolved den signature) {cx cx' : SignatureContext}
    (hcx : cx.Reachable) (hcx' : cx'.Reachable) :
    ∃ t cx1 atomic signature' cx2, functionSemType signature cx = some (t, cx1) ∧
      cx'.env.functionAtomicType t = some (some atomic) ∧
      functionSignature atomic cx' = some (signature', cx2) ∧
      (SameSignature equiv signature' signature ↔ signature.restParamType = none) := by
  obtain ⟨t, cx1, hquery, tys, i, j, lt, hrequired, hkeeps, rfl⟩ :=
    memoise_gives (gives_createFunctionSemType hsig) hcx.memoRight.semType
  obtain ⟨tys', hrequired', -, hrest⟩ := hsig.parts
  obtain ⟨signature', cx2, hback, hrebuilt⟩ :=
    memoise_gives (gives_createFunctionSignature j hkeeps hrest) hcx'.memoRight.signature
  exact ⟨_, cx1, _, signature', cx2, hquery, atomicTypeOf_atomSemType rfl, hback,
    hrebuilt.sameSignature_iff hequiv hnever hundef hsig hrequired⟩

end RoundTrip

/-! ## A signature with a rest parameter -/

def emptyEnv : Env := ⟨[], [], [], [], 0⟩

def newContext : SignatureContext := ⟨emptyEnv, [], []⟩

theorem reachable_newContext [BddIdentity] : newContext.Reachable := ⟨emptyEnv, .refl⟩

/-- `function (string, int...) returns int` -/
def intRest : FunctionSignature :=
  ⟨[.bits STRING, atomSemType BT_LIST (.typeAtom 1 (.list [] 0
    (atomSemType BT_CELL (.typeAtom 0 (.cell (.bits (INT ||| UNDEF)) .none)))))], .bits INT,
    some (.bits INT)⟩

theorem resolved_intRest : let _ := BddIdentity.shared
    Resolved bitsDen intRest := by
  intro _
  have harr : defineListTypeWrapped {} [] 0 (.bits INT) .none emptyEnv = some (_, _) := rfl
  have htys : ∀ ty ∈ [SemTypeOf.bits STRING], Plain (ty : SemType) := by
    intro ty hty
    rw [List.mem_singleton.mp hty]
    exact .bits (by decide)
  have hint : BT_INT ∈ bitsDen (.bits INT) := by
    show INT.getLsbD BT_INT.val = true
    decide
  exact .rest htys (.bits (by decide)) ⟨BT_INT, hint⟩ harr

theorem bitsDen_never : bitsDen NEVER = ∅ := by
  ext c
  simp [bitsDen, NEVER]

theorem bitsDen_union_undef [BddIdentity] {t u : SemType} (h : union ops t (.bits UNDEF) = some u) :
    bitsDen t ⊆ bitsDen u := by
  cases t with
  | complex c => exact Set.empty_subset _
  | bits b =>
    cases h
    intro c hc
    show (b ||| UNDEF).getLsbD c.val = true
    rw [BitVec.getLsbD_or, show b.getLsbD c.val = true from hc]
    rfl

theorem functionSignature_sameSignature_intRest : let _ := BddIdentity.shared
    ∃ t cx1 atomic signature' cx2, functionSemType intRest newContext = some (t, cx1) ∧
      newContext.env.functionAtomicType t = some (some atomic) ∧
      functionSignature atomic newContext = some (signature', cx2) ∧
      (SameSignature Eq signature' intRest ↔ intRest.restParamType = none) := by
  intro _
  have hequiv : TypeEquivalence bitsDen emptyEnv Eq := ⟨fun _ => rfl, fun h l => by rw [h]⟩
  exact functionSignature_sameSignature_iff hequiv bitsDen_never bitsDen_union_undef resolved_intRest
    reachable_newContext reachable_newContext

/-- The signature does not come back, whatever types are equivalent. -/
theorem not_sameSignature_intRest : let _ := BddIdentity.shared
    Resolved bitsDen intRest ∧ ∃ t cx1 atomic signature' cx2,
      functionSemType intRest newContext = some (t, cx1) ∧
      cx1.env.functionAtomicType t = some (some atomic) ∧
      functionSignature atomic cx1 = some (signature', cx2) ∧
      ∀ equiv, TypeEquivalence bitsDen emptyEnv equiv → ¬ SameSignature equiv signature' intRest := by
  intro _
  obtain ⟨t, cx1, hquery, tys, i, j, lt, hrequired, hkeeps, rfl⟩ :=
    memoise_gives (gives_createFunctionSemType resolved_intRest) reachable_newContext.memoRight.semType
  have hmemo := reachable_newContext.memoRight.step (.semType hquery)
  obtain ⟨signature', cx2, hback, hrebuilt⟩ :=
    memoise_gives (gives_createFunctionSignature j hkeeps (.bits (by decide))) hmemo.signature
  refine ⟨resolved_intRest, _, cx1, _, signature', cx2, hquery, atomicTypeOf_atomSemType rfl, hback, ?_⟩
  intro equiv hequiv hsame
  have hnone := (hrebuilt.sameSignature_iff hequiv bitsDen_never bitsDen_union_undef resolved_intRest
    hrequired).mp hsame
  cases hnone

end Nballerina.Front
