import Nballerina.Types.SingleAtom
import Nballerina.Types.BitSetOps

/-!
# What the definitions make

A list type that `defineListTypeWrapped` makes is one atom, whatever the `Env` has interned before;
only the index of the atom depends on the `Env`. `Gives` says what a function that makes something in
an `Env` returns in all of them. The one exception is the type of all lists, which has no atom.

`fixedLengthNormalize` leaves out the last members of a tuple if they repeat one; read at an index,
the members are the same (`listMemberAt_normalize`).
-/

namespace Nballerina.Types

variable {α β : Type}

/-! ## In every environment -/

/-- The function does not panic in any `Env`, and what it makes has the property. -/
def Gives (f : EnvM α) (P : α → Prop) : Prop := ∀ env, ∃ a env', f env = some (a, env') ∧ P a

theorem gives_pure {P : α → Prop} {a : α} (h : P a) : Gives (pure a) P :=
  fun env => ⟨a, env, rfl, h⟩

theorem gives_lift {P : α → Prop} {o : Option α} {a : α} (ho : o = some a) (h : P a) :
    Gives (StateT.lift o) P := by
  subst ho
  exact fun env => ⟨a, env, rfl, h⟩

theorem Gives.imp {f : EnvM α} {P Q : α → Prop} (h : Gives f P) (hpq : ∀ a, P a → Q a) : Gives f Q := by
  intro env
  obtain ⟨a, env', hf, ha⟩ := h env
  exact ⟨a, env', hf, hpq a ha⟩

theorem Gives.bind {f : EnvM α} {g : α → EnvM β} {P : α → Prop} {Q : β → Prop} (hf : Gives f P)
    (hg : ∀ a, P a → Gives (g a) Q) : Gives (f >>= g) Q := by
  intro env
  obtain ⟨a, env1, hfa, ha⟩ := hf env
  obtain ⟨b, env2, hgb, hb⟩ := hg a ha env1
  refine ⟨b, env2, ?_, hb⟩
  show (f env).bind _ = _
  rw [hfa]
  exact hgb

theorem gives_mapM {f : α → EnvM β} {P : α → β → Prop} : ∀ {l : List α}, (∀ a ∈ l, Gives (f a) (P a)) →
    Gives (l.mapM f) (List.Forall₂ P l)
  | [], _ => by
    rw [List.mapM_nil]
    exact gives_pure .nil
  | a :: l, h => by
    rw [List.mapM_cons]
    refine (h a (.head _)).bind fun b hb => ?_
    refine (gives_mapM fun a ha => h a (.tail _ ha)).bind fun bs hbs => ?_
    exact gives_pure (.cons hb hbs)

/-! ## Cells -/

theorem typeAtom_atomicType (env : Env) (t : AtomicType) : (env.typeAtom t).1.atomicType = t := by
  unfold Env.typeAtom
  cases hfind : env.atomTable.find? fun ta => ta.atomicType = t with
  | some ta =>
    have hself := List.find?_some hfind
    exact of_decide_eq_true hself
  | none => rfl

theorem typeAtom_toAtom (env : Env) (t : AtomicType) :
    (env.typeAtom t).1.toAtom = .typeAtom (env.typeAtom t).1.index t :=
  congrArg (Atom.typeAtom _) (typeAtom_atomicType env t)

/-- The type of the one cell atom. -/
def IsCell (ty : SemType) (mutability : CellMutability) (c : SemType) : Prop :=
  ∃ i, c = atomSemType BT_CELL (.typeAtom i (.cell ty mutability))

theorem IsCell.cellAtomicType {ty c : SemType} {mutability : CellMutability} (h : IsCell ty mutability c) :
    cellAtomicType c = some ⟨ty, mutability⟩ := by
  obtain ⟨i, rfl⟩ := h
  exact CellTable.cellAtomicType_single i ⟨ty, mutability⟩

theorem cellAtomicType_inner : cellAtomicType CELL_SEMTYPE_INNER = some ⟨.bits INNER, .limited⟩ :=
  CellTable.cellAtomicType_single 2 ⟨.bits INNER, .limited⟩

theorem gives_makeCell (ty : SemType) (mutability : CellMutability) :
    Gives (makeCell ty mutability) (IsCell ty mutability) := fun env =>
  ⟨_, _, rfl, _, congrArg (atomSemType BT_CELL) (typeAtom_toAtom env (.cell ty mutability))⟩

section Source

variable [BddIdentity]

theorem IsCell.innerVal {ty t c : SemType} {mutability : CellMutability} (h : IsCell ty mutability c)
    (hdiff : diff ops ty (.bits UNDEF) = some t) : cellInnerVal c = some t := by
  unfold cellInnerVal cellInner
  rw [h.cellAtomicType]
  exact hdiff

/-- The mutability of the cell of `rest`. -/
def restMutability (rest : SemType) (mutability : CellMutability) : CellMutability :=
  if rest = NEVER then .none else mutability

theorem gives_restCell {rest u : SemType} (hu : union ops rest (.bits UNDEF) = some u)
    (mutability : CellMutability) :
    Gives (restCell rest mutability) (IsCell u (restMutability rest mutability)) :=
  (gives_lift (P := (· = u)) hu rfl).bind fun ty hty => by
    subst hty
    exact gives_makeCell _ _

/-! ## Lists -/

/-- A type of one atom: the lists of the members, followed by any number of `rest`. -/
def IsList (tys : List SemType) (u : SemType) (mutability restMut : CellMutability) (t : SemType) : Prop :=
  ∃ i cells c, t = atomSemType BT_LIST (.typeAtom i
      (ListAtomicType.toAtomicType ⟨fixedLengthNormalize ⟨cells, tys.length⟩, c⟩)) ∧
    List.Forall₂ (fun ty cell => IsCell ty mutability cell) tys cells ∧ IsCell u restMut c

omit [BddIdentity] in
theorem listDefine_new (env : Env) (cells : List SemType) (fixedLength : Int) (rest : SemType) :
    ((ListDefinition.define {} env cells fixedLength rest).1 = .bits LIST ∧ fixedLength = 0 ∧
      rest = CELL_SEMTYPE_INNER) ∨
    ∃ i, (ListDefinition.define {} env cells fixedLength rest).1 = atomSemType BT_LIST (.typeAtom i
      (ListAtomicType.toAtomicType ⟨fixedLengthNormalize ⟨cells, fixedLength⟩, rest⟩)) := by
  unfold ListDefinition.define
  dsimp only
  by_cases hall : fixedLength = 0 ∧ rest = CELL_SEMTYPE_INNER
  · rw [if_pos hall]
    exact .inl ⟨rfl, hall⟩
  · rw [if_neg hall]
    exact .inr ⟨_, congrArg (atomSemType BT_LIST) (typeAtom_toAtom env _)⟩

theorem gives_defineListTypeWrapped (tys : List SemType) {rest u : SemType}
    (hu : union ops rest (.bits UNDEF) = some u) (mutability : CellMutability) :
    Gives (defineListTypeWrapped {} tys tys.length rest mutability) fun r =>
      IsList tys u mutability (restMutability rest mutability) r.1 ∨ (r.1 = .bits LIST ∧ tys = [] ∧
        u = .bits INNER ∧ restMutability rest mutability = .limited) := by
  have hcells : Gives (listCells tys rest mutability) fun r =>
      List.Forall₂ (fun ty cell => IsCell ty mutability cell) tys r.1 ∧
        IsCell u (restMutability rest mutability) r.2 := by
    refine (gives_mapM fun ty _ => gives_makeCell ty mutability).bind fun cells hcells => ?_
    exact (gives_restCell hu mutability).bind fun c hc => gives_pure ⟨hcells, hc⟩
  refine hcells.bind fun ⟨cells, c⟩ ⟨hcells, hc⟩ env => ⟨_, _, rfl, ?_⟩
  rcases listDefine_new env cells tys.length c with ⟨heq, hzero, hinner⟩ | ⟨i, heq⟩
  · refine .inr ⟨heq, List.length_eq_zero_iff.mp (Int.natCast_eq_zero.mp hzero), ?_⟩
    have hcell := hc.cellAtomicType
    rw [hinner, cellAtomicType_inner] at hcell
    injection hcell with hcell
    injection hcell with hty hmut
    exact ⟨hty.symm, hmut.symm⟩
  · exact .inl ⟨i, cells, c, heq, hcells, hc⟩

end Source

/-! ## Members at an index -/

theorem lastDistinct_spec (l : List SemType) (last : SemType) : ∀ n, lastDistinct l last n ≤ n ∧
    ∀ k, lastDistinct l last n ≤ k → k < n → l[k]? = some last
  | 0 => ⟨Nat.le_refl 0, fun k _ hk => absurd hk (Nat.not_lt_zero k)⟩
  | n + 1 => by
    unfold lastDistinct
    by_cases h : l[n]? = some last
    · rw [if_pos h]
      obtain ⟨hle, hlast⟩ := lastDistinct_spec l last n
      refine ⟨by omega, fun k hk hlt => ?_⟩
      rcases Nat.lt_succ_iff_lt_or_eq.mp hlt with hlt | rfl
      · exact hlast k hk hlt
      · exact h
    · rw [if_neg h]
      exact ⟨Nat.le_refl _, fun k hk hlt => by omega⟩

/-- The members of a tuple at its indices, with those that repeat the last one. -/
theorem listMemberAt_normalize {cells : List SemType} (rest : SemType) {i : Nat} (hi : i < cells.length) :
    listMemberAt (fixedLengthNormalize ⟨cells, cells.length⟩) rest i = cells[i]? := by
  have hne : cells ≠ [] := List.ne_nil_of_length_pos (by omega)
  have hlen : ((cells.length : Nat) : Int) ≠ 0 := by omega
  obtain ⟨last, hlast⟩ : ∃ last, cells.getLast? = some last := ⟨_, List.getLast?_eq_some_getLast hne⟩
  have hend : cells[cells.length - 1]? = some last := by
    rw [← List.getLast?_eq_getElem?]
    exact hlast
  -- a list with this prefix and length, whose members from `j` on are the last one
  have hread : ∀ {j : Nat}, j < cells.length → (∀ k, j ≤ k → k < cells.length → cells[k]? = some last) →
      listMemberAt ⟨cells.take (j + 1), cells.length⟩ rest i = cells[i]? := by
    intro j hj hsame
    unfold listMemberAt fixedArrayGet
    dsimp only
    have htake : (cells.take (j + 1)).length = j + 1 := List.length_take_of_le (by omega)
    rw [if_pos (by omega), htake, if_pos (by omega)]
    by_cases hij : i ≤ j
    · have hmin : (min (i : Int) (((j + 1 : Nat) : Int) - 1)).toNat = i := by omega
      rw [hmin, List.getElem?_take_of_lt (by omega)]
    · have hmin : (min (i : Int) (((j + 1 : Nat) : Int) - 1)).toNat = j := by omega
      rw [hmin, List.getElem?_take_of_lt (by omega), hsame j (Nat.le_refl j) hj, hsame i (by omega) hi]
  have hwhole : cells.take (cells.length - 1 + 1) = cells := List.take_of_length_le (by omega)
  unfold fixedLengthNormalize
  dsimp only
  rw [if_neg hlen, hlast]
  dsimp only
  by_cases hone : cells.length - 1 = 0
  · rw [if_pos hone]
    have h := hread (j := cells.length - 1) (by omega) fun k hk hlt => by
      rw [show k = cells.length - 1 by omega]
      exact hend
    rw [hwhole] at h
    exact h
  · rw [if_neg hone]
    obtain ⟨hle, hsame⟩ := lastDistinct_spec cells last (cells.length - 1)
    refine hread (by omega) fun k hk hlt => ?_
    by_cases hk' : k < cells.length - 1
    · exact hsame k hk hk'
    · rw [show k = cells.length - 1 by omega]
      exact hend

theorem fixedLength_normalize (array : FixedLengthArray) :
    (fixedLengthNormalize array).fixedLength = array.fixedLength := by
  unfold fixedLengthNormalize
  by_cases hzero : array.fixedLength = 0
  · rw [if_pos hzero]
    exact hzero.symm
  · rw [if_neg hzero]
    cases array.initial.getLast? with
    | none => rfl
    | some last =>
      dsimp only
      split <;> rfl


section Source

variable [BddIdentity]

/-- The members of the lists of the type: `tys`, followed by any number of `rest`. -/
structure ListAtomicType.Keeps (lt : ListAtomicType) (tys : List SemType) (rest : SemType) : Prop where
  fixedLength : lt.members.fixedLength = tys.length
  members : ∀ i < tys.length, listMemberAtInnerVal lt.members lt.rest (i : Nat) = tys[i]?
  rest : cellInnerVal lt.rest = some rest

/-- A list type keeps the types that it is made of. -/
theorem IsList.keeps {tys : List SemType} {u rest t : SemType} {mutability restMut : CellMutability}
    (h : IsList tys u mutability restMut t) (htys : ∀ ty ∈ tys, Plain ty)
    (hrest : diff ops u (.bits UNDEF) = some rest) : ∃ (i : Int) (lt : ListAtomicType),
      t = atomSemType BT_LIST (.typeAtom i lt.toAtomicType) ∧ lt.Keeps tys rest := by
  obtain ⟨i, cells, c, rfl, hcells, hc⟩ := h
  have hlen := hcells.length_eq
  refine ⟨i, _, rfl, fixedLength_normalize _, fun k hk => ?_, hc.innerVal hrest⟩
  have hk' : k < cells.length := by omega
  have hcell := (List.forall₂_iff_get.mp hcells).2 k hk hk'
  unfold listMemberAtInnerVal
  rw [hlen, listMemberAt_normalize c hk', List.getElem?_eq_getElem hk', List.getElem?_eq_getElem hk]
  exact hcell.innerVal (htys _ (List.getElem_mem hk)).diff_undef

end Source

end Nballerina.Types
