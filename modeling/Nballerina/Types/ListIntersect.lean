import Nballerina.Types.CellSem
import Nballerina.Types.Closure
import Nballerina.Types.EmptinessSound
import Nballerina.Types.ListSamples

/-!
# The intersection of two list types (`listIntersectWith`)

The members of the result at each index, against the intersection of the operands' members at
that index as the code itself computes it (`intersectMemberSemTypes`, in the `Env` the run ends
in, where the cell it makes has been interned already).

The result has as many initial members as the operand that has more, and repeats the last one up
to the longer fixed length. That is right at every index but those where the shorter operand is
past its fixed length already, when its fixed length is not itself within these initial members
(`Covered`): there the result goes on with the last fixed member, not with the rest type.

A length is possible for the result when it is possible for both operands and, past the longer
fixed length, the rest types have something in common.

Mirroring notes:
- The two results of the source, members and rest, are a `ListAtomicType`.
-/

namespace Nballerina.Types

open Nballerina.Lib

/-! ## Types without values -/

/-- The type contains nothing but perhaps `UNDEF`. -/
def Undefined (t : SemType) : Prop := (t.allBits ||| t.someBits) &&& ~~~UNDEF = 0

theorem within_undef_iff (b : BasicTypeBitSet) :
    b &&& ~~~UNDEF = 0 ↔ ∀ i, b.getLsbD i = true → UNDEF.getLsbD i = true := by
  constructor
  · intro h i hi
    have hlt : i < 32 := BitVec.lt_of_getLsbD hi
    have hbit := congrArg (fun b => b.getLsbD i) h
    simpa [hi, hlt] using hbit
  · intro h
    refine BitVec.eq_of_getLsbD_eq fun i hlt => ?_
    by_cases hi : b.getLsbD i = true
    · simp [hi, h i hi]
    · simp [Bool.eq_false_iff.mpr hi]

theorem undefined_iff {t : SemType} : Undefined t ↔
    ∀ i, t.allBits.getLsbD i = true ∨ t.someBits.getLsbD i = true → UNDEF.getLsbD i = true := by
  unfold Undefined
  rw [within_undef_iff]
  refine forall_congr' fun i => ?_
  rw [BitVec.getLsbD_or, Bool.or_eq_true]

theorem undefined_bits (b : BasicTypeBitSet) : Undefined (.bits b) ↔ b &&& ~~~UNDEF = 0 := by
  show (b ||| 0#32) &&& ~~~UNDEF = 0 ↔ b &&& ~~~UNDEF = 0
  rw [BitVec.or_zero]

section Operations

variable [BddIdentity]

/-- The entries of an intersection have codes of the pairs. -/
theorem codes_intersectLoop : ∀ (pairs : List (BasicTypeCode × Option ProperSubtypeData ×
      Option ProperSubtypeData)) {acc result : List (BasicTypeCode × ProperSubtypeData)},
    intersectLoop ops pairs acc = some result →
      ∀ e ∈ result, e ∈ acc ∨ ∃ p ∈ pairs, p.1 = e.1
  | [], acc, result, h, e, he => by
    cases h
    exact .inl he
  | (c, d1, d2) :: pairs, acc, result, h, e, he => by
    simp only [intersectLoop] at h
    cases hr : intersectData ops c d1 d2 with
    | none =>
      rw [hr] at h
      cases h
    | some r =>
      rw [hr] at h
      cases r with
      | proper d =>
        rcases codes_intersectLoop pairs h e he with hacc | ⟨p, hp, heq⟩
        · rcases List.mem_append.mp hacc with hacc | hacc
          · exact .inl hacc
          · rw [List.mem_singleton.mp hacc]
            exact .inr ⟨_, .head _ .., rfl⟩
        · exact .inr ⟨p, .tail _ hp, heq⟩
      | bool b =>
        cases b with
        | true => cases h
        | false =>
          rcases codes_intersectLoop pairs h e he with hacc | ⟨p, hp, heq⟩
          · exact .inl hacc
          · exact .inr ⟨p, .tail _ hp, heq⟩

omit [BddIdentity] in
theorem undefined_finishSemType {all : BasicTypeBitSet}
    {L : List (BasicTypeCode × ProperSubtypeData)} (hall : all &&& ~~~UNDEF = 0)
    (hL : ∀ e ∈ L, UNDEF.getLsbD e.1.val = true) : Undefined (finishSemType (all, L)) := by
  have hbits := undefined_iff.mp ((undefined_bits all).mpr hall)
  unfold finishSemType
  split
  next => exact (undefined_bits all).mpr hall
  next =>
    refine undefined_iff.mpr fun i hi => ?_
    rcases hi with hi | hi
    · exact hbits i (.inl hi)
    · simp only [SemTypeOf.someBits, createComplexSemType, getLsbD_foldl_basicType] at hi
      rcases hi with hi | ⟨e, he, rfl⟩
      · simp at hi
      · exact hL e he

theorem undefined_intersectMerge {t1 t2 t : SemType} (h1 : t1.WF) (h2 : t2.WF)
    (hu : Undefined t1 ∨ Undefined t2)
    (h : intersectMerge ops t1 t2 t1.allBits t1.someBits t2.allBits t2.someBits = some t) :
    Undefined t := by
  have hbit : ∀ i, (t1.someBits.getLsbD i = true ∨ t1.allBits.getLsbD i = true) →
      (t2.someBits.getLsbD i = true ∨ t2.allBits.getLsbD i = true) →
      UNDEF.getLsbD i = true := by
    intro i hi1 hi2
    rcases hu with hu | hu
    · exact undefined_iff.mp hu i hi1.symm
    · exact undefined_iff.mp hu i hi2.symm
  have hall : (t1.allBits &&& t2.allBits) &&& ~~~UNDEF = 0 := by
    refine (within_undef_iff _).mpr fun i hi => ?_
    rw [BitVec.getLsbD_and, Bool.and_eq_true] at hi
    exact hbit i (.inr hi.1) (.inr hi.2)
  unfold intersectMerge at h
  dsimp only at h
  split at h
  next =>
    cases h
    exact (undefined_bits _).mpr hall
  next =>
    have hrep1 := rep_of_wf h1
    have hrep2 := rep_of_wf h2
    simp only [subtypePairIterator, hrep1.unpack, hrep2.unpack, Option.bind_eq_bind,
      Option.bind_some, Option.pure_def, Option.bind_eq_some_iff] at h
    obtain ⟨L, hloop, heq⟩ := h
    cases heq
    refine undefined_finishSemType hall fun e he => ?_
    rcases codes_intersectLoop _ hloop e he with hacc | ⟨p, hp, heq⟩
    · cases hacc
    · have hin := (((subtypePairs_spec _ _ _ hrep1.sorted hrep2.sorted).2 p).mp hp).1
      rw [heq] at hin
      simp only [BitVec.getLsbD_and, BitVec.getLsbD_or, Bool.and_eq_true, Bool.or_eq_true] at hin
      exact hbit _ hin.1.1 hin.1.2

/-- An intersection with a type without values has none. -/
theorem undefined_intersect {t1 t2 t : SemType} (h1 : t1.WF) (h2 : t2.WF)
    (hu : Undefined t1 ∨ Undefined t2) (h : intersect ops t1 t2 = some t) : Undefined t := by
  have hmerge := @undefined_intersectMerge _ t1 t2 t h1 h2 hu
  have hmask : ¬ Undefined (.bits VT_MASK) := by
    rw [undefined_bits]
    decide
  match t1, t2 with
  | .bits b1, .bits b2 =>
    cases h
    refine (undefined_bits _).mpr ((within_undef_iff _).mpr fun i hi => ?_)
    rw [BitVec.getLsbD_and, Bool.and_eq_true] at hi
    rcases hu with hu | hu
    · exact undefined_iff.mp hu i (.inl hi.1)
    · exact undefined_iff.mp hu i (.inl hi.2)
  | .bits b1, .complex c2 =>
    simp only [intersect] at h
    split at h
    next hzero =>
      cases h
      rw [hzero, undefined_bits]
      decide
    next =>
      split at h
      next hmask' =>
        cases h
        rcases hu with hu | hu
        · exact absurd (hmask' ▸ hu) hmask
        · exact hu
      next => exact hmerge h
  | .complex c1, .bits b2 =>
    simp only [intersect] at h
    split at h
    next hzero =>
      cases h
      rw [hzero, undefined_bits]
      decide
    next =>
      split at h
      next hmask' =>
        cases h
        rcases hu with hu | hu
        · exact hu
        · exact absurd (hmask' ▸ hu) hmask
      next => exact hmerge h
  | .complex c1, .complex c2 => exact hmerge h

/-- Without `UNDEF` nothing is left of it. -/
theorem Undefined.diff {t : SemType} (h : Undefined t) :
    diff ops t (.bits UNDEF) = some NEVER := by
  cases t with
  | bits b =>
    rw [undefined_bits] at h
    simp only [Types.diff, h]
    rfl
  | complex c =>
    have hor : UNDEF ||| (0 : BasicTypeBitSet) = UNDEF := BitVec.or_zero
    have hall : c.all &&& ~~~UNDEF = 0 :=
      (within_undef_iff _).mpr fun i hi => undefined_iff.mp h i (.inl hi)
    have hsome : ((c.all ||| c.some) &&& ~~~UNDEF) = 0 := h
    simp only [Types.diff]
    split
    next => rfl
    next =>
      unfold diffMerge
      simp only [hor, hall, hsome]
      rfl

/-- A difference keeps the data that the second type has nothing against. -/
theorem diffLoop_left {all : BasicTypeBitSet} :
    ∀ (pairs : List (BasicTypeCode × Option ProperSubtypeData × Option ProperSubtypeData))
      (acc : List (BasicTypeCode × ProperSubtypeData)),
      (∀ p ∈ pairs, ∃ d, p.2 = (some d, none)) →
        ∃ L, L.length = pairs.length ∧ diffLoop ops pairs (all, acc) = some (all, acc ++ L)
  | [], acc, _ => ⟨[], rfl, by simp [diffLoop]⟩
  | (c, d1, d2) :: pairs, acc, h => by
    obtain ⟨d, hd⟩ := h _ (.head _ ..)
    cases hd
    obtain ⟨L, hlen, heq⟩ := diffLoop_left pairs (acc ++ [(c, d)])
      fun p hp => h p (.tail _ hp)
    refine ⟨(c, d) :: L, by simp [hlen], ?_⟩
    show diffLoop ops pairs (all, acc ++ [(c, d)]) = _
    rw [heq, List.append_assoc]
    rfl

/-- Taking out `UNDEF`: what is left of `all`, and the entries of the other codes. -/
theorem diff_undef {c : ComplexSemType ProperSubtypeData} (hwf : c.WF) :
    ∃ L, diff ops (.complex c) (.bits UNDEF) = some (finishSemType (c.all &&& ~~~UNDEF, L)) ∧
      (L = [] → c.some &&& ~~~UNDEF = 0) := by
  have hne : ¬ UNDEF = VT_MASK := by decide
  have hor : UNDEF ||| (0 : BasicTypeBitSet) = UNDEF := BitVec.or_zero
  have hrep := rep_of_wf (show SemTypeOf.WF (.complex c) from hwf)
  let bits := ((c.all ||| c.some) &&& ~~~UNDEF) &&& ~~~(c.all &&& ~~~UNDEF)
  -- a bit of `some` other than `UNDEF` is a code that is merged
  have hbits : ∀ i, c.some.getLsbD i = true → UNDEF.getLsbD i = false →
      i < 19 ∧ bits.getLsbD i = true := by
    intro i hi hundef
    have hlt := hwf.codes i hi
    have hall : c.all.getLsbD i = false := by
      have hdis : (c.all &&& c.some).getLsbD i = (0 : BasicTypeBitSet).getLsbD i := by
        rw [hwf.disjoint]
      simpa [hi] using hdis
    refine ⟨hlt, ?_⟩
    simp only [bits]
    rw [BitVec.getLsbD_and, BitVec.getLsbD_and, getLsbD_not_code _ ⟨i, hlt⟩,
      getLsbD_not_code _ ⟨i, hlt⟩, BitVec.getLsbD_or, BitVec.getLsbD_and, hi, hundef, hall]
    rfl
  simp only [Types.diff, if_neg hne, diffMerge, hor]
  by_cases hzero : bits = 0
  · refine ⟨[], if_pos hzero, fun _ => (within_undef_iff _).mpr fun i hi => ?_⟩
    by_contra hnot
    have hin := (hbits i hi (Bool.eq_false_iff.mpr hnot)).2
    rw [hzero] at hin
    simp at hin
  · have hunpack : unpackComplexSemType c = some (SemTypeOf.entries (.complex c)) := hrep.unpack
    have hmem := (subtypePairs_spec bits (SemTypeOf.entries (.complex c)) [] hrep.sorted
      List.Pairwise.nil).2
    obtain ⟨L, hlen, heq⟩ := @diffLoop_left _ (c.all &&& ~~~UNDEF)
      (subtypePairs bits (SemTypeOf.entries (.complex c)) []) [] (fun p hp => by
        obtain ⟨-, h1, h2, hsome⟩ := (hmem p).mp hp
        simp only [lookupCode_nil, ne_eq, not_true_eq_false, or_false] at h2 hsome
        obtain ⟨d, hd⟩ := Option.ne_none_iff_exists'.mp hsome
        exact ⟨d, by rw [← hd, ← h1, ← h2]⟩)
    refine ⟨L, ?_, fun hnil => (within_undef_iff _).mpr fun i hi => ?_⟩
    · rw [if_neg hzero]
      simp only [subtypePairIterator, subtypePairIterator.unpack, hunpack, Option.bind_eq_bind,
        Option.bind_some, Option.pure_def]
      show (diffLoop ops (subtypePairs bits (SemTypeOf.entries (.complex c)) [])
        (c.all &&& ~~~UNDEF, [])).bind _ = _
      rw [heq]
      rfl
    · by_contra hnot
      obtain ⟨hlt, hin⟩ := hbits i hi (Bool.eq_false_iff.mpr hnot)
      rw [hnil, List.length_nil, eq_comm, List.length_eq_zero_iff] at hlen
      have hlook : lookupCode (SemTypeOf.entries (.complex c)) ⟨i, hlt⟩ ≠ none := by
        rw [ne_eq, lookupCode_entries_eq_none (show SemTypeOf.WF (.complex c) from hwf)]
        show ¬ c.some.getLsbD i = false
        simp [hi]
      have hpair := (hmem (⟨i, hlt⟩, lookupCode (SemTypeOf.entries (.complex c)) ⟨i, hlt⟩,
        none)).mpr ⟨hin, rfl, rfl, .inl hlook⟩
      rw [hlen] at hpair
      cases hpair

/-- If nothing is left without `UNDEF`, there was no value. -/
theorem diff_undef_spec {t : SemType} (hwf : t.WF) :
    ∃ r, diff ops t (.bits UNDEF) = some r ∧ (r = NEVER → Undefined t) := by
  cases t with
  | bits b =>
    refine ⟨_, rfl, fun h => ?_⟩
    rw [undefined_bits]
    simpa [NEVER] using h
  | complex c =>
    obtain ⟨L, heq, hsome⟩ := diff_undef hwf
    refine ⟨_, heq, fun h => undefined_iff.mpr fun i hi => ?_⟩
    unfold finishSemType at h
    split at h
    next hempty =>
      simp only [NEVER, SemTypeOf.bits.injEq] at h
      rcases hi with hi | hi
      · exact (within_undef_iff _).mp h i hi
      · exact (within_undef_iff _).mp (hsome (List.isEmpty_iff.mp hempty)) i hi
    next => cases h

end Operations

/-! ## Programs that only intern -/

/-- The run of a program that interns cells and asks nothing. -/
def runInEnv {α : Type} (x : EmptyM α) (env : Env) : Outcome Env α :=
  x.exec (fun c env => env.cellAtom c) (fun _ _ => .panic) (fun _ _ => .panic) env

theorem runInEnv_bind {α β : Type} {x : EmptyM α} {f : α → EmptyM β} {env env'' : Env} {b : β}
    (h : runInEnv (x >>= f) env = .done b env'') :
    ∃ a env', runInEnv x env = .done a env' ∧ runInEnv (f a) env' = .done b env'' := by
  refine Outcome.andThen_eq_done (f := fun a s => runInEnv (f a) s) ?_
  rw [← h]
  exact (Prog.exec_bind f x env).symm

theorem runInEnv_pure {α : Type} {a b : α} {env env' : Env}
    (h : runInEnv (pure a) env = .done b env') : b = a ∧ env' = env := by
  cases h
  exact ⟨rfl, rfl⟩

theorem runInEnv_cast {α : Type} {x : Option α} {a : α} {env env' : Env}
    (h : runInEnv (cast x) env = .done a env') : x = some a ∧ env' = env := by
  cases x with
  | none => cases h
  | some y =>
    cases h
    exact ⟨rfl, rfl⟩

/-- The cell has been interned as `a`. -/
def Env.NamesCell (env : Env) (c : CellAtomicType) (a : TypeAtom) : Prop :=
  env.atomTable.find? (fun ta => ta.atomicType = c.toAtomicType) = some a

/-- Cells keep their names. -/
def Env.KeepsNames (env env' : Env) : Prop := ∀ c a, env.NamesCell c a → env'.NamesCell c a

theorem Env.keepsNames_cellAtom (env : Env) (c : CellAtomicType) :
    env.KeepsNames (env.cellAtom c).2 :=
  fun _ _ h => Env.find?_typeAtom h

theorem Env.NamesCell.cellAtom {env : Env} {c : CellAtomicType} {a : TypeAtom}
    (h : env.NamesCell c a) : env.cellAtom c = (a, env) := by
  unfold Env.NamesCell at h
  unfold Env.cellAtom Env.typeAtom
  rw [h]

theorem Env.NamesCell.cellAtomicType {env : Env} {c : CellAtomicType} {a : TypeAtom}
    (h : env.NamesCell c a) : Types.cellAtomicType (atomSemType BT_CELL a.toAtom) = some c := by
  unfold Env.NamesCell at h
  have htype : a.atomicType = c.toAtomicType := by simpa using List.find?_some h
  rw [TypeAtom.toAtom, htype]
  exact CellTable.cellAtomicType_single _ c

section Run

variable [BddIdentity]

/-- The cell that `intersectMemberSemTypes` interns. -/
def memberCell (t1 t2 : SemType) : Option CellAtomicType := do
  let c1 ← cellAtomicType t1
  let c2 ← cellAtomicType t2
  let c ← intersectCellAtomicType c1 c2
  return ⟨c.ty, if c.ty = .bits UNDEF then .none else c.mutability⟩

theorem intersectMemberSemTypes_eq (t1 t2 : SemType) :
    intersectMemberSemTypes t1 t2 = (do
      let c ← cast (memberCell t1 t2)
      cellContainingM c.ty c.mutability) := by
  unfold intersectMemberSemTypes memberCell
  cases cellAtomicType t1 with
  | none => rfl
  | some c1 =>
    cases cellAtomicType t2 with
    | none => rfl
    | some c2 =>
      show _ = _
      cases h : intersectCellAtomicType c1 c2 with
      | none => simp [cast, Prog.ofOption, h, Prog.bind]
      | some c => simp [cast, Prog.ofOption, h]

/-- `t` is the type of the one atom that stands for the intersection of `t1` and `t2`. -/
def IsMeet (env : Env) (t1 t2 t : SemType) : Prop :=
  ∃ c a, memberCell t1 t2 = some c ∧ env.NamesCell c a ∧ t = atomSemType BT_CELL a.toAtom

variable {t t1 t2 : SemType}

theorem IsMeet.mono {env env' : Env} (h : env.KeepsNames env') (hm : IsMeet env t1 t2 t) :
    IsMeet env' t1 t2 t := by
  obtain ⟨c, a, hc, ha, ht⟩ := hm
  exact ⟨c, a, hc, h c a ha, ht⟩

/-- What interning the intersection returns, and what it does to the `Env`. -/
theorem runInEnv_intersectMemberSemTypes {env env' : Env}
    (h : runInEnv (intersectMemberSemTypes t1 t2) env = .done t env') :
    IsMeet env' t1 t2 t ∧ env.KeepsNames env' := by
  rw [intersectMemberSemTypes_eq] at h
  obtain ⟨c, env1, hc, hrun⟩ := runInEnv_bind h
  obtain ⟨hcell, henv⟩ := runInEnv_cast hc
  rw [henv] at hrun
  cases hrun
  exact ⟨⟨c, _, hcell, env.find?_typeAtom_self _, rfl⟩, env.keepsNames_cellAtom c⟩

/-- The code's own intersection finds the atom again. -/
theorem IsMeet.run {env : Env} (h : IsMeet env t1 t2 t) :
    runInEnv (intersectMemberSemTypes t1 t2) env = .done t env := by
  obtain ⟨c, a, hc, ha, ht⟩ := h
  rw [intersectMemberSemTypes_eq, hc, ht]
  show Outcome.done (atomSemType BT_CELL (env.cellAtom c).1.toAtom) (env.cellAtom c).2 = _
  rw [ha.cellAtom]

/-- The initial members of the result. -/
theorem runInEnv_intersectMembers {m1 m2 : FixedLengthArray} {rest1 rest2 : SemType} :
    ∀ {is : List Nat} {ts : List SemType} {env env' : Env},
      runInEnv (intersectMembers m1 rest1 m2 rest2 is) env = .done ts env' →
        env.KeepsNames env' ∧ List.Forall₂ (fun (i : Nat) t => ∃ t1 t2,
          listMemberAt m1 rest1 i = some t1 ∧
          listMemberAt m2 rest2 i = some t2 ∧ IsMeet env' t1 t2 t) is ts
  | [], ts, env, env', h => by
    obtain ⟨rfl, rfl⟩ := runInEnv_pure h
    exact ⟨fun _ _ h => h, List.Forall₂.nil⟩
  | i :: is, ts, env, env', h => by
    obtain ⟨t1, env1, h1, hrun1⟩ := runInEnv_bind h
    obtain ⟨ht1, rfl⟩ := runInEnv_cast h1
    obtain ⟨t2, env2, h2, hrun2⟩ := runInEnv_bind hrun1
    obtain ⟨ht2, rfl⟩ := runInEnv_cast h2
    obtain ⟨t, env3, h3, hrun3⟩ := runInEnv_bind hrun2
    obtain ⟨hmeet, hkeep⟩ := runInEnv_intersectMemberSemTypes h3
    obtain ⟨ts', env4, h4, hrun4⟩ := runInEnv_bind hrun3
    obtain ⟨rfl, rfl⟩ := runInEnv_pure hrun4
    obtain ⟨hkeep', hrest⟩ := runInEnv_intersectMembers h4
    exact ⟨fun c a hca => hkeep' c a (hkeep c a hca),
      List.Forall₂.cons ⟨t1, t2, ht1, ht2, hmeet.mono hkeep'⟩ hrest⟩

end Run

/-! ## Members and lengths -/

/-- Past the last initial member, up to the fixed length or from it on, nothing changes. -/
theorem listMemberAt_eq_of_le {m : FixedLengthArray} (rest : SemType) {j i : Nat}
    (hj : m.initial.length ≤ j + 1) (hji : j ≤ i) (hfixed : (j : Int) < m.fixedLength ↔
      (i : Int) < m.fixedLength) :
    listMemberAt m rest j = listMemberAt m rest i := by
  have hmin : min (j : Int) ((m.initial.length : Int) - 1) =
      min (i : Int) ((m.initial.length : Int) - 1) := by omega
  unfold listMemberAt fixedArrayGet
  dsimp only
  rw [hmin]
  by_cases hlt : (j : Int) < m.fixedLength
  · rw [if_pos hlt, if_pos (hfixed.mp hlt)]
  · rw [if_neg hlt, if_neg fun h => hlt (hfixed.mpr h)]

/-- The members of the result at `i` do not lie between the two fixed lengths, or the initial
members reach past the shorter one. -/
def Covered (m1 m2 : FixedLengthArray) (i : Nat) : Prop :=
  (i : Int) < min m1.fixedLength m2.fixedLength ∨ max m1.fixedLength m2.fixedLength ≤ i ∨
    min m1.fixedLength m2.fixedLength < max m1.initial.length m2.initial.length

/-- The rest type has a value. -/
def RestPossible [BddIdentity] (rest : SemType) : Prop :=
  ∃ ty, cellInnerVal rest = some ty ∧ ty ≠ NEVER

/-- The list type has lists of length `n`, as far as lengths go. -/
def ListAtomicType.Allows [BddIdentity] (l : ListAtomicType) (n : Nat) : Prop :=
  l.members.fixedLength ≤ n ∧ ((n : Int) = l.members.fixedLength ∨ RestPossible l.rest)

section Theorem

variable [BddIdentity] {l1 l2 l : ListAtomicType} {env env' : Env}

/-- At index `i`, the member of `l` is the intersection of the members of `l1` and `l2`. -/
def MemberMeets (env : Env) (l1 l2 l : ListAtomicType) (i : Nat) : Prop :=
  ∃ t1 t2 t, listMemberAt l1.members l1.rest i = some t1 ∧
    listMemberAt l2.members l2.rest i = some t2 ∧ listMemberAt l.members l.rest i = some t ∧
    runInEnv (intersectMemberSemTypes t1 t2) env = .done t env

/-- What a run that reports the intersection as possible has computed. -/
theorem runInEnv_listIntersectWith (hrun : runInEnv (listIntersectWith l1.members l1.rest
      l2.members l2.rest) env = .done (some l) env') :
    listLengthsDisjoint l1.members l1.rest l2.members l2.rest = some false ∧
      l.members.fixedLength = max l1.members.fixedLength l2.members.fixedLength ∧
      IsMeet env' l1.rest l2.rest l.rest ∧
      List.Forall₂ (fun (i : Nat) t => ∃ t1 t2, listMemberAt l1.members l1.rest i = some t1 ∧
          listMemberAt l2.members l2.rest i = some t2 ∧ IsMeet env' t1 t2 t)
        (List.range (max l1.members.initial.length l2.members.initial.length))
        l.members.initial := by
  obtain ⟨disjoint, env1, h1, hrun1⟩ := runInEnv_bind hrun
  obtain ⟨hdisjoint, rfl⟩ := runInEnv_cast h1
  cases disjoint with
  | true =>
    obtain ⟨heq, -⟩ := runInEnv_pure hrun1
    cases heq
  | false =>
    obtain ⟨initial, env2, h2, hrun2⟩ := runInEnv_bind hrun1
    obtain ⟨rest, env3, h3, hrun3⟩ := runInEnv_bind hrun2
    obtain ⟨heq, rfl⟩ := runInEnv_pure hrun3
    cases heq
    obtain ⟨hmeet, hkeep⟩ := runInEnv_intersectMemberSemTypes h3
    refine ⟨hdisjoint, rfl, hmeet, (runInEnv_intersectMembers h2).2.imp ?_⟩
    intro i t ⟨t1, t2, ht1, ht2, hm⟩
    exact ⟨t1, t2, ht1, ht2, hm.mono hkeep⟩

omit [BddIdentity] in
/-- What holds of the members that are computed holds at every index that is covered. -/
theorem listMemberAt_of_initial {Rel : SemType → SemType → SemType → Prop}
    (hv1 : l1.members.Valid) (hv2 : l2.members.Valid)
    (hfixed : l.members.fixedLength = max l1.members.fixedLength l2.members.fixedLength)
    (hrest : Rel l1.rest l2.rest l.rest)
    (hinitial : List.Forall₂ (fun (i : Nat) t => ∃ t1 t2, listMemberAt l1.members l1.rest i = some t1 ∧
        listMemberAt l2.members l2.rest i = some t2 ∧ Rel t1 t2 t)
      (List.range (max l1.members.initial.length l2.members.initial.length)) l.members.initial)
    (i : Nat) (hi : Covered l1.members l2.members i) :
    ∃ t1 t2 t, listMemberAt l1.members l1.rest i = some t1 ∧
      listMemberAt l2.members l2.rest i = some t2 ∧ listMemberAt l.members l.rest i = some t ∧
      Rel t1 t2 t := by
  have hlen := hinitial.length_eq
  rw [List.length_range] at hlen
  have hempty1 := hv1.empty
  have hempty2 := hv2.empty
  rw [← List.length_eq_zero_iff] at hempty1 hempty2
  by_cases hlt : (i : Int) < l.members.fixedLength
  · -- the initial member that the result repeats at `i`
    let j := min i (l.members.initial.length - 1)
    have hj : j < l.members.initial.length := by
      simp only [j]
      omega
    have hget : listMemberAt l.members l.rest i = some (l.members.initial.get ⟨j, hj⟩) := by
      unfold listMemberAt fixedArrayGet
      have hmin : min (i : Int) ((l.members.initial.length : Int) - 1) = (j : Int) := by
        simp only [j]
        omega
      dsimp only
      rw [if_pos hlt, hmin, if_pos (Int.natCast_nonneg j), Int.toNat_natCast,
        List.getElem?_eq_getElem hj]
      rfl
    obtain ⟨t1, t2, ht1, ht2, hm⟩ := (List.forall₂_iff_get.mp hinitial).2 j
      (by rw [List.length_range]; omega) hj
    simp only [List.get_eq_getElem, List.getElem_range] at ht1 ht2
    unfold Covered at hi
    refine ⟨t1, t2, _, ?_, ?_, hget, hm⟩
    · rw [← ht1]
      by_cases hji : j = i
      · rw [hji]
      · refine (listMemberAt_eq_of_le _ ?_ ?_ ?_).symm
        · simp only [j] at hji ⊢
          omega
        · simp only [j]
          omega
        · simp only [j] at hji ⊢
          omega
    · rw [← ht2]
      by_cases hji : j = i
      · rw [hji]
      · refine (listMemberAt_eq_of_le _ ?_ ?_ ?_).symm
        · simp only [j] at hji ⊢
          omega
        · simp only [j]
          omega
        · simp only [j] at hji ⊢
          omega
  · have hge1 : ¬ (i : Int) < l1.members.fixedLength := by omega
    have hge2 : ¬ (i : Int) < l2.members.fixedLength := by omega
    exact ⟨l1.rest, l2.rest, l.rest, if_neg hge1, if_neg hge2, if_neg hlt, hrest⟩

theorem memberMeets_of_run (hv1 : l1.members.Valid) (hv2 : l2.members.Valid)
    (hrun : runInEnv (listIntersectWith l1.members l1.rest l2.members l2.rest) env =
      .done (some l) env') (i : Nat) (hi : Covered l1.members l2.members i) :
    MemberMeets env' l1 l2 l i := by
  obtain ⟨-, hfixed, hrest, hinitial⟩ := runInEnv_listIntersectWith hrun
  obtain ⟨t1, t2, t, ht1, ht2, ht, hmeet⟩ :=
    listMemberAt_of_initial hv1 hv2 hfixed hrest hinitial i hi
  exact ⟨t1, t2, t, ht1, ht2, ht, hmeet.run⟩

/-- The rest type of the result has a value only if both rest types have one. -/
theorem restPossible_of_meet {t1 t2 t : SemType} (hw1 : ∀ c, cellAtomicType t1 = some c → c.ty.WF)
    (hw2 : ∀ c, cellAtomicType t2 = some c → c.ty.WF) (h : IsMeet env t1 t2 t)
    (hpos : RestPossible t) : RestPossible t1 ∧ RestPossible t2 := by
  obtain ⟨c, a, hc, ha, rfl⟩ := h
  obtain ⟨ty, hty, hne⟩ := hpos
  unfold memberCell at hc
  simp only [Option.bind_eq_bind, Option.bind_eq_some_iff, Option.pure_def, Option.some.injEq] at hc
  obtain ⟨c1, hc1, c2, hc2, c', hc', heq⟩ := hc
  unfold intersectCellAtomicType at hc'
  simp only [Option.bind_eq_bind, Option.bind_eq_some_iff, Option.pure_def, Option.some.injEq] at hc'
  obtain ⟨inner, hinner, rfl⟩ := hc'
  have hval : cellInnerVal (atomSemType BT_CELL a.toAtom) = diff ops inner (.bits UNDEF) := by
    unfold cellInnerVal cellInner
    rw [ha.cellAtomicType, ← heq]
    rfl
  -- if one had no value, neither would the intersection
  have hnone : ¬ (Undefined c1.ty ∨ Undefined c2.ty) := by
    intro hu
    have hundef := undefined_intersect (hw1 c1 hc1) (hw2 c2 hc2) hu hinner
    rw [hval, hundef.diff] at hty
    exact hne (Option.some.inj hty).symm
  obtain ⟨r1, hr1, hnever1⟩ := diff_undef_spec (hw1 c1 hc1)
  obtain ⟨r2, hr2, hnever2⟩ := diff_undef_spec (hw2 c2 hc2)
  refine ⟨⟨r1, ?_, fun h => hnone (.inl (hnever1 h))⟩,
    ⟨r2, ?_, fun h => hnone (.inr (hnever2 h))⟩⟩
  · unfold cellInnerVal cellInner
    rw [hc1]
    exact hr1
  · unfold cellInnerVal cellInner
    rw [hc2]
    exact hr2

/-- The operand with the shorter fixed length has lists as long as the other's. -/
theorem restPossible_of_lengths {m1 m2 : FixedLengthArray} {rest1 rest2 : SemType}
    (h : listLengthsDisjoint m1 rest1 m2 rest2 = some false) :
    (m1.fixedLength < m2.fixedLength → RestPossible rest1) ∧
      (m2.fixedLength < m1.fixedLength → RestPossible rest2) := by
  unfold listLengthsDisjoint at h
  constructor
  · intro hlt
    rw [if_pos hlt] at h
    obtain ⟨ty, hty, heq⟩ := Option.bind_eq_some_iff.mp h
    exact ⟨ty, hty, of_decide_eq_false (Option.some.inj heq)⟩
  · intro hlt
    rw [if_neg (by omega), if_pos hlt] at h
    obtain ⟨ty, hty, heq⟩ := Option.bind_eq_some_iff.mp h
    exact ⟨ty, hty, of_decide_eq_false (Option.some.inj heq)⟩

/-- When the intersection is reported as possible, the member of the result at an index is the
intersection of the members of the operands, but perhaps between the two fixed lengths; and a
length is possible for the result exactly when it is possible for both operands and, unless it is
the longer fixed length, the rest types have a value in common. -/
theorem listIntersectWith_right (env env' : Env) (l1 l2 l : ListAtomicType)
    (hv1 : l1.members.Valid) (hv2 : l2.members.Valid)
    (hw1 : ∀ c, cellAtomicType l1.rest = some c → c.ty.WF)
    (hw2 : ∀ c, cellAtomicType l2.rest = some c → c.ty.WF)
    (hrun : runInEnv (listIntersectWith l1.members l1.rest l2.members l2.rest) env =
      .done (some l) env') :
    (∀ i, Covered l1.members l2.members i → MemberMeets env' l1 l2 l i) ∧
      ∀ n : Nat, l.Allows n ↔ l1.Allows n ∧ l2.Allows n ∧
        ((n : Int) = max l1.members.fixedLength l2.members.fixedLength ∨ RestPossible l.rest) := by
  refine ⟨memberMeets_of_run hv1 hv2 hrun, fun n => ?_⟩
  obtain ⟨hdisjoint, hfixed, hrest, -⟩ := runInEnv_listIntersectWith hrun
  obtain ⟨hlen1, hlen2⟩ := restPossible_of_lengths hdisjoint
  unfold ListAtomicType.Allows
  rw [hfixed]
  constructor
  · intro ⟨hle, hcase⟩
    have hboth : ((n : Int) = l1.members.fixedLength ∨ RestPossible l1.rest) ∧
        ((n : Int) = l2.members.fixedLength ∨ RestPossible l2.rest) := by
      rcases hcase with heq | hpos
      · constructor
        · rcases Int.lt_or_le l1.members.fixedLength l2.members.fixedLength with hlt | hge
          · exact .inr (hlen1 hlt)
          · exact .inl (by omega)
        · rcases Int.lt_or_le l2.members.fixedLength l1.members.fixedLength with hlt | hge
          · exact .inr (hlen2 hlt)
          · exact .inl (by omega)
      · obtain ⟨hpos1, hpos2⟩ := restPossible_of_meet hw1 hw2 hrest hpos
        exact ⟨.inr hpos1, .inr hpos2⟩
    exact ⟨⟨by omega, hboth.1⟩, ⟨by omega, hboth.2⟩, hcase⟩
  · intro ⟨h1, h2, hcase⟩
    exact ⟨by omega, hcase⟩

end Theorem

/-! ## Two tuples -/

/-- The cell of a type given by bits, as interned at index `i`. -/
def bitsCell (i : Int) (b : BasicTypeBitSet) : SemType :=
  atomSemType BT_CELL (.typeAtom i (.cell (.bits b) .limited))

theorem bitsCell_wf (i : Int) (b : BasicTypeBitSet) :
    ∀ c, cellAtomicType (bitsCell i b) = some c → c.ty.WF := by
  intro c hc
  have hcell := CellTable.cellAtomicType_single i ⟨.bits b, .limited⟩
  rw [show bitsCell i b = atomSemType BT_CELL (.typeAtom i
    (CellAtomicType.toAtomicType ⟨.bits b, .limited⟩)) from rfl, hcell] at hc
  cases hc
  trivial

/-- The `Env` in which the member types of the two tuples have been made. -/
def tuplesEnv : Env :=
  ((((Env.init.cellAtom ⟨.bits (basicType BT_INT), .limited⟩).2.cellAtom
    ⟨.bits (basicType BT_STRING ||| UNDEF), .limited⟩).2.cellAtom
    ⟨.bits (basicType BT_INT ||| basicType BT_STRING), .limited⟩).2.cellAtom
    ⟨.bits (basicType BT_STRING), .limited⟩).2

/-- `[int, string...]`. -/
def intStrings : ListAtomicType :=
  ⟨⟨[bitsCell 8 (basicType BT_INT)], 1⟩, bitsCell 9 (basicType BT_STRING ||| UNDEF)⟩

/-- `[int|string, string, string...]`. -/
def anyStringStrings : ListAtomicType :=
  ⟨⟨[bitsCell 10 (basicType BT_INT ||| basicType BT_STRING), bitsCell 11 (basicType BT_STRING)], 2⟩,
    bitsCell 9 (basicType BT_STRING ||| UNDEF)⟩

/-- `[int, string, string...]`. -/
def intStringStrings : ListAtomicType :=
  ⟨⟨[bitsCell 8 (basicType BT_INT), bitsCell 11 (basicType BT_STRING)], 2⟩,
    bitsCell 9 (basicType BT_STRING ||| UNDEF)⟩

/-- At index 1 the shorter tuple has its rest type already; the initial members of the longer one
reach past its fixed length, so that every index is covered. -/
theorem listIntersectWith_right_tuples :
    let _ := BddIdentity.shared
    ∃ env', runInEnv (listIntersectWith intStrings.members intStrings.rest anyStringStrings.members
        anyStringStrings.rest) tuplesEnv = .done (some intStringStrings) env' ∧
      (∀ i, MemberMeets env' intStrings anyStringStrings intStringStrings i) ∧
      intStringStrings.Allows 2 ∧
      ∀ n : Nat, intStringStrings.Allows n ↔ intStrings.Allows n ∧ anyStringStrings.Allows n := by
  let _ := BddIdentity.shared
  have hrun : ∃ env', runInEnv (listIntersectWith intStrings.members intStrings.rest
      anyStringStrings.members anyStringStrings.rest) tuplesEnv =
        .done (some intStringStrings) env' := ⟨_, rfl⟩
  obtain ⟨env', hrun⟩ := hrun
  obtain ⟨hmembers, hlengths⟩ := listIntersectWith_right tuplesEnv env' intStrings anyStringStrings
    intStringStrings ⟨by decide, by decide, by decide⟩ ⟨by decide, by decide, by decide⟩
    (bitsCell_wf _ _) (bitsCell_wf _ _) hrun
  have hrest : RestPossible intStringStrings.rest := ⟨.bits (basicType BT_STRING), rfl, by decide⟩
  refine ⟨env', hrun, fun i => hmembers i (.inr (.inr (by decide))), ?_, fun n => ?_⟩
  · exact ⟨Int.le_refl 2, .inl rfl⟩
  · rw [hlengths n]
    exact ⟨fun h => ⟨h.1, h.2.1⟩, fun h => ⟨h.1, h.2, .inr hrest⟩⟩

/-! ## Two arrays -/

/-- An array type, by the bits of its members. -/
def arrayOf (i : Int) (b : BasicTypeBitSet) : ListAtomicType := ⟨⟨[], 0⟩, bitsCell i (b ||| UNDEF)⟩

/-- The `Env` in which `int[]` and `string[]` have been made. -/
def intStringEnv : Env :=
  ((Env.init.cellAtom ⟨.bits (basicType BT_INT ||| UNDEF), .limited⟩).2.cellAtom
    ⟨.bits (basicType BT_STRING ||| UNDEF), .limited⟩).2

/-- `int[]`. -/
def intArray : ListAtomicType := arrayOf 8 (basicType BT_INT)

/-- `string[]`. -/
def stringArray : ListAtomicType := arrayOf 9 (basicType BT_STRING)

/-- `int[] & string[]`: only the empty list. -/
def intStringArray : ListAtomicType :=
  ⟨⟨[], 0⟩, atomSemType BT_CELL (.typeAtom 10 (.cell (.bits UNDEF) .none))⟩

/-- Both `int[]` and `string[]` have lists of length 1, `int[] & string[]` has not. -/
theorem not_lengths_intStringArray :
    let _ := BddIdentity.shared
    ∃ env', runInEnv (listIntersectWith intArray.members intArray.rest stringArray.members
        stringArray.rest) intStringEnv = .done (some intStringArray) env' ∧
      ¬ ((∀ i, MemberMeets env' intArray stringArray intStringArray i) ∧
        ∀ n, intStringArray.Allows n ↔ intArray.Allows n ∧ stringArray.Allows n) := by
  let _ := BddIdentity.shared
  have hrun : ∃ env', runInEnv (listIntersectWith intArray.members intArray.rest
      stringArray.members stringArray.rest) intStringEnv = .done (some intStringArray) env' :=
    ⟨_, rfl⟩
  obtain ⟨env', hrun⟩ := hrun
  refine ⟨env', hrun, fun h => ?_⟩
  have hint : intArray.Allows 1 :=
    ⟨show (0 : Int) ≤ 1 by decide, .inr ⟨.bits (basicType BT_INT), rfl, by decide⟩⟩
  have hstring : stringArray.Allows 1 :=
    ⟨show (0 : Int) ≤ 1 by decide, .inr ⟨.bits (basicType BT_STRING), rfl, by decide⟩⟩
  rcases ((h.2 1).mpr ⟨hint, hstring⟩).2 with heq | ⟨ty, hty, hne⟩
  · cases heq
  · have hnever : cellInnerVal intStringArray.rest = some NEVER := rfl
    exact hne (Option.some.inj (hty.symm.trans hnever))

-- `[int, string...] & (int|string)[3]`: at index 1, past the fixed length of the tuple, the
-- result still has the type of index 0.
example :
    let _ := BddIdentity.shared
    ∃ l env', runInEnv (listIntersectWith ⟨[bitsCell 8 (basicType BT_INT)], 1⟩
        (bitsCell 9 (basicType BT_STRING ||| UNDEF))
        ⟨[bitsCell 10 (basicType BT_INT ||| basicType BT_STRING)], 3⟩ (bitsCell 11 UNDEF)) .init =
          .done (some l) env' ∧
      listMemberAt l.members l.rest 1 = listMemberAt l.members l.rest 0 :=
  ⟨_, _, rfl, rfl⟩

end Nballerina.Types
