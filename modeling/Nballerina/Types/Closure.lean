import Nballerina.Types.Atoms
import Nballerina.Types.BddOrder
import Nballerina.Types.CoreExact
import Nballerina.Types.Emptiness

/-!
# Boolean combinations of atoms

Union, intersection and difference make new semtypes, but no new atoms: the `Bdd`s
of the result are made of the atoms of the operands and of a few constants. The one
exception is the content of a cell, which is a semtype of its own and changes too.
`Combination A r t` takes both into account: all atoms of `t` other than cells are in
`A`, and cells are nested less than `r` deep.

The operations keep it (`Combination.union` and its siblings). The other half, that
what an emptiness predicate asks for is a combination again, is in
`EmptinessScope.lean`.
-/

namespace Nballerina.Types

/-! ## Data that the operations keep -/

section Merge

variable {δ : Type} {valid : BasicTypeCode → δ → Prop} {ops : BasicTypeCode → BasicTypeOps δ}
  {t1 t2 t : SemTypeOf δ}

/-- A well-formed semtype with valid entries. -/
structure SemTypeOf.Over (valid : BasicTypeCode → δ → Prop) (t : SemTypeOf δ) : Prop where
  wf : t.WF
  valid : t.Valid valid

theorem over_bits (valid : BasicTypeCode → δ → Prop) (b : BasicTypeBitSet) :
    (SemTypeOf.bits b).Over valid :=
  ⟨trivial, fun e he => by cases he⟩

/-- The operations of a table turn valid data into valid data, or into no data. -/
structure ClosedOps (valid : BasicTypeCode → δ → Prop) (ops : BasicTypeCode → BasicTypeOps δ) :
    Prop where
  union : ∀ {c d1 d2 d}, valid c d1 → valid c d2 →
    (ops c).union d1 d2 = some (.proper d) → valid c d
  intersect : ∀ {c d1 d2 d}, valid c d1 → valid c d2 →
    (ops c).intersect d1 d2 = some (.proper d) → valid c d
  diff : ∀ {c op d1 d2 d}, valid c d1 → valid c d2 → (ops c).diff = some op →
    op d1 d2 = some (.proper d) → valid c d
  complement : ∀ {c d1 d}, valid c d1 → (ops c).complement d1 = some (.proper d) → valid c d

/-- A merge that does not panic has asked for data at every pair. -/
theorem mergeLoop_isSome {f : BasicTypeCode → Option δ → Option δ → Option (SubtypeDataOf δ)} :
    ∀ (pairs : List (BasicTypeCode × Option δ × Option δ))
      {acc result : BasicTypeBitSet × List (BasicTypeCode × δ)},
      mergeLoop f pairs acc = some result → ∀ p ∈ pairs, (f p.1 p.2.1 p.2.2).isSome = true
  | [], _, _, _, p, hp => by cases hp
  | (c, d1, d2) :: pairs, (all, subtypes), result, h, p, hp => by
    simp only [mergeLoop] at h
    cases hf : f c d1 d2 with
    | none =>
      rw [hf] at h
      cases h
    | some r =>
      rw [hf] at h
      rcases List.mem_cons.mp hp with rfl | hp
      · rw [hf]
        rfl
      · cases r with
        | proper d => exact mergeLoop_isSome pairs h p hp
        | bool b =>
          cases b with
          | true => exact mergeLoop_isSome pairs h p hp
          | false => exact mergeLoop_isSome pairs h p hp

/-- The data of a merged semtype: what `f` gave where a side has data, else the bit of `all`. -/
theorem mergeWith_data {f : BasicTypeCode → Option δ → Option δ → Option (SubtypeDataOf δ)}
    (h1 : t1.WF) (h2 : t2.WF) {all some : BasicTypeBitSet}
    (hdis : ∀ c : BasicTypeCode, some.getLsbD c.val = true → all.getLsbD c.val = false)
    (h : mergeWith f t1 t2 all some = .some t) : t.WF ∧ ∀ c : BasicTypeCode,
      (IsPair some t1.entries t2.entries (c, lookupCode t1.entries c, lookupCode t2.entries c) →
        subtypeData t c = f c (lookupCode t1.entries c) (lookupCode t2.entries c)) ∧
      (¬ IsPair some t1.entries t2.entries (c, lookupCode t1.entries c, lookupCode t2.entries c) →
        subtypeData t c = .some (.bool (all.getLsbD c.val))) := by
  have hsome : some ≠ 0 → ∀ p, IsPair some t1.entries t2.entries p →
      (f p.1 p.2.1 p.2.2).isSome = true := by
    intro h0 p hp
    have hrep1 := rep_of_wf h1
    have hrep2 := rep_of_wf h2
    rw [mergeWith, if_neg h0] at h
    simp only [subtypePairIterator, hrep1.unpack, hrep2.unpack, Option.bind_eq_bind,
      Option.bind_some, Option.pure_def, Option.bind_eq_some_iff] at h
    obtain ⟨result, hloop, -⟩ := h
    refine mergeLoop_isSome _ hloop p ?_
    exact ((subtypePairs_spec some _ _ hrep1.sorted hrep2.sorted).2 p).mpr hp
  have hg : ∀ p, IsPair some t1.entries t2.entries p →
      f p.1 p.2.1 p.2.2 = .some ((f p.1 p.2.1 p.2.2).getD (.bool false)) := by
    intro p hp
    have h0 : some ≠ 0 := fun h0 => absurd hp.1 (by simp [h0])
    obtain ⟨r, hr⟩ := Option.isSome_iff_exists.mp (hsome h0 p hp)
    rw [hr]
    rfl
  obtain ⟨t', ht', hwf, hdata⟩ := mergeWith_spec h1 h2 hdis hg
  cases ht'.symm.trans h
  exact ⟨hwf, fun c => ⟨fun hp => ((hdata c).1 hp).trans (hg _ hp).symm, (hdata c).2⟩⟩

/-- The entries of a merged semtype are what `f` gave. -/
theorem mergeWith_valid {f : BasicTypeCode → Option δ → Option δ → Option (SubtypeDataOf δ)}
    (h1 : t1.WF) (h2 : t2.WF) {all some : BasicTypeBitSet}
    (hdis : ∀ c : BasicTypeCode, some.getLsbD c.val = true → all.getLsbD c.val = false)
    (hf : ∀ c d, f c (lookupCode t1.entries c) (lookupCode t2.entries c) = .some (.proper d) →
      valid c d)
    (h : mergeWith f t1 t2 all some = .some t) : t.Over valid := by
  obtain ⟨hwf, hdata⟩ := mergeWith_data h1 h2 hdis h
  refine ⟨hwf, fun e he => ?_⟩
  have hrep := rep_of_wf hwf
  have hlook : lookupCode t.entries e.1 = .some e.2 := (lookupCode_eq_some hrep.sorted).mpr he
  have hat : subtypeData t e.1 = .some (.proper e.2) := by
    rw [hrep.data, dataAt, hrep.disjoint e he, hlook]
    rfl
  by_cases hp : IsPair some t1.entries t2.entries
      (e.1, lookupCode t1.entries e.1, lookupCode t2.entries e.1)
  · exact hf _ _ (((hdata e.1).1 hp).symm.trans hat)
  · have := (hdata e.1).2 hp
    rw [hat] at this
    cases this

/-- A merge of valid entries, over an `f` that keeps data valid. -/
theorem mergeWith_over {f : BasicTypeCode → Option δ → Option δ → Option (SubtypeDataOf δ)}
    (h1 : t1.Over valid) (h2 : t2.Over valid) {all bits : BasicTypeBitSet}
    (hnone : ∀ c d, f c none none ≠ some (.proper d))
    (hleft : ∀ c d1 d, valid c d1 → f c (some d1) none = some (.proper d) → valid c d)
    (hright : ∀ c d2 d, valid c d2 → f c none (some d2) = some (.proper d) → valid c d)
    (hboth : ∀ c d1 d2 d, valid c d1 → valid c d2 → f c (some d1) (some d2) = some (.proper d) →
      valid c d)
    (h : mergeWith f t1 t2 all (bits &&& ~~~all) = some t) : t.Over valid := by
  refine mergeWith_valid h1.wf h2.wf (fun c hc => ?_) (fun c d hd => ?_) h
  · rw [BitVec.getLsbD_and, getLsbD_not_code, Bool.and_eq_true, Bool.not_eq_true'] at hc
    exact hc.2
  · match hl1 : lookupCode t1.entries c, hl2 : lookupCode t2.entries c with
    | none, none =>
      rw [hl1, hl2] at hd
      exact absurd hd (hnone c d)
    | none, some d2 =>
      rw [hl1, hl2] at hd
      exact hright c d2 d (valid_of_lookup h2.wf h2.valid hl2) hd
    | some d1, none =>
      rw [hl1, hl2] at hd
      exact hleft c d1 d (valid_of_lookup h1.wf h1.valid hl1) hd
    | some d1, some d2 =>
      rw [hl1, hl2] at hd
      exact hboth c d1 d2 d (valid_of_lookup h1.wf h1.valid hl1)
        (valid_of_lookup h2.wf h2.valid hl2) hd

/-! The loops of `union` and `intersect` panic more often than `mergeLoop`. -/

theorem mergeLoop_of_unionLoop : ∀ (pairs : List (BasicTypeCode × Option δ × Option δ))
    {acc result : BasicTypeBitSet × List (BasicTypeCode × δ)},
    unionLoop ops pairs acc = some result → mergeLoop (unionData ops) pairs acc = some result
  | [], _, _, h => h
  | (c, d1, d2) :: pairs, (all, subtypes), result, h => by
    simp only [unionLoop] at h
    simp only [mergeLoop]
    cases hr : unionData ops c d1 d2 with
    | none =>
      rw [hr] at h
      cases h
    | some r =>
      rw [hr] at h
      cases r with
      | proper d => exact mergeLoop_of_unionLoop pairs h
      | bool b =>
        cases b with
        | true => exact mergeLoop_of_unionLoop pairs h
        | false => cases h

theorem mergeLoop_of_intersectLoop {all : BasicTypeBitSet} :
    ∀ (pairs : List (BasicTypeCode × Option δ × Option δ))
      {subtypes result : List (BasicTypeCode × δ)},
      intersectLoop ops pairs subtypes = some result →
        mergeLoop (intersectData ops) pairs (all, subtypes) = some (all, result)
  | [], _, _, h => by
    cases h
    rfl
  | (c, d1, d2) :: pairs, subtypes, result, h => by
    simp only [intersectLoop] at h
    simp only [mergeLoop]
    cases hr : intersectData ops c d1 d2 with
    | none =>
      rw [hr] at h
      cases h
    | some r =>
      rw [hr] at h
      cases r with
      | proper d => exact mergeLoop_of_intersectLoop pairs h
      | bool b =>
        cases b with
        | true => cases h
        | false => exact mergeLoop_of_intersectLoop pairs h

theorem mergeWith_of_unionMerge {all1 some1 all2 some2 : BasicTypeBitSet}
    (h : unionMerge ops t1 t2 all1 some1 all2 some2 = some t) :
    mergeWith (unionData ops) t1 t2 (all1 ||| all2)
      ((some1 ||| some2) &&& ~~~(all1 ||| all2)) = some t := by
  unfold unionMerge at h
  unfold mergeWith
  dsimp only at h
  split at h
  next h0 =>
    rw [if_pos h0]
    exact h
  next h0 =>
    rw [if_neg h0]
    simp only [Option.bind_eq_bind, Option.bind_eq_some_iff] at h ⊢
    obtain ⟨pairs, hpairs, result, hloop, hfin⟩ := h
    exact ⟨pairs, hpairs, result, mergeLoop_of_unionLoop pairs hloop, hfin⟩

theorem mergeWith_of_intersectMerge {all1 some1 all2 some2 : BasicTypeBitSet}
    (h : intersectMerge ops t1 t2 all1 some1 all2 some2 = some t) :
    mergeWith (intersectData ops) t1 t2 (all1 &&& all2)
      (((some1 ||| all1) &&& (some2 ||| all2)) &&& ~~~(all1 &&& all2)) = some t := by
  unfold intersectMerge at h
  unfold mergeWith
  dsimp only at h
  split at h
  next h0 =>
    rw [if_pos h0]
    exact h
  next h0 =>
    rw [if_neg h0]
    simp only [Option.bind_eq_bind, Option.bind_eq_some_iff] at h ⊢
    obtain ⟨pairs, hpairs, result, hloop, hfin⟩ := h
    exact ⟨pairs, hpairs, _, mergeLoop_of_intersectLoop pairs hloop, hfin⟩

theorem mergeWith_of_diffMerge {all1 some1 all2 some2 : BasicTypeBitSet}
    (h : diffMerge ops t1 t2 all1 some1 all2 some2 = some t) :
    mergeWith (diffData ops) t1 t2 (all1 &&& ~~~(all2 ||| some2))
      (((all1 ||| some1) &&& ~~~all2) &&& ~~~(all1 &&& ~~~(all2 ||| some2))) = some t := by
  unfold diffMerge at h
  unfold mergeWith
  simpa only [diffLoop_eq] using h

theorem unionMerge_over (hops : ClosedOps valid ops) (h1 : t1.Over valid) (h2 : t2.Over valid)
    {all1 some1 all2 some2 : BasicTypeBitSet}
    (h : unionMerge ops t1 t2 all1 some1 all2 some2 = some t) : t.Over valid := by
  refine mergeWith_over h1 h2 ?_ ?_ ?_ ?_ (mergeWith_of_unionMerge h)
  · exact fun c d hd => by cases hd
  · exact fun c d1 d hv hd => by cases hd; exact hv
  · exact fun c d2 d hv hd => by cases hd; exact hv
  · exact fun c d1 d2 d hv1 hv2 hd => hops.union hv1 hv2 hd

theorem intersectMerge_over (hops : ClosedOps valid ops) (h1 : t1.Over valid)
    (h2 : t2.Over valid) {all1 some1 all2 some2 : BasicTypeBitSet}
    (h : intersectMerge ops t1 t2 all1 some1 all2 some2 = some t) : t.Over valid := by
  refine mergeWith_over h1 h2 ?_ ?_ ?_ ?_ (mergeWith_of_intersectMerge h)
  · exact fun c d hd => by cases hd
  · exact fun c d1 d hv hd => by cases hd; exact hv
  · exact fun c d2 d hv hd => by cases hd; exact hv
  · exact fun c d1 d2 d hv1 hv2 hd => hops.intersect hv1 hv2 hd

theorem subtypeDiff_valid (hops : ClosedOps valid ops) {c : BasicTypeCode} {d1 d2 d : δ}
    (h1 : valid c d1) (h2 : valid c d2) (h : subtypeDiff ops c d1 d2 = some (.proper d)) :
    valid c d := by
  unfold subtypeDiff at h
  split at h
  next op hop => exact hops.diff h1 h2 hop h
  next =>
    obtain ⟨r, hr, h⟩ := Option.bind_eq_some_iff.mp h
    match r, hr, h with
    | .bool true, _, h =>
      cases h
      exact h1
    | .bool false, _, h => cases h
    | .proper _, hr, h => exact hops.intersect h1 (hops.complement h2 hr) h

theorem diffMerge_over (hops : ClosedOps valid ops) (h1 : t1.Over valid) (h2 : t2.Over valid)
    {all1 some1 all2 some2 : BasicTypeBitSet}
    (h : diffMerge ops t1 t2 all1 some1 all2 some2 = some t) : t.Over valid := by
  refine mergeWith_over h1 h2 ?_ ?_ ?_ ?_ (mergeWith_of_diffMerge h)
  · exact fun c d hd => by cases hd
  · exact fun c d1 d hv hd => by cases hd; exact hv
  · exact fun c d2 d hv hd => hops.complement hv hd
  · exact fun c d1 d2 d hv1 hv2 hd => subtypeDiff_valid hops hv1 hv2 hd

theorem SemTypeOf.Over.union (hops : ClosedOps valid ops) (h1 : t1.Over valid)
    (h2 : t2.Over valid) (h : Types.union ops t1 t2 = some t) : t.Over valid := by
  have hmerge := @unionMerge_over _ _ _ t1 t2 t hops h1 h2
  match t1, t2 with
  | .bits _, .bits _ =>
    cases h
    exact over_bits valid _
  | .bits _, .complex _ =>
    simp only [Types.union] at h
    split at h
    · cases h
      exact h2
    · exact hmerge h
  | .complex _, .bits _ =>
    simp only [Types.union] at h
    split at h
    · cases h
      exact h1
    · exact hmerge h
  | .complex _, .complex _ => exact hmerge h

theorem SemTypeOf.Over.intersect (hops : ClosedOps valid ops) (h1 : t1.Over valid)
    (h2 : t2.Over valid) (h : Types.intersect ops t1 t2 = some t) : t.Over valid := by
  have hmerge := @intersectMerge_over _ _ _ t1 t2 t hops h1 h2
  match t1, t2 with
  | .bits _, .bits _ =>
    cases h
    exact over_bits valid _
  | .bits _, .complex _ =>
    simp only [Types.intersect] at h
    split at h
    · cases h
      exact h1
    · split at h
      · cases h
        exact h2
      · exact hmerge h
  | .complex _, .bits _ =>
    simp only [Types.intersect] at h
    split at h
    · cases h
      exact h2
    · split at h
      · cases h
        exact h1
      · exact hmerge h
  | .complex _, .complex _ => exact hmerge h

theorem SemTypeOf.Over.diff (hops : ClosedOps valid ops) (h1 : t1.Over valid)
    (h2 : t2.Over valid) (h : Types.diff ops t1 t2 = some t) : t.Over valid := by
  have hmerge := @diffMerge_over _ _ _ t1 t2 t hops h1 h2
  match t1, t2 with
  | .bits _, .bits _ =>
    cases h
    exact over_bits valid _
  | .bits _, .complex _ =>
    simp only [Types.diff] at h
    split at h
    · cases h
      exact h1
    · exact hmerge h
  | .complex _, .bits _ =>
    simp only [Types.diff] at h
    split at h
    · cases h
      exact over_bits valid _
    · exact hmerge h
  | .complex _, .complex _ => exact hmerge h

end Merge

/-! ## Data over a set of atoms -/

/-- The `Bdd`, if the data is one, is ordered and made of atoms in `P`. -/
def ProperSubtypeData.Over (P : Atom → Prop) (d : ProperSubtypeData) : Prop :=
  ∀ b, properToBdd d = some b → b.OrderedOver P

/-- The data of a code is over the atoms allowed for the kind of the code. -/
def DataOver (ok : AtomKind → Atom → Prop) (c : BasicTypeCode) (d : ProperSubtypeData) : Prop :=
  ∀ kind, codeKind c = some kind → d.Over (ok kind)

theorem over_of_toSubtypeData {P : Atom → Prop} {b : Bdd} {d : ProperSubtypeData}
    (hb : b.OrderedOver P) (h : b.toSubtypeData = .proper d) : d.Over P := by
  intro b' hb'
  cases b with
  | leaf _ => cases h
  | node a l m r =>
    cases h
    cases hb'
    exact hb

section Ops

variable [BddIdentity] {P : Atom → Prop} {d1 d2 d : ProperSubtypeData}

omit [BddIdentity] in
theorem over_bddSubtypeOp {op : Bdd → Bdd → Bdd}
    (hop : ∀ {b1 b2 : Bdd}, b1.OrderedOver P → b2.OrderedOver P → (op b1 b2).OrderedOver P)
    (h1 : d1.Over P) (h2 : d2.Over P) {r : SubtypeData} (h : bddSubtypeOp op d1 d2 = some r) :
    ∃ b : Bdd, b.OrderedOver P ∧ r = b.toSubtypeData := by
  unfold bddSubtypeOp at h
  split at h
  · cases h
    exact ⟨_, hop (h1 _ rfl) (h2 _ rfl), rfl⟩
  · cases h

theorem over_bddSubtypeComplement (h1 : d1.Over P) {r : SubtypeData}
    (h : bddSubtypeComplement d1 = some r) :
    ∃ b : Bdd, b.OrderedOver P ∧ r = b.toSubtypeData := by
  unfold bddSubtypeComplement at h
  split at h
  · cases h
    exact ⟨_, (h1 _ rfl).nodeComplement, rfl⟩
  · cases h

theorem over_bddSubtypeComplementIn {top : Bdd} (htop : top.OrderedOver P) (h1 : d1.Over P)
    (h : bddSubtypeComplementIn top d1 = some (.proper d)) : d.Over P := by
  unfold bddSubtypeComplementIn at h
  split at h
  · exact over_of_toSubtypeData (htop.diff (h1 _ rfl)) (Option.some.inj h)
  · cases h

omit [BddIdentity] in
/-- A cell type that would be everything or nothing is one of two constants. -/
theorem over_ensureProper (hval : P ATOM_CELL_VAL) (hnever : P ATOM_CELL_NEVER)
    {o : Option SubtypeData}
    (ho : ∀ r, o = some r → ∃ b : Bdd, b.OrderedOver P ∧ r = b.toSubtypeData)
    (h : o.map cellSubtypeDataEnsureProper = some (.proper d)) : d.Over P := by
  obtain ⟨r, hr, hd⟩ := Option.map_eq_some_iff.mp h
  obtain ⟨b, hb, rfl⟩ := ho r hr
  cases b with
  | leaf b =>
    cases b with
    | true => exact over_of_toSubtypeData (Bdd.OrderedOver.bddAtom hval) hd
    | false => exact over_of_toSubtypeData (Bdd.OrderedOver.bddAtom hnever) hd
  | node a l m r => exact over_of_toSubtypeData hb hd

/-- The operations of plain `Bdd`s. -/
structure IsBddOps (o : BasicTypeOps ProperSubtypeData) : Prop where
  union : o.union = bddSubtypeUnion
  intersect : o.intersect = bddSubtypeIntersect
  diff : o.diff = some bddSubtypeDiff

/-- The rows of the table whose data has atoms. -/
theorem ops_of_codeKind {c : BasicTypeCode} {kind : AtomKind} (h : codeKind c = some kind) :
    (kind = .cell ∧ ops c = cellOps) ∨
    (kind ≠ .cell ∧ IsBddOps (ops c) ∧ ((ops c).complement = bddSubtypeComplement ∨
      (kind = .mapping ∧ (ops c).complement = errorSubtypeComplement) ∨
      (kind = .list ∧ (ops c).complement = tableSubtypeComplement) ∨
      (kind = .mapping ∧ (ops c).complement = objectSubtypeComplement))) := by
  unfold codeKind at h
  split at h
  next hc =>
    cases h
    rcases hc with rfl | rfl
    · exact .inr ⟨by decide, ⟨rfl, rfl, rfl⟩, .inl rfl⟩
    · exact .inr ⟨by decide, ⟨rfl, rfl, rfl⟩, .inr (.inr (.inl ⟨rfl, rfl⟩))⟩
  next =>
    split at h
    next hc =>
      cases h
      rcases hc with rfl | rfl | rfl
      · exact .inr ⟨by decide, ⟨rfl, rfl, rfl⟩, .inl rfl⟩
      · exact .inr ⟨by decide, ⟨rfl, rfl, rfl⟩, .inr (.inr (.inr ⟨rfl, rfl⟩))⟩
      · exact .inr ⟨by decide, ⟨rfl, rfl, rfl⟩, .inr (.inl ⟨rfl, rfl⟩)⟩
    next =>
      split at h
      next hc =>
        cases h
        subst hc
        exact .inr ⟨by decide, ⟨rfl, rfl, rfl⟩, .inl rfl⟩
      next =>
        split at h
        next hc =>
          cases h
          subst hc
          exact .inl ⟨rfl, rfl⟩
        next => cases h

/-- The constants that the operations bring in are allowed. -/
structure AllowsConstants (ok : AtomKind → Atom → Prop) : Prop where
  cellVal : ok .cell ATOM_CELL_VAL
  cellNever : ok .cell ATOM_CELL_NEVER
  readonly : ok .mapping BDD_REC_ATOM_READONLY
  listMapping : ok .list ATOM_LIST_MAPPING
  mappingObject : ok .mapping ATOM_MAPPING_OBJECT

theorem closedOps_dataOver {ok : AtomKind → Atom → Prop} (hok : AllowsConstants ok) :
    ClosedOps (DataOver ok) ops where
  union {c d1 d2 d} h1 h2 h kind hk := by
    have hop := fun r => @over_bddSubtypeOp (ok kind) d1 d2 bddUnion (fun hb hb' => hb.union hb')
      (h1 kind hk) (h2 kind hk) r
    rcases ops_of_codeKind hk with ⟨rfl, hcell⟩ | ⟨-, hbdd, -⟩
    · rw [hcell] at h
      exact over_ensureProper hok.cellVal hok.cellNever hop h
    · rw [hbdd.union] at h
      obtain ⟨b, hb, heq⟩ := hop _ h
      exact over_of_toSubtypeData hb heq.symm
  intersect {c d1 d2 d} h1 h2 h kind hk := by
    have hop := fun r => @over_bddSubtypeOp (ok kind) d1 d2 bddIntersect
      (fun hb hb' => hb.intersect hb') (h1 kind hk) (h2 kind hk) r
    rcases ops_of_codeKind hk with ⟨rfl, hcell⟩ | ⟨-, hbdd, -⟩
    · rw [hcell] at h
      exact over_ensureProper hok.cellVal hok.cellNever hop h
    · rw [hbdd.intersect] at h
      obtain ⟨b, hb, heq⟩ := hop _ h
      exact over_of_toSubtypeData hb heq.symm
  diff {c op d1 d2 d} h1 h2 hdiff h kind hk := by
    have hop := fun r => @over_bddSubtypeOp (ok kind) d1 d2 bddDiff
      (fun hb hb' => hb.diff hb') (h1 kind hk) (h2 kind hk) r
    rcases ops_of_codeKind hk with ⟨rfl, hcell⟩ | ⟨-, hbdd, -⟩
    · rw [hcell] at hdiff
      cases hdiff
      exact over_ensureProper hok.cellVal hok.cellNever hop h
    · rw [hbdd.diff] at hdiff
      cases hdiff
      obtain ⟨b, hb, heq⟩ := hop _ h
      exact over_of_toSubtypeData hb heq.symm
  complement {c d1 d} h1 h kind hk := by
    rcases ops_of_codeKind hk with ⟨rfl, hcell⟩ | ⟨-, -, hc | ⟨rfl, hc⟩ | ⟨rfl, hc⟩ | ⟨rfl, hc⟩⟩
    · rw [hcell] at h
      exact over_ensureProper hok.cellVal hok.cellNever
        (fun r => over_bddSubtypeComplement (h1 _ hk)) h
    · rw [hc] at h
      obtain ⟨b, hb, heq⟩ := over_bddSubtypeComplement (h1 _ hk) h
      exact over_of_toSubtypeData hb heq.symm
    · rw [hc] at h
      exact over_bddSubtypeComplementIn (.bddAtom hok.readonly) (h1 _ hk) h
    · rw [hc] at h
      exact over_bddSubtypeComplementIn (.bddAtom hok.listMapping) (h1 _ hk) h
    · rw [hc] at h
      exact over_bddSubtypeComplementIn (.bddAtom hok.mappingObject) (h1 _ hk) h

end Ops

/-! ## Combinations -/

/-- A cell with content in `inner`, or another atom in `A`. -/
def CombinationAtom (A : Finset Atom) (inner : SemType → Prop) : AtomKind → Atom → Prop
  | .cell, a => ∀ c, cellAtomType a = some c → inner c.ty
  | _, a => a ∈ A

/-- A Boolean combination of atoms in `A`, with cells nested less than `r` deep; there
is only data at all if `r` is positive. -/
def Combination (A : Finset Atom) : Nat → SemType → Prop
  | 0, t => ∃ b, t = .bits b
  | r + 1, t => t.Over (DataOver (CombinationAtom A (Combination A r)))

/-- The constants of the operations, cells apart. -/
structure HasConstants (A : Finset Atom) : Prop where
  readonly : BDD_REC_ATOM_READONLY ∈ A
  listMapping : ATOM_LIST_MAPPING ∈ A
  mappingObject : ATOM_MAPPING_OBJECT ∈ A

theorem Combination.bits (A : Finset Atom) (b : BasicTypeBitSet) :
    ∀ r, Combination A r (.bits b)
  | 0 => ⟨b, rfl⟩
  | _ + 1 => over_bits _ b

theorem CombinationAtom.mono {A B : Finset Atom} (hA : A ⊆ B) {inner inner' : SemType → Prop}
    (hi : ∀ t, inner t → inner' t) : ∀ {kind : AtomKind} {a : Atom},
      CombinationAtom A inner kind a → CombinationAtom B inner' kind a
  | .cell, _, h => fun c hc => hi _ (h c hc)
  | .list, _, h => hA h
  | .mapping, _, h => hA h
  | .function, _, h => hA h

theorem DataOver.mono {ok ok' : AtomKind → Atom → Prop} (h : ∀ {kind a}, ok kind a → ok' kind a)
    {c : BasicTypeCode} {d : ProperSubtypeData} (hd : DataOver ok c d) : DataOver ok' c d :=
  fun kind hk b hb => (hd kind hk b hb).mono fun _ => h

theorem SemTypeOf.Over.mono {δ : Type} {valid valid' : BasicTypeCode → δ → Prop}
    (h : ∀ {c d}, valid c d → valid' c d) {t : SemTypeOf δ} (ht : t.Over valid) :
    t.Over valid' :=
  ⟨ht.wf, fun e he => h (ht.valid e he)⟩

/-- More atoms and deeper cells. -/
theorem Combination.mono {A B : Finset Atom} (hA : A ⊆ B) : ∀ {r s : Nat} {t : SemType},
    r ≤ s → Combination A r t → Combination B s t
  | 0, s, _, _, ⟨b, hb⟩ => by
    subst hb
    exact Combination.bits B b s
  | r + 1, s + 1, _, hrs, h =>
    SemTypeOf.Over.mono (fun hd => hd.mono fun ha => ha.mono hA fun _ ht =>
      Combination.mono hA (Nat.le_of_succ_le_succ hrs) ht) h

section Operations

variable [BddIdentity] {A : Finset Atom} {r : Nat} {t1 t2 t : SemType}

omit [BddIdentity] in
theorem HasConstants.allows (hA : HasConstants A) (r : Nat) :
    AllowsConstants (CombinationAtom A (Combination A r)) where
  cellVal c hc := by
    cases hc
    exact Combination.bits A _ r
  cellNever c hc := by
    cases hc
    exact Combination.bits A _ r
  readonly := hA.readonly
  listMapping := hA.listMapping
  mappingObject := hA.mappingObject

theorem Combination.union (hA : HasConstants A) (h1 : Combination A r t1)
    (h2 : Combination A r t2) (h : Types.union ops t1 t2 = some t) : Combination A r t := by
  cases r with
  | zero =>
    obtain ⟨b1, rfl⟩ := h1
    obtain ⟨b2, rfl⟩ := h2
    cases h
    exact Combination.bits A _ 0
  | succ r => exact SemTypeOf.Over.union (closedOps_dataOver (hA.allows r)) h1 h2 h

theorem Combination.intersect (hA : HasConstants A) (h1 : Combination A r t1)
    (h2 : Combination A r t2) (h : Types.intersect ops t1 t2 = some t) : Combination A r t := by
  cases r with
  | zero =>
    obtain ⟨b1, rfl⟩ := h1
    obtain ⟨b2, rfl⟩ := h2
    cases h
    exact Combination.bits A _ 0
  | succ r => exact SemTypeOf.Over.intersect (closedOps_dataOver (hA.allows r)) h1 h2 h

theorem Combination.diff (hA : HasConstants A) (h1 : Combination A r t1)
    (h2 : Combination A r t2) (h : Types.diff ops t1 t2 = some t) : Combination A r t := by
  cases r with
  | zero =>
    obtain ⟨b1, rfl⟩ := h1
    obtain ⟨b2, rfl⟩ := h2
    cases h
    exact Combination.bits A _ 0
  | succ r => exact SemTypeOf.Over.diff (closedOps_dataOver (hA.allows r)) h1 h2 h

end Operations

/-! ## Semtypes with one entry -/

theorem entries_basicSubtype {δ : Type} (c : BasicTypeCode) (d : δ) :
    (basicSubtype c d).entries = [(c, d)] := by
  have hs : SortedCodes [(c, d)] := List.pairwise_singleton _ _
  show (codesOf (createComplexSemType 0 [(c, d)]).some).zip [d] = [(c, d)]
  rw [codesOf_createComplexSemType 0 hs]
  rfl

theorem over_basicSubtype {δ : Type} {valid : BasicTypeCode → δ → Prop} {c : BasicTypeCode}
    {d : δ} (h : valid c d) : (basicSubtype c d).Over valid := by
  have hs : SortedCodes [(c, d)] := List.pairwise_singleton _ _
  refine ⟨createComplexSemType_wf hs fun e _ => by simp, fun e he => ?_⟩
  rw [entries_basicSubtype, List.mem_singleton] at he
  cases he
  exact h

/-- The semtype of one atom. -/
theorem Combination.atom {A : Finset Atom} {r : Nat} {c : BasicTypeCode} {a : Atom}
    (h : ∀ kind, codeKind c = some kind → CombinationAtom A (Combination A r) kind a) :
    Combination A (r + 1) (atomSemType c a) := by
  refine over_basicSubtype fun kind hk b hb => ?_
  cases hb
  exact .bddAtom (h kind hk)

end Nballerina.Types
