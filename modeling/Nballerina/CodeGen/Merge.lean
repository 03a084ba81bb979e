import Nballerina.CodeGen.Machine
import Mathlib.Data.List.Find
import Mathlib.Data.List.Nodup

/-!
# Merging types is sound

When several branches lead to a block, `codeGenTypeMerge` looks for the variables that every branch
narrows and gives each a register of the union of the types, which a `typeMerge` instruction sets
to the register of the branch that was taken. `codeGenTypeMerge_run`: after these instructions the
bindings it returns agree with the variables, if the bindings of the branch did.
-/

namespace Nballerina.CodeGen

open Nballerina.Lib

variable {T V : Type}

/-! ## Down to the limit -/

/-- A chain that has been extended is walked down to where it was. -/
theorem bindingsUpTo_append [DecidableEq T] (limit : BindingChain T) (occs : List (Binding T)) :
    bindingsUpTo limit (occs.map .binding ++ limit) = some occs := by
  induction occs with
  | nil =>
    cases limit with
    | nil => rfl
    | cons head prev =>
      cases head with
      | func => exact if_pos rfl
      | binding b => exact if_pos rfl
  | cons b occs ih =>
    have hne : ¬ (Head.binding b :: (occs.map .binding ++ limit) = limit) := by
      intro h
      have hlen := congrArg List.length h
      rw [List.length_cons, List.length_append] at hlen
      omega
    show (if Head.binding b :: (occs.map .binding ++ limit) = limit then some []
      else (bindingsUpTo limit (occs.map .binding ++ limit)).map (b :: ·)) = _
    rw [if_neg hne, ih]
    rfl

theorem lookup_append (name : String) (limit : BindingChain T) (occs : List (Binding T)) :
    lookup name (occs.map .binding ++ limit) =
      (occs.find? fun b => b.name = name).or (lookup name limit) := by
  induction occs with
  | nil => rfl
  | cons b occs ih =>
    show lookup name (.binding b :: (occs.map .binding ++ limit)) = _
    rw [lookup_binding, List.find?_cons, ih]
    by_cases hname : b.name = name
    · rw [if_pos hname, decide_eq_true hname]
      rfl
    · rw [if_neg hname, decide_eq_false hname]

/-! ## Groups -/

/-- The number that a binding is grouped by. -/
def Binding.key (b : Binding T) : Nat := b.unnarrow.reg.number

def MergeOriginGroup.key (group : MergeOriginGroup T) : Nat := group.unnarrowed.reg.number

variable [TypeOps T V]

/-- A group after the origins `done`, which are given with their occurrences: an operand is the
innermost occurrence at its origin, and there is at most one for each origin. -/
structure GroupOk (done : List (Nat × List (Binding T))) (group : MergeOriginGroup T) : Prop where
  labels : (group.operands.map Prod.fst).Sublist (done.map Prod.fst)
  operand : ∀ p ∈ group.operands, ∃ occs b, (p.1, occs) ∈ done ∧
    occs.find? (fun b => b.key = group.key) = some b ∧ p.2 = b.reg
  union : ∀ p ∈ group.operands, ∀ v, contains p.2.semType v = true →
    contains group.union v = true
  unnarrowed : ∃ p ∈ done, ∃ b ∈ p.2, b.unnarrow = group.unnarrowed

theorem GroupOk.append {done : List (Nat × List (Binding T))} {group : MergeOriginGroup T}
    (h : GroupOk done group) (origin : Nat × List (Binding T)) :
    GroupOk (done ++ [origin]) group := by
  refine ⟨?_, fun p hp => ?_, h.union, ?_⟩
  · rw [List.map_append]
    exact h.labels.trans (List.sublist_append_left ..)
  · obtain ⟨occs, b, hmem, hrest⟩ := h.operand p hp
    exact ⟨occs, b, List.mem_append_left _ hmem, hrest⟩
  · obtain ⟨p, hp, hrest⟩ := h.unnarrowed
    exact ⟨p, List.mem_append_left _ hp, hrest⟩

variable {done : List (Nat × List (Binding T))} {label : Nat} {occs : List (Binding T)}
  {b : Binding T} {groups : List (MergeOriginGroup T)}

/-- The first occurrence makes a group. -/
theorem groupOk_new (hb : b ∈ occs) (hfirst : occs.find? (fun c => c.key = b.key) = some b) :
    GroupOk (done ++ [(label, occs)]) ⟨b.unnarrow, b.reg.semType, [(label, b.reg)]⟩ := by
  have hmem : (label, occs) ∈ done ++ [(label, occs)] :=
    List.mem_append_right _ (List.mem_singleton.mpr rfl)
  refine ⟨?_, fun p hp => ?_, fun p hp v hv => ?_, (label, occs), hmem, b, hb, rfl⟩
  · exact List.singleton_sublist.mpr (List.mem_map_of_mem hmem)
  · rw [List.mem_singleton.mp hp]
    exact ⟨occs, b, hmem, hfirst, rfl⟩
  · rw [List.mem_singleton.mp hp] at hv
    exact hv

variable [Values V] [LawfulTypes T]

/-- The innermost occurrence of a variable joins its group. -/
theorem groupOk_join {group : MergeOriginGroup T} (h : GroupOk done group)
    (hkey : group.key = b.key) (hfirst : occs.find? (fun c => c.key = b.key) = some b) :
    GroupOk (done ++ [(label, occs)])
      { group with
        union := union group.union b.reg.semType
        operands := group.operands ++ [(label, b.reg)] } := by
  have happend := h.append (label, occs)
  refine ⟨?_, fun p hp => ?_, fun p hp v hv => ?_, happend.unnarrowed⟩
  · rw [List.map_append, List.map_append]
    exact h.labels.append (List.Sublist.refl _)
  · rcases List.mem_append.mp hp with hp | hp
    · exact happend.operand p hp
    · rw [List.mem_singleton.mp hp]
      refine ⟨occs, b, List.mem_append_right _ (List.mem_singleton.mpr rfl), ?_, rfl⟩
      show occs.find? (fun c => c.key = group.key) = some b
      rw [hkey]
      exact hfirst
  · show contains (union group.union b.reg.semType) v = true
    rw [LawfulTypes.contains_union, Bool.or_eq_true]
    rcases List.mem_append.mp hp with hp | hp
    · exact .inl (h.union p hp v hv)
    · rw [List.mem_singleton.mp hp] at hv
      exact .inr hv

/-- While an origin is walked: the groups of the variables seen have its operand, the others not
yet. -/
def GroupsOk (done : List (Nat × List (Binding T))) (origin : Nat × List (Binding T))
    (added : List Nat) (groups : List (MergeOriginGroup T)) : Prop :=
  ∀ group ∈ groups, (group.key ∈ added → GroupOk (done ++ [origin]) group) ∧
    (group.key ∉ added → GroupOk done group)

theorem groupsOk_addToGroup {added : List Nat} (h : GroupsOk done (label, occs) added groups)
    (hb : b ∈ occs) (hfirst : occs.find? (fun c => c.key = b.key) = some b)
    (hnew : b.key ∉ added) :
    GroupsOk done (label, occs) (b.key :: added) (addToGroup label b groups) := by
  induction groups with
  | nil =>
    intro group hgroup
    rw [List.mem_singleton.mp hgroup]
    exact ⟨fun _ => groupOk_new hb hfirst, fun hnot => absurd (.head _ ..) hnot⟩
  | cons g gs ih =>
    have hrest : GroupsOk done (label, occs) added gs :=
      fun group hgroup => h group (.tail _ hgroup)
    have hg := h g (.head _ ..)
    unfold addToGroup
    split
    next hkey =>
      have hkey' : g.key = b.key := hkey
      intro group hgroup
      rcases List.mem_cons.mp hgroup with rfl | hgroup
      · have hok : GroupOk done g := hg.2 (hkey' ▸ hnew)
        exact ⟨fun _ => groupOk_join hok hkey' hfirst,
          fun hnot => absurd (hkey' ▸ (.head _) ..) hnot⟩
      · obtain ⟨hin, hout⟩ := hrest group hgroup
        refine ⟨fun hmem => ?_, fun hnot => hout fun hmem => hnot (.tail _ hmem)⟩
        by_cases hmem' : group.key ∈ added
        · exact hin hmem'
        · exact (hout hmem').append _
    next hkey =>
      have hkey' : g.key ≠ b.key := hkey
      intro group hgroup
      rcases List.mem_cons.mp hgroup with rfl | hgroup
      · refine ⟨fun hmem => hg.1 ?_, fun hnot => hg.2 fun hmem => hnot (.tail _ hmem)⟩
        exact (List.mem_cons.mp hmem).resolve_left hkey'
      · exact ih hrest group hgroup

theorem groupOk_groupOrigin {bs : List (Binding T)} :
    ∀ {pre : List (Binding T)} {added : List Nat} {groups : List (MergeOriginGroup T)},
      occs = pre ++ bs → (∀ c ∈ bs, c.isOccurrence = true) → (∀ c ∈ pre, c.key ∈ added) →
      GroupsOk done (label, occs) added groups →
      ∀ group ∈ groupOrigin label bs added groups, GroupOk (done ++ [(label, occs)]) group := by
  induction bs with
  | nil =>
    intro pre added groups _ _ _ h group hgroup
    by_cases hmem : group.key ∈ added
    · exact (h group hgroup).1 hmem
    · exact ((h group hgroup).2 hmem).append _
  | cons b bs ih =>
    intro pre added groups heq hocc hpre h
    have heq' : occs = (pre ++ [b]) ++ bs := by rw [heq, List.append_assoc]; rfl
    have hocc' : ∀ c ∈ bs, c.isOccurrence = true := fun c hc => hocc c (.tail _ hc)
    unfold groupOrigin
    split
    next hnew =>
      have hfirst : occs.find? (fun c => c.key = b.key) = some b := by
        rw [heq, List.find?_append, List.find?_eq_none.mpr, List.find?_cons, decide_eq_true rfl]
        · rfl
        · intro c hc
          rw [decide_eq_true_eq]
          intro hkey
          exact hnew.2 (show b.key ∈ added from hkey ▸ hpre c hc)
      have hb : b ∈ occs := heq ▸ List.mem_append_right _ (.head _ ..)
      refine ih heq' hocc' (fun c hc => ?_) (groupsOk_addToGroup h hb hfirst hnew.2)
      rcases List.mem_append.mp hc with hc | hc
      · exact .tail _ (hpre c hc)
      · rw [List.mem_singleton.mp hc]
        exact .head _ ..
    next hold =>
      -- `b` is an occurrence, so that its variable has been seen
      have hadded : b.key ∈ added := by
        by_contra hnot
        exact hold ⟨hocc b (.head _ ..), hnot⟩
      refine ih heq' hocc' (fun c hc => ?_) h
      rcases List.mem_append.mp hc with hc | hc
      · exact hpre c hc
      · rw [List.mem_singleton.mp hc]
        exact hadded

omit [TypeOps T V] [Values V] [LawfulTypes T] in
theorem lookup_of_mem {bindings : BindingChain T} {b : Binding T} (h : .binding b ∈ bindings) :
    ∃ b', lookup b.name bindings = some b' := by
  induction bindings with
  | nil => cases h
  | cons head prev ih =>
    cases head with
    | func =>
      rw [lookup_func]
      exact ih ((List.mem_cons.mp h).resolve_left (fun heq => by cases heq))
    | binding b' =>
      rw [lookup_binding]
      split
      next => exact ⟨b', rfl⟩
      next hname =>
        refine ih ((List.mem_cons.mp h).resolve_left fun heq => hname ?_)
        cases heq
        rfl

/-- The groups of a list of origins that extend the limit. -/
theorem groupOriginsByUnnarrowed_ok [DecidableEq T] {limit : BindingChain T}
    (origins : List (TypeMergerOrigin T)) :
    ∀ (before : List (Nat × List (Binding T))) (groups : List (MergeOriginGroup T)),
      (∀ o ∈ origins, Over limit o.bindings) → (∀ group ∈ groups, GroupOk before group) →
      ∃ done groups', groupOriginsByUnnarrowed limit origins groups = some groups' ∧
        done.map Prod.fst = origins.map (·.label) ∧
        (∀ p ∈ done, ∃ o ∈ origins, p.1 = o.label ∧ o.bindings = p.2.map .binding ++ limit ∧
          ∀ b ∈ p.2, Declared limit b) ∧
        ∀ group ∈ groups', GroupOk (before ++ done) group := by
  induction origins with
  | nil =>
    intro before groups _ hgroups
    refine ⟨[], groups, rfl, rfl, fun p hp => absurd hp List.not_mem_nil, fun group hgroup => ?_⟩
    rw [List.append_nil]
    exact hgroups group hgroup
  | cons o origins ih =>
    intro before groups horigins hgroups
    obtain ⟨occs, hchain, hoccs⟩ := (horigins o (.head _ ..)).occurrences
    have hocc : ∀ b ∈ occs, b.isOccurrence = true := fun b hb => (hoccs b hb).1
    have hstart : GroupsOk before (o.label, occs) [] groups :=
      fun group hgroup => ⟨fun hmem => absurd hmem List.not_mem_nil, fun _ => hgroups group hgroup⟩
    have hone := groupOk_groupOrigin rfl hocc (fun c hc => absurd hc List.not_mem_nil) hstart
    obtain ⟨done, groups', hrun, hlabels, hdone, hok⟩ :=
      ih _ _ (fun o' ho' => horigins o' (.tail _ ho')) hone
    refine ⟨(o.label, occs) :: done, groups', ?_, ?_, fun p hp => ?_, fun group hgroup => ?_⟩
    · unfold groupOriginsByUnnarrowed
      rw [hchain, bindingsUpTo_append]
      exact hrun
    · rw [List.map_cons, List.map_cons, hlabels]
    · rcases List.mem_cons.mp hp with rfl | hp
      · exact ⟨o, .head _ .., rfl, hchain, fun b hb => (hoccs b hb).2⟩
      · obtain ⟨o', ho', hrest⟩ := hdone p hp
        exact ⟨o', .tail _ ho', hrest⟩
    · have hgroup' := hok group hgroup
      rw [List.append_assoc] at hgroup'
      exact hgroup'

section Group

omit [Values V] [LawfulTypes T]

variable {limit : BindingChain T} {origins : List (TypeMergerOrigin T)}
  {group : MergeOriginGroup T}

omit [TypeOps T V] in
/-- Names and numbers say the same about bindings that are declared in the limit. -/
theorem name_eq_iff_key_eq (hproper : Proper limit) {b c : Binding T} (hb : Declared limit b)
    (hc : Declared limit c) : c.name = b.name ↔ c.key = b.key := by
  obtain ⟨b0, hb0, hbname, hbun⟩ := hb
  obtain ⟨c0, hc0, hcname, hcun⟩ := hc
  refine ⟨fun hname => ?_, fun hkey => ?_⟩
  · have hun := hproper.name_unnarrow c0 b0 hc0 hb0 (hcname.trans (hname.trans hbname.symm))
    unfold Binding.key
    rw [← hcun, ← hbun, hun]
  · have hun := hproper.unnarrow_eq c0 b0 hc0 hb0 (by rw [hcun, hbun]; exact hkey)
    rw [← hcname, ← hbname, ← hproper.name_eq c0 hc0, ← hproper.name_eq b0 hb0, hun]

/-- The variable of a group is declared in the limit. -/
theorem GroupOk.lookup_limit (h : GroupOk done group) (hproper : Proper limit)
    (hdone : ∀ p ∈ done, ∀ b ∈ p.2, Declared limit b) :
    ∃ b, lookup group.unnarrowed.name limit = some b ∧ b.unnarrow = group.unnarrowed := by
  obtain ⟨p, hp, b, hb, hun⟩ := h.unnarrowed
  obtain ⟨b0, hb0, _, hun0⟩ := hdone p hp b hb
  have hname : group.unnarrowed.name = b0.name := by
    rw [← hun, ← hun0, hproper.name_eq b0 hb0]
  obtain ⟨b', hb'⟩ := lookup_of_mem hb0
  refine ⟨b', hname ▸ hb', ?_⟩
  have hmem := mem_of_lookup hb'
  rw [hproper.name_unnarrow b' b0 hmem.1 hb0 hmem.2, hun0, hun]

/-- A group that every origin is in has an operand with the value of the variable. -/
theorem GroupOk.value (h : GroupOk done group) (hproper : Proper limit)
    (hlabels : done.map Prod.fst = origins.map (·.label))
    (hdone : ∀ p ∈ done, ∃ o ∈ origins, p.1 = o.label ∧ o.bindings = p.2.map .binding ++ limit ∧
      ∀ b ∈ p.2, Declared limit b)
    (hnodup : (origins.map (·.label)).Nodup) (hfull : origins.length ≤ group.operands.length)
    {o : TypeMergerOrigin T} (ho : o ∈ origins) {m : Machine V} {ρ : String → Option V}
    (hpred : m.pred = o.label) (hagree : Agree o.bindings m ρ) :
    ∃ p v, group.operands.find? (fun p => p.1 = m.pred) = some p ∧
      ρ group.unnarrowed.name = some v ∧ m.regs p.2.number = v ∧ contains group.union v = true := by
  have hall : group.operands.map Prod.fst = done.map Prod.fst := by
    refine h.labels.eq_of_length_le ?_
    rw [hlabels, List.length_map, List.length_map]
    exact hfull
  have hmem : m.pred ∈ group.operands.map Prod.fst := by
    rw [hall, hlabels, hpred]
    exact List.mem_map_of_mem ho
  obtain ⟨q, hq, hqlabel⟩ := List.mem_map.mp hmem
  have hsome : (group.operands.find? fun p => p.1 = m.pred).isSome :=
    List.find?_isSome.mpr ⟨q, hq, decide_eq_true hqlabel⟩
  obtain ⟨p, hp⟩ := Option.isSome_iff_exists.mp hsome
  have hpmem : p ∈ group.operands := List.mem_of_find?_eq_some hp
  have hplabel : p.1 = m.pred := by simpa using List.find?_some hp
  obtain ⟨occs, b, hoccs, hfirst, hreg⟩ := h.operand p hpmem
  obtain ⟨o', ho', holabel, hchain, hdecl⟩ := hdone _ hoccs
  have heq : o' = o := List.inj_on_of_nodup_map hnodup ho' ho
    (holabel.symm.trans (hplabel.trans hpred))
  rw [heq] at hchain
  have hb : b ∈ occs := List.mem_of_find?_eq_some hfirst
  have hkey : b.key = group.key := by simpa using List.find?_some hfirst
  have hlookup : lookup b.name o.bindings = some b := by
    have hcongr : occs.find? (fun c => c.name = b.name) = occs.find? (fun c => c.key = group.key) :=
      List.find?_congr fun c hc => by
        rw [← hkey]
        exact decide_eq_decide.mpr (name_eq_iff_key_eq hproper (hdecl b hb) (hdecl c hc))
    rw [hchain, lookup_append, hcongr, hfirst]
    rfl
  obtain ⟨v, hv, hholds⟩ := hagree.bound _ _ hlookup
  have hname : group.unnarrowed.name = b.name := by
    obtain ⟨p1, hp1, b1, hb1, hun1⟩ := h.unnarrowed
    obtain ⟨_, _, _, _, hdecl1⟩ := hdone p1 hp1
    have hkey1 : b1.key = b.key := by
      rw [hkey]
      unfold Binding.key MergeOriginGroup.key
      rw [hun1]
    have hname1 := (name_eq_iff_key_eq hproper (hdecl b hb) (hdecl1 b1 hb1)).mpr hkey1
    obtain ⟨c1, hc1, hcname, hcun⟩ := hdecl1 b1 hb1
    rw [← hun1, ← hcun, hproper.name_eq c1 hc1, hcname, hname1]
  refine ⟨p, v, hp, hname ▸ hv, ?_, h.union p hpmem v ?_⟩
  · rw [hreg]
    exact hholds.reg
  · rw [hreg]
    exact hholds.semType

end Group

/-! ## The code -/

/-- What is emitted and returned for the branches `origins` into `block`, when the bindings
`start` hold before. -/
structure MergeOk (limit : BindingChain T) (origins : List (TypeMergerOrigin T)) (block : Nat)
    (start : BindingChain T) (g g' : Gen T V) (bindings : BindingChain T) : Prop where
  grows : Grows (· = block) g g'
  count : g'.blockCount = g.blockCount
  onLimit : Over limit bindings
  fits : Fits g'.registers.length bindings
  code : ∃ insns, g'.blocks block = g.blocks block ++ insns ∧
    ∀ (m : Machine V) (ρ : String → Option V), Agree start m ρ →
      (∃ o ∈ origins, m.pred = o.label ∧ Agree o.bindings m ρ) →
      ∃ m', runInsns exec insns m = some (.next m') ∧ Agree bindings m' ρ ∧
        Keeps g.registers.length m m'

omit [LawfulTypes T] in
/-- Nothing to do. -/
theorem mergeOk_refl {limit start : BindingChain T} (origins : List (TypeMergerOrigin T))
    (block : Nat) {g : Gen T V} (hover : Over limit start) (hfits : Fits g.registers.length start) :
    MergeOk limit origins block start g g start where
  grows := Grows.refl _ g
  count := rfl
  onLimit := hover
  fits := hfits
  code := ⟨[], (List.append_nil _).symm, fun m _ hagree _ => ⟨m, rfl, hagree, Keeps.refl _ m⟩⟩

omit [LawfulTypes T] in
/-- A register for the union of a group, and the rest. -/
theorem mergeOk_cons {limit start bindings : BindingChain T} {origins : List (TypeMergerOrigin T)}
    {block : Nat} {g g' : Gen T V} {group : MergeOriginGroup T} {b : Binding T}
    (hblock : block < g.blockCount) (hfits : Fits g.registers.length start)
    (horigins : ∀ o ∈ origins, Fits g.registers.length o.bindings)
    (hlookup : lookup group.unnarrowed.name start = some b) (hun : b.unnarrow = group.unnarrowed)
    (hvalue : ∀ (m : Machine V) (ρ : String → Option V),
      (∃ o ∈ origins, m.pred = o.label ∧ Agree o.bindings m ρ) →
      ∃ p v, group.operands.find? (fun p => p.1 = m.pred) = some p ∧
        ρ group.unnarrowed.name = some v ∧ m.regs p.2.number = v ∧ contains group.union v = true)
    (h : MergeOk limit origins block
      (narrow start (.decl group.unnarrowed) ⟨g.registers.length, group.union⟩)
      ((g.addRegister (.narrow ⟨g.registers.length, group.union⟩)).push block
        (.typeMerge ⟨g.registers.length, group.union⟩ group.operands)) g' bindings) :
    MergeOk limit origins block start g g' bindings := by
  have hgrows := (Grows.addRegister (· = block) g (.narrow ⟨g.registers.length, group.union⟩)).step
    (Grows.push (· = block) (g.addRegister _) rfl hblock
      (.typeMerge ⟨g.registers.length, group.union⟩ group.operands))
  obtain ⟨insns, hinsns, hrun⟩ := h.code
  refine ⟨hgrows.step h.grows, h.count, h.onLimit, h.fits,
    .typeMerge ⟨g.registers.length, group.union⟩ group.operands :: insns, ?_, ?_⟩
  · rw [hinsns]
    show pushInsn g.blocks block _ block ++ insns = _
    rw [pushInsn_self, List.append_assoc]
    rfl
  · intro m ρ hagree hpred
    obtain ⟨p, v, hfind, hv, hreg, htype⟩ := hvalue m ρ hpred
    obtain ⟨o, ho, hlabel, hoagree⟩ := hpred
    have hkeeps : Keeps g.registers.length m (m.set g.registers.length v) :=
      keeps_set (Nat.le_refl _) m v
    have hexec : exec (.typeMerge ⟨g.registers.length, group.union⟩ group.operands : Insn T V) m =
        some (.next (m.set g.registers.length v)) := by
      show Option.map (fun p => Step.next (m.set g.registers.length (m.regs p.2.number)))
        (group.operands.find? fun p => p.1 = m.pred) = _
      rw [hfind, Option.map_some, hreg]
    have hnarrow : Agree (narrow start (.decl group.unnarrowed) ⟨g.registers.length, group.union⟩)
        (m.set g.registers.length v) ρ :=
      agree_narrow (hagree.keeps hfits hkeeps.regs) hlookup hun hv (Function.update_self ..) htype
    obtain ⟨m', hm', hagree', hkeeps'⟩ := hrun _ ρ hnarrow
      ⟨o, ho, hlabel, hoagree.keeps (horigins o ho) hkeeps.regs⟩
    refine ⟨m', ?_, hagree', hkeeps.trans hkeeps' hgrows.length_le⟩
    rw [runInsns_next hexec]
    exact hm'

section Merge

variable [DecidableEq T] {limit : BindingChain T} {origins : List (TypeMergerOrigin T)}
  {block : Nat}

omit [LawfulTypes T] in
theorem codeGenMergeGroups_ok (hproper : Proper limit)
    (hlabels : done.map Prod.fst = origins.map (·.label))
    (hdone : ∀ p ∈ done, ∃ o ∈ origins, p.1 = o.label ∧ o.bindings = p.2.map .binding ++ limit ∧
      ∀ b ∈ p.2, Declared limit b)
    (hnodup : (origins.map (·.label)).Nodup) (groups : List (MergeOriginGroup T)) :
    ∀ {start : BindingChain T} {g : Gen T V}, block < g.blockCount → Over limit start →
      Fits g.registers.length start → (∀ o ∈ origins, Fits g.registers.length o.bindings) →
      (∀ group ∈ groups, GroupOk done group) →
      After (codeGenMergeGroups block limit origins.length groups start) g
        (fun bindings g' => MergeOk limit origins block start g g' bindings) (fun _ _ => False) := by
  induction groups with
  | nil =>
    intro start g _ hover hfits _ _
    exact mergeOk_refl origins block hover hfits
  | cons group groups ih =>
    intro start g hblock hover hfits horigins hgroups
    have hgroup := hgroups group (.head _ ..)
    have hrest : ∀ group ∈ groups, GroupOk done group :=
      fun group' h' => hgroups group' (.tail _ h')
    unfold codeGenMergeGroups
    split
    next => exact ih hblock hover hfits horigins hrest
    next hfull =>
      obtain ⟨b, hb, hun⟩ := hgroup.lookup_limit hproper fun p hp =>
        (hdone p hp).elim fun _ h => h.2.2.2
      rw [after_bind, after_get]
      split
      next hnone =>
        rw [← bindingsLookup_map g.isClosure _ _ false, hnone] at hb
        cases hb
      next existing _ _ =>
        split
        next => exact ih hblock hover hfits horigins hrest
        next =>
          obtain ⟨b', hb', hun'⟩ := hover.lookup_of_limit hb
          refine After.imp (ih (g := (g.addRegister _).push block _) hblock
            (hover.narrow _ hb' (hun'.trans hun)) ?_ ?_ hrest)
            (fun bindings g' h => mergeOk_cons hblock hfits horigins hb' (hun'.trans hun) ?_ h)
            (fun _ _ h => h)
          · exact hfits.narrow _ (hfits.unnarrowed_of_lookup hb' (hun'.trans hun)) (by simp)
          · intro o ho
            exact (horigins o ho).mono (by simp)
          · intro m ρ hpred
            obtain ⟨o, ho, hlabel, hagree⟩ := hpred
            exact hgroup.value hproper hlabels hdone hnodup (Nat.le_of_not_lt hfull) ho hlabel hagree

/-- The branches that a merge is made for. -/
structure Branches (limit : BindingChain T) (n : Nat) (origins : List (TypeMergerOrigin T)) :
    Prop where
  onLimit : ∀ o ∈ origins, Over limit o.bindings
  fits : ∀ o ∈ origins, Fits n o.bindings
  nodup : (origins.map (·.label)).Nodup

/-- The bindings after a merge hold on every branch that was recorded. -/
theorem codeGenTypeMerge_ok (hproper : Proper limit) {g : Gen T V} (hblock : block < g.blockCount)
    (hfits : Fits g.registers.length limit) (h : Branches limit g.registers.length origins) :
    After (codeGenTypeMerge block limit origins) g
      (fun bindings g' => MergeOk limit origins block limit g g' bindings)
      (fun _ _ => False) := by
  unfold codeGenTypeMerge
  split
  next => exact mergeOk_refl [] block .refl hfits
  next o =>
    have ho : o ∈ [o] := List.mem_singleton.mpr rfl
    refine ⟨Grows.refl _ g, rfl, h.onLimit o ho, h.fits o ho, [], (List.append_nil _).symm,
      fun m ρ _ hpred => ?_⟩
    obtain ⟨o', ho', _, hagree⟩ := hpred
    rw [List.mem_singleton.mp ho'] at hagree
    exact ⟨m, rfl, hagree, Keeps.refl _ m⟩
  next =>
    obtain ⟨done, groups, hgroups, hlabels, hdone, hok⟩ :=
      groupOriginsByUnnarrowed_ok origins [] [] h.onLimit
        (fun _ hg => absurd hg List.not_mem_nil)
    rw [hgroups]
    exact codeGenMergeGroups_ok hproper hlabels hdone h.nodup groups hblock .refl hfits h.fits hok

end Merge

end Nballerina.CodeGen
