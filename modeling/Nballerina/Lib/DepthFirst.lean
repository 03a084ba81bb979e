import Mathlib.Logic.Relation
import Mathlib.Data.List.Nodup
import Mathlib.Data.List.Perm.Subperm

/-!
# Depth-first order in a directed graph

A graph is given by the list of successors of each vertex, in the order in which a depth-first
search follows them; a successor may be there more than once.

`FirstPath next u v p` says that `p` is the path by which a search from `u` comes to `v`: each
vertex on it is followed by its first successor from which `v` can be reached. In a graph without
cycles there is at most one (`FirstPath.unique`), and a search that has finished everything it
found before is on it (`OnStack.firstPath`).

`Finished next done` is the order in which a search finishes: every successor of a vertex comes
before it, which excludes cycles (`Finished.not_cycle`). `edgesInto` counts the edges from a list of
vertices into a vertex.
-/

namespace Nballerina.Lib

open Relation

variable {α : Type} {next : α → List α}

/-- There is an edge from `u` to `v`. -/
def Edge (next : α → List α) (u v : α) : Prop := v ∈ next u

/-- No vertex leads back to itself. -/
def Acyclic (next : α → List α) : Prop := ∀ v, ¬ TransGen (Edge next) v v

/-- The path of a depth-first search from `u` to `v`. -/
inductive FirstPath (next : α → List α) : α → α → List α → Prop where
  | here (v : α) : FirstPath next v v [v]
  | step {u c v : α} {before after p : List α} : next u = before ++ c :: after →
      (∀ x ∈ before, ¬ ReflTransGen (Edge next) x v) → FirstPath next c v p →
      FirstPath next u v (u :: p)

theorem FirstPath.reach {u v : α} {p : List α} (h : FirstPath next u v p) :
    ReflTransGen (Edge next) u v := by
  induction h with
  | here v => exact ReflTransGen.refl
  | step hnext _ _ ih =>
    refine ReflTransGen.head ?_ ih
    unfold Edge
    rw [hnext]
    exact List.mem_append_right _ (.head _ ..)

/-- Every vertex on the path can be reached from its start. -/
theorem FirstPath.reach_of_mem {u v w : α} {p : List α} (h : FirstPath next u v p)
    (hw : w ∈ p) : ReflTransGen (Edge next) u w := by
  induction h with
  | here v =>
    rw [List.mem_singleton.mp hw]
  | step hnext _ _ ih =>
    rcases List.mem_cons.mp hw with rfl | hw
    · exact ReflTransGen.refl
    · refine ReflTransGen.head ?_ (ih hw)
      unfold Edge
      rw [hnext]
      exact List.mem_append_right _ (.head _ ..)

/-- The first successor that reaches `v` is the only one. -/
theorem first_split_unique {P : α → Prop} : ∀ {l before before' after after' : List α} {c c' : α},
    l = before ++ c :: after → l = before' ++ c' :: after' → (∀ x ∈ before, ¬ P x) → P c →
      (∀ x ∈ before', ¬ P x) → P c' → c = c'
  | l, [], [], after, after', c, c', h, h', _, _, _, _ => by
    rw [h] at h'
    exact (List.cons.inj h').1
  | l, [], b' :: before', after, after', c, c', h, h', _, hc, hb', _ => by
    rw [h] at h'
    have heq := (List.cons.inj h').1
    exact absurd hc (heq ▸ hb' b' (.head _ ..))
  | l, b :: before, [], after, after', c, c', h, h', hb, _, _, hc' => by
    rw [h] at h'
    have heq := (List.cons.inj h').1
    exact absurd hc' (heq ▸ hb b (.head _ ..))
  | l, b :: before, b' :: before', after, after', c, c', h, h', hb, hc, hb', hc' => by
    rw [h] at h'
    exact first_split_unique rfl (List.cons.inj h').2
      (fun x hx => hb x (.tail _ hx)) hc
      (fun x hx => hb' x (.tail _ hx)) hc'

theorem FirstPath.unique (hac : Acyclic next) {u v : α} {p q : List α}
    (hp : FirstPath next u v p) (hq : FirstPath next u v q) : p = q := by
  induction hp generalizing q with
  | here v =>
    cases hq with
    | here => rfl
    | step hnext _ hrest =>
      -- a step from `v` leads back to `v`
      refine absurd (TransGen.head' ?_ hrest.reach) (hac v)
      unfold Edge
      rw [hnext]
      exact List.mem_append_right _ (.head _ ..)
  | @step u c v before after p hnext hbefore hrest ih =>
    cases hq with
    | here =>
      refine absurd (TransGen.head' ?_ hrest.reach) (hac _)
      unfold Edge
      rw [hnext]
      exact List.mem_append_right _ (.head _ ..)
    | step hnext' hbefore' hrest' =>
      have hc := first_split_unique hnext hnext' hbefore hrest.reach hbefore' hrest'.reach
      subst hc
      rw [ih hrest']

/-! ## The stack of a search -/

/-- `p` is a path from `u` to `v` on which everything before the next vertex is in `done`. -/
inductive OnStack (next : α → List α) (done : α → Prop) : α → α → List α → Prop where
  | here (v : α) : OnStack next done v v [v]
  | step {u c v : α} {before after p : List α} : next u = before ++ c :: after →
      (∀ x ∈ before, done x) → OnStack next done c v p → OnStack next done u v (u :: p)

theorem OnStack.mono {done done' : α → Prop} (hsub : ∀ x, done x → done' x) {u v : α}
    {p : List α} (h : OnStack next done u v p) : OnStack next done' u v p := by
  induction h with
  | here v => exact OnStack.here v
  | step hnext hbefore _ ih =>
    exact OnStack.step hnext (fun x hx => hsub x (hbefore x hx)) ih

/-- One vertex deeper. -/
theorem OnStack.push {done : α → Prop} {u v c : α} {p before after : List α}
    (h : OnStack next done u v p) (hnext : next v = before ++ c :: after)
    (hbefore : ∀ x ∈ before, done x) : OnStack next done u c (p ++ [c]) := by
  induction h with
  | here v => exact OnStack.step hnext hbefore (OnStack.here c)
  | step hn hb _ ih => exact OnStack.step hn hb (ih hnext)

theorem OnStack.mem_last {done : α → Prop} {u v : α} {p : List α}
    (h : OnStack next done u v p) : v ∈ p := by
  induction h with
  | here v => exact List.mem_singleton_self v
  | step _ _ _ ih => exact .tail _ ih

/-- Every vertex on the stack reaches its end. -/
theorem OnStack.reach_last {done : α → Prop} {u v w : α} {p : List α}
    (h : OnStack next done u v p) (hw : w ∈ p) : ReflTransGen (Edge next) w v := by
  induction h generalizing w with
  | here v =>
    rw [List.mem_singleton.mp hw]
  | @step u c v before after p hnext _ hrest ih =>
    have hc : c ∈ p := by
      cases hrest with
      | here => exact List.mem_singleton_self _
      | step => exact .head _ ..
    have hedge : Edge next u c := by
      unfold Edge
      rw [hnext]
      exact List.mem_append_right _ (.head _ ..)
    rcases List.mem_cons.mp hw with rfl | hw
    · exact ReflTransGen.head hedge (ih hc)
    · exact ih hw

/-- What can be reached from a finished vertex is finished. -/
def Closed (next : α → List α) (done : α → Prop) : Prop := ∀ u, done u → ∀ v ∈ next u, done v

theorem Closed.reach {done : α → Prop} (h : Closed next done) {u v : α} (hu : done u)
    (huv : ReflTransGen (Edge next) u v) : done v := by
  induction huv with
  | refl => exact hu
  | tail _ hedge ih => exact h _ ih _ hedge

/-- A vertex that is not finished is found by its first path. -/
theorem OnStack.firstPath {done : α → Prop} (hclosed : Closed next done) {u v : α} {p : List α}
    (h : OnStack next done u v p) (hv : ¬ done v) : FirstPath next u v p := by
  induction h with
  | here v => exact FirstPath.here v
  | step hnext hbefore _ ih =>
    exact FirstPath.step hnext (fun x hx hreach => hv (hclosed.reach (hbefore x hx) hreach))
      (ih hv)

/-! ## The order of finishing -/

/-- Each vertex is there once, after all its successors. -/
inductive Finished (next : α → List α) : List α → Prop where
  | nil : Finished next []
  | snoc {done : List α} {v : α} : Finished next done → v ∉ done → (∀ w ∈ next v, w ∈ done) →
      Finished next (done ++ [v])

theorem Finished.nodup {done : List α} (h : Finished next done) : done.Nodup := by
  induction h with
  | nil => exact List.nodup_nil
  | snoc _ hv _ ih =>
    exact List.nodup_append.mpr ⟨ih, List.nodup_singleton _, fun x hx y hy hxy =>
      hv (List.mem_singleton.mp hy ▸ hxy ▸ hx)⟩

theorem Finished.closed {done : List α} (h : Finished next done) :
    Closed next fun v => v ∈ done := by
  induction h with
  | nil =>
    intro u hu
    cases hu
  | snoc _ _ hnext ih =>
    intro u hu v hv
    rcases List.mem_append.mp hu with hu | hu
    · exact List.mem_append_left _ (ih u hu v hv)
    · rw [List.mem_singleton.mp hu] at hv
      exact List.mem_append_left _ (hnext v hv)

/-- A finished vertex does not lead to itself. -/
theorem Finished.not_cycle {done : List α} (h : Finished next done) :
    ∀ v ∈ done, ¬ TransGen (Edge next) v v := by
  induction h with
  | nil =>
    intro v hv
    cases hv
  | @snoc done w hfin hw hnext ih =>
    intro v hv hcycle
    rcases List.mem_append.mp hv with hv | hv
    · exact ih v hv hcycle
    · rw [List.mem_singleton.mp hv] at hcycle
      obtain ⟨x, hwx, hxw⟩ := TransGen.head'_iff.mp hcycle
      exact hw (hfin.closed.reach (hnext x hwx) hxw)

/-- What passes from all the predecessors of a vertex to the vertex holds of every vertex. -/
theorem Finished.induction {done : List α} (h : Finished next done) {Q : α → Prop}
    (hQ : ∀ v ∈ done, (∀ u ∈ done, v ∈ next u → Q u) → Q v) : ∀ v ∈ done, Q v := by
  induction h with
  | nil =>
    intro v hv
    cases hv
  | @snoc done w hfin hw hnext ih =>
    -- nothing that is finished leads to the last vertex
    have hlast : Q w := by
      refine hQ w (List.mem_append_right _ (List.mem_singleton_self w)) fun u hu huw => ?_
      rcases List.mem_append.mp hu with hu | hu
      · exact absurd (hfin.closed u hu w huw) hw
      · rw [List.mem_singleton.mp hu] at huw
        exact absurd (hnext w huw) hw
    have hdone : ∀ v ∈ done, Q v := by
      refine ih fun v hv hpreds => hQ v (List.mem_append_left _ hv) fun u hu huv => ?_
      rcases List.mem_append.mp hu with hu | hu
      · exact hpreds u hu huv
      · rw [List.mem_singleton.mp hu]
        exact hlast
    intro v hv
    rcases List.mem_append.mp hv with hv | hv
    · exact hdone v hv
    · rw [List.mem_singleton.mp hv]
      exact hlast

/-! ## Counting edges -/

variable [DecidableEq α]

/-- The edges from the vertices in the list into `v`. -/
def edgesInto (next : α → List α) (sources : List α) (v : α) : Nat :=
  sources.foldr (fun u n => (next u).count v + n) 0

@[simp] theorem edgesInto_nil (next : α → List α) (v : α) : edgesInto next [] v = 0 := rfl

@[simp] theorem edgesInto_cons (u : α) (l : List α) (v : α) :
    edgesInto next (u :: l) v = (next u).count v + edgesInto next l v := rfl

@[simp] theorem edgesInto_append (l l' : List α) (v : α) :
    edgesInto next (l ++ l') v = edgesInto next l v + edgesInto next l' v := by
  induction l with
  | nil => simp
  | cons u l ih =>
    rw [List.cons_append, edgesInto_cons, edgesInto_cons, ih, Nat.add_assoc]

theorem edgesInto_eq_zero {l : List α} {v : α} (h : ∀ u ∈ l, v ∉ next u) :
    edgesInto next l v = 0 := by
  induction l with
  | nil => rfl
  | cons u l ih =>
    rw [edgesInto_cons, List.count_eq_zero.mpr (h u (.head _ ..)),
      ih fun w hw => h w (.tail _ hw)]

theorem edgesInto_perm {l l' : List α} (h : l.Perm l') (v : α) :
    edgesInto next l v = edgesInto next l' v := by
  induction h with
  | nil => rfl
  | cons u _ ih => rw [edgesInto_cons, edgesInto_cons, ih]
  | swap u w l =>
    rw [edgesInto_cons, edgesInto_cons, edgesInto_cons, edgesInto_cons]
    omega
  | trans _ _ ih ih' => exact ih.trans ih'

variable (next) in
theorem count_le_edgesInto {l : List α} {u : α} (hu : u ∈ l) (v : α) :
    (next u).count v ≤ edgesInto next l v := by
  obtain ⟨before, after, rfl⟩ := List.append_of_mem hu
  rw [edgesInto_append, edgesInto_cons]
  omega

variable (next) in
/-- No more edges from a part of the vertices; as many only if no edge comes from the others. -/
theorem edgesInto_sub {l l' : List α} (hnodup : l.Nodup) (hsub : l ⊆ l') (v : α) :
    edgesInto next l v ≤ edgesInto next l' v ∧
      (edgesInto next l v = edgesInto next l' v → ∀ u ∈ l', v ∈ next u → u ∈ l) := by
  obtain ⟨l0, hl0, hsublist⟩ := List.subperm_of_subset hnodup hsub
  obtain ⟨rest, hrest⟩ := hsublist.exists_perm_append
  have hperm : l'.Perm (l ++ rest) := hrest.trans (hl0.append_right rest)
  have hcount : edgesInto next l' v = edgesInto next l v + edgesInto next rest v := by
    rw [edgesInto_perm hperm, edgesInto_append]
  refine ⟨by omega, fun heq u hu huv => ?_⟩
  rcases List.mem_append.mp (hperm.mem_iff.mp hu) with hl | hrest
  · exact hl
  · have hpos : 0 < (next u).count v := List.count_pos_iff.mpr huv
    have hle := count_le_edgesInto next hrest v
    omega

/-- The vertices without an edge to `v` do not count. -/
theorem edgesInto_eq {l l' : List α} (hnodup : l.Nodup) (hnodup' : l'.Nodup) (hsub : l ⊆ l')
    {v : α} (hall : ∀ u ∈ l', v ∈ next u → u ∈ l) :
    edgesInto next l v = edgesInto next l' v := by
  obtain ⟨l0, hl0, hsublist⟩ := List.subperm_of_subset hnodup hsub
  obtain ⟨rest, hrest⟩ := hsublist.exists_perm_append
  have hperm : l'.Perm (l ++ rest) := hrest.trans (hl0.append_right rest)
  have hzero : edgesInto next rest v = 0 := by
    refine edgesInto_eq_zero fun u hu huv => ?_
    have hl := hall u (hperm.mem_iff.mpr (List.mem_append_right _ hu)) huv
    exact (List.nodup_append.mp (hperm.nodup_iff.mp hnodup')).2.2 u hl u hu rfl
  rw [edgesInto_perm hperm, edgesInto_append, hzero, Nat.add_zero]

end Nballerina.Lib
