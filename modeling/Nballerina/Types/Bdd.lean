import Nballerina.Types.SemType

/-!
# Binary decision diagrams (`bdd.bal`)

A `Bdd` stands for a disjunction of conjunctions of possibly negated atoms: the
paths from the root to a `true` leaf, where going left takes the atom of the
node positively, going right takes it negatively, and going through the middle
leaves it out. The atoms on every path are kept in increasing `atomCmp` order.

The source's functions recurse on results of each other (`bddCreate` calls
`bddUnion` on operands that were computed by `bddUnion`), so nothing here is
structural. What makes it terminate is that `bddUnion` never returns more nodes
than its operands have (`size_bddUnion_le`); every definition takes fuel, is
started with the total number of nodes, and comes with the equation the source
has (`bddUnion_node`, `bddIntersect_node`, ...).

`===` compares references, so on two nodes it can only say more than deep
equality knows; the model takes it as a parameter, `BddIdentity`.
-/

namespace Nballerina.Types

/-- What `===` answers for two `Bdd`s: some sub-relation of equality. -/
class BddIdentity where
  same : Bdd → Bdd → Bool
  eq_of_same : ∀ {b1 b2 : Bdd}, same b1 b2 = true → b1 = b2

/-- Identity taken as deep equality, as when every value is shared. -/
@[reducible] def BddIdentity.shared : BddIdentity where
  same b1 b2 := decide (b1 = b2)
  eq_of_same h := of_decide_eq_true h

/-- `atomCmp`: every `RecAtom` comes before every `TypeAtom`. -/
def atomCmp : Atom → Atom → Int
  | .recAtom i, .recAtom j => i - j
  | .recAtom _, .typeAtom _ _ => -1
  | .typeAtom _ _, .recAtom _ => 1
  | .typeAtom i _, .typeAtom j _ => i - j

def bddAtom (atom : Atom) : Bdd :=
  .node atom (.leaf true) (.leaf false) (.leaf false)

/-- Number of nodes. -/
def Bdd.size : Bdd → Nat
  | .leaf _ => 0
  | .node _ l m r => 1 + l.size + m.size + r.size

@[simp] theorem Bdd.size_leaf (b : Bool) : (Bdd.leaf b).size = 0 := rfl

@[simp] theorem Bdd.size_node (a : Atom) (l m r : Bdd) :
    (Bdd.node a l m r).size = 1 + l.size + m.size + r.size := rfl

section Operations

variable [BddIdentity]

/-- The body of `bddCreate`, over the union it normalises with. -/
def bddCreateBody (union : Bdd → Bdd → Bdd) (atom : Atom) (left middle right : Bdd) : Bdd :=
  if middle = .leaf true then .leaf true
  else if left = right then union left middle
  else .node atom left middle right

/-- The body of `bddUnion`, over its recursive calls. -/
def bddUnionBody (union : Bdd → Bdd → Bdd) (b1 b2 : Bdd) : Bdd :=
  if BddIdentity.same b1 b2 then b1
  else match b1, b2 with
    | .leaf b, b2 => if b then .leaf true else b2
    | b1, .leaf b => if b then .leaf true else b1
    | .node a1 l1 m1 r1, .node a2 l2 m2 r2 =>
      if atomCmp a1 a2 < 0 then
        bddCreateBody union a1 l1 (union m1 (.node a2 l2 m2 r2)) r1
      else if atomCmp a1 a2 > 0 then
        bddCreateBody union a2 l2 (union (.node a1 l1 m1 r1) m2) r2
      else
        bddCreateBody union a1 (union l1 l2) (union m1 m2) (union r1 r2)

def bddUnionAux : Nat → Bdd → Bdd → Bdd
  | 0 => fun b1 _ => b1
  | fuel + 1 => bddUnionBody (bddUnionAux fuel)

def bddUnion (b1 b2 : Bdd) : Bdd :=
  bddUnionAux (b1.size + b2.size + 1) b1 b2

def bddCreate (atom : Atom) (left middle right : Bdd) : Bdd :=
  bddCreateBody bddUnion atom left middle right

/-! ### The union needs no more fuel than its operands have nodes -/

omit [BddIdentity] in
theorem size_bddCreateBody_le {union : Bdd → Bdd → Bdd}
    (h : ∀ b1 b2, (union b1 b2).size ≤ b1.size + b2.size) (a : Atom) (l m r : Bdd) :
    (bddCreateBody union a l m r).size ≤ 1 + l.size + m.size + r.size := by
  unfold bddCreateBody
  split
  · simp
  · split
    · have := h l m
      omega
    · simp

theorem size_bddUnionBody_le {union : Bdd → Bdd → Bdd}
    (h : ∀ b1 b2, (union b1 b2).size ≤ b1.size + b2.size) (b1 b2 : Bdd) :
    (bddUnionBody union b1 b2).size ≤ b1.size + b2.size := by
  unfold bddUnionBody
  split
  · omega
  · match b1, b2 with
    | .leaf b, b2 => cases b <;> simp
    | .node .., .leaf b => cases b <;> simp
    | .node a1 l1 m1 r1, .node a2 l2 m2 r2 =>
      dsimp only
      simp only [Bdd.size_node]
      split
      · have h1 := size_bddCreateBody_le h a1 l1 (union m1 (.node a2 l2 m2 r2)) r1
        have h2 := h m1 (.node a2 l2 m2 r2)
        simp only [Bdd.size_node] at h2
        omega
      · split
        · have h1 := size_bddCreateBody_le h a2 l2 (union (.node a1 l1 m1 r1) m2) r2
          have h2 := h (.node a1 l1 m1 r1) m2
          simp only [Bdd.size_node] at h2
          omega
        · have h1 := size_bddCreateBody_le h a1 (union l1 l2) (union m1 m2) (union r1 r2)
          have hl := h l1 l2
          have hm := h m1 m2
          have hr := h r1 r2
          omega

theorem size_bddUnionAux_le : ∀ (fuel : Nat) (b1 b2 : Bdd),
    (bddUnionAux fuel b1 b2).size ≤ b1.size + b2.size
  | 0, b1, b2 => by simp [bddUnionAux]
  | fuel + 1, b1, b2 => size_bddUnionBody_le (size_bddUnionAux_le fuel) b1 b2

/-- A union has no more nodes than its operands together. -/
theorem size_bddUnion_le (b1 b2 : Bdd) : (bddUnion b1 b2).size ≤ b1.size + b2.size :=
  size_bddUnionAux_le _ b1 b2

variable {f g : Bdd → Bdd → Bdd}

omit [BddIdentity] in
theorem bddCreateBody_congr {a : Atom} {l m r : Bdd} (h : f l m = g l m) :
    bddCreateBody f a l m r = bddCreateBody g a l m r := by
  simp only [bddCreateBody, h]

/-- The body only looks at recursive calls on fewer nodes. -/
theorem bddUnionBody_congr (hs : ∀ b1 b2, (f b1 b2).size ≤ b1.size + b2.size) (b1 b2 : Bdd)
    (h : ∀ c1 c2, c1.size + c2.size < b1.size + b2.size → f c1 c2 = g c1 c2) :
    bddUnionBody f b1 b2 = bddUnionBody g b1 b2 := by
  unfold bddUnionBody
  split
  · rfl
  · match b1, b2 with
    | .leaf b, b2 => rfl
    | .node .., .leaf b => rfl
    | .node a1 l1 m1 r1, .node a2 l2 m2 r2 =>
      dsimp only
      simp only [Bdd.size_node] at h
      split
      · rw [← h m1 (.node a2 l2 m2 r2) (by rw [Bdd.size_node]; omega)]
        have h2 := hs m1 (.node a2 l2 m2 r2)
        simp only [Bdd.size_node] at h2
        exact bddCreateBody_congr (h _ _ (by omega))
      · split
        · rw [← h (.node a1 l1 m1 r1) m2 (by rw [Bdd.size_node]; omega)]
          have h2 := hs (.node a1 l1 m1 r1) m2
          simp only [Bdd.size_node] at h2
          exact bddCreateBody_congr (h _ _ (by omega))
        · rw [← h l1 l2 (by omega), ← h m1 m2 (by omega), ← h r1 r2 (by omega)]
          have hl := hs l1 l2
          have hm := hs m1 m2
          exact bddCreateBody_congr (h _ _ (by omega))

theorem bddUnionAux_eq : ∀ (n k : Nat) (b1 b2 : Bdd), b1.size + b2.size < n →
    b1.size + b2.size < k → bddUnionAux n b1 b2 = bddUnionAux k b1 b2
  | 0, _, _, _, hn, _ => absurd hn (by omega)
  | _ + 1, 0, _, _, _, hk => absurd hk (by omega)
  | n + 1, k + 1, b1, b2, hn, hk =>
    bddUnionBody_congr (size_bddUnionAux_le n) b1 b2 fun c1 c2 hc =>
      bddUnionAux_eq n k c1 c2 (by omega) (by omega)

/-- `bddUnion` is what the source says it is. -/
theorem bddUnion_eq (b1 b2 : Bdd) : bddUnion b1 b2 = bddUnionBody bddUnion b1 b2 :=
  bddUnionBody_congr (size_bddUnionAux_le _) b1 b2 fun c1 c2 hc =>
    bddUnionAux_eq _ _ c1 c2 hc (by omega)

/-- The body of `bddIntersect`, over its recursive calls. -/
def bddIntersectBody (intersect : Bdd → Bdd → Bdd) (b1 b2 : Bdd) : Bdd :=
  if BddIdentity.same b1 b2 then b1
  else match b1, b2 with
    | .leaf b, b2 => if b then b2 else .leaf false
    | b1, .leaf b => if b then b1 else .leaf false
    | .node a1 l1 m1 r1, .node a2 l2 m2 r2 =>
      if atomCmp a1 a2 < 0 then
        bddCreate a1 (intersect l1 (.node a2 l2 m2 r2))
          (intersect m1 (.node a2 l2 m2 r2)) (intersect r1 (.node a2 l2 m2 r2))
      else if atomCmp a1 a2 > 0 then
        bddCreate a2 (intersect (.node a1 l1 m1 r1) l2)
          (intersect (.node a1 l1 m1 r1) m2) (intersect (.node a1 l1 m1 r1) r2)
      else
        bddCreate a1 (intersect (bddUnion l1 m1) (bddUnion l2 m2)) (.leaf false)
          (intersect (bddUnion r1 m1) (bddUnion r2 m2))

def bddIntersectAux : Nat → Bdd → Bdd → Bdd
  | 0 => fun b1 _ => b1
  | fuel + 1 => bddIntersectBody (bddIntersectAux fuel)

def bddIntersect (b1 b2 : Bdd) : Bdd :=
  bddIntersectAux (b1.size + b2.size + 1) b1 b2

/-- The body of `bddNodeComplement`, over the calls of `bddComplement`. -/
def bddNodeComplementBody (complement : Bdd → Bdd) (atom : Atom)
    (left middle right : Bdd) : Bdd :=
  if right = .leaf false then
    bddCreate atom (.leaf false) (complement (bddUnion left middle)) (complement middle)
  else if left = .leaf false then
    bddCreate atom (complement middle) (complement (bddUnion right middle)) (.leaf false)
  else if middle = .leaf false then
    bddCreate atom (complement left) (complement (bddUnion left right)) (complement right)
  else
    bddCreate atom (complement (bddUnion left middle)) (.leaf false)
      (complement (bddUnion right middle))

/-- The body of `bddComplement`, over its recursive calls. -/
def bddComplementBody (complement : Bdd → Bdd) : Bdd → Bdd
  | .leaf b => .leaf (!b)
  | .node a l m r => bddNodeComplementBody complement a l m r

def bddComplementAux : Nat → Bdd → Bdd
  | 0 => id
  | fuel + 1 => bddComplementBody (bddComplementAux fuel)

def bddComplement (b : Bdd) : Bdd :=
  bddComplementAux (b.size + 1) b

def bddNodeComplement (atom : Atom) (left middle right : Bdd) : Bdd :=
  bddNodeComplementBody bddComplement atom left middle right

/-- The body of `bddDiff`, over its recursive calls. -/
def bddDiffBody (diff : Bdd → Bdd → Bdd) (b1 b2 : Bdd) : Bdd :=
  if BddIdentity.same b1 b2 then .leaf false
  else match b1, b2 with
    | b1, .leaf b => if b then .leaf false else b1
    | .leaf b, b2 => if b then bddComplement b2 else .leaf false
    | .node a1 l1 m1 r1, .node a2 l2 m2 r2 =>
      if atomCmp a1 a2 < 0 then
        bddCreate a1 (diff (bddUnion l1 m1) (.node a2 l2 m2 r2)) (.leaf false)
          (diff (bddUnion r1 m1) (.node a2 l2 m2 r2))
      else if atomCmp a1 a2 > 0 then
        bddCreate a2 (diff (.node a1 l1 m1 r1) (bddUnion l2 m2)) (.leaf false)
          (diff (.node a1 l1 m1 r1) (bddUnion r2 m2))
      else
        bddCreate a1 (diff (bddUnion l1 m1) (bddUnion l2 m2)) (.leaf false)
          (diff (bddUnion r1 m1) (bddUnion r2 m2))

def bddDiffAux : Nat → Bdd → Bdd → Bdd
  | 0 => fun b1 _ => b1
  | fuel + 1 => bddDiffBody (bddDiffAux fuel)

def bddDiff (b1 b2 : Bdd) : Bdd :=
  bddDiffAux (b1.size + b2.size + 1) b1 b2

theorem bddIntersectBody_congr (b1 b2 : Bdd)
    (h : ∀ c1 c2, c1.size + c2.size < b1.size + b2.size → f c1 c2 = g c1 c2) :
    bddIntersectBody f b1 b2 = bddIntersectBody g b1 b2 := by
  unfold bddIntersectBody
  split
  · rfl
  · match b1, b2 with
    | .leaf b, b2 => rfl
    | .node .., .leaf b => rfl
    | .node a1 l1 m1 r1, .node a2 l2 m2 r2 =>
      dsimp only
      simp only [Bdd.size_node] at h
      have h1 := size_bddUnion_le l1 m1
      have h2 := size_bddUnion_le l2 m2
      have h3 := size_bddUnion_le r1 m1
      have h4 := size_bddUnion_le r2 m2
      split
      · rw [h l1 _ (by rw [Bdd.size_node]; omega), h m1 _ (by rw [Bdd.size_node]; omega), h r1 _ (by rw [Bdd.size_node]; omega)]
      · split
        · rw [h _ l2 (by rw [Bdd.size_node]; omega), h _ m2 (by rw [Bdd.size_node]; omega), h _ r2 (by rw [Bdd.size_node]; omega)]
        · rw [h (bddUnion l1 m1) _ (by omega), h (bddUnion r1 m1) _ (by omega)]

theorem bddIntersectAux_eq : ∀ (n k : Nat) (b1 b2 : Bdd), b1.size + b2.size < n →
    b1.size + b2.size < k → bddIntersectAux n b1 b2 = bddIntersectAux k b1 b2
  | 0, _, _, _, hn, _ => absurd hn (by omega)
  | _ + 1, 0, _, _, _, hk => absurd hk (by omega)
  | n + 1, k + 1, b1, b2, hn, hk =>
    bddIntersectBody_congr b1 b2 fun c1 c2 hc =>
      bddIntersectAux_eq n k c1 c2 (by omega) (by omega)

theorem bddIntersect_eq (b1 b2 : Bdd) :
    bddIntersect b1 b2 = bddIntersectBody bddIntersect b1 b2 :=
  bddIntersectBody_congr b1 b2 fun c1 c2 hc => bddIntersectAux_eq _ _ c1 c2 hc (by omega)

theorem bddComplementBody_congr {f g : Bdd → Bdd} (b : Bdd)
    (h : ∀ c, c.size < b.size → f c = g c) :
    bddComplementBody f b = bddComplementBody g b := by
  cases b with
  | leaf b => rfl
  | node a l m r =>
    simp only [Bdd.size_node] at h
    have h1 := size_bddUnion_le l m
    have h2 := size_bddUnion_le r m
    have h3 := size_bddUnion_le l r
    simp only [bddComplementBody, bddNodeComplementBody]
    rw [h (bddUnion l m) (by omega), h m (by omega), h (bddUnion r m) (by omega),
      h l (by omega), h (bddUnion l r) (by omega), h r (by omega)]

theorem bddComplementAux_eq : ∀ (n k : Nat) (b : Bdd), b.size < n → b.size < k →
    bddComplementAux n b = bddComplementAux k b
  | 0, _, _, hn, _ => absurd hn (by omega)
  | _ + 1, 0, _, _, hk => absurd hk (by omega)
  | n + 1, k + 1, b, hn, hk =>
    bddComplementBody_congr b fun c hc => bddComplementAux_eq n k c (by omega) (by omega)

theorem bddComplement_eq (b : Bdd) : bddComplement b = bddComplementBody bddComplement b :=
  bddComplementBody_congr b fun c hc => bddComplementAux_eq _ _ c hc (by omega)

theorem bddDiffBody_congr (b1 b2 : Bdd)
    (h : ∀ c1 c2, c1.size + c2.size < b1.size + b2.size → f c1 c2 = g c1 c2) :
    bddDiffBody f b1 b2 = bddDiffBody g b1 b2 := by
  unfold bddDiffBody
  split
  · rfl
  · match b1, b2 with
    | .leaf b, .leaf b' => rfl
    | .leaf b, .node .. => rfl
    | .node .., .leaf b => rfl
    | .node a1 l1 m1 r1, .node a2 l2 m2 r2 =>
      dsimp only
      simp only [Bdd.size_node] at h
      have h1 := size_bddUnion_le l1 m1
      have h2 := size_bddUnion_le l2 m2
      have h3 := size_bddUnion_le r1 m1
      have h4 := size_bddUnion_le r2 m2
      split
      · rw [h (bddUnion l1 m1) _ (by rw [Bdd.size_node]; omega), h (bddUnion r1 m1) _ (by rw [Bdd.size_node]; omega)]
      · split
        · rw [h _ (bddUnion l2 m2) (by rw [Bdd.size_node]; omega), h _ (bddUnion r2 m2) (by rw [Bdd.size_node]; omega)]
        · rw [h (bddUnion l1 m1) _ (by omega), h (bddUnion r1 m1) _ (by omega)]

theorem bddDiffAux_eq : ∀ (n k : Nat) (b1 b2 : Bdd), b1.size + b2.size < n →
    b1.size + b2.size < k → bddDiffAux n b1 b2 = bddDiffAux k b1 b2
  | 0, _, _, _, hn, _ => absurd hn (by omega)
  | _ + 1, 0, _, _, _, hk => absurd hk (by omega)
  | n + 1, k + 1, b1, b2, hn, hk =>
    bddDiffBody_congr b1 b2 fun c1 c2 hc => bddDiffAux_eq n k c1 c2 (by omega) (by omega)

theorem bddDiff_eq (b1 b2 : Bdd) : bddDiff b1 b2 = bddDiffBody bddDiff b1 b2 :=
  bddDiffBody_congr b1 b2 fun c1 c2 hc => bddDiffAux_eq _ _ c1 c2 hc (by omega)

end Operations

end Nballerina.Types
