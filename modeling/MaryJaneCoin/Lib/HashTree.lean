import Mathlib.Data.List.Induction

/-!
# Hash trees over an ideal hash

Binary trees whose digest is computed by a leaf hash and a node hash.  Under
`Ideal` hashing (both injective, images disjoint) the digest is a faithful
name of the whole tree, and a climb from a leaf with arbitrary siblings can
only arrive at a tree's digest if it starts from one of the tree's leaves.
-/

namespace HashTree

open List

/-- A binary tree with values at the leaves. -/
inductive MTree (α : Type) where
  | leaf (value : α)
  | node (left right : MTree α)

namespace MTree

variable {α D : Type}

/-- Digest of a tree under a leaf hash and a node hash. -/
def digest (hashLeaf : α → D) (hashNode : D → D → D) : MTree α → D
  | leaf value => hashLeaf value
  | node left right => hashNode (digest hashLeaf hashNode left) (digest hashLeaf hashNode right)

/-- Leaf values, left to right. -/
def leaves : MTree α → List α
  | leaf value => [value]
  | node left right => left.leaves ++ right.leaves

/-- Right-leaning join of a nonempty list of trees. -/
def bag (first : MTree α) : List (MTree α) → MTree α
  | [] => first
  | next :: rest => node first (bag next rest)

theorem leaves_bag (first : MTree α) (rest : List (MTree α)) :
    (bag first rest).leaves = (first :: rest).flatMap leaves := by
  induction rest generalizing first with
  | nil => simp [bag]
  | cons next rest ih => simp [bag, leaves, ih]

theorem ne_node_left (left right : MTree α) : left ≠ node left right := by
  intro h
  have := congrArg sizeOf h
  simp only [node.sizeOf_spec] at this
  omega

end MTree

/-- Both hashes are injective and no leaf hash is a node hash. -/
structure Ideal {α D : Type} (hashLeaf : α → D) (hashNode : D → D → D) : Prop where
  leaf_inj : ∀ {a b}, hashLeaf a = hashLeaf b → a = b
  node_inj : ∀ {a b c d}, hashNode a b = hashNode c d → a = c ∧ b = d
  disjoint : ∀ {a b c}, hashLeaf a ≠ hashNode b c

variable {α D : Type} {hashLeaf : α → D} {hashNode : D → D → D}

/-- **Binding.**  Under ideal hashing the digest determines the tree. -/
theorem Ideal.digest_inj (hideal : Ideal hashLeaf hashNode) {s t : MTree α}
    (h : s.digest hashLeaf hashNode = t.digest hashLeaf hashNode) : s = t := by
  induction s generalizing t with
  | leaf a =>
    cases t with
    | leaf b => exact congrArg MTree.leaf (hideal.leaf_inj h)
    | node l r => exact absurd h hideal.disjoint
  | node l r ihl ihr =>
    cases t with
    | leaf b => exact absurd h.symm hideal.disjoint
    | node l' r' =>
      obtain ⟨hl, hr⟩ := hideal.node_inj h
      rw [ihl hl, ihr hr]

/-- One level of a climb: the sibling is on the left when the flag is set. -/
def climbStep (hashNode : D → D → D) (current : D) (step : D × Bool) : D :=
  if step.2 then hashNode step.1 current else hashNode current step.1

/-- **Soundness of climbs.**  Whatever the siblings, a climb from the hash of
`x` that arrives at the digest of `t` starts at a leaf of `t`. -/
theorem Ideal.mem_leaves_of_climb (hideal : Ideal hashLeaf hashNode)
    {x : α} {path : List (D × Bool)} {t : MTree α} (h : path.foldl (climbStep hashNode)
    (hashLeaf x) = t.digest hashLeaf hashNode) : x ∈ t.leaves := by
  -- peel the last step: it fixes the child of `t` the climb came through
  induction path using List.reverseRecOn generalizing t with
  | nil =>
    cases t with
    | leaf a => simpa [MTree.leaves] using hideal.leaf_inj h
    | node l r => exact absurd h hideal.disjoint
  | append_singleton path step ih =>
    rw [foldl_append] at h
    simp only [foldl_cons, foldl_nil, climbStep] at h
    cases t with
    | leaf a =>
      split at h
      · exact absurd h.symm hideal.disjoint
      · exact absurd h.symm hideal.disjoint
    | node l r =>
      simp only [MTree.leaves, mem_append]
      split at h
      · exact Or.inr (ih (hideal.node_inj h).2)
      · exact Or.inl (ih (hideal.node_inj h).1)

end HashTree

/-!
## Node hashes

A node hash turns two digests into one.  A digest has height `k` when `k` node
hashes lie between it and a leaf on its left edge, a leaf being a digest that
is no node hash at all.  Under a pair-injective node hash a digest has at most
one height, so trees of different heights cannot share a root.
-/

namespace NodeHash

variable {D : Type} {combine : D → D → D}

/-- A digest that is no node hash. -/
def IsLeaf (combine : D → D → D) (a : D) : Prop := ∀ left right, combine left right ≠ a

/-- A digest with this many node hashes above a leaf on its left edge. -/
inductive HasHeight (combine : D → D → D) : Nat → D → Prop
  | leaf {a : D} (hleaf : IsLeaf combine a) : HasHeight combine 0 a
  | node {k : Nat} {left : D} (right : D) (hleft : HasHeight combine k left) :
      HasHeight combine (k + 1) (combine left right)

/-- **A digest has one height.** -/
theorem HasHeight.unique (hinj : Function.Injective2 combine) {j k : Nat} {a b : D}
    (ha : HasHeight combine j a) (hb : HasHeight combine k b) (heq : a = b) : j = k := by
  induction ha generalizing k b with
  | leaf hleaf =>
    cases hb with
    | leaf _ => rfl
    | node right _ => exact absurd heq.symm (hleaf _ _)
  | node right _ ih =>
    cases hb with
    | leaf hleaf => exact absurd heq (hleaf _ _)
    | node right' hleft' => rw [ih hleft' (hinj heq).1]

end NodeHash
