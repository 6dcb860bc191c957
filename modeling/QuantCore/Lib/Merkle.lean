import Mathlib.Data.List.Basic
import Mathlib.Tactic.Tauto

/-!
# Values under a hash tree

A tree whose inner nodes are `node a b` for the values `a`, `b` of its children.
Two things are said about a value without mentioning the tree's shape: that it is
built over a list of leaves, and that another value lies inside it, at the end of
a path of siblings somebody chose. If `node` is injective on the pairs in play
and neither the leaves nor the value at the end of the path is a node, then the
value at the end of the path is one of the leaves: the path cannot leave the tree.
For two trees it follows that equal values come of equal trees.

The pairs in play are a relation, since no hash is injective on all pairs.
-/

namespace Merkle

variable {α : Type*} {node : α → α → α} {K : α → α → Prop}

/-- What is built over `leaves` by hashing pairs of `K`. -/
inductive Over (node : α → α → α) (K : α → α → Prop) (leaves : List α) : α → Prop
  | leaf {a : α} (h : a ∈ leaves) : Over node K leaves a
  | node {a b : α} (hk : K a b) (ha : Over node K leaves a) (hb : Over node K leaves b) :
      Over node K leaves (node a b)

/-- `x` is the end of a path of pairs of `K` down from a value. -/
inductive Inside (node : α → α → α) (K : α → α → Prop) (x : α) : α → Prop
  | here : Inside node K x x
  | left {a b : α} (hk : K a b) (h : Inside node K x a) : Inside node K x (node a b)
  | right {a b : α} (hk : K a b) (h : Inside node K x b) : Inside node K x (node a b)

/-- A path down from a node that is not yet at its end goes through one of the
node's own children. -/
theorem Inside.descend {x a b : α} (h : Inside node K x (node a b)) (hk : K a b)
    (hinj : ∀ a b c d, K a b → K c d → node a b = node c d → a = c ∧ b = d)
    (hx : node a b ≠ x) : Inside node K x a ∨ Inside node K x b := by
  generalize hy : node a b = y at h
  cases h with
  | here => exact absurd hy hx
  | left hk' h' =>
      obtain ⟨rfl, rfl⟩ := hinj _ _ _ _ hk hk' hy
      exact Or.inl h'
  | right hk' h' =>
      obtain ⟨rfl, rfl⟩ := hinj _ _ _ _ hk hk' hy
      exact Or.inr h'

theorem Inside.mem_leaves {leaves : List α} {x y : α} (hover : Over node K leaves y)
    (h : Inside node K x y)
    (hinj : ∀ a b c d, K a b → K c d → node a b = node c d → a = c ∧ b = d)
    (hleaf : ∀ y ∈ x :: leaves, ∀ a b, K a b → node a b ≠ y) : x ∈ leaves := by
  induction hover with
  | leaf hy =>
      cases h with
      | here => exact hy
      | left hk _ => exact absurd rfl (hleaf _ (List.mem_cons_of_mem x hy) _ _ hk)
      | right hk _ => exact absurd rfl (hleaf _ (List.mem_cons_of_mem x hy) _ _ hk)
  | node hk _ _ iha ihb =>
      rcases h.descend hk hinj (hleaf x List.mem_cons_self _ _ hk) with ha | hb
      · exact iha ha
      · exact ihb hb

/-! ## Trees

The value of a tree determines the tree, shape and all, if `node` is injective
on the pairs in play and no leaf is a node. -/

inductive Tree (α : Type*)
  | leaf (a : α)
  | node (l r : Tree α)

namespace Tree

def value (node : α → α → α) : Tree α → α
  | .leaf a => a
  | .node l r => node (l.value node) (r.value node)

def leaves : Tree α → List α
  | .leaf a => [a]
  | .node l r => l.leaves ++ r.leaves

/-- Every pair the tree hashes is one of `K`. -/
def Hashes (node : α → α → α) (K : α → α → Prop) : Tree α → Prop
  | .leaf _ => True
  | .node l r =>
      K (l.value node) (r.value node) ∧ l.Hashes node K ∧ r.Hashes node K

theorem ext_value {t u : Tree α} (ht : t.Hashes node K) (hu : u.Hashes node K)
    (hinj : ∀ a b c d, K a b → K c d → node a b = node c d → a = c ∧ b = d)
    (hleaf : ∀ y ∈ t.leaves ++ u.leaves, ∀ a b, K a b → node a b ≠ y)
    (h : t.value node = u.value node) : t = u := by
  induction t generalizing u with
  | leaf a =>
      cases u with
      | leaf b =>
          rw [show a = b from h]
      | node l r => exact absurd h.symm (hleaf a List.mem_cons_self _ _ hu.1)
  | node l r ihl ihr =>
      cases u with
      | leaf b =>
          exact absurd h
            (hleaf b (List.mem_append_right _ List.mem_cons_self) _ _ ht.1)
      | node l' r' =>
          obtain ⟨hl, hr⟩ := hinj _ _ _ _ ht.1 hu.1 h
          have hsub : ∀ y, y ∈ l.leaves ++ l'.leaves ∨ y ∈ r.leaves ++ r'.leaves →
              y ∈ (l.leaves ++ r.leaves) ++ (l'.leaves ++ r'.leaves) := by
            intro y hy
            simp only [List.mem_append] at hy ⊢
            tauto
          rw [ihl ht.2.1 hu.2.1 (fun y hy => hleaf y (hsub y (.inl hy))) hl,
            ihr ht.2.2 hu.2.2 (fun y hy => hleaf y (hsub y (.inr hy))) hr]

end Tree

end Merkle
