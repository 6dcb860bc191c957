import QuantCore.Proofs.Rooted

/-!
# Heights by name

The height of a block is that of its place in the tree, and the tree is built
anew at every start. The headers in it are headers of blocks that are around,
and such a header names its parent, so the height of a hash is the same in every
tree there ever is: `Placed` says it without one.
-/

namespace QuantCore

open Maps Forest

variable [Crypto] {g : Hash256} {known : Block → Prop}

/-- So many names lead from the block `h` down to genesis. -/
inductive Placed (g : Hash256) (known : Block → Prop) : Hash256 → Nat → Prop
  | genesis : Placed g known g 0
  | block {b : Block} {n : Nat} (hk : known b) (hne : b.header.hash ≠ g)
      (hp : Placed g known b.header.prev n) : Placed g known b.header.hash (n + 1)

theorem Placed.unique (hcf : Collisionless known) {h : Hash256} {m n : Nat}
    (h₁ : Placed g known h m) (h₂ : Placed g known h n) : m = n := by
  induction h₁ generalizing n with
  | genesis =>
      generalize hd : g = d at h₂
      cases h₂ with
      | genesis => rfl
      | block hk hne hp => exact absurd hd.symm (hd ▸ hne)
  | @block a k hk hne hp ih =>
      generalize hd : a.header.hash = d at h₂
      cases h₂ with
      | genesis => exact absurd hd hne
      | @block b l hkb hneb hpb =>
          have hprev : a.header.prev = b.header.prev := by
            rw [hcf.header a b hk hkb hd]
          rw [← hprev] at hpb
          rw [ih hpb]

/-- Every header of the tree is that of a block that is around. -/
def Nodes.Named (known : Block → Prop) (t : Nodes) : Prop :=
  ∀ h n, t h = some n → ∃ b, known b ∧ b.header = n.header

theorem Nodes.Wf.placed {t : Nodes} {k : Nat} (hw : t.Wf g k) (hn : t.Named known)
    {h : Hash256} {n : Node} (hh : t h = some n) : Placed g known h n.height := by
  induction hr : n.height generalizing h n with
  | zero =>
      have hg := hw.eq_genesis (by rw [hh]; rfl) (by rw [Nodes.height_eq hh, hr])
      rw [hg]
      exact .genesis
  | succ m ih =>
      cases hp : n.prev with
      | none =>
          have := (hw.root h n hh hp).2
          omega
      | some p =>
          obtain ⟨hprev, q, hq, hqh, -⟩ := hw.parent h n p hh hp
          obtain ⟨b, hb, hbh⟩ := hn h n hh
          have hhash : b.header.hash = h := by rw [hbh, (hw.hash h n hh).2]
          rw [← hhash]
          refine .block hb ?_ ?_
          · -- Genesis has no parent in the tree.
            intro hg
            obtain ⟨m', hm', hnone⟩ := hw.genesis
            rw [hhash] at hg
            rw [hg, hm'] at hh
            cases hh
            rw [hnone] at hp
            cases hp
          · rw [hbh, hprev]
            exact ih hq (by omega)

/-- A block of the tree has one height and one header. -/
theorem Nodes.Wf.height_unique {t : Nodes} {k : Nat} (hw : t.Wf g k) (hn : t.Named known)
    (hcf : Collisionless known) {h : Hash256} (hh : (t h).isSome) {m : Nat}
    (hp : Placed g known h m) : t.height h = m := by
  obtain ⟨n, hn'⟩ := Option.isSome_iff_exists.mp hh
  rw [Nodes.height_eq hn']
  exact (hw.placed hn hn').unique hcf hp

theorem Nodes.Wf.header_eq {t : Nodes} {k : Nat} (hw : t.Wf g k) (hn : t.Named known)
    (hcf : Collisionless known) {h : Hash256} {n : Node} (hh : t h = some n) {b : Block}
    (hb : known b) (hbh : b.header.hash = h) : n.header = b.header := by
  obtain ⟨a, ha, hah⟩ := hn h n hh
  rw [← hah]
  refine hcf.header a b ha hb ?_
  rw [hah, (hw.hash h n hh).2, hbh]

namespace Chainstate

variable {s s' : Chainstate}

theorem named_addIndex (h : Nodes.Named known s.node) {hd : BlockHeader}
    (hp : hd.prev ∈ s.index) (hk : ∃ b, known b ∧ b.header = hd) :
    Nodes.Named known (s.addIndex hd).node := by
  have hhead : (s.newEntry hd).node.header = hd := by
    rw [newEntry]
    split <;> rfl
  rw [addIndex_node hp]
  intro x n hx
  rcases Nodes.grow_cases hx with ⟨-, rfl⟩ | ⟨m, hm, rfl⟩
  · rw [hhead]
    exact hk
  · exact h x m hm

/-- The first header of all. -/
theorem named_addIndex_first (hs : ∀ x, s.lookup x = none) {hd : BlockHeader}
    (hk : ∃ b, known b ∧ b.header = hd) : Nodes.Named known (s.addIndex hd).node := by
  have hhead : (s.newEntry hd).node.header = hd := by
    rw [newEntry]
    split <;> rfl
  rw [addIndex_first_node hs]
  intro x n hx
  simp only at hx
  split at hx
  · cases hx
    rw [hhead]
    exact hk
  · cases hx

theorem acceptHeader_named {cfg : Config} {hd : BlockHeader} {r : HeaderResult}
    (h : Nodes.Named known s.node) (hk : ∃ b, known b ∧ b.header = hd)
    (hr : s.acceptHeader cfg hd = (s', r)) : Nodes.Named known s'.node := by
  rcases acceptHeader_cases hr with ⟨rfl, -⟩ | ⟨-, -, hp, -, rfl⟩
  · exact h
  · exact @named_addIndex _ _ s.ticked h hd hp hk

theorem indexHeaders_named {hs : List BlockHeader} (h : Nodes.Named known s.node)
    (hk : ∀ hd ∈ hs, ∃ b, known b ∧ b.header = hd) :
    Nodes.Named known (hs.foldl indexHeader s).node := by
  induction hs generalizing s with
  | nil => exact h
  | cons hd hs ih =>
      rw [List.forall_mem_cons] at hk
      rw [List.foldl_cons, indexHeader_eq]
      refine ih ?_ hk.2
      split
      · next hadd =>
          rcases hadd.1 with he | hp
          · exact named_addIndex_first (isEmpty_keys.mp he) hk.1
          · exact named_addIndex h hp hk.1
      · exact h

end Chainstate

end QuantCore
