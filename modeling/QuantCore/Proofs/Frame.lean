import QuantCore.Proofs.Tree
import QuantCore.Proofs.Commit

/-!
# What an operation leaves alone

Most of what the node does writes to one corner of its state. Each relation
below names such a corner and says that the rest is as it was; later files
carry an invariant over an operation by the corner it writes to and do not look
inside.

`FlagsOnly` is the corner of `candidates_`, the best header and the flags
`chain_data` and `failed`; marking blocks and collecting candidates stays in it.
`SameTree` is about what the block tree and the active chain are read from.
-/

namespace QuantCore

open Maps

/-- A block without the flags that come and go. -/
def BlockIndex.unflagged (b : BlockIndex) : BlockIndex :=
  { b with chainData := false, failed := false }

namespace Chainstate

/-! ## Assignments through a pointer -/

theorem lookup_modify (s : Chainstate) (h x : Hash256) (f : BlockIndex → BlockIndex) :
    (s.modify h f).lookup x = if x = h then (s.lookup h).map f else s.lookup x := by
  rw [modify]
  split
  · next b hl =>
      simp only [lookup]
      rw [lookup_insert_ite, hl]
      rfl
  · next hl =>
      split
      · next hx =>
          rw [hx, lookup, hl]
          rfl
      · rfl

theorem modify_eq (s : Chainstate) (h : Hash256) (f : BlockIndex → BlockIndex) :
    s.modify h f = { s with index := (s.modify h f).index } := by
  rw [modify]
  cases s.index.lookup h <;> rfl

/-- An assignment that keeps a part of every block keeps that part of the map. -/
theorem map_lookup_modify {α : Type} (s : Chainstate) (h : Hash256)
    {f : BlockIndex → BlockIndex} {part : BlockIndex → α} (hf : ∀ b, part (f b) = part b)
    (x : Hash256) : ((s.modify h f).lookup x).map part = (s.lookup x).map part := by
  rw [lookup_modify]
  split
  · next hx =>
      rw [hx, Option.map_map]
      congr 1
      funext b
      exact hf b
  · rfl

theorem modify_node (s : Chainstate) (h : Hash256) {f : BlockIndex → BlockIndex}
    (hf : ∀ b, (f b).node = b.node) : (s.modify h f).node = s.node :=
  funext (map_lookup_modify s h hf)

/-- The fixed part of a block is read off the tree. -/
theorem entry_node_congr {s s' : Chainstate} (h : s'.node = s.node) (x : Hash256) :
    (s'.entry x).node = (s.entry x).node := by
  have hget : ∀ s : Chainstate, (s.entry x).node = (s.node x).getD (default : BlockIndex).node := by
    intro s
    rw [entry, node, lookup]
    cases s.index.lookup x <;> rfl
  rw [hget, hget, h]

/-! ## The tree and the chain -/

structure SameTree (s s' : Chainstate) : Prop where
  node : s'.node = s.node
  nextSeq : s'.nextSeq = s.nextSeq
  chain : s'.chain = s.chain

theorem SameTree.refl (s : Chainstate) : SameTree s s := ⟨rfl, rfl, rfl⟩

theorem SameTree.trans {s₁ s₂ s₃ : Chainstate} (h₁ : SameTree s₁ s₂)
    (h₂ : SameTree s₂ s₃) : SameTree s₁ s₃ :=
  ⟨h₂.node.trans h₁.node, h₂.nextSeq.trans h₁.nextSeq, h₂.chain.trans h₁.chain⟩

theorem SameTree.tip {s s' : Chainstate} (h : SameTree s s') : s'.tip = s.tip := by
  rw [Chainstate.tip, Chainstate.tip, h.chain]

theorem sameTree_modify (s : Chainstate) (h : Hash256) {f : BlockIndex → BlockIndex}
    (hf : ∀ b, (f b).node = b.node) : SameTree s (s.modify h f) := by
  have he := modify_eq s h f
  exact ⟨modify_node s h hf, by rw [he], by rw [he]⟩

theorem LedgerOnly.sameTree {s s' : Chainstate} (h : LedgerOnly s s') : SameTree s s' := by
  rw [LedgerOnly] at h
  rw [h]
  exact ⟨rfl, rfl, rfl⟩

theorem FilesOnly.sameTree {s s' : Chainstate} (h : FilesOnly s s') : SameTree s s' := by
  rw [FilesOnly] at h
  rw [h]
  exact ⟨rfl, rfl, rfl⟩

theorem loadSnapshot_ledgerOnly (s : Chainstate) (x : Snapshot) :
    LedgerOnly s (s.loadSnapshot x) := by
  have h₁ := LedgerOnly.foldl (fun s (e : OutPoint × Coin) => ledgerOnly_addCoin s e.1 e.2)
    x.coins s.clearState
  have h₂ := LedgerOnly.foldl (fun s (t : TokenInfo) => ledgerOnly_addToken s t.id t) x.tokens
    (x.coins.foldl (fun s e => s.addCoin e.1 e.2) s.clearState)
  have h₃ := LedgerOnly.foldl (f := fun s (p : Pool) =>
      { s with pools := s.pools.insert p.token p, supply := s.supply + p.qnt })
    (fun _ _ => rfl) x.pools
    (x.tokens.foldl (fun s t => s.addToken t.id t)
      (x.coins.foldl (fun s e => s.addCoin e.1 e.2) s.clearState))
  exact (show LedgerOnly s s.clearState from rfl).trans ((h₁.trans h₂).trans h₃)

theorem LedgerOnly.clearState {s s' : Chainstate} (h : LedgerOnly s s') :
    s'.clearState = s.clearState := by
  rw [LedgerOnly] at h
  rw [h]
  rfl

/-! ## Flags -/

structure FlagsOnly (s s' : Chainstate) : Prop where
  rest : s' = { s with
    index := s'.index, candidates := s'.candidates, bestHeader := s'.bestHeader }
  entries : ∀ h, (s'.lookup h).map BlockIndex.unflagged = (s.lookup h).map BlockIndex.unflagged

theorem FlagsOnly.refl (s : Chainstate) : FlagsOnly s s := ⟨rfl, fun _ => rfl⟩

theorem FlagsOnly.trans {s₁ s₂ s₃ : Chainstate} (h₁ : FlagsOnly s₁ s₂)
    (h₂ : FlagsOnly s₂ s₃) : FlagsOnly s₁ s₃ where
  rest := by
    have h := h₂.rest
    rw [h₁.rest] at h
    exact h
  entries := fun h => (h₂.entries h).trans (h₁.entries h)

theorem FlagsOnly.foldl {α : Type} {f : Chainstate → α → Chainstate}
    (hf : ∀ s a, FlagsOnly s (f s a)) (l : List α) (s : Chainstate) :
    FlagsOnly s (l.foldl f s) := by
  induction l generalizing s with
  | nil => exact .refl s
  | cons a l ih => exact (hf s a).trans (ih (f s a))

theorem FlagsOnly.part {α : Type} {s s' : Chainstate} (h : FlagsOnly s s')
    {part : BlockIndex → α} (hp : ∀ b, part b.unflagged = part b) (x : Hash256) :
    (s'.lookup x).map part = (s.lookup x).map part := by
  have hpart : part = part ∘ BlockIndex.unflagged := funext fun b => (hp b).symm
  rw [hpart, ← Option.map_map, ← Option.map_map, h.entries]

theorem FlagsOnly.sameTree {s s' : Chainstate} (h : FlagsOnly s s') : SameTree s s' where
  node := funext (h.part fun _ => rfl)
  nextSeq := by rw [h.rest]
  chain := by rw [h.rest]

theorem flagsOnly_modify (s : Chainstate) (h : Hash256) {f : BlockIndex → BlockIndex}
    (hf : ∀ b, (f b).unflagged = b.unflagged) : FlagsOnly s (s.modify h f) where
  rest := by
    have h := modify_eq s h f
    rw [h]
  entries := map_lookup_modify s h hf

theorem flagsOnly_addCandidate (s : Chainstate) (x : Hash256) :
    FlagsOnly s (s.addCandidate x) := ⟨rfl, fun _ => rfl⟩

theorem flagsOnly_eraseCandidate (s : Chainstate) (x : Hash256) :
    FlagsOnly s (s.eraseCandidate x) := ⟨rfl, fun _ => rfl⟩

theorem flagsOnly_dropCandidates (s : Chainstate) : FlagsOnly s s.dropCandidates :=
  ⟨rfl, fun _ => rfl⟩

theorem markLoop_flagsOnly (k : Nat) (todo : List Hash256) (s : Chainstate) :
    FlagsOnly s (markLoop k todo s) := by
  induction k generalizing todo s with
  | zero => exact .refl s
  | succ k ih =>
      cases todo with
      | nil => exact .refl s
      | cons x todo =>
          rw [markLoop]
          have h₁ := flagsOnly_modify s x (f := fun b => { b with failed := true })
            fun _ => rfl
          exact (h₁.trans (flagsOnly_eraseCandidate _ x)).trans (ih ..)

theorem chainDataLoop_flagsOnly (k : Nat) (todo : List Hash256) (s : Chainstate) :
    FlagsOnly s (chainDataLoop k todo s) := by
  induction k generalizing todo s with
  | zero => exact .refl s
  | succ k ih =>
      cases todo with
      | nil => exact .refl s
      | cons x todo =>
          rw [chainDataLoop]
          split
          · exact ih ..
          · have h₁ := flagsOnly_modify s x (f := fun b => { b with chainData := true })
              fun _ => rfl
            refine FlagsOnly.trans ?_ (ih ..)
            split
            · exact h₁
            · exact h₁.trans (flagsOnly_addCandidate _ x)

theorem updateChainData_flagsOnly (s : Chainstate) (b : Hash256) :
    FlagsOnly s (s.updateChainData b) := by
  rw [updateChainData]
  split
  · exact .refl s
  · exact chainDataLoop_flagsOnly ..

variable [Crypto]

theorem markFailed_flagsOnly (cfg : Config) (s : Chainstate) (b : Hash256) :
    FlagsOnly s (s.markFailed cfg b) := by
  have h := markLoop_flagsOnly (s.index.keys.length + 1) [b] s
  exact ⟨by rw [markFailed, h.rest], h.entries⟩

/-! ## Connecting and disconnecting -/

theorem flush_sameTree (cfg : Config) (s : Chainstate) : SameTree s (s.flush cfg) :=
  ⟨rfl, rfl, rfl⟩

theorem flushDue_sameTree (cfg : Config) (s : Chainstate) : SameTree s (s.flushDue cfg) := by
  rw [flushDue]
  split
  · exact ⟨rfl, rfl, rfl⟩
  · exact ⟨rfl, rfl, rfl⟩

/-- A connected block is a new tip, and the tree is as it was. -/
theorem connectBlock_tree {cfg : Config} {s s' : Chainstate} {idx : Hash256}
    {r : Except String Unit} (h : s.connectBlock cfg idx = (s', r)) :
    s'.node = s.node ∧ s'.nextSeq = s.nextSeq ∧
      (r = .ok () → s'.chain = s.chain ++ [idx]) ∧
      (r ≠ .ok () → s' = s.ticked) := by
  rw [connectBlock] at h
  split at h
  · next e he =>
      cases h
      exact ⟨rfl, rfl, fun h => (by cases h), fun _ => rfl⟩
  · next b v hc =>
      cases h
      have hl := (commitView_ledgerOnly s v).sameTree
      have hf := (commitBlock_filesOnly cfg s idx b v).sameTree
      refine ⟨hf.node.trans hl.node, hf.nextSeq.trans hl.nextSeq, fun _ => ?_,
        fun h => absurd rfl h⟩
      refine hf.chain.trans ?_
      show (s.commitView v).chain ++ [idx] = _
      rw [hl.chain]

theorem revertBlock_tree (s : Chainstate) (b : Block) (u : Undo) :
    (s.revertBlock b u).node = s.node ∧ (s.revertBlock b u).nextSeq = s.nextSeq ∧
      (s.revertBlock b u).chain = s.chain.dropLast := by
  have h₁ := LedgerOnly.foldl ledgerOnly_spendCoin (blockOutPoints b) s
  have h₂ := LedgerOnly.foldl (fun s (e : OutPoint × Coin) => ledgerOnly_addCoin s e.1 e.2)
    u.spent ((blockOutPoints b).foldl spendCoin s)
  have h₃ := LedgerOnly.foldl
    (fun s (e : Hash256 × Option Pool) => ledgerOnly_setPool s e.1 e.2) u.poolsBefore
    (u.spent.foldl (fun s e => s.addCoin e.1 e.2) ((blockOutPoints b).foldl spendCoin s))
  have h := ((h₁.trans h₂).trans h₃).sameTree
  exact ⟨h.node, h.nextSeq, by rw [← h.chain]; rfl⟩

/-- A disconnected block leaves its parent as the tip, and the tree is as it was. -/
theorem disconnectTip_tree {cfg : Config} {s s' : Chainstate} {r : Except String Unit}
    (h : s.disconnectTip cfg = (s', r)) :
    s'.node = s.node ∧ s'.nextSeq = s.nextSeq ∧
      (r = .ok () → s'.chain = s.chain.dropLast) ∧
      (r ≠ .ok () → s' = s.ticked) := by
  simp only [disconnectTip] at h
  split at h
  · cases h
    exact ⟨rfl, rfl, fun h => (by cases h), fun _ => rfl⟩
  · split at h
    · next b got u hb hu =>
        cases h
        obtain ⟨h₁, h₂, h₃⟩ := revertBlock_tree s b u
        exact ⟨h₁, h₂, fun _ => h₃, fun h => absurd rfl h⟩
    · cases h
      exact ⟨rfl, rfl, fun h => (by cases h), fun _ => rfl⟩

end Chainstate

end QuantCore
