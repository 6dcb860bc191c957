import QuantCore.Chain.Connect
import QuantCore.Proofs.Overlay

/-!
# Replaying a view onto the chainstate

The commit loops of `connect_block` run over the overlay's maps one after
another, not over the transactions. That this ends in the state the overlay
denotes is the shadowing discipline of `LedgerView.Wf` again: what was spent
from the base goes first, what was created is added, and an outpoint is never
in both.

The rest of `connect_block` leaves the ledger maps alone. `LedgerOnly` and the
equations after it say which fields each part of it writes, so that later
files never look inside.
-/

namespace QuantCore

open Maps

namespace Chainstate

/-! ## Single writes -/

theorem addCoin_utxo (s : Chainstate) (o : OutPoint) (c : Coin) :
    fn (s.addCoin o c).utxo = Function.update (fn s.utxo) o (some c) :=
  fn_insert s.utxo o c

theorem spendCoin_utxo (s : Chainstate) (o : OutPoint) :
    fn (s.spendCoin o).utxo = Function.update (fn s.utxo) o none := by
  rw [spendCoin]
  split
  · next h =>
      funext x
      rw [Function.update_apply]
      split
      · next hx =>
          rw [hx]
          exact h
      · rfl
  · exact fn_erase s.utxo o

theorem dropPool_pools (s : Chainstate) (t : Hash256) :
    fn (s.dropPool t).pools = Function.update (fn s.pools) t none := by
  rw [dropPool]
  split
  · exact fn_erase s.pools t
  · next h =>
      funext x
      rw [Function.update_apply]
      split
      · next hx =>
          rw [hx]
          exact h
      · rfl

theorem setPool_pools (s : Chainstate) (t : Hash256) (p : Option Pool) :
    fn (s.setPool t p).pools = Function.update (fn s.pools) t p := by
  cases p with
  | none => exact dropPool_pools s t
  | some p =>
      show fn ((s.dropPool t).pools.insert t p) = _
      rw [fn_insert, dropPool_pools, Function.update_idem]

/-! ## What a loop of writes touches -/

/-- `s'` is `s` but for the ledger maps and what is counted from them. -/
def LedgerOnly (s s' : Chainstate) : Prop :=
  s' = { s with utxo := s'.utxo, byAddr := s'.byAddr, supply := s'.supply
                tokens := s'.tokens, pools := s'.pools }

theorem LedgerOnly.refl (s : Chainstate) : LedgerOnly s s := rfl

theorem LedgerOnly.trans {s₁ s₂ s₃ : Chainstate} (h₁ : LedgerOnly s₁ s₂)
    (h₂ : LedgerOnly s₂ s₃) : LedgerOnly s₁ s₃ := by
  rw [LedgerOnly] at h₁ h₂ ⊢
  rw [h₂, h₁]

theorem LedgerOnly.foldl {α : Type} {f : Chainstate → α → Chainstate}
    (hf : ∀ s a, LedgerOnly s (f s a)) (l : List α) (s : Chainstate) :
    LedgerOnly s (l.foldl f s) := by
  induction l generalizing s with
  | nil => exact .refl s
  | cons a l ih => exact (hf s a).trans (ih (f s a))

theorem ledgerOnly_addCoin (s : Chainstate) (o : OutPoint) (c : Coin) :
    LedgerOnly s (s.addCoin o c) := rfl

theorem ledgerOnly_spendCoin (s : Chainstate) (o : OutPoint) :
    LedgerOnly s (s.spendCoin o) := by
  rw [spendCoin]
  split <;> rfl

theorem ledgerOnly_setPool (s : Chainstate) (t : Hash256) (p : Option Pool) :
    LedgerOnly s (s.setPool t p) := by
  have hd : LedgerOnly s (s.dropPool t) := by
    rw [dropPool]
    split <;> rfl
  cases p with
  | none => exact hd
  | some p => exact hd.trans rfl

theorem ledgerOnly_addToken (s : Chainstate) (id : Hash256) (t : TokenInfo) :
    LedgerOnly s (s.addToken id t) := rfl

theorem commitView_ledgerOnly (s : Chainstate) (v : LedgerView) :
    LedgerOnly s (s.commitView v) :=
  (LedgerOnly.foldl ledgerOnly_spendCoin v.spentBase.keys s).trans
    ((LedgerOnly.foldl (fun s e => ledgerOnly_addCoin s e.1 e.2) (pairs v.created) _).trans
      ((LedgerOnly.foldl (fun s e => ledgerOnly_addToken s e.1 e.2) (pairs v.tokens) _).trans
        (LedgerOnly.foldl (fun s e => ledgerOnly_setPool s e.1 (some e.2)) (pairs v.pools) _)))

/-! ## Loops of one kind of write -/

theorem foldl_spendCoin (l : List OutPoint) (s : Chainstate) :
    (∀ o, fn (l.foldl spendCoin s).utxo o = if o ∈ l then none else fn s.utxo o) ∧
      (l.foldl spendCoin s).tokens = s.tokens ∧ (l.foldl spendCoin s).pools = s.pools := by
  induction l generalizing s with
  | nil => exact ⟨fun o => by simp, rfl, rfl⟩
  | cons p l ih =>
      obtain ⟨hu, ht, hp⟩ := ih (s.spendCoin p)
      have hkeep : (s.spendCoin p).tokens = s.tokens ∧ (s.spendCoin p).pools = s.pools := by
        rw [spendCoin]
        split <;> exact ⟨rfl, rfl⟩
      refine ⟨fun o => ?_, ht.trans hkeep.1, hp.trans hkeep.2⟩
      refine (hu o).trans ?_
      rw [spendCoin_utxo, Function.update_apply]
      by_cases ho : o = p
      · simp [ho]
      · simp [ho]

theorem foldl_addCoin (l : List (OutPoint × Coin)) (s : Chainstate) :
    fn (l.foldl (fun s e => s.addCoin e.1 e.2) s).utxo = updateAll (fn s.utxo) l ∧
      (l.foldl (fun s e => s.addCoin e.1 e.2) s).tokens = s.tokens ∧
      (l.foldl (fun s e => s.addCoin e.1 e.2) s).pools = s.pools := by
  induction l generalizing s with
  | nil => exact ⟨rfl, rfl, rfl⟩
  | cons e l ih =>
      obtain ⟨hu, ht, hp⟩ := ih (s.addCoin e.1 e.2)
      refine ⟨hu.trans ?_, ht, hp⟩
      rw [addCoin_utxo]
      rfl

theorem foldl_addToken (l : List (Hash256 × TokenInfo)) (s : Chainstate) :
    fn (l.foldl (fun s e => s.addToken e.1 e.2) s).tokens = updateAll (fn s.tokens) l ∧
      (l.foldl (fun s e => s.addToken e.1 e.2) s).utxo = s.utxo ∧
      (l.foldl (fun s e => s.addToken e.1 e.2) s).pools = s.pools := by
  induction l generalizing s with
  | nil => exact ⟨rfl, rfl, rfl⟩
  | cons e l ih =>
      obtain ⟨ht, hu, hp⟩ := ih (s.addToken e.1 e.2)
      refine ⟨ht.trans ?_, hu, hp⟩
      show updateAll (fn (s.tokens.insert e.1 e.2)) l = _
      rw [fn_insert]
      rfl

theorem foldl_setPool (l : List (Hash256 × Option Pool)) (s : Chainstate) :
    fn (l.foldl (fun s e => s.setPool e.1 e.2) s).pools =
        l.foldl (fun f e => Function.update f e.1 e.2) (fn s.pools) ∧
      (l.foldl (fun s e => s.setPool e.1 e.2) s).utxo = s.utxo ∧
      (l.foldl (fun s e => s.setPool e.1 e.2) s).tokens = s.tokens := by
  induction l generalizing s with
  | nil => exact ⟨rfl, rfl, rfl⟩
  | cons e l ih =>
      obtain ⟨hp, hu, ht⟩ := ih (s.setPool e.1 e.2)
      have hkeep : (s.setPool e.1 e.2).utxo = s.utxo ∧
          (s.setPool e.1 e.2).tokens = s.tokens := by
        have hd : (s.dropPool e.1).utxo = s.utxo ∧ (s.dropPool e.1).tokens = s.tokens := by
          rw [dropPool]
          split <;> exact ⟨rfl, rfl⟩
        cases e.2 <;> exact hd
      refine ⟨hp.trans ?_, hu.trans hkeep.1, ht.trans hkeep.2⟩
      rw [setPool_pools]
      rfl

/-! ## The commit -/

/-- Whatever else the view holds, its pools go over as they stand. -/
theorem commitView_pools {s : Chainstate} {v : LedgerView} (hb : v.base = s.reader) :
    fn (s.commitView v).pools = v.pool := by
  obtain ⟨-, -, hp₁⟩ := foldl_spendCoin v.spentBase.keys s
  obtain ⟨-, -, hp₂⟩ := foldl_addCoin (pairs v.created) (v.spentBase.keys.foldl spendCoin s)
  obtain ⟨-, -, hp₃⟩ := foldl_addToken (pairs v.tokens)
    ((pairs v.created).foldl (fun s e => s.addCoin e.1 e.2)
      (v.spentBase.keys.foldl spendCoin s))
  obtain ⟨hp₄, -, -⟩ := foldl_setPool ((pairs v.pools).map fun e => (e.1, some e.2))
    ((pairs v.tokens).foldl (fun s e => s.addToken e.1 e.2)
      ((pairs v.created).foldl (fun s e => s.addCoin e.1 e.2)
        (v.spentBase.keys.foldl spendCoin s)))
  rw [List.foldl_map] at hp₄
  funext t
  have h₁ : fn (s.commitView v).pools = updateAll (fn s.pools) (pairs v.pools) := by
    refine Eq.trans hp₄ ?_
    rw [hp₃, hp₂, hp₁, List.foldl_map]
    rfl
  rw [h₁, updateAll_pairs, LedgerView.pool, hb]
  cases v.pools.lookup t <;> rfl

theorem commitView_reader {s : Chainstate} {v : LedgerView} (hw : v.Wf)
    (hb : v.base = s.reader) : (s.commitView v).reader = v.reader := by
  obtain ⟨hu₁, ht₁, -⟩ := foldl_spendCoin v.spentBase.keys s
  obtain ⟨hu₂, ht₂, -⟩ := foldl_addCoin (pairs v.created)
    (v.spentBase.keys.foldl spendCoin s)
  obtain ⟨ht₃, hu₃, -⟩ := foldl_addToken (pairs v.tokens)
    ((pairs v.created).foldl (fun s e => s.addCoin e.1 e.2)
      (v.spentBase.keys.foldl spendCoin s))
  obtain ⟨-, hu₄, ht₄⟩ := foldl_setPool ((pairs v.pools).map fun e => (e.1, some e.2))
    ((pairs v.tokens).foldl (fun s e => s.addToken e.1 e.2)
      ((pairs v.created).foldl (fun s e => s.addCoin e.1 e.2)
        (v.spentBase.keys.foldl spendCoin s)))
  rw [List.foldl_map] at hu₄ ht₄
  have hcoin : fn (s.commitView v).utxo = v.coin := by
    funext o
    have h : fn (s.commitView v).utxo o = (v.created.lookup o).or
        (if o ∈ v.spentBase.keys then none else fn s.utxo o) := by
      have h₁ : (s.commitView v).utxo = _ := hu₄.trans hu₃
      rw [h₁, hu₂, updateAll_pairs, hu₁]
    have hbase : v.base.coin o = fn s.utxo o := by
      rw [hb]
      rfl
    rw [h, LedgerView.coin]
    simp only [← AList.mem_keys]
    cases hc : v.created.lookup o with
    | some c =>
        have hns : o ∉ v.spentBase := by
          intro hs
          obtain ⟨d, hd⟩ := mem_iff_exists.mp hs
          have hd' := hw.spentBase_coin o d hd
          rw [hw.created_fresh o (mem_iff_exists.mpr ⟨c, hc⟩)] at hd'
          cases hd'
        simp only [if_neg hns, Option.some_or]
    | none =>
        rw [Option.none_or]
        split
        · rfl
        · simp only []
          split
          · next hsc => rw [← hbase, hw.spentCreated_fresh o hsc]
          · exact hbase.symm
  have htoken : fn (s.commitView v).tokens = v.token := by
    funext id
    have h₁ : (s.commitView v).tokens = _ := ht₄
    rw [h₁, ht₃, updateAll_pairs, ht₂, ht₁, LedgerView.token, hb]
    cases v.tokens.lookup id <;> rfl
  have hpool := commitView_pools hb
  show StateReader.mk (fn (s.commitView v).utxo) (fn (s.commitView v).tokens)
    (fn (s.commitView v).pools) = _
  rw [hcoin, htoken, hpool]
  rfl

/-! ## The rest of connecting a block -/

/-- `s'` is `s` but for the files that come and go with a block. -/
def FilesOnly (s s' : Chainstate) : Prop :=
  s' = { s with
    snapshotHash := s'.snapshotHash
    disk := { s.disk with
      witness := s'.disk.witness, undo := s'.disk.undo, snapshots := s'.disk.snapshots } }

theorem FilesOnly.trans {s₁ s₂ s₃ : Chainstate} (h₁ : FilesOnly s₁ s₂)
    (h₂ : FilesOnly s₂ s₃) : FilesOnly s₁ s₃ := by
  rw [FilesOnly] at h₁ h₂ ⊢
  rw [h₂, h₁]

theorem FilesOnly.ticked {s s' : Chainstate} (h : FilesOnly s s') :
    FilesOnly s.ticked s'.ticked := by
  rw [FilesOnly] at h ⊢
  rw [h]
  rfl

theorem FilesOnly.reader {s s' : Chainstate} (h : FilesOnly s s') : s'.reader = s.reader := by
  rw [FilesOnly] at h
  rw [h]
  rfl

/-- Old snapshots are forgotten, on disk and in memory alike. -/
theorem dropOldSnapshots_eq (s : Chainstate) : ∃ l : List Hash256,
    s.dropOldSnapshots = { s with
      snapshotHash := l.foldl (fun m h => m.erase h) s.snapshotHash
      disk := { s.disk with
        snapshots := l.foldl (fun m h => m.erase h) s.disk.snapshots } } := by
  have hfold : ∀ (held : List Hash256) (s : Chainstate), ∃ l : List Hash256,
      held.foldl (fun s h =>
        if h ∈ s.index ∧ (s.entry h).fromSnapshot then s
        else
          { s with
            snapshotHash := s.snapshotHash.erase h
            disk := { s.disk with snapshots := s.disk.snapshots.erase h } }) s =
        { s with
          snapshotHash := l.foldl (fun m h => m.erase h) s.snapshotHash
          disk := { s.disk with
            snapshots := l.foldl (fun m h => m.erase h) s.disk.snapshots } } := by
    intro held
    induction held with
    | nil => exact fun s => ⟨[], rfl⟩
    | cons h held ih =>
        intro s
        rw [List.foldl_cons]
        split
        · exact ih s
        · obtain ⟨l, hl⟩ := ih { s with
            snapshotHash := s.snapshotHash.erase h
            disk := { s.disk with snapshots := s.disk.snapshots.erase h } }
          exact ⟨h :: l, hl⟩
  exact hfold _ s

theorem recordUndo_filesOnly (s : Chainstate) (idx : Hash256) (height : Nat) (u : Undo) :
    FilesOnly s (s.recordUndo idx height u) := by
  rw [recordUndo]
  split <;> rfl

theorem pruneDue_filesOnly (cfg : Config) (s : Chainstate) (height : Nat) :
    FilesOnly s (pruneDue cfg s height) := by
  have hprune : ∀ h : Nat, FilesOnly s (s.pruneAt h) := by
    intro h
    rw [pruneAt]
    split
    · rfl
    · split <;> rfl
  rw [pruneDue]
  split
  · exact hprune _
  · rfl

variable [Crypto]

theorem writeCommitSnapshot_eq (cfg : Config) (s : Chainstate) (idx : Hash256) :
    writeCommitSnapshot cfg s idx = s ∨ ∃ l : List Hash256,
      writeCommitSnapshot cfg s idx = { s with
        snapshotHash := l.foldl (fun m h => m.erase h)
          (s.snapshotHash.insert idx (stateHash s.serializeState))
        disk := { s.disk with
          snapshots := l.foldl (fun m h => m.erase h)
            (s.disk.snapshots.insert idx s.serializeState) } } := by
  rw [writeCommitSnapshot]
  split
  · exact .inl rfl
  · exact .inr (dropOldSnapshots_eq _)

theorem snapshotDue_filesOnly (cfg : Config) (s : Chainstate) (idx : Hash256)
    (height : Nat) : FilesOnly s (snapshotDue cfg s idx height) := by
  rw [snapshotDue]
  split
  · rcases writeCommitSnapshot_eq cfg s idx with h | ⟨l, h⟩ <;> rw [h] <;> rfl
  · rfl

theorem commitBlock_filesOnly (cfg : Config) (s : Chainstate) (idx : Hash256) (b : Block)
    (v : LedgerView) :
    FilesOnly (s.connected idx b v).ticked (s.commitBlock cfg idx b v) :=
  ((recordUndo_filesOnly ..).trans
    ((snapshotDue_filesOnly ..).trans (pruneDue_filesOnly ..))).ticked

theorem commitBlock_reader (cfg : Config) (s : Chainstate) (idx : Hash256) (b : Block)
    (v : LedgerView) : (s.commitBlock cfg idx b v).reader = (s.commitView v).reader :=
  (commitBlock_filesOnly cfg s idx b v).reader

end Chainstate

end QuantCore
