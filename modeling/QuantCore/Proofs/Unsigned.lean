import QuantCore.Proofs.Undo

/-!
# Signatures leave no trace

A view depends on the cores of the transactions alone: where signatures were
checked and found good, the block without them, not checked, ends in the same
view.
-/

namespace QuantCore

variable [Crypto]

theorem checkTx_verify {r : StateReader} {tx : Transaction} {height : UInt64}
    {genesis : Hash256} {x : OpState × Amount} (h : checkTx r tx height genesis true = .ok x) :
    checkTx r tx height genesis false = .ok x := by
  rw [checkTx] at h ⊢
  split at h
  · cases h
  · next hcb =>
      rw [if_neg hcb]
      split at h
      · cases h
      · next hlock =>
          rw [if_neg hlock]
          cases hin : takeInputs r height genesis tx.ins ∅ [] with
          | error e =>
              rw [hin] at h
              cases h
          | ok y =>
              rw [hin] at h
              simp only at h ⊢
              split at h
              · cases h
              · split at h
                · cases h
                · rw [if_pos trivial] at h
                  split at h
                  · cases h
                  · exact h

theorem applyOp_core (r : StateReader) (tx : Transaction) (height : UInt64) (coins : List Coin)
    (i : UInt32) (st : OpState) (op : TxOp) :
    applyOp r tx.core height coins i st op = applyOp r tx height coins i st op := by
  cases op <;> rfl

theorem applyOps_core (r : StateReader) (tx : Transaction) (height : UInt64)
    (coins : List Coin) (i : UInt32) (ops : List TxOp) (st : OpState) :
    applyOps r tx.core height coins i ops st = applyOps r tx height coins i ops st := by
  induction ops generalizing i st with
  | nil => rfl
  | cons op ops ih =>
      rw [applyOps, applyOps, applyOp_core]
      cases applyOp r tx height coins i st op with
      | error e => rfl
      | ok st' => exact ih (i + 1) st'

theorem checkTx_core (r : StateReader) (tx : Transaction) (height : UInt64)
    (genesis : Hash256) :
    checkTx r tx.core height genesis false = checkTx r tx height genesis false := by
  rw [checkTx, checkTx]
  simp only [show tx.core.isCoinbase = tx.isCoinbase from rfl,
    show tx.core.lockHeight = tx.lockHeight from rfl, show tx.core.ins = tx.ins from rfl,
    show tx.core.outs = tx.outs from rfl, show tx.core.ops = tx.ops from rfl, applyOps_core]
  rfl

/-- With good signatures, checking them or not is the same. -/
theorem apply_verify {v v' : LedgerView} {tx : Transaction} {height : UInt64}
    {genesis : Hash256} {fee : Amount} (h : v.apply tx height genesis true = (v', .ok fee)) :
    v.apply tx height genesis false = (v', .ok fee) := by
  rw [LedgerView.apply] at h ⊢
  cases hc : checkTx v.reader tx height genesis true with
  | error e =>
      rw [hc] at h
      cases h
  | ok x =>
      rw [hc] at h
      rw [checkTx_verify hc]
      exact h

theorem LedgerView.apply_core {v v' : LedgerView} {tx : Transaction} {height : UInt64}
    {genesis : Hash256} {verify : Bool} {fee : Amount}
    (h : v.apply tx height genesis verify = (v', .ok fee)) :
    v.apply tx.core height genesis false = (v', .ok fee) := by
  have hplain : v.apply tx height genesis false = (v', .ok fee) := by
    cases verify with
    | false => exact h
    | true => exact apply_verify h
  rw [LedgerView.apply] at hplain ⊢
  rw [checkTx_core]
  exact hplain

theorem applyTxs_core {height : UInt64} {genesis : Hash256} {verify : Bool}
    {txs : List Transaction} {v : LedgerView} {fees : Amount} {x : LedgerView × Amount}
    (h : applyTxs height genesis verify v txs fees = .ok x) :
    applyTxs height genesis false v (txs.map Transaction.core) fees = .ok x := by
  induction txs generalizing v fees with
  | nil => exact h
  | cons tx txs ih =>
      rw [applyTxs] at h
      rw [List.map_cons, applyTxs]
      split at h
      · cases h
      · next v' fee ha =>
          rw [LedgerView.apply_core ha]
          exact ih h

/-- The view of a block is that of its core. -/
theorem blockView_core {L : StateReader} {b : Block} {height : UInt64} {genesis : Hash256}
    {verify : Bool} {x : LedgerView × Amount}
    (h : blockView L b height genesis verify = .ok x) :
    blockView L b.core height genesis false = .ok x := by
  rw [blockView] at h ⊢
  rw [Block.core_txs_head, Block.core_txs_tail]
  exact applyTxs_core h

end QuantCore
