import QuantCore.Lib.Turns
import QuantCore.Proofs.Commit

/-!
# What a transaction touches

A transaction is decided by the coins it spends, the tokens it makes or names and
their pools, and it writes these and its outputs, nothing else. A list of pending
transactions adds one thing to the view, the txids that are in it. So each
transaction has its cells, and of the rest the verdict and the writes know
nothing: that is what lets two transactions without a common cell change places.
-/

namespace QuantCore

open Maps Turns

inductive Cell
  | coin (o : OutPoint)
  /-- A token and its pool. -/
  | token (id : Hash256)
  /-- Whether a transaction of this id is in the list. -/
  | txid (id : Hash256)
deriving DecidableEq

/-- All that a view and a list of ids say about a cell. -/
inductive Held
  | coin (created spent base : Option Coin) (spentCreated : Bool)
  | token (info baseInfo : Option TokenInfo) (pool basePool : Option Pool)
  | txid (listed : Bool)

def held (s : LedgerView × List Hash256) : Cell → Held
  | .coin o => .coin (s.1.created.lookup o) (s.1.spentBase.lookup o) (s.1.base.coin o)
      (decide (o ∈ s.1.spentCreated))
  | .token id => .token (s.1.tokens.lookup id) (s.1.base.token id) (s.1.pools.lookup id)
      (s.1.base.pool id)
  | .txid id => .txid (s.2.contains id)

variable [Crypto]

/-- The token an op makes, or the one it names. -/
def TxOp.named (first : OutPoint) (i : UInt32) : TxOp → List Hash256
  | .createToken _ => [tokenId first i]
  | op => op.poolToken.toList

def opTokens (first : OutPoint) : UInt32 → List TxOp → List Hash256
  | _, [] => []
  | i, op :: ops => op.named first i ++ opTokens first (i + 1) ops

def Transaction.tokens (tx : Transaction) : List Hash256 :=
  opTokens (tx.ins.headD default).prev 0 tx.ops

/-- What it spends, what it makes, the tokens it is about, and its id. -/
def Transaction.cells (tx : Transaction) : List Cell :=
  tx.ins.map (fun i => .coin i.prev) ++
    (newCoins tx.txid tx.outs 0 false).map (fun c => .coin c.1) ++ tx.tokens.map .token ++
    [.txid tx.txid]

theorem cells_input {tx : Transaction} {o : OutPoint} (h : o ∈ tx.ins.map TxIn.prev) :
    .coin o ∈ tx.cells := by
  obtain ⟨i, hi, rfl⟩ := List.mem_map.mp h
  simp only [Transaction.cells, List.mem_append]
  exact .inl (.inl (.inl (List.mem_map_of_mem hi)))

theorem cells_output {tx : Transaction} {o : OutPoint} {height : UInt64} {cb : Bool}
    (h : o ∈ (newCoins tx.txid tx.outs height cb).map Prod.fst) : .coin o ∈ tx.cells := by
  simp only [Transaction.cells, List.mem_append]
  refine .inl (.inl (.inr ?_))
  rw [newCoins, List.map_map, List.mem_map] at h ⊢
  obtain ⟨x, hx, rfl⟩ := h
  exact ⟨x, hx, rfl⟩

theorem cells_token {tx : Transaction} {t : Hash256} (h : t ∈ tx.tokens) :
    .token t ∈ tx.cells := by
  simp only [Transaction.cells, List.mem_append]
  exact .inl (.inr (List.mem_map_of_mem h))

theorem cells_txid (tx : Transaction) : .txid tx.txid ∈ tx.cells := by
  simp only [Transaction.cells, List.mem_append]
  exact .inr List.mem_cons_self

/-! ## The verdict -/

theorem takeInputs_agree {r r' : StateReader} {height : UInt64} {genesis : Hash256}
    {ins : List TxIn} (h : ∀ i ∈ ins, r.coin i.prev = r'.coin i.prev) (plus : Flows)
    (coins : List Coin) :
    takeInputs r height genesis ins plus coins = takeInputs r' height genesis ins plus coins := by
  induction ins generalizing plus coins with
  | nil => rfl
  | cons i ins ih =>
      rw [List.forall_mem_cons] at h
      rw [takeInputs, takeInputs, h.1]
      split
      · rfl
      · split
        · rfl
        · exact ih h.2 _ _

/-- The op reads its token and its pool, and writes no other. -/
theorem applyOp_local {r r' : StateReader} {tx : Transaction} {height : UInt64}
    {coins : List Coin} {i : UInt32} {st : OpState} {op : TxOp}
    (h : ∀ t ∈ op.named (tx.ins.headD default).prev i,
      r.token t = r'.token t ∧ r.pool t = r'.pool t) :
    applyOp r tx height coins i st op = applyOp r' tx height coins i st op ∧
      ∀ st', applyOp r tx height coins i st op = .ok st' →
        ∀ t, t ∉ op.named (tx.ins.headD default).prev i →
          st'.touched.lookup t = st.touched.lookup t ∧
            st'.minted.lookup t = st.minted.lookup t := by
  have hpool : ∀ {u : Hash256}, op.poolToken = some u →
      op.named (tx.ins.headD default).prev i = [u] →
      applyOp r tx height coins i st op = applyOp r' tx height coins i st op ∧
        ∀ st', applyOp r tx height coins i st op = .ok st' →
          ∀ t, t ∉ op.named (tx.ins.headD default).prev i →
            st'.touched.lookup t = st.touched.lookup t ∧
              st'.minted.lookup t = st.minted.lookup t := by
    intro u hu hnamed
    obtain ⟨htoken, hread⟩ := h u (by rw [hnamed]; exact List.mem_singleton_self u)
    have hknown : tokenKnown r st u = tokenKnown r' st u := by
      rw [tokenKnown, tokenKnown, htoken]
    have hget : getPool r st u = getPool r' st u := by
      rw [getPool, getPool, hread]
    rw [applyOp_pool 0 hu, applyOp_pool 0 hu, hknown, hget]
    refine ⟨rfl, fun st' hst t ht => ?_⟩
    cases hp : poolStep (tokenKnown r' st u) op (getPool r' st u) with
    | error e =>
        rw [hp] at hst
        cases hst
    | ok p =>
        rw [hp] at hst
        cases hst
        rw [hnamed, List.mem_singleton] at ht
        exact ⟨by rw [lookup_insert_ite, if_neg ht], rfl⟩
  cases op with
  | createToken c =>
      have hknown : tokenKnown r st (tokenId (tx.ins.headD default).prev i) =
          tokenKnown r' st (tokenId (tx.ins.headD default).prev i) := by
        rw [tokenKnown, tokenKnown, (h _ (List.mem_singleton_self _)).1]
      simp only [applyOp, hknown]
      refine ⟨trivial, fun st' hst t ht => ?_⟩
      split at hst
      · cases hst
      · cases hst
        have ht : t ≠ tokenId (tx.ins.headD default).prev i :=
          fun he => ht (List.mem_singleton.mpr he)
        exact ⟨rfl, by rw [lookup_insert_ite, if_neg ht]⟩
  | message m =>
      refine ⟨rfl, fun st' hst t _ => ?_⟩
      simp only [applyOp] at hst
      split at hst
      · cases hst
        exact ⟨rfl, rfl⟩
      · cases hst
  | poolCreate p => exact hpool rfl rfl
  | addLiquidity a => exact hpool rfl rfl
  | removeLiquidity rm => exact hpool rfl rfl
  | swap s => exact hpool rfl rfl

theorem applyOps_local {r r' : StateReader} {tx : Transaction} {height : UInt64}
    {coins : List Coin} {ops : List TxOp} {i : UInt32} {st : OpState}
    (h : ∀ t ∈ opTokens (tx.ins.headD default).prev i ops,
      r.token t = r'.token t ∧ r.pool t = r'.pool t) :
    applyOps r tx height coins i ops st = applyOps r' tx height coins i ops st ∧
      ∀ st', applyOps r tx height coins i ops st = .ok st' →
        ∀ t, t ∉ opTokens (tx.ins.headD default).prev i ops →
          st'.touched.lookup t = st.touched.lookup t ∧
            st'.minted.lookup t = st.minted.lookup t := by
  induction ops generalizing i st with
  | nil =>
      refine ⟨rfl, fun st' hst t _ => ?_⟩
      cases hst
      exact ⟨rfl, rfl⟩
  | cons op ops ih =>
      rw [opTokens, List.forall_mem_append] at h
      obtain ⟨heq, hwrites⟩ :=
        @applyOp_local _ r r' tx height coins i st op h.1
      rw [applyOps, applyOps, ← heq]
      cases hop : applyOp r tx height coins i st op with
      | error e => exact ⟨rfl, fun st' hst => by cases hst⟩
      | ok st₁ =>
          obtain ⟨hrest, hlater⟩ := @ih (i + 1) st₁ h.2
          refine ⟨hrest, fun st' hst t ht => ?_⟩
          rw [opTokens, List.mem_append, not_or] at ht
          obtain ⟨h₁, h₂⟩ := hwrites st₁ hop t ht.1
          obtain ⟨h₃, h₄⟩ := hlater st' hst t ht.2
          exact ⟨h₃.trans h₁, h₄.trans h₂⟩

/-- Two states that agree on what a transaction reads decide it alike. -/
theorem checkTx_agree {r r' : StateReader} {tx : Transaction} (height : UInt64)
    (genesis : Hash256) (verify : Bool) (hcoins : ∀ i ∈ tx.ins, r.coin i.prev = r'.coin i.prev)
    (htokens : ∀ t ∈ tx.tokens, r.token t = r'.token t ∧ r.pool t = r'.pool t) :
    checkTx r tx height genesis verify = checkTx r' tx height genesis verify := by
  rw [checkTx, checkTx, takeInputs_agree hcoins]
  split
  · rfl
  split
  · rfl
  split
  · rfl
  · simp only [(applyOps_local htokens).1]

theorem checkTx_writes {r : StateReader} {tx : Transaction} {height : UInt64}
    {genesis : Hash256} {verify : Bool} {st : OpState} {fee : Amount}
    (h : checkTx r tx height genesis verify = .ok (st, fee)) {t : Hash256} (ht : t ∉ tx.tokens) :
    st.touched.lookup t = none ∧ st.minted.lookup t = none := by
  obtain ⟨-, -, coins, -, hops, -⟩ := checkTx_ok h
  exact (@applyOps_local _ r r tx height coins tx.ops 0 _ fun _ _ => ⟨rfl, rfl⟩).2 st hops t ht

/-! ## The writes -/

namespace LedgerView

variable {v v' : LedgerView} {l l' : List Hash256} {k : Cell}

omit [Crypto] in
/-- Of a cell the view shows what the cell holds. -/
theorem coin_agree {o : OutPoint} (h : held (v, l) (.coin o) = held (v', l') (.coin o)) :
    v.coin o = v'.coin o ∧ v.spends o = v'.spends o := by
  simp only [held, Held.coin.injEq, decide_eq_decide] at h
  obtain ⟨hcreated, hspent, hbase, hsc⟩ := h
  have hmem : o ∈ v.spentBase ↔ o ∈ v'.spentBase := by
    rw [← AList.lookup_isSome, ← AList.lookup_isSome, hspent]
  rw [coin, coin, spends, spends]
  simp only [hmem, hcreated, hbase, hsc, and_self]

omit [Crypto] in
theorem token_agree {t : Hash256} (h : held (v, l) (.token t) = held (v', l') (.token t)) :
    v.token t = v'.token t ∧ v.pool t = v'.pool t := by
  simp only [held, Held.token.injEq] at h
  obtain ⟨hinfo, hbase, hpool, hbase'⟩ := h
  rw [token, token, pool, pool, hinfo, hbase, hpool, hbase']
  exact ⟨rfl, rfl⟩

omit [Crypto] in
/-- Spending touches the coin's cell. -/
theorem spendInput_frame (v : LedgerView) (l : List Hash256) {o : OutPoint} (hk : k ≠ .coin o) :
    held (v.spendInput o, l) k = held (v, l) k := by
  rw [spendInput]
  cases k with
  | coin x =>
      have hx : x ≠ o := fun he => hk (he ▸ rfl)
      split
      · simp [held, hx]
      · simp [held, hx]
  | token t => split <;> rfl
  | txid x => rfl

omit [Crypto] in
theorem spendInput_cell (o : OutPoint) (h : held (v, l) k = held (v', l') k) :
    held (v.spendInput o, l) k = held (v'.spendInput o, l') k := by
  by_cases hk : k = .coin o
  · subst hk
    simp only [held, Held.coin.injEq, decide_eq_decide] at h
    obtain ⟨hcreated, hspent, hbase, hsc⟩ := h
    have hmem : o ∈ v.created ↔ o ∈ v'.created := by
      rw [← AList.lookup_isSome, ← AList.lookup_isSome, hcreated]
    rw [spendInput, spendInput]
    by_cases hin : o ∈ v'.created
    · rw [if_pos (hmem.mpr hin), if_pos hin]
      simp [held, hspent, hbase]
    · rw [if_neg (mt hmem.mp hin), if_neg hin]
      simp [held, hcreated, hbase, hsc]
  · rw [spendInput_frame v l hk, spendInput_frame v' l' hk]
    exact h

omit [Crypto] in
theorem spendInputs_cell (ins : List OutPoint) (h : held (v, l) k = held (v', l') k) :
    held (ins.foldl spendInput v, l) k = held (ins.foldl spendInput v', l') k := by
  induction ins generalizing v v' with
  | nil => exact h
  | cons o ins ih => exact ih (spendInput_cell o h)

omit [Crypto] in
theorem spendInputs_frame (ins : List OutPoint) (hk : ∀ o ∈ ins, k ≠ .coin o) :
    held (ins.foldl spendInput v, l) k = held (v, l) k := by
  induction ins generalizing v with
  | nil => rfl
  | cons o ins ih =>
      rw [List.forall_mem_cons] at hk
      exact (ih hk.2).trans (spendInput_frame v l hk.1)

omit [Crypto] in
theorem putPools_held (ts : List (Hash256 × Option Pool)) (o : OutPoint) :
    held (v.putPools ts, l) (.coin o) = held (v, l) (.coin o) ∧
      (v.putPools ts).tokens = v.tokens := by
  induction ts generalizing v with
  | nil => exact ⟨rfl, rfl⟩
  | cons e ts ih => exact ih (v := v.putPool e.1 e.2)

variable {tx : Transaction} {height : UInt64} {st : OpState}

theorem commit_coin (v : LedgerView) (tx : Transaction) (height : UInt64) (st : OpState)
    (o : OutPoint) : held (v.commit tx height st, l) (.coin o) =
      held (((tx.ins.map TxIn.prev).foldl spendInput v).addCoins
        (newCoins tx.txid tx.outs height false), l) (.coin o) := by
  rw [commit]
  exact (putPools_held (pairs st.touched) o).1

theorem commit_token (v : LedgerView) (tx : Transaction) (height : UInt64) (st : OpState)
    (t : Hash256) : held (v.commit tx height st, l) (.token t) =
      .token (updateAll (fn v.tokens) (pairs st.minted) t) (v.base.token t)
        (updateAll (fn v.pools) ((pairs st.touched).map fun e => (e.1, e.2.getD default)) t)
        (v.base.pool t) := by
  have hspend : ∀ (ins : List OutPoint) (v : LedgerView),
      (ins.foldl spendInput v).tokens = v.tokens ∧ (ins.foldl spendInput v).pools = v.pools := by
    intro ins
    induction ins with
    | nil => exact fun v => ⟨rfl, rfl⟩
    | cons o ins ih =>
        intro v
        have hone : (v.spendInput o).tokens = v.tokens ∧ (v.spendInput o).pools = v.pools := by
          rw [spendInput]
          split <;> exact ⟨rfl, rfl⟩
        exact ⟨(ih _).1.trans hone.1, (ih _).2.trans hone.2⟩
  obtain ⟨htokens, hpools⟩ := hspend (tx.ins.map TxIn.prev) v
  have hputs := putPools_pools (pairs st.touched)
    ((((tx.ins.map TxIn.prev).foldl spendInput v).addCoins
      (newCoins tx.txid tx.outs height false)).addTokens (pairs st.minted))
  have hbase := commit_base v tx height st
  rw [held, hbase, ← fn_insertAll, ← fn_insertAll]
  have h₁ : (v.commit tx height st).tokens = insertAll v.tokens (pairs st.minted) := by
    rw [← htokens]
    exact (@putPools_held _ [] (pairs st.touched) ⟨0, 0⟩).2
  have h₂ : (v.commit tx height st).pools =
      insertAll v.pools ((pairs st.touched).map fun e => (e.1, e.2.getD default)) := by
    rw [← hpools]
    exact hputs.2
  rw [h₁, h₂]
  rfl

/-- What a commit leaves in a cell depends on what was there. -/
theorem commit_cell (tx : Transaction) (height : UInt64) (st : OpState)
    (h : held (v, l) k = held (v', l') k) :
    held (v.commit tx height st, l) k = held (v'.commit tx height st, l') k := by
  cases k with
  | coin o =>
      rw [commit_coin, commit_coin]
      have hs := spendInputs_cell (tx.ins.map TxIn.prev) h
      simp only [held, Held.coin.injEq] at hs ⊢
      refine ⟨?_, hs.2⟩
      rw [addCoins_lookup, addCoins_lookup]
      exact updateAll_congr hs.1
  | token t =>
      rw [commit_token, commit_token]
      simp only [held, Held.token.injEq] at h ⊢
      exact ⟨updateAll_congr h.1, h.2.1, updateAll_congr h.2.2.1, h.2.2.2⟩
  | txid x => exact h

/-- An accepted transaction leaves the cells of others as they are. -/
theorem commit_frame {genesis : Hash256} {verify : Bool} {fee : Amount}
    (h : checkTx v.reader tx height genesis verify = .ok (st, fee)) (hk : k ∉ tx.cells) :
    held (v.commit tx height st, l) k = held (v, l) k := by
  cases k with
  | coin o =>
      rw [commit_coin]
      have hins : ∀ p ∈ tx.ins.map TxIn.prev, (Cell.coin o) ≠ .coin p :=
        fun p hp he => hk (he ▸ cells_input hp)
      refine Eq.trans ?_ (spendInputs_frame (tx.ins.map TxIn.prev) hins)
      simp only [held, Held.coin.injEq]
      refine ⟨?_, rfl, rfl, rfl⟩
      rw [addCoins_lookup]
      exact updateAll_of_notMem _ fun ho => hk (cells_output ho)
  | token t =>
      obtain ⟨htouched, hminted⟩ := checkTx_writes h fun ht => hk (cells_token ht)
      have hkeys : ((pairs st.touched).map fun e => (e.1, e.2.getD default)).map Prod.fst =
          st.touched.keys := by
        rw [List.map_map]
        exact pairs_fst st.touched
      rw [commit_token, updateAll_of_notMem, updateAll_of_notMem]
      · rfl
      · rw [hkeys]
        exact AList.lookup_eq_none.mp htouched
      · rw [pairs_fst]
        exact AList.lookup_eq_none.mp hminted
  | txid x => rfl

/-- Two views that hold the same in the cells of a transaction take it or refuse
it alike, and hold the same in its cells after it. -/
theorem apply_agree (genesis : Hash256) (verify : Bool)
    (h : ∀ k ∈ tx.cells, held (v, l) k = held (v', l') k) :
    checkTx v.reader tx height genesis verify = checkTx v'.reader tx height genesis verify :=
  checkTx_agree height genesis verify
    (fun _ hi => (coin_agree (h _ (cells_input (List.mem_map_of_mem hi)))).1)
    fun _ ht => token_agree (h _ (cells_token ht))

end LedgerView

end QuantCore
