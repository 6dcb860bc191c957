import QuantCore.Proofs.Accounts
import QuantCore.Proofs.Branch
import QuantCore.Proofs.Codec
import QuantCore.Proofs.Frame

/-!
# The undo record

`write_undo` keeps the net effect of a block: the coins of the old state it
spent, the pools as they were, the ids of the tokens it created. `disconnect_tip`
takes out every output the block has, spent again within the block or not, and
puts the recorded values back. That this leads back to the state before needs
three things of the view: what it created are outputs of the block, these are
new, and it recorded a value for everything else it changed.
-/

namespace QuantCore

open Maps

/-! ## The size of a view -/

/-- The entries of a view that end up in the undo record. -/
def LedgerView.weight (v : LedgerView) : Nat :=
  v.spentBase.keys.length + v.tokens.keys.length + v.poolsBefore.keys.length

namespace LedgerView

theorem spendInput_weight (v : LedgerView) (o : OutPoint) :
    (v.spendInput o).weight ≤ v.weight + 1 := by
  rw [spendInput]
  split
  · exact Nat.le_succ _
  · have h := length_keys_insert_le v.spentBase o ((v.base.coin o).getD default)
    simp only [weight]
    omega

theorem spendInputs_weight (l : List OutPoint) (v : LedgerView) :
    (l.foldl spendInput v).weight ≤ v.weight + l.length := by
  induction l generalizing v with
  | nil => exact Nat.le_refl _
  | cons o l ih =>
      have h := ih (v.spendInput o)
      have h₁ := v.spendInput_weight o
      rw [List.length_cons]
      exact h.trans (by omega)

theorem addTokens_weight (v : LedgerView) (l : List (Hash256 × TokenInfo)) :
    (v.addTokens l).weight ≤ v.weight + l.length := by
  have h := length_keys_insertAll_le v.tokens l
  simp only [weight, addTokens]
  omega

theorem putPools_weight (l : List (Hash256 × Option Pool)) (v : LedgerView) :
    (v.putPools l).weight ≤ v.weight + l.length := by
  induction l generalizing v with
  | nil => exact Nat.le_refl _
  | cons e l ih =>
      have h := ih (v.putPool e.1 e.2)
      have h₁ : (v.putPool e.1 e.2).weight ≤ v.weight + 1 := by
        have hk := length_keys_insert_le v.poolsBefore e.1 (v.base.pool e.1)
        simp only [weight, putPool]
        split <;> omega
      rw [List.length_cons]
      exact h.trans (by omega)

end LedgerView

/-- The scratch entries of the ops so far. -/
def OpState.weight (st : OpState) : Nat := st.touched.keys.length + st.minted.keys.length

variable [Crypto]

theorem applyOp_weight {r : StateReader} {tx : Transaction} {height : UInt64}
    {coins : List Coin} {i : UInt32} {st st' : OpState} {op : TxOp}
    (h : applyOp r tx height coins i st op = .ok st') : st'.weight ≤ st.weight + 1 := by
  have hpool : ∀ t, op.poolToken = some t → st'.weight ≤ st.weight + 1 := by
    intro t ht
    rw [applyOp_pool 0 ht] at h
    cases hp : poolStep (tokenKnown r st t) op (getPool r st t) with
    | error e => rw [hp] at h; cases h
    | ok p =>
        rw [hp] at h
        cases h
        have hk := length_keys_insert_le st.touched t (some p)
        simp only [OpState.weight]
        omega
  cases op with
  | createToken c =>
      simp only [applyOp] at h
      split at h
      · cases h
      · cases h
        have hk := length_keys_insert_le st.minted (tokenId (tx.ins.headD default).prev i)
          ⟨tokenId (tx.ins.headD default).prev i, c.ticker, c.name, c.uri, c.decimals,
            c.supply, tx.txid, height⟩
        simp only [OpState.weight]
        omega
  | message m =>
      simp only [applyOp] at h
      split at h
      · cases h
        exact Nat.le_succ _
      · cases h
  | poolCreate p => exact hpool p.token rfl
  | addLiquidity a => exact hpool a.token rfl
  | removeLiquidity rm => exact hpool rm.token rfl
  | swap s => exact hpool s.token rfl

theorem applyOps_weight {r : StateReader} {tx : Transaction} {height : UInt64}
    {coins : List Coin} {i : UInt32} {ops : List TxOp} {st st' : OpState}
    (h : applyOps r tx height coins i ops st = .ok st') :
    st'.weight ≤ st.weight + ops.length := by
  induction ops generalizing i st with
  | nil =>
      cases h
      exact Nat.le_refl _
  | cons op ops ih =>
      rw [applyOps] at h
      split at h
      · cases h
      next st₁ h₁ =>
        have hop := applyOp_weight h₁
        have hops := ih h
        rw [List.length_cons]
        omega

/-- A transaction adds at most an entry for each input and each op. -/
theorem LedgerView.apply_weight {v v' : LedgerView} {tx : Transaction} {height : UInt64}
    {genesis : Hash256} {verify : Bool} {fee : Amount}
    (h : v.apply tx height genesis verify = (v', .ok fee)) :
    v'.weight ≤ v.weight + (tx.ins.length + tx.ops.length) := by
  rw [LedgerView.apply] at h
  split at h
  · cases h
  next st fee' hc =>
  cases h
  obtain ⟨-, -, coins, -, hops, -⟩ := checkTx_ok hc
  have h₀ := applyOps_weight hops
  have h₁ := spendInputs_weight (tx.ins.map TxIn.prev) v
  have h₂ := addTokens_weight
    (((tx.ins.map TxIn.prev).foldl spendInput v).addCoins
      (newCoins tx.txid tx.outs height false)) (pairs st.minted)
  have h₃ := putPools_weight (pairs st.touched)
    ((((tx.ins.map TxIn.prev).foldl spendInput v).addCoins
      (newCoins tx.txid tx.outs height false)).addTokens (pairs st.minted))
  have hadd : (((tx.ins.map TxIn.prev).foldl spendInput v).addCoins
      (newCoins tx.txid tx.outs height false)).weight =
        ((tx.ins.map TxIn.prev).foldl spendInput v).weight := rfl
  rw [List.length_map] at h₁
  rw [pairs_length] at h₂ h₃
  have hst : st.touched.keys.length + st.minted.keys.length ≤ tx.ops.length := by
    simpa [OpState.weight] using h₀
  show (LedgerView.putPools _ _).weight ≤ _
  omega

/-! ## What a view creates -/

/-- Every coin the view created is one of the outpoints. -/
def LedgerView.Creates (v : LedgerView) (l : List OutPoint) : Prop := ∀ o ∈ v.created, o ∈ l

omit [Crypto] in
theorem newCoins_fst (txid : Hash256) (outs : List TxOut) (height : UInt64) (cb : Bool) :
    (newCoins txid outs height cb).map Prod.fst =
      (List.range outs.length).map fun n => ⟨txid, UInt32.ofNat n⟩ := by
  rw [newCoins, List.map_map]
  apply List.ext_getElem
  · simp
  · intro i h₁ h₂
    simp

omit [Crypto] in
theorem spendInputs_created (l : List OutPoint) (v : LedgerView) :
    ∀ o ∈ (l.foldl LedgerView.spendInput v).created, o ∈ v.created := by
  induction l generalizing v with
  | nil => exact fun o ho => ho
  | cons p l ih =>
      intro o ho
      have h := ih (v.spendInput p) o ho
      rw [LedgerView.spendInput] at h
      split at h
      · exact (AList.mem_erase.mp h).2
      · exact h

omit [Crypto] in
theorem putPools_created (l : List (Hash256 × Option Pool)) (v : LedgerView) :
    (v.putPools l).created = v.created := by
  induction l generalizing v with
  | nil => rfl
  | cons e l ih => exact ih (v.putPool e.1 e.2)

theorem LedgerView.apply_creates {v v' : LedgerView} {tx : Transaction} {height : UInt64}
    {genesis : Hash256} {verify : Bool} {fee : Amount} {l : List OutPoint}
    (h : v.apply tx height genesis verify = (v', .ok fee)) (hv : v.Creates l) :
    v'.Creates (l ++ (List.range tx.outs.length).map fun n => ⟨tx.txid, UInt32.ofNat n⟩) := by
  rw [LedgerView.apply] at h
  split at h
  · cases h
  next st fee' hc =>
  cases h
  intro o ho
  simp only [commit] at ho
  rw [putPools_created] at ho
  rcases mem_of_mem_insertAll ho with ho | ho
  · rw [newCoins_fst] at ho
    exact List.mem_append_right _ ho
  · exact List.mem_append_left _ (hv o (spendInputs_created _ v o ho))

/-- The transactions of a block, one after another. -/
theorem applyTxs_bounds {height : UInt64} {genesis : Hash256} {verify : Bool}
    {txs : List Transaction} {v v' : LedgerView} {fees fees' : Amount} {l : List OutPoint}
    (h : applyTxs height genesis verify v txs fees = .ok (v', fees')) (hv : v.Creates l) :
    v'.weight ≤ v.weight + (txs.map fun t => t.ins.length + t.ops.length).sum ∧
      v'.Creates (l ++ txs.flatMap fun t =>
        (List.range t.outs.length).map fun n => ⟨t.txid, UInt32.ofNat n⟩) := by
  induction txs generalizing v fees l with
  | nil =>
      cases h
      rw [List.flatMap_nil, List.append_nil]
      exact ⟨Nat.le_refl _, hv⟩
  | cons tx txs ih =>
      rw [applyTxs] at h
      split at h
      · cases h
      next v₁ fee ha =>
      obtain ⟨hw, hc⟩ := ih h (LedgerView.apply_creates ha hv)
      have h₁ := LedgerView.apply_weight ha
      rw [List.map_cons, List.sum_cons, List.flatMap_cons, ← List.append_assoc]
      exact ⟨by omega, hc⟩

theorem blockView_bounds {L : StateReader} {b : Block} {height : UInt64} {genesis : Hash256}
    {verify : Bool} {v : LedgerView} {fees : Amount} (hne : b.txs ≠ [])
    (h : blockView L b height genesis verify = .ok (v, fees)) :
    v.weight ≤ (b.txs.map fun t => t.ins.length + t.ops.length).sum ∧
      v.Creates (Chainstate.blockOutPoints b) := by
  cases hb : b.txs with
  | nil => exact absurd hb hne
  | cons cb rest =>
      rw [blockView, hb, List.headD_cons, List.tail_cons] at h
      have hcb : (LedgerView.applyCoinbase { base := L } cb height).Creates
          ((List.range cb.outs.length).map fun n => ⟨cb.txid, UInt32.ofNat n⟩) := by
        intro o ho
        rcases mem_of_mem_insertAll ho with ho | ho
        · rwa [newCoins_fst] at ho
        · exact absurd ho (AList.notMem_empty o)
      obtain ⟨hw, hc⟩ := applyTxs_bounds h hcb
      have h₀ : (LedgerView.applyCoinbase { base := L } cb height).weight = 0 := rfl
      rw [h₀] at hw
      rw [List.map_cons, List.sum_cons, Chainstate.blockOutPoints, hb, List.flatMap_cons]
      exact ⟨by omega, hc⟩

/-! ## The record -/

/-- The record `u` leads from the state `L'` after the block `b` back to `L`. -/
structure Undo.Undoes (u : Undo) (b : Block) (L L' : StateReader) : Prop where
  limits : u.Limits
  coin : updateAll (fun o => if o ∈ Chainstate.blockOutPoints b then none else L'.coin o)
    u.spent = L.coin
  nodup : (u.spent.map Prod.fst).Nodup
  spent : ∀ o ∈ u.spent.map Prod.fst, L'.coin o = none
  token : (fun id => if id ∈ u.tokensCreated then none else L'.token id) = L.token
  pool : u.poolsBefore.foldl (fun f e => Function.update f e.1 e.2) L'.pool = L.pool

omit [Crypto] in
/-- A loop that writes pairs with different keys is one override. -/
theorem foldl_update_pairs {ν : Type} (f : Hash256 → Option ν) (m : UMap Hash256 (Option ν))
    (t : Hash256) :
    (pairs m).foldl (fun f e => Function.update f e.1 e.2) f t = (m.lookup t).getD (f t) := by
  have hnot : ∀ (l : List (Hash256 × Option ν)) (f : Hash256 → Option ν),
      t ∉ l.map Prod.fst → l.foldl (fun f e => Function.update f e.1 e.2) f t = f t := by
    intro l
    induction l with
    | nil => exact fun f _ => rfl
    | cons e l ih =>
        intro f ht
        rw [List.map_cons, List.mem_cons, not_or] at ht
        rw [List.foldl_cons, ih _ ht.2, Function.update_of_ne ht.1]
  have hin : ∀ (l : List (Hash256 × Option ν)) (f : Hash256 → Option ν) (p : Option ν),
      (l.map Prod.fst).Nodup → (t, p) ∈ l →
        l.foldl (fun f e => Function.update f e.1 e.2) f t = p := by
    intro l
    induction l with
    | nil => exact fun f p _ h => absurd h List.not_mem_nil
    | cons e l ih =>
        intro f p hnd hp
        rw [List.map_cons, List.nodup_cons] at hnd
        rw [List.foldl_cons]
        rcases List.mem_cons.mp hp with rfl | hp
        · rw [hnot _ _ hnd.1, Function.update_self]
        · exact ih _ p hnd.2 hp
  cases hm : m.lookup t with
  | none =>
      apply hnot
      rw [pairs_fst]
      exact AList.lookup_eq_none.mp hm
  | some p => exact hin _ f p (pairs_nodup m) (mem_pairs.mpr hm)

/-- The undo record of a view undoes it. -/
theorem undo_undoes {v : LedgerView} {b : Block} (hw : v.Wf)
    (hc : v.Creates (Chainstate.blockOutPoints b))
    (hfresh : ∀ o ∈ Chainstate.blockOutPoints b, v.base.coin o = none)
    (hsize : v.weight < 2 ^ 64) : v.undo.Undoes b v.base v.reader where
  limits := by
    rw [LedgerView.weight] at hsize
    refine ⟨?_, ?_, ?_⟩ <;> simp only [LedgerView.undo, pairs_length] <;> omega
  coin := by
    funext o
    show updateAll _ (pairs v.spentBase) o = _
    rw [updateAll_pairs]
    cases hs : v.spentBase.lookup o with
    | some c =>
        rw [Option.some_or]
        exact (hw.spentBase_coin o c hs).symm
    | none =>
        rw [Option.none_or]
        split
        · next ho => exact (hfresh o ho).symm
        · next ho =>
            show v.coin o = _
            have hcr : v.created.lookup o = none :=
              AList.lookup_eq_none.mpr fun h => ho (hc o h)
            rw [LedgerView.coin_eq, if_neg (AList.lookup_eq_none.mp hs), hcr, Option.none_or]
            split
            · next hsc => exact (hw.spentCreated_fresh o hsc).symm
            · rfl
  nodup := pairs_nodup v.spentBase
  spent := by
    intro o ho
    have ho : o ∈ v.spentBase := by
      rw [LedgerView.undo, pairs_fst] at ho
      exact ho
    show v.coin o = none
    rw [LedgerView.coin_eq, if_pos ho]
  token := by
    funext id
    show (if id ∈ v.tokens.keys then none else v.token id) = _
    split
    · next hid => exact (hw.tokens_fresh id hid).symm
    · next hid =>
        rw [LedgerView.token_eq, AList.lookup_eq_none.mpr hid, Option.none_or]
  pool := by
    funext t
    show (pairs v.poolsBefore).foldl _ v.pool t = _
    rw [foldl_update_pairs]
    cases hp : v.poolsBefore.lookup t with
    | some p => exact (hw.poolsBefore_base t p hp).symm
    | none =>
        have ht : t ∉ v.pools := fun h =>
          AList.lookup_eq_none.mp hp ((hw.poolsBefore_iff t).mpr h)
        rw [Option.getD_none, LedgerView.pool_eq, AList.lookup_eq_none.mpr ht, Option.none_or]

namespace Chainstate

/-! ## Taking a block back -/

omit [Crypto] in
theorem foldl_eraseToken (l : List Hash256) (m : UMap Hash256 TokenInfo) (id : Hash256) :
    (l.foldl (fun m id => m.erase id) m).lookup id = if id ∈ l then none else m.lookup id := by
  induction l generalizing m with
  | nil => rfl
  | cons x l ih =>
      rw [List.foldl_cons, ih, lookup_erase_ite]
      by_cases hx : id = x
      · simp [hx]
      · simp [hx]

/-- With its undo record, a block is taken back out of the maps. -/
theorem revertBlock_reader {s : Chainstate} {b : Block} {u : Undo} {L : StateReader}
    (h : u.Undoes b L s.reader) : (s.revertBlock b u).reader = L := by
  obtain ⟨hu₁, ht₁, hp₁⟩ := foldl_spendCoin (blockOutPoints b) s
  obtain ⟨hu₂, ht₂, hp₂⟩ := foldl_addCoin u.spent ((blockOutPoints b).foldl spendCoin s)
  obtain ⟨hp₃, hu₃, ht₃⟩ := foldl_setPool u.poolsBefore
    (u.spent.foldl (fun s e => s.addCoin e.1 e.2) ((blockOutPoints b).foldl spendCoin s))
  have hcoin : fn (s.revertBlock b u).utxo = L.coin := by
    have h₁ : (s.revertBlock b u).utxo = _ := hu₃
    rw [h₁, hu₂, ← h.coin]
    congr 1
    funext o
    rw [hu₁]
    rfl
  have htoken : fn (s.revertBlock b u).tokens = L.token := by
    funext id
    have h₁ : (s.revertBlock b u).tokens =
      u.tokensCreated.foldl (fun m id => m.erase id) _ := rfl
    rw [fn, h₁, foldl_eraseToken, ht₃, ht₂, ht₁, ← h.token]
    rfl
  have hpool : fn (s.revertBlock b u).pools = L.pool := by
    have h₁ : (s.revertBlock b u).pools = _ := rfl
    rw [h₁, ← h.pool]
    exact hp₃.trans (by rw [hp₂, hp₁]; rfl)
  show StateReader.mk (fn _) (fn _) (fn _) = _
  rw [hcoin, htoken, hpool]

theorem revertBlock_accounts {s : Chainstate} {b : Block} {u : Undo} {L : StateReader}
    (hs : s.Accounts) (h : u.Undoes b L s.reader) : (s.revertBlock b u).Accounts := by
  have h₁ := hs.spendAll (blockOutPoints b)
  obtain ⟨hu₁, -, -⟩ := foldl_spendCoin (blockOutPoints b) s
  have h₂ := h₁.addCoins h.nodup fun o ho => by
    have hn := hu₁ o
    rw [show fn s.utxo o = none from h.spent o ho, ite_self] at hn
    exact hn
  exact (h₂.setPools u.poolsBefore).of_eq rfl rfl rfl rfl

omit [Crypto] in
/-- The replay of a view keeps the address index and the supply in step. -/
theorem commitView_accounts {s : Chainstate} {v : LedgerView} (hs : s.Accounts) (hw : v.Wf)
    (hb : v.base = s.reader) : (s.commitView v).Accounts := by
  have h₁ := hs.spendAll v.spentBase.keys
  obtain ⟨hu₁, -, -⟩ := foldl_spendCoin v.spentBase.keys s
  have h₂ := h₁.addCoins (pairs_nodup v.created) fun o ho => by
    rw [pairs_fst] at ho
    have hn := hu₁ o
    have hbase := hw.created_fresh o ho
    rw [hb] at hbase
    rw [show fn s.utxo o = none from hbase, ite_self] at hn
    exact hn
  have h₃ := foldl_addToken_accounts h₂ (pairs v.tokens)
  have h₄ := h₃.setPools ((pairs v.pools).map fun e => (e.1, some e.2))
  rw [List.foldl_map] at h₄
  exact h₄

end Chainstate

end QuantCore
