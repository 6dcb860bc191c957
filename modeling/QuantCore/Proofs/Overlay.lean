import QuantCore.Proofs.Ledger

/-!
# The overlay denotes one state

Six maps stand for one updated state, with shadowing rules that depend on which
map an outpoint is in. `Wf` is what keeps the rules apart: what the view created
the base does not have, what it spent from the base the base has, and a pool's
former value is recorded exactly for the pools written. Under it every write of
the commit section is the corresponding update of the state the view denotes,
whatever base the view lies on, another view included.

The one outside fact needed is that the outpoints a transaction creates are not
coins of the base, which is what a fresh txid means here.
-/

namespace QuantCore

open Maps

namespace LedgerView

structure Wf (v : LedgerView) : Prop where
  created_fresh : ∀ o ∈ v.created, v.base.coin o = none
  spentCreated_fresh : ∀ o ∈ v.spentCreated, v.base.coin o = none
  spentBase_coin : ∀ o c, v.spentBase.lookup o = some c → v.base.coin o = some c
  tokens_fresh : ∀ id ∈ v.tokens, v.base.token id = none
  poolsBefore_iff : ∀ t, t ∈ v.poolsBefore ↔ t ∈ v.pools
  poolsBefore_base : ∀ t p, v.poolsBefore.lookup t = some p → v.base.pool t = p

theorem coin_eq (v : LedgerView) (o : OutPoint) :
    v.coin o = if o ∈ v.spentBase then none
      else (v.created.lookup o).or (if o ∈ v.spentCreated then none else v.base.coin o) := by
  rw [coin]
  cases v.created.lookup o <;> rfl

theorem token_eq (v : LedgerView) (id : Hash256) :
    v.token id = (v.tokens.lookup id).or (v.base.token id) := by
  rw [token]
  cases v.tokens.lookup id <;> rfl

theorem pool_eq (v : LedgerView) (t : Hash256) :
    v.pool t = (v.pools.lookup t).or (v.base.pool t) := by
  rw [pool]
  cases v.pools.lookup t <;> rfl

theorem addCoins_lookup (v : LedgerView) (l : List (OutPoint × Coin)) (o : OutPoint) :
    (v.addCoins l).created.lookup o = updateAll (fn v.created) l o :=
  congrFun (fn_insertAll v.created l) o

theorem addCoins_coin_eq (v : LedgerView) (l : List (OutPoint × Coin)) (o : OutPoint) :
    (v.addCoins l).coin o = if o ∈ v.spentBase then none
      else (updateAll (fn v.created) l o).or
        (if o ∈ v.spentCreated then none else v.base.coin o) := by
  rw [coin_eq, addCoins_lookup]
  rfl

/-- A new view shows its base. -/
theorem reader_mk (base : StateReader) : (LedgerView.reader { base := base }) = base := by
  have hc : LedgerView.coin { base := base } = base.coin := by
    funext o
    simp [LedgerView.coin]
  rw [LedgerView.reader, hc]
  rfl

theorem wf_mk (base : StateReader) : Wf { base := base } where
  created_fresh := fun o h => absurd h (AList.notMem_empty o)
  spentCreated_fresh := fun o h => absurd h (Finset.notMem_empty o)
  spentBase_coin := fun o c h => by cases h
  tokens_fresh := fun o h => absurd h (AList.notMem_empty o)
  poolsBefore_iff := fun _ => Iff.rfl
  poolsBefore_base := fun t p h => by cases h

/-! ## Spending -/

theorem base_coin_of_notMem_created {v : LedgerView} {o : OutPoint} {c : Coin}
    (hc : v.coin o = some c) (h : o ∉ v.created) : v.base.coin o = some c := by
  rw [coin] at hc
  split at hc
  · cases hc
  · rw [AList.lookup_eq_none.mpr h] at hc
    simp only [] at hc
    split at hc
    · cases hc
    · exact hc

theorem spendInput_base (v : LedgerView) (o : OutPoint) : (v.spendInput o).base = v.base := by
  rw [spendInput]
  split <;> rfl

theorem Wf.spendInput {v : LedgerView} (hw : v.Wf) {o : OutPoint}
    (ho : (v.coin o).isSome) : (v.spendInput o).Wf := by
  obtain ⟨c, hc⟩ := Option.isSome_iff_exists.mp ho
  rw [LedgerView.spendInput]
  split
  · next hcr =>
      exact
        { hw with
          created_fresh := fun p hp => hw.created_fresh p (AList.mem_erase.mp hp).2
          spentCreated_fresh := fun p hp => by
            rcases Finset.mem_insert.mp hp with rfl | hp
            · exact hw.created_fresh p hcr
            · exact hw.spentCreated_fresh p hp }
  · next hcr =>
      refine { hw with spentBase_coin := fun p d hp => ?_ }
      rw [lookup_insert_ite] at hp
      split at hp
      · next hpo =>
          rw [base_coin_of_notMem_created hc hcr] at hp
          rw [hpo, base_coin_of_notMem_created hc hcr]
          exact hp
      · exact hw.spentBase_coin p d hp

theorem spendInput_reader {v : LedgerView} {o : OutPoint}
    (ho : (v.coin o).isSome) : (v.spendInput o).reader = v.reader.spend o := by
  obtain ⟨c, hc⟩ := Option.isSome_iff_exists.mp ho
  have hns : o ∉ v.spentBase := by
    intro h
    rw [coin, if_pos h] at hc
    cases hc
  rw [spendInput]
  split
  · next hcr =>
      have h : LedgerView.coin { v with
          created := v.created.erase o, spentCreated := insert o v.spentCreated } =
          Function.update v.coin o none := by
        funext p
        rw [Function.update_apply]
        by_cases hp : p = o
        · subst hp
          simp only [coin, lookup_erase_ite, hns, if_true, if_false,
            Finset.mem_insert_self]
        · simp only [coin, lookup_erase_ite, Finset.mem_insert, hp, if_false, false_or]
      rw [reader, h]
      rfl
  · next hcr =>
      have h : LedgerView.coin { v with
          spentBase := v.spentBase.insert o ((v.base.coin o).getD default) } =
          Function.update v.coin o none := by
        funext p
        rw [Function.update_apply]
        by_cases hp : p = o
        · simp [coin, hp]
        · simp [coin, AList.mem_insert, hp]
      rw [reader, h]
      rfl

/-- The inputs of an accepted transaction, spent one after another. The last
part is the source's `base_.coin(in.prev).value()`. -/
theorem spendInputs_spec {l : List OutPoint} {v : LedgerView} (hw : v.Wf)
    (hnd : l.Nodup) (hl : ∀ o ∈ l, (v.coin o).isSome) :
    (l.foldl LedgerView.spendInput v).Wf ∧
    (l.foldl LedgerView.spendInput v).base = v.base ∧
    (l.foldl LedgerView.spendInput v).reader = v.reader.spendAll l ∧
    ∀ l₁ o l₂, l = l₁ ++ o :: l₂ →
      o ∈ (l₁.foldl LedgerView.spendInput v).created ∨ (v.base.coin o).isSome := by
  induction l generalizing v with
  | nil =>
      refine ⟨hw, rfl, rfl, fun l₁ o l₂ h => ?_⟩
      cases l₁ <;> cases h
  | cons p l ih =>
      have hp := hl p (List.mem_cons_self ..)
      rw [List.nodup_cons] at hnd
      have hr := spendInput_reader hp
      have hb := spendInput_base v p
      obtain ⟨hw', hb', hr', hd'⟩ := ih (hw.spendInput hp) hnd.2 (by
        intro o ho
        have hne : o ≠ p := fun he => hnd.1 (he ▸ ho)
        have hco : (v.spendInput p).coin o = (v.reader.spend p).coin o :=
          congrFun (congrArg StateReader.coin hr) o
        rw [hco]
        show (Function.update v.coin p none o).isSome
        rw [Function.update_of_ne hne]
        exact hl o (List.mem_cons_of_mem p ho))
      refine ⟨hw', hb'.trans hb, ?_, ?_⟩
      · rw [List.foldl_cons, hr', hr]
        rfl
      · intro l₁ o l₂ h
        cases l₁ with
        | nil =>
            rw [List.nil_append, List.cons.injEq] at h
            obtain ⟨rfl, -⟩ := h
            by_cases hcr : p ∈ v.created
            · exact .inl hcr
            · obtain ⟨c, hc⟩ := Option.isSome_iff_exists.mp hp
              rw [base_coin_of_notMem_created hc hcr]
              exact .inr rfl
        | cons q l₁ =>
            rw [List.cons_append, List.cons.injEq] at h
            obtain ⟨rfl, h⟩ := h
            rw [List.foldl_cons, ← hb]
            exact hd' l₁ o l₂ h

/-! ## Creating -/

theorem Wf.addCoins {v : LedgerView} (hw : v.Wf) {l : List (OutPoint × Coin)}
    (hl : ∀ o ∈ l.map Prod.fst, v.base.coin o = none) : (v.addCoins l).Wf :=
  { hw with
    created_fresh := fun o ho =>
      (mem_of_mem_insertAll ho).elim (hl o) (hw.created_fresh o) }

theorem addCoins_reader {v : LedgerView} (hw : v.Wf) {l : List (OutPoint × Coin)}
    (hl : ∀ o ∈ l.map Prod.fst, v.base.coin o = none) :
    (v.addCoins l).reader = v.reader.addCoins l := by
  have h : (v.addCoins l).coin = updateAll v.coin l := by
    funext o
    rw [addCoins_coin_eq]
    by_cases ho : o ∈ l.map Prod.fst
    · have hns : o ∉ v.spentBase := by
        intro hs
        obtain ⟨c, hc⟩ := mem_iff_exists.mp hs
        have hb := hw.spentBase_coin o c hc
        rw [hl o ho] at hb
        cases hb
      obtain ⟨c, hc⟩ := exists_updateAll_of_mem ho
      rw [if_neg hns, hc, hc, Option.some_or]
    · rw [updateAll_of_notMem _ ho, updateAll_of_notMem _ ho, coin_eq]
      rfl
  rw [v.reader.addCoins_eq l]
  show StateReader.mk (v.addCoins l).coin v.token v.pool = _
  rw [h]
  rfl

/-! ## Tokens and pools -/

theorem Wf.addTokens {v : LedgerView} (hw : v.Wf) {l : List (Hash256 × TokenInfo)}
    (hl : ∀ id ∈ l.map Prod.fst, v.base.token id = none) : (v.addTokens l).Wf :=
  { hw with
    tokens_fresh := fun id hid =>
      (mem_of_mem_insertAll hid).elim (hl id) (hw.tokens_fresh id) }

theorem addTokens_token (v : LedgerView) (m : UMap Hash256 TokenInfo) (id : Hash256) :
    (v.addTokens (pairs m)).token id = (m.lookup id).or (v.token id) := by
  have h : (insertAll v.tokens (pairs m)).lookup id = (m.lookup id).or (v.tokens.lookup id) :=
    (congrFun (fn_insertAll v.tokens (pairs m)) id).trans (updateAll_pairs _ m id)
  have ht : (v.addTokens (pairs m)).token id =
      ((insertAll v.tokens (pairs m)).lookup id).or (v.base.token id) := token_eq ..
  rw [ht, h, token_eq, Option.or_assoc]

theorem Wf.putPool {v : LedgerView} (hw : v.Wf) (t : Hash256) (p : Option Pool) :
    (v.putPool t p).Wf := by
  have hmem : t ∉ v.poolsBefore ∧ t ∉ v.pools ↔ t ∉ v.pools := by
    rw [hw.poolsBefore_iff, and_self]
  refine { hw with poolsBefore_iff := fun x => ?_, poolsBefore_base := fun x q hx => ?_ }
  · simp only [LedgerView.putPool, hmem]
    split
    · rw [AList.mem_insert, AList.mem_insert, hw.poolsBefore_iff]
    · next ht =>
        rw [AList.mem_insert, hw.poolsBefore_iff]
        constructor
        · exact .inr
        · rintro (rfl | h)
          · exact not_not.mp ht
          · exact h
  · simp only [LedgerView.putPool] at hx
    split at hx
    · rw [lookup_insert_ite] at hx
      split at hx
      · next hxt =>
          cases hx
          exact congrArg v.base.pool hxt
      · exact hw.poolsBefore_base x q hx
    · exact hw.poolsBefore_base x q hx

theorem putPools_spec (l : List (Hash256 × Option Pool)) {v : LedgerView} (hw : v.Wf) :
    (v.putPools l).Wf ∧ (v.putPools l).coin = v.coin ∧ (v.putPools l).token = v.token := by
  induction l generalizing v with
  | nil => exact ⟨hw, rfl, rfl⟩
  | cons e l ih =>
      obtain ⟨hw', hc, ht⟩ := ih (hw.putPool e.1 e.2)
      exact ⟨hw', hc, ht⟩

theorem putPools_pools (l : List (Hash256 × Option Pool)) (v : LedgerView) :
    (v.putPools l).base = v.base ∧
    (v.putPools l).pools = insertAll v.pools (l.map fun e => (e.1, e.2.getD default)) := by
  induction l generalizing v with
  | nil => exact ⟨rfl, rfl⟩
  | cons e l ih => exact ih (v.putPool e.1 e.2)

/-- The pools of the view once the touched ones are written, each with the
value its scratch copy ended in. -/
theorem putPools_pool (v : LedgerView) {m : UMap Hash256 (Option Pool)}
    (hm : ∀ t p, m.lookup t = some p → p.isSome) (t : Hash256) :
    (v.putPools (pairs m)).pool t = (m.lookup t).getD (v.pool t) := by
  obtain ⟨hb, hpl⟩ := putPools_pools (pairs m) v
  have hfst : ((pairs m).map fun e => (e.1, e.2.getD default)).map Prod.fst = m.keys := by
    rw [List.map_map]
    exact pairs_fst m
  have hl : (v.putPools (pairs m)).pools.lookup t =
      updateAll (fn v.pools) ((pairs m).map fun e => (e.1, e.2.getD default)) t := by
    rw [hpl]
    exact congrFun (fn_insertAll v.pools _) t
  rw [pool, hl, hb]
  cases h : m.lookup t with
  | none =>
      rw [updateAll_of_notMem]
      · rfl
      · rw [hfst]
        exact AList.lookup_eq_none.mp h
  | some p =>
      obtain ⟨q, rfl⟩ := Option.isSome_iff_exists.mp (hm t p h)
      rw [updateAll_of_mem (v := q)]
      · rfl
      · rw [hfst]
        exact m.keys_nodup
      · exact List.mem_map.mpr ⟨(t, some q), mem_pairs.mpr h, rfl⟩

/-! ## The commit section -/

variable [Crypto]

omit [Crypto] in
theorem map_fst_newCoins {txid : Hash256} {outs : List TxOut} {height : UInt64}
    {coinbase : Bool} {o : OutPoint}
    (h : o ∈ (newCoins txid outs height coinbase).map Prod.fst) : o.txid = txid := by
  rw [newCoins, List.map_map, List.mem_map] at h
  obtain ⟨x, -, rfl⟩ := h
  rfl

/-- A transaction's outpoints are not coins of the base. -/
def Fresh (base : StateReader) (tx : Transaction) : Prop :=
  ∀ n, base.coin ⟨tx.txid, n⟩ = none

theorem Fresh.newCoins {base : StateReader} {tx : Transaction} (h : Fresh base tx)
    (height : UInt64) (coinbase : Bool) :
    ∀ o ∈ (newCoins tx.txid tx.outs height coinbase).map Prod.fst, base.coin o = none := by
  intro o ho
  have hid := map_fst_newCoins ho
  have := h o.n
  rwa [← hid] at this

theorem applyCoinbase_spec {v : LedgerView} (hw : v.Wf) {tx : Transaction}
    (hf : Fresh v.base tx) (height : UInt64) :
    (v.applyCoinbase tx height).Wf ∧
      (v.applyCoinbase tx height).reader = v.reader.applyCoinbase tx height :=
  ⟨hw.addCoins (hf.newCoins height true), addCoins_reader hw (hf.newCoins height true)⟩

end LedgerView

/-- What the ops leave behind: every scratch pool exists and every token is
new to the reader. -/
structure OpState.Settled (r : StateReader) (st : OpState) : Prop where
  touched_some : ∀ t p, st.touched.lookup t = some p → p.isSome
  minted_fresh : ∀ id ∈ st.minted, r.token id = none

variable [Crypto]

theorem applyOp_settled {r : StateReader} {tx : Transaction} {height : UInt64}
    {coins : List Coin} {i : UInt32} {st st' : OpState} {op : TxOp}
    (h : applyOp r tx height coins i st op = .ok st') (hs : st.Settled r) :
    st'.Settled r := by
  have hpool : ∀ t, op.poolToken = some t → st'.Settled r := by
    intro t ht
    rw [applyOp_pool 0 ht] at h
    cases hp : poolStep (tokenKnown r st t) op (getPool r st t) with
    | error e => rw [hp] at h; cases h
    | ok p =>
        rw [hp] at h
        cases h
        refine { hs with touched_some := fun x q hx => ?_ }
        rw [lookup_insert_ite] at hx
        split at hx
        · cases hx
          rfl
        · exact hs.touched_some x q hx
  cases op with
  | createToken c =>
      simp only [applyOp] at h
      split at h
      · cases h
      next hk =>
      cases h
      refine { hs with minted_fresh := fun x hx => ?_ }
      rcases AList.mem_insert _ |>.mp hx with rfl | hx
      · rw [tokenKnown] at hk
        simp only [Bool.or_eq_true, not_or, Option.not_isSome_iff_eq_none] at hk
        exact hk.2
      · exact hs.minted_fresh x hx
  | message m =>
      simp only [applyOp] at h
      split at h
      · cases h
        exact hs
      · cases h
  | poolCreate p => exact hpool p.token rfl
  | addLiquidity a => exact hpool a.token rfl
  | removeLiquidity rm => exact hpool rm.token rfl
  | swap s => exact hpool s.token rfl

theorem applyOps_settled {r : StateReader} {tx : Transaction} {height : UInt64}
    {coins : List Coin} {i : UInt32} {ops : List TxOp} {st st' : OpState}
    (h : applyOps r tx height coins i ops st = .ok st') (hs : st.Settled r) :
    st'.Settled r := by
  induction ops generalizing i st with
  | nil =>
      cases h
      exact hs
  | cons op ops ih =>
      rw [applyOps] at h
      split at h
      · cases h
      next st₁ h₁ => exact ih h (applyOp_settled h₁ hs)

theorem checkTx_settled {r : StateReader} {tx : Transaction} {height : UInt64}
    {genesis : Hash256} {verifySigs : Bool} {st : OpState} {fee : Amount}
    (h : checkTx r tx height genesis verifySigs = .ok (st, fee)) : st.Settled r := by
  obtain ⟨-, -, coins, -, hops, -⟩ := checkTx_ok h
  exact applyOps_settled hops
    { touched_some := fun t p hp => by cases hp
      minted_fresh := fun id hid => absurd hid (AList.notMem_empty id) }

/-- Every input of an accepted transaction is a coin it may spend, in the state
it was checked against. -/
theorem checkTx_spendable {r : StateReader} {tx : Transaction} {height : UInt64}
    {genesis : Hash256} {verifySigs : Bool} {st : OpState} {fee : Amount}
    (h : checkTx r tx height genesis verifySigs = .ok (st, fee)) :
    ∀ i ∈ tx.ins, ∃ c, Spendable r height genesis i c := by
  obtain ⟨-, -, coins, hcoins, -⟩ := checkTx_ok h
  have hall : ∀ {ins : List TxIn} {cs : List Coin},
      List.Forall₂ (Spendable r height genesis) ins cs →
      ∀ i ∈ ins, ∃ c, Spendable r height genesis i c := by
    intro ins cs hf
    induction hf with
    | nil => intro i hi; cases hi
    | cons hi _ ih =>
        intro j hj
        rcases List.mem_cons.mp hj with rfl | hj
        · exact ⟨_, hi⟩
        · exact ih j hj
  exact hall hcoins

theorem checkTx_inputs {r : StateReader} {tx : Transaction} {height : UInt64}
    {genesis : Hash256} {verifySigs : Bool} {st : OpState} {fee : Amount}
    (h : checkTx r tx height genesis verifySigs = .ok (st, fee)) :
    ∀ o ∈ tx.ins.map TxIn.prev, (r.coin o).isSome := by
  intro o ho
  obtain ⟨i, hi, rfl⟩ := List.mem_map.mp ho
  obtain ⟨c, hc⟩ := checkTx_spendable h i hi
  rw [hc.1]
  rfl

namespace LedgerView

omit [Crypto] in
theorem spendInput_pool (v : LedgerView) (o : OutPoint) : (v.spendInput o).pool = v.pool := by
  rw [spendInput]
  split <;> rfl

omit [Crypto] in
theorem spendInputs_pool (l : List OutPoint) (v : LedgerView) :
    (l.foldl spendInput v).pool = v.pool := by
  induction l generalizing v with
  | nil => rfl
  | cons o l ih => rw [List.foldl_cons, ih, spendInput_pool]

omit [Crypto] in
theorem spendInputs_base (l : List OutPoint) (v : LedgerView) :
    (l.foldl spendInput v).base = v.base := by
  induction l generalizing v with
  | nil => rfl
  | cons o l ih => rw [List.foldl_cons, ih, spendInput_base]

theorem commit_base (v : LedgerView) (tx : Transaction) (height : UInt64) (st : OpState) :
    (v.commit tx height st).base = v.base :=
  (putPools_pools (pairs st.touched) _).1.trans (spendInputs_base (tx.ins.map TxIn.prev) v)

/-- After the commit a pool is its scratch copy, or what it was. -/
theorem commit_pool (v : LedgerView) (tx : Transaction) (height : UInt64) {st : OpState}
    (hst : ∀ t p, st.touched.lookup t = some p → p.isSome) :
    (v.commit tx height st).pool = getPool v.reader st := by
  funext t
  refine (putPools_pool _ hst t).trans ?_
  have hv : ((((tx.ins.map TxIn.prev).foldl spendInput v).addCoins
      (newCoins tx.txid tx.outs height false)).addTokens (pairs st.minted)).pool t =
        v.pool t := congrFun (spendInputs_pool (tx.ins.map TxIn.prev) v) t
  rw [getPool, hv]
  cases st.touched.lookup t with
  | none => rfl
  | some p => rfl


/-- The writes of an accepted transaction, as one update of the state the view
denotes. -/
theorem commit_spec {v : LedgerView} (hw : v.Wf) {tx : Transaction} (height : UInt64)
    {st : OpState} (hnd : (tx.ins.map TxIn.prev).Nodup) (hf : Fresh v.base tx)
    (hin : ∀ o ∈ tx.ins.map TxIn.prev, (v.coin o).isSome) (hst : st.Settled v.reader) :
    (v.commit tx height st).Wf ∧ (v.commit tx height st).base = v.base ∧
      (v.commit tx height st).reader = v.reader.commit tx height st := by
  obtain ⟨hw₁, hb₁, hr₁, -⟩ := spendInputs_spec hw hnd hin
  have hf₁ := hf.newCoins height false
  rw [← hb₁] at hf₁
  have hw₂ := hw₁.addCoins hf₁
  have hr₂ := addCoins_reader hw₁ hf₁
  have htok : ∀ id ∈ (pairs st.minted).map Prod.fst, v.base.token id = none := by
    intro id hid
    rw [pairs_fst] at hid
    have := hst.minted_fresh id (AList.mem_keys.mpr hid)
    have hv : v.token id = none := this
    rw [token] at hv
    split at hv
    · cases hv
    · exact hv
  have hw₃ := hw₂.addTokens (l := pairs st.minted) (by rw [← hb₁] at htok; exact htok)
  obtain ⟨hw₄, hc₄, ht₄⟩ := putPools_spec (pairs st.touched) hw₃
  refine ⟨hw₄, commit_base v tx height st, ?_⟩
  have hpool := commit_pool v tx height hst.touched_some
  have htoken : (v.commit tx height st).token =
      fun id => (st.minted.lookup id).or (v.token id) := by
    funext id
    have h := congrFun ht₄ id
    refine Eq.trans h ?_
    rw [addTokens_token]
    congr 1
    have h := congrArg (fun r => StateReader.token r id) hr₂
    rw [StateReader.addCoins_eq] at h
    refine Eq.trans h ?_
    rw [hr₁, StateReader.spendAll_eq]
    rfl
  have hcoin : (v.commit tx height st).coin =
      updateAll (v.reader.spendAll (tx.ins.map TxIn.prev)).coin
        (newCoins tx.txid tx.outs height false) := by
    refine hc₄.trans ?_
    have h := congrArg StateReader.coin hr₂
    rw [StateReader.addCoins_coin, hr₁] at h
    exact h
  rw [reader, hcoin, htoken, hpool, StateReader.commit, StateReader.addCoins_eq]
  rfl

end LedgerView

end QuantCore
