import QuantCore.Spec.Reference

/-!
# What a check decides

`checkTx` reads one state and computes scratch copies; the reference `step`
changes a state as it goes. This file shows that the two always agree: an
`OpState` over a reader denotes a state, every op does to the denoted state
what the reference op does, and so the whole check is the reference step with
the writing left out. The only thing the check relies on is that no input is
named twice, since it never takes the coins it has seen out of the state it
reads; `check_tx_basic` has refused such a transaction before.
-/

namespace QuantCore

open Maps

/-! ## The coins that are left -/

namespace StateReader

def spendAll (s : StateReader) (l : List OutPoint) : StateReader := l.foldl spend s

theorem spendAll_coin (s : StateReader) (l : List OutPoint) (o : OutPoint) :
    (s.spendAll l).coin o = if o ∈ l then none else s.coin o := by
  induction l generalizing s with
  | nil => simp [spendAll]
  | cons p l ih =>
      have h : (s.spendAll (p :: l)).coin o = ((s.spend p).spendAll l).coin o := rfl
      have hp : (s.spend p).coin o = if o = p then none else s.coin o :=
        Function.update_apply ..
      rw [h, ih, hp]
      by_cases ho : o = p
      · simp [ho]
      · simp [ho]

theorem spendAll_eq (s : StateReader) (l : List OutPoint) :
    s.spendAll l = ⟨(s.spendAll l).coin, s.token, s.pool⟩ := by
  induction l generalizing s with
  | nil => rfl
  | cons p l ih => exact ih (s.spend p)

theorem addCoins_eq (s : StateReader) (l : List (OutPoint × Coin)) :
    s.addCoins l = ⟨updateAll s.coin l, s.token, s.pool⟩ := by
  induction l generalizing s with
  | nil => rfl
  | cons e l ih => exact ih (s.addCoin e.1 e.2)

theorem addCoins_coin (s : StateReader) (l : List (OutPoint × Coin)) :
    (s.addCoins l).coin = updateAll s.coin l := by
  rw [addCoins_eq]

end StateReader

/-- An input list names no coin twice: the last of the shape checks. -/
theorem checkTxBasic_nodup {tx : Transaction} {w : Bool} {a : Amount}
    (h : checkTxBasic tx w = .ok a) : (tx.ins.map TxIn.prev).Nodup := by
  have hs : checkShape tx w = .ok () := by
    rw [checkTxBasic] at h
    split at h
    · cases h
    · assumption
  rw [checkShape] at hs
  split at hs
  · cases hs
  split at hs
  · cases hs
  split at hs
  · next hcb =>
      have : tx.ins = [] := List.isEmpty_iff.mp hcb
      rw [this]
      exact List.nodup_nil
  · split at hs
    · cases hs
    split at hs
    · cases hs
    split at hs
    · cases hs
    split at hs
    · cases hs
    · next hnd => exact not_not.mp hnd

/-! ## Inputs -/

variable [Crypto]

/-- A coin an input may spend at this height. -/
def Spendable (r : StateReader) (height : UInt64) (genesis : Hash256) (i : TxIn)
    (c : Coin) : Prop :=
  r.coin i.prev = some c ∧
    ¬ (c.coinbase = true ∧
      height < c.height + UInt64.ofNat (maturityForGenesis genesis))

/-- The flows of coins released or locked in. -/
def coinFlows (outs : List TxOut) : List (Hash256 × Nat) :=
  outs.map fun o => (o.asset, o.value.toNat)

theorem takeInputs_spec {r : StateReader} {height : UInt64} {genesis : Hash256}
    {ins : List TxIn} {plus plus' : Flows} {coins coins' : List Coin}
    (h : takeInputs r height genesis ins plus coins = .ok (coins', plus')) :
    ∃ cs, coins' = coins ++ cs ∧ List.Forall₂ (Spendable r height genesis) ins cs ∧
      plus' = plus.addAll (coinFlows (cs.map Coin.out)) := by
  induction ins generalizing plus coins with
  | nil =>
      cases h
      exact ⟨[], (List.append_nil _).symm, .nil, rfl⟩
  | cons i ins ih =>
      rw [takeInputs] at h
      split at h
      · cases h
      · next c hc =>
          split at h
          · cases h
          · next hm =>
              obtain ⟨cs, rfl, hcs, rfl⟩ := ih h
              exact ⟨c :: cs, by rw [List.append_assoc]; rfl, .cons ⟨hc, hm⟩ hcs, rfl⟩

theorem refInputs_eq {r : StateReader} {height : UInt64} {genesis : Hash256}
    {ins : List TxIn} {s : RefState} {coins : List Coin}
    (hnd : (ins.map TxIn.prev).Nodup)
    (hs : ∀ i ∈ ins, s.state.coin i.prev = r.coin i.prev) :
    RefState.inputs height genesis ins s coins =
      (takeInputs r height genesis ins s.plus coins).map fun x =>
        (x.1, ⟨s.state.spendAll (ins.map TxIn.prev), x.2, s.minus⟩) := by
  induction ins generalizing s coins with
  | nil => rfl
  | cons i ins ih =>
      rw [List.map_cons, List.nodup_cons] at hnd
      rw [RefState.inputs, takeInputs, hs i (List.mem_cons_self ..)]
      cases hc : r.coin i.prev with
      | none => rfl
      | some c =>
          simp only []
          split
          · rfl
          · rw [ih hnd.2]
            · rfl
            · intro j hj
              have hne : j.prev ≠ i.prev := fun he =>
                hnd.1 (he ▸ List.mem_map_of_mem hj)
              show Function.update s.state.coin i.prev none j.prev = _
              rw [Function.update_of_ne hne]
              exact hs j (List.mem_cons_of_mem i hj)

/-! ## Ops -/

/-- The state an `OpState` stands for, over the reader it was computed from
and with the coins `l` taken. -/
def OpState.state (r : StateReader) (l : List OutPoint) (st : OpState) : StateReader where
  coin := (r.spendAll l).coin
  token := fun id => (st.minted.lookup id).or (r.token id)
  pool := getPool r st

/-- What an `OpState` stands for in the reference. -/
def OpState.denote (r : StateReader) (l : List OutPoint) (st : OpState) : RefState :=
  ⟨st.state r l, st.plus, st.minus⟩

omit [Crypto] in
theorem tokenKnown_eq (r : StateReader) (st : OpState) (l : List OutPoint) (t : Hash256) :
    tokenKnown r st t = ((st.state r l).token t).isSome := by
  show (decide (t ∈ st.minted) || (r.token t).isSome) =
    ((st.minted.lookup t).or (r.token t)).isSome
  cases h : st.minted.lookup t with
  | none =>
      have hn : t ∉ st.minted := AList.lookup_eq_none.mp h
      simp [hn]
  | some x =>
      have hm : t ∈ st.minted := mem_iff_exists.mpr ⟨x, h⟩
      simp [hm]

omit [Crypto] in
theorem state_touch (r : StateReader) (l : List OutPoint) (st : OpState) (t : Hash256)
    (p : Pool) (plus minus : Flows) :
    OpState.state r l ⟨plus, minus, st.touched.insert t (some p), st.minted⟩ =
      (st.state r l).setPool t p := by
  have hp : getPool r ⟨plus, minus, st.touched.insert t (some p), st.minted⟩ =
      Function.update (getPool r st) t (some p) := by
    funext x
    rw [getPool, lookup_insert_ite, Function.update_apply]
    by_cases hx : x = t
    · simp [hx]
    · simp only [if_neg hx]
      rfl
  rw [OpState.state, hp]
  rfl

omit [Crypto] in
theorem state_mint (r : StateReader) (l : List OutPoint) (st : OpState) (id : Hash256)
    (x : TokenInfo) (plus minus : Flows) :
    OpState.state r l ⟨plus, minus, st.touched, st.minted.insert id x⟩ =
      (st.state r l).mint id x := by
  have ht : (fun k => ((st.minted.insert id x).lookup k).or (r.token k)) =
      Function.update (fun k => (st.minted.lookup k).or (r.token k)) id (some x) := by
    funext k
    rw [lookup_insert_ite, Function.update_apply]
    by_cases hk : k = id
    · simp [hk]
    · simp only [if_neg hk]
  rw [OpState.state, ht]
  rfl

/-- A pool op, as the step on the pool it finds. -/
theorem applyOp_pool {r : StateReader} {tx : Transaction} {height : UInt64}
    {coins : List Coin} {i : UInt32} {st : OpState} {op : TxOp} {t : Hash256}
    (id : Hash256) (h : op.poolToken = some t) :
    applyOp r tx height coins i st op =
      (poolStep (tokenKnown r st t) op (getPool r st t)).map fun p =>
        ⟨st.plus.addAll (op.released id), st.minus.addAll op.absorbed,
          st.touched.insert t (some p), st.minted⟩ := by
  cases op with
  | createToken c => cases h
  | message m => cases h
  | poolCreate p =>
      cases h
      simp only [applyOp, poolStep]
      by_cases hk : tokenKnown r st p.token = true
      · simp only [hk, Bool.not_true, Bool.false_eq_true, if_false]
        cases hp : getPool r st p.token with
        | some q => rfl
        | none =>
            simp only [Option.isSome_none, Bool.false_eq_true, if_false]
            split
            · rfl
            · split
              · rfl
              · rfl
      · simp only [hk, Bool.not_false, if_true]
        rfl
  | addLiquidity a =>
      cases h
      cases hp : getPool r st a.token with
      | none => simp only [applyOp, poolStep, hp]; rfl
      | some pl =>
          simp only [applyOp, poolStep, hp]
          split
          · rfl
          · split
            · rfl
            · rfl
  | removeLiquidity rm =>
      cases h
      cases hp : getPool r st rm.token with
      | none => simp only [applyOp, poolStep, hp]; rfl
      | some pl =>
          simp only [applyOp, poolStep, hp]
          split
          · rfl
          · split
            · rfl
            · rfl
  | swap s =>
      cases h
      cases hp : getPool r st s.token with
      | none => simp only [applyOp, poolStep, hp]; rfl
      | some pl =>
          cases hsell : s.sell with
          | false =>
              simp only [applyOp, poolStep, hp, hsell, Bool.false_eq_true, if_false]
              split
              · rfl
              · split
                · rfl
                · simp only [Except.map, TxOp.released, TxOp.absorbed, hsell,
                    Bool.false_eq_true, if_false]
                  rfl
          | true =>
              simp only [applyOp, poolStep, hp, hsell, if_true]
              split
              · rfl
              · split
                · rfl
                · simp only [Except.map, TxOp.released, TxOp.absorbed, hsell, if_true]
                  rfl

/-- The reference op on a pool, in the same form. -/
theorem RefState.op_pool {tx : Transaction} {height : UInt64} {coins : List Coin}
    {i : UInt32} {s : RefState} {op : TxOp} {t : Hash256} (h : op.poolToken = some t) :
    s.op tx height coins i op =
      (poolStep (s.state.token t).isSome op (s.state.pool t)).map fun p =>
        s.flow (s.state.setPool t p) (tokenId (tx.ins.headD default).prev i) op := by
  have ht : op.poolToken.getD 0 = t := by
    rw [h]
    rfl
  cases op with
  | createToken c => cases h
  | message m => cases h
  | _ =>
      simp only [RefState.op, ht]
      cases poolStep (s.state.token t).isSome _ (s.state.pool t) <;> rfl

/-- One op, on the scratch copies and on the state they stand for. -/
theorem refOp_eq (r : StateReader) (l : List OutPoint) (tx : Transaction)
    (height : UInt64) (coins : List Coin) (i : UInt32) (st : OpState) (op : TxOp) :
    (st.denote r l).op tx height coins i op =
      (applyOp r tx height coins i st op).map (OpState.denote r l) := by
  have hpool : ∀ t, op.poolToken = some t →
      (st.denote r l).op tx height coins i op =
        (applyOp r tx height coins i st op).map (OpState.denote r l) := by
    intro t ht
    rw [applyOp_pool (tokenId (tx.ins.headD default).prev i) ht, RefState.op_pool ht,
      tokenKnown_eq r st l t]
    show (poolStep ((st.state r l).token t).isSome op (getPool r st t)).map _ = _
    generalize poolStep ((st.state r l).token t).isSome op (getPool r st t) = x
    cases x with
    | error e => rfl
    | ok p =>
        simp only [Except.map, OpState.denote, RefState.flow, state_touch]
  cases op with
  | createToken c =>
      simp only [RefState.op, applyOp, tokenKnown_eq r st l]
      show (if ((st.state r l).token _).isSome then _ else _) = _
      split
      · rfl
      · simp only [Except.map, OpState.denote, RefState.flow, state_mint]
        rfl
  | message m =>
      simp only [RefState.op, applyOp]
      split
      · rfl
      · rfl
  | poolCreate p => exact hpool p.token rfl
  | addLiquidity a => exact hpool a.token rfl
  | removeLiquidity rm => exact hpool rm.token rfl
  | swap s => exact hpool s.token rfl

theorem refOps_eq (r : StateReader) (l : List OutPoint) (tx : Transaction)
    (height : UInt64) (coins : List Coin) (i : UInt32) (ops : List TxOp) (st : OpState) :
    RefState.ops tx height coins i ops (st.denote r l) =
      (applyOps r tx height coins i ops st).map (OpState.denote r l) := by
  induction ops generalizing i st with
  | nil => rfl
  | cons op ops ih =>
      rw [RefState.ops, applyOps, refOp_eq]
      cases applyOp r tx height coins i st op with
      | error e => rfl
      | ok st' => exact ih (i + 1) st'

/-! ## A whole transaction -/

/-- The state after a transaction whose check ended in `st`. -/
def StateReader.commit (s : StateReader) (tx : Transaction) (height : UInt64)
    (st : OpState) : StateReader :=
  (st.state s (tx.ins.map TxIn.prev)).addCoins (newCoins tx.txid tx.outs height false)

/-- The reference step is the check with the writing added. -/
theorem step_eq_checkTx {s : StateReader} {tx : Transaction} {height : UInt64}
    {genesis : Hash256} {verifySigs : Bool} (hnd : (tx.ins.map TxIn.prev).Nodup) :
    s.step tx height genesis verifySigs =
      (checkTx s tx height genesis verifySigs).map fun x =>
        (s.commit tx height x.1, x.2) := by
  rw [StateReader.step, checkTx]
  split
  · rfl
  split
  · rfl
  rw [refInputs_eq (r := s) hnd (fun _ _ => rfl)]
  cases takeInputs s height genesis tx.ins ∅ [] with
  | error e => rfl
  | ok x =>
      obtain ⟨coins, plus⟩ := x
      have hstart : (⟨s.spendAll (tx.ins.map TxIn.prev), plus,
            Flows.addAll ∅ (tx.outs.map fun o => (o.asset, o.value.toNat))⟩ : RefState) =
          OpState.denote s (tx.ins.map TxIn.prev)
            ⟨plus, tx.outs.foldl (fun f o => Flows.add f o.asset o.value.toNat) ∅, ∅, ∅⟩ := by
        rw [OpState.denote, Flows.addAll, List.foldl_map]
        congr 1
        exact s.spendAll_eq (tx.ins.map TxIn.prev)
      simp only [Except.map]
      rw [hstart, refOps_eq]
      cases applyOps s tx height coins 0 tx.ops _ with
      | error e => rfl
      | ok st =>
          simp only [Except.map, OpState.denote]
          cases balance st.plus st.minus (flowAssets st.plus st.minus) 0 with
          | error e => rfl
          | ok fee =>
              cases verifySigs with
              | false => rfl
              | true =>
                  simp only [if_true]
                  cases verifyWitness tx coins genesis with
                  | error e => rfl
                  | ok u => rfl

/-- What an accepted transaction went through. -/
theorem checkTx_ok {r : StateReader} {tx : Transaction} {height : UInt64}
    {genesis : Hash256} {verifySigs : Bool} {st : OpState} {fee : Amount}
    (h : checkTx r tx height genesis verifySigs = .ok (st, fee)) :
    tx.isCoinbase = false ∧ tx.lockHeight ≤ height ∧
    ∃ coins, List.Forall₂ (Spendable r height genesis) tx.ins coins ∧
      applyOps r tx height coins 0 tx.ops
        ⟨Flows.addAll ∅ (coinFlows (coins.map Coin.out)),
          Flows.addAll ∅ (coinFlows tx.outs), ∅, ∅⟩ = .ok st ∧
      balance st.plus st.minus (flowAssets st.plus st.minus) 0 = .ok fee ∧
      (verifySigs = true → verifyWitness tx coins genesis = .ok ()) := by
  rw [checkTx] at h
  split at h
  · cases h
  next hcb =>
  split at h
  · cases h
  next hlock =>
  split at h
  · cases h
  next coins plus hin =>
  simp only [] at h
  split at h
  · cases h
  next st' hops =>
  split at h
  · cases h
  next fee' hbal =>
  obtain ⟨cs, rfl, hcs, rfl⟩ := takeInputs_spec hin
  have hminus : tx.outs.foldl (fun f o => Flows.add f o.asset o.value.toNat) ∅ =
      Flows.addAll ∅ (coinFlows tx.outs) := by
    rw [Flows.addAll, coinFlows, List.foldl_map]
  rw [hminus] at hops
  refine ⟨by simpa using hcb, by simpa using hlock, coins, hcs, ?_⟩
  cases verifySigs with
  | false =>
      simp only [Bool.false_eq_true, if_false] at h
      cases h
      exact ⟨hops, hbal, fun h => by cases h⟩
  | true =>
      simp only [if_true] at h
      split at h
      · cases h
      next hv =>
      cases h
      exact ⟨hops, hbal, fun _ => hv⟩

end QuantCore
