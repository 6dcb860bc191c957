import QuantCore.Lib.Totals
import QuantCore.Proofs.Flows
import QuantCore.Proofs.Solvency
import QuantCore.Proofs.Undo

/-!
# What a state holds of an asset

The coins and the pools of a state hold so much of an asset; tokens have been
issued and shares are out. What is held less what was issued is the net of the
asset. An input, an op and an output each move the net by just what they put on
one of the two sides of the balance, so a transaction moves the net of QNT by its
fee and that of no other asset.
-/

namespace QuantCore

open Maps Totals

/-- What a coin is worth in an asset. -/
def Coin.worth (a : Hash256) (c : Coin) : Int :=
  if c.out.asset = a then (c.out.value.toNat : Int) else 0

/-- What a token's supply is in an asset: all of it in its own. -/
def TokenInfo.worth (a id : Hash256) (t : TokenInfo) : Int :=
  if id = a then (t.supply.toNat : Int) else 0

variable [Crypto]

/-- What a pool is worth in an asset: its reserves, less the shares that are out.
The shares it locks are never out. -/
def Pool.worth (a t : Hash256) (p : Pool) : Int :=
  (if qntAsset = a then (p.qnt.toNat : Int) else 0) + (if t = a then (p.tok.toNat : Int) else 0) -
    if poolShareId t = a then (p.shares.toNat : Int) - minLiquidity.toNat else 0

/-- What coins and pools hold of an asset, a coin counted as `w` says, less what
has been issued of it. -/
def StateReader.Net (w : Coin → Int) (a : Hash256) (s : StateReader) (n : Int) : Prop :=
  ∃ coins pools tokens, Weighs (fun _ => w) s.coin coins ∧ Weighs (Pool.worth a) s.pool pools ∧
    Weighs (TokenInfo.worth a) s.token tokens ∧ n = coins + pools - tokens

namespace StateReader.Net

variable {w : Coin → Int} {a : Hash256} {s : StateReader} {n : Int}

theorem empty (w : Coin → Int) (a : Hash256) : StateReader.empty.Net w a 0 :=
  ⟨0, 0, 0, weighs_empty _, weighs_empty _, weighs_empty _, rfl⟩

theorem unique (h : s.Net w a n) {n' : Int} (h' : s.Net w a n') : n = n' := by
  obtain ⟨c, p, t, hc, hp, ht, rfl⟩ := h
  obtain ⟨c', p', t', hc', hp', ht', rfl⟩ := h'
  rw [hc.unique hc', hp.unique hp', ht.unique ht']

theorem spend (h : s.Net w a n) {o : OutPoint} {c : Coin} (hc : s.coin o = some c) :
    (s.spend o).Net w a (n - w c) := by
  obtain ⟨cs, p, t, hcs, hp, ht, rfl⟩ := h
  exact ⟨cs - w c, p, t, hcs.erase hc, hp, ht, by omega⟩

theorem addCoin (h : s.Net w a n) {o : OutPoint} (ho : s.coin o = none) (c : Coin) :
    (s.addCoin o c).Net w a (n + w c) := by
  obtain ⟨cs, p, t, hcs, hp, ht, rfl⟩ := h
  exact ⟨cs + w c, p, t, hcs.insert ho c, hp, ht, by omega⟩

/-- New coins, each at an outpoint of its own. -/
theorem addCoins (h : s.Net w a n) {l : List (OutPoint × Coin)}
    (hnd : (l.map Prod.fst).Nodup) (hl : ∀ o ∈ l.map Prod.fst, s.coin o = none) :
    (s.addCoins l).Net w a (n + (l.map fun e => w e.2).sum) := by
  induction l generalizing s n with
  | nil => rwa [List.map_nil, List.sum_nil, Int.add_zero]
  | cons e l ih =>
      rw [List.map_cons] at hnd hl
      obtain ⟨he, hnd⟩ := List.nodup_cons.mp hnd
      rw [List.map_cons, List.sum_cons, ← Int.add_assoc]
      refine ih (h.addCoin (hl e.1 List.mem_cons_self) e.2) hnd fun o ho => ?_
      show Function.update s.coin e.1 (some e.2) o = none
      rw [Function.update_of_ne]
      · exact hl o (List.mem_cons_of_mem _ ho)
      · rintro rfl
        exact he ho

theorem mint (h : s.Net w a n) {id : Hash256} (hid : s.token id = none) (t : TokenInfo) :
    (s.mint id t).Net w a (n - t.worth a id) := by
  obtain ⟨cs, p, ts, hcs, hp, hts, rfl⟩ := h
  exact ⟨cs, p, ts + t.worth a id, hcs, hp, hts.insert hid t, by omega⟩

theorem setPool (h : s.Net w a n) (t : Hash256) (p : Pool) :
    (s.setPool t p).Net w a (n + (p.worth a t - (s.pool t).elim 0 (Pool.worth a t))) := by
  obtain ⟨cs, ps, ts, hcs, hp, hts, rfl⟩ := h
  exact ⟨cs, _, ts, hcs, hp.put t p, hts, by omega⟩

end StateReader.Net

/-! ## Ops -/

/-- A pool op moves a pool's worth by what it absorbs less what it releases. -/
theorem TxOp.Exact.worth {op : TxOp} {t : Hash256} {old : Option Pool} {p' : Pool}
    (ht : op.poolToken = some t) (h : op.Exact old p') (a id : Hash256) :
    p'.worth a t - old.elim 0 (Pool.worth a t) =
      flowSum a op.absorbed - flowSum a (op.released id) := by
  cases op with
  | createToken c => cases ht
  | message m => cases ht
  | poolCreate c =>
      cases ht
      cases old with
      | some p => cases h
      | none =>
          obtain ⟨hq, hk, hs⟩ := h
          simp only [Option.elim_none, Pool.worth, flowSum, TxOp.absorbed, TxOp.released,
            List.map_cons, List.map_nil, List.sum_cons, List.sum_nil, hq, hk, hs]
          split <;> split <;> split <;> omega
  | addLiquidity c =>
      cases ht
      cases old with
      | none => cases h
      | some p =>
          obtain ⟨hq, hk, hs⟩ := h
          simp only [Option.elim_some, Pool.worth, flowSum, TxOp.absorbed, TxOp.released,
            List.map_cons, List.map_nil, List.sum_cons, List.sum_nil, hq, hk, hs]
          split <;> split <;> split <;> omega
  | removeLiquidity c =>
      cases ht
      cases old with
      | none => cases h
      | some p =>
          obtain ⟨hq, hk, hs⟩ := h
          simp only [Option.elim_some, Pool.worth, flowSum, TxOp.absorbed, TxOp.released,
            List.map_cons, List.map_nil, List.sum_cons, List.sum_nil, ← hq, ← hk, ← hs]
          split <;> split <;> split <;> omega
  | swap c =>
      cases ht
      cases old with
      | none => cases h
      | some p =>
          obtain ⟨hs, hside⟩ := h
          simp only [Option.elim_some, Pool.worth, flowSum, TxOp.absorbed, TxOp.released,
            List.map_cons, List.map_nil, List.sum_cons, List.sum_nil, hs]
          split at hside
          · next hsell =>
              rw [if_pos hsell, if_pos hsell]
              split <;> split <;> split <;> omega
          · next hsell =>
              rw [if_neg hsell, if_neg hsell]
              split <;> split <;> split <;> omega

/-- In the middle of a transaction the net is out by what the sides of the
balance are apart. -/
def RefState.Even (w : Coin → Int) (a : Hash256) (n : Int) (s : RefState) : Prop :=
  s.state.Net w a (n + s.minus.get a - s.plus.get a)

section

variable {w : Coin → Int} {a : Hash256} {n : Int} {tx : Transaction} {height : UInt64}
  {genesis : Hash256}

/-- An op leaves the coins alone, and every pool solvent. -/
theorem RefState.op_solvent {coins : List Coin} {i : UInt32} {s s' : RefState} {op : TxOp}
    (hp : s.state.Solvent) (hop : s.op tx height coins i op = .ok s') :
    s'.state.Solvent ∧ s'.state.coin = s.state.coin := by
  have hpool : ∀ {t : Hash256}, op.poolToken = some t →
      s'.state.Solvent ∧ s'.state.coin = s.state.coin := by
    intro t ht
    rw [RefState.op_pool ht] at hop
    cases hstep : poolStep (s.state.token t).isSome op (s.state.pool t) with
    | error e => rw [hstep] at hop; cases hop
    | ok p =>
        rw [hstep] at hop
        cases hop
        refine ⟨fun u q hq => ?_, rfl⟩
        have hq : Function.update s.state.pool t (some p) u = some q := hq
        rw [Function.update_apply] at hq
        split at hq
        · cases hq
          exact (poolStep_sound ht (hp t) hstep).solvent
        · exact hp u q hq
  cases op with
  | createToken c =>
      simp only [RefState.op] at hop
      split at hop
      · cases hop
      · cases hop
        exact ⟨hp, rfl⟩
  | message m =>
      simp only [RefState.op] at hop
      split at hop
      · cases hop
        exact ⟨hp, rfl⟩
      · cases hop
  | poolCreate c => exact hpool rfl
  | addLiquidity c => exact hpool rfl
  | removeLiquidity c => exact hpool rfl
  | swap c => exact hpool rfl

theorem RefState.Even.op {coins : List Coin} {i : UInt32} {s s' : RefState} {op : TxOp}
    (h : s.Even w a n) (hp : s.state.Solvent) (hop : s.op tx height coins i op = .ok s') :
    s'.Even w a n := by
  have hpool : ∀ {t : Hash256}, op.poolToken = some t → s'.Even w a n := by
    intro t ht
    rw [RefState.op_pool ht] at hop
    cases hstep : poolStep (s.state.token t).isSome op (s.state.pool t) with
    | error e => rw [hstep] at hop; cases hop
    | ok p =>
        rw [hstep] at hop
        cases hop
        have hsound := poolStep_sound ht (hp t) hstep
        have hnet := StateReader.Net.setPool h t p
        rw [hsound.exact.worth ht a (tokenId (tx.ins.headD default).prev i)] at hnet
        show (s.state.setPool t p).Net w a (n + (s.minus.addAll op.absorbed).get a -
          (s.plus.addAll (op.released (tokenId (tx.ins.headD default).prev i))).get a)
        rw [Flows.get_addAll, Flows.get_addAll]
        convert hnet using 1
        push_cast
        ring
  cases op with
  | createToken c =>
      simp only [RefState.op] at hop
      split at hop
      · cases hop
      · next hnew =>
          cases hop
          have hnone := Option.not_isSome_iff_eq_none.mp hnew
          have hworth : ∀ id : Hash256, ∀ t : TokenInfo, t.supply = c.supply →
              t.worth a id = flowSum a (TxOp.released id (.createToken c)) := by
            intro id t ht
            rw [TokenInfo.worth, TxOp.released, flowSum, List.map_singleton, List.sum_singleton, ht]
            split <;> rfl
          have hnet := StateReader.Net.mint h hnone
            ⟨tokenId (tx.ins.headD default).prev i, c.ticker, c.name, c.uri, c.decimals, c.supply,
              tx.txid, height⟩
          rw [hworth _ _ rfl] at hnet
          show (s.state.mint _ _).Net w a (n + s.minus.get a -
            (s.plus.addAll (TxOp.released (tokenId (tx.ins.headD default).prev i)
              (.createToken c))).get a)
          rw [Flows.get_addAll]
          convert hnet using 1
          push_cast
          ring
  | message m =>
      simp only [RefState.op] at hop
      split at hop
      · cases hop
        exact h
      · cases hop
  | poolCreate c => exact hpool rfl
  | addLiquidity c => exact hpool rfl
  | removeLiquidity c => exact hpool rfl
  | swap c => exact hpool rfl

theorem RefState.Even.ops {coins : List Coin} {i : UInt32} {l : List TxOp} {s s' : RefState}
    (h : s.Even w a n) (hp : s.state.Solvent)
    (hops : RefState.ops tx height coins i l s = .ok s') : s'.Even w a n := by
  induction l generalizing i s with
  | nil =>
      cases hops
      exact h
  | cons o l ih =>
      rw [RefState.ops] at hops
      split at hops
      · cases hops
      next s₁ hop =>
      exact ih (h.op hp hop) (op_solvent hp hop).1 hops

theorem RefState.ops_solvent {coins : List Coin} {i : UInt32} {l : List TxOp} {s s' : RefState}
    (hops : RefState.ops tx height coins i l s = .ok s') (hp : s.state.Solvent) :
    s'.state.Solvent ∧ s'.state.coin = s.state.coin := by
  induction l generalizing i s with
  | nil =>
      cases hops
      exact ⟨hp, rfl⟩
  | cons o l ih =>
      rw [RefState.ops] at hops
      split at hops
      · cases hops
      next s₁ hop =>
      obtain ⟨hp₁, hc₁⟩ := op_solvent hp hop
      obtain ⟨hp₂, hc₂⟩ := ih hops hp₁
      exact ⟨hp₂, hc₂.trans hc₁⟩

/-! ## Inputs and outputs -/

/-- A coin that an input may spend at this height is no coinbase of this height. -/
def Settled (height : UInt64) (c : Coin) : Prop := ¬ (c.coinbase = true ∧ c.height = height)

/-- Inputs are taken out, and nothing else is touched. -/
theorem RefState.inputs_frame {ins : List TxIn} {coins coins' : List Coin} {s s' : RefState}
    (hins : RefState.inputs height genesis ins s coins = .ok (coins', s')) :
    s'.state.token = s.state.token ∧ s'.state.pool = s.state.pool ∧ s'.minus = s.minus ∧
      ∀ o c, s'.state.coin o = some c → s.state.coin o = some c := by
  induction ins generalizing s coins with
  | nil =>
      cases hins
      exact ⟨rfl, rfl, rfl, fun _ _ ho => ho⟩
  | cons i ins ih =>
      rw [RefState.inputs] at hins
      split at hins
      · cases hins
      split at hins
      · cases hins
      obtain ⟨ht, hp, hm, hcoin⟩ := ih hins
      refine ⟨ht, hp, hm, fun o c hc => ?_⟩
      have hleft : Function.update s.state.coin i.prev none o = some c := hcoin o c hc
      rw [Function.update_apply] at hleft
      split at hleft
      · cases hleft
      · exact hleft

theorem RefState.Even.inputs (hw : ∀ c, Settled height c → w c = c.worth a)
    (hheight : height.toNat < 2 ^ 63) {ins : List TxIn} {coins coins' : List Coin}
    {s s' : RefState} (h : s.Even w a n)
    (hins : RefState.inputs height genesis ins s coins = .ok (coins', s')) : s'.Even w a n := by
  induction ins generalizing s coins with
  | nil =>
      cases hins
      exact h
  | cons i ins ih =>
      rw [RefState.inputs] at hins
      split at hins
      · cases hins
      next c hc =>
      split at hins
      · cases hins
      next hmature =>
      have hsettled : Settled height c := by
        rintro ⟨hcb, rfl⟩
        have hpos := maturityForGenesis_pos genesis
        have hle := maturityForGenesis_le genesis
        refine hmature ⟨hcb, ?_⟩
        rw [UInt64.lt_iff_toNat_lt, UInt64.toNat_add, UInt64.toNat_ofNat']
        omega
      have hplus : (s.plus.add c.out.asset c.out.value.toNat).get a =
          s.plus.get a + flowSum a [(c.out.asset, c.out.value.toNat)] :=
        Flows.get_addAll s.plus [(c.out.asset, c.out.value.toNat)] a
      have hworth : c.worth a = flowSum a [(c.out.asset, c.out.value.toNat)] := by
        rw [Coin.worth, flowSum, List.map_singleton, List.sum_singleton]
        split <;> rfl
      refine ih (s := ⟨s.state.spend i.prev, s.plus.add c.out.asset c.out.value.toNat, s.minus⟩)
        ?_ hins
      have hnet := StateReader.Net.spend h hc
      rw [hw c hsettled, hworth] at hnet
      rw [Even, hplus]
      convert hnet using 1
      push_cast
      ring

omit [Crypto] in
theorem newCoins_snd (f : Coin → Int) (txid : Hash256) (outs : List TxOut) (height : UInt64)
    (cb : Bool) : (newCoins txid outs height cb).map (fun e => f e.2) =
      outs.map fun o => f ⟨o, height, cb⟩ := by
  rw [newCoins, List.map_map]
  refine List.ext_getElem (by simp) fun i h₁ h₂ => by simp

omit [Crypto] in
theorem newCoins_nodup (txid : Hash256) {outs : List TxOut} (h : outs.length < 2 ^ 32)
    (height : UInt64) (cb : Bool) :
    ((newCoins txid outs height cb).map Prod.fst).Nodup := by
  rw [newCoins_fst]
  refine List.Nodup.map_on (fun i hi j hj hij => ?_) List.nodup_range
  have hn := congrArg UInt32.toNat (OutPoint.mk.inj hij).2
  rw [List.mem_range] at hi hj
  rwa [UInt32.toNat_ofNat', UInt32.toNat_ofNat', Nat.mod_eq_of_lt (by omega),
    Nat.mod_eq_of_lt (by omega)] at hn

/-- The outputs of a transaction whose id is new. -/
theorem StateReader.Net.outputs {s : StateReader} (h : s.Net w a n)
    (hfresh : LedgerView.Fresh s tx) (houts : tx.outs.length < 2 ^ 32) (cb : Bool) {v : Int}
    (hw : (tx.outs.map fun o => w ⟨o, height, cb⟩).sum = v) :
    (s.addCoins (newCoins tx.txid tx.outs height cb)).Net w a (n + v) := by
  have hnet := h.addCoins (newCoins_nodup tx.txid houts height cb)
    (hfresh.newCoins height cb)
  rwa [newCoins_snd, hw] at hnet

omit [Crypto] in
theorem sum_worth {outs : List TxOut} {cb : Bool}
    (hw : ∀ o : TxOut, w ⟨o, height, cb⟩ = (Coin.mk o height cb).worth a) :
    (outs.map fun o => w ⟨o, height, cb⟩).sum = assetValue a outs := by
  induction outs with
  | nil => rfl
  | cons o outs ih =>
      rw [List.map_cons, List.sum_cons, ih, hw, assetValue_cons, Coin.worth]
      split
      · rw [Nat.cast_add]
      · rw [Nat.zero_add, Int.zero_add]

/-! ## Transactions -/

theorem StateReader.Solvent.step {s s' : StateReader} {verify : Bool} {fee : Amount}
    (hp : s.Solvent) (hs : s.step tx height genesis verify = .ok (s', fee)) : s'.Solvent := by
  obtain ⟨-, -, coins, r, r', hins, hops, -, -, rfl⟩ := step_ok hs
  have hpool := (RefState.inputs_frame hins).2.1
  have hstart : r.state.Solvent := by rwa [StateReader.Solvent, hpool]
  have hend := (RefState.ops_solvent hops hstart).1
  intro t p hq
  rw [StateReader.addCoins_eq] at hq
  exact hend t p hq

/-- An accepted transaction moves the net of QNT by its fee, and no other. -/
theorem StateReader.Net.step (hw : ∀ c, Settled height c → w c = c.worth a)
    (hheight : height.toNat < 2 ^ 63) {s s' : StateReader} {verify : Bool} {fee : Amount}
    (h : s.Net w a n) (hp : s.Solvent) (hfresh : LedgerView.Fresh s tx)
    (houts : tx.outs.length < 2 ^ 32)
    (hs : s.step tx height genesis verify = .ok (s', fee)) :
    s'.Net w a (n - if a = qntAsset then (fee.toNat : Int) else 0) := by
  obtain ⟨-, -, coins, r, r', hins, hops, hbal, -, rfl⟩ := step_ok hs
  obtain ⟨-, hpool, hminus, hleft⟩ := RefState.inputs_frame hins
  have hstart : RefState.Even w a n ⟨s, ∅, ∅⟩ := by
    have hzero : Flows.get ∅ a = 0 := Flows.get_of_notMem List.not_mem_nil
    rw [RefState.Even, hzero]
    simpa using h
  have hin := hstart.inputs hw hheight hins
  have hout : RefState.Even w a (n - assetValue a tx.outs)
      { r with minus := Flows.addAll ∅ (tx.outs.map fun o => (o.asset, o.value.toNat)) } := by
    have hval := flowSum_coins a tx.outs
    rw [coinFlows] at hval
    rw [RefState.Even, hminus] at hin
    rw [RefState.Even, Flows.get_addAll, hval]
    convert hin using 1
    push_cast
    ring
  have hsolvent : r.state.Solvent := by rwa [StateReader.Solvent, hpool]
  have hcoin := (RefState.ops_solvent hops hsolvent).2
  have hend := hout.ops hsolvent hops
  have hfresh' : LedgerView.Fresh r'.state tx := fun i => by
    rw [hcoin]
    exact Option.eq_none_iff_forall_ne_some.mpr fun c hc =>
      Option.some_ne_none c ((hleft _ c hc).symm.trans (hfresh i))
  have hnew : ∀ o : TxOut, w ⟨o, height, false⟩ = (Coin.mk o height false).worth a :=
    fun o => hw _ fun hc => Bool.false_ne_true hc.1
  have hnet := hend.outputs hfresh' houts false (sum_worth hnew)
  have hfee := balance_flows hbal a
  convert hnet using 1
  rw [hfee]
  ring

end

end QuantCore
