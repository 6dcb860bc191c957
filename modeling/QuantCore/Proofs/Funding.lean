import QuantCore.Crypto.Instances
import QuantCore.Proofs.Selection
import QuantCore.Proofs.WalletRun

/-!
# Where the money of a built transaction goes

The fee a build reports is the fee estimate, or that and a leftover below dust:
whatever wraps on the way, the two sides of the account agree in 64 bits. If
what goes in fits in 64 bits nothing wraps, and they agree as numbers.
-/

namespace QuantCore

open Maps

/-- What the ops of a transaction mint of an asset: the supply of the tokens
they create. -/
def Transaction.mintedValue [Crypto] (tx : Transaction) (a : Hash256) : Nat :=
  (tx.ops.zipIdx.map fun e =>
    match e.1 with
    | .createToken t => if tokenId tx.firstIn (UInt32.ofNat e.2) = a then t.supply.toNat else 0
    | _ => 0).sum

namespace Plan

theorem fee_small (p : Plan) (feePerKb : Amount) (change : List TxOut) (sel : List WalletCoin) :
    (p.fee feePerKb change sel).toNat * 1000 < 2 ^ 64 := by
  have hdiv : ∀ x : UInt64, (x / 1000).toNat * 1000 < 2 ^ 64 := fun x => by
    have h := x.toNat_lt
    rw [UInt64.toNat_div, show (1000 : UInt64).toNat = 1000 from rfl]
    omega
  exact hdiv _

/-- What the public calls promise of their plans, over the coins they may spend
and the addresses that may own what they mint. -/
structure Sound [Crypto] (p : Plan) (spendable : List WalletCoin) (own : Hash256 → Prop) :
    Prop where
  first : p.subtractFee = true → ∃ o rest, p.outs = o :: rest ∧ o.asset = qntAsset
  sweep : p.sweep = true → p.subtractFee = false ∧ (∃ h, p.outs = [⟨0, qntAsset, h⟩]) ∧
    p.opIn = ∅ ∧ p.opOut = ∅ ∧ p.sweepCoins = spendable.filter fun c => c.out.isQnt
  ins : ∀ tx, (p.finish tx).ins = tx.ins
  mints : ∀ tx, tx.ops = p.ops → ∃ mint, (p.finish tx).outs = tx.outs ++ mint ∧
    (∀ o ∈ mint, own o.addr) ∧ ∀ a, assetValue a mint = (p.finish tx).mintedValue a

theorem mintedValue_eq_zero [Crypto] {tx : Transaction} (h : ∀ t, TxOp.createToken t ∉ tx.ops)
    (a : Hash256) : tx.mintedValue a = 0 := by
  rw [Transaction.mintedValue]
  refine List.sum_eq_zero fun v hv => ?_
  obtain ⟨e, he, rfl⟩ := List.mem_map.mp hv
  have hm := List.fst_mem_of_mem_zipIdx he
  split
  · next t ht => exact absurd (ht ▸ hm) (h t)
  · rfl

/-- A plan that mints nothing, in its finishing step or otherwise. -/
theorem sound_of_finish [Crypto] {p : Plan} {spendable : List WalletCoin}
    {own : Hash256 → Prop}
    (hfirst : p.subtractFee = true → ∃ o rest, p.outs = o :: rest ∧ o.asset = qntAsset)
    (hsweep : p.sweep = true → p.subtractFee = false ∧ (∃ h, p.outs = [⟨0, qntAsset, h⟩]) ∧
      p.opIn = ∅ ∧ p.opOut = ∅ ∧ p.sweepCoins = spendable.filter fun c => c.out.isQnt)
    (hfinish : ∀ tx, (p.finish tx).ins = tx.ins ∧ (p.finish tx).outs = tx.outs ∧
      (tx.ops = p.ops → ∀ t, TxOp.createToken t ∉ (p.finish tx).ops)) :
    p.Sound spendable own where
  first := hfirst
  sweep := hsweep
  ins tx := (hfinish tx).1
  mints tx hops := by
    refine ⟨[], ?_, fun o ho => absurd ho List.not_mem_nil, fun a => ?_⟩
    · rw [(hfinish tx).2.1, List.append_nil]
    · rw [mintedValue_eq_zero ((hfinish tx).2.2 hops)]
      rfl

/-- A plan of one op that takes its QNT from the coins, and that is all. -/
theorem sound_of_op [Crypto] {p : Plan} {op : TxOp} (spendable : List WalletCoin)
    (own : Hash256 → Prop) (hsub : p.subtractFee = false) (hsweep : p.sweep = false)
    (hfinish : p.finish = id) (hops : p.ops = [op]) (hop : ∀ t, op ≠ .createToken t) :
    p.Sound spendable own := by
  refine sound_of_finish (fun h => absurd (hsub.symm.trans h) Bool.false_ne_true)
    (fun h => absurd (hsweep.symm.trans h) Bool.false_ne_true) fun tx => ?_
  rw [hfinish]
  refine ⟨rfl, rfl, fun ho t ht => ?_⟩
  rw [id, ho, hops, List.mem_singleton] at ht
  exact hop t ht.symm

end Plan

/-! ## The plans of the public calls -/

section

variable [Crypto] {w : Wallet} {tip : Int} {owner : Hash256} {own : Hash256 → Prop} {p : Plan}

theorem createTxPlan_sound {dests : List Wallet.Dest} {subtractFee : Bool}
    (h : w.createTxPlan dests subtractFee = .ok p) (spendable : List WalletCoin) :
    p.Sound spendable own := by
  cases dests with
  | nil => cases h
  | cons d dests =>
      simp only [Wallet.createTxPlan, List.isEmpty_cons, Bool.false_eq_true, if_false,
        List.mapM_cons, bind, Except.bind, pure, Except.pure] at h
      cases hd : w.destOut d with
      | error e => rw [hd] at h; cases h
      | ok o =>
          cases hds : dests.mapM w.destOut with
          | error e => rw [hd, hds] at h; cases h
          | ok rest =>
              simp only [hd, hds] at h
              split at h
              · cases h
              · next hqnt =>
                  cases h
                  refine Plan.sound_of_finish (fun hsub => ⟨o, rest, rfl, ?_⟩)
                    (fun hsw => absurd hsw Bool.false_ne_true) fun tx => ⟨rfl, rfl, fun ho t ht => ?_⟩
                  · have hsf : subtractFee = true := hsub
                    have hq : o.isQnt = true := by simpa [hsf] using hqnt
                    exact Hash256.isZero_iff.mp hq
                  · have hm : TxOp.createToken t ∈ tx.ops := ht
                    rw [ho] at hm
                    cases hm

theorem createSweepPlan_sound {address : Bytes} (h : w.createSweepPlan address tip = .ok p) :
    p.Sound (w.spendableCoins tip) own := by
  rw [Wallet.createSweepPlan] at h
  split at h
  · cases h
  · next v a _ =>
      dsimp only at h
      split at h
      · cases h
      · cases h
        refine Plan.sound_of_finish (fun hc => absurd hc Bool.false_ne_true)
          (fun _ => ⟨rfl, ⟨a, rfl⟩, rfl, rfl, rfl⟩) fun tx => ⟨rfl, rfl, fun ho t ht => ?_⟩
        have hm : TxOp.createToken t ∈ tx.ops := ht
        rw [ho] at hm
        cases hm

theorem createTokenPlan_ok {t : OpCreateToken} (h : Wallet.createTokenPlan t owner = .ok p) :
    p = { ops := [.createToken t]
          extraOuts := 1
          finish := fun tx =>
            { tx with outs := tx.outs ++ [⟨t.supply, tokenId tx.firstIn 0, owner⟩] } } := by
  simp only [Wallet.createTokenPlan] at h
  split at h
  · cases h
  · split at h
    · cases h
    · split at h
      · cases h
      · split at h
        · cases h
        · split at h
          · cases h
          · cases h
            rfl

/-- The one plan that mints: the supply, at the address handed out for it. -/
theorem createTokenPlan_sound {t : OpCreateToken} (howner : own owner)
    (h : Wallet.createTokenPlan t owner = .ok p) (spendable : List WalletCoin) :
    p.Sound spendable own := by
  rw [createTokenPlan_ok h]
  refine ⟨fun hc => absurd hc Bool.false_ne_true, fun hc => absurd hc Bool.false_ne_true,
    fun _ => rfl, fun tx hops => ⟨_, rfl, fun o ho => ?_, fun a => ?_⟩⟩
  · rw [List.mem_singleton.mp ho]
    exact howner
  · have ho : tx.ops = [.createToken t] := hops
    rw [assetValue_cons, Transaction.mintedValue]
    show _ = (List.map _ tx.ops.zipIdx).sum
    rw [ho]
    rfl

theorem sendMessagePlan_sound {recipient : Hash256} {text : Bytes} {gift : UInt8}
    (h : w.sendMessagePlan recipient text gift = .ok p) (spendable : List WalletCoin) :
    p.Sound spendable own := by
  simp only [Wallet.sendMessagePlan] at h
  split at h
  · cases h
  · split at h
    · cases h
    · split at h
      · cases h
      · split at h
        · cases h
        · cases h
          refine Plan.sound_of_finish (fun hc => absurd hc Bool.false_ne_true)
            (fun hc => absurd hc Bool.false_ne_true) fun tx => ?_
          dsimp only [Wallet.signMessage]
          split
          · refine ⟨rfl, rfl, fun ho t ht => ?_⟩
            rw [ho, List.mem_singleton] at ht
            cases ht
          · exact ⟨rfl, rfl, fun _ t ht => nomatch List.mem_singleton.mp ht⟩

theorem swapPlan_sound {token : Hash256} {sell : Bool} {amountIn minOut : Amount}
    (h : Wallet.swapPlan token sell amountIn minOut = .ok p) (spendable : List WalletCoin) :
    p.Sound spendable own := by
  rw [Wallet.swapPlan] at h
  split at h
  · cases h
  · split at h
    · cases h
    · cases h
      exact Plan.sound_of_op _ _ rfl rfl rfl rfl fun t ht => nomatch ht

omit [Crypto] in
/-- A deposit neither creates a token nor sends a message. -/
theorem depositOp_ne {token : Hash256} {qnt tok : Amount} {pool : Option Pool} {r : TxOp × Amount}
    (h : Wallet.depositOp token qnt tok pool = .ok r) :
    (∀ t, r.1 ≠ .createToken t) ∧ ∀ m, r.1 ≠ .message m := by
  cases pool with
  | none =>
      simp only [Wallet.depositOp] at h
      split at h
      · cases h
      · cases h
        exact ⟨fun t ht => (by cases ht), fun m hm => (by cases hm)⟩
  | some pool =>
      simp only [Wallet.depositOp] at h
      split at h
      · cases h
      · cases h
        exact ⟨fun t ht => (by cases ht), fun m hm => (by cases hm)⟩

theorem addLiquidityPlan_sound {token : Hash256} {qnt tok : Amount} {pool : Option Pool}
    (h : (Wallet.addLiquidityPlan token qnt tok pool).map Prod.fst = .ok p)
    (spendable : List WalletCoin) : p.Sound spendable own := by
  rw [Wallet.addLiquidityPlan] at h
  split at h
  · cases h
  · cases hr : Wallet.depositOp token qnt tok pool with
    | error e => rw [hr] at h; cases h
    | ok r =>
        rw [hr] at h
        cases h
        exact Plan.sound_of_op _ _ rfl rfl rfl rfl (depositOp_ne hr).1

theorem removeLiquidityPlan_sound {token : Hash256} {shares : Amount} {pool : Pool}
    (h : (Wallet.removeLiquidityPlan token shares pool).map Prod.fst = .ok p)
    (spendable : List WalletCoin) : p.Sound spendable own := by
  rw [Wallet.removeLiquidityPlan] at h
  split at h
  · cases h
  · dsimp only at h
    split at h
    · cases h
    · cases h
      exact Plan.sound_of_op _ _ rfl rfl rfl rfl fun t ht => nomatch ht

/-- Only a new token is minted, and to the address handed out for it. -/
theorem plan_sound {r : Request} (h : r.plan w tip owner = .ok p) :
    p.Sound (w.spendableCoins tip) fun a => a = owner ∧ ∃ t, r = .createToken t := by
  cases r with
  | createTx dests subtractFee => exact createTxPlan_sound h _
  | createSweep address => exact createSweepPlan_sound h
  | createToken t => exact createTokenPlan_sound ⟨rfl, t, rfl⟩ h _
  | sendMessage recipient text gift => exact sendMessagePlan_sound h _
  | swap token sell amountIn minOut => exact swapPlan_sound h _
  | addLiquidity token qnt tok pool => exact addLiquidityPlan_sound h _
  | removeLiquidity token shares pool => exact removeLiquidityPlan_sound h _

end

namespace Plan

/-! ## The outputs that are paid -/

section

variable {p : Plan} {qhave fee : Amount} {outs : List TxOut} (hfee : fee.toNat * 1000 < 2 ^ 64)

include hfee

/-- The check that the first output can bear the fee. -/
theorem bears_fee {v : Amount} (h : ¬ v ≤ fee + dustLimit) :
    (v - fee).toNat + fee.toNat = v.toNat ∧ fee.toNat < v.toNat := by
  have hlt := v.toNat_lt
  rw [UInt64.le_iff_toNat_le, UInt64.toNat_add, show dustLimit.toNat = 10000 from rfl] at h
  have hle : fee.toNat < v.toNat := by omega
  rw [UInt64.toNat_sub_of_le _ _ (UInt64.le_iff_toNat_le.mpr hle.le)]
  omega

/-- Under subtract-fee the first output is less by the fee. -/
theorem payOuts_subtract {o : TxOut} {rest : List TxOut} (hsub : p.subtractFee = true)
    (hsweep : p.sweep = false) (ho : p.outs = o :: rest) (h : p.payOuts qhave fee = .ok outs) :
    outs = { o with value := o.value - fee } :: rest ∧
      (o.value - fee).toNat + fee.toNat = o.value.toNat ∧ fee.toNat < o.value.toNat := by
  rw [payOuts, ho] at h
  simp only [hsub, hsweep, Bool.false_eq_true, if_false, true_or, if_true] at h
  split at h
  · cases h
  · next hbear =>
      cases h
      exact ⟨rfl, bears_fee hfee hbear⟩

/-- A sweep pays all it has, less the fee. -/
theorem payOuts_sweep {o : TxOut} (hsweep : p.sweep = true) (ho : p.outs = [o])
    (h : p.payOuts qhave fee = .ok outs) : outs = [{ o with value := qhave - fee }] ∧
      (qhave - fee).toNat + fee.toNat = qhave.toNat ∧ fee.toNat < qhave.toNat := by
  rw [payOuts, ho] at h
  simp only [hsweep, if_true, or_true] at h
  split at h
  · cases h
  · next hbear =>
      cases h
      exact ⟨rfl, bears_fee hfee hbear⟩

omit hfee in
theorem payOuts_plain (hsub : p.subtractFee = false) (hsweep : p.sweep = false)
    (h : p.payOuts qhave fee = .ok outs) : outs = p.outs := by
  rw [payOuts] at h
  split at h
  · next ho => cases h; exact ho.symm
  · next o rest ho =>
      simp only [hsub, hsweep, Bool.false_eq_true, if_false, or_self] at h
      cases h
      exact ho.symm

/-- What a plan that does not sweep pays of an asset. -/
theorem payOuts_value
    (hfirst : p.subtractFee = true → ∃ o rest, p.outs = o :: rest ∧ o.asset = qntAsset)
    (hsweep : p.sweep = false) (h : p.payOuts qhave fee = .ok outs) (a : Hash256) :
    assetValue a outs + (if p.subtractFee ∧ a = qntAsset then fee.toNat else 0) =
      assetValue a p.outs := by
  cases hsub : p.subtractFee with
  | false =>
      rw [payOuts_plain hsub hsweep h, if_neg (fun hc => Bool.false_ne_true hc.1), Nat.add_zero]
  | true =>
      obtain ⟨o, rest, ho, hq⟩ := hfirst hsub
      obtain ⟨houts, hval, _⟩ := payOuts_subtract hfee hsub hsweep ho h
      rw [houts, ho, assetValue_cons, assetValue_cons]
      by_cases ha : a = qntAsset
      · rw [if_pos (hq.trans ha.symm), if_pos (hq.trans ha.symm), if_pos ⟨rfl, ha⟩]
        show (o.value - fee).toNat + _ + _ = _
        omega
      · have hne : o.asset ≠ a := fun he => ha (he.symm.trans hq)
        rw [if_neg hne, if_neg hne, if_neg fun hc => ha hc.2, Nat.add_zero]

end

/-! ## The account of QNT -/

theorem qntChange_asset {p : Plan} {qhave fee : Amount} :
    ∀ o ∈ p.qntChange qhave fee, o.asset = qntAsset := by
  intro o ho
  simp only [qntChange, List.mem_ite_nil_right, List.mem_singleton] at ho
  rw [ho.2]

theorem qntChange_sweep {p : Plan} {qhave fee : Amount} (h : p.sweep = true) :
    p.qntChange qhave fee = [] := by
  rw [qntChange, h]
  rfl

/-- The QNT left over, and what of it is pushed as change. -/
theorem qntChange_value {p : Plan} (qhave fee : Amount) (hsweep : p.sweep = false) :
    ∃ left : Int, p.want (p.need.get qntAsset) fee + left = qhave.toNat ∧
      (assetValue qntAsset (p.qntChange qhave fee) : Int) =
        if left ≥ 10000 then left % 2 ^ 64 else 0 := by
  refine ⟨qhave.toNat - p.want (p.need.get qntAsset) fee, by omega, ?_⟩
  have hleft : (qhave.toNat : Int) - p.need.get qntAsset -
      (if p.subtractFee then 0 else fee.toNat : Int) =
        qhave.toNat - p.want (p.need.get qntAsset) fee := by
    rw [want]
    split <;> omega
  rw [qntChange, hsweep, hleft, show (dustLimit.toNat : Int) = 10000 from rfl]
  simp only [Bool.not_false, true_and]
  split
  · rw [assetValue_cons, if_pos rfl, UInt64.ofInt, UInt64.toNat_ofNat']
    show ((_ + 0 : Nat) : Int) = _
    omega
  · rfl

/-- QNT worth `i` goes in: it covers what is paid out, absorbed less released,
and a fee of the estimate and a leftover below dust. -/
theorem qnt_account [Crypto] {p : Plan} {spendable : List WalletCoin} {own : Hash256 → Prop}
    {feePerKb : Amount} {d : Draft} {toks qnts : List WalletCoin} {change : List TxOut}
    (hp : p.Sound spendable own) (hd : Drafted p spendable feePerKb d toks qnts change) :
    ∃ leftover < dustLimit.toNat,
      let goesIn := coinsValue qnts + (amountOf p.opOut qntAsset).toNat
      let goesOut := assetValue qntAsset d.outs + assetValue qntAsset (p.qntChange d.qhave d.fee) +
        (amountOf p.opIn qntAsset).toNat + (d.fee.toNat + leftover)
      goesIn % 2 ^ 64 = goesOut % 2 ^ 64 ∧ (goesIn < 2 ^ 64 → goesIn = goesOut) := by
  have hfee : d.fee.toNat * 1000 < 2 ^ 64 := hd.fee ▸ fee_small ..
  have hhave : d.qhave.toNat = coinsValue qnts % 2 ^ 64 := by
    rw [hd.qhave, UInt64.toNat_ofNat']
  have hdust : dustLimit.toNat = 10000 := rfl
  cases hsweep : p.sweep with
  | true =>
      obtain ⟨_, ⟨h, hone⟩, hin, hout, _⟩ := hp.sweep hsweep
      obtain ⟨houts, hval, _⟩ := payOuts_sweep hfee hsweep hone hd.outs
      refine ⟨0, by omega, ?_⟩
      have hpaid : assetValue qntAsset d.outs = (d.qhave - d.fee).toNat := by
        rw [houts, assetValue_cons, if_pos rfl]
        rfl
      have hzero : (amountOf (∅ : UMap Hash256 Amount) qntAsset).toNat = 0 := rfl
      have hnone : assetValue qntAsset [] = 0 := rfl
      rw [qntChange_sweep hsweep, hin, hout]
      exact ⟨by omega, fun hlt => by omega⟩
  | false =>
      have hcover := hd.covers hsweep
      have hpaid := payOuts_value hfee hp.first hsweep hd.outs qntAsset
      obtain ⟨left, hleft, hchange⟩ := qntChange_value d.qhave d.fee hsweep
      have hneed := p.need_get qntAsset
      have hoo := (amountOf p.opOut qntAsset).toNat_lt
      have hwant : p.want (p.need.get qntAsset) d.fee = assetValue qntAsset d.outs +
          (amountOf p.opIn qntAsset).toNat - (amountOf p.opOut qntAsset).toNat + d.fee.toNat := by
        rw [want, hneed, ← hpaid]
        split
        · next hsub => rw [if_pos ⟨hsub, rfl⟩]; omega
        · next hsub => rw [if_neg fun hc => hsub hc.1]; omega
      refine ⟨if left ≥ 10000 then 0 else left.toNat, ?_, ?_⟩
      · split <;> omega
      · split at hchange <;> split <;> exact ⟨by omega, fun hlt => by omega⟩

/-- A token's account: its coins and what is released cover what is paid out,
absorbed and left as change. -/
theorem token_account [Crypto] {p : Plan} {spendable : List WalletCoin} {own : Hash256 → Prop}
    {feePerKb : Amount} {d : Draft} {toks qnts : List WalletCoin} {change : List TxOut}
    (hp : p.Sound spendable own) (hd : Drafted p spendable feePerKb d toks qnts change)
    {a : Hash256} (ha : a ≠ qntAsset) :
    let goesIn := assetValue a (toks.map WalletCoin.out) + (amountOf p.opOut a).toNat
    let goesOut := assetValue a d.outs + assetValue a change + (amountOf p.opIn a).toNat
    goesIn % 2 ^ 64 = goesOut % 2 ^ 64 ∧ (goesIn < 2 ^ 64 → goesIn = goesOut) := by
  have hfee : d.fee.toNat * 1000 < 2 ^ 64 := hd.fee ▸ fee_small ..
  have hpaid : assetValue a d.outs = assetValue a p.outs := by
    cases hsweep : p.sweep with
    | true =>
        obtain ⟨_, ⟨h, hone⟩, _⟩ := hp.sweep hsweep
        rw [(payOuts_sweep hfee hsweep hone hd.outs).1, hone, assetValue_cons, assetValue_cons,
          if_neg (Ne.symm ha), if_neg (Ne.symm ha)]
    | false =>
        have h := payOuts_value hfee hp.first hsweep hd.outs a
        rwa [if_neg fun hc => ha hc.2, Nat.add_zero] at h
  obtain ⟨hmod, hexact⟩ := hd.rounds.settles a ha
  rw [sorted_sum, need_get] at hmod hexact
  rw [hpaid]
  exact ⟨by omega, fun hlt => by have := hexact (by omega); omega⟩

end Plan

/-! ## The built transaction -/

namespace Wallet

variable [Crypto]

theorem mem_spendableCoins {w : Wallet} (hw : w.Filed) {tip : Int} {c : WalletCoin}
    (hc : c ∈ w.spendableCoins tip) : w.coins.lookup c.op = some c ∧ c.locked = false ∧
      0 ≤ c.height ∧ mature c tip w.params.coinbaseMaturity = true := by
  obtain ⟨hm, hs⟩ := List.mem_filter.mp hc
  obtain ⟨e, he, rfl⟩ := List.mem_map.mp hm
  have hl := mem_pairs.mp he
  rw [spendable, Bool.and_eq_true, Bool.and_eq_true, Bool.not_eq_true', decide_eq_true_eq] at hs
  exact ⟨(hw.coins _ _ hl).symm ▸ hl, hs.1.1, hs.1.2, hs.2⟩

theorem spendableCoins_nodup {w : Wallet} (hw : w.Filed) (tip : Int) :
    ((w.spendableCoins tip).map WalletCoin.op).Nodup := by
  have hop : ((pairs w.coins).map Prod.snd).map WalletCoin.op = (pairs w.coins).map Prod.fst := by
    rw [List.map_map]
    exact List.map_congr_left fun e he => hw.coins _ _ (mem_pairs.mp he)
  have hnd : (((pairs w.coins).map Prod.snd).map WalletCoin.op).Nodup := hop ▸ pairs_nodup w.coins
  exact hnd.sublist (List.filter_sublist.map _)

/-- What a build that succeeds has done. -/
theorem build_ok {w w' : Wallet} {signer : Signer} {p : Plan} {tip : Int} {feePerKb : Amount}
    {tx : Transaction} {fee : Amount}
    (h : w.build signer p tip feePerKb = some (.ok (tx, fee), w')) :
    ∃ d ca witness, p.draft (w.spendableCoins tip) (feeRate feePerKb) = .ok d ∧
      (d.change = [] ∧ w' = w ∨ w.issueKey "(change)" = some (ca, w')) ∧
      tx = { assemble p d ca with witness } ∧ tx.relayFee.toNat ≤ p.actual d.qhave tx ∧
      fee = UInt64.ofInt (p.actual d.qhave tx) := by
  have hfinish : ∀ (w : Wallet) (d : Plan.Draft) (ca : Hash256),
      w.finishBuild signer p d ca = .ok (tx, fee) → ∃ witness,
        tx = { assemble p d ca with witness } ∧ tx.relayFee.toNat ≤ p.actual d.qhave tx ∧
        fee = UInt64.ofInt (p.actual d.qhave tx) := by
    intro w d ca hf
    simp only [finishBuild, signTx] at hf
    cases hwit : w.witnesses signer (signatureHash w.params.genesisHash (assemble p d ca).txid)
      d.sel.zipIdx ∅ with
    | error e => rw [hwit] at hf; cases hf
    | ok witness =>
        simp only [hwit, Functor.map, Except.map, bind, Except.bind] at hf
        split at hf
        · cases hf
        · next hlow =>
            cases hf
            exact ⟨witness, rfl, not_lt.mp hlow, rfl⟩
  simp only [build] at h
  split at h
  · cases h
  · next d hd =>
      split at h
      · next hempty =>
          simp only [Option.some.injEq, Prod.mk.injEq] at h
          obtain ⟨witness, htx, hlow, hfee⟩ := hfinish w d 0 h.1
          exact ⟨d, 0, witness, hd, .inl ⟨List.isEmpty_iff.mp hempty, h.2.symm⟩, htx, hlow, hfee⟩
      · rw [changeAddr_eq] at h
        split at h
        · cases h
        · next ca w₁ hca =>
            simp only [Option.some.injEq, Prod.mk.injEq] at h
            obtain ⟨witness, htx, hlow, hfee⟩ := hfinish w₁ d ca h.1
            exact ⟨d, ca, witness, hd, .inr (h.2 ▸ hca), htx, hlow, hfee⟩

/-- Where the money of the transaction built from a plan comes from and goes. It
spends the coins `sel`, pays `paid` as the plan asks, and leaves `change` and
what it mints to the wallet; `est` is the fee estimate. -/
structure Funded (w w' : Wallet) (p : Plan) (tip : Int) (feePerKb : Amount) (tx : Transaction)
    (fee : Amount) (sel : List WalletCoin) (paid change mint : List TxOut) (est : Amount) :
    Prop where
  ins : tx.ins = sel.map fun c => ⟨c.op⟩
  distinct : (tx.ins.map TxIn.prev).Nodup
  coins : ∀ c ∈ sel, w.coins.lookup c.op = some c ∧ c.locked = false ∧ 0 ≤ c.height ∧
    mature c tip w.params.coinbaseMaturity = true
  estimate : est = p.fee (feeRate feePerKb) (change.filter fun o => !o.isQnt) sel
  outs : tx.outs = paid ++ (change ++ mint)
  own : ∀ o ∈ change ++ mint, w'.isMine o.addr = true
  plain : p.subtractFee = false → p.sweep = false → paid = p.outs
  subtract : p.subtractFee = true → ∃ o rest, p.outs = o :: rest ∧ o.asset = qntAsset ∧
    paid = { o with value := o.value - est } :: rest ∧ est.toNat < o.value.toNat
  sweep : p.sweep = true → ∃ o qhave, p.outs = [o] ∧ paid = [{ o with value := qhave - est }] ∧
    qhave = UInt64.ofNat (assetValue qntAsset (sel.map WalletCoin.out)) ∧ est.toNat < qhave.toNat
  /-- What goes in and what comes out, in 64 bits. -/
  balance : ∀ a, (assetValue a (sel.map WalletCoin.out) + (amountOf p.opOut a).toNat +
      tx.mintedValue a) % 2 ^ 64 = (assetValue a tx.outs + (amountOf p.opIn a).toNat +
        (if a = qntAsset then fee.toNat else 0)) % 2 ^ 64
  /-- Exactly, if what goes in fits. -/
  exact : ∀ a, assetValue a (sel.map WalletCoin.out) + (amountOf p.opOut a).toNat < 2 ^ 64 →
    assetValue a (sel.map WalletCoin.out) + (amountOf p.opOut a).toNat + tx.mintedValue a =
      assetValue a tx.outs + (amountOf p.opIn a).toNat + (if a = qntAsset then fee.toNat else 0)
  feeBelow : fee.toNat < est.toNat + dustLimit.toNat
  relay : assetValue qntAsset (sel.map WalletCoin.out) + (amountOf p.opOut qntAsset).toNat
    < 2 ^ 64 → tx.relayFee ≤ fee

/-- The inputs of a draft: distinct coins of the wallet's spendable ones. -/
theorem draft_picked {w : Wallet} (hw : w.Filed) {tip : Int} {p : Plan} {own : Hash256 → Prop}
    {feePerKb : Amount} {d : Plan.Draft} {toks qnts : List WalletCoin} {change : List TxOut}
    (hp : p.Sound (w.spendableCoins tip) own)
    (hd : Plan.Drafted p (w.spendableCoins tip) feePerKb d toks qnts change) :
    Plan.Picked (w.spendableCoins tip) (fun a => a = qntAsset) qnts ∧
      (d.sel.map WalletCoin.op).Nodup ∧ ∀ c ∈ d.sel, c ∈ w.spendableCoins tip := by
  obtain ⟨rest, hpool, _⟩ := hd.pool
  have hall : (if p.sweep then p.sweepCoins else
      (w.spendableCoins tip).filter fun c => c.out.isQnt) =
        (w.spendableCoins tip).filter fun c => c.out.isQnt := by
    split
    · next hsweep => exact (hp.sweep hsweep).2.2.2.2
    · rfl
  rw [hall] at hpool
  have hq := Plan.picked_byValue (p := fun a => a = qntAsset) (spendableCoins_nodup hw tip)
    (fun c hc => isQnt_iff.mp hc) hpool
  have hboth := hd.rounds.picked.append (spendableCoins_nodup hw tip) hq
    fun a ha he => ha.2 he
  rw [← hd.sel] at hboth
  exact ⟨hq, hboth.distinct, fun c hc => (hboth.mem c hc).1⟩

omit [Crypto] in
/-- The fee that is reported, of QNT coins worth `i` and outputs worth `out`. -/
theorem reported_fee (p : Plan) {qhave : Amount} (tx : Transaction) {i : Nat} (est : Nat)
    (hhave : qhave = UInt64.ofNat i) (hest : est < 2 ^ 64)
    (hmod : (i + (amountOf p.opOut qntAsset).toNat) % 2 ^ 64 =
      (assetValue qntAsset tx.outs + (amountOf p.opIn qntAsset).toNat + est) % 2 ^ 64)
    (hexact : i + (amountOf p.opOut qntAsset).toNat < 2 ^ 64 →
      i + (amountOf p.opOut qntAsset).toNat =
        assetValue qntAsset tx.outs + (amountOf p.opIn qntAsset).toNat + est) :
    (UInt64.ofInt (p.actual qhave tx)).toNat = est ∧
      (i + (amountOf p.opOut qntAsset).toNat < 2 ^ 64 → p.actual qhave tx = est) := by
  rw [UInt64.ofInt, UInt64.toNat_ofNat', Plan.actual, totalQntOut_eq, UInt64.toNat_ofNat', hhave,
    UInt64.toNat_ofNat']
  exact ⟨by omega, fun hlt => by have := hexact hlt; omega⟩

/-- The transaction of a draft, and what of it is minted. -/
theorem assemble_spec {p : Plan} {spendable : List WalletCoin} {own : Hash256 → Prop}
    (hp : p.Sound spendable own) (d : Plan.Draft) (ca : Hash256) (witness : List Witness) :
    ∃ mint, (∀ o ∈ mint, own o.addr) ∧
      ({ assemble p d ca with witness } : Transaction).ins = (d.sel.map fun c => ⟨c.op⟩) ∧
      ({ assemble p d ca with witness } : Transaction).outs =
        d.outs ++ ((d.change.map fun o => { o with addr := ca }) ++ mint) ∧
      ∀ a, assetValue a mint =
        ({ assemble p d ca with witness } : Transaction).mintedValue a := by
  obtain ⟨mint, houts, hmint, hval⟩ := hp.mints
    { ins := d.sel.map fun c => ⟨c.op⟩
      outs := d.outs ++ d.change.map fun o => { o with addr := ca }
      ops := p.ops } rfl
  refine ⟨mint, hmint, hp.ins _, ?_, hval⟩
  rw [← List.append_assoc]
  exact houts

omit [Crypto] in
theorem assetValue_readdress (a ca : Hash256) (l : List TxOut) :
    assetValue a (l.map fun o => { o with addr := ca }) = assetValue a l := by
  rw [assetValue, List.map_map]
  rfl

theorem build_funded {w w' : Wallet} (hw : w.Filed) {signer : Signer} {p : Plan} {tip : Int}
    {own : Hash256 → Prop} (hp : p.Sound (w.spendableCoins tip) own)
    (hown : ∀ a, own a → w.isMine a = true) {feePerKb : Amount} {tx : Transaction} {fee : Amount}
    (h : w.build signer p tip feePerKb = some (.ok (tx, fee), w'))
    (hid : tx.mintedValue qntAsset = 0) :
    ∃ sel paid change mint est,
      Funded w w' p tip feePerKb tx fee sel paid change mint est := by
  obtain ⟨d, ca, witness, hdraft, hw', htx, hlow, hfee⟩ := build_ok h
  obtain ⟨toks, qnts, change, hd⟩ := Plan.draft_drafted (spendableCoins_nodup hw tip) hdraft
  obtain ⟨hq, hnodup, hmem⟩ := draft_picked hw hp hd
  obtain ⟨mint, hmint, hins, houts, hval⟩ := assemble_spec hp d ca witness
  rw [← htx] at hins houts hval
  obtain ⟨leftover, hdust, hqmod, hqexact⟩ := Plan.qnt_account hp hd
  have hest : d.fee.toNat * 1000 < 2 ^ 64 := hd.fee ▸ Plan.fee_small ..
  have hlimit : dustLimit.toNat = 10000 := rfl
  -- what goes in and out of each asset
  have hin : ∀ a, assetValue a (d.sel.map WalletCoin.out) =
      assetValue a (toks.map WalletCoin.out) + assetValue a (qnts.map WalletCoin.out) := fun a => by
    rw [hd.sel, List.map_append, assetValue_append]
  have hout : ∀ a, assetValue a tx.outs = assetValue a d.outs + (assetValue a change +
      assetValue a (p.qntChange d.qhave d.fee)) + tx.mintedValue a := fun a => by
    rw [houts, assetValue_append, assetValue_append, assetValue_readdress, hd.change,
      assetValue_append, hval, Nat.add_assoc, Nat.add_assoc, Nat.add_assoc]
  have hinq : assetValue qntAsset (d.sel.map WalletCoin.out) = coinsValue qnts := by
    rw [hin, assetValue_coins fun c hc => (hq.mem c hc).2, assetValue_eq_zero fun o ho => ?_,
      Nat.zero_add]
    obtain ⟨c, hc, rfl⟩ := List.mem_map.mp ho
    exact (hd.rounds.picked.mem c hc).2.2
  have hchangeq : assetValue qntAsset change = 0 :=
    assetValue_eq_zero fun o ho => (hd.rounds.tokens o ho).2
  have hintok : ∀ a ≠ qntAsset, assetValue a (d.sel.map WalletCoin.out) =
      assetValue a (toks.map WalletCoin.out) := fun a ha => by
    rw [hin, assetValue_eq_zero (l := qnts.map WalletCoin.out) fun o ho => ?_, Nat.add_zero]
    obtain ⟨c, hc, rfl⟩ := List.mem_map.mp ho
    exact (hq.mem c hc).2.trans_ne (Ne.symm ha)
  have houttok : ∀ a ≠ qntAsset, assetValue a tx.outs =
      assetValue a d.outs + assetValue a change + tx.mintedValue a := fun a ha => by
    rw [hout, assetValue_eq_zero (l := p.qntChange d.qhave d.fee) fun o ho => ?_, Nat.add_zero]
    exact (Plan.qntChange_asset o ho).trans_ne (Ne.symm ha)
  have houtq := hout qntAsset
  rw [hchangeq, hid, Nat.zero_add, Nat.add_zero] at houtq
  obtain ⟨hreport, hactual⟩ := reported_fee p tx (d.fee.toNat + leftover)
    hd.qhave (by omega) (by omega) (by omega)
  rw [← hfee] at hreport
  have hgrown : Grown w w' := by
    rcases hw' with ⟨_, rfl⟩ | hk
    · exact Grown.refl w'
    · exact (issueKey_frame hk).1
  have hfilter : ((d.change.map fun o => { o with addr := ca }).filter fun o =>
      !o.isQnt).length = change.length := by
    have hqnt : ∀ o ∈ p.qntChange d.qhave d.fee, ¬ (!o.isQnt) = true := fun o ho hf =>
      Bool.false_ne_true (((Bool.not_eq_true' _).mp hf).symm.trans
        (isQnt_iff.mpr (Plan.qntChange_asset o ho)))
    have htok : ∀ o ∈ change, (!o.isQnt) = true := fun o ho => by
      rw [Bool.not_eq_true', ← Bool.not_eq_true, isQnt_iff]
      exact (hd.rounds.tokens o ho).2
    rw [List.filter_map, List.length_map, hd.change, List.filter_append]
    show ((change.filter fun o => !o.isQnt) ++
      (p.qntChange d.qhave d.fee).filter fun o => !o.isQnt).length = _
    rw [List.filter_eq_self.mpr htok, List.filter_eq_nil_iff.mpr hqnt, List.append_nil]
  refine ⟨d.sel, d.outs, d.change.map fun o => { o with addr := ca }, mint, d.fee,
    { ins := hins
      distinct := ?_
      coins := fun c hc => mem_spendableCoins hw (hmem c hc)
      estimate := ?_
      outs := houts
      own := fun o ho => ?_
      plain := fun hsub hsweep => Plan.payOuts_plain hsub hsweep hd.outs
      subtract := fun hsub => ?_
      sweep := fun hsweep => ?_
      balance := fun a => ?_
      exact := fun a hlt => ?_
      feeBelow := by omega
      relay := fun hlt => ?_ }⟩
  · rw [hins, List.map_map]
    exact hnodup
  · rw [hd.fee, Plan.fee, Plan.fee, hfilter]
  · rcases List.mem_append.mp ho with ho | ho
    · obtain ⟨o', ho', rfl⟩ := List.mem_map.mp ho
      rcases hw' with ⟨hempty, _⟩ | hk
      · rw [hempty] at ho'
        cases ho'
      · exact (hw.issueKey hk).2
    · exact hgrown.keeps _ (hown _ (hmint o ho))
  · obtain ⟨o, rest, ho, hqnt⟩ := hp.first hsub
    have hsweep : p.sweep = false := by
      cases hs : p.sweep with
      | false => rfl
      | true => exact absurd ((hp.sweep hs).1.symm.trans hsub) Bool.false_ne_true
    obtain ⟨hpaid, _, hlt⟩ := Plan.payOuts_subtract hest hsub hsweep ho hd.outs
    exact ⟨o, rest, ho, hqnt, hpaid, hlt⟩
  · obtain ⟨_, ⟨a, ho⟩, _⟩ := hp.sweep hsweep
    obtain ⟨hpaid, _, hlt⟩ := Plan.payOuts_sweep hest hsweep ho hd.outs
    exact ⟨_, d.qhave, ho, hpaid, hinq ▸ hd.qhave, hlt⟩
  · by_cases ha : a = qntAsset
    · rw [ha, hinq, hid, if_pos rfl, houtq]
      omega
    · have htoken := (Plan.token_account hp hd ha).1
      rw [hintok a ha, houttok a ha, if_neg ha]
      omega
  · by_cases ha : a = qntAsset
    · rw [ha, hinq] at hlt
      rw [ha, hinq, hid, if_pos rfl, houtq]
      have hqnt := hqexact hlt
      omega
    · rw [hintok a ha] at hlt
      have htoken := (Plan.token_account hp hd ha).2 hlt
      rw [hintok a ha, houttok a ha, if_neg ha]
      omega
  · rw [hinq] at hlt
    have hexact := hactual hlt
    rw [UInt64.le_iff_toNat_le]
    omega

/-- What a call's wallet is when it plans: the same, or one address on. -/
theorem prepare_some {w w₁ : Wallet} {r : Request} {owner : Hash256} (hw : w.Filed)
    (h : w.prepare r = some (owner, w₁)) : w₁.Filed ∧ Grown w w₁ ∧ w₁.coins = w.coins ∧
      ((∃ t, r = .createToken t) → w₁.isMine owner = true) := by
  cases r with
  | createToken t =>
      rw [prepare, changeAddr_eq] at h
      obtain ⟨hf, ha⟩ := hw.issueKey h
      exact ⟨hf, (issueKey_frame h).1, (issueKey_frame h).2.1, fun _ => ha⟩
  | _ =>
      cases h
      refine ⟨hw, Grown.refl w, rfl, fun hcreate => ?_⟩
      obtain ⟨t, ht⟩ := hcreate
      cases ht

/-- A call that succeeds has planned, and built the plan. -/
theorem request_ok {w w' : Wallet} {signer : Signer} {r : Request} {tip : Int}
    {feePerKb : Amount} {x : Transaction × Amount}
    (h : w.request signer r tip feePerKb = some (.ok x, w')) :
    ∃ owner w₁ p, w.prepare r = some (owner, w₁) ∧ r.plan w₁ tip owner = .ok p ∧
      w₁.build signer p tip feePerKb = some (.ok x, w') := by
  rw [request_eq] at h
  split at h
  · cases h
  · next owner w₁ hprep =>
      simp only [buildFrom] at h
      split at h
      · cases h
      · next p hplan => exact ⟨owner, w₁, p, hprep, hplan, h⟩

/-- Every transaction a reachable wallet builds is funded by distinct spendable
coins of its own, and each asset goes where the plan says, to the wallet, or for
QNT into the fee. -/
theorem request_funded {w w' : Wallet} (hw : w.Reachable) {signer : Signer} {r : Request}
    {tip : Int} {feePerKb : Amount} {tx : Transaction} {fee : Amount}
    (h : w.request signer r tip feePerKb = some (.ok (tx, fee), w'))
    (hid : tx.mintedValue qntAsset = 0) :
    ∃ owner w₁ p, w.prepare r = some (owner, w₁) ∧ r.plan w₁ tip owner = .ok p ∧
      ∃ sel paid change mint est, Funded w w' p tip feePerKb tx fee sel paid change mint est := by
  obtain ⟨owner, w₁, p, hprep, hplan, hbuild⟩ := request_ok h
  obtain ⟨hf, hgrown, hcoins, howner⟩ := prepare_some hw.filed hprep
  obtain ⟨sel, paid, change, mint, est, hfund⟩ := build_funded hf (plan_sound hplan)
    (fun a ha => ha.1 ▸ howner ha.2) hbuild hid
  refine ⟨owner, w₁, p, hprep, hplan, sel, paid, change, mint, est,
    { hfund with coins := fun c hc => ?_ }⟩
  have hc := hfund.coins c hc
  rwa [hcoins, params, hgrown.network] at hc

end Wallet

/-! ## A new token, and a sale at the largest price -/

def stubSigner : Signer := ⟨fun _ => List.replicate falconPkBytes 0, fun _ _ => [1]⟩

/-- A wallet read from a file with one key, a QNT coin and a token coin. -/
def saver : Wallet :=
  Wallet.load .regtest (fun i => BitVec.ofNat 256 (100 + i.toNat)) [⟨0, 100, "default", true⟩] 1
    [⟨⟨5, 0⟩, ⟨1000000000, qntAsset, 100⟩, 0, false, false⟩,
      ⟨⟨6, 0⟩, ⟨10, 9, 100⟩, 0, false, false⟩] [] 0 0

def newToken : Request :=
  .createToken ⟨textBytes "GOLD", textBytes "Gold", 8, 7000, []⟩

/-- The sale of one unit of the token for 2^64 - 1 units of QNT. -/
def dearSale : Request := .swap 9 true 1 0xffffffffffffffff

/-- What the inputs of a transaction hold of an asset, by the wallet's coins. -/
def Wallet.spentValue (w : Wallet) (tx : Transaction) (a : Hash256) : Nat :=
  assetValue a ((tx.ins.filterMap fun i => w.coins.lookup i.prev).map WalletCoin.out)

/-- The transaction and fee a call returns, if it does. -/
def built (r : Wallet.Result (Transaction × Amount)) : Option (Transaction × Amount) :=
  r.bind fun x => x.1.toOption

theorem built_some {r : Wallet.Result (Transaction × Amount)} {f : Transaction × Amount → Bool}
    (h : (built r).any f = true) : ∃ x w', r = some (.ok x, w') ∧ f x = true := by
  rcases r with _ | ⟨_ | x, w'⟩
  · cases h
  · cases h
  · exact ⟨x, w', rfl, h⟩

theorem amountOf_insert (m : UMap Hash256 Amount) (k a : Hash256) (v : Amount) :
    amountOf (m.insert k v) a = if a = k then v else amountOf m a := by
  rw [amountOf, lookup_insert_ite]
  split
  · rfl
  · rfl

theorem swapPlan_released {token : Hash256} {sell : Bool} {amountIn minOut : Amount} {p : Plan}
    (h : Wallet.swapPlan token sell amountIn minOut = .ok p) (a : Hash256) :
    amountOf p.opOut a = (if a = (if sell then qntAsset else token) then minOut else 0) ∧
      amountOf p.opIn a = (if a = (if sell then token else qntAsset) then amountIn else 0) := by
  rw [Wallet.swapPlan] at h
  split at h
  · cases h
  · split at h
    · cases h
    · cases h
      exact ⟨amountOf_insert _ _ _ _, amountOf_insert _ _ _ _⟩

/-- A fee rate at which the estimate for the sale, of 2053 bytes, is nothing in 64
bits. -/
def wrappingRate : Amount := 11797649765601871053

/-- The supply of a new token comes out of no input and of nothing the plan
releases; at the largest price a sale's change is cut off at 64 bits; and what is cut
off passes for the fee, of which the part in 64 bits can be below the relay minimum. -/
theorem request_unbalanced :
    letI := plainCrypto
    saver.Reachable ∧
    (∃ tx fee w' owner w₁ p, saver.request stubSigner newToken 10 0 = some (.ok (tx, fee), w') ∧
      saver.prepare newToken = some (owner, w₁) ∧ newToken.plan w₁ 10 owner = .ok p ∧
      ∃ a ≠ qntAsset, saver.spentValue tx a + (amountOf p.opOut a).toNat ≠
        assetValue a tx.outs + (amountOf p.opIn a).toNat) ∧
    (∃ tx fee w' owner w₁ p, saver.request stubSigner dearSale 10 0 = some (.ok (tx, fee), w') ∧
      saver.prepare dearSale = some (owner, w₁) ∧ dearSale.plan w₁ 10 owner = .ok p ∧
      saver.spentValue tx qntAsset + (amountOf p.opOut qntAsset).toNat ≠
        assetValue qntAsset tx.outs + (amountOf p.opIn qntAsset).toNat + fee.toNat) ∧
    ∃ tx fee w', saver.request stubSigner dearSale 10 wrappingRate = some (.ok (tx, fee), w') ∧
      fee < tx.relayFee := by
  let _ := plainCrypto
  have hmint : ((built (saver.request stubSigner newToken 10 0)).any fun x =>
      tokenId x.1.firstIn 0 != qntAsset && saver.spentValue x.1 (tokenId x.1.firstIn 0) !=
        assetValue (tokenId x.1.firstIn 0) x.1.outs) = true := by decide +kernel
  have hsale : ((built (saver.request stubSigner dearSale 10 0)).any fun x =>
      saver.spentValue x.1 qntAsset + 0xffffffffffffffff !=
        assetValue qntAsset x.1.outs + x.2.toNat) = true := by decide +kernel
  have hfee : ((built (saver.request stubSigner dearSale 10 wrappingRate)).any fun x =>
      x.2 < x.1.relayFee) = true := by decide +kernel
  refine ⟨.opened .., ?_, ?_, ?_⟩
  · obtain ⟨⟨tx, fee⟩, w', hreq, hoff⟩ := built_some hmint
    rw [Bool.and_eq_true, bne_iff_ne, bne_iff_ne] at hoff
    obtain ⟨owner, w₁, p, hprep, hplan, _⟩ := Wallet.request_ok hreq
    refine ⟨tx, fee, w', owner, w₁, p, hreq, hprep, hplan, _, hoff.1, ?_⟩
    rw [createTokenPlan_ok hplan]
    exact hoff.2
  · obtain ⟨⟨tx, fee⟩, w', hreq, hoff⟩ := built_some hsale
    rw [bne_iff_ne] at hoff
    obtain ⟨owner, w₁, p, hprep, hplan, _⟩ := Wallet.request_ok hreq
    refine ⟨tx, fee, w', owner, w₁, p, hreq, hprep, hplan, ?_⟩
    obtain ⟨hout, hin⟩ := swapPlan_released hplan qntAsset
    rw [hout, hin]
    exact hoff
  · obtain ⟨⟨tx, fee⟩, w', hreq, hlow⟩ := built_some hfee
    exact ⟨tx, fee, w', hreq, of_decide_eq_true hlow⟩

theorem request_funded_token :
    letI := plainCrypto
    ∃ tx fee w' owner w₁ p, saver.request stubSigner newToken 10 0 = some (.ok (tx, fee), w') ∧
      saver.prepare newToken = some (owner, w₁) ∧ newToken.plan w₁ 10 owner = .ok p ∧
      ∃ sel paid change mint est,
        Wallet.Funded saver w' p 10 0 tx fee sel paid change mint est := by
  let _ := plainCrypto
  have hcheck : ((built (saver.request stubSigner newToken 10 0)).any fun x =>
      x.1.mintedValue qntAsset == 0) = true := by decide +kernel
  obtain ⟨⟨tx, fee⟩, w', hreq, hid⟩ := built_some hcheck
  obtain ⟨owner, w₁, p, hfunded⟩ :=
    Wallet.request_funded (Wallet.Reachable.opened ..) hreq (eq_of_beq hid)
  exact ⟨tx, fee, w', owner, w₁, p, hreq, hfunded⟩

end QuantCore
