import QuantCore.Proofs.Bech32
import QuantCore.Proofs.WalletScan
import QuantCore.Wallet.Machine

/-!
# What holds of every wallet

A call that builds a transaction is a plan handed to `build`; what it does to
the wallet is to hand out an address, or two, or none. With that, two facts hold
of a wallet from the day it is made or opened: each coin is filed under its own
outpoint, and the address of every key is watched.
-/

namespace QuantCore

open Maps

variable [Crypto]

/-! ## A call is a plan -/

/-- The plan a call's checks come to, if they pass. Only a new token's plan
depends on an address handed out before: `owner`. -/
def Request.plan (w : Wallet) (tip : Int) (owner : Hash256) : Request → Except String Plan
  | .createTx dests subtractFee => w.createTxPlan dests subtractFee
  | .createSweep address => w.createSweepPlan address tip
  | .createToken t => Wallet.createTokenPlan t owner
  | .sendMessage recipient text gift => w.sendMessagePlan recipient text gift
  | .swap token sell amountIn minOut => Wallet.swapPlan token sell amountIn minOut
  | .addLiquidity token qnt tok pool =>
      (Wallet.addLiquidityPlan token qnt tok pool).map Prod.fst
  | .removeLiquidity token shares pool =>
      (Wallet.removeLiquidityPlan token shares pool).map Prod.fst

namespace Wallet

/-- The wallet a call checks and plans on, and the address it was handed. -/
def prepare (w : Wallet) : Request → Option (Hash256 × Wallet)
  | .createToken _ => w.changeAddr
  | _ => some (0, w)

omit [Crypto] in
theorem txAndFee_map {α : Type} (r : Result (Transaction × Amount)) (f : Transaction → α) :
    txAndFee (r.map fun r => (r.1.map fun x => (x.1, x.2, f x.1), r.2)) = r := by
  rcases r with _ | ⟨_ | x, w⟩ <;> rfl

theorem request_eq (w : Wallet) (signer : Signer) (r : Request) (tip : Int)
    (feePerKb : Amount) : w.request signer r tip feePerKb =
      match w.prepare r with
      | none => none
      | some (owner, w₁) => w₁.buildFrom signer (r.plan w₁ tip owner) tip feePerKb := by
  cases r with
  | createTx dests subtractFee => rfl
  | createSweep address => rfl
  | createToken t =>
      rw [request, createToken, prepare]
      cases w.changeAddr with
      | none => rfl
      | some r =>
          obtain ⟨owner, w₁⟩ := r
          exact txAndFee_map (w₁.buildFrom signer (createTokenPlan t owner) tip feePerKb)
            fun tx => tokenId tx.firstIn 0
  | sendMessage recipient text gift => rfl
  | swap token sell amountIn minOut => rfl
  | addLiquidity token qnt tok pool =>
      show txAndFee (w.addLiquidity signer token qnt tok pool tip feePerKb) =
        w.buildFrom signer ((addLiquidityPlan token qnt tok pool).map Prod.fst) tip feePerKb
      rw [addLiquidity]
      cases addLiquidityPlan token qnt tok pool with
      | error e => rfl
      | ok p => exact txAndFee_map _ fun _ => p.2
  | removeLiquidity token shares pool =>
      show txAndFee (w.removeLiquidity signer token shares pool tip feePerKb) =
        w.buildFrom signer ((removeLiquidityPlan token shares pool).map Prod.fst) tip feePerKb
      rw [removeLiquidity]
      cases removeLiquidityPlan token shares pool with
      | error e => rfl
      | ok p => exact txAndFee_map _ fun _ => p.2

/-! ## The two facts -/

omit [Crypto] in
theorem deriveUntil_nextIndex (count : UInt32) (w : Wallet) :
    (deriveUntil count w).nextIndex = w.nextIndex := by
  rw [deriveUntil]
  induction count.toNat - w.keys.length generalizing w with
  | zero => rfl
  | succ n ih =>
      rw [Function.iterate_succ_apply]
      exact ih w.deriveNext

/-- Coins are filed under their outpoints, and the keys' addresses are watched. -/
structure Filed (w : Wallet) : Prop where
  coins : ∀ o c, w.coins.lookup o = some c → c.op = o
  keys : ∀ k ∈ w.keys, w.isMine k.addr = true

namespace Filed

variable {w w' : Wallet}

omit [Crypto]

theorem no_coins (h : ∀ k ∈ w.keys, w.isMine k.addr = true) : Filed { w with coins := ∅ } := by
  refine ⟨fun o c hl => ?_, h⟩
  rw [AList.lookup_empty] at hl
  cases hl

theorem insert (h : w.Filed) (c : WalletCoin) :
    ∀ o c', (w.coins.insert c.op c).lookup o = some c' → c'.op = o := by
  intro o c' hl
  rw [lookup_insert_ite] at hl
  split at hl
  · next ho => cases hl; exact ho.symm
  · exact h.coins o c' hl

theorem erase (h : w.Filed) (o : OutPoint) :
    ∀ o' c', (w.coins.erase o).lookup o' = some c' → c'.op = o' := by
  intro o' c' hl
  rw [lookup_erase_ite] at hl
  split at hl
  · cases hl
  · exact h.coins o' c' hl

/-- A key rewritten with its address as it was. -/
theorem keys_set (h : w.Filed) (i : Nat) (k : WalletKey)
    (hk : k.addr = (w.keys.getD i default).addr) :
    ∀ k' ∈ w.keys.set i k, w.isMine k'.addr = true := by
  intro k' hk'
  rcases List.mem_or_eq_of_mem_set hk' with hm | rfl
  · exact h.keys k' hm
  · by_cases hi : i < w.keys.length
    · rw [hk, List.getD_eq_getElem?_getD, List.getElem?_eq_getElem hi, Option.getD_some]
      exact h.keys _ (List.getElem_mem hi)
    · rw [List.set_eq_of_length_le (Nat.le_of_not_lt hi)] at hk'
      exact h.keys k' hk'

theorem deriveNext (h : w.Filed) : w.deriveNext.Filed where
  coins := h.coins
  keys k hk := by
    rcases List.mem_append.mp hk with hk | hk
    · exact w.deriveNext_grown.keeps _ (h.keys k hk)
    · rw [List.mem_singleton.mp hk, isMine, Wallet.deriveNext, lookup_insert_ite, if_pos rfl]
      rfl

theorem deriveUntil (h : w.Filed) (count : UInt32) : (deriveUntil count w).Filed := by
  rw [Wallet.deriveUntil]
  induction count.toNat - w.keys.length generalizing w with
  | zero => exact h
  | succ n ih =>
      rw [Function.iterate_succ_apply]
      exact ih h.deriveNext

end Filed

/-! ## Handing out an address -/

section

omit [Crypto]

variable {w w' : Wallet} {label : String} {a : Hash256}

/-- The key handed out is one of the wallet's, derived if need be. -/
theorem issueKey_some (h : w.issueKey label = some (a, w')) :
    ∃ k, (deriveUntil (w.nextIndex + 1 + lookahead) w).keys[w.nextIndex.toNat]? = some k ∧
      a = k.addr ∧ w' = { deriveUntil (w.nextIndex + 1 + lookahead) w with
        keys := (deriveUntil (w.nextIndex + 1 + lookahead) w).keys.set w.nextIndex.toNat
          { k with issued := true, label }
        nextIndex := w.nextIndex + 1 } := by
  simp only [issueKey, deriveUntil_nextIndex] at h
  split at h
  · cases h
  · next k hk =>
      cases h
      exact ⟨k, hk, rfl, rfl⟩

theorem issueKey_frame (h : w.issueKey label = some (a, w')) : Grown w w' ∧
    w'.coins = w.coins ∧ w'.history = w.history ∧ w'.nextIndex = w.nextIndex + 1 := by
  obtain ⟨k, hk, rfl, rfl⟩ := issueKey_some h
  obtain ⟨hc, hh⟩ := deriveUntil_coins (w.nextIndex + 1 + lookahead) w
  exact ⟨(deriveUntil_grown _ w).trans (grown_of_byAddr rfl rfl rfl), hc, hh, rfl⟩

theorem Filed.issueKey (hw : w.Filed) (h : w.issueKey label = some (a, w')) :
    w'.Filed ∧ w'.isMine a = true := by
  obtain ⟨k, hk, rfl, rfl⟩ := issueKey_some h
  have hd := hw.deriveUntil (w.nextIndex + 1 + lookahead)
  refine ⟨⟨hd.coins, hd.keys_set _ _ ?_⟩, hd.keys k (List.mem_of_getElem? hk)⟩
  rw [List.getD_eq_getElem?_getD, hk]
  rfl

end

/-- Encoding the fresh address and decoding it again gives it back. -/
theorem changeAddr_eq (w : Wallet) : w.changeAddr = w.issueKey "(change)" := by
  rw [changeAddr]
  cases w.issueKey "(change)" with
  | none => rfl
  | some r =>
      have h := decodeAddress_encode w.network w.network 0 r.1
      rw [if_pos rfl] at h
      show some (((decodeAddress (paramsFor w.network)
        (encodeAddress (paramsFor w.network) 0 r.1)).map Prod.snd).getD 0, r.2) = _
      rw [h]
      rfl

/-- Building changes the wallet by handing out a change address, if at all. -/
theorem build_wallet {w w' : Wallet} {signer : Signer} {p : Plan} {tip : Int} {feePerKb : Amount}
    {res : Except String (Transaction × Amount)}
    (h : w.build signer p tip feePerKb = some (res, w')) :
    w' = w ∨ ∃ a, w.issueKey "(change)" = some (a, w') := by
  simp only [build] at h
  split at h
  · cases h
    exact .inl rfl
  · split at h
    · cases h
      exact .inl rfl
    · rw [changeAddr_eq] at h
      split at h
      · cases h
      · next a w₁ ha =>
          cases h
          exact .inr ⟨a, ha⟩

/-- What handing out an address keeps, the calls that build a transaction keep. -/
theorem request_keeps {P : Wallet → Prop}
    (hP : ∀ w a w', w.issueKey "(change)" = some (a, w') → P w → P w') {w w' : Wallet}
    {signer : Signer} {r : Request} {tip : Int} {feePerKb : Amount}
    {res : Except String (Transaction × Amount)}
    (h : w.request signer r tip feePerKb = some (res, w')) (hw : P w) : P w' := by
  have hprepare : ∀ owner w₁, w.prepare r = some (owner, w₁) → P w₁ := by
    intro owner w₁ hr
    cases r with
    | createToken t =>
        rw [prepare, changeAddr_eq] at hr
        exact hP _ _ _ hr hw
    | _ =>
        cases hr
        exact hw
  rw [request_eq] at h
  split at h
  · cases h
  · next owner w₁ hr =>
      simp only [buildFrom] at h
      split at h
      · cases h
        exact hprepare _ _ hr
      · rcases build_wallet h with rfl | ⟨a, ha⟩
        · exact hprepare _ _ hr
        · exact hP _ _ _ ha (hprepare _ _ hr)

/-! ## They hold of every reachable wallet -/

namespace Filed

variable {w : Wallet}

omit [Crypto] in
/-- The history and the marks of the last block have no say. -/
theorem congr {w' : Wallet} (h : w.Filed) (hc : w'.coins = w.coins) (hk : w'.keys = w.keys)
    (hb : w'.byAddr = w.byAddr) : w'.Filed where
  coins := hc ▸ h.coins
  keys k hm := by
    rw [isMine, hb]
    exact h.keys k (hk ▸ hm)

omit [Crypto] in
theorem addCoin (h : w.Filed) (c : WalletCoin) : (w.addCoin c).Filed := by
  rw [Wallet.addCoin]
  split
  · exact ⟨h.insert c, h.keys⟩
  · next i _ =>
      refine Filed.deriveUntil ⟨h.insert c, h.keys_set i _ ?_⟩ _
      rw [markIssued]
      split <;> rfl

omit [Crypto] in
theorem replaceCoins (h : w.Filed) (coins : List WalletCoin) : (w.replaceCoins coins).Filed := by
  have hclear : Filed { w with coins := ∅ } := no_coins h.keys
  exact List.foldlRecOn _ _ hclear fun w hw c _ => hw.addCoin c

omit [Crypto] in
theorem takeInput (h : w.Filed) (height : Int) (e : TxEffect) (i : TxIn) :
    (takeInput height (w, e) i).1.Filed := by
  rw [Wallet.takeInput]
  split
  · exact h
  · next c hc =>
      refine ⟨?_, h.keys⟩
      have hop : c.op = i.prev := h.coins _ _ hc
      show ∀ o c', (if height < 0 then w.coins.insert i.prev { c with locked := true }
        else w.coins.erase i.prev).lookup o = some c' → c'.op = o
      split
      · rw [← hop]
        exact h.insert { c with locked := true }
      · exact h.erase i.prev

theorem takeOutput (h : w.Filed) (txid : Hash256) (height : Int) (coinbase : Bool)
    (e : TxEffect) (o : TxOut × Nat) : (takeOutput txid height coinbase (w, e) o).1.Filed := by
  rw [Wallet.takeOutput]
  split
  · exact h.addCoin _
  · exact h

theorem scanTx (h : w.Filed) (tx : Transaction) (height : Int) : (w.scanTx tx height).1.Filed := by
  rw [Wallet.scanTx]
  refine List.foldlRecOn (motive := fun s : Wallet × TxEffect => s.1.Filed) _ _ ?_
    fun s hs o _ => hs.takeOutput _ height _ s.2 o
  exact List.foldlRecOn (motive := fun s : Wallet × TxEffect => s.1.Filed) _ _ h
    fun s hs i _ => hs.takeInput height s.2 i

theorem processTx (h : w.Filed) (tx : Transaction) (height time : Int) :
    (w.processTx tx height time).Filed := by
  have hs := h.scanTx tx height
  simp only [Wallet.processTx]
  split
  · exact hs
  · exact hs.congr rfl rfl rfl

theorem blockConnected (h : w.Filed) (b : Block) (height : Int) :
    (w.blockConnected b height).Filed := by
  have hall : (b.txs.foldl (fun w tx => w.processTx tx height (int64 b.header.time)) w).Filed :=
    List.foldlRecOn _ _ h fun w hw tx _ => hw.processTx tx height _
  exact hall.congr rfl rfl rfl

theorem unconfirmTx (h : w.Filed) (tx : Transaction) : (w.unconfirmTx tx).Filed := by
  rw [Wallet.unconfirmTx]
  split
  · exact h
  · exact h.congr rfl rfl rfl

theorem blockDisconnected (h : w.Filed) (b : Block) (height : Int) :
    (w.blockDisconnected b height).Filed := by
  have hall : (b.txs.foldl Wallet.unconfirmTx w).Filed :=
    List.foldlRecOn _ _ h fun w hw tx _ => hw.unconfirmTx tx
  exact hall.congr rfl rfl rfl

theorem txBroadcast (h : w.Filed) (tx : Transaction) (note : String) (now : Int) :
    (w.txBroadcast tx note now).Filed := by
  have hp := h.processTx tx (-1) now
  simp only [Wallet.txBroadcast]
  split
  · exact hp
  · split
    · exact hp
    · exact hp.congr rfl rfl rfl

omit [Crypto] in
theorem abandonUnconfirmed (h : w.Filed) : w.abandonUnconfirmed.Filed := by
  refine ⟨?_, h.keys⟩
  refine List.foldlRecOn
    (motive := fun m : UMap OutPoint WalletCoin => ∀ o c, m.lookup o = some c → c.op = o) _ _
    (fun o c hc => ?_) fun m hm e he o c hc => ?_
  · rw [AList.lookup_empty] at hc
    cases hc
  · dsimp only at hc
    split at hc
    · exact hm o c hc
    · rw [lookup_insert_ite] at hc
      split at hc
      · next ho =>
          cases hc
          rw [ho]
          exact h.coins e.1 e.2 (mem_pairs.mp he)
      · exact hm o c hc

theorem step {w' : Wallet} (hw : w.Filed) (h : Step w w') : w'.Filed := by
  cases h with
  | newAddress h => exact (hw.issueKey h).1
  | setLabel addr label =>
      rw [Wallet.setLabel]
      split
      · exact hw
      · exact ⟨hw.coins, hw.keys_set _ _ rfl⟩
  | addCoin c => exact hw.addCoin c
  | removeCoin o => exact ⟨hw.erase o, hw.keys⟩
  | replaceCoins coins => exact hw.replaceCoins coins
  | recordTx t => exact hw.congr rfl rfl rfl
  | blockConnected b height => exact hw.blockConnected b height
  | blockDisconnected b height => exact hw.blockDisconnected b height
  | txBroadcast tx note now => exact hw.txBroadcast tx note now
  | abandonUnconfirmed => exact hw.abandonUnconfirmed
  | request h => exact request_keeps (fun _ _ _ ha hf => (hf.issueKey ha).1) h hw
  | synced tip height => exact hw.congr rfl rfl rfl

end Filed

omit [Crypto] in
theorem create_filed {network : Network} {keyAddr : UInt32 → Hash256} {w : Wallet}
    (h : create network keyAddr = some w) : w.Filed := by
  rw [create] at h
  obtain ⟨⟨a, w'⟩, hk, rfl⟩ := Option.map_eq_some_iff.mp h
  have hempty : Filed { network, keyAddr } :=
    Filed.no_coins (w := { network, keyAddr }) fun k hm => absurd hm List.not_mem_nil
  exact ((hempty.deriveUntil lookahead).issueKey hk).1

omit [Crypto] in
theorem load_filed (network : Network) (keyAddr : UInt32 → Hash256) (keys : List WalletKey)
    (nextIndex : UInt32) (coins : List WalletCoin) (history : List WalletTx)
    (syncedTip : Hash256) (syncedHeight : Int) :
    (load network keyAddr keys nextIndex coins history syncedTip syncedHeight).Filed where
  coins := by
    refine List.foldlRecOn
      (motive := fun m : UMap OutPoint WalletCoin => ∀ o c, m.lookup o = some c → c.op = o) _ _
      (fun o c hc => ?_) fun m hm c _ o c' hc => ?_
    · rw [AList.lookup_empty] at hc
      cases hc
    · rw [lookup_insert_ite] at hc
      split at hc
      · next ho => cases hc; exact ho.symm
      · exact hm o c' hc
  keys k hk := by
    have hidx : (load network keyAddr keys nextIndex coins history syncedTip syncedHeight).byAddr =
        insertAll ∅ (keys.zipIdx.map fun k => (k.1.addr, k.2)) := by
      rw [insertAll, List.foldl_map]
      rfl
    have hmem : k.addr ∈ (keys.zipIdx.map fun k => (k.1.addr, k.2)).map Prod.fst := by
      have hfst : k ∈ keys.zipIdx.map Prod.fst := by rwa [List.zipIdx_map_fst]
      obtain ⟨x, hx, rfl⟩ := List.mem_map.mp hfst
      exact List.mem_map_of_mem (List.mem_map_of_mem hx)
    obtain ⟨i, hi⟩ := exists_updateAll_of_mem hmem
    have hl : (insertAll ∅ (keys.zipIdx.map fun k => (k.1.addr, k.2))).lookup k.addr = some i :=
      (congrFun (fn_insertAll _ _) k.addr).trans (hi _)
    rw [isMine, hidx, hl]
    rfl

theorem Reachable.filed {w : Wallet} (h : Reachable w) : w.Filed := by
  induction h with
  | created h => exact create_filed h
  | opened network keyAddr keys nextIndex coins history tip height => exact load_filed ..
  | step _ h ih => exact ih.step h

end Wallet

end QuantCore
