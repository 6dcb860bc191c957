import Mathlib.Algebra.Order.BigOperators.Group.List
import QuantCore.Proofs.Effects
import QuantCore.Proofs.Listings

/-!
# What a light wallet's history says of a payment

A round of `refresh_wallet` adds up, per transaction, the values of the outputs it
counts, and the first round that counts any makes the entry. Two things go wrong:
the sum has tokens and QNT in one, and it leaves out what the replies prove but the
round does not count, because a reply before has listed the output as unconfirmed
or because only a later round finds it. So an entry is right just where no token
was proved, where the first round that counts an output counts all the QNT that
was proved, and where a signed word holds the sum.
-/

namespace QuantCore

open Maps

/-! ## Entries by their ids -/

/-- Entries are filed under their transaction's id. -/
def Wallet.HistoryFiled (m : UMap Hash256 WalletTx) : Prop :=
  ∀ id t, m.lookup id = some t → t.txid = id

namespace Wallet

theorem HistoryFiled.insert {m : UMap Hash256 WalletTx} (h : HistoryFiled m) {id : Hash256}
    {t : WalletTx} (ht : t.txid = id) : HistoryFiled (m.insert id t) := by
  intro id' t' hl
  rw [lookup_insert_ite] at hl
  split at hl
  · next he =>
      cases hl
      rw [ht, he]
  · exact h id' t' hl

theorem HistoryFiled.erase {m : UMap Hash256 WalletTx} (h : HistoryFiled m) (id : Hash256) :
    HistoryFiled (m.erase id) := by
  intro id' t' hl
  by_cases he : id' = id
  · rw [he, AList.lookup_erase] at hl
    cases hl
  · rw [AList.lookup_erase_ne he] at hl
    exact h id' t' hl

theorem historyFiled_empty : HistoryFiled ∅ := fun _ _ hl => by
  rw [AList.lookup_empty] at hl
  cases hl

theorem replaceCoins_history (w : Wallet) (coins : List WalletCoin) :
    (w.replaceCoins coins).history = w.history := by
  rw [Wallet.replaceCoins]
  exact List.foldlRecOn coins (motive := fun w' : Wallet => w'.history = w.history) _ rfl
    fun w' hw' coin _ => (addCoin_spec w' coin).2.2.trans hw'

variable [Crypto] {w w' : Wallet}

theorem scanTx_history (w : Wallet) (tx : Transaction) (height : Int) :
    (w.scanTx tx height).1.history = w.history := by
  rw [scanTx]
  refine List.foldlRecOn _ (motive := fun s : Wallet × TxEffect => s.1.history = w.history) _ ?_
    fun s hs o _ => ?_
  · refine List.foldlRecOn _ (motive := fun s : Wallet × TxEffect => s.1.history = w.history) _ rfl
      fun s hs i _ => ?_
    rw [takeInput]
    split
    · exact hs
    · exact hs
  · rw [takeOutput]
    split
    · exact (addCoin_spec _ _).2.2.trans hs
    · exact hs

theorem processTx_filed (h : HistoryFiled w.history) (tx : Transaction) (height time : Int) :
    HistoryFiled (w.processTx tx height time).history := by
  have hscan := scanTx_history w tx height
  simp only [processTx]
  split
  · rw [hscan]
    exact h
  · refine HistoryFiled.insert (hscan ▸ h) ?_
    rfl

theorem step_historyFiled (h : HistoryFiled w.history) (hs : Step w w') :
    HistoryFiled w'.history := by
  cases hs with
  | newAddress hk => rwa [(issueKey_frame hk).2.2.1]
  | setLabel addr label =>
      rw [setLabel]
      split <;> exact h
  | addCoin c => rwa [(addCoin_spec w c).2.2]
  | removeCoin o => exact h
  | replaceCoins coins => rwa [replaceCoins_history]
  | recordTx t => exact h.insert rfl
  | blockConnected b height =>
      exact List.foldlRecOn b.txs (motive := fun w' : Wallet => HistoryFiled w'.history) _ h
        fun w' hw' tx _ => processTx_filed hw' tx height _
  | blockDisconnected b height =>
      refine List.foldlRecOn b.txs (motive := fun w' : Wallet => HistoryFiled w'.history) _ h
        fun w' hw' tx _ => ?_
      rw [unconfirmTx]
      split
      · exact hw'
      · next t ht =>
          show HistoryFiled (if tx.isCoinbase then w'.history.erase tx.txid
            else w'.history.insert tx.txid { t with height := -1 })
          split
          · exact hw'.erase _
          · exact hw'.insert (hw' _ t ht)
  | txBroadcast tx note now =>
      have hp := processTx_filed h tx (-1) now
      simp only [txBroadcast]
      split
      · exact hp
      · next t ht =>
          split
          · exact hp
          · exact hp.insert (hp _ t ht)
  | abandonUnconfirmed =>
      refine List.foldlRecOn _ (motive := HistoryFiled) _ historyFiled_empty fun m hm e he => ?_
      split
      · exact hm
      · exact hm.insert (h _ _ (mem_pairs.mp he))
  | request hr =>
      refine request_keeps (P := fun v => HistoryFiled v.history) (fun v a v' ha hv => ?_) hr h
      rwa [(issueKey_frame ha).2.2.1]
  | synced tip height => exact h

theorem Reachable.historyFiled (hw : w.Reachable) : HistoryFiled w.history := by
  induction hw with
  | created h =>
      rw [create] at h
      obtain ⟨⟨a, w'⟩, hk, rfl⟩ := Option.map_eq_some_iff.mp h
      rw [(issueKey_frame hk).2.2.1, (deriveUntil_coins _ _).2]
      exact historyFiled_empty
  | opened network keyAddr keys nextIndex coins history tip height =>
      exact List.foldlRecOn history (motive := HistoryFiled) _ historyFiled_empty
        fun m hm t _ => hm.insert rfl
  | step _ hs ih => exact step_historyFiled ih hs

end Wallet

/-! ## A round -/

namespace Scan

/-- The sums of a round are those of the coins it has checked. -/
def Tallied (s : Scan) : Prop :=
  ∀ txid, (s.received.lookup txid).map Prod.snd =
    if checkedCoins s.coins txid = [] then none
    else some (UInt64.ofNat (coinsValue (checkedCoins s.coins txid)))

/-- A transaction that has no coins yet counts as zero. -/
theorem Tallied.amount {s : Scan} (hs : s.Tallied) (txid : Hash256) :
    ((s.received.lookup txid).getD (0, 0)).2 =
      UInt64.ofNat (coinsValue (checkedCoins s.coins txid)) := by
  have h := hs txid
  cases hlook : s.received.lookup txid with
  | none =>
      rw [hlook] at h
      split at h
      · next he =>
          rw [he]
          rfl
      · cases h
  | some x =>
      rw [hlook] at h
      split at h
      · cases h
      · exact Option.some.inj h

theorem Tallied.addChecked {s : Scan} (hs : s.Tallied) {h : Nat} {coin : WalletCoin}
    (hcoin : 0 ≤ coin.height) : (s.addChecked h coin).Tallied := by
  rw [Scan.addChecked]
  split
  · next hnew =>
      intro txid
      show ((s.received.insert coin.op.txid _).lookup txid).map Prod.snd =
        if checkedCoins (s.coins.insert coin.op coin) txid = [] then none
        else some (UInt64.ofNat (coinsValue (checkedCoins (s.coins.insert coin.op coin) txid)))
      rw [lookup_insert_ite]
      by_cases hid : coin.op.txid = txid
      · obtain rfl := hid
        rw [if_pos rfl, checkedCoins_insert hnew hcoin, if_neg (List.cons_ne_nil _ _),
          Option.map_some, coinsValue_cons, UInt64.ofNat_add, UInt64.ofNat_toNat,
          UInt64.add_comm, hs.amount]
      · rw [if_neg fun he => hid he.symm, checkedCoins_insert_other hnew fun hc => hid hc.2]
        exact hs txid
  · exact hs

theorem Tallied.addUnconfirmed {s : Scan} (hs : s.Tallied) {coin : WalletCoin}
    (hnew : s.coins.lookup coin.op = none) (hcoin : coin.height = -1) :
    Tallied { s with coins := s.coins.insert coin.op coin } := by
  intro txid
  show _ = if checkedCoins (s.coins.insert coin.op coin) txid = [] then none
    else some (UInt64.ofNat (coinsValue (checkedCoins (s.coins.insert coin.op coin) txid)))
  have hnone : ¬ (0 ≤ coin.height ∧ coin.op.txid = txid) := fun hc => by
    rw [hcoin] at hc
    exact absurd hc.1 (by decide)
  rw [checkedCoins_insert_other hnew hnone]
  exact hs txid

theorem tallied_empty : Scan.Tallied {} := fun _ => rfl

end Scan

namespace LightClient

variable [Crypto] {c : LightClient} {peers : List LightPeer} {w : Wallet}

theorem readUtxos_tallied {reply : Bytes} {s : Scan} (hs : s.Tallied) :
    (c.readUtxos w reply s).Tallied := by
  refine readUtxos_keeps hs (fun bs _ => takeSection_keeps ?_ bs hs) ?_ ?_
  · intro bs s hs
    rw [takeProof]
    split
    · exact hs
    · split
      · exact hs
      · exact hs
      · next hcheck =>
          obtain ⟨h, -, -, -, -, -, -, -, hheight, -⟩ := checkProof_some hcheck
          refine hs.addChecked ?_
          rw [hheight]
          exact Int.natCast_nonneg h
  · intro bs s hs
    rw [Scan.takeSpent]
    split <;> exact hs
  · intro bs s hs
    rw [Scan.takeUnconfirmed]
    split
    · exact hs
    · next o out rest _ =>
        split
        · next hnew =>
            rw [Bool.and_eq_true, Option.isNone_iff_eq_none] at hnew
            exact @Scan.Tallied.addUnconfirmed s hs ⟨o, out, -1, false, false⟩ hnew.2 rfl
        · exact hs

theorem scanPeers_tallied (peers : List LightPeer) (w : Wallet) (tick : Nat) :
    (c.scanPeers peers w tick).1.Tallied := by
  have hask : ∀ (peer : LightPeer) (requests : List (List Hash256)) (st : Scan × Nat),
      st.1.Tallied → (c.askPeer w peer requests st).1.Tallied := by
    intro peer requests
    induction requests with
    | nil => exact fun st hs => hs
    | cons addrs rest ih =>
        intro st hs
        rw [askPeer]
        split
        · exact hs
        · exact ih _ (readUtxos_tallied hs)
  rw [scanPeers]
  exact List.foldlRecOn peers (motive := fun st : Scan × Nat => st.1.Tallied) _
    Scan.tallied_empty fun st hs peer _ => hask peer _ st hs

/-! ## The entries of a round -/

omit [Crypto] in
/-- Only transactions of the list are recorded. -/
theorem recorded_other {s : Scan} {byId : UMap Hash256 WalletTx} (hid : Wallet.HistoryFiled byId)
    {txid : Hash256} (l : List (Hash256 × Nat × Amount)) (hl : txid ∉ l.map Prod.fst)
    (w : Wallet) :
    (l.foldl (c.recordReceived s byId) w).history.lookup txid = w.history.lookup txid := by
  induction l generalizing w with
  | nil => rfl
  | cons e l ih =>
      rw [List.map_cons, List.mem_cons, not_or] at hl
      rw [List.foldl_cons, ih hl.2, recordReceived]
      split
      · exact AList.lookup_insert_ne hl.1
      · next t ht =>
          split
          · refine AList.lookup_insert_ne ?_
            show txid ≠ t.txid
            rw [hid _ t ht]
            exact hl.1
          · rfl

/-- The entry made for a payment. -/
def paymentEntry (c : LightClient) (s : Scan) (e : Hash256 × Nat × Amount) : WalletTx :=
  { txid := e.1, height := e.2.1, time := int64 (c.headers.getD e.2.1 default).time
    delta := int64 e.2.2, coinbase := s.coinbaseTx.contains e.1 }

omit [Crypto] in
theorem recorded_new {s : Scan} {byId : UMap Hash256 WalletTx} (hid : Wallet.HistoryFiled byId)
    {e : Hash256 × Nat × Amount} (hnew : byId.lookup e.1 = none)
    (l : List (Hash256 × Nat × Amount)) (hl : (l.map Prod.fst).Nodup) (he : e ∈ l) (w : Wallet) :
    (l.foldl (c.recordReceived s byId) w).history.lookup e.1 = some (c.paymentEntry s e) := by
  induction l generalizing w with
  | nil => cases he
  | cons e' l ih =>
      rw [List.map_cons, List.nodup_cons] at hl
      rw [List.foldl_cons]
      rcases List.mem_cons.mp he with rfl | he
      · rw [recorded_other hid l hl.1, recordReceived, hnew]
        exact AList.lookup_insert _
      · exact ih hl.2 he _

omit [Crypto] in
/-- An entry with a height stays as it is. -/
theorem recorded_kept {s : Scan} {byId : UMap Hash256 WalletTx} (hid : Wallet.HistoryFiled byId)
    {txid : Hash256} {t : WalletTx} (ht : byId.lookup txid = some t) (hheight : 0 ≤ t.height)
    (l : List (Hash256 × Nat × Amount)) (w : Wallet) :
    (l.foldl (c.recordReceived s byId) w).history.lookup txid = w.history.lookup txid := by
  induction l generalizing w with
  | nil => rfl
  | cons e l ih =>
      rw [List.foldl_cons, ih, recordReceived]
      by_cases he : txid = e.1
      · rw [← he, ht]
        simp only
        rw [if_neg (not_lt.mpr hheight)]
      · split
        · exact AList.lookup_insert_ne he
        · next t' ht' =>
            split
            · refine AList.lookup_insert_ne ?_
              show txid ≠ t'.txid
              rwa [hid _ t' ht']
            · rfl

omit [Crypto] in
/-- What a round does to the entry of a transaction. -/
theorem finishScan_entry {s : Scan} (hs : s.Tallied) (hw : Wallet.HistoryFiled w.history)
    (txid : Hash256) :
    (w.history.lookup txid = none → checkedCoins s.coins txid = [] →
      (c.finishScan w s).history.lookup txid = none) ∧
    (w.history.lookup txid = none → checkedCoins s.coins txid ≠ [] →
      ∃ t, (c.finishScan w s).history.lookup txid = some t ∧ 0 ≤ t.height ∧
        t.delta = int64 (UInt64.ofNat (coinsValue (checkedCoins s.coins txid))) ∧
        t.tokenDelta = ∅) ∧
    ∀ t, w.history.lookup txid = some t → 0 ≤ t.height →
      (c.finishScan w s).history.lookup txid = some t := by
  have hhist := Wallet.replaceCoins_history w (scannedCoins s)
  have hid : Wallet.HistoryFiled (w.replaceCoins (scannedCoins s)).history := by rwa [hhist]
  have hkeys : ((((pairs s.received).insertionSort fun a b => a.1.toNat ≤ b.1.toNat)).map
      Prod.fst).Nodup :=
    ((List.perm_insertionSort _ _).map _).nodup_iff.mpr (pairs_nodup _)
  have hmem : ∀ e, e ∈ (pairs s.received).insertionSort (fun a b => a.1.toNat ≤ b.1.toNat) ↔
      s.received.lookup e.1 = some e.2 := by
    intro e
    rw [List.mem_insertionSort, ← mem_pairs]
  have htally := hs txid
  rw [finishScan]
  refine ⟨fun hnone hempty => ?_, fun hnone hcoins => ?_, fun t ht hheight => ?_⟩
  · rw [if_pos hempty, Option.map_eq_none_iff] at htally
    rw [recorded_other hid _ fun hm => ?_, hhist, hnone]
    obtain ⟨e, he, heq⟩ := List.mem_map.mp hm
    have hl := (hmem e).mp he
    rw [heq, htally] at hl
    cases hl
  · rw [if_neg hcoins, Option.map_eq_some_iff] at htally
    obtain ⟨x, hx, hvalue⟩ := htally
    have hnew := recorded_new (c := c) (s := s) (e := (txid, x)) hid (by rw [hhist]; exact hnone)
      _ hkeys ((hmem _).mpr hx) (w.replaceCoins (scannedCoins s))
    refine ⟨_, hnew, Int.natCast_nonneg _, ?_, rfl⟩
    rw [← hvalue]
    rfl
  · rw [recorded_kept hid (by rw [hhist]; exact ht) hheight, hhist, ht]

omit [Crypto] in
theorem finishScan_historyFiled {s : Scan} (hw : Wallet.HistoryFiled w.history) :
    Wallet.HistoryFiled (c.finishScan w s).history := by
  refine List.foldlRecOn _ (motive := fun w : Wallet => Wallet.HistoryFiled w.history) _ ?_
    fun w' hw' e _ => ?_
  · rwa [Wallet.replaceCoins_history]
  · rw [recordReceived]
    split
    · exact hw'.insert rfl
    · split
      · exact hw'.insert rfl
      · exact hw'

end LightClient

/-! ## The run -/

/-- The value of an asset among outputs. -/
def heldValue (a : Hash256) (l : List (OutPoint × TxOut)) : Nat := assetValue a (l.map Prod.snd)

/-- The value of all outputs, whatever their asset. -/
def mixedValue (l : List (OutPoint × TxOut)) : Nat := (l.map fun e => e.2.value.toNat).sum

/-- What the first round that counts outputs of a transaction counts, of the
listings of each round. -/
def firstCounted (txid : Hash256) : List (List Listing) → List (OutPoint × TxOut)
  | [] => []
  | l :: ls => if counted txid [] l = [] then firstCounted txid ls else counted txid [] l

theorem firstCounted_spec (txid : Hash256) (ls : List (List Listing)) :
    (firstCounted txid ls).Nodup ∧ firstCounted txid ls ⊆ proved txid ls.flatten := by
  have hmono : ∀ l l' : List Listing, l ⊆ l' → proved txid l ⊆ proved txid l' := by
    intro l l' h e he
    rw [proved, List.mem_dedup, List.mem_filter, List.mem_filterMap] at he ⊢
    obtain ⟨⟨x, hx, hp⟩, ht⟩ := he
    exact ⟨⟨x, h hx, hp⟩, ht⟩
  induction ls with
  | nil => exact ⟨List.nodup_nil, List.nil_subset _⟩
  | cons l ls ih =>
      rw [firstCounted, List.flatten_cons]
      split
      · exact ⟨ih.1, fun e he => hmono _ _ (List.subset_append_right l _) (ih.2 he)⟩
      · obtain ⟨hnodup, hmem⟩ := counted_spec txid l []
        exact ⟨hnodup.of_map, fun e he =>
          hmono _ _ (List.subset_append_left l _) (hmem e he).2⟩

/-- What is counted is no more than what is proved. -/
theorem heldValue_first_le (a txid : Hash256) (ls : List (List Listing)) :
    heldValue a (firstCounted txid ls) ≤ heldValue a (proved txid ls.flatten) := by
  obtain ⟨hnodup, hsub⟩ := firstCounted_spec txid ls
  obtain ⟨l', hperm, hl'⟩ := List.subperm_of_subset hnodup hsub
  rw [heldValue, assetValue, ← ((hperm.map Prod.snd).map _).sum_eq]
  exact ((hl'.map Prod.snd).map _).sum_le_sum fun _ _ => Nat.zero_le _

/-- Without tokens of any value, all value is QNT. -/
theorem mixedValue_eq {l : List (OutPoint × TxOut)} (h : ∀ a ≠ qntAsset, heldValue a l = 0) :
    mixedValue l = heldValue qntAsset l := by
  induction l with
  | nil => rfl
  | cons e l ih =>
      have hcons : ∀ a, heldValue a (e :: l) =
          (if e.2.asset = a then e.2.value.toNat else 0) + heldValue a l :=
        fun a => assetValue_cons a e.2 (l.map Prod.snd)
      have htail : ∀ a ≠ qntAsset, heldValue a l = 0 := by
        intro a ha
        have hzero := h a ha
        rw [hcons] at hzero
        omega
      have hmixed : mixedValue (e :: l) = e.2.value.toNat + mixedValue l := rfl
      rw [hmixed, hcons, ih htail]
      by_cases hq : e.2.asset = qntAsset
      · rw [if_pos hq]
      · have hzero := h e.2.asset hq
        rw [hcons, if_pos rfl] at hzero
        rw [if_neg hq]
        omega

/-- The entry keeps the assets apart: it has the QNT of the outputs as its amount,
and of each token what they hold. -/
structure KeepsApart (found : List (OutPoint × TxOut)) (t : WalletTx) : Prop where
  qnt : t.delta = heldValue qntAsset found
  tokens : ∀ a, a ≠ qntAsset → (t.tokenDelta.lookup a).getD 0 = heldValue a found

/-- Of a transaction no token is proved, the first round that counts an output
counts all the QNT that is proved, and it is less than a signed word holds. -/
structure PlainPayment (txid : Hash256) (ls : List (List Listing)) : Prop where
  entered : firstCounted txid ls ≠ []
  no_tokens : ∀ a, a ≠ qntAsset → heldValue a (proved txid ls.flatten) = 0
  all_counted : heldValue qntAsset (proved txid ls.flatten) =
    heldValue qntAsset (firstCounted txid ls)
  small : heldValue qntAsset (proved txid ls.flatten) < 2 ^ 63

theorem keepsApart_iff {txid : Hash256} {ls : List (List Listing)} {t : WalletTx}
    (hcounted : firstCounted txid ls ≠ [])
    (hdelta : t.delta = int64 (UInt64.ofNat (mixedValue (firstCounted txid ls))))
    (htokens : t.tokenDelta = ∅) :
    KeepsApart (proved txid ls.flatten) t ↔ PlainPayment txid ls := by
  have hle := fun a => heldValue_first_le a txid ls
  have hnone : ∀ a, (t.tokenDelta.lookup a).getD 0 = 0 := by
    intro a
    rw [htokens, AList.lookup_empty]
    rfl
  have hword : (∀ a, a ≠ qntAsset → heldValue a (proved txid ls.flatten) = 0) →
      FitsWord t.delta ∧ t.delta ≡ heldValue qntAsset (firstCounted txid ls) [ZMOD 2 ^ 64] := by
    intro hzero
    have hfirst : ∀ a ≠ qntAsset, heldValue a (firstCounted txid ls) = 0 := by
      intro a ha
      have hmore := hle a
      rw [hzero a ha] at hmore
      omega
    rw [hdelta, mixedValue_eq hfirst]
    refine ⟨?_, (int64_modEq _).trans ?_⟩
    · exact ⟨BitVec.le_toInt _, BitVec.toInt_lt⟩
    · rw [UInt64.toNat_ofNat']
      exact Int.natCast_modEq_iff.mpr (Nat.mod_modEq _ _)
  have hq := hle qntAsset
  constructor
  · intro h
    have hzero : ∀ a, a ≠ qntAsset → heldValue a (proved txid ls.flatten) = 0 := by
      intro a ha
      have htoken := h.tokens a ha
      rw [hnone] at htoken
      omega
    obtain ⟨hfits, hmod⟩ := hword hzero
    have hsmall : heldValue qntAsset (proved txid ls.flatten) < 2 ^ 63 := by
      have hlt := hfits.2
      rw [h.qnt] at hlt
      exact_mod_cast hlt
    refine ⟨hcounted, hzero, ?_, hsmall⟩
    have heq := eq_of_modEq hfits (by rw [FitsWord]; omega) hmod
    rw [h.qnt] at heq
    exact_mod_cast heq
  · intro h
    obtain ⟨hfits, hmod⟩ := hword h.no_tokens
    have hsmall := h.small
    rw [h.all_counted] at hsmall
    refine ⟨?_, fun a ha => ?_⟩
    · rw [h.all_counted]
      exact eq_of_modEq hfits (by rw [FitsWord]; omega) hmod
    · rw [hnone, h.no_tokens a ha]
      rfl

namespace LightClient

variable {c : LightClient} {txid : Hash256}

/-- An entry with a height stays as it is over the rounds. -/
theorem rounds_kept (scans : List Scan) (hs : ∀ s ∈ scans, s.Tallied) {w : Wallet}
    (hw : Wallet.HistoryFiled w.history) {t : WalletTx} (ht : w.history.lookup txid = some t)
    (hheight : 0 ≤ t.height) :
    (scans.foldl c.finishScan w).history.lookup txid = some t := by
  induction scans generalizing w with
  | nil => exact ht
  | cons s scans ih =>
      rw [List.forall_mem_cons] at hs
      rw [List.foldl_cons]
      exact ih hs.2 (finishScan_historyFiled hw)
        ((finishScan_entry hs.1 hw txid).2.2 t ht hheight)

/-- What is counted is what the coins that were checked come to. -/
theorem mixedValue_checked {coins : UMap OutPoint WalletCoin} {l : List Listing}
    (h : Lists coins l) (txid : Hash256) :
    coinsValue (checkedCoins coins txid) = mixedValue (counted txid [] l) ∧
      (checkedCoins coins txid = [] ↔ counted txid [] l = []) := by
  have hperm := h.counted txid
  refine ⟨?_, ?_⟩
  · rw [mixedValue, ← (hperm.map _).sum_eq, List.map_map]
    rfl
  · rw [← List.map_eq_nil_iff (f := coinOutput)]
    exact ⟨fun he => List.nil_perm.mp (he ▸ hperm), fun he => List.perm_nil.mp (he ▸ hperm)⟩

/-- The first round that counts outputs of a transaction makes its entry, and
without one there is none. -/
theorem rounds_entry {scans : List Scan} {ls : List (List Listing)}
    (hs : ∀ s ∈ scans, s.Tallied) (hl : List.Forall₂ (fun s l => Lists s.coins l) scans ls)
    {w : Wallet} (hw : Wallet.HistoryFiled w.history) (hnew : w.history.lookup txid = none) :
    (firstCounted txid ls = [] → (scans.foldl c.finishScan w).history.lookup txid = none) ∧
      (firstCounted txid ls ≠ [] →
        ∃ t, (scans.foldl c.finishScan w).history.lookup txid = some t ∧
          t.delta = int64 (UInt64.ofNat (mixedValue (firstCounted txid ls))) ∧
          t.tokenDelta = ∅) := by
  induction hl generalizing w with
  | nil => exact ⟨fun _ => hnew, fun hc => absurd rfl hc⟩
  | @cons s l scans ls hlists hrest ih =>
      rw [List.forall_mem_cons] at hs
      obtain ⟨hnone, hsome, -⟩ := finishScan_entry (c := c) hs.1 hw txid
      obtain ⟨hvalue, hempty⟩ := mixedValue_checked hlists txid
      have hw' := finishScan_historyFiled (c := c) (s := s) hw
      rw [List.foldl_cons, firstCounted]
      by_cases hc : counted txid [] l = []
      · rw [if_pos hc]
        exact ih hs.2 hw' (hnone hnew (hempty.mpr hc))
      · rw [if_neg hc]
        refine ⟨fun he => absurd he hc, fun _ => ?_⟩
        obtain ⟨t, ht, hheight, hdelta, htokens⟩ := hsome hnew fun he => hc (hempty.mp he)
        rw [hvalue] at hdelta
        exact ⟨t, rounds_kept scans hs.2 hw' ht hheight, hdelta, htokens⟩

variable [Crypto] {peers : List LightPeer}

/-- The listings of each round, under the wallet the round began with. -/
def listingsOf (c : LightClient) : Wallet → List (Scan × Wallet) → List (List Listing)
  | _, [] => []
  | w, (s, w') :: rounds => s.answered.flatMap (c.listings w) :: listingsOf c w' rounds

/-- The rounds scan, and each hands its wallet to the next. -/
theorem refreshRounds_scans (k : Nat) (w : Wallet) (tick : Nat) :
    (∀ s ∈ (c.refreshRounds peers k w tick).1.map Prod.fst, s.Tallied) ∧
    List.Forall₂ (fun s l => Lists s.coins l)
      ((c.refreshRounds peers k w tick).1.map Prod.fst)
      (c.listingsOf w (c.refreshRounds peers k w tick).1) ∧
    ((c.refreshRounds peers k w tick).1.getLast?.map Prod.snd).getD w =
      ((c.refreshRounds peers k w tick).1.map Prod.fst).foldl c.finishScan w := by
  induction k generalizing w tick with
  | zero => exact ⟨fun s hs => absurd hs List.not_mem_nil, .nil, rfl⟩
  | succ k ih =>
      have hscan := scanPeers_tallied (c := c) peers w tick
      have hlists := scanPeers_lists (c := c) peers w tick
      simp only [refreshRounds]
      split
      · exact ⟨fun s hs => absurd hs List.not_mem_nil, .nil, rfl⟩
      · split
        · refine ⟨fun s hs => ?_, .cons hlists .nil, rfl⟩
          rw [List.map_singleton, List.mem_singleton] at hs
          rw [hs]
          exact hscan
        · obtain ⟨htallied, hrest, hlast⟩ := ih (c.finishScan w (c.scanPeers peers w tick).1)
            (c.scanPeers peers w tick).2
          refine ⟨?_, .cons hlists hrest, ?_⟩
          · rw [List.map_cons, List.forall_mem_cons]
            exact ⟨hscan, htallied⟩
          · rw [List.map_cons, List.foldl_cons, ← hlast]
            cases hrounds : (c.refreshRounds peers k
              (c.finishScan w (c.scanPeers peers w tick).1) (c.scanPeers peers w tick).2).1 with
            | nil => rfl
            | cons r rounds =>
                rw [List.getLast?_cons_cons, List.getLast?_cons]
                rfl

/-- What the replies to each round of a call list. -/
def callListings (c : LightClient) (peers : List LightPeer) (w : Wallet) : List (List Listing) :=
  c.listingsOf w (c.refreshRounds peers maxRefreshRounds w c.tick).1

/-- Whatever the peers answer: of a new transaction of which they prove outputs,
there is an entry that keeps the assets apart exactly if it is a plain payment. -/
theorem payments_apart {w : Wallet} (hw : w.Reachable) (hnew : w.history.lookup txid = none)
    (hfound : proved txid (c.callListings peers w).flatten ≠ []) :
    (∃ t, (c.refreshWallet peers w).2.1.history.lookup txid = some t ∧
      KeepsApart (proved txid (c.callListings peers w).flatten) t) ↔
        PlainPayment txid (c.callListings peers w) := by
  obtain ⟨htallied, hlists, hlast⟩ :=
    @refreshRounds_scans c _ peers maxRefreshRounds w c.tick
  obtain ⟨hnone, hsome⟩ := rounds_entry (c := c) htallied hlists hw.historyFiled hnew
  have hpeers : peers.isEmpty = false := by
    cases peers with
    | nil => exact absurd rfl hfound
    | cons p peers => rfl
  have hhist : (c.refreshWallet peers w).2.1.history =
      (((c.refreshRounds peers maxRefreshRounds w c.tick).1.map Prod.fst).foldl
        c.finishScan w).history := by
    simp only [refreshWallet, hpeers, Bool.false_eq_true, if_false]
    rw [← hlast]
    split <;> rfl
  rw [hhist]
  by_cases hc : firstCounted txid (c.callListings peers w) = []
  · refine iff_of_false (fun h => ?_) fun h => h.entered hc
    obtain ⟨t, ht, -⟩ := h
    rw [hnone hc] at ht
    cases ht
  · obtain ⟨t, ht, hdelta, htokens⟩ := hsome hc
    rw [← keepsApart_iff hc hdelta htokens, ht]
    exact ⟨fun h => by
      obtain ⟨t', ht', hk⟩ := h
      cases ht'
      exact hk, fun h => ⟨t, rfl, h⟩⟩

end LightClient

end QuantCore

namespace QuantCore.LightClient

attribute [local instance] plainCrypto

/-! ## Payments that are not plain -/

/-- A block whose second transaction pays address 7. -/
def payTxs (outs : List TxOut) : List Transaction := [{ lockHeight := 1 }, { outs }]

def payClient (outs : List TxOut) : LightClient where
  headers := [{ merkleRoot := merkleRoot ((payTxs outs).map Transaction.txid) }]
  hashes := [9]

def payTxid (outs : List TxOut) : Hash256 := ({ outs } : Transaction).txid

/-- The proof of an output. -/
def payProof (outs : List TxOut) (n : Nat) : UtxoProof where
  op := ⟨payTxid outs, UInt32.ofNat n⟩
  coin := ⟨outs.getD n default, 0, true⟩
  block := 9
  txCore := ({ outs } : Transaction).writeCore
  txIndex := 1
  txCount := 2
  merkle := [({ lockHeight := 1 } : Transaction).txid]

/-- A peer that answers with some proofs and some outputs of its mempool. -/
def listingPeer (outs : List TxOut) (proofs pending : List Nat) : LightPeer where
  addr := ""
  height := 0
  exchange := fun _ _ _ => some (Writer.u64le 0 ++ Writer.hash 9 ++ Writer.size proofs.length ++
    proofs.flatMap (fun n => (payProof outs n).write) ++ Writer.size 0 ++
    Writer.size pending.length ++ pending.flatMap fun n =>
      writeOutPoint ⟨payTxid outs, UInt32.ofNat n⟩ ++ writeTxOut (outs.getD n default))

theorem payeeWallet_reachable : payeeWallet.Reachable :=
  Wallet.Reachable.opened .main (fun i => 7 + i.toNat) [⟨0, 7, "", false⟩] 0 [] [] 0 (-1)

/-- Five QNT and three of a token. -/
def mixedOuts : List TxOut := [⟨5, qntAsset, 7⟩, ⟨3, 9, 7⟩]

/-- Five QNT and three QNT. -/
def twoOuts : List TxOut := [⟨5, qntAsset, 7⟩, ⟨3, qntAsset, 7⟩]

/-- The amount of the entry of a payment, of which two outputs are proved. -/
def entryDelta (outs : List TxOut) (peers : List LightPeer) : Option Int :=
  (((payClient outs).refreshWallet peers payeeWallet).2.1.history.lookup (payTxid outs)).map
    WalletTx.delta

theorem not_keepsApart {outs : List TxOut} {peers : List LightPeer} {d : Int} {v : Nat}
    (hdelta : entryDelta outs peers = some d)
    (hvalue : heldValue qntAsset
      (proved (payTxid outs) ((payClient outs).callListings peers payeeWallet).flatten) = v)
    (hne : d ≠ v) :
    ¬ ∃ t, ((payClient outs).refreshWallet peers payeeWallet).2.1.history.lookup (payTxid outs) =
      some t ∧ KeepsApart
        (proved (payTxid outs) ((payClient outs).callListings peers payeeWallet).flatten) t := by
  intro h
  obtain ⟨t, ht, hk⟩ := h
  rw [entryDelta, ht] at hdelta
  have hsame := hk.qnt
  rw [Option.some.inj hdelta, hvalue] at hsame
  exact hne hsame

/-- Five QNT and three of the token are recorded as eight QNT; and of five and three
QNT, both proved by the second peer, five are recorded if the first peer has listed
the other output as unconfirmed. -/
theorem payments_mixed :
    payeeWallet.Reachable ∧ payeeWallet.history.lookup (payTxid mixedOuts) = none ∧
    payeeWallet.history.lookup (payTxid twoOuts) = none ∧
    (entryDelta mixedOuts [listingPeer mixedOuts [0, 1] []] = some 8 ∧
      ¬ ∃ t, ((payClient mixedOuts).refreshWallet [listingPeer mixedOuts [0, 1] []]
          payeeWallet).2.1.history.lookup (payTxid mixedOuts) = some t ∧
        KeepsApart (proved (payTxid mixedOuts) ((payClient mixedOuts).callListings
          [listingPeer mixedOuts [0, 1] []] payeeWallet).flatten) t) ∧
    entryDelta twoOuts [listingPeer twoOuts [] [1], listingPeer twoOuts [0, 1] []] = some 5 ∧
      ¬ ∃ t, ((payClient twoOuts).refreshWallet
          [listingPeer twoOuts [] [1], listingPeer twoOuts [0, 1] []]
          payeeWallet).2.1.history.lookup (payTxid twoOuts) = some t ∧
        KeepsApart (proved (payTxid twoOuts) ((payClient twoOuts).callListings
          [listingPeer twoOuts [] [1], listingPeer twoOuts [0, 1] []] payeeWallet).flatten) t := by
  have hmixed : entryDelta mixedOuts [listingPeer mixedOuts [0, 1] []] = some 8 := by
    decide +kernel
  have hvalue : heldValue qntAsset (proved (payTxid mixedOuts) ((payClient mixedOuts).callListings
      [listingPeer mixedOuts [0, 1] []] payeeWallet).flatten) = 5 := by decide +kernel
  have htwo : entryDelta twoOuts
      [listingPeer twoOuts [] [1], listingPeer twoOuts [0, 1] []] = some 5 := by decide +kernel
  have hboth : heldValue qntAsset (proved (payTxid twoOuts) ((payClient twoOuts).callListings
      [listingPeer twoOuts [] [1], listingPeer twoOuts [0, 1] []] payeeWallet).flatten) = 8 := by
    decide +kernel
  exact ⟨payeeWallet_reachable, AList.lookup_empty _, AList.lookup_empty _,
    ⟨hmixed, not_keepsApart hmixed hvalue (by decide)⟩,
    htwo, not_keepsApart htwo hboth (by decide)⟩

/-- Asked in the other order, the two peers give the entry of both outputs. -/
theorem payments_apart_payment :
    ∃ t, ((payClient twoOuts).refreshWallet
        [listingPeer twoOuts [0, 1] [], listingPeer twoOuts [] [1]]
        payeeWallet).2.1.history.lookup (payTxid twoOuts) = some t ∧
      KeepsApart (proved (payTxid twoOuts) ((payClient twoOuts).callListings
        [listingPeer twoOuts [0, 1] [], listingPeer twoOuts [] [1]] payeeWallet).flatten) t := by
  have hproved : proved (payTxid twoOuts) ((payClient twoOuts).callListings
      [listingPeer twoOuts [0, 1] [], listingPeer twoOuts [] [1]] payeeWallet).flatten =
        [(⟨payTxid twoOuts, 0⟩, ⟨5, qntAsset, 7⟩), (⟨payTxid twoOuts, 1⟩, ⟨3, qntAsset, 7⟩)] := by
    decide +kernel
  have hfirst : firstCounted (payTxid twoOuts) ((payClient twoOuts).callListings
      [listingPeer twoOuts [0, 1] [], listingPeer twoOuts [] [1]] payeeWallet) =
        [(⟨payTxid twoOuts, 0⟩, ⟨5, qntAsset, 7⟩), (⟨payTxid twoOuts, 1⟩, ⟨3, qntAsset, 7⟩)] := by
    decide +kernel
  refine (payments_apart payeeWallet_reachable (AList.lookup_empty _) ?_).mpr
    ⟨?_, fun a ha => ?_, ?_, ?_⟩
  · rw [hproved]
    exact List.cons_ne_nil _ _
  · rw [hfirst]
    exact List.cons_ne_nil _ _
  · rw [hproved]
    refine assetValue_eq_zero fun o ho => ?_
    rw [List.map_cons, List.map_cons, List.map_nil, List.mem_cons, List.mem_singleton] at ho
    rcases ho with rfl | rfl
    · exact Ne.symm ha
    · exact Ne.symm ha
  · rw [hproved, hfirst]
  · rw [hproved]
    decide

end QuantCore.LightClient
