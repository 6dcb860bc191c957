import QuantCore.Crypto.Instances
import QuantCore.Proofs.Effects
import QuantCore.Proofs.SpendOrder

/-!
# A block that is mined again

A reorg can take a block back and connect another with the same transactions at
the same height, before the coins are refreshed. `block_disconnected` gives no
coin back, so the second time an input that spent a coin of the wallet is not
found, and the entry is written without it. Nor does it take back the addresses
the first block brought into the lookahead window. The entries come out as if
the block had been connected once exactly when there is nothing to give back and
the window covers what it would have covered.
-/

namespace QuantCore

open Maps

/-! ## Kinds -/

/-- A kind no message changes. -/
def KindSet (k : String) : Prop := ¬ (k = "" ∨ k = "send" ∨ k = "receive")

theorem kindSet_nextKind (k : String) (op : TxOp) : KindSet (nextKind k op) := by
  cases op with
  | message m =>
      rw [nextKind]
      split
      · split
        · exact fun h => by simp at h
        · exact fun h => by simp at h
      · next h => exact h
  | createToken _ => exact fun h => by simp [nextKind] at h
  | poolCreate _ => exact fun h => by simp [nextKind] at h
  | addLiquidity _ => exact fun h => by simp [nextKind] at h
  | removeLiquidity _ => exact fun h => by simp [nextKind] at h
  | swap _ => exact fun h => by simp [nextKind] at h

/-- An op keeps every kind that is set, or gives all kinds the same one. -/
theorem nextKind_cases (op : TxOp) :
    (∀ k, KindSet k → nextKind k op = k) ∨ ∀ k k', nextKind k op = nextKind k' op := by
  cases op with
  | message m => exact .inl fun k h => by rw [nextKind, if_neg h]
  | createToken _ => exact .inr fun _ _ => rfl
  | poolCreate _ => exact .inr fun _ _ => rfl
  | addLiquidity _ => exact .inr fun _ _ => rfl
  | removeLiquidity _ => exact .inr fun _ _ => rfl
  | swap _ => exact .inr fun _ _ => rfl

theorem kindSet_foldl {k : String} (h : KindSet k) (ops : List TxOp) :
    KindSet (ops.foldl nextKind k) := by
  induction ops generalizing k with
  | nil => exact h
  | cons op ops ih => exact ih (kindSet_nextKind k op)

theorem foldl_nextKind_cases (ops : List TxOp) :
    (∀ k, KindSet k → ops.foldl nextKind k = k) ∨
      ∀ k k', KindSet k → KindSet k' → ops.foldl nextKind k = ops.foldl nextKind k' := by
  induction ops with
  | nil => exact .inl fun k _ => rfl
  | cons op ops ih =>
      rcases nextKind_cases op with hop | hop
      · rcases ih with hkeep | hsame
        · exact .inl fun k h => by rw [List.foldl_cons, hop k h, hkeep k h]
        · exact .inr fun k k' h h' => by
            rw [List.foldl_cons, List.foldl_cons, hop k h, hop k' h', hsame k k' h h']
      · exact .inr fun k k' _ _ => by rw [List.foldl_cons, List.foldl_cons, hop k k']

/-- The ops of a transaction make the same of a kind they made. -/
theorem foldl_nextKind_idem (ops : List TxOp) (k : String) :
    ops.foldl nextKind (ops.foldl nextKind k) = ops.foldl nextKind k := by
  cases ops with
  | nil => rfl
  | cons op ops =>
      rw [List.foldl_cons, List.foldl_cons]
      have hset := kindSet_nextKind k op
      have hlast := kindSet_foldl hset ops
      rcases nextKind_cases op with hop | hop
      · rw [hop _ hlast]
        rcases foldl_nextKind_cases ops with hkeep | hsame
        · exact hkeep _ hlast
        · exact hsame _ _ hlast hset
      · rw [hop _ k]

/-! ## Taking a block back -/

section

variable [Crypto]

namespace Wallet

variable {w : Wallet} {b b' : Block} {n : Nat}

/-- An entry that is not in a block. -/
def unmined (t : WalletTx) : WalletTx := { t with height := -1 }

theorem unconfirmTx_spec (w : Wallet) (tx : Transaction) :
    SameKeys w (w.unconfirmTx tx) ∧ (w.unconfirmTx tx).coins = w.coins ∧
    (tx.isCoinbase = false → (w.unconfirmTx tx).history.lookup tx.txid =
      (w.history.lookup tx.txid).map unmined) ∧
    ∀ id, id ≠ tx.txid → (w.unconfirmTx tx).history.lookup id = w.history.lookup id := by
  rw [unconfirmTx]
  cases hl : w.history.lookup tx.txid with
  | none => exact ⟨SameKeys.refl w, rfl, fun _ => hl, fun _ _ => rfl⟩
  | some t =>
      refine ⟨⟨rfl, rfl, rfl, rfl, rfl⟩, rfl, fun hcb => ?_, fun id hid => ?_⟩
      · simp only [hcb, Bool.false_eq_true, if_false]
        exact AList.lookup_insert w.history
      · cases hcb : tx.isCoinbase with
        | true =>
            simp only [if_true]
            exact AList.lookup_erase_ne hid
        | false =>
            simp only [Bool.false_eq_true, if_false]
            exact AList.lookup_insert_ne hid

theorem unconfirmTxs_spec {txs : List Transaction} (hids : (txs.map Transaction.txid).Nodup)
    (w : Wallet) :
    SameKeys w (txs.foldl unconfirmTx w) ∧ (txs.foldl unconfirmTx w).coins = w.coins ∧
    (∀ t ∈ txs, t.isCoinbase = false → (txs.foldl unconfirmTx w).history.lookup t.txid =
      (w.history.lookup t.txid).map unmined) ∧
    ∀ id, id ∉ txs.map Transaction.txid →
      (txs.foldl unconfirmTx w).history.lookup id = w.history.lookup id := by
  induction txs generalizing w with
  | nil =>
      refine ⟨SameKeys.refl w, rfl, fun t ht => ?_, fun _ _ => rfl⟩
      cases ht
  | cons tx txs ih =>
      rw [List.map_cons, List.nodup_cons] at hids
      obtain ⟨hk, hc, hat, hrest⟩ := unconfirmTx_spec w tx
      obtain ⟨hk', hc', hat', hrest'⟩ := ih hids.2 (w.unconfirmTx tx)
      rw [List.foldl_cons]
      refine ⟨hk.trans hk', hc'.trans hc, fun t ht hcb => ?_, fun id hid => ?_⟩
      · rcases List.mem_cons.mp ht with rfl | ht
        · rw [hrest' _ hids.1, hat hcb]
        · have hne : t.txid ≠ tx.txid := fun he => hids.1 (he ▸ List.mem_map_of_mem ht)
          rw [hat' t ht hcb, hrest _ hne]
      · rw [List.map_cons, List.mem_cons, not_or] at hid
        rw [hrest' id hid.2, hrest id hid.1]

/-! ## Connecting a block -/

/-- A coinbase spends nothing, so the whole block is in order. -/
theorem block_spendOrder {genesis : Hash256} {s : StateReader} (hb : ConnectsOn genesis n s b) :
    SpendOrder b.txs := by
  have hsplit := hb.txs_eq
  have hins : (b.txs.headD default).ins = [] := List.isEmpty_iff.mp hb.head_coinbase
  obtain ⟨horder, -⟩ := hb.spendOrder
  refine ⟨hb.checked.ids, ?_, fun before t after htxs i hi => ?_⟩
  · rw [hsplit, spentBy_cons, hins]
    exact horder.once
  · cases before with
    | nil =>
        rw [hsplit, List.nil_append, List.cons.injEq] at htxs
        rw [← htxs.1, hins] at hi
        cases hi
    | cons u before =>
        rw [hsplit, List.cons_append, List.cons.injEq] at htxs
        exact horder.earlier before t after htxs.2 i hi

theorem mem_spentBy_tail {genesis : Hash256} {s : StateReader} (hb : ConnectsOn genesis n s b)
    {o : OutPoint} : o ∈ spentBy b.txs ↔ o ∈ spentBy b.txs.tail := by
  have hins : (b.txs.headD default).ins = [] := List.isEmpty_iff.mp hb.head_coinbase
  have hsplit := hb.txs_eq
  generalize b.txs.tail = txs at hsplit
  rw [hsplit, spentBy_cons, hins]
  exact Iff.rfl

/-- What a block that connects does to a wallet: to the keys, to the coins, and
to the entries of its transactions. -/
theorem blockConnected_spec {genesis : Hash256} {s : StateReader} (hb : ConnectsOn genesis n s b)
    {own : Hash256 → Nat → Bool} (ho : Owns own w b.txs) :
    SameKeys (w.shown (b.txs.flatMap Transaction.outs)) (w.blockConnected b n) ∧
    (∀ o, (w.blockConnected b n).coins.lookup o =
      if o ∈ spentBy b.txs then none else held own n b.txs w o) ∧
    ∀ t ∈ b.txs, (w.blockConnected b n).history.lookup t.txid =
      entryAfter (w.history.lookup t.txid) t n (int64 b.header.time)
        (txEffect w.addressString own (held own n b.txs w) t) := by
  obtain ⟨hk, hc, hh, -⟩ := @pass_spec _ own n b.txs w (int64 b.header.time) (Int.natCast_nonneg n)
    (block_spendOrder hb) ho
  exact ⟨hk.trans ⟨rfl, rfl, rfl, rfl, rfl⟩, hc, hh⟩

/-! ## Once and twice -/

/-- Connect a block, take it back and connect another. -/
def remined (w : Wallet) (b b' : Block) (n : Nat) : Wallet :=
  ((w.blockConnected b n).blockDisconnected b n).blockConnected b' n

/-- Which outputs of the second block are ours when the first one has been shown
before it. -/
def ownAfter (w : Wallet) (b b' : Block) : Hash256 → Nat → Bool :=
  (w.shown (b.txs.flatMap Transaction.outs)).ownAt b'.txs

theorem madeBy_of_mem {own : Hash256 → Nat → Bool} {txs : List Transaction}
    (hids : (txs.map Transaction.txid).Nodup) {t : Transaction} (ht : t ∈ txs) {height : Int}
    {o : OutPoint} (ho : o.txid = t.txid) :
    madeBy own height txs o = updateAll (fun _ => none) (ownOuts own height t) o := by
  obtain ⟨before, after, rfl⟩ := List.append_of_mem ht
  rw [List.map_append, List.map_cons, List.nodup_append', List.nodup_cons] at hids
  obtain ⟨-, ⟨hafter, -⟩, hdisj⟩ := hids
  have hbefore : o.txid ∉ before.map Transaction.txid := fun hm =>
    hdisj hm (ho ▸ List.mem_cons_self ..)
  rw [madeBy, List.flatMap_append, List.flatMap_cons, updateAll_append, updateAll_append,
    updateAll_of_notMem]
  · have hfrom : updateAll (fun _ => none) (before.flatMap (ownOuts own height)) o = none :=
      madeBy_of_notMem hbefore
    by_cases hm : o ∈ (ownOuts own height t).map Prod.fst
    · obtain ⟨c, hc⟩ := exists_updateAll_of_mem hm
      rw [hc, hc]
    · rw [updateAll_of_notMem _ hm, updateAll_of_notMem _ hm, hfrom]
  · intro hm
    obtain ⟨e, he, rfl⟩ := List.mem_map.mp hm
    obtain ⟨u, hu, he⟩ := List.mem_flatMap.mp he
    refine hafter ?_
    rw [← ho, ownOuts_txid (List.mem_map_of_mem he)]
    exact List.mem_map_of_mem hu

omit [Crypto] in
theorem spentBy_perm {txs txs' : List Transaction} (hp : txs.Perm txs') {o : OutPoint} :
    o ∈ spentBy txs ↔ o ∈ spentBy txs' := by
  rw [mem_spentBy, mem_spentBy]
  simp only [hp.mem_iff]

variable {genesis : Hash256} {s s' : StateReader}

theorem mem_txs_of_tail (h : ConnectsOn genesis n s b) {t : Transaction} (ht : t ∈ b.txs.tail) :
    t ∈ b.txs := by
  rw [h.txs_eq]
  exact List.mem_cons_of_mem _ ht

/-- Both blocks spend the same. -/
theorem spentBy_same (hb : ConnectsOn genesis n s b) (hb' : ConnectsOn genesis n s' b')
    (hp : b.txs.tail.Perm b'.txs.tail) {o : OutPoint} :
    o ∈ spentBy b.txs ↔ o ∈ spentBy b'.txs := by
  rw [mem_spentBy_tail hb, mem_spentBy_tail hb', spentBy_perm hp]

/-- The run with both blocks, at the coins and at the entry of each transaction:
the first connect finds what the wallet holds, the second only what the block
itself makes. -/
theorem remined_spec (hb : ConnectsOn genesis n s b) (hb' : ConnectsOn genesis n s' b')
    (hp : b.txs.tail.Perm b'.txs.tail) :
    (∀ o, (w.remined b b' n).coins.lookup o =
      if o ∈ spentBy b'.txs then none
      else (madeBy (w.ownAfter b b') n b'.txs o).or (held (w.ownAt b.txs) n b.txs w o)) ∧
    ∀ t ∈ b'.txs.tail, (w.remined b b' n).history.lookup t.txid =
      entryAfter ((entryAfter (w.history.lookup t.txid) t n (int64 b.header.time)
          (txEffect w.addressString (w.ownAt b.txs) (held (w.ownAt b.txs) n b.txs w) t)).map
            unmined)
        t n (int64 b'.header.time)
        (txEffect w.addressString (w.ownAfter b b') (madeBy (w.ownAfter b b') n b'.txs) t) := by
  obtain ⟨hkeys, hcoins, hhist⟩ := blockConnected_spec hb (owns_ownAt hb.checked.ids w)
  obtain ⟨hkeys₂, hcoins₂, hhist₂, -⟩ :=
    unconfirmTxs_spec hb.checked.ids (w.blockConnected b n)
  have hsame : SameKeys (w.shown (b.txs.flatMap Transaction.outs))
      ((w.blockConnected b n).blockDisconnected b n) :=
    (hkeys.trans hkeys₂).trans ⟨rfl, rfl, rfl, rfl, rfl⟩
  have hown : Owns (w.ownAfter b b') ((w.blockConnected b n).blockDisconnected b n) b'.txs :=
    fun before t after htxs =>
      (owns_ownAt hb'.checked.ids _ before t after htxs).sameKeys (hsame.shown _)
  obtain ⟨-, hcoins₃, hhist₃⟩ := blockConnected_spec hb' hown
  have hback : ∀ o, ((w.blockConnected b n).blockDisconnected b n).coins.lookup o =
      (w.blockConnected b n).coins.lookup o := fun o => congrArg (AList.lookup o) hcoins₂
  have htext : ((w.blockConnected b n).blockDisconnected b n).addressString =
      w.addressString := by
    funext a
    rw [addressString, addressString, params, params, hsame.network, (shown_grown w _).network]
  refine ⟨fun o => ?_, fun t ht => ?_⟩
  · rw [remined, hcoins₃, held, hback, hcoins]
    by_cases hs : o ∈ spentBy b'.txs
    · rw [if_pos hs, if_pos hs]
    · rw [if_neg hs, if_neg hs, if_neg fun h => hs ((spentBy_same hb hb' hp).mp h)]
  · have ht₁ := mem_txs_of_tail hb (hp.mem_iff.mpr ht)
    have hold : ((w.blockConnected b n).blockDisconnected b n).history.lookup t.txid =
        (entryAfter (w.history.lookup t.txid) t n (int64 b.header.time)
          (txEffect w.addressString (w.ownAt b.txs) (held (w.ownAt b.txs) n b.txs w) t)).map
            unmined := by
      refine (hhist₂ t ht₁ (hb.checked.others t (hp.mem_iff.mpr ht))).trans ?_
      rw [hhist t ht₁]
    rw [remined, hhist₃ t (mem_txs_of_tail hb' ht), hold, htext]
    congr 1
    refine txEffect_congr fun i hi => ?_
    have hin : i.prev ∈ spentBy b'.txs :=
      mem_spentBy.mpr ⟨t, mem_txs_of_tail hb' ht, i, hi, rfl⟩
    rw [held, hback, hcoins, if_pos ((spentBy_same hb hb' hp).mpr hin), Option.or_none]

end Wallet

omit [Crypto] in
/-- What an entry says a transaction did. -/
def WalletTx.effect (t : WalletTx) : Int × (Hash256 → Option Int) × Amount × String × Int :=
  (t.delta, fn t.tokenDelta, t.fee, t.kind, t.height)

namespace Wallet

variable {w : Wallet} {b b' : Block} {n : Nat}

/-- Connecting a block twice leaves what connecting it once does: the same
entry for every transaction after the coinbase, and the same coins. -/
structure SurvivesRemining (w : Wallet) (b b' : Block) (n : Nat) : Prop where
  entries : ∀ t ∈ b'.txs.tail,
    ((w.remined b b' n).history.lookup t.txid).map WalletTx.effect =
      ((w.blockConnected b' n).history.lookup t.txid).map WalletTx.effect
  coins : ∀ o, (w.remined b b' n).coins.lookup o = (w.blockConnected b' n).coins.lookup o

/-! ## When there is nothing to give back -/

/-- Having been shown the first block, the keys find no output of the second to be
ours that they would not have found. -/
def Unmoved (w : Wallet) (b b' : Block) : Prop :=
  ∀ t ∈ b'.txs, ∀ k, w.ownAfter b b' t.txid k = w.ownAt b'.txs t.txid k

/-- The payments of both blocks find the same of them in the lookahead window. -/
def SameWindow (w : Wallet) (b b' : Block) : Prop :=
  ∀ t ∈ b'.txs.tail, ∀ k, w.ownAt b.txs t.txid k = w.ownAt b'.txs t.txid k

/-- The coins the second block makes for the wallet. -/
def made (w : Wallet) (b' : Block) (n : Nat) : OutPoint → Option WalletCoin :=
  madeBy (w.ownAt b'.txs) n b'.txs

/-- At its inputs the transaction meets no coin of the wallet but one that the
block makes. -/
def MeetsOwn (w : Wallet) (b b' : Block) (n : Nat) (t : Transaction) : Prop :=
  ∀ i ∈ t.ins, held (w.ownAt b'.txs) n b'.txs w i.prev = w.made b' n i.prev ∧
    (held (w.ownAt b.txs) n b.txs w i.prev = none ∨
      held (w.ownAt b.txs) n b.txs w i.prev = w.made b' n i.prev)

/-- What a transaction spends of the coins the wallet holds before the block. -/
def forgotten (w : Wallet) (b' : Block) (n : Nat) (t : Transaction) (a : Hash256) : Int :=
  (t.ins.map fun i => if (w.made b' n i.prev).isSome then 0 else inValue (fn w.coins) a i).sum

/-- Something of the transaction is the wallet's without what it held before: an
output, or a coin of the block that it spends. -/
def StillOurs (w : Wallet) (b' : Block) (n : Nat) (t : Transaction) : Prop :=
  (∃ k < t.outs.length, w.ownAt b'.txs t.txid k = true) ∨
    ∃ i ∈ t.ins, (w.made b' n i.prev).isSome

/-- There is nothing to give back. The lookahead window covers no output of the
second block because of the first. A transaction spends none of the coins held
before, or, with the window the same both times, coins whose amounts add up to
nothing in 64 bits. An entry of a transaction that has nothing to do with the
wallet is unconfirmed. And what the first coinbase paid, the second pays too or
was held before. -/
structure Undisturbed (w : Wallet) (b b' : Block) (n : Nat) : Prop where
  window : w.Unmoved b b'
  spends : ∀ t ∈ b'.txs.tail, w.MeetsOwn b b' n t ∨
    w.SameWindow b b' ∧ w.StillOurs b' n t ∧ ∀ a, (2 : Int) ^ 64 ∣ w.forgotten b' n t a
  unconfirmed : ∀ t ∈ b'.txs.tail, ¬ w.StillOurs b' n t →
    (∀ i ∈ t.ins, w.coins.lookup i.prev = none) →
      ∀ x, w.history.lookup t.txid = some x → x.height = -1
  reward : ∀ o c, madeBy (w.ownAt b.txs) n [b.txs.headD default] o = some c →
    (w.made b' n o).isSome ∨ w.coins.lookup o = some c

/-! ## What is ours, once and twice -/

/-- Whose an output is, in one lookup. -/
theorem ownAt_eq {txs before after : List Transaction} {t : Transaction}
    (hids : (txs.map Transaction.txid).Nodup) (htxs : txs = before ++ t :: after) {k : Nat}
    {o : TxOut} (ho : t.outs[k]? = some o) :
    w.ownAt txs t.txid k =
      ((w.shown (before.flatMap Transaction.outs)).shown (t.outs.take k)).isMine o.addr := by
  obtain ⟨hk, rfl⟩ := List.getElem?_eq_some_iff.mp ho
  have hturn := owns_ownAt hids w before t after htxs (t.outs.take k) t.outs[k]
    (t.outs.drop (k + 1)) (by rw [List.getElem_cons_drop, List.take_append_drop])
  rw [hturn, Nat.zero_add, List.length_take, Nat.min_eq_left hk.le]

theorem ownAt_of_length_le {txs : List Transaction} {t : Transaction} {k : Nat}
    (hids : (txs.map Transaction.txid).Nodup) (ht : t ∈ txs) (hk : t.outs.length ≤ k) :
    w.ownAt txs t.txid k = false := by
  induction txs generalizing w with
  | nil => cases ht
  | cons u txs ih =>
      rw [List.map_cons, List.nodup_cons] at hids
      rw [ownAt]
      rcases List.mem_cons.mp ht with rfl | ht
      · rw [if_pos rfl, List.getElem?_eq_none hk]
      · have hne : u.txid ≠ t.txid := fun he => hids.1 (he ▸ List.mem_map_of_mem ht)
        rw [if_neg hne]
        exact ih hids.2 ht

/-- What was ours the first time is ours when the block has been shown. -/
theorem ownAfter_of_ownAt (hb : ConnectsOn genesis n s b) (hb' : ConnectsOn genesis n s' b')
    {t : Transaction} (ht : t ∈ b.txs) (ht' : t ∈ b'.txs) {k : Nat}
    (h : w.ownAt b.txs t.txid k = true) : w.ownAfter b b' t.txid k = true := by
  cases ho : t.outs[k]? with
  | none =>
      rw [ownAt_of_length_le hb.checked.ids ht (List.getElem?_eq_none_iff.mp ho)] at h
      cases h
  | some o =>
      obtain ⟨before, after, htxs⟩ := List.append_of_mem ht
      obtain ⟨before', after', htxs'⟩ := List.append_of_mem ht'
      rw [ownAt_eq hb.checked.ids htxs ho] at h
      rw [ownAfter, ownAt_eq hb'.checked.ids htxs' ho]
      refine (shown_grown _ _).keeps _ ((shown_grown _ _).keeps _ ?_)
      have hall : b.txs.flatMap Transaction.outs = before.flatMap Transaction.outs ++
          (t.outs.take k ++ (t.outs.drop k ++ after.flatMap Transaction.outs)) := by
        rw [htxs, List.flatMap_append, List.flatMap_cons, ← List.append_assoc (t.outs.take k),
          List.take_append_drop]
      rw [hall, shown_append, shown_append]
      exact (shown_grown _ _).keeps _ h

/-- Of what a transaction after the coinbase spends, both blocks make the same
where they find the same outputs to be ours. -/
theorem madeBy_same (hb : ConnectsOn genesis n s b) (hb' : ConnectsOn genesis n s' b')
    (hp : b.txs.tail.Perm b'.txs.tail) (hw : w.SameWindow b b') {t : Transaction}
    (ht : t ∈ b'.txs.tail) {i : TxIn} (hi : i ∈ t.ins) :
    madeBy (w.ownAt b.txs) n b.txs i.prev = w.made b' n i.prev := by
  have hmem' : i.prev ∈ spentBy b'.txs.tail := mem_spentBy.mpr ⟨t, ht, i, hi, rfl⟩
  have hmem : i.prev ∈ spentBy b.txs.tail := (spentBy_perm hp).mpr hmem'
  have hcb := hb.spendOrder.2 _ hmem
  have hcb' := hb'.spendOrder.2 _ hmem'
  rw [made]
  by_cases hid : i.prev.txid ∈ b'.txs.tail.map Transaction.txid
  · obtain ⟨u, hu, hid⟩ := List.mem_map.mp hid
    rw [madeBy_of_mem hb.checked.ids (mem_txs_of_tail hb (hp.mem_iff.mpr hu)) hid.symm,
      madeBy_of_mem hb'.checked.ids (mem_txs_of_tail hb' hu) hid.symm,
      ownOuts_own_congr fun k _ => hw u hu k]
  · have hid' : i.prev.txid ∉ b.txs.tail.map Transaction.txid := fun h =>
      hid ((hp.map _).mem_iff.mp h)
    rw [madeBy_of_notMem, madeBy_of_notMem]
    · rw [hb'.txs_eq, List.map_cons, List.mem_cons, not_or]
      exact ⟨hcb', hid⟩
    · rw [hb.txs_eq, List.map_cons, List.mem_cons, not_or]
      exact ⟨hcb, hid'⟩

/-- Something is found of a transaction if an output is ours or an input finds a
coin. -/
theorem txEffect_any (text : Hash256 → Bytes) {own : Hash256 → Nat → Bool}
    {coins : OutPoint → Option WalletCoin} {t : Transaction} :
    (txEffect text own coins t).any = true ↔
      (∃ k < t.outs.length, own t.txid k = true) ∨ ∃ i ∈ t.ins, (coins i.prev).isSome := by
  have houts : ∀ (outs : List (TxOut × Nat)) (e : TxEffect),
      (outs.foldl (effectOut text (own t.txid)) e).any =
        (e.any || outs.any fun o => own t.txid o.2) := by
    intro outs
    induction outs with
    | nil => exact fun e => (Bool.or_false _).symm
    | cons o outs ih =>
        intro e
        rw [List.foldl_cons, ih, List.any_cons, effectOut]
        cases own t.txid o.2 with
        | true => simp
        | false => simp
  rw [txEffect, houts, (effectIn_fields coins t.ins _).2.2.1, Bool.false_or, Bool.or_eq_true,
    List.any_eq_true, List.any_eq_true, or_comm]
  refine or_congr ⟨?_, ?_⟩ Iff.rfl
  · rintro ⟨o, ho, hown⟩
    exact ⟨o.2, List.snd_lt_of_mem_zipIdx ho, hown⟩
  · rintro ⟨k, hk, hown⟩
    exact ⟨(t.outs[k], k), List.mk_mem_zipIdx_iff_getElem?.mpr (List.getElem?_eq_getElem hk), hown⟩

/-- The outputs have no say in whose the inputs are, nor in what went in. -/
theorem txEffect_ins {text : Hash256 → Bytes} {own : Hash256 → Nat → Bool}
    {coins : OutPoint → Option WalletCoin} {t : Transaction} :
    (txEffect text own coins t).allOurs =
        (t.ins.foldl (effectIn coins) { allOurs := !t.isCoinbase }).allOurs ∧
      (txEffect text own coins t).qntIn =
        (t.ins.foldl (effectIn coins) { allOurs := !t.isCoinbase }).qntIn := by
  rw [txEffect]
  generalize t.ins.foldl (effectIn coins) { allOurs := !t.isCoinbase } = e
  induction t.outs.zipIdx generalizing e with
  | nil => exact ⟨rfl, rfl⟩
  | cons o outs ih =>
      rw [List.foldl_cons]
      refine ⟨(ih _).1.trans ?_, (ih _).2.trans ?_⟩
      all_goals rw [effectOut]; split <;> rfl

theorem txEffect_fits {text : Hash256 → Bytes} {own : Hash256 → Nat → Bool}
    {coins : OutPoint → Option WalletCoin} {t : Transaction} (a : Hash256) :
    FitsWord ((txEffect text own coins t).delta.get a) := by
  have hstart : ∀ x, FitsWord (({ allOurs := !t.isCoinbase } : TxEffect).delta.get x) := by
    intro x
    rw [Deltas.get, AList.lookup_empty]
    exact ⟨by decide, by decide⟩
  have hins := (effectIn_fields coins t.ins { allOurs := !t.isCoinbase }).2.2.2 hstart
  rw [txEffect]
  generalize t.ins.foldl (effectIn coins) { allOurs := !t.isCoinbase } = e at hins
  induction t.outs.zipIdx generalizing e with
  | nil => exact hins a
  | cons o outs ih =>
      rw [List.foldl_cons]
      refine ih _ ?_
      rw [effectOut]
      split
      · exact fun x => Deltas.get_fits_add hins _ _ x
      · exact hins

/-- Where all inputs are found, each one is. -/
theorem allOurs_found {text : Hash256 → Bytes} {own : Hash256 → Nat → Bool}
    {coins : OutPoint → Option WalletCoin} {t : Transaction}
    (h : (txEffect text own coins t).allOurs = true) {i : TxIn} (hi : i ∈ t.ins) :
    (coins i.prev).isSome := by
  rw [txEffect_ins.1, (effectIn_fields coins t.ins _).1, Bool.and_eq_true] at h
  exact List.all_eq_true.mp h.2 i hi

/-! ## The entry, once and twice -/

omit [Crypto] in
/-- Two entries say the same if they record the same amounts, the same fee, kind
and height. -/
theorem effect_ext {x y : Option WalletTx} {id : Hash256} {t : Transaction} {h m m' : Int}
    {e e' : TxEffect} (hget : ∀ a, e.delta.get a = e'.delta.get a)
    (hkind : t.ops.foldl nextKind (x.getD default).kind =
      t.ops.foldl nextKind (y.getD default).kind)
    (hfee : (WalletTx.update x id t h m e).fee = (WalletTx.update y id t h m' e').fee) :
    (WalletTx.update x id t h m e).effect = (WalletTx.update y id t h m' e').effect := by
  have htokens : fn e.delta.tokens = fn e'.delta.tokens := by
    funext a
    simp only [fn, Deltas.tokens_lookup, hget]
  simp only [WalletTx.effect, Prod.mk.injEq]
  exact ⟨hget qntAsset, htokens, hfee, hkind, rfl⟩

theorem entryAfter_some {old : Option WalletTx} {t : Transaction} {h m : Int} {e : TxEffect}
    (hany : e.any = true) :
    entryAfter old t h m e = some (WalletTx.update old t.txid t h m e) := if_pos hany

/-- A kind is the same whether a transaction's ops make it once or twice. -/
theorem kind_twice (old : Option WalletTx) (t : Transaction) (h m : Int) (e : TxEffect) :
    t.ops.foldl nextKind (((entryAfter old t h m e).map unmined).getD default).kind =
      t.ops.foldl nextKind (old.getD default).kind := by
  rw [entryAfter]
  cases e.any with
  | false => cases old <;> rfl
  | true => exact foldl_nextKind_idem t.ops (old.getD default).kind

/-- Where the second connect finds all that one connect does, its entry is the
same: the first leaves no fee that the second would not. -/
theorem effect_of_found {old : Option WalletTx} {t : Transaction} {h m m' : Int}
    {e₁ e₂ : TxEffect}
    (hours : e₁.allOurs = true → e₂.allOurs = true ∧ e₁.qntIn = e₂.qntIn) :
    (WalletTx.update ((entryAfter old t h m e₁).map unmined) t.txid t h m' e₂).effect =
      (WalletTx.update old t.txid t h m' e₂).effect := by
  refine effect_ext (fun _ => rfl) (kind_twice old t h m e₁) ?_
  simp only [WalletTx.update]
  by_cases hfee : e₂.allOurs = true ∧ e₂.qntIn > 0
  · rw [if_pos hfee, if_pos hfee]
  · rw [if_neg hfee, if_neg hfee, entryAfter]
    cases e₁.any with
    | false => cases old <;> rfl
    | true =>
        have hfee₁ : ¬ (e₁.allOurs = true ∧ e₁.qntIn > 0) := fun hf =>
          hfee ⟨(hours hf.1).1, (hours hf.1).2 ▸ hf.2⟩
        exact if_neg hfee₁

/-- Where the first connect finds what one connect does, the entry keeps its fee;
its amounts are those the second finds. -/
theorem effect_of_sums {old : Option WalletTx} {t : Transaction} {h m m' : Int}
    {e e₂ : TxEffect} (hany : e.any = true) (hget : ∀ a, e₂.delta.get a = e.delta.get a)
    (hours : e₂.allOurs = true → e.allOurs = true ∧ e₂.qntIn = e.qntIn) :
    (WalletTx.update ((entryAfter old t h m e).map unmined) t.txid t h m' e₂).effect =
      (WalletTx.update old t.txid t h m' e).effect := by
  refine effect_ext hget (kind_twice old t h m e) ?_
  rw [entryAfter, if_pos hany, Option.map_some]
  simp only [WalletTx.update, unmined, Option.getD_some]
  by_cases hfee : e₂.allOurs = true ∧ e₂.qntIn > 0
  · obtain ⟨hall, hqnt⟩ := hours hfee.1
    rw [if_pos hfee, if_pos ⟨hall, hqnt ▸ hfee.2⟩, hqnt]
  · rw [if_neg hfee]

/-- What is spent of the coins held before is what the second connect misses. -/
theorem forgotten_eq (w : Wallet) (b' : Block) (n : Nat) (t : Transaction) (a : Hash256) :
    (t.ins.map (inValue (held (w.ownAt b'.txs) n b'.txs w) a)).sum =
      (t.ins.map (inValue (w.made b' n) a)).sum + w.forgotten b' n t a := by
  rw [forgotten]
  induction t.ins with
  | nil => rfl
  | cons i ins ih =>
      have hi : inValue (held (w.ownAt b'.txs) n b'.txs w) a i = inValue (w.made b' n) a i +
          if (w.made b' n i.prev).isSome then 0 else inValue (fn w.coins) a i := by
        have hfn : fn w.coins i.prev = w.coins.lookup i.prev := rfl
        have hheld : held (w.ownAt b'.txs) n b'.txs w i.prev =
            (w.made b' n i.prev).or (w.coins.lookup i.prev) := rfl
        rw [inValue, inValue, inValue, hheld, hfn]
        cases w.made b' n i.prev <;> simp
      rw [List.map_cons, List.sum_cons, List.map_cons, List.sum_cons, List.map_cons,
        List.sum_cons, ih, hi]
      omega

/-- The amounts of an entry survive just when what was spent of the coins held
before adds up to nothing. -/
theorem delta_survives_iff (w : Wallet) (b' : Block) (n : Nat) (t : Transaction) :
    (∀ a, (txEffect w.addressString (w.ownAt b'.txs) (w.made b' n) t).delta.get a =
      (txEffect w.addressString (w.ownAt b'.txs) (held (w.ownAt b'.txs) n b'.txs w) t).delta.get
        a) ↔ ∀ a, (2 : Int) ^ 64 ∣ w.forgotten b' n t a := by
  refine forall_congr' fun a => ?_
  have honce := txEffect_delta w.addressString (w.ownAt b'.txs)
    (held (w.ownAt b'.txs) n b'.txs w) t a
  have htwice := txEffect_delta w.addressString (w.ownAt b'.txs) (w.made b' n) t a
  rw [forgotten_eq] at honce
  have hcancel : ∀ x y z : Int, x - y - (x - (y + z)) = z := by intros; omega
  constructor
  · intro heq
    rw [heq] at htwice
    have hdiff := (htwice.symm.trans honce).symm.dvd
    rwa [hcancel] at hdiff
  · intro hdvd
    refine eq_of_modEq (txEffect_fits a) (txEffect_fits a) (htwice.trans (Int.ModEq.trans ?_
      honce.symm))
    refine (Int.modEq_iff_dvd.mpr ?_).symm
    rw [hcancel]
    exact hdvd

/-- The entry of a transaction that meets no coin the wallet held before. -/
theorem entry_of_meetsOwn (hb : ConnectsOn genesis n s b) (hb' : ConnectsOn genesis n s' b')
    (hp : b.txs.tail.Perm b'.txs.tail) (hw : w.Unmoved b b') {t : Transaction}
    (ht : t ∈ b'.txs.tail) (hmeets : w.MeetsOwn b b' n t)
    (hunconf : ¬ w.StillOurs b' n t → ∀ x, w.history.lookup t.txid = some x → x.height = -1) :
    ((w.remined b b' n).history.lookup t.txid).map WalletTx.effect =
      ((w.blockConnected b' n).history.lookup t.txid).map WalletTx.effect := by
  have hmem := mem_txs_of_tail hb' ht
  have hmem₁ := mem_txs_of_tail hb (hp.mem_iff.mpr ht)
  obtain ⟨-, -, honce⟩ := blockConnected_spec hb' (owns_ownAt hb'.checked.ids w)
  have hafter : ∀ u ∈ b'.txs, ∀ k < u.outs.length,
      w.ownAfter b b' u.txid k = w.ownAt b'.txs u.txid k := fun u hu k _ => hw u hu k
  have hmade : madeBy (w.ownAfter b b') n b'.txs = w.made b' n := by
    rw [madeBy, made, madeBy]
    congr 1
    exact List.flatMap_congr fun u hu => ownOuts_own_congr (hafter u hu)
  rw [(remined_spec hb hb' hp).2 t ht, honce t hmem, hmade,
    txEffect_own_congr (hafter t hmem),
    txEffect_congr fun i hi => (hmeets i hi).1]
  generalize he₁ : txEffect w.addressString (w.ownAt b.txs) (held (w.ownAt b.txs) n b.txs w) t =
    e₁
  generalize he₂ : txEffect w.addressString (w.ownAt b'.txs) (w.made b' n) t = e₂
  have hours : e₁.allOurs = true → e₂.allOurs = true ∧ e₁.qntIn = e₂.qntIn := by
    intro hall
    have hsame : ∀ i ∈ t.ins,
        held (w.ownAt b.txs) n b.txs w i.prev = w.made b' n i.prev := by
      intro i hi
      rw [← he₁] at hall
      have hfound := allOurs_found hall hi
      rcases (hmeets i hi).2 with hnone | hsome
      · rw [hnone] at hfound
        cases hfound
      · exact hsome
    have hins := effectIn_congr hsame { allOurs := !t.isCoinbase }
    rw [← he₁, txEffect_ins.1, hins] at hall
    rw [← he₁, ← he₂, txEffect_ins.1, txEffect_ins.2, txEffect_ins.2, hins]
    exact ⟨hall, rfl⟩
  cases hany : e₂.any with
  | true =>
      rw [entryAfter_some hany, entryAfter_some hany, Option.map_some, Option.map_some,
        effect_of_found hours]
  | false =>
      -- nothing of it is ours, and neither run writes an entry
      have hnot : ¬ w.StillOurs b' n t := by
        rw [StillOurs, ← txEffect_any w.addressString, he₂, hany]
        exact Bool.false_ne_true
      have hany₁ : e₁.any = false := by
        rw [Bool.eq_false_iff, ← he₁, Ne, txEffect_any]
        rintro (⟨k, hk, hown⟩ | ⟨i, hi, hsome⟩)
        · refine hnot (.inl ⟨k, hk, ?_⟩)
          rw [← hw t hmem k]
          exact ownAfter_of_ownAt hb hb' hmem₁ hmem hown
        · refine hnot (.inr ⟨i, hi, ?_⟩)
          rcases (hmeets i hi).2 with hnone | heq
          · rw [hnone] at hsome
            cases hsome
          · rwa [heq] at hsome
      simp only [entryAfter, hany, hany₁, Bool.false_eq_true, if_false]
      cases hx : w.history.lookup t.txid with
      | none => rfl
      | some x =>
          have hheight := hunconf hnot x hx
          simp only [Option.map_some, unmined, WalletTx.effect, hheight]

/-- What both runs find of a transaction where the window is the same. -/
theorem entries_of_sameWindow (hb : ConnectsOn genesis n s b) (hb' : ConnectsOn genesis n s' b')
    (hp : b.txs.tail.Perm b'.txs.tail) (hw : w.Unmoved b b') (hsame : w.SameWindow b b')
    {t : Transaction} (ht : t ∈ b'.txs.tail) :
    (w.remined b b' n).history.lookup t.txid =
      entryAfter ((entryAfter (w.history.lookup t.txid) t n (int64 b.header.time)
          (txEffect w.addressString (w.ownAt b'.txs) (held (w.ownAt b'.txs) n b'.txs w) t)).map
            unmined) t n (int64 b'.header.time)
        (txEffect w.addressString (w.ownAt b'.txs) (w.made b' n) t) ∧
    (w.blockConnected b' n).history.lookup t.txid =
      entryAfter (w.history.lookup t.txid) t n (int64 b'.header.time)
        (txEffect w.addressString (w.ownAt b'.txs) (held (w.ownAt b'.txs) n b'.txs w) t) := by
  have hmem := mem_txs_of_tail hb' ht
  obtain ⟨-, -, honce⟩ := blockConnected_spec hb' (owns_ownAt hb'.checked.ids w)
  have hafter : ∀ u ∈ b'.txs, ∀ k < u.outs.length,
      w.ownAfter b b' u.txid k = w.ownAt b'.txs u.txid k := fun u hu k _ => hw u hu k
  have hmade : madeBy (w.ownAfter b b') n b'.txs = w.made b' n := by
    rw [madeBy, made, madeBy]
    congr 1
    exact List.flatMap_congr fun u hu => ownOuts_own_congr (hafter u hu)
  have hheld : ∀ i ∈ t.ins, held (w.ownAt b.txs) n b.txs w i.prev =
      held (w.ownAt b'.txs) n b'.txs w i.prev := by
    intro i hi
    rw [held, held, madeBy_same hb hb' hp hsame ht hi]
    rfl
  refine ⟨?_, honce t hmem⟩
  rw [(remined_spec hb hb' hp).2 t ht, hmade, txEffect_own_congr (hafter t hmem),
    txEffect_own_congr fun k _ => hsame t ht k, txEffect_congr hheld]

/-- The entry of a transaction that is the wallet's in any case, and whose spent
coins add up to nothing. -/
theorem entry_of_sums (hb : ConnectsOn genesis n s b) (hb' : ConnectsOn genesis n s' b')
    (hp : b.txs.tail.Perm b'.txs.tail) (hw : w.Unmoved b b') (hsame : w.SameWindow b b')
    {t : Transaction} (ht : t ∈ b'.txs.tail) (hours : w.StillOurs b' n t)
    (hsums : ∀ a, (2 : Int) ^ 64 ∣ w.forgotten b' n t a) :
    ((w.remined b b' n).history.lookup t.txid).map WalletTx.effect =
      ((w.blockConnected b' n).history.lookup t.txid).map WalletTx.effect := by
  obtain ⟨htwice, honce⟩ := entries_of_sameWindow hb hb' hp hw hsame ht
  have hget := (delta_survives_iff w b' n t).mpr hsums
  have hany₂ := (txEffect_any w.addressString).mpr hours
  have hany : (txEffect w.addressString (w.ownAt b'.txs)
      (held (w.ownAt b'.txs) n b'.txs w) t).any = true := by
    refine (txEffect_any _).mpr (hours.imp_right fun ⟨i, hi, hsome⟩ => ⟨i, hi, ?_⟩)
    rw [held, Option.isSome_or]
    exact Bool.or_eq_true_iff.mpr (.inl hsome)
  have hall : (txEffect w.addressString (w.ownAt b'.txs) (w.made b' n) t).allOurs = true →
      (txEffect w.addressString (w.ownAt b'.txs)
          (held (w.ownAt b'.txs) n b'.txs w) t).allOurs = true ∧
        (txEffect w.addressString (w.ownAt b'.txs) (w.made b' n) t).qntIn =
          (txEffect w.addressString (w.ownAt b'.txs)
            (held (w.ownAt b'.txs) n b'.txs w) t).qntIn := by
    intro hall
    have heq : txEffect w.addressString (w.ownAt b'.txs) (held (w.ownAt b'.txs) n b'.txs w) t =
        txEffect w.addressString (w.ownAt b'.txs) (w.made b' n) t := by
      refine txEffect_congr fun i hi => ?_
      obtain ⟨c, hc⟩ := Option.isSome_iff_exists.mp (allOurs_found hall hi)
      have hmade : madeBy (w.ownAt b'.txs) n b'.txs i.prev = some c := hc
      rw [held, hc, hmade, Option.some_or]
    rw [heq]
    exact ⟨hall, rfl⟩
  rw [htwice, honce]
  generalize txEffect w.addressString (w.ownAt b'.txs) (w.made b' n) t = e₂ at hget hany₂ hall
  generalize txEffect w.addressString (w.ownAt b'.txs) (held (w.ownAt b'.txs) n b'.txs w) t = e
    at hget hany hall
  rw [entryAfter_some hany₂, Option.map_some, effect_of_sums hany hget hall,
    entryAfter_some hany, Option.map_some]

omit [Crypto] in
theorem update_delta (old : Option WalletTx) (id : Hash256) (t : Transaction)
    (height time : Int) (e : TxEffect) (a : Hash256) :
    e.delta.get a = if a = qntAsset then (WalletTx.update old id t height time e).delta
      else ((WalletTx.update old id t height time e).tokenDelta.lookup a).getD 0 := by
  split
  · next h =>
      rw [h]
      rfl
  · next h =>
      show _ = (e.delta.tokens.lookup a).getD 0
      rw [Deltas.tokens_lookup]
      by_cases h0 : e.delta.get a = 0
      · rw [if_neg fun hn => hn.2 h0, h0]
        rfl
      · rw [if_pos ⟨h, h0⟩]
        rfl

omit [Crypto] in
/-- Entries that say the same record the same amounts. -/
theorem delta_of_effect {x y : Option WalletTx} {id id' : Hash256} {t t' : Transaction}
    {h h' m m' : Int} {e e' : TxEffect}
    (heq : (WalletTx.update x id t h m e).effect = (WalletTx.update y id' t' h' m' e').effect)
    (a : Hash256) : e.delta.get a = e'.delta.get a := by
  rw [update_delta x id t h m e, update_delta y id' t' h' m' e']
  simp only [WalletTx.effect, Prod.mk.injEq] at heq
  have htok := congrFun heq.2.1 a
  simp only [fn] at htok
  rw [heq.1, htok]

/-- An entry that survives under the same window spent nothing of the coins held
before, or what it spent adds up to nothing. -/
theorem spends_of_survived (hb : ConnectsOn genesis n s b) (hb' : ConnectsOn genesis n s' b')
    (hp : b.txs.tail.Perm b'.txs.tail) (hw : w.Unmoved b b') (hsame : w.SameWindow b b')
    {t : Transaction} (ht : t ∈ b'.txs.tail)
    (h : ((w.remined b b' n).history.lookup t.txid).map WalletTx.effect =
      ((w.blockConnected b' n).history.lookup t.txid).map WalletTx.effect) :
    w.MeetsOwn b b' n t ∨
      w.StillOurs b' n t ∧ ∀ a, (2 : Int) ^ 64 ∣ w.forgotten b' n t a := by
  by_cases hmeets : ∀ i ∈ t.ins,
      held (w.ownAt b'.txs) n b'.txs w i.prev = w.made b' n i.prev
  · refine .inl fun i hi => ⟨hmeets i hi, .inr ?_⟩
    rw [held, madeBy_same hb hb' hp hsame ht hi]
    exact hmeets i hi
  · right
    simp only [not_forall] at hmeets
    obtain ⟨i, hi, hne⟩ := hmeets
    have hfound : (held (w.ownAt b'.txs) n b'.txs w i.prev).isSome := by
      rw [held] at hne ⊢
      cases hm : madeBy (w.ownAt b'.txs) n b'.txs i.prev with
      | some c => exact absurd (by rw [hm, made, hm]; rfl) hne
      | none =>
          rw [hm, made, hm] at hne
          exact Option.isSome_iff_ne_none.mpr hne
    obtain ⟨htwice, honce⟩ := entries_of_sameWindow hb hb' hp hw hsame ht
    have hany : (txEffect w.addressString (w.ownAt b'.txs)
        (held (w.ownAt b'.txs) n b'.txs w) t).any = true :=
      (txEffect_any _).mpr (.inr ⟨i, hi, hfound⟩)
    rw [htwice, honce] at h
    simp only [entryAfter, hany, if_true, Option.map_some] at h
    cases hany₂ : (txEffect w.addressString (w.ownAt b'.txs) (w.made b' n) t).any with
    | false =>
        -- nothing was found the second time, so the entry stayed unconfirmed
        rw [hany₂] at h
        simp only [Bool.false_eq_true, if_false, Option.map_some, Option.some.injEq,
          WalletTx.effect, unmined, WalletTx.update, Prod.mk.injEq] at h
        omega
    | true =>
        rw [hany₂] at h
        simp only [if_true, Option.map_some, Option.some.injEq] at h
        exact ⟨(txEffect_any _).mp hany₂, (delta_survives_iff w b' n t).mp fun a => delta_of_effect h a⟩

/-! ## The coins -/

/-- What the first block made at a coin that is not spent: its coinbase made it,
or the second block makes it too. -/
theorem madeBy_first (hb : ConnectsOn genesis n s b) (hb' : ConnectsOn genesis n s' b')
    (hp : b.txs.tail.Perm b'.txs.tail) (hw : w.Unmoved b b') {o : OutPoint} {c : WalletCoin}
    (hc : madeBy (w.ownAt b.txs) n b.txs o = some c) :
    (w.made b' n o).isSome ∨ madeBy (w.ownAt b.txs) n [b.txs.headD default] o = some c := by
  have hid : o.txid ∈ b.txs.map Transaction.txid := by
    by_contra hno
    rw [madeBy_of_notMem hno] at hc
    cases hc
  obtain ⟨t, ht, hid⟩ := List.mem_map.mp hid
  have hsplit := ht
  rw [hb.txs_eq] at hsplit
  rcases List.mem_cons.mp hsplit with rfl | htail
  · right
    rw [← hc, madeBy_of_mem hb.checked.ids ht hid.symm, madeBy, List.flatMap_singleton]
  · left
    have ht' := mem_txs_of_tail hb' (hp.mem_iff.mp htail)
    rw [madeBy_of_mem hb.checked.ids ht hid.symm] at hc
    have hkey : o ∈ (ownOuts (w.ownAt b.txs) n t).map Prod.fst := by
      by_contra hno
      rw [updateAll_of_notMem _ hno] at hc
      cases hc
    have hkey' : o ∈ (ownOuts (w.ownAt b'.txs) n t).map Prod.fst := by
      obtain ⟨e, he, hfst⟩ := List.mem_map.mp hkey
      obtain ⟨x, hx, rfl⟩ := List.mem_map.mp he
      obtain ⟨hx, hown⟩ := List.mem_filter.mp hx
      refine List.mem_map.mpr ⟨_, List.mem_map_of_mem (List.mem_filter.mpr ⟨hx, ?_⟩), hfst⟩
      rw [← hw t ht' x.2]
      exact ownAfter_of_ownAt hb hb' ht ht' hown
    obtain ⟨c', hc'⟩ := exists_updateAll_of_mem hkey'
    rw [made, madeBy_of_mem hb'.checked.ids ht' hid.symm, hc']
    rfl

/-- The coins of the two runs, where the window covers the same outputs. -/
theorem coins_survive_iff (hb : ConnectsOn genesis n s b) (hb' : ConnectsOn genesis n s' b')
    (hp : b.txs.tail.Perm b'.txs.tail) (hw : w.Unmoved b b') :
    (∀ o, (w.remined b b' n).coins.lookup o = (w.blockConnected b' n).coins.lookup o) ↔
      ∀ o c, madeBy (w.ownAt b.txs) n [b.txs.headD default] o = some c →
        (w.made b' n o).isSome ∨ w.coins.lookup o = some c := by
  obtain ⟨htwice, -⟩ := remined_spec (w := w) hb hb' hp
  obtain ⟨-, honce, -⟩ := blockConnected_spec hb' (owns_ownAt hb'.checked.ids w)
  have hmade : madeBy (w.ownAfter b b') n b'.txs = w.made b' n := by
    rw [madeBy, made, madeBy]
    congr 1
    exact List.flatMap_congr fun u hu => ownOuts_own_congr fun k _ => hw u hu k
  have hheld : ∀ o, held (w.ownAt b'.txs) n b'.txs w o =
      (w.made b' n o).or (w.coins.lookup o) := fun _ => rfl
  constructor
  · intro h o c hc
    have hcb : o.txid = (b.txs.headD default).txid := by
      by_contra hne
      rw [madeBy_of_notMem (by simpa using hne)] at hc
      cases hc
    have hspent : o ∉ spentBy b'.txs := fun hm =>
      hb.spendOrder.2 o ((mem_spentBy_tail hb).mp ((spentBy_same hb hb' hp).mpr hm)) hcb
    have hhead : b.txs.headD default ∈ b.txs := by
      rw [hb.txs_eq]
      exact List.mem_cons_self ..
    have hall : madeBy (w.ownAt b.txs) n b.txs o = some c := by
      rw [← hc, madeBy_of_mem hb.checked.ids hhead hcb, madeBy, List.flatMap_singleton]
    have ho := h o
    rw [htwice, honce, if_neg hspent, if_neg hspent, hmade, hheld, held, hall] at ho
    cases hm : w.made b' n o with
    | some c' => exact .inl rfl
    | none =>
        rw [hm, Option.none_or, Option.none_or, Option.some_or] at ho
        exact .inr ho.symm
  · intro h o
    rw [htwice, honce, hmade, hheld, held]
    split
    · rfl
    cases hm : w.made b' n o with
    | some c' => rw [Option.some_or, Option.some_or]
    | none =>
        rw [Option.none_or, Option.none_or]
        cases hc : madeBy (w.ownAt b.txs) n b.txs o with
        | none => rw [Option.none_or]
        | some c =>
            rw [Option.some_or]
            rcases madeBy_first hb hb' hp hw hc with hsome | hcb
            · rw [hm] at hsome
              cases hsome
            · rcases h o c hcb with hsome | heq
              · rw [hm] at hsome
                cases hsome
              · exact heq.symm

/-- Where a block leaves nothing to give back, mining its transactions again
leaves the wallet's entries and coins as they would be. Conversely, where the
lookahead window covers the same of their outputs each time, they are left so
only then; and where it covers an unspent output of the second block because of
the first, its coin stays behind. -/
theorem remining_survived (hb : ConnectsOn genesis n s b) (hb' : ConnectsOn genesis n s' b')
    (hp : b.txs.tail.Perm b'.txs.tail) :
    (w.Undisturbed b b' n → w.SurvivesRemining b b' n) ∧
    (w.Unmoved b b' → w.SameWindow b b' →
      (w.SurvivesRemining b b' n ↔ w.Undisturbed b b' n)) ∧
    ∀ o c, madeBy (w.ownAfter b b') n b'.txs o = some c → w.made b' n o = none →
      o ∉ spentBy b'.txs → w.coins.lookup o ≠ some c → ¬ w.SurvivesRemining b b' n := by
  have henough : w.Undisturbed b b' n → w.SurvivesRemining b b' n := by
    intro h
    refine ⟨fun t ht => ?_, (coins_survive_iff hb hb' hp h.window).mpr h.reward⟩
    rcases h.spends t ht with hmeets | ⟨hsame, hours, hsums⟩
    · refine entry_of_meetsOwn hb hb' hp h.window ht hmeets fun hnot x hx => ?_
      refine h.unconfirmed t ht hnot (fun i hi => ?_) x hx
      have hnone : w.made b' n i.prev = none :=
        Option.not_isSome_iff_eq_none.mp fun hs => hnot (.inr ⟨i, hi, hs⟩)
      have hheld := (hmeets i hi).1
      rw [hnone] at hheld
      exact (Option.or_eq_none_iff.mp hheld).2
    · exact entry_of_sums hb hb' hp h.window hsame ht hours hsums
  refine ⟨henough, fun hw hsame => ⟨fun h => ?_, henough⟩, fun o c hc hmade hspent hne h => ?_⟩
  · refine ⟨hw, fun t ht => ?_, fun t ht hnot hins x hx => ?_,
      (coins_survive_iff hb hb' hp hw).mp h.coins⟩
    · exact (spends_of_survived hb hb' hp hw hsame ht (h.entries t ht)).imp_right fun hs =>
        ⟨hsame, hs⟩
    · obtain ⟨htwice, honce⟩ := entries_of_sameWindow hb hb' hp hw hsame ht
      have hnone : ∀ i ∈ t.ins, w.made b' n i.prev = none := fun i hi =>
        Option.not_isSome_iff_eq_none.mp fun hs => hnot (.inr ⟨i, hi, hs⟩)
      have hany₂ : (txEffect w.addressString (w.ownAt b'.txs) (w.made b' n) t).any = false := by
        rw [Bool.eq_false_iff, Ne, txEffect_any]
        exact hnot
      have hany : (txEffect w.addressString (w.ownAt b'.txs)
          (held (w.ownAt b'.txs) n b'.txs w) t).any = false := by
        rw [← hany₂]
        refine congrArg TxEffect.any (txEffect_congr fun i hi => ?_)
        have hmade : madeBy (w.ownAt b'.txs) n b'.txs i.prev = none := hnone i hi
        rw [held, hmade, hins i hi, hnone i hi, Option.none_or]
      have hentry := h.entries t ht
      rw [htwice, honce] at hentry
      simp only [entryAfter, hany, hany₂, Bool.false_eq_true, if_false, hx, Option.map_some,
        Option.some.injEq, WalletTx.effect, unmined, Prod.mk.injEq, true_and] at hentry
      exact hentry.symm
  · obtain ⟨htwice, -⟩ := remined_spec (w := w) hb hb' hp
    obtain ⟨-, honce, -⟩ := blockConnected_spec hb' (owns_ownAt hb'.checked.ids w)
    have ho := h.coins o
    have hheld : held (w.ownAt b'.txs) n b'.txs w o = w.coins.lookup o := by
      have hnone : madeBy (w.ownAt b'.txs) n b'.txs o = none := hmade
      rw [held, hnone, Option.none_or]
    rw [htwice, honce, if_neg hspent, if_neg hspent, hc, hheld, Option.some_or] at ho
    exact hne ho.symm

end Wallet

end

/-! ## A payment mined twice -/

def zeroKey : Bytes := List.replicate falconPkBytes 0

/-- The coin of the address of `zeroKey` that the block spends. -/
def heldCoin : OutPoint × Coin := (⟨5, 0⟩, ⟨⟨1000000, qntAsset, 0⟩, 0, false⟩)

def heldState : StateReader :=
  ⟨fun o => if o = heldCoin.1 then some heldCoin.2 else none, fun _ => none, fun _ => none⟩

/-- It pays half of the coin and a little more to other addresses and most of the
rest back. -/
def halfPayment : Transaction where
  ins := [⟨heldCoin.1⟩]
  outs := [⟨500000, qntAsset, 77⟩, ⟨50000, qntAsset, 107⟩, ⟨400000, qntAsset, 0⟩]
  witness := [.falcon zeroKey [1]]

/-- A block of height 1 with the payment; `tag` tells one from another. -/
def paymentBlock (tag : UInt8) : Block :=
  let _ := plainCrypto
  let b : Block := { txs := [{ lockHeight := 1, extra := [tag] }, halfPayment] }
  { b with header := { b.header with merkleRoot := b.computeMerkleRoot } }

/-- A new wallet whose keys have the addresses from `first` on. -/
def walletFrom (first : Hash256) : Wallet :=
  Wallet.deriveUntil Wallet.lookahead { keyAddr := fun i => first + BitVec.ofNat 256 i.toNat }

/-- The wallet that holds the coin the payment spends. -/
def holder : Wallet := (walletFrom 0).addCoin ⟨heldCoin.1, heldCoin.2.out, 0, false, false⟩

/-- What `ConnectsOn` asks of the block, as a check. -/
def connectsCheck [Crypto] (s : StateReader) (b : Block) : Bool :=
  (b.txs.headD { ins := [default] }).isCoinbase &&
    b.txs.tail.all (fun t => !t.isCoinbase) &&
    b.computeMerkleRoot == b.header.merkleRoot &&
    (b.txs.headD default).lockHeight == 1 &&
    b.txs.all (fun t => (checkTxBasic t false).toOption == some 0) &&
    decide (b.txs.map Transaction.txid).Nodup &&
    b.txs.all (fun t => t.txid != heldCoin.1.txid) &&
    (s.block b 1 0 true).isOk

theorem connects_of_check [Crypto] {b : Block} (h : connectsCheck heldState b = true) :
    ConnectsOn 0 1 heldState b := by
  simp only [connectsCheck, Bool.and_eq_true, List.all_eq_true, Bool.not_eq_true', beq_iff_eq,
    decide_eq_true_eq, bne_iff_ne] at h
  obtain ⟨⟨⟨⟨⟨⟨⟨hcb, hothers⟩, hmerkle⟩, hlock⟩, hbasic⟩, hids⟩, hfresh⟩, hok⟩ := h
  refine ⟨⟨hcb, hothers, hmerkle, hlock, fun t ht => ?_, hids⟩, by decide, fun t ht n => ?_, ?_⟩
  · have hb := hbasic t ht
    cases hc : checkTxBasic t false with
    | error e =>
        rw [hc] at hb
        cases hb
    | ok v =>
        rw [hc] at hb
        cases hb
        rfl
  · refine if_neg fun he => hfresh t ht ?_
    exact congrArg OutPoint.txid he
  · cases hs : heldState.block b 1 0 true with
    | error e =>
        rw [hs] at hok
        cases hok
    | ok s' => exact ⟨s', rfl⟩

/-- Its coin is not found the second time, and the payment counts as income. -/
theorem remining_loses_spend :
    letI := plainCrypto
    ConnectsOn 0 1 heldState (paymentBlock 1) ∧ ConnectsOn 0 1 heldState (paymentBlock 2) ∧
      (paymentBlock 1).txs.tail = (paymentBlock 2).txs.tail ∧
      ¬ holder.SurvivesRemining (paymentBlock 1) (paymentBlock 2) 1 := by
  let _ := plainCrypto
  have hcheck : connectsCheck heldState (paymentBlock 1) = true ∧
      connectsCheck heldState (paymentBlock 2) = true := by decide +kernel
  have hdelta : ((holder.remined (paymentBlock 1) (paymentBlock 2) 1).history.lookup
        halfPayment.txid).map WalletTx.delta ≠
      ((holder.blockConnected (paymentBlock 2) 1).history.lookup
        halfPayment.txid).map WalletTx.delta := by decide +kernel
  refine ⟨connects_of_check hcheck.1, connects_of_check hcheck.2, rfl, fun h => hdelta ?_⟩
  have heffect := congrArg (Option.map Prod.fst) (h.entries halfPayment (List.mem_singleton_self _))
  rw [Option.map_map, Option.map_map] at heffect
  exact heffect

/-- Which outputs are ours is compared over the outputs there are. -/
theorem Wallet.unmoved_of_check [Crypto] {w : Wallet} {b b' : Block}
    (hids : (b'.txs.map Transaction.txid).Nodup)
    (h : ∀ t ∈ b'.txs, ∀ k < t.outs.length,
      w.ownAfter b b' t.txid k = w.ownAt b'.txs t.txid k) : w.Unmoved b b' := by
  intro t ht k
  by_cases hk : k < t.outs.length
  · exact h t ht k hk
  · rw [Wallet.ownAfter, Wallet.ownAt_of_length_le hids ht (Nat.le_of_not_lt hk),
      Wallet.ownAt_of_length_le hids ht (Nat.le_of_not_lt hk)]

theorem Wallet.sameWindow_of_check [Crypto] {w : Wallet} {b b' : Block}
    (hids : (b.txs.map Transaction.txid).Nodup) (hids' : (b'.txs.map Transaction.txid).Nodup)
    (h : ∀ t ∈ b'.txs.tail, t ∈ b.txs ∧ t ∈ b'.txs ∧ ∀ k < t.outs.length,
      w.ownAt b.txs t.txid k = w.ownAt b'.txs t.txid k) : w.SameWindow b b' := by
  intro t ht k
  obtain ⟨hmem, hmem', hown⟩ := h t ht
  by_cases hk : k < t.outs.length
  · exact hown k hk
  · rw [Wallet.ownAt_of_length_le hids hmem (Nat.le_of_not_lt hk),
      Wallet.ownAt_of_length_le hids' hmem' (Nat.le_of_not_lt hk)]

/-- The wallet that is paid at its first key, and at one past its window, holds
nothing and loses nothing; the one that pays has something to give back, and its
entry is not what it would be. -/
theorem remining_survived_payee :
    letI := plainCrypto
    (walletFrom 77).SurvivesRemining (paymentBlock 1) (paymentBlock 2) 1 ∧
      ((walletFrom 77).blockConnected (paymentBlock 2) 1).isMine 77 = true ∧
      (walletFrom 77).keyAddr 30 = 107 ∧
      ¬ holder.SurvivesRemining (paymentBlock 1) (paymentBlock 2) 1 := by
  let _ := plainCrypto
  have hcheck : connectsCheck heldState (paymentBlock 1) = true ∧
      connectsCheck heldState (paymentBlock 2) = true := by decide +kernel
  have hb := connects_of_check hcheck.1
  have hb' := connects_of_check hcheck.2
  have hsame : (paymentBlock 2).txs.tail = [halfPayment] := rfl
  have hwindow : ∀ w ∈ [walletFrom 77, holder], ∀ t ∈ (paymentBlock 2).txs,
      ∀ k < t.outs.length, w.ownAfter (paymentBlock 1) (paymentBlock 2) t.txid k =
        w.ownAt (paymentBlock 2).txs t.txid k := by decide +kernel
  have hfirst : ∀ t ∈ (paymentBlock 2).txs.tail, t ∈ (paymentBlock 1).txs ∧
      t ∈ (paymentBlock 2).txs ∧ ∀ k < t.outs.length,
        holder.ownAt (paymentBlock 1).txs t.txid k =
          holder.ownAt (paymentBlock 2).txs t.txid k := by decide +kernel
  have hmine : ((walletFrom 77).blockConnected (paymentBlock 2) 1).isMine 77 = true := by
    decide +kernel
  refine ⟨(Wallet.remining_survived hb hb' (List.Perm.refl _)).1
    ⟨Wallet.unmoved_of_check hb'.checked.ids (hwindow _ (by simp)),
      fun t ht => .inl fun i hi => ?_, fun t _ _ _ x hx => ?_, fun o c hc => ?_⟩,
    hmine, rfl, fun h => ?_⟩
  · -- the payment's input is nothing the wallet knows
    rw [hsame, List.mem_singleton] at ht
    rw [ht, halfPayment, List.mem_singleton] at hi
    rw [hi]
    have hnone : Wallet.held ((walletFrom 77).ownAt (paymentBlock 2).txs) 1 (paymentBlock 2).txs
          (walletFrom 77) heldCoin.1 = (walletFrom 77).made (paymentBlock 2) 1 heldCoin.1 ∧
        Wallet.held ((walletFrom 77).ownAt (paymentBlock 1).txs) 1 (paymentBlock 1).txs
          (walletFrom 77) heldCoin.1 = none := by decide +kernel
    exact ⟨hnone.1, .inl hnone.2⟩
  · have hempty : (walletFrom 77).history = ∅ := (Wallet.deriveUntil_coins _ _).2
    rw [hempty, AList.lookup_empty] at hx
    cases hx
  · cases hc
  · -- the payment spends the coin that was held, and its amount is not nothing
    have hund := ((Wallet.remining_survived hb hb' (List.Perm.refl _)).2.1
      (Wallet.unmoved_of_check hb'.checked.ids (hwindow _ (by simp)))
      (Wallet.sameWindow_of_check hb.checked.ids hb'.checked.ids hfirst)).mp h
    rcases hund.spends halfPayment (List.mem_singleton_self _) with hmeets | ⟨-, -, hsums⟩
    · have hfound := (hmeets ⟨heldCoin.1⟩ (List.mem_singleton_self _)).1
      revert hfound
      decide +kernel
    · have hdvd := hsums qntAsset
      revert hdvd
      decide +kernel

end QuantCore
