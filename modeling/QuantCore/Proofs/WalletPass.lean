import QuantCore.Proofs.WalletScan

/-!
# A list of transactions on a wallet

The transactions of a block come in an order in which a coin is made before it
is spent, and spent once. Over such a list the wallet's coins can be read off
its start: whatever the list spends is gone, and of the rest, what the list
made for us overrides what was there. What each transaction is found to do can
be read off the same coins, the list's own and those of the start. Which outputs
are ours is read off the keys of the start and the payments of the list.
-/

namespace QuantCore

open Maps

variable [Crypto]

omit [Crypto] in
/-- The outpoints a list of transactions spends. -/
def spentBy (txs : List Transaction) : List OutPoint :=
  txs.flatMap fun t => t.ins.map TxIn.prev

/-- Ids are new, a coin is spent once, and never by what comes before its maker
or by the maker itself. -/
structure SpendOrder (txs : List Transaction) : Prop where
  distinct : (txs.map Transaction.txid).Nodup
  once : (spentBy txs).Nodup
  earlier : ∀ before t after, txs = before ++ t :: after →
    ∀ i ∈ t.ins, i.prev.txid ∉ (t :: after).map Transaction.txid

/-- The coins a list of transactions makes of the outputs that are ours. -/
def madeBy (own : Hash256 → Nat → Bool) (height : Int) (txs : List Transaction) :
    OutPoint → Option WalletCoin :=
  updateAll (fun _ => none) (txs.flatMap (ownOuts own height))

variable {own : Hash256 → Nat → Bool} {height : Int} {txs : List Transaction} {tx : Transaction}

theorem ownOuts_txid {o : OutPoint} (h : o ∈ (ownOuts own height tx).map Prod.fst) :
    o.txid = tx.txid := by
  obtain ⟨e, he, rfl⟩ := List.mem_map.mp h
  obtain ⟨x, -, rfl⟩ := List.mem_map.mp he
  rfl

theorem madeBy_snoc (own : Hash256 → Nat → Bool) (height : Int) (txs : List Transaction)
    (tx : Transaction) : madeBy own height (txs ++ [tx]) =
      updateAll (madeBy own height txs) (ownOuts own height tx) := by
  rw [madeBy, List.flatMap_append, List.flatMap_singleton, updateAll_append]
  rfl

/-- What an id of the list did not make, it did not change. -/
theorem madeBy_snoc_of_ne {o : OutPoint} (h : o.txid ≠ tx.txid) :
    madeBy own height (txs ++ [tx]) o = madeBy own height txs o := by
  rw [madeBy_snoc]
  exact updateAll_of_notMem _ fun hm => h (ownOuts_txid hm)

theorem madeBy_of_notMem {o : OutPoint} (h : o.txid ∉ txs.map Transaction.txid) :
    madeBy own height txs o = none := by
  refine updateAll_of_notMem _ fun hm => h ?_
  obtain ⟨e, he, rfl⟩ := List.mem_map.mp hm
  obtain ⟨t, ht, he⟩ := List.mem_flatMap.mp he
  rw [ownOuts_txid (List.mem_map_of_mem he)]
  exact List.mem_map_of_mem ht

omit [Crypto] in
theorem spentBy_snoc (txs : List Transaction) (tx : Transaction) :
    spentBy (txs ++ [tx]) = spentBy txs ++ tx.ins.map TxIn.prev := by
  rw [spentBy, List.flatMap_append, List.flatMap_singleton]
  rfl

omit [Crypto] in
theorem mem_spentBy {o : OutPoint} : o ∈ spentBy txs ↔ ∃ t ∈ txs, ∃ i ∈ t.ins, i.prev = o := by
  rw [spentBy, List.mem_flatMap]
  simp only [List.mem_map]

namespace SpendOrder

theorem initial (h : SpendOrder (txs ++ [tx])) : SpendOrder txs where
  distinct := h.distinct.sublist ((List.sublist_append_left txs [tx]).map _)
  once := by
    have := h.once
    rw [spentBy_snoc] at this
    exact this.of_append_left
  earlier := by
    intro before t after ht i hi hm
    refine h.earlier before t (after ++ [tx]) (by rw [ht]; simp) i hi ?_
    rw [← List.cons_append, List.map_append]
    exact List.mem_append_left _ hm

/-- What the last transaction makes, nothing of the list spends. -/
theorem last_unspent (h : SpendOrder (txs ++ [tx])) {o : OutPoint} (ho : o.txid = tx.txid) :
    o ∉ spentBy (txs ++ [tx]) := by
  intro hm
  obtain ⟨t, ht, i, hi, rfl⟩ := mem_spentBy.mp hm
  rcases List.mem_append.mp ht with ht | ht
  · obtain ⟨before, after, rfl⟩ := List.append_of_mem ht
    refine h.earlier before t (after ++ [tx]) (by simp) i hi ?_
    rw [ho]
    simp
  · rw [List.mem_singleton.mp ht] at hi
    refine h.earlier txs tx [] rfl i hi ?_
    rw [ho]
    exact List.mem_cons_self ..

theorem ins_nodup (h : SpendOrder (txs ++ [tx])) : (tx.ins.map TxIn.prev).Nodup := by
  have := h.once
  rw [spentBy_snoc] at this
  exact this.of_append_right

/-- An input of the last transaction is not spent before. -/
theorem last_fresh (h : SpendOrder (txs ++ [tx])) {i : TxIn} (hi : i ∈ tx.ins) :
    i.prev ∉ spentBy txs := by
  have := h.once
  rw [spentBy_snoc, List.nodup_append] at this
  intro hm
  exact this.2.2 _ hm _ (List.mem_map_of_mem hi) rfl

/-- The maker of a coin that is spent is not the last of the list. -/
theorem spent_ne (h : SpendOrder (txs ++ [tx])) {t : Transaction} (ht : t ∈ txs ++ [tx])
    {i : TxIn} (hi : i ∈ t.ins) : i.prev.txid ≠ tx.txid := fun he =>
  h.last_unspent he (mem_spentBy.mpr ⟨t, ht, i, hi, rfl⟩)

end SpendOrder

/-- The history entry after a transaction, over the one before. -/
def entryAfter (old : Option WalletTx) (tx : Transaction) (height time : Int) (e : TxEffect) :
    Option WalletTx :=
  if e.any then some (WalletTx.update old tx.txid tx height time e) else old

namespace Wallet

variable {w : Wallet} {time : Int}

/-- Of the outputs of these transactions, the ones that `own` says are ours are the
ones at an address that is watched when their turn comes. -/
def Owns (own : Hash256 → Nat → Bool) (w : Wallet) (txs : List Transaction) : Prop :=
  ∀ before t after, txs = before ++ t :: after →
    OwnsOuts (own t.txid) (w.shown (before.flatMap Transaction.outs)) 0 t.outs

theorem Owns.initial (h : Owns own w (txs ++ [tx])) : Owns own w txs :=
  fun before t after htxs => h before t (after ++ [tx]) (by
    rw [htxs, List.append_assoc, List.cons_append])

theorem Owns.last (h : Owns own w (txs ++ [tx])) :
    OwnsOuts (own tx.txid) (w.shown (txs.flatMap Transaction.outs)) 0 tx.outs :=
  h txs tx [] rfl

/-- Whether the output of number `k` of the transaction `id` of the list is at an
address that is watched when its turn comes. -/
def ownAt (w : Wallet) : List Transaction → Hash256 → Nat → Bool
  | [], _, _ => false
  | t :: txs, id, k =>
      if t.txid = id then
        match t.outs[k]? with
        | none => false
        | some o => (w.shown (t.outs.take k)).isMine o.addr
      else ownAt (w.shown t.outs) txs id k

theorem owns_ownAt (hids : (txs.map Transaction.txid).Nodup) (w : Wallet) :
    Owns (w.ownAt txs) w txs := by
  intro before t after htxs pre o post houts
  rw [Nat.zero_add]
  induction before generalizing w txs with
  | nil =>
      rw [htxs, List.nil_append, ownAt, if_pos rfl]
      simp only [houts, List.getElem?_append_right (Nat.le_refl _), Nat.sub_self,
        List.getElem?_cons_zero, List.take_left]
      rfl
  | cons u before ih =>
      rw [htxs, List.cons_append, List.map_cons, List.nodup_cons] at hids
      have hne : u.txid ≠ t.txid := fun he => hids.1 (he ▸ List.mem_map_of_mem
        (List.mem_append_right _ (List.mem_cons_self ..)))
      rw [htxs, List.cons_append, ownAt, if_neg hne, List.flatMap_cons, shown_append]
      exact ih hids.2 (w.shown u.outs) rfl

theorem processTx_spec (hh : 0 ≤ height) (hnd : (tx.ins.map TxIn.prev).Nodup)
    (ho : OwnsOuts (own tx.txid) w 0 tx.outs) :
    SameKeys (w.shown tx.outs) (w.processTx tx height time) ∧
    fn (w.processTx tx height time).coins =
      updateAll (fun o => if o ∈ tx.ins.map TxIn.prev then none else w.coins.lookup o)
        (ownOuts own height tx) ∧
    fn (w.processTx tx height time).history = Function.update (fn w.history) tx.txid
      (entryAfter (w.history.lookup tx.txid) tx height time
        (txEffect w.addressString own (fn w.coins) tx)) := by
  obtain ⟨hkeys, hhist, hcoins, heff⟩ := scanTx_spec hh hnd ho
  rw [processTx]
  split
  next w' e hscan =>
    rw [hscan] at hkeys hhist hcoins heff
    simp only at hkeys hhist hcoins heff
    rw [← heff, entryAfter]
    cases hany : e.any with
    | false =>
        refine ⟨hkeys, hcoins, ?_⟩
        show fn w'.history = Function.update (fn w.history) tx.txid (fn w.history tx.txid)
        rw [Function.update_eq_self, hhist]
    | true =>
        refine ⟨hkeys.trans ⟨rfl, rfl, rfl, rfl, rfl⟩, hcoins, ?_⟩
        show fn (w'.history.insert tx.txid _) = _
        rw [fn_insert, hhist]
        rfl

/-- The coins of the start, with what the list made over them. -/
def held (own : Hash256 → Nat → Bool) (height : Int) (txs : List Transaction) (w : Wallet)
    (o : OutPoint) : Option WalletCoin :=
  (madeBy own height txs o).or (w.coins.lookup o)

theorem pass_spec (hh : 0 ≤ height) (ho : SpendOrder txs) (hown : Owns own w txs) :
    SameKeys (w.shown (txs.flatMap Transaction.outs))
      (txs.foldl (fun w tx => w.processTx tx height time) w) ∧
    (∀ o, (txs.foldl (fun w tx => w.processTx tx height time) w).coins.lookup o =
      if o ∈ spentBy txs then none else held own height txs w o) ∧
    (∀ t ∈ txs, (txs.foldl (fun w tx => w.processTx tx height time) w).history.lookup t.txid =
      entryAfter (w.history.lookup t.txid) t height time
        (txEffect w.addressString own (held own height txs w) t)) ∧
    ∀ id, id ∉ txs.map Transaction.txid →
      (txs.foldl (fun w tx => w.processTx tx height time) w).history.lookup id =
        w.history.lookup id := by
  induction txs using List.reverseRecOn with
  | nil =>
      refine ⟨SameKeys.refl w, fun o => ?_, fun t ht => ?_, fun id _ => rfl⟩
      · have hnot : o ∉ spentBy [] := List.not_mem_nil
        rw [if_neg hnot]
        rfl
      · cases ht
  | append_singleton txs tx ih =>
      obtain ⟨hkeys, hcoins, hhist, hrest⟩ := ih ho.initial hown.initial
      rw [List.foldl_append, List.foldl_cons, List.foldl_nil, List.flatMap_append,
        List.flatMap_singleton, shown_append]
      have hlast := hown.last.sameKeys hkeys
      have htext : (txs.foldl (fun w tx => w.processTx tx height time) w).addressString =
          w.addressString := by
        funext a
        rw [addressString, addressString, params, params, hkeys.network,
          (shown_grown w _).network]
      generalize txs.foldl (fun w tx => w.processTx tx height time) w = w₁
        at hkeys hcoins hhist hrest hlast htext
      obtain ⟨hkeys₂, hcoins₂, hhist₂⟩ := processTx_spec hh ho.ins_nodup hlast
      -- an input sees the same coin whether the last transaction is counted or not
      have hview : ∀ t ∈ txs ++ [tx], ∀ i ∈ t.ins,
          held own height (txs ++ [tx]) w i.prev = held own height txs w i.prev := by
        intro t ht i hi
        rw [held, held, madeBy_snoc_of_ne (ho.spent_ne ht hi)]
      refine ⟨(hkeys.shown tx.outs).trans hkeys₂, fun o => ?_, fun t ht => ?_, fun id hid => ?_⟩
      · show fn (w₁.processTx tx height time).coins o = _
        rw [hcoins₂]
        by_cases hmade : o ∈ (ownOuts own height tx).map Prod.fst
        · obtain ⟨c, hc⟩ := exists_updateAll_of_mem hmade
          rw [hc, if_neg (ho.last_unspent (ownOuts_txid hmade)), held, madeBy_snoc, hc]
          rfl
        · rw [updateAll_of_notMem _ hmade, hcoins, held, held, madeBy_snoc,
            updateAll_of_notMem _ hmade, spentBy_snoc]
          by_cases h₁ : o ∈ tx.ins.map TxIn.prev <;> by_cases h₂ : o ∈ spentBy txs <;>
            simp only [List.mem_append, h₁, h₂, if_true, if_false, or_self, or_true, or_false]
      · show fn (w₁.processTx tx height time).history t.txid = _
        rw [hhist₂]
        rcases List.mem_append.mp ht with hmem | hmem
        · have hne : t.txid ≠ tx.txid := by
            have hd := ho.distinct
            rw [List.map_append, List.nodup_append] at hd
            exact hd.2.2 _ (List.mem_map_of_mem hmem) _
              (List.mem_map_of_mem (List.mem_singleton_self tx))
          rw [Function.update_of_ne hne]
          show w₁.history.lookup t.txid = _
          rw [hhist t hmem, txEffect_congr fun i hi => (hview t ht i hi).symm]
        · rw [List.mem_singleton.mp hmem] at ht ⊢
          have hnew : tx.txid ∉ txs.map Transaction.txid := by
            have hd := ho.distinct
            rw [List.map_append, List.nodup_append] at hd
            exact fun hm => hd.2.2 _ hm _
              (List.mem_map_of_mem (List.mem_singleton_self tx)) rfl
          rw [Function.update_self, hrest _ hnew, htext]
          congr 1
          refine txEffect_congr fun i hi => ?_
          rw [hview tx ht i hi]
          show w₁.coins.lookup i.prev = _
          rw [hcoins, if_neg (ho.last_fresh hi)]
      · rw [List.map_append, List.mem_append, not_or] at hid
        show fn (w₁.processTx tx height time).history id = _
        have hne : id ≠ tx.txid := fun he => hid.2 (by simp [he])
        rw [hhist₂, Function.update_of_ne hne]
        exact hrest id hid.1

end Wallet

end QuantCore
