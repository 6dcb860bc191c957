import QuantCore.Proofs.Branch
import QuantCore.Proofs.WalletPass

/-!
# A block that connects spends in order

The ledger takes a transaction only while every coin it spends is there. With
ids that are new to the state and to each other, that puts the transactions
after the coinbase in an order of making before spending. None of them spends
the coinbase itself: it is not mature.
-/

namespace QuantCore

open Maps

variable [Crypto] {genesis : Hash256} {height : UInt64} {verify : Bool}
  {s s' : StateReader} {tx : Transaction} {txs : List Transaction}

/-- The coins before and after a transaction that went through. -/
theorem step_coins {fee : Amount} (hnd : (tx.ins.map TxIn.prev).Nodup)
    (h : s.step tx height genesis verify = .ok (s', fee)) :
    (∀ i ∈ tx.ins, ∃ c, Spendable s height genesis i c) ∧
    (∀ o, o.txid ≠ tx.txid →
      s'.coin o = if o ∈ tx.ins.map TxIn.prev then none else s.coin o) := by
  have hact : s.act genesis (.apply tx height verify) = (s', .ok fee) := by
    rw [StateReader.act, StateReader.apply, h]
  have hcoin := (act_coin (a := .apply tx height verify) hnd hact).2
  refine ⟨?_, fun o ho => ?_⟩
  · rw [step_eq_checkTx hnd] at h
    cases hc : checkTx s tx height genesis verify with
    | error e =>
        rw [hc] at h
        cases h
    | ok x => exact checkTx_spendable hc
  · rw [hcoin o, updateAll_of_notMem]
    · rfl
    · exact fun hm => ho (map_fst_outputs (a := .apply tx height verify) hm)

omit [Crypto] in
theorem spentBy_cons (tx : Transaction) (txs : List Transaction) :
    spentBy (tx :: txs) = tx.ins.map TxIn.prev ++ spentBy txs := List.flatMap_cons

/-- Transactions that go through one after another: their order, and where what
they spend comes from. -/
theorem txs_spendOrder {fees : Amount} {x : StateReader × Amount}
    (hf : ∀ t ∈ txs, LedgerView.Fresh s t) (hids : (txs.map Transaction.txid).Nodup)
    (hnd : ∀ t ∈ txs, (t.ins.map TxIn.prev).Nodup)
    (h : s.txs height genesis verify txs fees = .ok x) :
    SpendOrder txs ∧ ∀ o ∈ spentBy txs, o.txid ∈ txs.map Transaction.txid ∨
      ∃ c, s.coin o = some c ∧
        ¬ (c.coinbase = true ∧ height < c.height + UInt64.ofNat (maturityForGenesis genesis)) := by
  induction txs generalizing s fees with
  | nil =>
      refine ⟨⟨List.nodup_nil, List.nodup_nil, fun before t after ht => ?_⟩, fun o ho => ?_⟩
      · cases before <;> cases ht
      · cases ho
  | cons tx txs ih =>
      rw [StateReader.txs] at h
      split at h
      · cases h
      next s' fee hs =>
      have hmem := List.mem_cons_self (a := tx) (l := txs)
      obtain ⟨hsp, hcoin⟩ := step_coins (hnd tx hmem) hs
      rw [List.map_cons, List.nodup_cons] at hids
      have hne : ∀ t ∈ txs, t.txid ≠ tx.txid := fun t ht he =>
        hids.1 (he ▸ List.mem_map_of_mem ht)
      have hf' : ∀ t ∈ txs, LedgerView.Fresh s' t := by
        intro t ht n
        rw [hcoin ⟨t.txid, n⟩ (hne t ht), hf t (List.mem_cons_of_mem tx ht) n, ite_self]
      obtain ⟨ho, hsrc⟩ := ih hf' hids.2 (fun t ht => hnd t (List.mem_cons_of_mem tx ht)) h
      -- a coin that is there has an id no transaction of the list will use
      have hold : ∀ i ∈ tx.ins, i.prev.txid ∉ (tx :: txs).map Transaction.txid := by
        intro i hi hm
        obtain ⟨c, hc, -⟩ := hsp i hi
        obtain ⟨t, ht, hid⟩ := List.mem_map.mp hm
        have hnone := hf t ht i.prev.n
        rw [hid] at hnone
        rw [hnone] at hc
        cases hc
      refine ⟨⟨?_, ?_, ?_⟩, ?_⟩
      · rw [List.map_cons]
        exact List.nodup_cons.mpr hids
      · rw [spentBy_cons, List.nodup_append']
        refine ⟨hnd tx hmem, ho.once, ?_⟩
        intro o hin hlater
        obtain ⟨i, hi, rfl⟩ := List.mem_map.mp hin
        have hgone : s'.coin i.prev = none := by
          rw [hcoin _ fun he => hold i hi (he ▸ List.mem_cons_self ..),
            if_pos (List.mem_map_of_mem hi)]
        rcases hsrc _ hlater with hm | ⟨c, hc, -⟩
        · exact hold i hi (List.mem_cons_of_mem _ hm)
        · rw [hgone] at hc
          cases hc
      · intro before t after hsplit i hi
        cases before with
        | nil =>
            rw [List.nil_append, List.cons.injEq] at hsplit
            obtain ⟨rfl, rfl⟩ := hsplit
            exact hold i hi
        | cons t' before =>
            rw [List.cons_append, List.cons.injEq] at hsplit
            exact ho.earlier before t after hsplit.2 i hi
      · intro o hmem
        rw [spentBy_cons] at hmem
        rcases List.mem_append.mp hmem with hm | hm
        · obtain ⟨i, hi, rfl⟩ := List.mem_map.mp hm
          exact .inr (hsp i hi)
        · by_cases hid : o.txid = tx.txid
          · exact .inl (hid ▸ List.mem_cons_self ..)
          · rcases hsrc o hm with hin | ⟨c, hc, hmat⟩
            · exact .inl (List.mem_cons_of_mem _ hin)
            · rw [hcoin o hid] at hc
              split at hc
              · cases hc
              · exact .inr ⟨c, hc, hmat⟩

/-- A block that connects at height `n` on the state `s`, whose transactions
have ids new to that state. -/
structure ConnectsOn (genesis : Hash256) (n : Nat) (s : StateReader) (b : Block) : Prop where
  checked : b.Checked n
  bound : n < 2 ^ 63
  fresh : ∀ t ∈ b.txs, LedgerView.Fresh s t
  accepted : ∃ s', s.block b n genesis true = .ok s'

namespace ConnectsOn

variable {n : Nat} {b : Block}

theorem txs_eq (h : ConnectsOn genesis n s b) : b.txs = b.txs.headD default :: b.txs.tail := by
  have hcb := h.checked.coinbase
  cases hb : b.txs with
  | nil =>
      rw [hb] at hcb
      cases hcb
  | cons t txs => rfl

theorem head_coinbase (h : ConnectsOn genesis n s b) :
    (b.txs.headD default).isCoinbase = true := by
  have hcb := h.checked.coinbase
  rw [h.txs_eq] at hcb
  exact hcb

theorem ids (h : ConnectsOn genesis n s b) :
    (b.txs.headD default).txid ∉ b.txs.tail.map Transaction.txid ∧
      (b.txs.tail.map Transaction.txid).Nodup := by
  have hids := h.checked.ids
  rw [h.txs_eq, List.map_cons, List.nodup_cons] at hids
  exact hids

theorem spendOrder (h : ConnectsOn genesis n s b) : SpendOrder b.txs.tail ∧
    ∀ o ∈ spentBy b.txs.tail, o.txid ≠ (b.txs.headD default).txid := by
  have hmem : ∀ t ∈ b.txs.tail, t ∈ b.txs := fun t ht => List.mem_of_mem_tail ht
  have hhead : b.txs.headD default ∈ b.txs := by
    rw [h.txs_eq]
    exact List.mem_cons_self ..
  have hnd : ∀ t ∈ b.txs.tail, (t.ins.map TxIn.prev).Nodup := fun t ht =>
    checkTxBasic_nodup (h.checked.basic t (hmem t ht))
  obtain ⟨s', hs'⟩ := h.accepted
  simp only [StateReader.block] at hs'
  split at hs'
  · cases hs'
  next s₁ fees htxs =>
  have hcoin : ∀ o, (s.applyCoinbase (b.txs.headD default) (UInt64.ofNat n)).coin o =
      updateAll s.coin (newCoins (b.txs.headD default).txid (b.txs.headD default).outs
        (UInt64.ofNat n) true) o := by
    intro o
    rw [StateReader.applyCoinbase, StateReader.addCoins_coin]
  have hf : ∀ t ∈ b.txs.tail, LedgerView.Fresh
      (s.applyCoinbase (b.txs.headD default) (UInt64.ofNat n)) t := by
    intro t ht k
    rw [hcoin, updateAll_of_notMem]
    · exact h.fresh t (hmem t ht) k
    · intro hm
      have hid : t.txid = (b.txs.headD default).txid := LedgerView.map_fst_newCoins hm
      exact h.ids.1 (hid ▸ List.mem_map_of_mem ht)
  obtain ⟨ho, hsrc⟩ := txs_spendOrder hf h.ids.2 hnd htxs
  refine ⟨ho, fun o hspent hid => ?_⟩
  rcases hsrc o hspent with hm | ⟨c, hc, hmature⟩
  · exact h.ids.1 (hid ▸ hm)
  rw [hcoin] at hc
  rcases mem_of_updateAll hc with hnew | hs
  · obtain ⟨e, -, he⟩ := List.mem_map.mp hnew
    cases he
    refine hmature ⟨rfl, ?_⟩
    -- heights are signed 64-bit numbers, so the sum does not wrap
    have hpos := maturityForGenesis_pos genesis
    have hle := maturityForGenesis_le genesis
    have hbound := h.bound
    show UInt64.ofNat n < UInt64.ofNat n + UInt64.ofNat (maturityForGenesis genesis)
    rw [UInt64.lt_iff_toNat_lt, UInt64.toNat_add, UInt64.toNat_ofNat', UInt64.toNat_ofNat']
    omega
  · have hnone := h.fresh _ hhead o.n
    rw [← hid] at hnone
    rw [hnone] at hs
    cases hs

end ConnectsOn

end QuantCore
