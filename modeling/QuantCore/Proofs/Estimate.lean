import Mathlib.Algebra.Group.Action.Defs
import Mathlib.Algebra.Order.BigOperators.Group.List
import QuantCore.Proofs.Funding
import QuantCore.Proofs.Sizes

/-!
# The fee estimate

`estimate_size` is worked out before a transaction is signed. It covers the
signed transaction, so the fee it gives is never below the relay minimum, as
long as keys and signatures have Falcon's sizes and no product or sum leaves its
64 bits. Short of that the estimate can be anything: it is multiplied by the fee
rate in 64 bits.
-/

namespace QuantCore

open Codec Maps

/-! ## Witnesses -/

theorem writeRef_length {n : UInt32} (h : n.toNat < 2 ^ 14) :
    (writeWitness (.ref n)).length ≤ 3 := by
  have hn : varintSize n.toUInt64 ≤ 2 := varintSize_le (by rw [UInt32.toNat_toUInt64]; omega)
  rw [writeWitness, List.length_append, varint_length]
  exact Nat.add_le_add (Nat.le_refl 1) hn

theorem writeFalcon_length {pk sig : Bytes} (hpk : pk.length = falconPkBytes)
    (hsig : sig.length ≤ falconSigMax) :
    (writeWitness (.falcon pk sig)).length ≤ 1 + falconPkBytes + 2 + falconSigMax := by
  have hmax : falconSigMax = 752 := rfl
  have hsize : varintSize (UInt64.ofNat sig.length) ≤ 2 := by
    refine varintSize_le ?_
    rw [UInt64.toNat_ofNat']
    omega
  have hone : (Writer.u8 1).length = 1 := rfl
  rw [writeWitness, List.length_append, List.length_append, Writer.bytes, List.length_append,
    size_length, hone, hpk]
  omega

namespace Wallet

/-- Falcon's sizes of a key and of its signatures. -/
structure FalconSized (signer : Signer) : Prop where
  pk : ∀ k, (signer.pk k).length = falconPkBytes
  sig : ∀ k m, (signer.falconSign k m).length ≤ falconSigMax

/-- One signature for each address that is new, and a reference for every other
input. -/
theorem witnesses_size {w : Wallet} {signer : Signer} (hs : FalconSized signer)
    {sighash : Hash256} (l : List (WalletCoin × Nat)) :
    ∀ (firstUse : UMap Hash256 Nat) (ws : List Witness),
      w.witnesses signer sighash l firstUse = .ok ws → (∀ c ∈ l, c.2 < 2 ^ 14) →
      (∀ a i, firstUse.lookup a = some i → i < 2 ^ 14) →
      ws.length = l.length ∧ ∃ f ≤ ((l.map fun c => c.1.out.addr).toFinset.filter fun a =>
          firstUse.lookup a = none).card, f ≤ l.length ∧
        (ws.flatMap writeWitness).length ≤
          f * (1 + falconPkBytes + 2 + falconSigMax) + (l.length - f) * 4 := by
  induction l with
  | nil =>
      intro firstUse ws h _ _
      cases h
      exact ⟨rfl, 0, Nat.zero_le _, Nat.le_refl _, Nat.zero_le _⟩
  | cons e l ih =>
      obtain ⟨c, i⟩ := e
      intro firstUse ws h hidx hfirst
      have hi : i < 2 ^ 14 := hidx (c, i) List.mem_cons_self
      have hrest : ∀ x ∈ l, x.2 < 2 ^ 14 := fun x hx => hidx x (List.mem_cons_of_mem _ hx)
      simp only [witnesses] at h
      cases hl : firstUse.lookup c.out.addr with
      | some n =>
          -- the address has signed already
          simp only [hl] at h
          cases hw : w.witnesses signer sighash l firstUse with
          | error e => rw [hw] at h; cases h
          | ok rest =>
              rw [hw] at h
              cases h
              obtain ⟨hlen, f, hf, hfl, hsize⟩ := ih firstUse rest hw hrest hfirst
              have hn := hfirst _ _ hl
              have href := writeRef_length (n := UInt32.ofNat n) (by
                rw [UInt32.toNat_ofNat']
                omega)
              have hset : ((((c, i) :: l).map fun c => c.1.out.addr).toFinset.filter fun a =>
                  firstUse.lookup a = none) =
                  ((l.map fun c => c.1.out.addr).toFinset.filter fun a =>
                    firstUse.lookup a = none) := by
                rw [List.map_cons, List.toFinset_cons, Finset.filter_insert, if_neg (by simp [hl])]
              refine ⟨by rw [List.length_cons, List.length_cons, hlen], f, hset ▸ hf, ?_, ?_⟩
              · rw [List.length_cons]
                omega
              · rw [List.flatMap_cons, List.length_append, List.length_cons]
                omega
      | none =>
          simp only [hl] at h
          split at h
          · cases h
          · next k hk =>
              cases hw : w.witnesses signer sighash l (firstUse.insert c.out.addr i) with
              | error e => rw [hw] at h; cases h
              | ok rest =>
                  rw [hw] at h
                  cases h
                  obtain ⟨hlen, f, hf, hfl, hsize⟩ := ih _ rest hw hrest fun a j ha => by
                    rw [lookup_insert_ite] at ha
                    split at ha
                    · cases ha
                      exact hi
                    · exact hfirst a j ha
                  have hsig := writeFalcon_length (hs.pk (w.keys.getD k default))
                    (hs.sig (w.keys.getD k default) sighash)
                  have hset : ((l.map fun c => c.1.out.addr).toFinset.filter fun a =>
                      (firstUse.insert c.out.addr i).lookup a = none) =
                      ((((c, i) :: l).map fun c => c.1.out.addr).toFinset.filter fun a =>
                        firstUse.lookup a = none).erase c.out.addr := by
                    ext a
                    simp only [Finset.mem_filter, Finset.mem_erase, List.mem_toFinset,
                      List.map_cons, List.mem_cons, lookup_insert_ite]
                    by_cases ha : a = c.out.addr
                    · simp [ha]
                    · simp [ha]
                  have hmem : c.out.addr ∈ ((((c, i) :: l).map fun c => c.1.out.addr).toFinset.filter
                      fun a => firstUse.lookup a = none) := by
                    simp [hl]
                  have hcard := Finset.card_erase_add_one hmem
                  rw [hset] at hf
                  refine ⟨by rw [List.length_cons, List.length_cons, hlen], f + 1, by omega, ?_, ?_⟩
                  · rw [List.length_cons]
                    omega
                  · rw [List.flatMap_cons, List.length_append, List.length_cons, Nat.add_mul]
                    omega

end Wallet

/-! ## The transaction -/

theorem writeCore_length (t : Transaction) : t.writeCore.length =
    varintSize t.version.toUInt64 +
      (varintSize (UInt64.ofNat t.ins.length) + (t.ins.map fun i => opSize i.prev).sum) +
      (varintSize (UInt64.ofNat t.outs.length) + (t.outs.map outSize).sum) +
      (varintSize (UInt64.ofNat t.ops.length) + (t.ops.flatMap writeOp).length) +
      (varintSize t.lockHeight + (varintSize (UInt64.ofNat t.extra.length) + t.extra.length)) := by
  have hins := section_length (fun i : TxIn => writeOutPoint_length i.prev) t.ins
  have houts := section_length writeTxOut_length t.outs
  rw [List.length_append] at hins houts
  rw [Transaction.writeCore]
  simp only [List.length_append, varint_length, Writer.bytes]
  rw [← hins, ← houts, size_length t.ops.length, size_length t.extra.length]
  omega

/-- The finishing step of a plan touches the ops only, and leaves them within what
is estimated for them. -/
structure Plan.Sized (p : Plan) : Prop where
  few : p.ops.length ≤ 1
  finish : ∀ tx : Transaction, tx.ops = p.ops → ∃ ops, p.finish tx = { tx with ops } ∧
    ops.length = p.ops.length ∧
    (ops.flatMap writeOp).length ≤ p.ops.length * 160 + p.extraOuts * 74

theorem count_le {n k : Nat} (hn : n < 128 ^ (k + 1)) (hk : k ≤ 8) :
    varintSize (UInt64.ofNat n) ≤ k + 1 := by
  have hpow : 128 ^ (k + 1) ≤ 128 ^ 9 := Nat.pow_le_pow_right (by omega) (by omega)
  refine varintSize_le ?_
  rw [UInt64.toNat_ofNat', Nat.mod_eq_of_lt (by omega)]
  exact hn

/-- The bytes of an assembled transaction before it is signed. -/
theorem assembleCore_le {p : Plan} (hp : p.Sized) {d : Plan.Draft} (hsel : d.sel.length ≤ 2000)
    (houts : ∀ o ∈ d.outs ++ d.change, outSize o ≤ 74)
    (hfew : (d.outs ++ d.change).length < 2 ^ 42) (ca : Hash256) :
    (Wallet.assemble p d ca).writeCore.length ≤ 12 + d.sel.length * 37 +
      (d.outs.length + d.change.length + p.extraOuts) * 74 + p.ops.length * 160 := by
  obtain ⟨ops, hfinish, hopslen, hops⟩ := hp.finish
    { ins := d.sel.map fun c => ⟨c.op⟩
      outs := d.outs ++ d.change.map fun o => { o with addr := ca }
      ops := p.ops } rfl
  have hins := List.sum_le_card_nsmul
    ((d.sel.map fun c => (⟨c.op⟩ : TxIn)).map fun i => opSize i.prev) 37 fun x hx => by
      obtain ⟨i, -, rfl⟩ := List.mem_map.mp hx
      exact opSize_le i.prev
  have hsum := List.sum_le_card_nsmul ((d.outs ++ d.change).map outSize) 74 fun x hx => by
    obtain ⟨o, ho, rfl⟩ := List.mem_map.mp hx
    exact houts o ho
  -- the address of the change takes the same bytes whatever it is
  have hreaddr : ((d.outs ++ d.change.map fun o : TxOut => { o with addr := ca }).map outSize) =
      (d.outs ++ d.change).map outSize := by
    rw [List.map_append, List.map_append, List.map_map]
    rfl
  have hfew' := hp.few
  have hnin : varintSize (UInt64.ofNat d.sel.length) ≤ 2 := count_le (by omega) (by omega)
  have hnout : varintSize (UInt64.ofNat (d.outs ++ d.change).length) ≤ 6 :=
    count_le (by omega) (by omega)
  have hnops : varintSize (UInt64.ofNat p.ops.length) ≤ 1 := count_le (by omega) (by omega)
  have hversion : varintSize (2 : UInt32).toUInt64 = 1 := by decide
  have hzero : varintSize 0 = 1 := by decide
  have hnil : varintSize (UInt64.ofNat ([] : Bytes).length) = 1 := by decide
  rw [writeCore_length, Wallet.assemble, hfinish]
  dsimp only
  rw [hreaddr, hopslen, hversion, hzero, hnil]
  simp only [List.length_map, List.length_append, List.length_nil, smul_eq_mul] at hins hsum hnout ⊢
  omega

/-- The estimate covers a signed transaction of which no output takes more than is
estimated for one. -/
theorem fullSize_le {w : Wallet} [Crypto] {signer : Signer} (hs : Wallet.FalconSized signer)
    {p : Plan} (hp : p.Sized) {d : Plan.Draft} (hsel : d.sel.length ≤ 2000)
    (houts : ∀ o ∈ d.outs ++ d.change, outSize o ≤ 74)
    (hfew : (d.outs ++ d.change).length < 2 ^ 42) {ca : Hash256} {tx : Transaction}
    (h : w.signTx signer (Wallet.assemble p d ca) d.sel = .ok tx) :
    tx.fullSize ≤ estimateSize (max d.sel.length 1) (Plan.uniqueAddrs d.sel)
      (d.outs.length + d.change.length + p.extraOuts) p.ops.length := by
  have hcore := assembleCore_le hp hsel houts hfew ca
  rw [Wallet.signTx] at h
  cases hw : w.witnesses signer (signatureHash w.params.genesisHash
      (Wallet.assemble p d ca).txid) d.sel.zipIdx ∅ with
  | error e => rw [hw] at h; cases h
  | ok ws =>
      rw [hw] at h
      cases h
      obtain ⟨hlen, f, hf, hfl, hwit⟩ := Wallet.witnesses_size hs d.sel.zipIdx ∅ ws hw
        (fun c hc => Nat.lt_trans (List.snd_lt_of_mem_zipIdx hc) (by omega))
        (fun a i ha => by rw [AList.lookup_empty] at ha; cases ha)
      have hunique : f ≤ (d.sel.map fun c => c.out.addr).dedup.length := by
        have hmap : (d.sel.zipIdx.map fun c => c.1.out.addr) =
            (d.sel.zipIdx.map Prod.fst).map fun c => c.out.addr := by rw [List.map_map]; rfl
        refine Nat.le_trans hf ?_
        rw [Finset.filter_true_of_mem fun a _ => AList.lookup_empty a, ← List.card_toFinset, hmap,
          List.zipIdx_map_fst]
      have hdedup := (List.dedup_sublist (d.sel.map fun c => c.out.addr)).length_le
      rw [List.length_map] at hdedup
      rw [List.length_zipIdx] at hlen hfl hwit
      have hnwit : varintSize (UInt64.ofNat ws.length) ≤ 2 := count_le (by omega) (by omega)
      have hsig : 1 + falconPkBytes + 2 + falconSigMax = 1652 := rfl
      have hgrow : (Transaction.writeCore { Wallet.assemble p d ca with witness := ws }) =
          (Wallet.assemble p d ca).writeCore := rfl
      rw [Transaction.fullSize, Transaction.writeFull, List.length_append, hgrow,
        Transaction.writeWitnesses, List.length_append, size_length]
      rw [hsig] at hwit
      simp only [estimateSize, Plan.uniqueAddrs, hsig]
      omega

/-! ## The plans -/

/-- The bytes of an op that deals with a token: its kind, the token, and three
amounts at most. -/
theorem writeOp_length {op : TxOp} (ht : ∀ t, op ≠ .createToken t) (hm : ∀ m, op ≠ .message m) :
    (writeOp op).length ≤ 160 := by
  have hone : ∀ n, (Writer.u8 n).length = 1 := fun _ => rfl
  have hash : ∀ h, (Writer.hash h).length = 32 := Hash256.bytes_length
  have hv : ∀ v, (Writer.varint v).length ≤ 10 := fun v => varint_length v ▸ varintSize_le_ten v
  cases op with
  | createToken t => exact absurd rfl (ht t)
  | message m => exact absurd rfl (hm m)
  | poolCreate o =>
      have hq := hv o.qnt
      have ht := hv o.tok
      have hs := hv o.shares
      simp only [writeOp, List.length_append, hone, hash]
      omega
  | addLiquidity o =>
      have hq := hv o.qnt
      have ht := hv o.tok
      have hs := hv o.shares
      simp only [writeOp, List.length_append, hone, hash]
      omega
  | removeLiquidity o =>
      have hq := hv o.qnt
      have ht := hv o.tok
      have hs := hv o.shares
      simp only [writeOp, List.length_append, hone, hash]
      omega
  | swap o =>
      have hi := hv o.amountIn
      have ho := hv o.amountOut
      simp only [writeOp, List.length_append, hone, hash]
      omega

theorem writeMessage_length {m : OpMessage} (h : m.text.length ≤ maxMessageText) :
    (writeOp (.message m)).length ≤ 68 + m.text.length := by
  have hone : ∀ n, (Writer.u8 n).length = 1 := fun _ => rfl
  have hmax : maxMessageText = 280 := rfl
  have htext : varintSize (UInt64.ofNat m.text.length) ≤ 2 := count_le (by omega) (by omega)
  simp only [writeOp, List.length_append, hone, Writer.hash, Hash256.bytes_length, Writer.str,
    Writer.bytes, size_length]
  omega

theorem Plan.sized_of_op {p : Plan} {op : TxOp} (hfinish : p.finish = id) (hops : p.ops = [op])
    (ht : ∀ t, op ≠ .createToken t) (hm : ∀ m, op ≠ .message m) : p.Sized where
  few := by simp [hops]
  finish tx htx := by
    have hlen := writeOp_length ht hm
    refine ⟨p.ops, by rw [hfinish, ← htx]; rfl, rfl, ?_⟩
    rw [hops, List.flatMap_singleton, List.length_singleton]
    omega

theorem Plan.sized_of_none {p : Plan} (hfinish : p.finish = id) (hops : p.ops = []) : p.Sized where
  few := by simp [hops]
  finish tx htx := ⟨p.ops, by rw [hfinish, ← htx]; rfl, rfl, by simp [hops]⟩

section

variable [Crypto] {w : Wallet} {tip : Int} {owner : Hash256} {p : Plan}

omit [Crypto] in
/-- Of a message the text is what takes more than 160 bytes; outputs are
estimated for the rest of it. -/
theorem sendMessagePlan_sized {recipient : Hash256} {text : Bytes} {gift : UInt8}
    (h : w.sendMessagePlan recipient text gift = .ok p) : p.Sized := by
  simp only [Wallet.sendMessagePlan] at h
  split at h
  · cases h
  · split at h
    · cases h
    · next hlong =>
        split at h
        · cases h
        · split at h
          · cases h
          · cases h
            refine ⟨Nat.le_refl 1, fun tx htx => ?_⟩
            have hsize : ∀ sender, ((writeOp (.message ⟨sender, recipient, gift, text⟩))).length ≤
                1 * 160 + ((text.length + 73) / 74 + 1) * 74 := fun sender => by
              have hm := writeMessage_length (m := ⟨sender, recipient, gift, text⟩) (by
                simpa using hlong)
              simp only at hm
              omega
            dsimp only [Wallet.signMessage]
            split
            · refine ⟨[.message ⟨0, recipient, gift, text⟩], ?_, rfl, ?_⟩
              · simp only at htx
                rw [← htx]
              rw [List.flatMap_singleton]
              exact hsize 0
            · refine ⟨_, rfl, rfl, ?_⟩
              rw [List.flatMap_singleton]
              exact hsize _

theorem createTxPlan_ok {dests : List Wallet.Dest} {subtractFee : Bool}
    (h : w.createTxPlan dests subtractFee = .ok p) : ∃ outs, p = { outs, subtractFee } := by
  simp only [Wallet.createTxPlan] at h
  split at h
  · cases h
  · cases hd : dests.mapM w.destOut with
    | error e => rw [hd] at h; cases h
    | ok outs =>
        simp only [hd, bind, Except.bind] at h
        split at h
        · cases h
        · cases h
          exact ⟨outs, rfl⟩

/-- The plans of the calls that create no token. -/
theorem plan_sized {r : Request} (h : r.plan w tip owner = .ok p)
    (hr : ∀ t, r ≠ .createToken t) : p.Sized := by
  cases r with
  | createToken t => exact absurd rfl (hr t)
  | sendMessage recipient text gift => exact sendMessagePlan_sized h
  | createTx dests subtractFee =>
      obtain ⟨outs, rfl⟩ := createTxPlan_ok h
      exact Plan.sized_of_none rfl rfl
  | createSweep address =>
      simp only [Request.plan, Wallet.createSweepPlan] at h
      split at h
      · cases h
      · split at h
        · cases h
        · cases h
          exact Plan.sized_of_none rfl rfl
  | swap token sell amountIn minOut =>
      simp only [Request.plan, Wallet.swapPlan] at h
      split at h
      · cases h
      · split at h
        · cases h
        · cases h
          exact Plan.sized_of_op rfl rfl (fun t ht => by cases ht) fun m hm => by cases hm
  | addLiquidity token qnt tok pool =>
      simp only [Request.plan, Wallet.addLiquidityPlan] at h
      split at h
      · cases h
      · cases hr : Wallet.depositOp token qnt tok pool with
        | error e => rw [hr] at h; cases h
        | ok r =>
            rw [hr] at h
            cases h
            exact Plan.sized_of_op rfl rfl (depositOp_ne hr).1 (depositOp_ne hr).2
  | removeLiquidity token shares pool =>
      simp only [Request.plan, Wallet.removeLiquidityPlan] at h
      split at h
      · cases h
      · split at h
        · cases h
        · cases h
          exact Plan.sized_of_op rfl rfl (fun t ht => by cases ht) fun m hm => by cases hm

end

theorem estimateSize_mono {i₁ i₂ u₁ u₂ o₁ o₂ ops : Nat} (hi : i₁ ≤ i₂) (hu : u₁ ≤ u₂)
    (ho : o₁ ≤ o₂) : estimateSize i₁ u₁ o₁ ops ≤ estimateSize i₂ u₂ o₂ ops := by
  have hsig : 1 + falconPkBytes + 2 + falconSigMax = 1652 := rfl
  simp only [estimateSize, hsig]
  omega

/-! ## What is chosen -/

namespace Plan

theorem takeToken_change {spendable : List WalletCoin} {s s' : Chosen} {e : Hash256 × Int}
    (h : takeToken spendable s e = .ok s') : s'.change.length ≤ s.change.length + 1 := by
  simp only [takeToken] at h
  split at h
  · cases h
    exact Nat.le_succ _
  · obtain ⟨taken, rest, -, -, htake⟩ :=
      roundCoins_spec e.2 (byValue (spendable.filter fun c => c.out.asset == e.1)) s.sel
    simp only [htake] at h
    split at h
    · cases h
    · cases h
      dsimp only
      split
      · rw [List.length_append, List.length_singleton]
      · exact Nat.le_succ _

/-- One change output at most for each asset that is needed. -/
theorem takeTokens_change {spendable : List WalletCoin} (es : List (Hash256 × Int)) :
    ∀ s s' : Chosen, es.foldlM (takeToken spendable) s = .ok s' →
      s'.change.length ≤ s.change.length + es.length := by
  induction es with
  | nil =>
      intro s s' h
      cases h
      exact Nat.le_refl _
  | cons e es ih =>
      intro s s' h
      rw [List.foldlM_cons] at h
      cases hr : takeToken spendable s e with
      | error err => rw [hr] at h; cases h
      | ok s₁ =>
          rw [hr] at h
          have hone := takeToken_change hr
          have hrest := ih s₁ s' h
          rw [List.length_cons]
          omega

/-- The last coin that was taken has passed the check on their number. -/
theorem takeQnt_few {p : Plan} {feePerKb : Amount} {change : List TxOut} {qneed : Int}
    (pool : List WalletCoin) : ∀ (sel : List WalletCoin) (qhave : Amount) (qcount : Nat)
    (r : List WalletCoin × Amount × Amount),
      p.takeQnt feePerKb change qneed pool sel qhave qcount = .ok r →
      (0 < qcount → sel.length ≤ 2000) → r.1.length ≤ 2000 := by
  induction pool with
  | nil =>
      intro sel qhave qcount r h hfew
      simp only [takeQnt] at h
      split at h
      · next hstop =>
          cases h
          exact hfew hstop.1
      · split at h
        · next hsweep =>
            cases h
            exact hfew hsweep.2
        · cases h
  | cons c pool ih =>
      intro sel qhave qcount r h hfew
      simp only [takeQnt] at h
      split at h
      · next hstop =>
          cases h
          exact hfew hstop.1
      · split at h
        · cases h
        · next hmany => exact ih _ _ _ r h fun _ => not_lt.mp hmany

theorem payOuts_length {p : Plan} {qhave fee : Amount} {outs : List TxOut}
    (h : p.payOuts qhave fee = .ok outs) : outs.length = p.outs.length := by
  rw [payOuts] at h
  split at h
  · next ho =>
      cases h
      rw [ho]
  · next o rest ho =>
      rw [ho]
      generalize (if p.sweep then { o with value := qhave } else o) = first at h
      dsimp only at h
      split at h
      · split at h
        · cases h
        · cases h
          rfl
      · cases h
        rfl

theorem qntChange_length (p : Plan) (qhave fee : Amount) :
    (p.qntChange qhave fee).length ≤ if p.sweep then 0 else 1 := by
  have hone : ∀ q : Int,
      (if q ≥ dustLimit.toNat then [(⟨UInt64.ofInt q, qntAsset, 0⟩ : TxOut)] else []).length ≤ 1 :=
    fun q => by
      split
      · exact Nat.le_refl 1
      · exact Nat.zero_le 1
  rw [qntChange]
  cases p.sweep with
  | true => exact Nat.le_refl 0
  | false =>
      simp only [Bool.not_false, true_and, Bool.false_eq_true, if_false]
      exact hone _

/-- What is chosen and paid is no more than the fee was estimated for. -/
theorem draft_few {p : Plan} {spendable : List WalletCoin} {feePerKb : Amount} {d : Draft}
    (h : p.draft spendable feePerKb = .ok d) :
    d.sel.length ≤ 2000 ∧ d.outs.length = p.outs.length ∧
      ∃ change : List TxOut, change.length ≤ p.need.sorted.length ∧
        d.fee = p.fee feePerKb change d.sel ∧
        d.change.length ≤ change.length + if p.sweep then 0 else 1 := by
  simp only [draft] at h
  cases hr : p.need.sorted.foldlM (takeToken spendable) {} with
  | error e => rw [hr] at h; cases h
  | ok s =>
      simp only [hr, bind, Except.bind] at h
      split at h
      · cases h
      · next r hq =>
          split at h
          · cases h
          · next outs houts =>
              cases h
              have hchange := takeTokens_change _ _ _ hr
              rw [List.length_nil, Nat.zero_add] at hchange
              obtain ⟨taken, rest, -, -, -, hfee, -⟩ := takeQnt_spec hq
              refine ⟨takeQnt_few _ _ _ _ _ hq fun hc => absurd hc (Nat.lt_irrefl 0),
                payOuts_length houts, s.change, hchange, hfee, ?_⟩
              rw [List.length_append]
              exact Nat.add_le_add_left (qntChange_length p r.2.1 r.2.2) _

/-! ## The fee covers what is signed -/

/-- What a plan and the coins it may take stay within: no asset's coins, with what
is released of it, come to 2^63, and no estimate times the rate to 2^64. -/
structure Fits (p : Plan) (spendable : List WalletCoin) (feePerKb : Amount) : Prop where
  value : ∀ a, assetValue a (spendable.map WalletCoin.out) + (amountOf p.opOut a).toNat < 2 ^ 63
  fee : estimateSize 2000 2000 (p.outs.length + p.need.sorted.length + p.extraOuts + 1)
    p.ops.length * feePerKb.toNat < 2 ^ 64

/-- Distinct coins hold no more of an asset than all that may be spent. -/
theorem Picked.value_le {spendable l : List WalletCoin} {q : Hash256 → Prop}
    (h : Picked spendable q l) (a : Hash256) :
    assetValue a (l.map WalletCoin.out) ≤ assetValue a (spendable.map WalletCoin.out) := by
  obtain ⟨l', hperm, hsub⟩ :=
    List.subperm_of_subset h.distinct.of_map fun c hc => (h.mem c hc).1
  rw [assetValue, ← ((hperm.map WalletCoin.out).map _).sum_eq]
  exact ((hsub.map WalletCoin.out).map _).sum_le_sum fun _ _ => Nat.zero_le _

theorem value_le_assetValue {o : TxOut} {l : List TxOut} (h : o ∈ l) :
    o.value.toNat ≤ assetValue o.asset l := by
  rw [assetValue]
  exact List.le_sum_of_mem (List.mem_map.mpr ⟨o, h, if_pos rfl⟩)

/-- An output whose amount, if it is a token's, takes nine bytes at most. -/
theorem outSize_le_of {o : TxOut} (h : o.asset ≠ qntAsset → o.value.toNat < 2 ^ 63) :
    outSize o ≤ 74 := by
  rw [outSize]
  split
  · have hv := varintSize_le_ten o.value
    omega
  · next hq =>
      have hv : varintSize o.value ≤ 9 :=
        varintSize_le (h fun he => hq (Hash256.isZero_iff.mpr he))
      omega

/-- The fee of an estimate that the rate does not carry past 64 bits. -/
theorem fee_toNat {p : Plan} {feePerKb : Amount} {change : List TxOut} {sel : List WalletCoin}
    {nOut : Nat} (hout : nOut = p.outs.length + change.length + p.extraOuts +
      (if p.sweep then 0 else 1)) (hrate : 1 ≤ feePerKb.toNat)
    (hfit : estimateSize (max sel.length 1) (uniqueAddrs sel) nOut p.ops.length *
      feePerKb.toNat < 2 ^ 64) : (p.fee feePerKb change sel).toNat =
      estimateSize (max sel.length 1) (uniqueAddrs sel) nOut p.ops.length *
        feePerKb.toNat / 1000 := by
  subst hout
  have hle := Nat.le_mul_of_pos_right (estimateSize (max sel.length 1) (uniqueAddrs sel)
    (p.outs.length + change.length + p.extraOuts + (if p.sweep then 0 else 1)) p.ops.length) hrate
  rw [fee, UInt64.toNat_div, UInt64.toNat_mul, UInt64.toNat_ofNat',
    Nat.mod_eq_of_lt (Nat.lt_of_le_of_lt hle hfit), Nat.mod_eq_of_lt hfit]
  rfl

end Plan

theorem relayFee_toNat_le (tx : Transaction) :
    tx.relayFee.toNat ≤ tx.fullSize * minRelayFeePerKb.toNat / 1000 := by
  rw [Transaction.relayFee, UInt64.toNat_div, UInt64.toNat_mul, UInt64.toNat_ofNat']
  refine Nat.div_le_div_right (Nat.le_trans (Nat.mod_le _ _) ?_)
  exact Nat.mul_le_mul_right _ (Nat.mod_le _ _)

namespace Wallet

variable [Crypto] {w w₁ : Wallet} {signer : Signer} {p : Plan} {tip : Int} {rate : Amount}
  {own : Hash256 → Prop} {d : Plan.Draft} {ca : Hash256} {tx : Transaction}

theorem signTx_outs (hz : p.Sized) (h : w₁.signTx signer (assemble p d ca) d.sel = .ok tx) :
    tx.outs = d.outs ++ d.change.map fun o => { o with addr := ca } := by
  obtain ⟨ops, hfinish, -, -⟩ := hz.finish
    { ins := d.sel.map fun c => ⟨c.op⟩
      outs := d.outs ++ d.change.map fun o => { o with addr := ca }
      ops := p.ops } rfl
  rw [signTx] at h
  cases hwit : w₁.witnesses signer (signatureHash w₁.params.genesisHash (assemble p d ca).txid)
      d.sel.zipIdx ∅ with
  | error e => rw [hwit] at h; cases h
  | ok witness =>
      rw [hwit] at h
      cases h
      rw [assemble, hfinish]

/-- Within these limits the fee a build settles on covers what it then signs. -/
theorem fee_suffices (hw : w.Filed) (hs : FalconSized signer)
    (hp : p.Sound (w.spendableCoins tip) own) (hz : p.Sized)
    (hfit : p.Fits (w.spendableCoins tip) rate) (hrate : minRelayFeePerKb ≤ rate)
    (hd : p.draft (w.spendableCoins tip) rate = .ok d)
    (h : w₁.signTx signer (assemble p d ca) d.sel = .ok tx) :
    tx.relayFee.toNat ≤ p.actual d.qhave tx := by
  obtain ⟨hsel, hpaid, change', hchange', hfee, hnew⟩ := Plan.draft_few hd
  obtain ⟨toks, qnts, change, hD⟩ := Plan.draft_drafted (spendableCoins_nodup hw tip) hd
  obtain ⟨hq, -, -⟩ := draft_picked hw hp hD
  -- a token's outputs are no more than its coins and what is released of it
  have hsmall : ∀ o ∈ d.outs ++ d.change, outSize o ≤ 74 := fun o ho => by
    refine Plan.outSize_le_of fun ha => ?_
    have hlimit := hfit.value o.asset
    have hcoins := hD.rounds.picked.value_le o.asset
    have hexact := (Plan.token_account hp hD ha).2 (by omega)
    rcases List.mem_append.mp ho with ho | ho
    · have hle := Plan.value_le_assetValue ho
      omega
    · rw [hD.change] at ho
      rcases List.mem_append.mp ho with ho | ho
      · have hle := Plan.value_le_assetValue ho
        omega
      · exact absurd (Plan.qntChange_asset o ho) ha
  have hmin : minRelayFeePerKb.toNat = 100000 := rfl
  have hmin' : minRelayFeePerKb.toNat ≤ rate.toNat := UInt64.le_iff_toNat_le.mp hrate
  have hbound := hfit.fee
  have hmany : (p.outs.length + p.need.sorted.length + p.extraOuts + 1) * 74 ≤
      estimateSize 2000 2000 (p.outs.length + p.need.sorted.length + p.extraOuts + 1)
        p.ops.length := by
    simp only [estimateSize]
    omega
  have hfew : (d.outs ++ d.change).length < 2 ^ 42 := by
    have hcount := Nat.lt_of_le_of_lt (Nat.mul_le_mul hmany hmin') hbound
    rw [hmin] at hcount
    rw [List.length_append]
    split at hnew <;> omega
  have hunique : Plan.uniqueAddrs d.sel ≤ 2000 := by
    have hdedup := (List.dedup_sublist (d.sel.map fun c => c.out.addr)).length_le
    rw [List.length_map] at hdedup
    rw [Plan.uniqueAddrs]
    omega
  -- what is signed is no larger than the estimate, and that than the largest
  have hmore : d.outs.length + d.change.length + p.extraOuts ≤
      p.outs.length + change'.length + p.extraOuts + (if p.sweep then 0 else 1) := by
    omega
  have hfull := Nat.le_trans (fullSize_le hs hz hsel hsmall hfew h)
    (estimateSize_mono (Nat.le_refl _) (Nat.le_refl _) hmore)
  have hlargest : estimateSize (max d.sel.length 1) (Plan.uniqueAddrs d.sel)
      (p.outs.length + change'.length + p.extraOuts + (if p.sweep then 0 else 1)) p.ops.length ≤
        estimateSize 2000 2000 (p.outs.length + p.need.sorted.length + p.extraOuts + 1)
          p.ops.length := estimateSize_mono (by omega) hunique (by split <;> omega)
  have hest := @Plan.fee_toNat p _ change' d.sel _ rfl
    (Nat.le_trans (by omega) hmin')
    (Nat.lt_of_le_of_lt (Nat.mul_le_mul_right _ hlargest) hbound)
  have hrelay : tx.relayFee.toNat ≤ d.fee.toNat := by
    rw [hfee, hest]
    exact Nat.le_trans (relayFee_toNat_le tx) (Nat.div_le_div_right (Nat.mul_le_mul hfull hmin'))
  -- and the fee that is paid is the estimate or more
  obtain ⟨leftover, hdust, hqmod, hqexact⟩ := Plan.qnt_account hp hD
  have hlimit := hfit.value qntAsset
  have hcoins := hq.value_le qntAsset
  rw [assetValue_coins fun c hc => (hq.mem c hc).2] at hcoins
  have houts : assetValue qntAsset tx.outs =
      assetValue qntAsset d.outs + assetValue qntAsset (p.qntChange d.qhave d.fee) := by
    rw [signTx_outs hz h, assetValue_append, assetValue_readdress, hD.change, assetValue_append,
      assetValue_eq_zero fun o ho => (hD.rounds.tokens o ho).2, Nat.zero_add]
  have hsmallFee := Plan.fee_small p rate change' d.sel
  rw [← hfee] at hsmallFee
  have hactual := (reported_fee p tx (d.fee.toNat + leftover) hD.qhave (by
    have hdl : dustLimit.toNat = 10000 := rfl
    omega) (by rw [houts]; exact hqmod) (by rw [houts]; exact hqexact)).2 (by omega)
  omega

end Wallet

end QuantCore
