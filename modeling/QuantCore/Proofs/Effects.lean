import QuantCore.Proofs.Deltas
import QuantCore.Proofs.Funding
import QuantCore.Proofs.WalletPass

/-!
# What a history entry says of a transaction

An entry's amounts are signed 64-bit words, and the amounts of a transaction are
unsigned. So an entry is right just where the true change fits such a word; what
is recorded is congruent to it in any case. The fee is worked out from the op
fields in the same words, and agrees with the ledger's flows up to a multiple of
`2 ^ 64`, op by op.
-/

namespace QuantCore

open Maps

/-! ## Words -/

/-- The range of a signed 64-bit word. -/
def FitsWord (i : Int) : Prop := -2 ^ 63 ≤ i ∧ i < 2 ^ 63

instance (i : Int) : Decidable (FitsWord i) := inferInstanceAs (Decidable (_ ∧ _))

theorem wrap64_fits (i : Int) : FitsWord (wrap64 i) := by
  have hle := Int.le_bmod (x := i) (m := 2 ^ 64) (by decide)
  have hlt := Int.bmod_lt (x := i) (m := 2 ^ 64) (by decide)
  rw [FitsWord, wrap64]
  omega

theorem eq_of_modEq {i j : Int} (hi : FitsWord i) (hj : FitsWord j)
    (h : i ≡ j [ZMOD 2 ^ 64]) : i = j := by
  obtain ⟨k, hk⟩ := h.dvd
  rw [FitsWord] at hi hj
  omega

theorem int64_modEq (x : UInt64) : int64 x ≡ x.toNat [ZMOD 2 ^ 64] := by
  rw [int64, BitVec.toInt_eq_toNat_bmod]
  exact Int.bmod_emod

theorem Deltas.get_fits_add {d : Deltas} (h : ∀ a, FitsWord (d.get a)) (a : Hash256) (v : Int)
    (x : Hash256) : FitsWord ((d.add a v).get x) := by
  rw [get_add]
  split
  · exact wrap64_fits _
  · exact h x

/-! ## Flows -/

/-- The QNT an op releases less what it absorbs, in the ledger's flows. -/
def opFlow [Crypto] (id : Hash256) (op : TxOp) : Int :=
  flowSum qntAsset (op.released id) - flowSum qntAsset op.absorbed

/-- The ids under which an op issues tokens or shares, or takes shares back. -/
def TxOp.issued [Crypto] (id : Hash256) : TxOp → List Hash256
  | .createToken _ => [id]
  | .poolCreate p => [poolShareId p.token]
  | .addLiquidity a => [poolShareId a.token]
  | .removeLiquidity r => [poolShareId r.token]
  | .swap _ => []
  | .message _ => []

/-- The wallet's sign for an op's QNT is the ledger's. -/
theorem opQnt_modEq [Crypto] {id : Hash256} {op : TxOp} (hissued : qntAsset ∉ op.issued id)
    (htoken : ∀ t, op.poolToken = some t → t ≠ qntAsset) :
    opQnt op ≡ opFlow id op [ZMOD 2 ^ 64] := by
  have hneg : ∀ x : UInt64, -int64 x ≡ -(x.toNat : Int) [ZMOD 2 ^ 64] :=
    fun x => (int64_modEq x).neg
  cases op with
  | createToken c =>
      have hid : id ≠ qntAsset := fun h => hissued (List.mem_singleton.mpr h.symm)
      simp [opQnt, opFlow, flowSum, TxOp.released, TxOp.absorbed, hid]
  | poolCreate p =>
      have hid : poolShareId p.token ≠ qntAsset := fun h =>
        hissued (List.mem_singleton.mpr h.symm)
      simpa [opQnt, opFlow, flowSum, TxOp.released, TxOp.absorbed, hid, htoken p.token rfl]
        using hneg p.qnt
  | addLiquidity a =>
      have hid : poolShareId a.token ≠ qntAsset := fun h =>
        hissued (List.mem_singleton.mpr h.symm)
      simpa [opQnt, opFlow, flowSum, TxOp.released, TxOp.absorbed, hid, htoken a.token rfl]
        using hneg a.qnt
  | removeLiquidity r =>
      have hid : poolShareId r.token ≠ qntAsset := fun h =>
        hissued (List.mem_singleton.mpr h.symm)
      simpa [opQnt, opFlow, flowSum, TxOp.released, TxOp.absorbed, hid, htoken r.token rfl]
        using int64_modEq r.qnt
  | swap s =>
      have ht := htoken s.token rfl
      cases hs : s.sell with
      | true =>
          simpa [opQnt, opFlow, flowSum, TxOp.released, TxOp.absorbed, hs, ht]
            using int64_modEq s.amountOut
      | false =>
          simpa [opQnt, opFlow, flowSum, TxOp.released, TxOp.absorbed, hs, ht]
            using hneg s.amountIn
  | message m => rfl

/-! ## The ledger's fee -/

section Ledger

variable [Crypto]

/-- The QNT flow of ops from the `k`-th on. -/
def opsFlow (first : OutPoint) (k : Nat) (ops : List TxOp) : Int :=
  ((ops.zipIdx k).map fun e => opFlow (tokenId first (UInt32.ofNat e.2)) e.1).sum

theorem applyOps_flow {r : StateReader} {tx : Transaction} {height : UInt64} {coins : List Coin}
    {k : Nat} {ops : List TxOp} {st st' : OpState}
    (h : applyOps r tx height coins (UInt32.ofNat k) ops st = .ok st') :
    (st'.plus.get qntAsset : Int) - st'.minus.get qntAsset =
      st.plus.get qntAsset - st.minus.get qntAsset + opsFlow tx.firstIn k ops := by
  induction ops generalizing k st with
  | nil =>
      cases h
      exact (Int.add_zero _).symm
  | cons op ops ih =>
      rw [applyOps] at h
      split at h
      · cases h
      · next st₁ hop =>
          have hk : UInt32.ofNat k + 1 = UInt32.ofNat (k + 1) := (UInt32.ofNat_add k 1).symm
          rw [hk] at h
          obtain ⟨hplus, hminus⟩ := applyOp_flows hop
          rw [ih h, hplus, hminus, Flows.get_addAll, Flows.get_addAll, opsFlow, opsFlow,
            List.zipIdx_cons, List.map_cons, List.sum_cons, opFlow, Transaction.firstIn]
          push_cast
          ring

/-- The fee of an accepted transaction. -/
theorem checkTx_fee {r : StateReader} {tx : Transaction} {height : UInt64} {genesis : Hash256}
    {verifySigs : Bool} {st : OpState} {fee : Amount}
    (h : checkTx r tx height genesis verifySigs = .ok (st, fee)) :
    ∃ coins : List Coin, tx.ins.map (fun i => r.coin i.prev) = coins.map some ∧ tx.isCoinbase = false ∧
      (fee.toNat : Int) = assetValue qntAsset (coins.map Coin.out) -
        assetValue qntAsset tx.outs + opsFlow tx.firstIn 0 tx.ops := by
  obtain ⟨hcb, -, coins, hcoins, hops, hbal, -⟩ := checkTx_ok h
  refine ⟨coins, ?_, hcb, ?_⟩
  · rw [← List.forall₂_eq_eq_eq, List.forall₂_map_left_iff, List.forall₂_map_right_iff]
    exact hcoins.imp fun i c hc => hc.1
  · have hempty : Flows.get ∅ qntAsset = 0 := by
      rw [Flows.get, AList.lookup_empty]
      rfl
    rw [balance_flow hbal, applyOps_flow (k := 0) hops, Flows.get_addAll, Flows.get_addAll,
      flowSum_coins, flowSum_coins, hempty, Nat.zero_add, Nat.zero_add]

end Ledger

/-! ## What the loops find -/

/-- The outputs at addresses that are ours when the loop comes to them. -/
def Wallet.foundOuts (txid : Hash256) (height : Int) (coinbase : Bool) :
    Wallet → List (TxOut × Nat) → List TxOut
  | _, [] => []
  | w, o :: outs =>
      if w.isMine o.1.addr then
        o.1 :: foundOuts txid height coinbase
          (w.addCoin ⟨⟨txid, UInt32.ofNat o.2⟩, o.1, height, coinbase, false⟩) outs
      else foundOuts txid height coinbase w outs

namespace Wallet

/-- The input loop, at any height: one coin is taken or locked at a time, and no
input comes twice. -/
theorem takeInputs_effect (height : Int) {ins : List TxIn} {w : Wallet}
    (hnd : (ins.map TxIn.prev).Nodup) (e : TxEffect) :
    ∃ coins, ins.foldl (takeInput height) (w, e) =
      ({ w with coins }, ins.foldl (effectIn (fn w.coins)) e) := by
  induction ins generalizing w e with
  | nil => exact ⟨w.coins, rfl⟩
  | cons i ins ih =>
      rw [List.map_cons, List.nodup_cons] at hnd
      have hstep : ∃ coins, takeInput height (w, e) i =
          ({ w with coins }, effectIn (fn w.coins) e i) ∧
          ∀ o, o ≠ i.prev → coins.lookup o = w.coins.lookup o := by
        have hfn : fn w.coins i.prev = w.coins.lookup i.prev := rfl
        rw [takeInput, effectIn, hfn]
        cases w.coins.lookup i.prev with
        | none => exact ⟨w.coins, rfl, fun _ _ => rfl⟩
        | some c =>
            refine ⟨if height < 0 then w.coins.insert i.prev { c with locked := true }
              else w.coins.erase i.prev, rfl, fun o ho => ?_⟩
            split
            · exact AList.lookup_insert_ne ho
            · exact AList.lookup_erase_ne ho
      obtain ⟨coins, hrun, hcoins⟩ := hstep
      obtain ⟨coins', hrun'⟩ :=
        ih (w := { w with coins }) hnd.2 (effectIn (fn w.coins) e i)
      refine ⟨coins', ?_⟩
      rw [List.foldl_cons, hrun, hrun', List.foldl_cons]
      congr 1
      refine effectIn_congr (fun j hj => ?_) _
      exact hcoins j.prev fun he => hnd.1 (he ▸ List.mem_map_of_mem hj)

/-- The output loop. -/
theorem takeOutputs_effect [Crypto] (txid : Hash256) (height : Int) (coinbase : Bool)
    (outs : List (TxOut × Nat)) (w : Wallet) (e : TxEffect) :
    let s := outs.foldl (takeOutput txid height coinbase) (w, e)
    let found := foundOuts txid height coinbase w outs
    s.2.delta = found.foldl (fun d o => d.add o.asset (int64 o.value)) e.delta ∧
      s.2.allOurs = e.allOurs ∧ s.2.qntIn = e.qntIn ∧
      s.2.any = (e.any || !found.isEmpty) ∧ s.1.history = w.history := by
  induction outs generalizing w e with
  | nil => exact ⟨rfl, rfl, rfl, (Bool.or_false _).symm, rfl⟩
  | cons o outs ih =>
      simp only [List.foldl_cons, foundOuts]
      split
      · next hmine =>
          rw [takeOutput_mine hmine]
          obtain ⟨hdelta, hours, hqnt, hany, hhist⟩ := ih
            (w.addCoin ⟨⟨txid, UInt32.ofNat o.2⟩, o.1, height, coinbase, false⟩)
            { e with any := true, delta := e.delta.add o.1.asset (int64 o.1.value) }
          refine ⟨hdelta, hours, hqnt, ?_, hhist.trans (addCoin_spec w _).2.2⟩
          rw [hany, Bool.true_or, List.isEmpty_cons, Bool.not_false, Bool.or_true]
      · next hmine =>
          rw [takeOutput_foreign (Bool.eq_false_iff.mpr hmine)]
          exact ih w _

end Wallet

theorem effectIn_fields (coins : OutPoint → Option WalletCoin) (ins : List TxIn) (e : TxEffect) :
    (ins.foldl (effectIn coins) e).allOurs =
        (e.allOurs && ins.all fun i => (coins i.prev).isSome) ∧
      (ins.foldl (effectIn coins) e).qntIn = e.qntIn + UInt64.ofNat
        (assetValue qntAsset (ins.filterMap fun i => (coins i.prev).map WalletCoin.out)) ∧
      (ins.foldl (effectIn coins) e).any =
        (e.any || ins.any fun i => (coins i.prev).isSome) ∧
      ((∀ a, FitsWord (e.delta.get a)) →
        ∀ a, FitsWord ((ins.foldl (effectIn coins) e).delta.get a)) := by
  induction ins generalizing e with
  | nil =>
      refine ⟨(Bool.and_true _).symm, ?_, (Bool.or_false _).symm, id⟩
      exact (UInt64.add_zero _).symm
  | cons i ins ih =>
      obtain ⟨hours, hqnt, hany, hfits⟩ := ih (effectIn coins e i)
      simp only [List.foldl_cons, List.all_cons, List.any_cons, List.filterMap_cons]
      rw [hours, hqnt, hany]
      rw [effectIn] at hfits ⊢
      cases hc : coins i.prev with
      | none =>
          rw [hc] at hfits
          refine ⟨?_, rfl, ?_, hfits⟩
          · simp only [Option.isSome_none, Bool.false_and, Bool.and_false]
          · simp only [Option.isSome_none, Bool.false_or]
      | some c =>
          rw [hc] at hfits
          refine ⟨?_, ?_, ?_, fun h => hfits (Deltas.get_fits_add h _ _)⟩
          · simp only [Option.isSome_some, Bool.true_and]
          · simp only [Option.map_some]
            rw [assetValue_cons, UInt64.ofNat_add, ← UInt64.add_assoc]
            congr 1
            by_cases hq : c.out.asset = qntAsset
            · have hz : c.out.isQnt = true := Hash256.isZero_iff.mpr hq
              rw [if_pos hz, if_pos hq, UInt64.ofNat_toNat]
            · have hz : ¬ c.out.isQnt = true := fun h => hq (Hash256.isZero_iff.mp h)
              rw [if_neg hz, if_neg hq]
              exact (UInt64.add_zero _).symm
          · simp only [Option.isSome_some, Bool.true_or, Bool.or_true]

theorem foundOuts_delta (found : List TxOut) (d : Deltas) :
    (∀ a, (found.foldl (fun d o => d.add o.asset (int64 o.value)) d).get a ≡
      d.get a + assetValue a found [ZMOD 2 ^ 64]) ∧
    ((∀ a, FitsWord (d.get a)) → ∀ a,
      FitsWord ((found.foldl (fun d o => d.add o.asset (int64 o.value)) d).get a)) := by
  induction found generalizing d with
  | nil =>
      refine ⟨fun a => ?_, id⟩
      show d.get a ≡ d.get a + (0 : Int) [ZMOD 2 ^ 64]
      rw [Int.add_zero]
  | cons o found ih =>
      obtain ⟨hsum, hfits⟩ := ih (d.add o.asset (int64 o.value))
      refine ⟨fun a => (hsum a).trans ?_, fun h => hfits (Deltas.get_fits_add h _ _)⟩
      have hstep : (d.add o.asset (int64 o.value)).get a ≡
          d.get a + ((if o.asset = a then o.value.toNat else 0 : Nat) : Int) [ZMOD 2 ^ 64] := by
        refine (Deltas.get_add_modEq d o.asset a _).trans (Int.ModEq.add_left _ ?_)
        split
        · exact int64_modEq o.value
        · rfl
      rw [assetValue_cons, Nat.cast_add, ← Int.add_assoc]
      exact hstep.add_right _

/-! ## The entry -/

namespace Wallet

/-- The coin map is the unspent coins of a state at the wallet's addresses. -/
def Holds (w : Wallet) (r : StateReader) : Prop :=
  ∀ o, (w.coins.lookup o).map WalletCoin.out =
    ((r.coin o).map Coin.out).filter fun x => w.isMine x.addr

/-- The wallet's coins that a transaction consumes. -/
def consumed (w : Wallet) (r : StateReader) (tx : Transaction) : List TxOut :=
  tx.ins.filterMap fun i => ((r.coin i.prev).map Coin.out).filter fun x => w.isMine x.addr

/-- All inputs are the wallet's own. -/
def OwnsInputs (w : Wallet) (r : StateReader) (tx : Transaction) : Prop :=
  ∀ i ∈ tx.ins, ∃ c, r.coin i.prev = some c ∧ w.isMine c.out.addr = true

variable [Crypto]

/-- The outputs at the wallet's addresses, those it has come to know included. -/
def received (w : Wallet) (tx : Transaction) (height : Int) : List TxOut :=
  tx.outs.filter fun o => (w.scanTx tx height).1.isMine o.addr

/-- The outputs that were the wallet's when the loop came to them. -/
def found (w : Wallet) (tx : Transaction) (height : Int) : List TxOut :=
  foundOuts tx.txid height tx.isCoinbase
    (tx.ins.foldl (takeInput height) (w, { allOurs := !tx.isCoinbase })).1 tx.outs.zipIdx

/-- The change of an asset: outputs to the wallet less its coins consumed. -/
def gain (w : Wallet) (r : StateReader) (tx : Transaction) (height : Int) (a : Hash256) : Int :=
  assetValue a (w.received tx height) - assetValue a (w.consumed r tx)

/-- The outputs of an asset that the loop passed over because their address was
derived only later, on account of another output. -/
def passed (w : Wallet) (tx : Transaction) (height : Int) (a : Hash256) : Int :=
  assetValue a (w.received tx height) - assetValue a (w.found tx height)

/-- An entry that is exact: per asset the change, and the ledger's fee where all
inputs are ours and bring QNT. -/
structure Exact (w : Wallet) (r : StateReader) (tx : Transaction) (height : Int)
    (t : WalletTx) : Prop where
  qnt : t.delta = w.gain r tx height qntAsset
  tokens : ∀ a, a ≠ qntAsset → (t.tokenDelta.lookup a).getD 0 = w.gain r tx height a
  fee : ∀ h genesis verifySigs st fee, checkTx r tx h genesis verifySigs = .ok (st, fee) →
    w.OwnsInputs r tx → 0 < assetValue qntAsset (w.consumed r tx) → t.fee = fee

/-- When an entry is exact: every change fits a signed word, no output of ours
is passed over, and a fee fits a signed word too. Inputs whose QNT adds up to
zero in 64 bits leave the fee an earlier entry had. -/
structure Fits (w : Wallet) (r : StateReader) (tx : Transaction) (height : Int) : Prop where
  change : ∀ a, FitsWord (w.gain r tx height a)
  none_passed : ∀ a, (2 ^ 64 : Int) ∣ w.passed tx height a
  fee : ∀ h genesis verifySigs st fee, checkTx r tx h genesis verifySigs = .ok (st, fee) →
    w.OwnsInputs r tx → 0 < assetValue qntAsset (w.consumed r tx) →
      if assetValue qntAsset (w.consumed r tx) % 2 ^ 64 = 0 then
        ((w.history.lookup tx.txid).getD default).fee = fee
      else fee.toNat < 2 ^ 63

section Entry

variable {w : Wallet} {r : StateReader} {tx : Transaction} {height time : Int}

omit [Crypto] in
theorem consumed_eq (hholds : w.Holds r) : w.consumed r tx =
    tx.ins.filterMap fun i => (fn w.coins i.prev).map WalletCoin.out := by
  rw [consumed]
  congr 1
  funext i
  exact (hholds i.prev).symm

omit [Crypto] in
/-- When all inputs are ours, what is consumed is the coins spent. -/
theorem consumed_owned {coins : List Coin} (howns : w.OwnsInputs r tx)
    (hcoins : tx.ins.map (fun i => r.coin i.prev) = coins.map some) :
    w.consumed r tx = coins.map Coin.out := by
  rw [consumed]
  rw [OwnsInputs] at howns
  generalize tx.ins = ins at howns hcoins
  induction ins generalizing coins with
  | nil =>
      rw [List.map_nil, eq_comm, List.map_eq_nil_iff] at hcoins
      rw [hcoins, List.filterMap_nil, List.map_nil]
  | cons i ins ih =>
      cases coins with
      | nil => cases hcoins
      | cons c coins =>
          rw [List.map_cons, List.map_cons, List.cons.injEq] at hcoins
          obtain ⟨c', hc', hmine⟩ := howns i (List.mem_cons_self ..)
          obtain rfl : c' = c := Option.some.inj (hc'.symm.trans hcoins.1)
          have htail := ih (fun j hj => howns j (List.mem_cons_of_mem i hj)) hcoins.2
          rw [List.filterMap_cons, hc', Option.map_some, Option.filter_some, if_pos hmine, htail,
            List.map_cons]

omit [Crypto] in
/-- What the inputs take, in the wallet's words and as amounts. -/
theorem inValue_modEq (coins : OutPoint → Option WalletCoin) (a : Hash256) (ins : List TxIn) :
    (ins.map (inValue coins a)).sum ≡
      assetValue a (ins.filterMap fun i => (coins i.prev).map WalletCoin.out) [ZMOD 2 ^ 64] := by
  induction ins with
  | nil => rfl
  | cons i ins ih =>
      rw [List.map_cons, List.sum_cons, List.filterMap_cons, inValue]
      cases coins i.prev with
      | none =>
          rw [Int.zero_add]
          exact ih
      | some c =>
          simp only [Option.map_some]
          rw [assetValue_cons, Nat.cast_add]
          refine Int.ModEq.add ?_ ih
          split
          · exact int64_modEq _
          · rfl

/-- What the scan has found, against what there was to find. -/
theorem scan_effect (height : Int) (hnd : (tx.ins.map TxIn.prev).Nodup) (hholds : w.Holds r) :
    let e := (w.scanTx tx height).2
    (∀ a, FitsWord (e.delta.get a) ∧
      e.delta.get a ≡ w.gain r tx height a - w.passed tx height a [ZMOD 2 ^ 64]) ∧
    (e.allOurs = true ↔ tx.isCoinbase = false ∧ w.OwnsInputs r tx) ∧
    e.qntIn = UInt64.ofNat (assetValue qntAsset (w.consumed r tx)) ∧
    (e.any = true ↔ w.consumed r tx ≠ [] ∨ w.found tx height ≠ []) ∧
    (w.scanTx tx height).1.history = w.history := by
  obtain ⟨coins, hins⟩ := takeInputs_effect height (w := w) hnd
    { allOurs := !tx.isCoinbase }
  obtain ⟨hours, hqnt, hany, hfits⟩ :=
    effectIn_fields (fn w.coins) tx.ins { allOurs := !tx.isCoinbase }
  have hsum := fun a => effectIn_delta (fn w.coins) a tx.ins { allOurs := !tx.isCoinbase }
  have hfound : w.found tx height =
      foundOuts tx.txid height tx.isCoinbase { w with coins } tx.outs.zipIdx := by
    rw [found, hins]
  have hscan : w.scanTx tx height = tx.outs.zipIdx.foldl
      (takeOutput tx.txid height tx.isCoinbase) ({ w with coins },
        tx.ins.foldl (effectIn (fn w.coins)) { allOurs := !tx.isCoinbase }) := by
    rw [scanTx, hins]
  obtain ⟨hdelta, hours', hqnt', hany', hhist⟩ := takeOutputs_effect tx.txid
    height tx.isCoinbase tx.outs.zipIdx { w with coins }
    (tx.ins.foldl (effectIn (fn w.coins)) { allOurs := !tx.isCoinbase })
  rw [← hfound] at hdelta hany'
  rw [← hscan] at hdelta hours' hqnt' hany' hhist
  have hstart : ∀ a, ({ allOurs := !tx.isCoinbase } : TxEffect).delta.get a = 0 := by
    intro a
    rw [Deltas.get, AList.lookup_empty]
    rfl
  obtain ⟨hmod, hfits'⟩ := foundOuts_delta (w.found tx height)
    (tx.ins.foldl (effectIn (fn w.coins)) { allOurs := !tx.isCoinbase }).delta
  refine ⟨fun a => ⟨?_, ?_⟩, ?_, ?_, ?_, hhist⟩
  · rw [hdelta]
    refine hfits' (hfits fun a => ?_) a
    rw [hstart a]
    exact ⟨by decide, by decide⟩
  · have hin := (hsum a).trans (Int.ModEq.sub_left _ (inValue_modEq (fn w.coins) a tx.ins))
    rw [hstart a, Int.zero_sub, ← consumed_eq hholds] at hin
    rw [hdelta]
    have hsplit : w.gain r tx height a - w.passed tx height a =
        -(assetValue a (w.consumed r tx) : Int) + assetValue a (w.found tx height) := by
      rw [gain, passed]
      ring
    rw [hsplit]
    exact (hmod a).trans (hin.add_right _)
  · rw [hours', hours]
    have hown : (tx.ins.all fun i => (fn w.coins i.prev).isSome) = true ↔ w.OwnsInputs r tx := by
      rw [List.all_eq_true]
      refine forall₂_congr fun i _ => ?_
      have hi := congrArg Option.isSome (hholds i.prev)
      rw [Option.isSome_map] at hi
      show (w.coins.lookup i.prev).isSome = true ↔ _
      rw [hi]
      cases r.coin i.prev with
      | none => simp
      | some c =>
          simp only [Option.map_some, Option.filter_some, Option.some.injEq, exists_eq_left']
          split <;> simp [*]
    rw [Bool.and_eq_true_iff, hown, Bool.not_eq_true']
  · rw [hqnt', hqnt, ← consumed_eq hholds]
    exact UInt64.zero_add _
  · have hin : (tx.ins.any fun i => (fn w.coins i.prev).isSome) = true ↔
        w.consumed r tx ≠ [] := by
      rw [consumed_eq hholds, Ne, List.filterMap_eq_nil_iff, List.any_eq_true]
      simp only [Option.map_eq_none_iff, not_forall, Option.isSome_iff_ne_none, exists_prop]
    rw [hany', hany, Bool.or_eq_true_iff, Bool.false_or, hin, Bool.not_eq_true',
      List.isEmpty_eq_false_iff]

theorem opsQnt_modEq {first : OutPoint} {ops : List TxOp} {k : Nat} (q : Int)
    (hids : ∀ e ∈ ops.zipIdx k, qntAsset ∉ e.1.issued (tokenId first (UInt32.ofNat e.2)))
    (htoken : ∀ op ∈ ops, ∀ t, op.poolToken = some t → t ≠ qntAsset) :
    ops.foldl (fun q op => wrap64 (q + opQnt op)) q ≡ q + opsFlow first k ops [ZMOD 2 ^ 64] := by
  induction ops generalizing k q with
  | nil =>
      show q ≡ q + (0 : Int) [ZMOD 2 ^ 64]
      rw [Int.add_zero]
  | cons op ops ih =>
      rw [List.zipIdx_cons] at hids
      have hop := opQnt_modEq (hids _ (List.mem_cons_self ..)) (htoken op (List.mem_cons_self ..))
      rw [List.foldl_cons, opsFlow, List.zipIdx_cons, List.map_cons, List.sum_cons,
        ← Int.add_assoc]
      refine (ih (wrap64 (q + opQnt op)) (fun e he => hids e (List.mem_cons_of_mem _ he))
        fun o ho => htoken o (List.mem_cons_of_mem op ho)).trans ?_
      exact ((wrap64_modEq _).trans (hop.add_left q)).add_right _

/-- The fee worked out for our own transaction, when the ledger's is `fee`. -/
theorem ownFee_eq {q : Nat} {fee : Amount}
    (hids : ∀ e ∈ tx.ops.zipIdx, qntAsset ∉ e.1.issued (tokenId tx.firstIn (UInt32.ofNat e.2)))
    (htoken : ∀ op ∈ tx.ops, ∀ t, op.poolToken = some t → t ≠ qntAsset)
    (hfee : (fee.toNat : Int) =
      q - assetValue qntAsset tx.outs + opsFlow tx.firstIn 0 tx.ops) :
    ownFee (UInt64.ofNat q) tx = if fee.toNat < 2 ^ 63 then fee else 0 := by
  have hword : ∀ n : Nat, int64 (UInt64.ofNat n) ≡ n [ZMOD 2 ^ 64] := by
    intro n
    refine (int64_modEq _).trans ?_
    rw [UInt64.toNat_ofNat']
    exact Int.natCast_modEq_iff.mpr (Nat.mod_modEq n _)
  generalize hf : wrap64 (wrap64 (int64 (UInt64.ofNat q) + opsQnt tx.ops) -
    int64 tx.totalQntOut) = f
  have hmod : f ≡ fee.toNat [ZMOD 2 ^ 64] := by
    have hops := opsQnt_modEq 0 hids htoken
    rw [Int.zero_add] at hops
    have hin := (wrap64_modEq _).trans ((hword q).add hops)
    have hall := (wrap64_modEq _).trans (hin.sub (totalQntOut_eq tx ▸ hword _))
    rw [hfee, ← hf]
    refine hall.trans ?_
    rw [show (q : Int) + opsFlow tx.firstIn 0 tx.ops - assetValue qntAsset tx.outs =
      q - assetValue qntAsset tx.outs + opsFlow tx.firstIn 0 tx.ops by ring]
  have hfits : FitsWord f := hf ▸ wrap64_fits _
  have hlt := fee.toNat_lt
  have hown : ownFee (UInt64.ofNat q) tx = if f > 0 then UInt64.ofNat f.toNat else 0 := by
    rw [← hf, ownFee]
  clear hf hfee
  rw [hown]
  by_cases hsmall : fee.toNat < 2 ^ 63
  · have heq : f = fee.toNat := eq_of_modEq hfits (by rw [FitsWord]; omega) hmod
    rw [if_pos hsmall]
    by_cases hpos : f > 0
    · rw [if_pos hpos, heq, Int.toNat_natCast, UInt64.ofNat_toNat]
    · rw [if_neg hpos, ← UInt64.toNat_inj]
      show 0 = fee.toNat
      omega
  · obtain ⟨k, hk⟩ := hmod.dvd
    rw [FitsWord] at hfits
    rw [if_neg hsmall, if_neg (by omega)]

/-- What a processed transaction is recorded as is exact just when it fits. -/
theorem processTx_exact {ew : Bool} {x : Amount} (hbasic : checkTxBasic tx ew = .ok x)
    (hholds : w.Holds r)
    (hids : ∀ e ∈ tx.ops.zipIdx, qntAsset ∉ e.1.issued (tokenId tx.firstIn (UInt32.ofNat e.2)))
    (htouch : w.consumed r tx ≠ [] ∨ w.found tx height ≠ []) :
    ∃ t, (w.processTx tx height time).history.lookup tx.txid = some t ∧
      (w.Exact r tx height t ↔ w.Fits r tx height) := by
  obtain ⟨hdelta, hours, hqnt, hany, hhist⟩ := scan_effect height
    (checkTxBasic_nodup hbasic) hholds
  have hshow : w.processTx tx height time = { (w.scanTx tx height).1 with
      history := (w.scanTx tx height).1.history.insert tx.txid
        (WalletTx.update (w.history.lookup tx.txid) tx.txid tx height time
          (w.scanTx tx height).2) } := by
    rw [processTx]
    simp only [hany.mpr htouch, Bool.not_true, Bool.false_eq_true, if_false, hhist]
  generalize (w.scanTx tx height).2 = e at hdelta hours hqnt hshow
  refine ⟨WalletTx.update (w.history.lookup tx.txid) tx.txid tx height time e, ?_, ?_⟩
  · rw [hshow]
    exact AList.lookup_insert _
  have hget : ∀ a, e.delta.get a = w.gain r tx height a ↔
      FitsWord (w.gain r tx height a) ∧ (2 ^ 64 : Int) ∣ w.passed tx height a := by
    intro a
    obtain ⟨hfits, hmod⟩ := hdelta a
    refine ⟨fun h => ⟨h ▸ hfits, ?_⟩, fun h => eq_of_modEq hfits h.1 ?_⟩
    · rw [h] at hmod
      have := hmod.dvd
      rwa [sub_sub_cancel_left, dvd_neg] at this
    · refine hmod.trans ?_
      have := (Int.modEq_zero_iff_dvd.mpr h.2).sub_left (w.gain r tx height a)
      rwa [Int.sub_zero] at this
  have hfee : ∀ h genesis verifySigs st fee,
      checkTx r tx h genesis verifySigs = .ok (st, fee) → w.OwnsInputs r tx →
      0 < assetValue qntAsset (w.consumed r tx) →
      ((WalletTx.update (w.history.lookup tx.txid) tx.txid tx height time e).fee = fee ↔
        if assetValue qntAsset (w.consumed r tx) % 2 ^ 64 = 0 then
          ((w.history.lookup tx.txid).getD default).fee = fee
        else fee.toNat < 2 ^ 63) := by
    intro h genesis verifySigs st fee hcheck howns _
    obtain ⟨coins, hcoins, hcb, hflow⟩ := checkTx_fee hcheck
    have hconsumed := consumed_owned howns hcoins
    rw [← hconsumed] at hflow
    have hallOurs := hours.mpr ⟨hcb, howns⟩
    have hpos : e.qntIn > 0 ↔ ¬ assetValue qntAsset (w.consumed r tx) % 2 ^ 64 = 0 := by
      rw [hqnt, gt_iff_lt, UInt64.lt_iff_toNat_lt, UInt64.toNat_ofNat']
      show 0 < _ ↔ _
      omega
    have hvalue : (WalletTx.update (w.history.lookup tx.txid) tx.txid tx height time e).fee =
        if e.allOurs ∧ e.qntIn > 0 then ownFee e.qntIn tx
        else ((w.history.lookup tx.txid).getD default).fee := rfl
    rw [hvalue]
    by_cases hz : assetValue qntAsset (w.consumed r tx) % 2 ^ 64 = 0
    · rw [if_pos hz, if_neg fun hc => hpos.mp hc.2 hz]
    · rw [if_neg hz, if_pos ⟨hallOurs, hpos.mpr hz⟩, hqnt,
        ownFee_eq hids (checkTxBasic_token hbasic) hflow]
      by_cases hsmall : fee.toNat < 2 ^ 63
      · rw [if_pos hsmall]
        exact iff_of_true rfl hsmall
      · rw [if_neg hsmall]
        refine ⟨fun h0 => ?_, fun hs => absurd hs hsmall⟩
        rw [← h0]
        decide
  have htokens : ∀ a, a ≠ qntAsset → ((WalletTx.update (w.history.lookup tx.txid) tx.txid tx
      height time e).tokenDelta.lookup a).getD 0 = e.delta.get a := by
    intro a ha
    show (e.delta.tokens.lookup a).getD 0 = _
    rw [Deltas.tokens_lookup]
    by_cases hz : e.delta.get a = 0
    · rw [if_neg fun h => h.2 hz, hz]
      rfl
    · rw [if_pos ⟨ha, hz⟩]
      rfl
  constructor
  · intro h
    have hall : ∀ a, e.delta.get a = w.gain r tx height a := by
      intro a
      by_cases ha : a = qntAsset
      · rw [ha]
        exact h.qnt
      · exact (htokens a ha).symm.trans (h.tokens a ha)
    exact ⟨fun a => ((hget a).mp (hall a)).1, fun a => ((hget a).mp (hall a)).2,
      fun h' g v st fee hc ho hp => (hfee h' g v st fee hc ho hp).mp (h.fee h' g v st fee hc ho hp)⟩
  · intro h
    have hall : ∀ a, e.delta.get a = w.gain r tx height a :=
      fun a => (hget a).mpr ⟨h.change a, h.none_passed a⟩
    refine ⟨hall qntAsset, fun a ha => ?_,
      fun h' g v st fee hc ho hp => (hfee h' g v st fee hc ho hp).mpr (h.fee h' g v st fee hc ho hp)⟩
    exact (htokens a ha).trans (hall a)

end Entry

end Wallet

/-! ## A token in large units -/

/-- A coin of a token, at the address of the key that is all zero. -/
def tokenState (v : Amount) : StateReader where
  coin := fun o => if o = ⟨5, 0⟩ then some ⟨⟨v, 9, 0⟩, 0, false⟩ else none
  pool := fun _ => none
  token := fun _ => none

/-- All of it to another address. -/
def tokenPayment (v : Amount) : Transaction where
  ins := [⟨5, 0⟩]
  outs := [⟨v, 9, 7⟩]
  witness := [.falcon (List.replicate falconPkBytes 0) [1]]

/-- The wallet paid: it has one address, and no coins yet. -/
def payee : Wallet := Wallet.deriveNext { keyAddr := fun _ => 7 }

theorem payee_holds (v : Amount) : payee.Holds (tokenState v) := by
  intro o
  have hmine : payee.isMine 0 = false := by decide +kernel
  show _ = ((if o = ⟨5, 0⟩ then some ⟨⟨v, 9, 0⟩, 0, false⟩ else none : Option Coin).map
    Coin.out).filter fun x => payee.isMine x.addr
  split
  · rw [Option.map_some, Option.filter_some, hmine]
    rfl
  · rfl

/-- A payment of 10^19 units is recorded as a loss. -/
theorem entry_overflows :
    letI := plainCrypto
    let tx := tokenPayment maxTokenSupply
    let r := tokenState maxTokenSupply
    checkTxBasic tx true = .ok 0 ∧ (∃ st, checkTx r tx 1 0 true = .ok (st, 0)) ∧
      payee.Holds r ∧ ∀ t, (payee.processTx tx 1 0).history.lookup tx.txid = some t →
        ¬ payee.Exact r tx 1 t := by
  let _ := plainCrypto
  have hbasic : (checkTxBasic (tokenPayment maxTokenSupply) true).toOption = some 0 := by
    decide +kernel
  have hfee : (checkTx (tokenState maxTokenSupply) (tokenPayment maxTokenSupply) 1 0
      true).toOption.map Prod.snd = some 0 := by decide +kernel
  have hentry : ((payee.processTx (tokenPayment maxTokenSupply) 1 0).history.lookup
      (tokenPayment maxTokenSupply).txid).map (fun t => (t.tokenDelta.lookup 9).getD 0) =
      some (-8446744073709551616) := by decide +kernel
  have hgain : payee.gain (tokenState maxTokenSupply) (tokenPayment maxTokenSupply) 1 9 =
      10000000000000000000 := by decide +kernel
  refine ⟨?_, ?_, payee_holds _, fun t ht h => ?_⟩
  · cases hc : checkTxBasic (tokenPayment maxTokenSupply) true with
    | error e =>
        rw [hc] at hbasic
        cases hbasic
    | ok v =>
        rw [hc] at hbasic
        cases hbasic
        rfl
  · cases hc : checkTx (tokenState maxTokenSupply) (tokenPayment maxTokenSupply) 1 0 true with
    | error e =>
        rw [hc] at hfee
        cases hfee
    | ok v =>
        rw [hc] at hfee
        exact ⟨v.1, congrArg (fun f => Except.ok (v.1, f)) (Option.some.inj hfee)⟩
  · rw [ht] at hentry
    have htoken := h.tokens 9 (by decide)
    rw [hgain] at htoken
    exact absurd ((Option.some.inj hentry).symm.trans htoken) (by decide)

/-- A payment of 5 units. -/
theorem processTx_exact_small :
    letI := plainCrypto
    ∃ t, (payee.processTx (tokenPayment 5) 1 0).history.lookup (tokenPayment 5).txid = some t ∧
      (payee.Exact (tokenState 5) (tokenPayment 5) 1 t ↔
        payee.Fits (tokenState 5) (tokenPayment 5) 1) := by
  let _ := plainCrypto
  have hbasic : (checkTxBasic (tokenPayment 5) true).isOk = true := by decide +kernel
  have hfound : payee.found (tokenPayment 5) 1 ≠ [] := by decide +kernel
  cases hc : checkTxBasic (tokenPayment 5) true with
  | error e =>
      rw [hc] at hbasic
      cases hbasic
  | ok x =>
      exact Wallet.processTx_exact hc (payee_holds 5)
        (fun e he => absurd he List.not_mem_nil) (.inr hfound)

end QuantCore
