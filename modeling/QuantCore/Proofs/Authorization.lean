import QuantCore.Crypto.Instances
import QuantCore.Proofs.Overlay

/-!
# Nothing is spent unsigned

A reference saves a signature by pointing at an earlier input. The three checks
on it leave no room: it points strictly back, what it points at is not itself a
reference, and both inputs spend coins of one address. So every input is at
most one step away from a signature that was verified, and the signature is
over this transaction on this network, because the hash it covers is computed
once, before the loop.

The op that names an address of its own, `OpMessage`, is tied to an input by
`apply`; through that input it is signed as well.
-/

namespace QuantCore

open Maps

variable [Crypto]

/-- Input `j` carries a valid signature of `addr`'s key over the transaction. -/
def SignedAt (tx : Transaction) (genesis : Hash256) (j : Nat) (addr : Hash256) : Prop :=
  ∃ pk sig, tx.witness[j]? = some (.falcon pk sig) ∧ addressHash pk = addr ∧
    falconVerify pk sig (signatureHash genesis tx.txid) = true

/-- Some input does. -/
def Signed (tx : Transaction) (genesis addr : Hash256) : Prop :=
  ∃ j, SignedAt tx genesis j addr

/-! ## The witness loop -/

/-- Every round of the loop passed, each at its own index. -/
theorem checkWitnesses_round {tx : Transaction} {coins : List Coin} {sighash : Hash256}
    {ws : List Witness} {k : Nat} (h : checkWitnesses tx coins sighash k ws = .ok ())
    {i : Nat} {w : Witness} (hi : ws[i]? = some w) :
    checkWitness tx coins sighash (k + i) w = .ok () := by
  induction ws generalizing k i with
  | nil => cases hi
  | cons v ws ih =>
      rw [checkWitnesses] at h
      split at h
      · cases h
      next hv =>
      cases i with
      | zero =>
          rw [List.getElem?_cons_zero] at hi
          cases hi
          exact hv
      | succ i =>
          rw [List.getElem?_cons_succ] at hi
          have := ih h hi
          rwa [Nat.add_right_comm] at this

theorem verifyWitness_round {tx : Transaction} {coins : List Coin} {genesis : Hash256}
    (h : verifyWitness tx coins genesis = .ok ()) :
    tx.witness.length = tx.ins.length ∧ ∀ i w, tx.witness[i]? = some w →
      checkWitness tx coins (signatureHash genesis tx.txid) i w = .ok () := by
  rw [verifyWitness] at h
  split at h
  · cases h
  next hlen =>
  refine ⟨not_not.mp hlen, fun i w hw => ?_⟩
  have := checkWitnesses_round h hw
  rwa [Nat.zero_add] at this

/-- A signature that passed its round is one of the coin's own address. -/
theorem signedAt_of_falcon {tx : Transaction} {coins : List Coin} {genesis : Hash256}
    {i : Nat} {pk sig : Bytes} (hw : tx.witness[i]? = some (.falcon pk sig))
    (h : checkWitness tx coins (signatureHash genesis tx.txid) i (.falcon pk sig) = .ok ()) :
    SignedAt tx genesis i (addrAt coins i) := by
  rw [checkWitness] at h
  split at h
  · cases h
  next haddr =>
  split at h
  · cases h
  next hver =>
  exact ⟨pk, sig, hw, not_not.mp haddr, by simpa using hver⟩

theorem verifyWitness_signedAt {tx : Transaction} {coins : List Coin} {genesis : Hash256}
    (h : verifyWitness tx coins genesis = .ok ()) {i : Nat} (hi : i < tx.ins.length) :
    ∃ j, j ≤ i ∧ SignedAt tx genesis j (addrAt coins i) := by
  obtain ⟨hlen, hround⟩ := verifyWitness_round h
  have hget : ∀ k, k < tx.witness.length → ∃ w, tx.witness[k]? = some w := fun k hk =>
    ⟨tx.witness[k], List.getElem?_eq_getElem hk⟩
  obtain ⟨w, hw⟩ := hget i (by omega)
  have hi' := hround i w hw
  cases w with
  | falcon pk sig => exact ⟨i, Nat.le_refl i, signedAt_of_falcon hw hi'⟩
  | ref input =>
      rw [checkWitness] at hi'
      split at hi'
      · cases hi'
      next hlt =>
      split at hi'
      · cases hi'
      next href =>
      split at hi'
      · cases hi'
      next haddr =>
      obtain ⟨w', hw'⟩ := hget input.toNat (by omega)
      cases w' with
      | ref r => exact absurd (by rw [isRefAt, hw']) href
      | falcon pk sig =>
          refine ⟨input.toNat, by omega, ?_⟩
          rw [← not_not.mp haddr]
          exact signedAt_of_falcon hw' (hround input.toNat _ hw')

/-! ## What an accepted transaction consumes -/

omit [Crypto] in
theorem addrAt_of_getElem? {coins : List Coin} {i : Nat} {c : Coin}
    (h : coins[i]? = some c) : addrAt coins i = c.out.addr := by
  rw [addrAt, List.getD_eq_getElem?_getD, h]
  rfl

/-- A message that was let through names the address of an input. -/
theorem applyOps_message {r : StateReader} {tx : Transaction} {height : UInt64}
    {coins : List Coin} {i : UInt32} {ops : List TxOp} {st st' : OpState}
    (h : applyOps r tx height coins i ops st = .ok st') {m : OpMessage}
    (hm : TxOp.message m ∈ ops) : ∃ c ∈ coins, c.out.addr = m.sender := by
  induction ops generalizing i st with
  | nil => cases hm
  | cons op ops ih =>
      rw [applyOps] at h
      split at h
      · cases h
      next st₁ h₁ =>
      rcases List.mem_cons.mp hm with rfl | hm
      · rw [applyOp] at h₁
        split at h₁
        · next hany =>
            obtain ⟨c, hc, he⟩ := List.any_eq_true.mp hany
            exact ⟨c, hc, beq_iff_eq.mp he⟩
        · cases h₁
      · exact ih h hm

namespace LedgerView

omit [Crypto] in
/-- Spending one input leaves every other coin where it is. -/
theorem spendInput_coin_of_ne (v : LedgerView) {o p : OutPoint} (h : o ≠ p) :
    (v.spendInput p).coin o = v.coin o := by
  rw [spendInput]
  split
  · simp only [coin, lookup_erase_ite, Finset.mem_insert, h, if_false, false_or]
  · simp only [coin, AList.mem_insert, h, false_or]

omit [Crypto] in
theorem spendInputs_coin_of_notMem {l : List OutPoint} {v : LedgerView} {o : OutPoint}
    (h : o ∉ l) : (l.foldl spendInput v).coin o = v.coin o := by
  induction l generalizing v with
  | nil => rfl
  | cons p l ih =>
      rw [List.mem_cons, not_or] at h
      rw [List.foldl_cons, ih h.2, v.spendInput_coin_of_ne h.1]

omit [Crypto] in
theorem addCoins_isSome {v : LedgerView} {o : OutPoint} (h : (v.coin o).isSome)
    (l : List (OutPoint × Coin)) : ((v.addCoins l).coin o).isSome := by
  rw [coin_eq] at h
  rw [addCoins_coin_eq]
  split
  · next hs =>
      rw [if_pos hs] at h
      exact h
  · next hs =>
      rw [if_neg hs] at h
      by_cases ho : o ∈ l.map Prod.fst
      · obtain ⟨c, hc⟩ := exists_updateAll_of_mem ho
        rw [hc]
        rfl
      · rw [updateAll_of_notMem _ ho]
        exact h

/-- A coin that is gone after a transaction was one of its inputs. -/
theorem mem_ins_of_commit_none {v : LedgerView} {tx : Transaction} {height : UInt64}
    {st : OpState} {o : OutPoint} (ho : (v.coin o).isSome)
    (h : (v.commit tx height st).coin o = none) : o ∈ tx.ins.map TxIn.prev := by
  by_contra hn
  have hput : ∀ (l : List (Hash256 × Option Pool)) (w : LedgerView),
      (w.putPools l).coin = w.coin := by
    intro l
    induction l with
    | nil => intro w; rfl
    | cons e l ih => intro w; exact ih (w.putPool e.1 e.2)
  rw [← spendInputs_coin_of_notMem hn] at ho
  have hadd := addCoins_isSome ho (newCoins tx.txid tx.outs height false)
  have hc : (v.commit tx height st).coin o =
      ((((tx.ins.map TxIn.prev).foldl spendInput v).addCoins
        (newCoins tx.txid tx.outs height false)).coin o) :=
    congrFun (hput (pairs st.touched) _) o
  rw [hc] at h
  rw [h] at hadd
  cases hadd

end LedgerView

/-! ## Authorization -/

/-- A verified witness section leaves no input unsigned, and what a transaction
accepted with signatures consumes, and the addresses it speaks for, are signed
by their own keys over this transaction and this genesis. -/
theorem spends_are_signed (tx : Transaction) (genesis : Hash256) :
    (∀ coins : List Coin, coins.length = tx.ins.length →
      verifyWitness tx coins genesis = .ok () →
      ∀ i c, coins[i]? = some c → ∃ j, j ≤ i ∧ SignedAt tx genesis j c.out.addr) ∧
    (∀ (v v' : LedgerView) (height : UInt64) (fee : Amount),
      v.apply tx height genesis true = (v', .ok fee) →
      (∀ i ∈ tx.ins, ∃ c, v.coin i.prev = some c ∧ Signed tx genesis c.out.addr) ∧
      (∀ o c, v.coin o = some c → v'.coin o = none →
        o ∈ tx.ins.map TxIn.prev ∧ Signed tx genesis c.out.addr) ∧
      (∀ m, TxOp.message m ∈ tx.ops → Signed tx genesis m.sender)) := by
  have hindex : ∀ coins : List Coin, coins.length = tx.ins.length →
      verifyWitness tx coins genesis = .ok () →
      ∀ i c, coins[i]? = some c → ∃ j, j ≤ i ∧ SignedAt tx genesis j c.out.addr := by
    intro coins hlen hv i c hc
    obtain ⟨hi, -⟩ := List.getElem?_eq_some_iff.mp hc
    rw [← addrAt_of_getElem? hc]
    exact verifyWitness_signedAt hv (by omega)
  refine ⟨hindex, fun v v' height fee h => ?_⟩
  rw [LedgerView.apply] at h
  split at h
  · cases h
  next st fee' hcheck =>
  cases h
  obtain ⟨-, -, coins, hcoins, hops, -, hver⟩ := checkTx_ok hcheck
  have hlen : coins.length = tx.ins.length := hcoins.length_eq.symm
  have hcoin : ∀ c ∈ coins, Signed tx genesis c.out.addr := by
    intro c hc
    obtain ⟨i, hi⟩ := List.getElem?_of_mem hc
    obtain ⟨j, -, hj⟩ := hindex coins hlen (hver rfl) i c hi
    exact ⟨j, hj⟩
  have hins : ∀ i ∈ tx.ins, ∃ c, v.coin i.prev = some c ∧ Signed tx genesis c.out.addr := by
    intro i hi
    obtain ⟨k, hk⟩ := List.getElem?_of_mem hi
    obtain ⟨hklt, hkeq⟩ := List.getElem?_eq_some_iff.mp hk
    have hsp := hcoins.get hklt (by omega)
    rw [List.get_eq_getElem, List.get_eq_getElem, hkeq] at hsp
    exact ⟨coins[k], hsp.1, hcoin _ (List.getElem_mem _)⟩
  refine ⟨hins, fun o c hc hnone => ?_, fun m hm => ?_⟩
  · have ho := LedgerView.mem_ins_of_commit_none (by rw [hc]; rfl) hnone
    obtain ⟨i, hi, rfl⟩ := List.mem_map.mp ho
    obtain ⟨c', hc', hs⟩ := hins i hi
    rw [hc] at hc'
    cases hc'
    exact ⟨ho, hs⟩
  · obtain ⟨c, hc, he⟩ := applyOps_message hops hm
    rw [← he]
    exact hcoin c hc

/-! ## A transaction with a shared signature -/

/-- Two coins of one address, the second spent by reference to the first. -/
def sharedTx : Transaction where
  ins := [⟨⟨1, 0⟩⟩, ⟨⟨1, 1⟩⟩]
  outs := [⟨30000, qntAsset, 5⟩]
  ops := [.message ⟨0, 5, 0, [0x68, 0x69]⟩]
  witness := [.falcon (List.replicate falconPkBytes 0) [1], .ref 0]

def sharedBase : StateReader where
  coin := fun o => if o.txid = 1 then some ⟨⟨20000, qntAsset, 0⟩, 1, false⟩ else none
  token := fun _ => none
  pool := fun _ => none

omit [Crypto] in
theorem spends_are_signed_shared :
    letI := flatCrypto
    (LedgerView.apply { base := sharedBase } sharedTx 2 0 true).2 = .ok 10000 ∧
      ∀ i ∈ sharedTx.ins, ∃ c, LedgerView.coin { base := sharedBase } i.prev = some c ∧
        Signed sharedTx 0 c.out.addr := by
  let _ := flatCrypto
  have h : (LedgerView.apply { base := sharedBase } sharedTx 2 0 true).2 = .ok 10000 := by
    decide +kernel
  exact ⟨h, ((spends_are_signed sharedTx 0).2 _ _ 2 10000 (Prod.ext rfl h)).1⟩

end QuantCore
