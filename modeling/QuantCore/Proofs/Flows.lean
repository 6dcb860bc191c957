import Mathlib.Algebra.GroupWithZero.Nat
import Mathlib.Algebra.Ring.Int.Defs
import QuantCore.Proofs.Ledger

/-!
# Flows

What a list of outputs, an op and a whole transaction move of one asset. The two
sides of the balance are sums, asset by asset, and the check compares them: they
agree for every asset but QNT, where the difference is the fee.
-/

namespace QuantCore

open Maps

/-! ## Outputs -/

/-- The total of one asset among outputs. -/
def assetValue (a : Hash256) (outs : List TxOut) : Nat :=
  (outs.map fun o => if o.asset = a then o.value.toNat else 0).sum

theorem assetValue_append (a : Hash256) (l₁ l₂ : List TxOut) :
    assetValue a (l₁ ++ l₂) = assetValue a l₁ + assetValue a l₂ := by
  rw [assetValue, List.map_append, List.sum_append]
  rfl

theorem assetValue_cons (a : Hash256) (o : TxOut) (l : List TxOut) :
    assetValue a (o :: l) = (if o.asset = a then o.value.toNat else 0) + assetValue a l := rfl

theorem assetValue_eq_zero {a : Hash256} {l : List TxOut} (h : ∀ o ∈ l, o.asset ≠ a) :
    assetValue a l = 0 := by
  induction l with
  | nil => rfl
  | cons o l ih =>
      rw [assetValue_cons, if_neg (h o List.mem_cons_self),
        ih fun x hx => h x (List.mem_cons_of_mem _ hx)]

theorem isQnt_iff {o : TxOut} : o.isQnt = true ↔ o.asset = qntAsset := Hash256.isZero_iff

theorem totalQntOut_eq (tx : Transaction) :
    tx.totalQntOut = UInt64.ofNat (assetValue qntAsset tx.outs) := by
  have hfold : ∀ (outs : List TxOut) (s : Amount),
      outs.foldl (fun s o => if o.isQnt then s + o.value else s) s =
        s + UInt64.ofNat (assetValue qntAsset outs) := by
    intro outs
    induction outs with
    | nil => exact fun s => (UInt64.add_zero s).symm
    | cons o outs ih =>
        intro s
        rw [List.foldl_cons, ih, assetValue_cons, UInt64.ofNat_add]
        cases hq : o.isQnt with
        | true =>
            rw [if_pos rfl, if_pos (isQnt_iff.mp hq), UInt64.ofNat_toNat, UInt64.add_assoc]
        | false =>
            have ho : o.asset ≠ qntAsset := fun he =>
              absurd (hq.symm.trans (isQnt_iff.mpr he)) Bool.false_ne_true
            rw [if_neg Bool.false_ne_true, if_neg ho, show UInt64.ofNat 0 = 0 from rfl,
              UInt64.zero_add]
  rw [Transaction.totalQntOut, hfold, UInt64.zero_add]

/-! ## Both sides of the balance -/

/-- What a list of flows moves of an asset. -/
def flowSum (a : Hash256) (l : List (Hash256 × Nat)) : Nat :=
  (l.map fun e => if e.1 = a then e.2 else 0).sum

theorem flowSum_coins (a : Hash256) (outs : List TxOut) :
    flowSum a (coinFlows outs) = assetValue a outs := by
  rw [flowSum, coinFlows, List.map_map, assetValue]
  rfl

theorem Flows.get_addAll (f : Flows) (l : List (Hash256 × Nat)) (a : Hash256) :
    (f.addAll l).get a = f.get a + flowSum a l := by
  induction l generalizing f with
  | nil => rfl
  | cons e l ih =>
      have hadd : (f.add e.1 e.2).get a = f.get a + if e.1 = a then e.2 else 0 := by
        rw [Flows.get, Flows.add, lookup_insert_ite]
        by_cases he : a = e.1
        · rw [if_pos he, if_pos he.symm, he]
          rfl
        · rw [if_neg he, if_neg fun h => he h.symm, Nat.add_zero]
          rfl
      show ((f.add e.1 e.2).addAll l).get a = _
      rw [ih, hadd, Nat.add_assoc]
      rfl

/-! ## The tokens of pool ops -/

theorem checkOp_token {tx : Transaction} {m m' : Nat} {op : TxOp}
    (h : checkOp tx m op = .ok m') {t : Hash256} (ht : op.poolToken = some t) : t ≠ qntAsset := by
  have hzero : ∀ {t : Hash256}, t.isZero ≠ true → t ≠ qntAsset := fun h ht =>
    h (Hash256.isZero_iff.mpr ht)
  cases op with
  | createToken c => cases ht
  | message c => cases ht
  | poolCreate c =>
      cases ht
      rw [checkOp] at h
      split at h
      · cases h
      · next hok => exact hzero fun hz => hok (.inl hz)
  | addLiquidity c =>
      cases ht
      rw [checkOp] at h
      split at h
      · cases h
      · next hok => exact hzero fun hz => hok (.inl hz)
  | removeLiquidity c =>
      cases ht
      rw [checkOp] at h
      split at h
      · cases h
      · next hok => exact hzero fun hz => hok (.inl hz)
  | swap c =>
      cases ht
      rw [checkOp] at h
      split at h
      · cases h
      · next hok => exact hzero fun hz => hok (.inl hz)

theorem checkOps_token {tx : Transaction} {ops : List TxOp} {m : Nat}
    (h : checkOps tx ops m = .ok ()) :
    ∀ op ∈ ops, ∀ t, op.poolToken = some t → t ≠ qntAsset := by
  induction ops generalizing m with
  | nil => exact fun op hop => (List.not_mem_nil hop).elim
  | cons op ops ih =>
      rw [checkOps] at h
      split at h
      · cases h
      · next m' hop =>
          intro o ho t ht
          rcases List.mem_cons.mp ho with rfl | ho
          · exact checkOp_token hop ht
          · exact ih h o ho t ht

theorem checkTxBasic_token {tx : Transaction} {w : Bool} {a : Amount}
    (h : checkTxBasic tx w = .ok a) :
    ∀ op ∈ tx.ops, ∀ t, op.poolToken = some t → t ≠ qntAsset := by
  rw [checkTxBasic] at h
  split at h
  · cases h
  split at h
  · cases h
  split at h
  · cases h
  next hops => exact checkOps_token hops

section Ledger

variable [Crypto]

/-- What an op does to the flows. -/
theorem applyOp_flows {r : StateReader} {tx : Transaction} {height : UInt64} {coins : List Coin}
    {i : UInt32} {st st' : OpState} {op : TxOp}
    (h : applyOp r tx height coins i st op = .ok st') :
    st'.plus = st.plus.addAll (op.released (tokenId (tx.ins.headD default).prev i)) ∧
      st'.minus = st.minus.addAll op.absorbed := by
  have hpool : ∀ {t : Hash256}, op.poolToken = some t →
      st'.plus = st.plus.addAll (op.released (tokenId (tx.ins.headD default).prev i)) ∧
        st'.minus = st.minus.addAll op.absorbed := by
    intro t ht
    rw [applyOp_pool (tokenId (tx.ins.headD default).prev i) ht] at h
    cases hstep : poolStep (tokenKnown r st t) op (getPool r st t) with
    | error e => rw [hstep] at h; cases h
    | ok p =>
        rw [hstep] at h
        cases h
        exact ⟨rfl, rfl⟩
  cases op with
  | createToken c =>
      simp only [applyOp] at h
      split at h
      · cases h
      · cases h
        exact ⟨rfl, rfl⟩
  | message m =>
      simp only [applyOp] at h
      split at h
      · cases h
        exact ⟨rfl, rfl⟩
      · cases h
  | poolCreate c => exact hpool rfl
  | addLiquidity c => exact hpool rfl
  | removeLiquidity c => exact hpool rfl
  | swap c => exact hpool rfl

end Ledger

/-! ## The fee -/

theorem Flows.get_of_notMem {f : Flows} {a : Hash256} (h : a ∉ f.keys) : f.get a = 0 := by
  rw [Flows.get, AList.lookup_eq_none.mpr h]
  rfl

/-- Any other asset is balanced exactly. -/
theorem balance_even {plus minus : Flows} {l : List Hash256} {fee fee' : Amount}
    (h : balance plus minus l fee = .ok fee') {a : Hash256} (hl : a ∈ l) (ha : a ≠ qntAsset) :
    plus.get a = minus.get a := by
  induction l generalizing fee with
  | nil => cases hl
  | cons x l ih =>
      simp only [balance] at h
      split at h
      · next hz =>
          have hne : a ≠ x := fun he => ha (he.trans (Hash256.isZero_iff.mp hz))
          split at h
          · cases h
          split at h
          · cases h
          exact ih h ((List.mem_cons.mp hl).resolve_left hne)
      · split at h
        · cases h
        · next heq =>
            rcases List.mem_cons.mp hl with rfl | hl
            · exact not_not.mp heq
            · exact ih h hl

/-- The fee is the QNT flows' difference. -/
theorem balance_fee {plus minus : Flows} {l : List Hash256} {fee fee' : Amount}
    (h : balance plus minus l fee = .ok fee') :
    (qntAsset ∈ l → (fee'.toNat : Int) = plus.get qntAsset - minus.get qntAsset) ∧
      (qntAsset ∉ l → fee' = fee) := by
  induction l generalizing fee with
  | nil =>
      cases h
      exact ⟨fun hm => (List.not_mem_nil hm).elim, fun _ => rfl⟩
  | cons a l ih =>
      simp only [balance] at h
      split at h
      · next hz =>
          obtain rfl : a = qntAsset := Hash256.isZero_iff.mp hz
          split at h
          · cases h
          · next hle =>
              split at h
              · cases h
              · next hmax =>
                  refine ⟨fun _ => ?_, fun hm => absurd (List.mem_cons_self ..) hm⟩
                  have hlt : plus.get qntAsset - minus.get qntAsset < 2 ^ 64 := by
                    have : maxMoney.toNat < 2 ^ 64 := maxMoney.toNat_lt
                    omega
                  by_cases hm : qntAsset ∈ l
                  · exact (ih h).1 hm
                  · rw [(ih h).2 hm, UInt64.toNat_ofNat', Nat.mod_eq_of_lt hlt]
                    omega
      · next hz =>
          have hne : qntAsset ≠ a := fun he => hz (Hash256.isZero_iff.mpr he.symm)
          split at h
          · cases h
          · obtain ⟨hin, hout⟩ := ih h
            refine ⟨fun hm => hin ?_, fun hm => hout fun hl => hm (List.mem_cons_of_mem a hl)⟩
            exact (List.mem_cons.mp hm).resolve_left hne

theorem balance_flow {plus minus : Flows} {fee : Amount}
    (h : balance plus minus (flowAssets plus minus) 0 = .ok fee) :
    (fee.toNat : Int) = plus.get qntAsset - minus.get qntAsset := by
  obtain ⟨hin, hout⟩ := balance_fee h
  by_cases hm : qntAsset ∈ flowAssets plus minus
  · exact hin hm
  · have hkeys : qntAsset ∉ plus.keys ++ minus.keys := fun hk =>
      hm ((List.mem_insertionSort _).mpr (List.mem_dedup.mpr hk))
    obtain ⟨hplus, hminus⟩ := not_or.mp fun hk => hkeys (List.mem_append.mpr hk)
    rw [hout hm, Flows.get_of_notMem hplus, Flows.get_of_notMem hminus]
    rfl

/-- What an accepted transaction moves of an asset goes in and comes out, but for
the fee. -/
theorem balance_flows {plus minus : Flows} {fee : Amount}
    (h : balance plus minus (flowAssets plus minus) 0 = .ok fee) (a : Hash256) :
    (plus.get a : Int) = minus.get a + if a = qntAsset then (fee.toNat : Int) else 0 := by
  split
  · next ha =>
      rw [ha, balance_flow h]
      omega
  · next ha =>
      rw [Int.add_zero]
      by_cases hm : a ∈ flowAssets plus minus
      · rw [balance_even h hm ha]
      · have hkeys : a ∉ plus.keys ++ minus.keys := fun hk =>
          hm ((List.mem_insertionSort _).mpr (List.mem_dedup.mpr hk))
        obtain ⟨hplus, hminus⟩ := not_or.mp fun hk => hkeys (List.mem_append.mpr hk)
        rw [Flows.get_of_notMem hplus, Flows.get_of_notMem hminus]

end QuantCore
