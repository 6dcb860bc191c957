import QuantCore.Proofs.OverlayRun
import QuantCore.Spec.Branch

/-!
# What holds along a branch

A branch determines its state, so a block does. Along it every transaction has
an id of its own: a coinbase carries its height, and any other transaction
spends a coin, which its twin further down would have spent already. `History`
is the invariant behind this, on the list of all transactions of the branch.

Because ids are new, the overlay `connect_block` works on denotes the state it
should, and the outcome of `connect_block` is that of `StateReader.block`.
-/

namespace QuantCore

open Maps

variable [Crypto]

/-! ## Signatures do not matter to the state -/

omit [Crypto] in
theorem core_core (t : Transaction) : t.core.core = t.core := rfl

theorem txid_core (t : Transaction) : t.core.txid = t.txid := rfl

omit [Crypto] in
theorem Block.core_txs_head (b : Block) : b.core.txs.headD default = (b.txs.headD default).core := by
  rw [Block.core]
  cases b.txs <;> rfl

omit [Crypto] in
theorem Block.core_txs_tail (b : Block) : b.core.txs.tail = b.txs.tail.map Transaction.core := by
  rw [Block.core]
  cases b.txs <;> rfl

omit [Crypto] in
theorem Block.core_core (b : Block) : b.core.core = b.core := by
  rw [Block.core, Block.core, List.map_map]
  rfl

theorem Block.core_ids (b : Block) :
    b.core.txs.map Transaction.txid = b.txs.map Transaction.txid := by
  rw [Block.core, List.map_map]
  rfl

/-- What an accepted step went through. -/
theorem step_ok {s s' : StateReader} {tx : Transaction} {height : UInt64}
    {genesis : Hash256} {verify : Bool} {fee : Amount}
    (h : s.step tx height genesis verify = .ok (s', fee)) :
    tx.isCoinbase = false ∧ ¬ tx.lockHeight > height ∧
    ∃ coins r r', RefState.inputs height genesis tx.ins ⟨s, ∅, ∅⟩ [] = .ok (coins, r) ∧
      RefState.ops tx height coins 0 tx.ops
        { r with minus := Flows.addAll ∅ (tx.outs.map fun o => (o.asset, o.value.toNat)) } =
          .ok r' ∧
      balance r'.plus r'.minus (flowAssets r'.plus r'.minus) 0 = .ok fee ∧
      (verify = true → verifyWitness tx coins genesis = .ok ()) ∧
      s' = r'.state.addCoins (newCoins tx.txid tx.outs height false) := by
  rw [StateReader.step] at h
  split at h
  · cases h
  next hcb =>
  split at h
  · cases h
  next hlock =>
  split at h
  · cases h
  next coins r hin =>
  split at h
  · cases h
  next r' hops =>
  split at h
  · cases h
  next fee' hbal =>
  split at h
  · cases h
  next hv =>
  cases h
  refine ⟨by simpa using hcb, hlock, coins, r, r', hin, hops, hbal, ?_, rfl⟩
  intro hverify
  rw [if_pos hverify] at hv
  exact hv

/-! ## The transactions of a branch -/

/-- A transaction of a block that is around, signatures aside. -/
def KnownTx (known : Block → Prop) (t : Transaction) : Prop :=
  ∃ b, known b ∧ ∃ u ∈ b.txs, u.core = t.core

theorem Collisionless.txs {known : Block → Prop} (hcf : Collisionless known)
    {s t : Transaction} (hs : KnownTx known s) (ht : KnownTx known t)
    (h : s.txid = t.txid) : s.core = t.core := by
  obtain ⟨a, ha, u, hu, hus⟩ := hs
  obtain ⟨b, hb, w, hw, hwt⟩ := ht
  rw [← hus, ← hwt]
  refine hcf.txid a b u w ha hb hu hw ?_
  rw [← txid_core u, ← txid_core w, hus, hwt]
  exact h

/-- Where the transactions `hist` have led to: ids are distinct, every coin is
an output of one of them, and what one spent is gone for good. -/
structure History (known : Block → Prop) (n : Nat) (hist : List Transaction)
    (s : StateReader) : Prop where
  known : ∀ t ∈ hist, KnownTx known t
  nodup : (hist.map Transaction.txid).Nodup
  coin : ∀ o, (s.coin o).isSome → o.txid ∈ hist.map Transaction.txid
  spent : ∀ t ∈ hist, ∀ i ∈ t.ins,
    s.coin i.prev = none ∧ i.prev.txid ∈ hist.map Transaction.txid
  coinbase : ∀ t ∈ hist, t.isCoinbase = true → t.lockHeight.toNat ≤ n

theorem History.perm {known : Block → Prop} {n : Nat} {l l' : List Transaction}
    {s : StateReader} (h : History known n l s) (hp : l.Perm l') : History known n l' s where
  known := fun t ht => h.known t (hp.mem_iff.mpr ht)
  nodup := (hp.map _).nodup_iff.mp h.nodup
  coin := fun o ho => (hp.map _).mem_iff.mp (h.coin o ho)
  spent := fun t ht i hi => by
    obtain ⟨hn, hm⟩ := h.spent t (hp.mem_iff.mpr ht) i hi
    exact ⟨hn, (hp.map _).mem_iff.mp hm⟩
  coinbase := fun t ht => h.coinbase t (hp.mem_iff.mpr ht)

/-- Nothing of a transaction with a new id is in the state yet. -/
theorem History.fresh {known : Block → Prop} {n : Nat} {hist : List Transaction}
    {s : StateReader} (h : History known n hist s) {t : Transaction}
    (ht : t.txid ∉ hist.map Transaction.txid) : LedgerView.Fresh s t := by
  intro i
  by_contra hne
  exact ht (h.coin ⟨t.txid, i⟩ (Option.isSome_iff_ne_none.mpr hne))

/-- One accepted call with a new id. -/
theorem History.act {known : Block → Prop} {n m : Nat} {hist : List Transaction}
    {s s' : StateReader} {a : LedgerAct} {g : Hash256} {f : Amount}
    (h : History known n hist s) (hk : KnownTx known a.tx) (hnm : n ≤ m)
    (hins : a.inputs = a.tx.ins.map TxIn.prev)
    (hcb : a.tx.isCoinbase = true → a.tx.lockHeight.toNat ≤ m)
    (hnd : (a.tx.ins.map TxIn.prev).Nodup) (hid : a.tx.txid ∉ hist.map Transaction.txid)
    (ha : s.act g a = (s', .ok f)) : History known m (a.tx :: hist) s' := by
  obtain ⟨hin, hcoin⟩ := act_coin hnd ha
  have hgone : ∀ o, o.txid ≠ a.tx.txid → s'.coin o =
      if o ∈ a.inputs then none else s.coin o := by
    intro o ho
    rw [hcoin o, updateAll_of_notMem]
    exact fun hm => ho (map_fst_outputs hm)
  refine ⟨?_, ?_, ?_, ?_, ?_⟩
  · intro t ht
    rcases List.mem_cons.mp ht with rfl | ht
    · exact hk
    · exact h.known t ht
  · rw [List.map_cons]
    exact List.nodup_cons.mpr ⟨hid, h.nodup⟩
  · intro o ho
    rw [List.map_cons, List.mem_cons]
    by_cases he : o.txid = a.tx.txid
    · exact .inl he
    · right
      rw [hgone o he] at ho
      split at ho
      · cases ho
      · exact h.coin o ho
  · intro t ht i hi
    rw [List.map_cons, List.mem_cons]
    rcases List.mem_cons.mp ht with rfl | ht
    · have hmem : i.prev ∈ a.inputs := by
        rw [hins]
        exact List.mem_map_of_mem hi
      have hold := h.coin i.prev (hin i.prev hmem)
      have hne : i.prev.txid ≠ a.tx.txid := fun he => hid (he ▸ hold)
      exact ⟨by rw [hgone _ hne, if_pos hmem], .inr hold⟩
    · obtain ⟨hn, hm⟩ := h.spent t ht i hi
      have hne : i.prev.txid ≠ a.tx.txid := fun he => hid (he ▸ hm)
      refine ⟨?_, .inr hm⟩
      rw [hgone _ hne, hn, ite_self]
  · intro t ht hc
    rcases List.mem_cons.mp ht with rfl | ht
    · exact hcb hc
    · exact (h.coinbase t ht hc).trans hnm

/-- A transaction that is not a coinbase and that the state accepts is new:
its twin would have spent the coins it spends. -/
theorem History.new_of_step {known : Block → Prop} (hcf : Collisionless known) {n : Nat}
    {hist : List Transaction} {s : StateReader} (h : History known n hist s)
    {tx : Transaction} (hk : KnownTx known tx) (hcb : tx.isCoinbase = false)
    (hin : ∀ o ∈ tx.ins.map TxIn.prev, (s.coin o).isSome) :
    tx.txid ∉ hist.map Transaction.txid := by
  intro hm
  obtain ⟨t, ht, hid⟩ := List.mem_map.mp hm
  have hcore := hcf.txs (h.known t ht) hk hid
  have hins : t.core.ins = tx.core.ins := by rw [hcore]
  rw [Transaction.isCoinbase] at hcb
  cases hi : tx.ins with
  | nil =>
      rw [hi] at hcb
      cases hcb
  | cons i rest =>
      have hmem : i ∈ tx.ins := by
        rw [hi]
        exact List.mem_cons_self ..
      have hnone := (h.spent t ht i (hins.symm ▸ hmem)).1
      have hsome := hin i.prev (List.mem_map_of_mem hmem)
      rw [hnone] at hsome
      cases hsome

/-! ## One block -/

/-- The reference accepts a transaction of the rest of a block. -/
theorem History.step {known : Block → Prop} (hcf : Collisionless known) {n : Nat}
    {hist : List Transaction} {s s' : StateReader} (h : History known n hist s)
    {tx : Transaction} (hk : KnownTx known tx) (hnd : (tx.ins.map TxIn.prev).Nodup)
    {height : UInt64} {genesis : Hash256} {verify : Bool} {fee : Amount}
    (hs : s.step tx height genesis verify = .ok (s', fee)) :
    tx.txid ∉ hist.map Transaction.txid ∧ History known n (tx :: hist) s' := by
  have hact : s.act genesis (.apply tx height verify) = (s', .ok fee) := by
    rw [StateReader.act, StateReader.apply, hs]
  have hcb := (step_ok hs).1
  have hid := h.new_of_step hcf hk hcb (act_coin (a := .apply tx height verify) hnd hact).1
  refine ⟨hid, h.act (a := .apply tx height verify) hk (Nat.le_refl n) rfl ?_ hnd hid hact⟩
  intro ht
  have : tx.isCoinbase = true := ht
  rw [hcb] at this
  cases this

/-- A list of transactions on an overlay and on the reference: the same
outcome, and what was accepted is new. -/
theorem applyTxs_spec {known : Block → Prop} (hcf : Collisionless known) {n : Nat}
    {height : UInt64} {genesis : Hash256} {verify : Bool} {txs : List Transaction}
    (hk : ∀ t ∈ txs, KnownTx known t) (hnd : ∀ t ∈ txs, (t.ins.map TxIn.prev).Nodup)
    {v : LedgerView} (hw : v.Wf) {old hist : List Transaction}
    (hold : History known n old v.base)
    (h : History known n hist v.reader) (hsub : old.map Transaction.txid ⊆ hist.map Transaction.txid)
    (fees : Amount) :
    ((applyTxs height genesis verify v txs fees).map fun x => (x.1.reader, x.2)) =
        v.reader.txs height genesis verify txs fees ∧
      ∀ v' fees', applyTxs height genesis verify v txs fees = .ok (v', fees') →
        v'.Wf ∧ v'.base = v.base ∧ History known n (txs.reverse ++ hist) v'.reader := by
  induction txs generalizing v hist fees with
  | nil =>
      refine ⟨rfl, fun v' fees' hv => ?_⟩
      cases hv
      exact ⟨hw, rfl, h⟩
  | cons tx txs ih =>
      have hmem := List.mem_cons_self (a := tx) (l := txs)
      have hnd₁ := hnd tx hmem
      rw [applyTxs, StateReader.txs]
      have hst := @step_eq_checkTx _ v.reader tx height genesis verify hnd₁
      cases hc : checkTx v.reader tx height genesis verify with
      | error e =>
          have ha : v.apply tx height genesis verify = (v, .error e) := by
            rw [LedgerView.apply, hc]
          rw [hc] at hst
          rw [ha, hst]
          exact ⟨rfl, fun v' fees' hv => by cases hv⟩
      | ok x =>
          obtain ⟨st, fee⟩ := x
          rw [hc] at hst
          obtain ⟨hid, h₁⟩ := h.step hcf (hk tx hmem) hnd₁ hst
          have hf : LedgerView.Fresh v.base tx := hold.fresh fun hm => hid (hsub hm)
          obtain ⟨hw₁, hb₁, hr₁, hv₁⟩ := LedgerView.apply_spec hw hnd₁ hf height genesis verify
          have ha : v.apply tx height genesis verify = (v.commit tx height st, .ok fee) := by
            rw [LedgerView.apply, hc]
          rw [ha] at hw₁ hb₁ hr₁
          rw [StateReader.apply, hst] at hr₁
          rw [ha, hst]
          simp only [Except.map] at hr₁ h₁ ⊢
          rw [← hr₁] at h₁ ⊢
          rw [← hb₁] at hold
          obtain ⟨he, hok⟩ := ih (fun t ht => hk t (List.mem_cons_of_mem tx ht))
            (fun t ht => hnd t (List.mem_cons_of_mem tx ht)) hw₁ hold h₁
            (fun i hi => List.mem_cons_of_mem _ (hsub hi)) (fees + fee)
          refine ⟨he, fun v' fees' hv => ?_⟩
          obtain ⟨hw', hb', hh'⟩ := hok v' fees' hv
          refine ⟨hw', hb'.trans hb₁, ?_⟩
          rw [List.reverse_cons, List.append_assoc]
          exact hh'

theorem Block.Checked.txs_eq {n : Nat} {b : Block} (h : b.Checked n) :
    ∃ cb rest, b.txs = cb :: rest ∧ cb.isCoinbase = true ∧ cb.lockHeight = UInt64.ofNat n ∧
      ∀ t ∈ rest, t.isCoinbase = false := by
  have hc := h.coinbase
  have hh := h.height
  have ho := h.others
  cases hb : b.txs with
  | nil =>
      rw [hb] at hc
      cases hc
  | cons cb rest =>
      rw [hb] at hc hh ho
      exact ⟨cb, rest, rfl, hc, hh, ho⟩

/-- The coinbase of a block one higher than the branch is new to it. -/
theorem History.new_coinbase {known : Block → Prop} (hcf : Collisionless known) {n : Nat}
    {hist : List Transaction} {L : StateReader} (h : History known n hist L)
    (hn : n + 1 < 2 ^ 63) {cb : Transaction} (hk : KnownTx known cb)
    (hcb : cb.isCoinbase = true) (hlock : cb.lockHeight = UInt64.ofNat (n + 1)) :
    cb.txid ∉ hist.map Transaction.txid := by
  intro hm
  obtain ⟨t, ht, hid⟩ := List.mem_map.mp hm
  have hcore := hcf.txs (h.known t ht) hk hid
  have hcb' : t.core.isCoinbase = true := by
    rw [hcore]
    exact hcb
  have hle : t.core.lockHeight.toNat ≤ n := h.coinbase t ht hcb'
  rw [hcore, show cb.core.lockHeight = UInt64.ofNat (n + 1) from hlock,
    UInt64.toNat_ofNat', Nat.mod_eq_of_lt (by omega)] at hle
  omega

/-- With the coinbase of such a block it joins the history. -/
theorem History.applyCoinbase {known : Block → Prop} (hcf : Collisionless known) {n : Nat}
    {hist : List Transaction} {L : StateReader} (h : History known n hist L)
    (hn : n + 1 < 2 ^ 63) {cb : Transaction} (hk : KnownTx known cb)
    (hcb : cb.isCoinbase = true) (hlock : cb.lockHeight = UInt64.ofNat (n + 1)) :
    History known (n + 1) (cb :: hist) (L.applyCoinbase cb (UInt64.ofNat (n + 1))) := by
  have hnil : cb.ins = [] := List.isEmpty_iff.mp hcb
  refine h.act (a := .coinbase cb (UInt64.ofNat (n + 1))) (g := 0) (f := 0) hk (Nat.le_succ n)
    ?_ ?_ ?_ (h.new_coinbase hcf hn hk hcb hlock) rfl
  · show [] = cb.ins.map TxIn.prev
    rw [hnil]
    rfl
  · intro _
    show cb.lockHeight.toNat ≤ n + 1
    rw [hlock, UInt64.toNat_ofNat', Nat.mod_eq_of_lt (by omega)]
  · show (cb.ins.map TxIn.prev).Nodup
    rw [hnil]
    exact List.nodup_nil

/-- A block on top of a branch: the overlay's outcome is the reference's, and
once it is accepted the transactions of the block join the history. -/
theorem blockView_spec {known : Block → Prop} (hcf : Collisionless known) {n : Nat}
    {hist : List Transaction} {L : StateReader} (h : History known n hist L)
    (hn : n + 1 < 2 ^ 63) {b : Block} (hk : ∀ t ∈ b.txs, KnownTx known t) (hc : b.Checked (n + 1)) (genesis : Hash256)
    (verify : Bool) :
    ((blockView L b (UInt64.ofNat (n + 1)) genesis verify).map fun x => (x.1.reader, x.2)) =
        StateReader.txs (UInt64.ofNat (n + 1)) genesis verify
          (L.applyCoinbase (b.txs.headD default) (UInt64.ofNat (n + 1))) b.txs.tail 0 ∧
      ∀ v fees, blockView L b (UInt64.ofNat (n + 1)) genesis verify = .ok (v, fees) →
        v.Wf ∧ v.base = L ∧ History known (n + 1) (b.txs ++ hist) v.reader := by
  obtain ⟨cb, rest, htxs, hcb, hlock, -⟩ := hc.txs_eq
  have hkcb : KnownTx known cb := hk cb (by rw [htxs]; exact List.mem_cons_self ..)
  have hid : cb.txid ∉ hist.map Transaction.txid :=
    h.new_coinbase hcf hn hkcb hcb hlock
  have hndAll : ∀ t ∈ b.txs, (t.ins.map TxIn.prev).Nodup :=
    fun t ht => checkTxBasic_nodup (hc.basic t ht)
  have hw₀ := LedgerView.wf_mk L
  obtain ⟨hw₁, hr₁⟩ := @LedgerView.applyCoinbase_spec _ _ hw₀ cb (h.fresh hid)
    (UInt64.ofNat (n + 1))
  rw [LedgerView.reader_mk] at hr₁
  have h₁ := h.applyCoinbase hcf hn hkcb hcb hlock
  rw [← hr₁] at h₁
  have hold : History known (n + 1) hist L :=
    { h with coinbase := fun t ht hc => (h.coinbase t ht hc).trans (Nat.le_succ n) }
  obtain ⟨he, hok⟩ := @applyTxs_spec _ known hcf (n + 1) (UInt64.ofNat (n + 1)) genesis verify rest
    (fun t ht => hk t (by rw [htxs]; exact List.mem_cons_of_mem cb ht))
    (fun t ht => hndAll t (by rw [htxs]; exact List.mem_cons_of_mem cb ht)) _ hw₁ _ _ hold h₁
    (fun i hi => List.mem_cons_of_mem _ hi) 0
  rw [blockView, htxs, List.headD_cons, List.tail_cons, ← hr₁]
  refine ⟨he, fun v fees hv => ?_⟩
  obtain ⟨hw', hb', hh'⟩ := hok v fees hv
  refine ⟨hw', hb', hh'.perm ?_⟩
  rw [List.cons_append]
  exact (List.perm_middle).trans ((List.reverse_perm rest).append_right hist |>.cons cb)

/-! ## The branch -/

omit [Crypto] in
theorem KnownTx.of_mem {known : Block → Prop} {b : Block} (hb : known b) {t : Transaction}
    (ht : t ∈ b.txs) : KnownTx known t := ⟨b, hb, t, ht, rfl⟩

omit [Crypto] in
theorem checkShape_core {t : Transaction} {w : Bool} (h : checkShape t w = .ok ()) :
    checkShape t.core false = .ok () := by
  rw [checkShape] at h ⊢
  split at h
  · cases h
  next hv =>
  split at h
  · cases h
  next ho =>
  rw [if_neg (show ¬ t.core.version ≠ 2 from hv),
    if_neg (show ¬ t.core.ops.length > maxTxOps from ho)]
  split at h
  · next hcb =>
      rw [if_pos (show t.core.isCoinbase = true from hcb)]
      split at h
      · cases h
      · exact h
  · next hcb =>
      rw [if_neg (show ¬ t.core.isCoinbase = true from hcb)]
      split at h
      · cases h
      next h₁ =>
      split at h
      · cases h
      next h₂ =>
      split at h
      · cases h
      next h₃ =>
      split at h
      · cases h
      next h₄ =>
      rw [if_neg (show ¬ t.core.outs.isEmpty = true from h₁),
        if_neg (show ¬ (!t.core.extra.isEmpty) = true from h₂), if_neg (fun h => by cases h.1)]
      exact if_neg h₄

omit [Crypto] in
theorem checkOps_core (t : Transaction) (ops : List TxOp) (m : Nat) :
    checkOps t.core ops m = checkOps t ops m := by
  induction ops generalizing m with
  | nil => rfl
  | cons op ops ih =>
      have hop : checkOp t.core m op = checkOp t m op := by
        cases op <;> rfl
      rw [checkOps, checkOps, hop]
      cases checkOp t m op with
      | error e => rfl
      | ok m' => exact ih m'

omit [Crypto] in
/-- A checked transaction is checked without its signatures. -/
theorem checkTxBasic_core {t : Transaction} {w : Bool} {a : Amount}
    (h : checkTxBasic t w = .ok a) : checkTxBasic t.core false = .ok 0 := by
  rw [checkTxBasic] at h ⊢
  split at h
  · cases h
  next hs =>
  split at h
  · cases h
  next ho =>
  split at h
  · cases h
  next hp =>
  rw [checkShape_core hs]
  simp only [checkOps_core]
  rw [show t.core.isCoinbase = t.isCoinbase from rfl, show t.core.outs = t.outs from rfl,
    show t.core.ops = t.ops from rfl, ho]
  simp only []
  rw [hp]

theorem Block.Checked.core {n : Nat} {b : Block} (h : b.Checked n) : b.core.Checked n := by
  obtain ⟨cb, rest, htxs, hcb, hlock, hrest⟩ := h.txs_eq
  have hcore : b.core.txs = cb.core :: rest.map Transaction.core := by
    rw [Block.core, htxs]
    rfl
  refine ⟨?_, ?_, ?_, ?_, ?_, ?_⟩
  · rw [hcore]
    exact hcb
  · rw [hcore, List.tail_cons]
    intro t ht
    obtain ⟨u, hu, rfl⟩ := List.mem_map.mp ht
    exact hrest u hu
  · rw [Block.computeMerkleRoot, Block.core_ids]
    exact h.merkle
  · rw [hcore]
    exact hlock
  · intro t ht
    rw [Block.core] at ht
    obtain ⟨u, hu, rfl⟩ := List.mem_map.mp ht
    exact checkTxBasic_core (h.basic u hu)
  · rw [Block.core_ids]
    exact h.ids

omit [Crypto] in
theorem KnownTx.of_core {known : Block → Prop} {b : Block} (hb : known b) {t : Transaction}
    (ht : t ∈ b.core.txs) : KnownTx known t := by
  rw [Block.core] at ht
  obtain ⟨u, hu, rfl⟩ := List.mem_map.mp ht
  exact ⟨b, hb, u, hu, rfl⟩

/-- The genesis block meets its own rules. -/
theorem genesis_checked (net : Network) : (paramsFor net).genesis.Checked 0 := by
  have h : ∀ time bits msg, (makeGenesis time bits msg).Checked 0 := by
    intro time bits msg
    refine ⟨rfl, fun t ht => absurd ht List.not_mem_nil, rfl, rfl, fun t ht => ?_,
      List.nodup_singleton _⟩
    rcases List.mem_cons.mp ht with rfl | ht
    · rfl
    · cases ht
  cases net <;> exact h ..

theorem genesis_hash (net : Network) :
    (paramsFor net).genesisHash = (paramsFor net).genesis.header.hash := by
  cases net <;> rfl

theorem genesis_core (net : Network) :
    (paramsFor net).genesis.core = (paramsFor net).genesis := by
  cases net <;> rfl

theorem history_genesis {known : Block → Prop} (net : Network)
    (hg : known (paramsFor net).genesis) :
    History known 0 (paramsFor net).genesis.txs .empty := by
  obtain ⟨cb, rest, htxs, hcb, hlock, -⟩ := (genesis_checked net).txs_eq
  have hone : ∀ time bits msg, (makeGenesis time bits msg).txs.tail = [] := fun _ _ _ => rfl
  have hrest : rest = [] := by
    have ht : (paramsFor net).genesis.txs.tail = [] := by
      cases net <;> exact hone ..
    rwa [htxs] at ht
  rw [hrest] at htxs
  have hins : cb.ins = [] := List.isEmpty_iff.mp hcb
  rw [htxs]
  refine ⟨?_, List.nodup_singleton _, fun o ho => (by cases ho), ?_, ?_⟩
  · intro t ht
    exact .of_mem hg (by rw [htxs]; exact ht)
  · intro t ht i hi
    rcases List.mem_cons.mp ht with rfl | ht
    · rw [hins] at hi
      cases hi
    · cases ht
  · intro t ht _
    rcases List.mem_cons.mp ht with rfl | ht
    · rw [hlock]
      exact Nat.le_refl 0
    · cases ht

/-- A reference block that went through, taken apart. -/
theorem block_ok {s s' : StateReader} {b : Block} {n : Nat} {genesis : Hash256}
    {verify : Bool} (h : s.block b n genesis verify = .ok s') :
    ∃ fees, StateReader.txs (UInt64.ofNat n) genesis verify
        (s.applyCoinbase (b.txs.headD default) (UInt64.ofNat n)) b.txs.tail 0 = .ok (s', fees) ∧
      (n > 0 → (b.txs.headD default).totalQntOut ≤ blockSubsidy (UInt64.ofNat n) + fees) := by
  simp only [StateReader.block] at h
  split at h
  · cases h
  next s₁ fees hs =>
  split at h
  · cases h
  next hpay =>
  cases h
  refine ⟨fees, hs, fun hn => ?_⟩
  simpa [hn] using hpay

namespace Branch

variable {net : Network} {known : Block → Prop}

theorem history (hcf : Collisionless known) (hg : known (paramsFor net).genesis) {n : Nat}
    {h : Hash256} {bs : List Block} {L : StateReader}
    (hb : Branch (paramsFor net) known n h bs L) :
    History known n (bs.flatMap Block.txs) L := by
  induction hb with
  | genesis =>
      rw [List.flatMap_singleton]
      exact history_genesis net hg
  | block hb hk hc hn hs ih =>
      obtain ⟨fees, htxs, -⟩ := block_ok hs
      obtain ⟨he, hok⟩ := blockView_spec hcf ih hn (fun t ht => .of_core hk ht) hc.core
        (paramsFor net).genesisHash false
      rw [htxs] at he
      cases hv : blockView _ _ _ (paramsFor net).genesisHash false with
      | error e =>
          rw [hv] at he
          cases he
      | ok x =>
          rw [hv] at he
          obtain ⟨v, fees'⟩ := x
          cases he
          rw [List.flatMap_cons]
          exact (hok v fees' hv).2.2

/-- What `connect_block` finds out about a block on top of a branch. -/
theorem blockView_eq (hcf : Collisionless known) (hg : known (paramsFor net).genesis) {n : Nat}
    {b : Block} {bs : List Block} {L : StateReader}
    (hb : Branch (paramsFor net) known n b.header.prev bs L) (hn : n + 1 < 2 ^ 63)
    (hk : ∀ t ∈ b.txs, KnownTx known t) (hc : b.Checked (n + 1)) (verify : Bool) :
    ((blockView L b (UInt64.ofNat (n + 1)) (paramsFor net).genesisHash verify).map
        fun x => (x.1.reader, x.2)) =
      StateReader.txs (UInt64.ofNat (n + 1)) (paramsFor net).genesisHash verify
        (L.applyCoinbase (b.txs.headD default) (UInt64.ofNat (n + 1))) b.txs.tail 0 ∧
    ∀ v fees, blockView L b (UInt64.ofNat (n + 1)) (paramsFor net).genesisHash verify =
        .ok (v, fees) →
      v.Wf ∧ v.base = L ∧ ∀ t ∈ b.txs, t.txid ∉ (bs.flatMap Block.txs).map Transaction.txid := by
  obtain ⟨he, hok⟩ := blockView_spec hcf (hb.history hcf hg) hn hk hc
    (paramsFor net).genesisHash verify
  refine ⟨he, fun v fees hv => ?_⟩
  obtain ⟨hw, hbase, hh⟩ := hok v fees hv
  refine ⟨hw, hbase, fun t ht hm => ?_⟩
  have hnd := hh.nodup
  rw [List.map_append] at hnd
  exact List.disjoint_of_nodup_append hnd (List.mem_map_of_mem ht) hm

/-- Blocks with one header hash have one height and one core. -/
theorem same_core (hcf : Collisionless known) {m n : Nat} {a b : Block}
    (ha : known a) (hb : known b) (hca : a.Checked m) (hcb : b.Checked n)
    (hm : m < 2 ^ 63) (hn : n < 2 ^ 63) (h : a.header.hash = b.header.hash) :
    m = n ∧ a.core = b.core := by
  have hh := hcf.header a b ha hb h
  have hids := hcf.merkle a b ha hb (by rw [hca.merkle, hcb.merkle, hh])
  have htxs : a.txs.map Transaction.core = b.txs.map Transaction.core := by
    have hlen : a.txs.length = b.txs.length := by
      have := congrArg List.length hids
      rwa [List.length_map, List.length_map] at this
    apply List.ext_getElem (by rw [List.length_map, List.length_map, hlen])
    intro i h₁ h₂
    rw [List.length_map] at h₁ h₂
    rw [List.getElem_map, List.getElem_map]
    refine hcf.txid a b _ _ ha hb (List.getElem_mem h₁) (List.getElem_mem h₂) ?_
    have hi := congrArg (fun l => l[i]?) hids
    simp only [List.getElem?_map, List.getElem?_eq_getElem h₁, List.getElem?_eq_getElem h₂,
      Option.map_some, Option.some.injEq] at hi
    exact hi
  have hcore : a.core = b.core := by
    rw [Block.core, Block.core, hh, htxs]
  refine ⟨?_, hcore⟩
  have ha' := hca.core.height
  have hb' := hcb.core.height
  rw [hcore, hb'] at ha'
  have hnat := congrArg UInt64.toNat ha'
  rw [UInt64.toNat_ofNat', UInt64.toNat_ofNat', Nat.mod_eq_of_lt (by omega),
    Nat.mod_eq_of_lt (by omega)] at hnat
  exact hnat.symm

/-- A block has one branch, and one state. -/
theorem unique (hcf : Collisionless known) (hg : known (paramsFor net).genesis) {m n : Nat}
    {h : Hash256} {as bs : List Block} {K L : StateReader}
    (ha : Branch (paramsFor net) known m h as K) (hb : Branch (paramsFor net) known n h bs L) :
    m = n ∧ as = bs ∧ K = L := by
  have hgen : ∀ {k : Nat} {c : Block}, known c → c.Checked (k + 1) → k + 1 < 2 ^ 63 →
      c.header.hash ≠ (paramsFor net).genesisHash := by
    intro k c hk hc hlt he
    rw [genesis_hash] at he
    have := (same_core hcf hk hg hc (genesis_checked net) hlt (by omega) he).1
    omega
  induction ha generalizing n bs L with
  | genesis =>
      generalize hd : (paramsFor net).genesisHash = d at hb
      cases hb with
      | genesis => exact ⟨rfl, rfl, rfl⟩
      | block hb hk hc hn hs => exact absurd hd.symm (hgen hk hc hn)
  | @block m' as' K' K'' a hx hka hca hm hsa ih =>
      generalize hd : a.header.hash = d at hb
      cases hb with
      | genesis => exact absurd hd (hgen hka hca hm)
      | @block n' bs' L' L'' b hb hkb hcb hn hsb =>
          obtain ⟨hmn, hcore⟩ := same_core hcf hka hkb hca hcb hm hn hd
          have hprev : a.header.prev = b.header.prev := by
            rw [hcf.header a b hka hkb hd]
          rw [← hprev] at hb
          obtain ⟨rfl, rfl, rfl⟩ := ih hb
          rw [hcore, hsb] at hsa
          cases hsa
          exact ⟨rfl, by rw [hcore], rfl⟩

end Branch

end QuantCore
