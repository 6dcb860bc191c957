import QuantCore.Crypto.Instances
import QuantCore.Proofs.Commit

/-!
# Whole lists of transactions on a view

One transaction at a time the overlay keeps denoting the reference state, so it
does over any list of calls, with the same verdicts and fees. The lists are
those whose transactions passed the context-free checks and whose txids are new
to the base and to each other. The base is any reader: the chainstate's when a
block is connected, another view's when the mempool probes.

From the reference side it can then be read off that no outpoint is consumed
twice: once spent, only a second creation could bring it back, and its txid was
used up by the first.
-/

namespace QuantCore

open Maps

variable [Crypto]

/-! ## One call -/

namespace LedgerView

theorem apply_spec {v : LedgerView} (hw : v.Wf) {tx : Transaction}
    (hnd : (tx.ins.map TxIn.prev).Nodup) (hf : Fresh v.base tx) (height : UInt64)
    (genesis : Hash256) (verifySigs : Bool) :
    (v.apply tx height genesis verifySigs).1.Wf ∧
    (v.apply tx height genesis verifySigs).1.base = v.base ∧
    (v.apply tx height genesis verifySigs).1.reader =
      (v.reader.apply tx height genesis verifySigs).1 ∧
    (v.apply tx height genesis verifySigs).2 =
      (v.reader.apply tx height genesis verifySigs).2 := by
  rw [apply, StateReader.apply, step_eq_checkTx hnd]
  cases h : checkTx v.reader tx height genesis verifySigs with
  | error e => exact ⟨hw, rfl, rfl, rfl⟩
  | ok x =>
      obtain ⟨st, fee⟩ := x
      obtain ⟨hw', hb, hr⟩ :=
        commit_spec hw height hnd hf (checkTx_inputs h) (checkTx_settled h)
      exact ⟨hw', hb, hr, rfl⟩

theorem act_spec {v : LedgerView} (hw : v.Wf) {a : LedgerAct}
    (hnd : (a.tx.ins.map TxIn.prev).Nodup) (hf : Fresh v.base a.tx) (genesis : Hash256) :
    (v.act genesis a).1.Wf ∧ (v.act genesis a).1.base = v.base ∧
    (v.act genesis a).1.reader = (v.reader.act genesis a).1 ∧
    (v.act genesis a).2 = (v.reader.act genesis a).2 := by
  cases a with
  | coinbase tx height =>
      obtain ⟨hw', hr⟩ := applyCoinbase_spec hw hf height
      exact ⟨hw', rfl, hr, rfl⟩
  | apply tx height verifySigs => exact apply_spec hw hnd hf height genesis verifySigs

end LedgerView

/-! ## Lists of calls -/

/-- Calls in a condition to be made: checked, and with txids new to the base
and to each other. -/
structure FreshActs (base : StateReader) (acts : List LedgerAct) : Prop where
  checked : ∀ a ∈ acts, ∃ w r, checkTxBasic a.tx w = .ok r
  fresh : ∀ a ∈ acts, LedgerView.Fresh base a.tx
  distinct : (acts.map fun a => a.tx.txid).Nodup

theorem FreshActs.nodup {base : StateReader} {acts : List LedgerAct}
    (h : FreshActs base acts) {a : LedgerAct} (ha : a ∈ acts) :
    (a.tx.ins.map TxIn.prev).Nodup := by
  obtain ⟨w, r, hc⟩ := h.checked a ha
  exact checkTxBasic_nodup hc

theorem FreshActs.initial {base : StateReader} {acts pre : List LedgerAct}
    (h : FreshActs base acts) (hp : pre <+: acts) : FreshActs base pre where
  checked := fun a ha => h.checked a (hp.subset ha)
  fresh := fun a ha => h.fresh a (hp.subset ha)
  distinct := h.distinct.sublist (hp.sublist.map _)

theorem FreshActs.tail {base : StateReader} {a : LedgerAct} {acts : List LedgerAct}
    (h : FreshActs base (a :: acts)) : FreshActs base acts where
  checked := fun b hb => h.checked b (List.mem_cons_of_mem a hb)
  fresh := fun b hb => h.fresh b (List.mem_cons_of_mem a hb)
  distinct := (List.nodup_cons.mp h.distinct).2

namespace LedgerView

theorem run_spec (genesis : Hash256) {acts : List LedgerAct} {v : LedgerView} (hw : v.Wf)
    (h : FreshActs v.base acts) :
    (v.run genesis acts).1.Wf ∧ (v.run genesis acts).1.base = v.base ∧
    (v.run genesis acts).1.reader = (v.reader.run genesis acts).1 ∧
    (v.run genesis acts).2 = (v.reader.run genesis acts).2 := by
  induction acts generalizing v with
  | nil => exact ⟨hw, rfl, rfl, rfl⟩
  | cons a acts ih =>
      have ha := List.mem_cons_self (a := a) (l := acts)
      obtain ⟨hw₁, hb₁, hr₁, hv₁⟩ := act_spec hw (h.nodup ha) (h.fresh a ha) genesis
      obtain ⟨hw₂, hb₂, hr₂, hv₂⟩ := ih hw₁ (by rw [hb₁]; exact h.tail)
      refine ⟨hw₂, hb₂.trans hb₁, ?_, ?_⟩
      · show ((v.act genesis a).1.run genesis acts).1.reader = _
        rw [hr₂, hr₁]
        rfl
      · show (v.act genesis a).2 :: ((v.act genesis a).1.run genesis acts).2 = _
        rw [hv₂, hv₁, hr₁]
        rfl

end LedgerView

/-! ## Nothing is consumed twice -/

theorem map_fst_outputs {a : LedgerAct} {o : OutPoint}
    (h : o ∈ a.outputs.map Prod.fst) : o.txid = a.tx.txid := by
  cases a with
  | coinbase tx height => exact LedgerView.map_fst_newCoins h
  | apply tx height verifySigs => exact LedgerView.map_fst_newCoins h

/-- The coins after an accepted call. -/
theorem act_coin {genesis : Hash256} {s s' : StateReader} {a : LedgerAct} {fee : Amount}
    (hnd : (a.tx.ins.map TxIn.prev).Nodup) (h : s.act genesis a = (s', .ok fee)) :
    (∀ o ∈ a.inputs, (s.coin o).isSome) ∧
    ∀ o, s'.coin o = updateAll (fun o => if o ∈ a.inputs then none else s.coin o)
      a.outputs o := by
  cases a with
  | coinbase tx height =>
      cases h
      refine ⟨fun o ho => absurd ho List.not_mem_nil, fun o => ?_⟩
      rw [StateReader.applyCoinbase, StateReader.addCoins_coin]
      rfl
  | apply tx height verifySigs =>
      have hnd' : (tx.ins.map TxIn.prev).Nodup := hnd
      simp only [StateReader.act, StateReader.apply, step_eq_checkTx hnd'] at h
      cases hc : checkTx s tx height genesis verifySigs with
      | error e =>
          rw [hc] at h
          cases h
      | ok x =>
          rw [hc] at h
          cases h
          obtain ⟨st, fee'⟩ := x
          refine ⟨checkTx_inputs hc, fun o => ?_⟩
          rw [StateReader.commit, StateReader.addCoins_coin]
          have hs : (st.state s (tx.ins.map TxIn.prev)).coin =
              fun o => if o ∈ tx.ins.map TxIn.prev then none else s.coin o :=
            funext fun o => s.spendAll_coin (tx.ins.map TxIn.prev) o
          rw [hs]
          rfl

theorem act_error {genesis : Hash256} {s s' : StateReader} {a : LedgerAct} {e : String}
    (h : s.act genesis a = (s', .error e)) : s' = s := by
  cases a with
  | coinbase tx height => cases h
  | apply tx height verifySigs =>
      simp only [StateReader.act, StateReader.apply] at h
      split at h
      · cases h
        rfl
      · cases h

/-- An accepted call leaves the rest of the list fresh. -/
theorem FreshActs.step {genesis : Hash256} {s s' : StateReader} {a : LedgerAct}
    {acts : List LedgerAct} {fee : Amount} (h : FreshActs s (a :: acts))
    (ha : s.act genesis a = (s', .ok fee)) : FreshActs s' acts where
  checked := h.tail.checked
  distinct := h.tail.distinct
  fresh := by
    intro b hb n
    have hcoin := (act_coin (h.nodup (List.mem_cons_self ..)) ha).2 ⟨b.tx.txid, n⟩
    have hne : a.tx.txid ≠ b.tx.txid := by
      intro he
      refine (List.nodup_cons.mp h.distinct).1 ?_
      show a.tx.txid ∈ _
      rw [he]
      exact List.mem_map_of_mem (f := fun a : LedgerAct => a.tx.txid) hb
    rw [hcoin, updateAll_of_notMem]
    · simp only [h.tail.fresh b hb n, ite_self]
    · intro ho
      exact hne (map_fst_outputs ho).symm

/-- What a list consumes is consumed once, and nothing of it is among the
outpoints `dead` that were gone before and are never created again. -/
theorem consumed_nodup {genesis : Hash256} {acts : List LedgerAct} {s : StateReader}
    (dead : List OutPoint) (h : FreshActs s acts)
    (hdead : ∀ o ∈ dead, s.coin o = none ∧ ∀ a ∈ acts, o.txid ≠ a.tx.txid) :
    (consumed acts (s.run genesis acts).2).Nodup ∧
      ∀ o ∈ consumed acts (s.run genesis acts).2, o ∉ dead := by
  induction acts generalizing s dead with
  | nil => exact ⟨List.nodup_nil, fun o ho => absurd ho List.not_mem_nil⟩
  | cons a acts ih =>
      have htail : ∀ o ∈ dead, ∀ b ∈ acts, o.txid ≠ b.tx.txid := fun o ho b hb =>
        (hdead o ho).2 b (List.mem_cons_of_mem a hb)
      cases hact : s.act genesis a with
      | mk s' r =>
      have hrun : (s.run genesis (a :: acts)).2 = r :: (s'.run genesis acts).2 := by
        rw [StateReader.run, hact]
      rw [hrun]
      cases r with
      | error e =>
          rw [act_error hact]
          exact ih dead h.tail fun o ho => ⟨(hdead o ho).1, htail o ho⟩
      | ok fee =>
          obtain ⟨hin, hcoin⟩ := act_coin (h.nodup (List.mem_cons_self ..)) hact
          -- A coin of `s` has a txid that no call of the list will use.
          have hold : ∀ o, (s.coin o).isSome → ∀ b ∈ a :: acts, o.txid ≠ b.tx.txid := by
            intro o ho b hb he
            have hn := h.fresh b hb o.n
            rw [← he] at hn
            rw [hn] at ho
            cases ho
          have hgone : ∀ o, o.txid ≠ a.tx.txid → s'.coin o =
              if o ∈ a.inputs then none else s.coin o := by
            intro o ho
            rw [hcoin o, updateAll_of_notMem]
            exact fun hm => ho (map_fst_outputs hm)
          obtain ⟨hnd, hdisj⟩ := ih (dead ++ a.inputs) (h.step hact) (by
            intro o ho
            rcases List.mem_append.mp ho with ho | ho
            · refine ⟨?_, htail o ho⟩
              rw [hgone o ((hdead o ho).2 a (List.mem_cons_self ..)), (hdead o ho).1, ite_self]
            · have hne := hold o (hin o ho)
              refine ⟨?_, fun b hb => hne b (List.mem_cons_of_mem a hb)⟩
              rw [hgone o (hne a (List.mem_cons_self ..)), if_pos ho])
          have hins : a.inputs.Nodup := by
            cases a with
            | coinbase tx height => exact List.nodup_nil
            | apply tx height verifySigs => exact h.nodup (List.mem_cons_self ..)
          refine ⟨List.nodup_append'.mpr ⟨hins, hnd, ?_⟩, ?_⟩
          · intro o ho ho'
            exact hdisj o ho' (List.mem_append_right dead ho)
          · intro o ho hd
            rcases List.mem_append.mp ho with ho | ho
            · have hs := hin o ho
              rw [(hdead o hd).1] at hs
              cases hs
            · exact hdisj o ho (List.mem_append_left _ hd)

/-- Every coin of a run was there at the start or was created in it. -/
theorem run_coin {genesis : Hash256} {acts : List LedgerAct} {s : StateReader}
    (h : FreshActs s acts) {o : OutPoint} (ho : ((s.run genesis acts).1.coin o).isSome) :
    (s.coin o).isSome ∨ o ∈ created acts (s.run genesis acts).2 := by
  induction acts generalizing s with
  | nil => exact .inl ho
  | cons a acts ih =>
      cases hact : s.act genesis a with
      | mk s' r =>
      have hrun : s.run genesis (a :: acts) =
          ((s'.run genesis acts).1, r :: (s'.run genesis acts).2) := by
        rw [StateReader.run, hact]
      rw [hrun] at ho ⊢
      cases r with
      | error e =>
          rw [act_error hact] at ho ⊢
          exact ih h.tail ho
      | ok fee =>
          rcases ih (h.step hact) ho with hs | hc
          · rw [(act_coin (h.nodup (List.mem_cons_self ..)) hact).2 o] at hs
            by_cases hm : o ∈ a.outputs.map Prod.fst
            · exact .inr (List.mem_append_left _ hm)
            · rw [updateAll_of_notMem _ hm] at hs
              split at hs
              · cases hs
              · exact .inl hs
          · exact .inr (List.mem_append_right _ hc)

/-! ## Connecting a block -/

/-- A block whose transactions all went through, as a list of calls. -/
theorem applyTxs_run {height : UInt64} {genesis : Hash256} {verify : Bool}
    {txs : List Transaction} {v v' : LedgerView} {fees fees' : Amount}
    (h : applyTxs height genesis verify v txs fees = .ok (v', fees')) :
    (v.run genesis (txs.map fun tx => .apply tx height verify)).1 = v' := by
  induction txs generalizing v fees with
  | nil =>
      cases h
      rfl
  | cons tx txs ih =>
      rw [applyTxs] at h
      split at h
      · cases h
      · next v₁ fee h₁ =>
          rw [List.map_cons, LedgerView.run]
          simp only [LedgerView.act, h₁]
          exact ih h

theorem blockView_run {base : StateReader} {b : Block} {height : UInt64}
    {genesis : Hash256} {verify : Bool} {v : LedgerView} {fees : Amount}
    (h : blockView base b height genesis verify = .ok (v, fees)) :
    (LedgerView.run genesis { base := base } (blockActs b height verify)).1 = v := by
  rw [blockActs, LedgerView.run]
  exact applyTxs_run h

namespace Chainstate

/-- What a successful connect went through. -/
theorem connectBlock_ok {cfg : Config} {s s' : Chainstate} {idx : Hash256}
    (h : s.connectBlock cfg idx = (s', .ok ())) :
    ∃ b got v fees, s.readBlock cfg idx true = some (b, got) ∧
      (got = true ∨ s.deep idx = true ∨ (s.entry idx).height = 0) ∧
      s.commitmentOk cfg idx = true ∧
      blockView s.reader b (UInt64.ofNat (s.entry idx).height) cfg.params.genesisHash
        (got && (s.entry idx).height > 0) = .ok (v, fees) ∧
      ((s.entry idx).height > 0 → (b.txs.headD default).totalQntOut ≤
        blockSubsidy (UInt64.ofNat (s.entry idx).height) + fees) ∧
      ((s.entry idx).height > 0 → cfg.env.fault s.tick .writeUndo = false) ∧
      s' = s.commitBlock cfg idx b v := by
  rw [connectBlock] at h
  split at h
  · cases h
  next b v hc =>
  cases h
  simp only [checkConnect] at hc
  split at hc
  · cases hc
  next b' got hread =>
  split at hc
  · cases hc
  next hwit =>
  split at hc
  · cases hc
  next hcommit =>
  split at hc
  · cases hc
  next v' fees hview =>
  split at hc
  · cases hc
  next hpay =>
  split at hc
  · cases hc
  next hundo =>
  cases hc
  refine ⟨b, got, v, fees, hread, ?_, by simpa using hcommit, hview, ?_, ?_, rfl⟩
  · cases got with
    | true => exact .inl rfl
    | false =>
        cases hd : s.deep idx with
        | true => exact .inr (.inl rfl)
        | false =>
            right
            right
            simp only [Bool.not_false, hd, true_and, gt_iff_lt, Nat.not_lt,
              Nat.le_zero] at hwit
            exact hwit
  · intro hpos
    simpa [hpos] using hpay
  · intro hpos
    simpa [hpos] using hundo

end Chainstate

/-! ## The refinement -/

/-- Over any base and any list of fresh, checked transactions the overlay is
the reference: same verdicts, same fees, same lookups after every prefix; a
refusal changes nothing; the two optionals of the commit section are never
empty; what is consumed is consumed once and was there; and a block connected
through a view leaves the chainstate's maps as the reference leaves them. -/
theorem overlay_refines_reference (genesis : Hash256) {base : StateReader}
    {acts : List LedgerAct} (h : FreshActs base acts) :
    (∀ pre, pre <+: acts →
      (LedgerView.run genesis { base := base } pre).2 = (base.run genesis pre).2 ∧
      (LedgerView.run genesis { base := base } pre).1.coin = (base.run genesis pre).1.coin ∧
      (LedgerView.run genesis { base := base } pre).1.token = (base.run genesis pre).1.token ∧
      (LedgerView.run genesis { base := base } pre).1.pool = (base.run genesis pre).1.pool) ∧
    (∀ (v : LedgerView) tx height verifySigs e,
      (v.apply tx height genesis verifySigs).2 = .error e →
      (v.apply tx height genesis verifySigs).1 = v) ∧
    (∀ pre tx height verifySigs post st fee,
      acts = pre ++ .apply tx height verifySigs :: post →
      checkTx (LedgerView.run genesis { base := base } pre).1.reader tx height genesis
        verifySigs = .ok (st, fee) →
      (∀ t p, st.touched.lookup t = some p → p.isSome) ∧
      ∀ l₁ o l₂, tx.ins.map TxIn.prev = l₁ ++ o :: l₂ →
        o ∈ (l₁.foldl LedgerView.spendInput
          (LedgerView.run genesis { base := base } pre).1).created ∨ (base.coin o).isSome) ∧
    ((consumed acts (base.run genesis acts).2).Nodup ∧
      ∀ pre a post fee, acts = pre ++ a :: post →
        ((base.run genesis pre).1.act genesis a).2 = .ok fee →
        ∀ o ∈ a.inputs, (base.coin o).isSome ∨ o ∈ created pre (base.run genesis pre).2) ∧
    (∀ (cfg : Config) (s s' : Chainstate) (idx : Hash256) (b : Block) (got : Bool),
      cfg.params.genesisHash = genesis → s.reader = base →
      s.readBlock cfg idx true = some (b, got) →
      acts = blockActs b (UInt64.ofNat (s.entry idx).height)
        (got && (s.entry idx).height > 0) →
      s.connectBlock cfg idx = (s', .ok ()) →
      (∀ o, s'.utxo.lookup o = (base.run genesis acts).1.coin o) ∧
      (∀ id, s'.tokens.lookup id = (base.run genesis acts).1.token id) ∧
      ∀ t, s'.pools.lookup t = (base.run genesis acts).1.pool t) := by
  have hrun : ∀ pre, pre <+: acts →
      (LedgerView.run genesis { base := base } pre).1.Wf ∧
      (LedgerView.run genesis { base := base } pre).1.base = base ∧
      (LedgerView.run genesis { base := base } pre).1.reader = (base.run genesis pre).1 ∧
      (LedgerView.run genesis { base := base } pre).2 = (base.run genesis pre).2 := by
    intro pre hp
    have hs := LedgerView.run_spec genesis (LedgerView.wf_mk base) (h.initial hp)
    rwa [LedgerView.reader_mk] at hs
  refine ⟨fun pre hp => ?_, ?_, ?_, ⟨?_, ?_⟩, ?_⟩
  · obtain ⟨-, -, hr, hv⟩ := hrun pre hp
    rw [← hr]
    exact ⟨hv, rfl, rfl, rfl⟩
  · intro v tx height verifySigs e he
    rw [LedgerView.apply] at he ⊢
    split
    · rfl
    · next hc =>
        rw [hc] at he
        cases he
  · intro pre tx height verifySigs post st fee hacts hc
    obtain ⟨hw, hb, -, -⟩ := hrun pre ⟨_, hacts.symm⟩
    have hmem : LedgerAct.apply tx height verifySigs ∈ acts := by
      rw [hacts]
      exact List.mem_append_right _ (List.mem_cons_self ..)
    obtain ⟨-, -, -, hd⟩ :=
      LedgerView.spendInputs_spec hw (h.nodup hmem) (checkTx_inputs hc)
    rw [hb] at hd
    exact ⟨(checkTx_settled hc).touched_some, hd⟩
  · exact (consumed_nodup [] h fun o ho => absurd ho List.not_mem_nil).1
  · intro pre a post fee hacts ha o ho
    have hmem : a ∈ acts := by
      rw [hacts]
      exact List.mem_append_right _ (List.mem_cons_self ..)
    have hin := (act_coin (h.nodup hmem) (Prod.ext rfl ha)).1 o ho
    exact run_coin (h.initial ⟨_, hacts.symm⟩) hin
  · intro cfg s s' idx b got hgen hbase hread hacts hconn
    obtain ⟨b', got', v, fees, hread', -, -, hview, -, -, rfl⟩ :=
      Chainstate.connectBlock_ok hconn
    rw [hread] at hread'
    cases hread'
    rw [hgen, hbase] at hview
    have hv := blockView_run hview
    rw [← hacts] at hv
    obtain ⟨hw, hb, hr, -⟩ := hrun acts (List.prefix_refl acts)
    rw [hv] at hw hb hr
    have hfinal : (s.commitBlock cfg idx b v).reader = (base.run genesis acts).1 := by
      rw [Chainstate.commitBlock_reader, Chainstate.commitView_reader hw (hb.trans hbase.symm),
        hr]
    rw [← hfinal]
    exact ⟨fun _ => rfl, fun _ => rfl, fun _ => rfl⟩

/-! ## A coinbase and its spend in one view -/

def mintTx : Transaction where
  outs := [⟨30000, qntAsset, 5⟩]
  lockHeight := 1

def spendTx (txid : Hash256) : Transaction where
  ins := [⟨⟨txid, 0⟩⟩]
  outs := [⟨20000, qntAsset, 6⟩]

omit [Crypto] in
theorem overlay_refines_reference_spend :
    letI := plainCrypto
    let acts := [.coinbase mintTx 1, .apply (spendTx mintTx.txid) 200 false]
    (LedgerView.run 0 { base := StateReader.empty } acts).2 =
        (StateReader.empty.run 0 acts).2 ∧
      (StateReader.empty.run 0 acts).2 = [.ok 0, .ok 10000] := by
  let _ := plainCrypto
  have h : FreshActs StateReader.empty
      [.coinbase mintTx 1, .apply (spendTx mintTx.txid) 200 false] :=
    { checked := by
        intro a ha
        rcases List.mem_cons.mp ha with rfl | ha
        · exact ⟨false, 0, by decide +kernel⟩
        · rcases List.mem_cons.mp ha with rfl | ha
          · exact ⟨false, 0, by decide +kernel⟩
          · cases ha
      fresh := fun _ _ _ => rfl
      distinct := by decide +kernel }
  exact ⟨((overlay_refines_reference 0 h).1 _ (List.prefix_refl _)).1,
    by decide +kernel⟩

end QuantCore
