import QuantCore.Proofs.Run

/-!
# The candidate set

`WorkCmp` orders blocks by their work and, among equals, by their arrival. The
list that stands here for the set is ascending in every state a node gets into:
inserting looks for the place, erasing and dropping only take elements out, and
the order of known blocks is not changed by a header that is new. So nothing
that has not failed ranks above the best candidate, which is read off the end.
-/

namespace QuantCore

open Maps Forest

variable [Crypto]

namespace Chainstate

variable {s s' : Chainstate} {cfg : Config}

/-! ## The order -/

omit [Crypto] in
theorem workLess_iff (s : Chainstate) (a b : Hash256) : s.workLess a b = true ↔
    (s.work a).toNat < (s.work b).toNat ∨
      ((s.work a).toNat = (s.work b).toNat ∧ (s.entry b).seq < (s.entry a).seq) := by
  rw [workLess, U256.cmp_eq_compare]
  rcases Nat.lt_trichotomy (s.work a).toNat (s.work b).toNat with h | h | h
  · rw [Nat.compare_eq_lt.mpr h]
    simp only [h, true_or]
  · rw [Nat.compare_eq_eq.mpr h]
    simp only [decide_eq_true_eq]
    omega
  · rw [Nat.compare_eq_gt.mpr h]
    simp only [Bool.false_eq_true, false_iff]
    omega

omit [Crypto] in
theorem workLess_trans {a b c : Hash256} (hab : s.workLess a b = true)
    (hbc : s.workLess b c = true) : s.workLess a c = true := by
  rw [workLess_iff] at hab hbc ⊢
  omega

omit [Crypto] in
theorem workLess_irrefl (a : Hash256) : s.workLess a a = false := by
  rw [← Bool.not_eq_true, workLess_iff]
  omega

omit [Crypto] in
/-- What `WorkCmp` looks at. -/
theorem workLess_congr {a b : Hash256}
    (ha : s'.work a = s.work a ∧ (s'.entry a).seq = (s.entry a).seq)
    (hb : s'.work b = s.work b ∧ (s'.entry b).seq = (s.entry b).seq) :
    s'.workLess a b = s.workLess a b := by
  rw [workLess, workLess, ha.1, ha.2, hb.1, hb.2]

omit [Crypto] in
/-- A known block keeps its rank when the tree grows. -/
theorem rank_extends (h : Nodes.Extends s.node s'.node) {x : Hash256}
    (hx : (s.node x).isSome) : s'.work x = s.work x ∧ (s'.entry x).seq = (s.entry x).seq := by
  obtain ⟨n, hn⟩ := Option.isSome_iff_exists.mp hx
  obtain ⟨l, hl⟩ := h x n hn
  have hold := entry_node hn
  have hnew := entry_node hl
  constructor
  · show (s'.entry x).node.chainwork = (s.entry x).node.chainwork
    rw [hold, hnew]
  · show (s'.entry x).node.seq = (s.entry x).node.seq
    rw [hold, hnew]

omit [Crypto] in
theorem rank_node (h : s'.node = s.node) (x : Hash256) :
    s'.work x = s.work x ∧ (s'.entry x).seq = (s.entry x).seq := by
  have hnode := entry_node_congr h x
  exact ⟨congrArg Node.chainwork hnode, congrArg Node.seq hnode⟩

/-! ## The set -/

/-- The candidates are known blocks in ascending order. -/
structure Ordered (s : Chainstate) : Prop where
  known : ∀ c ∈ s.candidates, (s.node c).isSome
  sorted : s.candidates.Pairwise fun a b => s.workLess a b = true

omit [Crypto] in
theorem ordered_nil (h : s.candidates = []) : s.Ordered where
  known := by
    rw [h]
    exact fun c hc => absurd hc List.not_mem_nil
  sorted := by
    rw [h]
    exact List.Pairwise.nil

omit [Crypto] in
/-- Blocks leave the set, and the tree grows. -/
theorem Ordered.extends {t : Chainstate} (h : s.Ordered) (hn : Nodes.Extends s.node t.node)
    (hc : t.candidates.Sublist s.candidates) : t.Ordered where
  known := fun c hmem => hn.isSome (h.known c (hc.subset hmem))
  sorted := by
    refine (h.sorted.sublist hc).imp_of_mem fun {a b} ha hb hab => ?_
    rw [workLess_congr (rank_extends hn (h.known a (hc.subset ha)))
      (rank_extends hn (h.known b (hc.subset hb)))]
    exact hab

omit [Crypto] in
theorem Ordered.of_node {t : Chainstate} (h : s.Ordered) (hn : t.node = s.node)
    (hc : t.candidates.Sublist s.candidates) : t.Ordered :=
  h.extends (by rw [hn]; exact .refl _) hc

omit [Crypto] in
theorem mem_of_mem_insertSorted {x y : Hash256} {l : List Hash256}
    (h : y ∈ s.insertSorted x l) : y = x ∨ y ∈ l := by
  induction l with
  | nil => exact .inl (List.mem_singleton.mp h)
  | cons z l ih =>
      rw [insertSorted] at h
      split at h
      · exact List.mem_cons.mp h
      · split at h
        · rcases List.mem_cons.mp h with rfl | h
          · exact .inr List.mem_cons_self
          · exact (ih h).imp_right (List.mem_cons_of_mem z)
        · exact .inr h

omit [Crypto] in
theorem insertSorted_sorted {x : Hash256} {l : List Hash256}
    (h : l.Pairwise fun a b => s.workLess a b = true) :
    (s.insertSorted x l).Pairwise fun a b => s.workLess a b = true := by
  induction l with
  | nil => exact List.pairwise_singleton _ x
  | cons z l ih =>
      obtain ⟨hz, hl⟩ := List.pairwise_cons.mp h
      rw [insertSorted]
      split
      · next hxz =>
          refine List.pairwise_cons.mpr ⟨fun y hy => ?_, h⟩
          rcases List.mem_cons.mp hy with rfl | hy
          · exact hxz
          · exact workLess_trans hxz (hz y hy)
      · split
        · next hzx =>
            refine List.pairwise_cons.mpr ⟨fun y hy => ?_, ih hl⟩
            rcases mem_of_mem_insertSorted hy with rfl | hy
            · exact hzx
            · exact hz y hy
        · exact h

omit [Crypto] in
theorem Ordered.add (h : s.Ordered) {x : Hash256} (hx : (s.node x).isSome) :
    (s.addCandidate x).Ordered where
  known := fun c hc => by
    rcases mem_of_mem_insertSorted hc with rfl | hc
    · exact hx
    · exact h.known c hc
  sorted := insertSorted_sorted h.sorted

omit [Crypto] in
/-- No unfailed candidate ranks above the one that is found from the end. -/
theorem Ordered.best (h : s.Ordered) (hne : s.bestCandidate ≠ s.tip) {c : Hash256}
    (hc : c ∈ s.candidates) (hf : (s.entry c).failed = false) :
    s.workLess s.bestCandidate c = false := by
  have hlast : ∃ b, s.candidates.reverse.find? (fun c => !(s.entry c).failed) = some b ∧
      s.workLess b c = false := by
    have hrev : s.candidates.reverse.Pairwise fun a b => s.workLess b a = true :=
      List.pairwise_reverse.mpr h.sorted
    have hmem := List.mem_reverse.mpr hc
    revert hrev hmem
    generalize s.candidates.reverse = l
    intro hrev hmem
    induction l with
    | nil => cases hmem
    | cons z l ih =>
        obtain ⟨hz, hrev'⟩ := List.pairwise_cons.mp hrev
        rw [List.find?_cons]
        cases hzf : (s.entry z).failed with
        | false =>
            refine ⟨z, rfl, ?_⟩
            rcases List.mem_cons.mp hmem with rfl | hmem
            · exact workLess_irrefl c
            · rw [← Bool.not_eq_true]
              intro hzc
              have hcc := workLess_trans (hz c hmem) hzc
              rw [workLess_irrefl] at hcc
              cases hcc
        | true =>
            rcases List.mem_cons.mp hmem with rfl | hmem
            · rw [hf] at hzf
              cases hzf
            · exact ih hrev' hmem
  obtain ⟨b, hb, hbc⟩ := hlast
  rw [bestCandidate, hb] at hne ⊢
  simp only [] at hne ⊢
  split at hne
  · next hgt =>
      rw [if_pos hgt]
      exact hbc
  · exact absurd rfl hne

/-! ## Marks -/

omit [Crypto] in
theorem isSome_of_haveData {x : Hash256} (h : (s.entry x).haveData = true) :
    (s.node x).isSome := by
  rw [node_isSome]
  by_contra hx
  rw [entry, AList.lookup_eq_none.mpr hx] at h
  cases h

omit [Crypto] in
theorem markLoop_sublist (k : Nat) (todo : List Hash256) (s : Chainstate) :
    (markLoop k todo s).candidates.Sublist s.candidates := by
  induction k generalizing todo s with
  | zero => exact List.Sublist.refl _
  | succ k ih =>
      cases todo with
      | nil => exact List.Sublist.refl _
      | cons x todo =>
          rw [markLoop]
          refine (ih ..).trans ?_
          have hm := modify_eq s x fun b => { b with failed := true }
          rw [hm]
          exact List.filter_sublist

theorem markFailed_sublist (cfg : Config) (s : Chainstate) (b : Hash256) :
    (s.markFailed cfg b).candidates.Sublist s.candidates :=
  markLoop_sublist _ _ s

omit [Crypto] in
theorem chainDataLoop_ordered (k : Nat) (todo : List Hash256) (h : s.Ordered) :
    (chainDataLoop k todo s).Ordered := by
  induction k generalizing todo s with
  | zero => exact h
  | succ k ih =>
      cases todo with
      | nil => exact h
      | cons x todo =>
          rw [chainDataLoop]
          split
          · exact ih todo h
          · next hready =>
              have hdata : (s.entry x).haveData = true := by
                simp only [not_or, Bool.not_eq_true', Bool.not_eq_false] at hready
                exact hready.1
              have hnode := modify_node s x (f := fun b => { b with chainData := true }) fun _ => rfl
              have hm : (s.modify x fun b => { b with chainData := true }).Ordered :=
                h.of_node hnode (by rw [modify_eq])
              refine ih _ ?_
              split
              · exact hm
              · refine hm.add ?_
                rw [hnode]
                exact isSome_of_haveData hdata

omit [Crypto] in
theorem updateChainData_ordered (h : s.Ordered) (b : Hash256) : (s.updateChainData b).Ordered := by
  rw [updateChainData]
  split
  · exact h
  · exact chainDataLoop_ordered _ _ h

/-! ## Steps -/

theorem acceptHeader_ordered {hd : BlockHeader} {r : HeaderResult} (h : s.Ordered)
    (hr : s.acceptHeader cfg hd = (s', r)) : s'.Ordered := by
  rcases acceptHeader_cases hr with ⟨rfl, -⟩ | ⟨-, hnew, hp, -, rfl⟩
  · exact h.of_node rfl (List.Sublist.refl _)
  · refine h.extends (t := { s.ticked.addIndex hd with disk := _ }) ?_ ?_
    · show Nodes.Extends s.node (s.ticked.addIndex hd).node
      rw [addIndex_node (s := s.ticked) hp]
      refine Nodes.extends_grow ?_
      rw [show (s.ticked.newEntry hd).node.hash = hd.hash from newEntry_hash s.ticked hd]
      rw [Chainstate.node, show s.lookup hd.hash = none from AList.lookup_eq_none.mpr hnew]
      rfl
    · show (s.ticked.addIndex hd).candidates.Sublist s.candidates
      rw [addIndex_eq]
      exact List.Sublist.refl _

theorem receiveBlock_ordered {b : Block} {w : Bool} {r : Except String Bool} (h : s.Ordered)
    (hr : s.receiveBlock cfg b w = (s', r)) : s'.Ordered := by
  obtain ⟨s₁, hres, ha, hb⟩ := receiveBlock_cases hr
  have h₁ := acceptHeader_ordered h ha
  rcases hb with ⟨-, hb⟩ | ⟨-, rfl, -⟩
  · rcases receiveBody_cases hb with ⟨rfl, -⟩ | ⟨-, -, -, rfl, -⟩ | ⟨-, -, s₂, done, hs, hcase⟩
    · exact h₁
    · exact h₁.of_node rfl (List.Sublist.refl _)
    · have h₂ : s₂.Ordered := by
        rcases storeBlock_cases hs with ⟨-, rfl, -⟩ | ⟨-, -, rfl⟩
        · exact h₁.of_node rfl (List.Sublist.refl _)
        · refine h₁.of_node (stored_sameTree s₁ _ b _).node ?_
          rw [stored, modify_eq]
      rcases hcase with ⟨-, rfl, -⟩ | ⟨-, rfl, -⟩
      · exact h₂
      · exact updateChainData_ordered h₂ _
  · exact h₁

omit [Crypto] in
theorem adoptSnapshot_ordered (h : s.Ordered) {bh : Hash256} (hb : bh ∈ s.index) :
    (s.adoptSnapshot bh).Ordered := by
  have hfold : ∀ (l : List Hash256) (s : Chainstate), s.Ordered →
      (l.foldl updateChainData s).Ordered := by
    intro l
    induction l with
    | nil => exact fun s h => h
    | cons c l ih => exact fun s h => ih _ (updateChainData_ordered h c)
  rw [adoptSnapshot]
  refine hfold _ _ (Ordered.add ?_ ?_)
  · refine h.of_node ?_ ?_
    · rw [modify_node _ bh (f := fun i => { i with chainData := true }) fun _ => rfl]
      exact modify_node s bh (f := fun i => { i with fromSnapshot := true }) fun _ => rfl
    · rw [modify_eq]
      show (s.modify bh _).candidates.Sublist _
      rw [modify_eq]
  · rw [modify_node _ bh (f := fun i => { i with chainData := true }) fun _ => rfl]
    show ((s.modify bh fun i => { i with fromSnapshot := true }).node bh).isSome = true
    rw [modify_node s bh (f := fun i => { i with fromSnapshot := true }) fun _ => rfl, node_isSome]
    exact hb

theorem receiveSnapshot_ordered {x : Bytes} {r : Except String Bool} (h : s.Ordered)
    (hr : s.receiveSnapshot cfg x = (s', r)) : s'.Ordered := by
  have hload : ∀ snap, (s.ticked.loadSnapshot snap).Ordered := by
    intro snap
    have hl := loadSnapshot_ledgerOnly s.ticked snap
    refine h.of_node hl.sameTree.node ?_
    rw [LedgerOnly] at hl
    rw [hl]
    exact List.Sublist.refl _
  rcases receiveSnapshot_cases hr with ⟨-, rfl | ⟨-, rfl⟩⟩ | ⟨bh, snap, had, hcase⟩
  · exact h.of_node rfl (List.Sublist.refl _)
  · exact h.of_node (t := s.ticked.clearState) rfl (List.Sublist.refl _)
  · rcases hcase with ⟨-, -, rfl⟩ | ⟨-, -, rfl⟩ | ⟨-, held, rfl, rfl⟩
    · exact hload snap
    · exact (hload snap).of_node (t := holdSnapshot _ bh x) rfl (List.Sublist.refl _)
    · have hheld : Ordered { (s.ticked.loadSnapshot snap).holdSnapshot bh x with
          disk := { ((s.ticked.loadSnapshot snap).holdSnapshot bh x).disk with
            baseDat := some bh.bytes } } :=
        (hload snap).of_node rfl (List.Sublist.refl _)
      refine (adoptSnapshot_ordered hheld ?_).of_node (flush_sameTree cfg _).node
        (List.Sublist.refl _)
      rw [← node_isSome]
      show ((s.ticked.loadSnapshot snap).node bh).isSome = true
      rw [(loadSnapshot_ledgerOnly s.ticked snap).sameTree.node, node_isSome]
      exact had.known

theorem connectBlock_candidates {idx : Hash256} {r : Except String Unit}
    (h : s.connectBlock cfg idx = (s', r)) :
    s'.candidates = s.candidates ∧ s'.index = s.index := by
  rw [connectBlock] at h
  split at h
  · cases h
    exact ⟨rfl, rfl⟩
  · next b v hc =>
      cases h
      have hf := commitBlock_filesOnly cfg s idx b v
      have hl := commitView_ledgerOnly s v
      refine ⟨?_, hf.files.1.trans (connected_index idx b v)⟩
      rw [FilesOnly] at hf
      rw [LedgerOnly] at hl
      rw [hf]
      show (s.commitView v).candidates = _
      rw [hl]

theorem disconnectTip_candidates {r : Except String Unit}
    (h : s.disconnectTip cfg = (s', r)) :
    s'.candidates = s.candidates ∧ s'.index = s.index := by
  rw [disconnectTip] at h
  split at h
  · cases h
    exact ⟨rfl, rfl⟩
  split at h
  · next b got u hb hu =>
      cases h
      constructor
      · show (s.revertBlock b u).candidates = _
        rw [revertBlock_eq]
      · show (s.revertBlock b u).index = _
        rw [revertBlock_eq]
  · cases h
    exact ⟨rfl, rfl⟩

theorem flushDue_candidates (cfg : Config) (s : Chainstate) :
    (s.flushDue cfg).candidates = s.candidates ∧ (s.flushDue cfg).index = s.index := by
  rw [flushDue]
  split
  · exact ⟨rfl, rfl⟩
  · exact ⟨rfl, rfl⟩

theorem activateStep_ordered {ph ph' : Phase} (h : s.Ordered)
    (he : activateStep cfg ph s = (ph', s')) : s'.Ordered := by
  cases ph with
  | idle =>
      cases he
      exact h
  | choose start guard =>
      cases guard with
      | zero =>
          cases he
          exact h
      | succ guard =>
          rw [activateStep] at he
          split at he
          · cases he
            exact h
          split at he
          · cases he
            exact h
          · cases he
            exact h
  | unwind start guard cand fork =>
      rw [activateStep] at he
      split at he
      · cases he
        exact h
      · cases hd : s.disconnectTip cfg with
        | mk s₁ r =>
            have h₁ : s₁.Ordered := by
              refine h.of_node (disconnectTip_tree hd).1 ?_
              rw [(disconnectTip_candidates hd).1]
            rw [hd] at he
            cases r with
            | error e =>
                cases he
                exact h₁
            | ok u =>
                cases he
                exact h₁
  | connect start guard path =>
      cases path with
      | nil =>
          cases he
          exact h
      | cons b rest =>
          cases hc : s.connectBlock cfg b with
          | mk s₁ r =>
              have h₁ : s₁.Ordered := by
                refine h.of_node (connectBlock_tree hc).1 ?_
                rw [(connectBlock_candidates hc).1]
              rw [activateStep, hc] at he
              cases r with
              | ok u =>
                  cases he
                  refine h₁.of_node (flushDue_sameTree cfg s₁).node ?_
                  rw [(flushDue_candidates cfg s₁).1]
              | error why =>
                  simp only [] at he
                  split at he
                  · cases he
                    exact h₁
                  · cases he
                    exact h₁.of_node (markFailed_flagsOnly cfg s₁ b).sameTree.node
                      (markFailed_sublist cfg s₁ b)
  | finish start =>
      cases he
      exact h.of_node rfl (List.dropWhile_sublist _)

/-! ## A start -/

/-- There is no candidate before the flags have been set. -/
theorem loadIndex_candidates {disk : Disk} {tick : Nat} (h : loadIndex cfg disk tick = .ok s) :
    s.candidates = [] := by
  have hfold : ∀ {α : Type} {f : Chainstate → α → Chainstate},
      (∀ s a, (f s a).candidates = s.candidates) → ∀ (l : List α) (s : Chainstate),
        (l.foldl f s).candidates = s.candidates := by
    intro α f hf l
    induction l with
    | nil => exact fun s => rfl
    | cons a l ih => exact fun s => (ih (f s a)).trans (hf s a)
  have hheader : ∀ (t : Chainstate) (hd : BlockHeader),
      (t.indexHeader hd).candidates = t.candidates := by
    intro t hd
    rw [indexHeader_eq]
    split
    · rw [addIndex_eq]
    · rfl
  have hgenesis : ∀ t : Chainstate, (t.indexGenesis cfg).candidates = t.candidates := by
    intro t
    rw [indexGenesis]
    split
    · show (t.addIndex cfg.params.genesis.header).candidates = _
      rw [addIndex_eq]
    · rfl
  have hposition : ∀ (t : Chainstate) (r : Bytes), (t.indexPosition r).candidates = t.candidates := by
    intro t r
    rw [indexPosition]
    split
    · rfl
    · split
      · rfl
      · rw [modify_eq]
  rw [loadIndex] at h
  split at h
  · cases h
  rw [Except.ok.injEq] at h
  have htree := ((hfold hposition (records 44 (indexGenesis cfg ((headersOnDisk disk).foldl
    indexHeader { disk := truncateHeaders disk, tick })).disk.blockpos) _).trans
      (hgenesis _)).trans (hfold hheader (headersOnDisk disk) { disk := truncateHeaders disk, tick })
  split at h
  · rw [← h]
    exact htree
  · generalize hst : storeBlock cfg _ cfg.params.genesisHash cfg.params.genesis true = st at h
    obtain ⟨s₁, done⟩ := st
    obtain rfl : s₁ = s := h
    rcases storeBlock_cases hst with ⟨-, rfl, -⟩ | ⟨-, -, rfl⟩
    · exact htree
    · rw [stored, modify_eq]
      exact htree

omit [Crypto] in
theorem flagChainData_ordered (h : s.Ordered) (x : Hash256) : (s.flagChainData x).Ordered := by
  have hnode := modify_node s x (f := fun b => { b with chainData := s.dataReady x }) fun _ => rfl
  have hm : (s.modify x fun b => { b with chainData := s.dataReady x }).Ordered :=
    h.of_node hnode (by rw [modify_eq])
  rw [flagChainData]
  split
  · next hready =>
      refine hm.add ?_
      rw [hnode, node_isSome]
      by_contra hx
      rw [dataReady, entry, AList.lookup_eq_none.mpr hx] at hready
      cases hready
  · exact hm

theorem loadReady_ordered {disk : Disk} {tick : Nat} (h : loadReady cfg disk tick = .ok s) :
    s.Ordered := by
  obtain ⟨s₁, s₂, h₁, h₂, rfl⟩ := loadReady_cases h
  have hbase : (s₁.loadBase cfg).candidates = [] := by
    refine Eq.trans ?_ (loadIndex_candidates h₁)
    rw [loadBase]
    split
    · rfl
    split
    · rfl
    · simp only []
      split
      · show (s₁.modify _ _).candidates = _
        rw [modify_eq]
      · rfl
  have hflags : ∀ (l : List Hash256) (t : Chainstate), t.Ordered →
      (l.foldl flagChainData t).Ordered := by
    intro l
    induction l with
    | nil => exact fun t h => h
    | cons x l ih => exact fun t h => ih _ (flagChainData_ordered h x)
  have hscan : ((s₁.loadBase cfg).indexChainData.scanSnapshots cfg).Ordered :=
    (hflags _ _ (ordered_nil hbase)).of_node (t := scanSnapshots cfg _) rfl
      (List.Sublist.refl _)
  have htip : s₂.Ordered := by
    rcases loadTipState_cases h₂ with ⟨-, rfl | rfl⟩ | ⟨sb, x, -, -, -, -, -, -, rfl⟩
    · exact hscan.of_node rfl (List.Sublist.refl _)
    · exact hscan.of_node rfl (List.Sublist.refl _)
    · have hl := loadSnapshot_ledgerOnly
        { (s₁.loadBase cfg).indexChainData.scanSnapshots cfg with
          chain := [cfg.params.genesisHash] } x
      refine hscan.of_node hl.sameTree.node ?_
      rw [LedgerOnly] at hl
      rw [hl]
  refine htip.of_node ?_ ?_
  · show (s₂.indexChainTxs cfg).node = s₂.node
    rw [indexChainTxs_eq]
    rfl
  · show (s₂.indexChainTxs cfg).candidates.Sublist s₂.candidates
    rw [indexChainTxs_eq]

/-! ## A run -/

theorem Ordered.step {o : Offers} {ph ph' : Phase} (h : s.Ordered)
    (hstep : Step cfg o (ph, s) (ph', s')) : s'.Ordered := by
  have henter : ∀ {t : Chainstate} {r : Except String Bool}, (ph', s') = enter (t, r) → s' = t := by
    intro t r he
    cases r with
    | error e =>
        cases he
        rfl
    | ok go =>
        cases go with
        | false =>
            cases he
            rfl
        | true =>
            cases he
            rfl
  generalize hy : (ph', s') = y at hstep
  cases hstep with
  | header hb =>
      cases hy
      exact acceptHeader_ordered h (Prod.eta _).symm
  | @block _ b w hb =>
      rw [henter hy]
      exact receiveBlock_ordered h (Prod.eta (s.receiveBlock cfg b w)).symm
  | @snapshot _ x hx =>
      rw [henter hy]
      exact receiveSnapshot_ordered h (Prod.eta (s.receiveSnapshot cfg x)).symm
  | flush =>
      cases hy
      exact h.of_node (flush_sameTree cfg s).node (List.Sublist.refl _)
  | activate hne => exact activateStep_ordered h hy.symm
  | restart hl =>
      cases hy
      exact loadReady_ordered hl

/-- In every state a node gets into the candidates are in order. -/
theorem Reaches.ordered {o : Offers} {ok : Phase → Chainstate → Prop} {ph : Phase}
    (h : Reaches cfg o ok ph s) : s.Ordered := by
  induction h with
  | start hl hfit => exact loadReady_ordered hl
  | step _ _ hstep _ ih => exact ih.step hstep

end Chainstate

end QuantCore
