import QuantCore.Proofs.Branch
import QuantCore.Proofs.Steps

/-!
# The tree and the chain in every reachable state

Whatever arrives and whatever fails, the indexed blocks form one tree below
genesis, the active chain is a path of it from genesis, and inside a call of
`activate_best_chain` the local variables are about that tree: the fork lies on
the chain below the candidate, and the blocks still to connect lead, parent by
parent, upwards from the tip. Nothing is assumed about the blocks, the files or
the disk.
-/

namespace QuantCore

open Maps Forest

theorem ChainWf.extends {g : Hash256} {t t' : Nodes} {l : List Hash256} (h : ChainWf g t l)
    (ht : Nodes.Extends t t') : ChainWf g t' l :=
  ⟨ht.path h.path, h.head⟩

variable [Crypto]

namespace Chainstate

structure Rooted (g : Hash256) (s : Chainstate) : Prop where
  tree : Nodes.Wf g s.node s.nextSeq
  chain : ChainWf g s.node s.chain

variable {g : Hash256} {s s' : Chainstate}

theorem Rooted.of_sameTree {t : Chainstate} (h : s.Rooted g) (ht : SameTree s t) :
    t.Rooted g where
  tree := by
    rw [ht.node, ht.nextSeq]
    exact h.tree
  chain := by
    rw [ht.node, ht.chain]
    exact h.chain

theorem Rooted.tip_isSome (h : s.Rooted g) : (s.node s.tip).isSome :=
  chain_isSome h.tree h.chain (tip_mem h.chain)

/-! ## Headers and blocks -/

theorem Rooted.addIndex (h : s.Rooted g) {hd : BlockHeader} (hp : hd.prev ∈ s.index)
    (hnew : hd.hash ∉ s.index) : (s.addIndex hd).Rooted g ∧
      Nodes.Extends s.node (s.addIndex hd).node ∧ (s.addIndex hd).chain = s.chain := by
  obtain ⟨hw, hext⟩ := addIndex_wf h.tree (.inr h.chain) hp hnew
  have hc : (s.addIndex hd).chain = s.chain := by rw [addIndex_eq]
  refine ⟨⟨hw, ?_⟩, hext, hc⟩
  rw [hc]
  exact h.chain.extends hext

/-- The tree may have grown; the chain is as it was. -/
structure Grown (g : Hash256) (s s' : Chainstate) : Prop where
  rooted : s'.Rooted g
  node : Nodes.Extends s.node s'.node
  chain : s'.chain = s.chain

theorem Rooted.grown (h : s.Rooted g) (ht : SameTree s s') : Grown g s s' :=
  ⟨h.of_sameTree ht, ht.node ▸ .refl _, ht.chain⟩

theorem Grown.trans {s₁ s₂ s₃ : Chainstate} (h₁ : Grown g s₁ s₂) (h₂ : Grown g s₂ s₃) :
    Grown g s₁ s₃ :=
  ⟨h₂.rooted, h₁.node.trans h₂.node, h₂.chain.trans h₁.chain⟩

theorem acceptHeader_grown {cfg : Config} {hd : BlockHeader} {r : HeaderResult}
    (h : s.Rooted g) (hr : s.acceptHeader cfg hd = (s', r)) : Grown g s s' := by
  have ht : SameTree s s.ticked := ⟨rfl, rfl, rfl⟩
  rcases acceptHeader_cases hr with ⟨rfl, -⟩ | ⟨-, hnew, hp, -, rfl⟩
  · exact h.grown ht
  · have hs := h.of_sameTree ht
    obtain ⟨hroot, hext, hc⟩ := @Rooted.addIndex _ g _ hs hd hp hnew
    exact ⟨hroot.of_sameTree ⟨rfl, rfl, rfl⟩, hext, hc⟩

theorem receiveBody_sameTree {cfg : Config} {idx : Hash256} {b : Block} {w : Bool}
    {r : Except String Bool} (hr : s.receiveBody cfg idx b w = (s', r)) : SameTree s s' := by
  rcases receiveBody_cases hr with ⟨rfl, -⟩ | ⟨-, -, -, rfl, -⟩ | ⟨-, -, s₁, done, hs, h⟩
  · exact .refl s'
  · exact ⟨rfl, rfl, rfl⟩
  · have ht : SameTree s s₁ := by
      rcases storeBlock_cases hs with ⟨-, rfl, -⟩ | ⟨-, -, rfl⟩
      · exact ⟨rfl, rfl, rfl⟩
      · have hm := sameTree_modify s idx (f := fun i => { i with
          dataPos := s.disk.blocks.length
          dataLen := (UInt32.ofNat b.coreBytes.length).toNat, haveData := true })
          fun _ => rfl
        exact ⟨hm.node, hm.nextSeq, hm.chain⟩
    rcases h with ⟨-, rfl, -⟩ | ⟨-, rfl, -⟩
    · exact ht
    · exact ht.trans (updateChainData_flagsOnly s₁ idx).sameTree

theorem receiveBlock_grown {cfg : Config} {b : Block} {w : Bool} {r : Except String Bool}
    (h : s.Rooted g) (hr : s.receiveBlock cfg b w = (s', r)) : Grown g s s' := by
  obtain ⟨s₁, hres, ha, hb⟩ := receiveBlock_cases hr
  have h₁ := acceptHeader_grown h ha
  rcases hb with ⟨-, hb⟩ | ⟨-, rfl, -⟩
  · exact h₁.trans (h₁.rooted.grown (receiveBody_sameTree hb))
  · exact h₁

/-! ## Snapshots -/

omit [Crypto] in
theorem adoptSnapshot_flags (s : Chainstate) (bh : Hash256) :
    ∃ s₁ s₂, s₁ = s.modify bh (fun i => { i with fromSnapshot := true }) ∧
      s₂ = { s₁ with
        snapshotBase := (s₁.entry bh).height
        chain := s₁.chainTo (s₁.entry bh).height bh []
        txindex := ∅ } ∧ FlagsOnly s₂ (s.adoptSnapshot bh) := by
  refine ⟨_, _, rfl, rfl, ?_⟩
  have hm := flagsOnly_modify
    { s.modify bh (fun i => { i with fromSnapshot := true }) with
      snapshotBase := ((s.modify bh fun i => { i with fromSnapshot := true }).entry bh).height
      chain := (s.modify bh fun i => { i with fromSnapshot := true }).chainTo
        ((s.modify bh fun i => { i with fromSnapshot := true }).entry bh).height bh []
      txindex := ∅ } bh (f := fun i => { i with chainData := true }) fun _ => rfl
  exact (hm.trans (flagsOnly_addCandidate _ bh)).trans
    (FlagsOnly.foldl updateChainData_flagsOnly _ _)

/-- The chain up to a known block. -/
theorem Rooted.chainTo (hw : Nodes.Wf g s.node s.nextSeq) {bh : Hash256}
    (hb : bh ∈ s.index) :
    ChainWf g s.node (s.chainTo (s.entry bh).height bh []) ∧
      (s.chainTo (s.entry bh).height bh []).getLast? = some bh := by
  obtain ⟨n, hn⟩ := Option.isSome_iff_exists.mp (node_isSome.mpr hb)
  have hh : n.height ≤ (s.entry bh).height := by
    rw [entry_height, Nodes.height_eq hn]
  obtain ⟨p, hp, hpath, hhead, hlast⟩ := chainTo_spec hw (a := []) hn hh
  rw [hp, List.append_nil]
  exact ⟨⟨hpath, hhead⟩, hlast⟩

theorem Rooted.adoptSnapshot (h : s.Rooted g) {bh : Hash256} (hb : bh ∈ s.index) :
    (s.adoptSnapshot bh).Rooted g ∧ (s.adoptSnapshot bh).node = s.node ∧
      (s.adoptSnapshot bh).tip = bh := by
  obtain ⟨s₁, s₂, h₁, h₂, hf⟩ := adoptSnapshot_flags s bh
  have ht₁ : SameTree s s₁ := h₁ ▸ sameTree_modify s bh fun _ => rfl
  have hr₁ := h.of_sameTree ht₁
  have hb₁ : bh ∈ s₁.index := by
    rw [← node_isSome, ht₁.node, node_isSome]
    exact hb
  obtain ⟨hc, hlast⟩ := Rooted.chainTo hr₁.tree hb₁
  have hr₂ : s₂.Rooted g := by
    rw [h₂]
    exact ⟨hr₁.tree, hc⟩
  refine ⟨hr₂.of_sameTree hf.sameTree, ?_, ?_⟩
  · rw [hf.sameTree.node, h₂]
    exact ht₁.node
  · rw [hf.sameTree.tip, h₂, tip, List.getLastD_eq_getLast?, hlast]
    rfl

theorem receiveSnapshot_rooted {cfg : Config} {x : Bytes} {r : Except String Bool}
    (h : s.Rooted g) (hr : s.receiveSnapshot cfg x = (s', r)) :
    s'.Rooted g ∧ s'.node = s.node := by
  have htick : SameTree s s.ticked := ⟨rfl, rfl, rfl⟩
  have hload : ∀ snap, SameTree s (s.ticked.loadSnapshot snap) := fun snap =>
    htick.trans (loadSnapshot_ledgerOnly s.ticked snap).sameTree
  rcases receiveSnapshot_cases hr with ⟨-, rfl | ⟨-, rfl⟩⟩ | ⟨bh, snap, had, hcase⟩
  · exact ⟨h.of_sameTree htick, rfl⟩
  · exact ⟨h.of_sameTree (t := s.ticked.clearState) ⟨rfl, rfl, rfl⟩, rfl⟩
  · have hl := hload snap
    rcases hcase with ⟨-, -, rfl⟩ | ⟨-, -, rfl⟩ | ⟨-, held, hheld, rfl⟩
    · exact ⟨h.of_sameTree hl, hl.node⟩
    · exact ⟨h.of_sameTree (t := holdSnapshot (s.ticked.loadSnapshot snap) bh x)
        ⟨hl.node, hl.nextSeq, hl.chain⟩, hl.node⟩
    · have hh : SameTree s
          { held with disk := { held.disk with baseDat := some bh.bytes } } := by
        rw [hheld]
        exact ⟨hl.node, hl.nextSeq, hl.chain⟩
      have hb : bh ∈ ({ held with disk := { held.disk with baseDat := some bh.bytes } } :
          Chainstate).index := by
        rw [← node_isSome, hh.node, node_isSome]
        exact had.known
      obtain ⟨hr, hn, -⟩ := (h.of_sameTree hh).adoptSnapshot hb
      exact ⟨hr.of_sameTree (flush_sameTree cfg _), hn.trans hh.node⟩

/-! ## Connecting and disconnecting -/

theorem Rooted.push (h : s.Rooted g) {idx : Hash256} (hn : s'.node = s.node)
    (hq : s'.nextSeq = s.nextSeq) (hc : s'.chain = s.chain ++ [idx])
    (hp : Nodes.parent s.node idx = some s.tip) : s'.Rooted g where
  tree := by
    rw [hn, hq]
    exact h.tree
  chain := by
    rw [hn, hc]
    refine ⟨?_, ?_⟩
    · have hpath := h.chain.path
      rw [chain_eq_snoc h.chain] at hpath ⊢
      exact hpath.snoc hp
    · rw [List.head?_append, h.chain.head]
      rfl

theorem Rooted.pop (h : s.Rooted g) (hn : s'.node = s.node) (hq : s'.nextSeq = s.nextSeq)
    (hc : s'.chain = s.chain.dropLast) (hpos : 0 < (s.entry s.tip).height) :
    s'.Rooted g ∧ Nodes.parent s.node s.tip = some s'.tip := by
  have hlen := height_tip h.tree h.chain
  rw [← entry_height] at hlen
  have hsnoc := chain_eq_snoc h.chain
  -- There is a block below the tip.
  have hne : s.chain.dropLast ≠ [] := by
    intro he
    have := congrArg List.length he
    rw [List.length_dropLast] at this
    simp only [List.length_nil] at this
    omega
  obtain ⟨l, t, hlt⟩ : ∃ l t, s.chain.dropLast = l ++ [t] :=
    ⟨_, _, (List.dropLast_append_getLast hne).symm⟩
  have htip : s'.tip = t := by
    rw [tip, hc, hlt, List.getLastD_eq_getLast?, List.getLast?_concat]
    rfl
  have hroot : s'.Rooted g := by
    refine ⟨by rw [hn, hq]; exact h.tree, ?_⟩
    rw [hn, hc]
    refine ⟨h.chain.path.dropLast, ?_⟩
    have hhead := h.chain.head
    rw [hsnoc, List.head?_append] at hhead
    cases hd : s.chain.dropLast with
    | nil => exact absurd hd hne
    | cons x l' =>
        rw [hd] at hhead
        exact hhead
  refine ⟨hroot, ?_⟩
  have hpath := h.chain.path
  rw [hsnoc, hlt, List.append_assoc] at hpath
  have hpair := (List.isChain_append.mp hpath).2.1
  rw [htip]
  exact (List.isChain_cons_cons.mp hpair).1

/-! ## Start-up -/

/-- While the headers are read there is no chain yet and either no block or a
tree. -/
structure Sprouting (g : Hash256) (s : Chainstate) : Prop where
  chain : s.chain = []
  tree : (∀ x, s.lookup x = none) ∨ Nodes.Wf g s.node s.nextSeq

theorem Sprouting.addIndex (h : s.Sprouting g) {hd : BlockHeader}
    (hcase : ((∀ x, s.lookup x = none) ∧ hd.hash = g) ∨
      (hd.prev ∈ s.index ∧ hd.hash ∉ s.index)) :
    (s.addIndex hd).Sprouting g ∧ Nodes.Wf g (s.addIndex hd).node (s.addIndex hd).nextSeq := by
  have hw : Nodes.Wf g (s.addIndex hd).node (s.addIndex hd).nextSeq := by
    rcases hcase with ⟨hs, rfl⟩ | ⟨hp, hnew⟩
    · exact addIndex_first hs hd
    · rcases h.tree with hs | hw
      · obtain ⟨b, hb⟩ := mem_iff_exists.mp hp
        rw [show s.index.lookup hd.prev = none from hs hd.prev] at hb
        cases hb
      · exact (addIndex_wf hw (.inl h.chain) hp hnew).1
  refine ⟨⟨?_, .inr hw⟩, hw⟩
  rw [addIndex_eq]
  exact h.chain

omit [Crypto] in
theorem isEmpty_keys {s : Chainstate} :
    s.index.keys.isEmpty = true ↔ ∀ x, s.lookup x = none := by
  rw [List.isEmpty_iff]
  constructor
  · intro h x
    apply AList.lookup_eq_none.mpr
    intro hx
    have hk : x ∈ s.index.keys := hx
    rw [h] at hk
    cases hk
  · intro h
    refine List.eq_nil_iff_forall_not_mem.mpr fun x hx => ?_
    exact AList.lookup_eq_none.mp (h x) (AList.mem_keys.mpr hx)

theorem indexHeader_eq (s : Chainstate) (hd : BlockHeader) : s.indexHeader hd =
    if (s.index.keys.isEmpty ∨ hd.prev ∈ s.index) ∧ hd.hash ∉ s.index then s.addIndex hd
    else s := by
  rw [indexHeader]
  by_cases h₁ : s.index.keys.isEmpty = true ∨ hd.prev ∈ s.index
  · by_cases h₂ : hd.hash ∈ s.index
    · rw [if_pos h₁, if_pos h₂, if_neg (fun h => h.2 h₂)]
    · rw [if_pos h₁, if_neg h₂, if_pos ⟨h₁, h₂⟩]
  · rw [if_neg h₁, if_neg (fun h => h₁ h.1)]

theorem Sprouting.indexHeaders {hs : List BlockHeader} (h : s.Sprouting g)
    (hfirst : (∀ x, s.lookup x = none) → ∀ hd ∈ hs.head?, hd.hash = g) :
    (hs.foldl indexHeader s).Sprouting g := by
  induction hs generalizing s with
  | nil => exact h
  | cons hd hs ih =>
      rw [List.foldl_cons, indexHeader_eq]
      split
      · next hadd =>
          have hcase : ((∀ x, s.lookup x = none) ∧ hd.hash = g) ∨
              (hd.prev ∈ s.index ∧ hd.hash ∉ s.index) := by
            rcases hadd.1 with he | hp
            · have hs := isEmpty_keys.mp he
              exact .inl ⟨hs, hfirst hs hd rfl⟩
            · exact .inr ⟨hp, hadd.2⟩
          obtain ⟨hsp, hw⟩ := h.addIndex hcase
          refine ih hsp fun hnone => ?_
          obtain ⟨n, hn, -⟩ := hw.genesis
          rw [node, hnone] at hn
          cases hn
      · next hskip =>
          refine ih h fun hnone x hx => ?_
          -- An empty index takes the first header.
          refine absurd ⟨.inl (isEmpty_keys.mpr hnone), ?_⟩ hskip
          exact AList.lookup_eq_none.mp (hnone hd.hash)

theorem indexGenesis_tree {cfg : Config} (h : s.Sprouting cfg.params.genesisHash) :
    (s.indexGenesis cfg).chain = [] ∧
      Nodes.Wf cfg.params.genesisHash (s.indexGenesis cfg).node (s.indexGenesis cfg).nextSeq := by
  rw [indexGenesis]
  split
  · next he =>
      have hs := isEmpty_keys.mp he
      have hg : cfg.params.genesis.header.hash = cfg.params.genesisHash :=
        (genesis_hash cfg.network).symm
      obtain ⟨hsp, hw⟩ := @Sprouting.addIndex _ _ s h cfg.params.genesis.header (.inl ⟨hs, hg⟩)
      exact ⟨hsp.chain, hw⟩
  · next he =>
      exact ⟨h.chain, h.tree.resolve_left fun hs => he (isEmpty_keys.mpr hs)⟩

omit [Crypto] in
theorem foldl_sameTree {α : Type} {f : Chainstate → α → Chainstate}
    (hf : ∀ s a, SameTree s (f s a)) (l : List α) (s : Chainstate) :
    SameTree s (l.foldl f s) := by
  induction l generalizing s with
  | nil => exact .refl s
  | cons a l ih => exact (hf s a).trans (ih (f s a))

omit [Crypto] in
theorem indexPosition_sameTree (s : Chainstate) (r : Bytes) :
    SameTree s (s.indexPosition r) := by
  rw [indexPosition]
  split
  · exact .refl s
  · split
    · exact .refl s
    · exact sameTree_modify s _ fun _ => rfl

omit [Crypto] in
theorem stored_sameTree (s : Chainstate) (idx : Hash256) (b : Block) (w : Bool) :
    SameTree s (s.stored idx b w) := by
  have hm := sameTree_modify s idx (f := fun i => { i with
    dataPos := s.disk.blocks.length
    dataLen := (UInt32.ofNat b.coreBytes.length).toNat, haveData := true }) fun _ => rfl
  exact ⟨hm.node, hm.nextSeq, hm.chain⟩

omit [Crypto] in
theorem loadBase_sameTree (cfg : Config) (s : Chainstate) : SameTree s (s.loadBase cfg) := by
  rw [loadBase]
  split
  · exact .refl s
  split
  · exact .refl s
  · next base hb =>
      simp only []
      split
      · have hm := sameTree_modify s (Hash256.ofBytes base)
          (f := fun b => { b with fromSnapshot := true }) fun _ => rfl
        exact ⟨hm.node, hm.nextSeq, hm.chain⟩
      · exact .refl s

omit [Crypto] in
theorem flagChainData_flagsOnly (s : Chainstate) (h : Hash256) :
    FlagsOnly s (s.flagChainData h) := by
  have hm := flagsOnly_modify s h (f := fun b => { b with chainData := s.dataReady h })
    fun _ => rfl
  rw [flagChainData]
  split
  · exact hm.trans (flagsOnly_addCandidate _ h)
  · exact hm

omit [Crypto] in
theorem indexChainData_flagsOnly (s : Chainstate) : FlagsOnly s s.indexChainData :=
  FlagsOnly.foldl flagChainData_flagsOnly _ s

theorem indexChainTxs_eq (cfg : Config) (s : Chainstate) :
    s.indexChainTxs cfg = { s with txindex := (s.indexChainTxs cfg).txindex } := by
  have hfold : ∀ (l : List Hash256) (s : Chainstate),
      l.foldl (indexTxsOf cfg) s = { s with txindex := (l.foldl (indexTxsOf cfg) s).txindex } := by
    intro l
    induction l with
    | nil => exact fun s => rfl
    | cons x l ih =>
        intro s
        have hone : s.indexTxsOf cfg x = { s with txindex := (s.indexTxsOf cfg x).txindex } := by
          rw [indexTxsOf]
          split <;> rfl
        rw [List.foldl_cons, ih, hone]
  exact hfold s.chain s

omit [Crypto] in
theorem chainTo_congr (h : s'.index = s.index) (k : Nat) (b : Hash256) (acc : List Hash256) :
    s'.chainTo k b acc = s.chainTo k b acc := by
  induction k generalizing b acc with
  | zero => rfl
  | succ k ih =>
      have he : s'.entry b = s.entry b := by rw [entry, entry, h]
      rw [Chainstate.chainTo, Chainstate.chainTo, he]
      cases (s.entry b).prev with
      | none => rfl
      | some p => exact ih p (b :: acc)

/-- What is left of `utxo.dat` once it has been looked at: nothing, so that the
node starts from genesis, or the state and tip of a snapshot. -/
theorem loadTipState_cases {cfg : Config} (h : s.loadTipState cfg = .ok s') :
    (s.snapshotBase = 0 ∧
      (s' = { s with chain := [cfg.params.genesisHash] } ∨
        s' = { s with chain := [cfg.params.genesisHash] }.clearState)) ∨
    ∃ sb x, s.disk.utxoDat = some sb ∧
      (blake3 (sb.take (sb.length - 32))).bytes = sb.drop (sb.length - 32) ∧
      Snapshot.read (sb.take (sb.length - 32)) = .ok (x, []) ∧ x.block ∈ s.index ∧
      (s.entry x.block).chainData = true ∧
      ((s.entry x.block).height : Int) = int64 x.height ∧
      s' = { loadSnapshot { s with chain := [cfg.params.genesisHash] } x with
        chain := s.chainTo (s.entry x.block).height x.block [] } := by
  rw [loadTipState] at h
  generalize hs₀ : { s with chain := [cfg.params.genesisHash] } = s₀ at h
  have hbase : s₀.snapshotBase = s.snapshotBase := by rw [← hs₀]
  have hrebuild : ∀ s₁ : Chainstate, LedgerOnly s₀ s₁ → s₁.rebuild = .ok s' →
      s.snapshotBase = 0 ∧ s' = s₀.clearState := by
    intro s₁ hl hr
    rw [rebuild] at hr
    split at hr
    · cases hr
    · next hb =>
        cases hr
        refine ⟨?_, hl.clearState⟩
        rw [LedgerOnly] at hl
        rw [hl] at hb
        rw [← hbase]
        exact not_not.mp hb
  split at h
  · split at h
    · cases h
    · next hb =>
        cases h
        exact .inl ⟨hbase ▸ not_not.mp hb, .inl rfl⟩
  · next sb hsb =>
      have hdat : s.disk.utxoDat = some sb := by
        rw [checkedUtxo] at hsb
        split at hsb
        · cases hsb
        split at hsb
        · cases hsb
        · next hu =>
            split at hsb
            · cases hsb
            · cases hsb
              rw [← hs₀] at hu
              exact hu
      split at h
      · next s₁ t th hp =>
          rw [parseUtxo] at hp
          split at hp
          · next hsum =>
              rw [parseState] at hp
              split at hp
              · cases hp
              next x rest hread =>
              split at hp
              · next hempty =>
                  cases hp
                  rw [List.isEmpty_iff.mp hempty] at hread
                  have hl := loadSnapshot_ledgerOnly s₀ x
                  split at h
                  · next hcond =>
                      cases h
                      right
                      have hi : (s₀.loadSnapshot x).index = s.index := by
                        rw [hl, ← hs₀]
                      have he : ∀ b, (s₀.loadSnapshot x).entry b = s.entry b := by
                        intro b
                        rw [entry, hi]
                        rfl
                      rw [hi, he] at hcond
                      refine ⟨sb, x, hdat, hsum, hread, hcond.1, hcond.2.1, hcond.2.2, ?_⟩
                      rw [he, chainTo_congr hi]
                  · obtain ⟨hb, rfl⟩ := hrebuild _ hl h
                    exact .inl ⟨hb, .inr rfl⟩
              · cases hp
          · cases hp
      · next s₁ hp =>
          have hl : LedgerOnly s₀ s₁ := by
            rw [parseUtxo] at hp
            split at hp
            · rw [parseState] at hp
              split at hp
              · cases hp
                rfl
              · split at hp
                · cases hp
                · cases hp
                  rfl
            · cases hp
              exact .refl _
          obtain ⟨hb, rfl⟩ := hrebuild _ hl h
          exact .inl ⟨hb, .inr rfl⟩

/-- A start went through its stages. -/
theorem loadReady_cases {cfg : Config} {disk : Disk} {tick : Nat}
    (h : loadReady cfg disk tick = .ok s') :
    ∃ s₁ s₂, loadIndex cfg disk tick = .ok s₁ ∧
      loadTipState cfg ((s₁.loadBase cfg).indexChainData.scanSnapshots cfg) = .ok s₂ ∧
      s' = (s₂.indexChainTxs cfg).ticked := by
  rw [loadReady] at h
  split at h
  · cases h
  next s₁ h₁ =>
  split at h
  · cases h
  next s₂ h₂ =>
  cases h
  exact ⟨s₁, s₂, h₁, h₂, rfl⟩

theorem loadIndex_tree {cfg : Config} {disk : Disk} {tick : Nat}
    (h : loadIndex cfg disk tick = .ok s') :
    s'.chain = [] ∧ Nodes.Wf cfg.params.genesisHash s'.node s'.nextSeq := by
  rw [loadIndex] at h
  split at h
  · cases h
  next hfirst =>
  cases h
  have hsp : ((headersOnDisk disk).foldl indexHeader
      { disk := truncateHeaders disk, tick }).Sprouting cfg.params.genesisHash := by
    refine Sprouting.indexHeaders ⟨rfl, .inl fun x => rfl⟩ fun _ hd hhd => ?_
    cases hs : headersOnDisk disk with
    | nil =>
        rw [hs] at hhd
        cases hhd
    | cons x l =>
        rw [hs] at hhd hfirst
        cases hhd
        by_contra hne
        exact hfirst ⟨rfl, hne⟩
  obtain ⟨hc, hw⟩ := indexGenesis_tree hsp
  have ht := foldl_sameTree indexPosition_sameTree
    (records 44 (indexGenesis cfg ((headersOnDisk disk).foldl indexHeader
      { disk := truncateHeaders disk, tick })).disk.blockpos)
    (indexGenesis cfg ((headersOnDisk disk).foldl indexHeader
      { disk := truncateHeaders disk, tick }))
  have hall : ∀ s : Chainstate, SameTree
      (indexGenesis cfg ((headersOnDisk disk).foldl indexHeader
        { disk := truncateHeaders disk, tick })) s →
      s.chain = [] ∧ Nodes.Wf cfg.params.genesisHash s.node s.nextSeq := by
    intro s hs
    rw [hs.chain, hs.node, hs.nextSeq]
    exact ⟨hc, hw⟩
  split
  · exact hall _ ht
  · generalize hst : storeBlock cfg _ cfg.params.genesisHash cfg.params.genesis true = st
    obtain ⟨s₁, done⟩ := st
    rcases storeBlock_cases hst with ⟨-, rfl, -⟩ | ⟨-, -, rfl⟩
    · exact hall _ (ht.trans ⟨rfl, rfl, rfl⟩)
    · exact hall _ (ht.trans (stored_sameTree ..))

theorem loadReady_rooted {cfg : Config} {disk : Disk} {tick : Nat}
    (h : loadReady cfg disk tick = .ok s') : s'.Rooted cfg.params.genesisHash := by
  obtain ⟨s₁, s₂, h₁, h₂, rfl⟩ := loadReady_cases h
  obtain ⟨-, hw⟩ := loadIndex_tree h₁
  have ht : SameTree s₁ ((s₁.loadBase cfg).indexChainData.scanSnapshots cfg) :=
    ((loadBase_sameTree cfg s₁).trans (indexChainData_flagsOnly _).sameTree).trans
      ⟨rfl, rfl, rfl⟩
  have hw₁ : Nodes.Wf cfg.params.genesisHash
      ((s₁.loadBase cfg).indexChainData.scanSnapshots cfg).node
      ((s₁.loadBase cfg).indexChainData.scanSnapshots cfg).nextSeq := by
    rw [ht.node, ht.nextSeq]
    exact hw
  have hone : ∀ t : Nodes, ChainWf cfg.params.genesisHash t [cfg.params.genesisHash] :=
    fun t => ⟨path_singleton _, rfl⟩
  have h₂' : s₂.Rooted cfg.params.genesisHash := by
    rcases loadTipState_cases h₂ with ⟨-, rfl | rfl⟩ | ⟨sb, x, -, -, -, hx, -, -, rfl⟩
    · exact ⟨hw₁, hone _⟩
    · exact ⟨hw₁, hone _⟩
    · have hl := loadSnapshot_ledgerOnly
        { (s₁.loadBase cfg).indexChainData.scanSnapshots cfg with
          chain := [cfg.params.genesisHash] } x
      have hls := hl.sameTree
      refine ⟨?_, ?_⟩
      · show Nodes.Wf _ (loadSnapshot _ x).node (loadSnapshot _ x).nextSeq
        rw [hls.node, hls.nextSeq]
        exact hw₁
      · show ChainWf _ (loadSnapshot _ x).node _
        rw [hls.node]
        exact (Rooted.chainTo hw₁ hx).1
  have he := indexChainTxs_eq cfg s₂
  exact h₂'.of_sameTree ⟨by rw [he]; rfl, by rw [he]; rfl, by rw [he]; rfl⟩

/-! ## The machine -/

/-- The local variables of a call are about the tree. -/
def Phase.Rooted : Phase → Chainstate → Prop
  | .idle, _ => True
  | .choose start _, s => (s.node start).isSome
  | .unwind start _ cand fork, s =>
      (s.node start).isSome ∧ (s.node cand).isSome ∧ fork ∈ s.chain ∧
        Above (Nodes.parent s.node) fork cand
  | .connect start _ path, s =>
      (s.node start).isSome ∧ Path (Nodes.parent s.node) (s.tip :: path)
  | .finish start, s => (s.node start).isSome

omit [Crypto] in
theorem bestCandidate_cases (s : Chainstate) :
    s.bestCandidate = s.tip ∨ (s.bestCandidate ∈ s.candidates ∧
      (s.entry s.bestCandidate).failed = false ∧
      (s.work s.bestCandidate).gt (s.work s.tip) = true) := by
  rw [bestCandidate]
  split
  · next c hc =>
      split
      · next hgt =>
          have hmem := List.mem_reverse.mp (List.mem_of_find?_eq_some hc)
          have hf := List.find?_some hc
          exact .inr ⟨hmem, by simpa using hf, hgt⟩
      · exact .inl rfl
  · exact .inl rfl

end Chainstate

end QuantCore
