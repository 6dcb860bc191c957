import QuantCore.Proofs.Arrivals

/-!
# A start finds the state it left

A start reads the block tree from the headers, the place of each block from the
positions, and the state from the last flush. The files say of each only what is
true of a branch, so the state found is that of a branch again, if not the one
the node was on: a state that cannot be used gives way to that of genesis.
-/

namespace QuantCore

open Codec Maps Forest

variable [Crypto] {net : Network} {known : Block → Prop}

/-! ## The files, read back -/

namespace Chainstate

omit [Crypto] in
theorem headersOnDisk_eq {disk : Disk} {hs : List BlockHeader}
    (h : disk.headers = hs.flatMap BlockHeader.write) : headersOnDisk disk = hs := by
  have hr : records BlockHeader.size (hs.flatMap BlockHeader.write) = hs.map BlockHeader.write :=
    records_flatMap (by decide) hs fun x _ => header_write_length x
  have hone : ((fun r => (BlockHeader.read r).toOption.map Prod.fst) ∘ BlockHeader.write) =
      some := by
    funext x
    rw [Function.comp_apply, (decodes_header x).run]
    rfl
  rw [headersOnDisk, h, hr, List.filterMap_map, hone, List.filterMap_some]

omit [Crypto] in
/-- There is no partial record. -/
theorem truncateHeaders_eq {disk : Disk} {hs : List BlockHeader}
    (h : disk.headers = hs.flatMap BlockHeader.write) : truncateHeaders disk = disk := by
  have hlen : disk.headers.length = BlockHeader.size * hs.length := by
    rw [h, List.length_flatMap]
    simp only [header_write_length, List.map_const', List.sum_replicate_nat]
    exact Nat.mul_comm _ _
  rw [truncateHeaders, hlen, Nat.mul_div_cancel_left _ (by decide), Nat.mul_comm, ← hlen,
    List.take_length]

omit [Crypto] in
theorem writePosition_length (p : Hash256 × Nat × Nat) :
    (writePosition p.1 p.2.1 p.2.2).length = 44 := by
  simp only [writePosition, List.length_append, Writer.hash, Writer.u64le, Writer.u32le,
    leBytes_length, Hash256.bytes_length]

omit [Crypto] in
theorem readPosition_write (h : Hash256) {pos len : Nat} (hp : pos < 2 ^ 64)
    (hl : len < 2 ^ 32) : ∃ r, readPosition (writePosition h pos len) = .ok (r, []) ∧ r.1 = h ∧
      r.2.1.toNat = pos ∧ r.2.2.toNat = len := by
  have hd : Decodes readPosition
      (Writer.hash h ++ (Writer.u64le (UInt64.ofNat pos) ++ Writer.u32le (UInt32.ofNat len)))
      (h, UInt64.ofNat pos, UInt32.ofNat len) :=
    (ByteReader.decodes_hash h).bind ((ByteReader.decodes_u64le _).bind
      (ByteReader.decodes_u32le _).bind_pure)
  rw [← List.append_assoc] at hd
  exact ⟨_, hd.run, rfl, UInt64.toNat_ofNat_of_lt' hp, UInt32.toNat_ofNat_of_lt' hl⟩

variable {s s' : Chainstate}

/-! ## The block tree -/

variable (net known)

/-- A node that has read back its tree and the places of its blocks, but no
state yet. -/
structure Indexed (s : Chainstate) : Prop where
  named : Nodes.Named known s.node
  files : s.disk.Files net known
  data : ∀ h pos len, s.dataOf h = some (true, pos, len) →
    ∃ b, StoredAt net known s.disk.blocks h pos len b
  held : ∀ h x, s.snapshotHash.lookup h = some x → ∃ y, IsState net known h y ∧ x = stateHash y
  empty : SameLedger {} s

variable {net known}

theorem Indexed.congr (h : s.Indexed net known) (ht : s'.node = s.node)
    (hd : s'.dataOf = s.dataOf) (hdisk : s'.disk = s.disk)
    (hheld : s'.snapshotHash = s.snapshotHash) (hl : SameLedger s s') :
    s'.Indexed net known where
  named := ht ▸ h.named
  files := hdisk ▸ h.files
  data := by
    rw [hd, hdisk]
    exact h.data
  held := hheld ▸ h.held
  empty := ⟨hl.utxo.trans h.empty.utxo, hl.byAddr.trans h.empty.byAddr,
    hl.tokens.trans h.empty.tokens, hl.pools.trans h.empty.pools,
    hl.supply.trans h.empty.supply, hl.txindex.trans h.empty.txindex⟩

theorem indexed_blank {disk : Disk} (h : disk.Files net known) (tick : Nat) :
    Indexed net known { disk, tick } where
  named := fun _ _ h => nomatch h
  files := h
  data := fun _ _ _ h => nomatch h
  held := fun _ _ h => nomatch h
  empty := ⟨rfl, rfl, rfl, rfl, rfl, rfl⟩

/-- A header more in the tree. -/
theorem Indexed.addIndex (h : s.Indexed net known) {hd : BlockHeader}
    (hn : Nodes.Named known (s.addIndex hd).node) : (s.addIndex hd).Indexed net known := by
  have hl := addIndex_sameLedger s hd
  have hdisk : (s.addIndex hd).disk = s.disk := by rw [addIndex_eq]
  have hheld : (s.addIndex hd).snapshotHash = s.snapshotHash := by rw [addIndex_eq]
  exact {
    named := hn
    files := hdisk ▸ h.files
    data := fun x pos len hx => by
      rw [hdisk]
      exact h.data x pos len (addIndex_data hx)
    held := hheld ▸ h.held
    empty := ⟨hl.utxo.trans h.empty.utxo, hl.byAddr.trans h.empty.byAddr,
      hl.tokens.trans h.empty.tokens, hl.pools.trans h.empty.pools,
      hl.supply.trans h.empty.supply, hl.txindex.trans h.empty.txindex⟩ }

theorem Indexed.indexHeaders {hs : List BlockHeader} (h : s.Indexed net known)
    (hk : ∀ hd ∈ hs, ∃ b, known b ∧ b.header = hd) :
    (hs.foldl indexHeader s).Indexed net known := by
  induction hs generalizing s with
  | nil => exact h
  | cons hd hs ih =>
      have hn : Nodes.Named known (s.indexHeader hd).node :=
        show Nodes.Named known ([hd].foldl indexHeader s).node from
          indexHeaders_named h.named fun x hx => by
            rw [List.mem_singleton.mp hx]
            exact hk hd List.mem_cons_self
      rw [List.foldl_cons]
      refine ih ?_ fun x hx => hk x (List.mem_cons_of_mem _ hx)
      rw [indexHeader_eq] at hn ⊢
      split
      · next hadd =>
          rw [if_pos hadd] at hn
          exact h.addIndex hn
      · exact h

theorem Indexed.indexGenesis (h : s.Indexed net known) {cfg : Config} (hnet : cfg.network = net)
    (hg : known (paramsFor net).genesis) : (s.indexGenesis cfg).Indexed net known := by
  rw [Chainstate.indexGenesis]
  split
  · next he =>
      subst hnet
      have hk : ∃ b, known b ∧ b.header = cfg.params.genesis.header := ⟨_, hg, rfl⟩
      have hn := @named_addIndex_first _ known s (isEmpty_keys.mp he) cfg.params.genesis.header hk
      have h' := h.addIndex hn
      exact {
        named := h'.named
        files := files_addHeader h'.files hk
        data := h'.data
        held := h'.held
        empty := ⟨h'.empty.utxo, h'.empty.byAddr, h'.empty.tokens, h'.empty.pools,
          h'.empty.supply, h'.empty.txindex⟩ }
  · exact h

/-- One position: the block it names, if it is in the tree, has its data there. -/
theorem Indexed.indexPosition (h : s.Indexed net known) {p : Hash256 × Nat × Nat} {b : Block}
    (hb : StoredAt net known s.disk.blocks p.1 p.2.1 p.2.2 b)
    (hfit : s.disk.blocks.length < 2 ^ 64) :
    (s.indexPosition (writePosition p.1 p.2.1 p.2.2)).Indexed net known ∧
      (s.indexPosition (writePosition p.1 p.2.1 p.2.2)).disk = s.disk := by
  have hw := hb.within
  obtain ⟨⟨k, pos, len⟩, hr, hk, hpos, hlen⟩ :=
    readPosition_write p.1 (show p.2.1 < 2 ^ 64 by omega) hb.small
  simp only at hk hpos hlen
  rw [Chainstate.indexPosition, hr]
  simp only []
  have hsum : (pos + len.toUInt64).toNat ≤ s.disk.blocks.length := by
    rw [UInt64.toNat_add, UInt32.toNat_toUInt64, hpos, hlen]
    omega
  rw [hk, hpos, hlen, if_neg (by omega)]
  have hm := modify_eq s p.1 fun b => { b with
    haveData := true, dataPos := p.2.1, dataLen := p.2.2 }
  have hdisk : (s.modify p.1 fun b => { b with
      haveData := true, dataPos := p.2.1, dataLen := p.2.2 }).disk = s.disk := by rw [hm]
  refine ⟨?_, hdisk⟩
  exact {
    named := by
      rw [modify_node s p.1 (f := fun b => { b with
        haveData := true, dataPos := p.2.1, dataLen := p.2.2 }) fun _ => rfl]
      exact h.named
    files := hdisk ▸ h.files
    data := fun x pos len hx => by
      rw [hdisk]
      rw [dataOf, lookup_modify] at hx
      split at hx
      · next he =>
          obtain ⟨i, hi, hdata⟩ := Option.map_eq_some_iff.mp hx
          obtain ⟨j, -, rfl⟩ := Option.map_eq_some_iff.mp hi
          simp only [Prod.mk.injEq] at hdata
          rw [he, ← hdata.2.1, ← hdata.2.2]
          exact ⟨b, hb⟩
      · exact h.data x pos len hx
    held := by
      rw [hm]
      exact h.held
    empty := by
      rw [hm]
      exact ⟨h.empty.utxo, h.empty.byAddr, h.empty.tokens, h.empty.pools, h.empty.supply,
        h.empty.txindex⟩ }

theorem Indexed.indexPositions {ps : List (Hash256 × Nat × Nat)} (h : s.Indexed net known)
    (hps : ∀ p ∈ ps, ∃ b, StoredAt net known s.disk.blocks p.1 p.2.1 p.2.2 b)
    (hfit : s.disk.blocks.length < 2 ^ 64) :
    ((ps.map fun p => writePosition p.1 p.2.1 p.2.2).foldl Chainstate.indexPosition s).Indexed
        net known ∧
      ((ps.map fun p => writePosition p.1 p.2.1 p.2.2).foldl Chainstate.indexPosition s).disk =
        s.disk := by
  induction ps generalizing s with
  | nil => exact ⟨h, rfl⟩
  | cons p ps ih =>
      rw [List.forall_mem_cons] at hps
      obtain ⟨b, hb⟩ := hps.1
      obtain ⟨h', hd⟩ := h.indexPosition hb hfit
      rw [List.map_cons, List.foldl_cons]
      rw [← hd] at hps hfit ⊢
      exact ih h' hps.2 hfit

/-- A block more in the files. -/
theorem Indexed.stored (h : s.Indexed net known) {idx : Hash256} {b : Block} {w : Bool}
    (hb : Filed net known idx b) (hlen : b.coreBytes.length < 2 ^ 32)
    (hw : w = true → b.computeWitnessRoot = b.header.witnessRoot) :
    (s.stored idx b w).Indexed net known := by
  obtain ⟨hfiles, hstored⟩ := files_store h.files hb hlen hw
  have hm := modify_eq s idx fun i => { i with
    dataPos := s.disk.blocks.length, dataLen := (UInt32.ofNat b.coreBytes.length).toNat
    haveData := true }
  have ht := stored_sameTree s idx b w
  exact {
    named := ht.node ▸ h.named
    files := hfiles
    data := stored_data h.data hstored
    held := by
      simp only [Chainstate.stored]
      rw [hm]
      exact h.held
    empty := by
      simp only [Chainstate.stored]
      rw [hm]
      exact ⟨h.empty.utxo, h.empty.byAddr, h.empty.tokens, h.empty.pools, h.empty.supply,
        h.empty.txindex⟩ }

theorem filed_genesis (hs : Sources net known) :
    Filed net known (paramsFor net).genesisHash (paramsFor net).genesis where
  around := hs.genesis
  hash := (genesis_hash net).symm
  checked := fun n hn => by
    rw [hn.unique hs.free .genesis]
    exact genesis_checked net

omit [Crypto] in
/-- The one transaction of a genesis block, by the message it carries. -/
def genesisTxs (msg : String) : List Transaction :=
  [{ lockHeight := 0, extra := (textBytes msg).take maxCoinbaseExtra }]

theorem genesis_txs (net : Network) : ∃ msg, (paramsFor net).genesis.txs = genesisTxs msg ∧
    ((genesisTxs msg).flatMap Transaction.writeCore).length < 2 ^ 16 := by
  cases net with
  | main => exact ⟨"Quant: post-quantum money for everyone", rfl, by decide⟩
  | test => exact ⟨"Quant v2 testnet 2026-10-24", rfl, by decide⟩
  | regtest => exact ⟨"Quant v2 regtest", rfl, by decide⟩

theorem genesis_size (net : Network) : (paramsFor net).genesis.coreBytes.length < 2 ^ 32 := by
  obtain ⟨msg, htxs, hlen⟩ := genesis_txs net
  have hcount : (Writer.size (genesisTxs msg).length).length = 1 := rfl
  rw [Block.coreBytes, List.length_append, List.length_append, header_write_length, htxs, hcount]
  have : BlockHeader.size = 152 := rfl
  omega

theorem genesis_witnessRoot (net : Network) :
    (paramsFor net).genesis.computeWitnessRoot = (paramsFor net).genesis.header.witnessRoot := by
  cases net <;> rfl

omit [Crypto] in
theorem foldl_indexPosition_disk (rs : List Bytes) (s : Chainstate) :
    (rs.foldl indexPosition s).disk = s.disk := by
  induction rs generalizing s with
  | nil => rfl
  | cons r rs ih =>
      rw [List.foldl_cons, ih, indexPosition]
      split
      · rfl
      · split
        · rfl
        · rw [modify_eq]

theorem foldl_indexHeader_disk (hds : List BlockHeader) (s : Chainstate) :
    (hds.foldl indexHeader s).disk = s.disk := by
  induction hds generalizing s with
  | nil => rfl
  | cons hd hds ih =>
      rw [List.foldl_cons, ih, indexHeader_eq]
      split
      · rw [addIndex_eq]
      · rfl

theorem indexGenesis_disk (cfg : Config) (s : Chainstate) :
    (s.indexGenesis cfg).disk.blocks = s.disk.blocks ∧
      (s.indexGenesis cfg).disk.blockpos = s.disk.blockpos := by
  rw [indexGenesis]
  split
  · rw [addIndex_eq]
    exact ⟨rfl, rfl⟩
  · exact ⟨rfl, rfl⟩

theorem loadIndex_indexed (hs : Sources net known) {cfg : Config} (hnet : cfg.network = net)
    {disk : Disk} (hf : disk.Files net known) {tick : Nat} (hfit : disk.blocks.length < 2 ^ 64)
    (h : loadIndex cfg disk tick = .ok s) : s.Indexed net known := by
  obtain ⟨hds, hheaders, hknown⟩ := hf.headers
  obtain ⟨ps, hpos, hstored⟩ := hf.positions
  rw [loadIndex] at h
  split at h
  · cases h
  simp only [truncateHeaders_eq hheaders, headersOnDisk_eq hheaders] at h
  have hblank := indexed_blank hf tick
  have htree := (hblank.indexHeaders hknown).indexGenesis hnet hs.genesis
  generalize ht : (hds.foldl indexHeader { disk, tick }).indexGenesis cfg = t at h htree
  have htd : t.disk.blocks = disk.blocks ∧ t.disk.blockpos = disk.blockpos := by
    rw [← ht, (indexGenesis_disk _ _).1, (indexGenesis_disk _ _).2, foldl_indexHeader_disk]
    exact ⟨rfl, rfl⟩
  have hrec : records 44 t.disk.blockpos =
      ps.map fun p => writePosition p.1 p.2.1 p.2.2 := by
    rw [htd.2, hpos]
    exact records_flatMap (by decide) ps fun p _ => writePosition_length p
  rw [hrec] at h
  obtain ⟨hplaced, -⟩ := htree.indexPositions
    (fun p (hp : p ∈ ps) => by
      rw [htd.1]
      exact hstored p hp) (by rw [htd.1]; exact hfit)
  have hg : cfg.params.genesisHash = (paramsFor net).genesisHash := by rw [← hnet, Config.params]
  have hgb : cfg.params.genesis = (paramsFor net).genesis := by rw [← hnet, Config.params]
  rw [Except.ok.injEq] at h
  split at h
  · rw [← h]
    exact hplaced
  · rw [← h, hg, hgb]
    generalize hst : storeBlock cfg _ _ _ true = st
    obtain ⟨s₁, done⟩ := st
    rcases storeBlock_cases hst with ⟨-, rfl, -⟩ | ⟨-, -, rfl⟩
    · exact hplaced.congr rfl rfl rfl rfl ⟨rfl, rfl, rfl, rfl, rfl, rfl⟩
    · exact hplaced.stored (filed_genesis hs) (genesis_size net) fun _ => genesis_witnessRoot net

/-! ## The snapshots held -/

omit [Crypto] in
theorem loadBase_parts (cfg : Config) (s : Chainstate) : (s.loadBase cfg).dataOf = s.dataOf ∧
    (s.loadBase cfg).disk = s.disk ∧ (s.loadBase cfg).snapshotHash = s.snapshotHash ∧
      SameLedger s (s.loadBase cfg) := by
  rw [loadBase]
  split
  · exact ⟨rfl, rfl, rfl, rfl, rfl, rfl, rfl, rfl, rfl⟩
  split
  · exact ⟨rfl, rfl, rfl, rfl, rfl, rfl, rfl, rfl, rfl⟩
  · next base hb =>
      simp only []
      split
      · have hm := modify_eq s (Hash256.ofBytes base) fun b => { b with fromSnapshot := true }
        have hd := dataOf_modify s (Hash256.ofBytes base)
          (f := fun b => { b with fromSnapshot := true }) fun _ => rfl
        refine ⟨hd, ?_⟩
        rw [hm]
        exact ⟨rfl, rfl, rfl, rfl, rfl, rfl, rfl, rfl⟩
      · exact ⟨rfl, rfl, rfl, rfl, rfl, rfl, rfl, rfl, rfl⟩

theorem Indexed.flagsOnly (h : s.Indexed net known) (hf : FlagsOnly s s') :
    s'.Indexed net known := by
  have hr := hf.rest
  refine h.congr hf.sameTree.node hf.dataOf ?_ ?_ ?_
  · rw [hr]
  · rw [hr]
  · rw [hr]
    exact ⟨rfl, rfl, rfl, rfl, rfl, rfl⟩

theorem Indexed.scanSnapshots (h : s.Indexed net known) (cfg : Config) :
    (s.scanSnapshots cfg).Indexed net known where
  named := h.named
  files := h.files
  data := h.data
  held := fun k x hx => by
    rw [Chainstate.scanSnapshots] at hx
    rcases mem_of_lookup_insertAll hx with hx | hx
    · obtain ⟨e, he, hex⟩ := List.mem_map.mp hx
      cases hex
      exact ⟨e.2, h.files.snapshots e.1 e.2 (mem_pairs.mp (List.mem_filter.mp he).1), rfl⟩
    · exact h.held k x hx
  empty := ⟨h.empty.utxo, h.empty.byAddr, h.empty.tokens, h.empty.pools, h.empty.supply,
    h.empty.txindex⟩

/-- The tree and the snapshots of a node that starts. -/
theorem Indexed.ready (h : s.Indexed net known) (cfg : Config) :
    ((s.loadBase cfg).indexChainData.scanSnapshots cfg).Indexed net known ∧
      ((s.loadBase cfg).indexChainData.scanSnapshots cfg).disk = s.disk ∧
      SameTree s ((s.loadBase cfg).indexChainData.scanSnapshots cfg) := by
  obtain ⟨hdata, hdisk, hheld, hl⟩ := loadBase_parts cfg s
  have hbase := h.congr (loadBase_sameTree cfg s).node hdata hdisk hheld hl
  have hf := indexChainData_flagsOnly (s.loadBase cfg)
  have hrest := hf.rest
  refine ⟨(hbase.flagsOnly hf).scanSnapshots cfg, ?_,
    ((loadBase_sameTree cfg s).trans hf.sameTree).trans ⟨rfl, rfl, rfl⟩⟩
  show (s.loadBase cfg).indexChainData.disk = s.disk
  rw [hrest]
  exact hdisk

/-! ## The state -/

/-- What the flush left is a state, if its checksum is right. -/
theorem files_utxo {disk : Disk} (h : disk.Files net known) {sb : Bytes} {x : Snapshot}
    (hsb : disk.utxoDat = some sb)
    (hr : Snapshot.read (sb.take (sb.length - 32)) = .ok (x, [])) :
    ∃ n bs L, Branch (paramsFor net) known n x.block bs L ∧ x.Of x.block n L := by
  obtain ⟨k, y, hy, rfl⟩ := h.utxo sb hsb
  have hbody : (y ++ (blake3 y).bytes).take ((y ++ (blake3 y).bytes).length - 32) = y := by
    rw [List.length_append, Hash256.bytes_length, Nat.add_sub_cancel, List.take_left]
  rw [hbody] at hr
  obtain ⟨-, n, bs, L, hb, hof⟩ := isState_read hy hr
  obtain rfl := hof.block
  exact ⟨n, bs, L, hb, hof⟩

/-- The state a start finds: that of genesis, or the one last written down. -/
theorem Indexed.loadTipState (hs : Sources net known) (h : s.Indexed net known)
    {cfg : Config} (hnet : cfg.network = net)
    (hw : Nodes.Wf (paramsFor net).genesisHash s.node s.nextSeq)
    (hr : s.loadTipState cfg = .ok s') (hroot : s'.Rooted (paramsFor net).genesisHash) :
    s'.Content net known := by
  have hg : cfg.params.genesisHash = (paramsFor net).genesisHash := by rw [← hnet, Config.params]
  have hgenesis : ∀ t : Chainstate, t.chain = [cfg.params.genesisHash] → t.reader = .empty →
      t.txindex = ∅ → t.OnBranch net known := by
    intro t hc hreader htx
    refine ⟨[(paramsFor net).genesis], ?_, ?_⟩
    · rw [hreader, Chainstate.height, Chainstate.tip, hc, hg]
      exact .genesis
    · rw [htx]
      exact fun _ h => absurd h (AList.notMem_empty _)
  have hreader : s.reader = .empty := by
    rw [Chainstate.reader, h.empty.utxo, h.empty.tokens, h.empty.pools]
    rfl
  rcases loadTipState_cases hr with ⟨-, rfl | rfl⟩ | ⟨sb, x, hsb, -, hread, hx, -, -, hs'⟩
  · exact {
      rooted := hroot
      named := h.named
      files := h.files
      data := h.data
      held := h.held
      accounts := (accounts_clear {}).of_eq h.empty.utxo h.empty.byAddr h.empty.pools
        h.empty.supply
      branch := hgenesis _ rfl hreader h.empty.txindex }
  · exact {
      rooted := hroot
      named := h.named
      files := h.files
      data := h.data
      held := h.held
      accounts := accounts_clear _
      branch := hgenesis _ rfl rfl h.empty.txindex }
  · obtain ⟨n, bs, L, hb, hof⟩ := files_utxo h.files hsb hread
    have hl := loadSnapshot_ledgerOnly { s with chain := [cfg.params.genesisHash] } x
    rw [LedgerOnly] at hl
    have hnode : s'.node = s.node := by
      rw [hs', hl]
      rfl
    have hdisk : s'.disk = s.disk := by rw [hs', hl]
    have hheld : s'.snapshotHash = s.snapshotHash := by rw [hs', hl]
    have htx : s'.txindex = s.txindex := by rw [hs', hl]
    have hdata : s'.dataOf = s.dataOf := dataOf_congr (by rw [hs', hl])
    have hnamed : Nodes.Named known s'.node := hnode ▸ h.named
    have htip : s'.tip = x.block := by
      rw [hs', tip, List.getLastD_eq_getLast?, (Rooted.chainTo hw hx).2]
      rfl
    have hreader : s'.reader =
        (loadSnapshot { s with chain := [cfg.params.genesisHash] } x).reader := by
      rw [hs']
      rfl
    exact {
      rooted := hroot
      named := hnamed
      files := hdisk ▸ h.files
      data := by
        rw [hdata, hdisk]
        exact h.data
      held := hheld ▸ h.held
      accounts := by
        refine (loadSnapshot_accounts _ hof.coinNodup hof.poolNodup).of_eq
          (s := loadSnapshot { s with chain := [cfg.params.genesisHash] } x) ?_ ?_ ?_ ?_
        all_goals rw [hs']
      branch := by
        refine onBranch_of_state hs n bs hroot hnamed ?_ rfl ?_
        · rw [htip, hreader, loadSnapshot_reader _ hb.keyed hof]
          exact hb
        · rw [htx, h.empty.txindex]
          exact fun _ h => absurd h (AList.notMem_empty _) }

/-! ## The transaction index -/

/-- A block above the tip is one of the tip's branch. -/
theorem Content.on_branch (hs : Sources net known) (h : s.Content net known) {n : Nat}
    {t : Hash256} {bs : List Block} {L : StateReader}
    (hb : Branch (paramsFor net) known n t bs L) (ht : (s.node t).isSome) {x : Hash256}
    (hx : Above (Nodes.parent s.node) x t) :
    ∃ c m, known c ∧ c.header.hash = x ∧ c.Checked m ∧ m < 2 ^ 63 ∧ c.core ∈ bs := by
  induction hb with
  | genesis =>
      have hxg : x = (paramsFor net).genesisHash := by
        rcases hx.cases with hx | ⟨p, hp, -⟩
        · exact hx
        · obtain ⟨m, hm, hprev⟩ := h.rooted.tree.genesis
          rw [Nodes.parent_eq hm, hprev] at hp
          cases hp
      refine ⟨(paramsFor net).genesis, 0, hs.genesis, ?_, genesis_checked net, by decide, ?_⟩
      · rw [hxg, genesis_hash]
      · rw [genesis_core]
        exact List.mem_singleton_self _
  | @block n bs L L' b hb hk hc hn hst ih =>
      rcases hx.cases with rfl | ⟨p, hp, hxp⟩
      · exact ⟨b, n + 1, hk, rfl, hc, hn, List.mem_cons_self⟩
      · obtain rfl := h.prev_eq hs hp hk rfl
        obtain ⟨m, hm, hprev⟩ := Nodes.isSome_of_parent hp
        obtain ⟨-, q, hq, -⟩ := h.rooted.tree.parent _ m _ hm hprev
        obtain ⟨c, k, hck, hch, hcc, hlt, hmem⟩ := ih (by rw [hq]; rfl) hxp
        exact ⟨c, k, hck, hch, hcc, hlt, List.mem_cons_of_mem _ hmem⟩

/-- The transactions of a block of the active chain, indexed. -/
theorem Content.indexTxsOf (hs : Sources net known) (h : s.Content net known) {cfg : Config}
    {x : Hash256} (hx : x ∈ s.chain) : (s.indexTxsOf cfg x).Content net known := by
  rw [Chainstate.indexTxsOf]
  split
  · next b got hread =>
      have hin : (s.node x).isSome := chain_isSome h.rooted.tree h.rooted.chain hx
      obtain ⟨b₀, hk, hhash, hc, hcore, -, -⟩ := h.read hs hin hread
      obtain ⟨bs, hb, htx⟩ := h.branch
      obtain ⟨c, m, hck, hch, hcc, hlt, hmem⟩ :=
        h.on_branch hs hb h.rooted.tip_isSome (mem_chain_iff h.rooted.tree h.rooted.chain |>.mp hx)
      have hle : (s.entry x).height < 2 ^ 63 := by
        have := h.height_le hx
        have := hb.height_lt
        omega
      have hsame := (Branch.same_core hs.free hk hck hc hcc hle hlt (hhash.trans hch.symm)).2
      exact {
        rooted := h.rooted.of_sameTree (t := s.indexBlockTxs b x) ⟨rfl, rfl, rfl⟩
        named := h.named
        files := h.files
        data := h.data
        held := h.held
        accounts := h.accounts.of_eq rfl rfl rfl rfl
        branch := by
          refine ⟨bs, hb, fun t ht => ?_⟩
          rcases mem_of_mem_insertAll ht with ht | ht
          · rw [List.map_map] at ht
            have hids : b.txs.map Transaction.txid = c.core.txs.map Transaction.txid := by
              rw [← hsame, ← hcore, Block.core_ids]
            have ht : t ∈ b.txs.map Transaction.txid := ht
            rw [hids] at ht
            obtain ⟨u, hu, rfl⟩ := List.mem_map.mp ht
            exact List.mem_map_of_mem (List.mem_flatMap.mpr ⟨c.core, hmem, hu⟩)
          · exact htx t ht }
  · exact h

theorem indexTxsOf_chain (cfg : Config) (s : Chainstate) (x : Hash256) :
    (s.indexTxsOf cfg x).chain = s.chain := by
  rw [indexTxsOf]
  split <;> rfl

theorem Content.indexChainTxs (hs : Sources net known) (h : s.Content net known)
    (cfg : Config) : (s.indexChainTxs cfg).Content net known := by
  have hfold : ∀ (l : List Hash256) (s : Chainstate), s.Content net known → l ⊆ s.chain →
      (l.foldl (Chainstate.indexTxsOf cfg) s).Content net known := by
    intro l
    induction l with
    | nil => exact fun s h _ => h
    | cons x l ih =>
        intro s h hl
        rw [List.cons_subset] at hl
        refine ih _ (h.indexTxsOf hs hl.1) ?_
        rw [indexTxsOf_chain]
        exact hl.2
  exact hfold s.chain s h (List.Subset.refl _)

/-! ## A start -/

/-- A start leaves the blocks in the files. -/
theorem loadIndex_blocks {cfg : Config} {disk : Disk} {tick : Nat}
    (h : loadIndex cfg disk tick = .ok s) :
    disk.blocks.length ≤ s.disk.blocks.length := by
  rw [loadIndex] at h
  split at h
  · cases h
  rw [Except.ok.injEq] at h
  have hd : ∀ rs, (List.foldl indexPosition (indexGenesis cfg
      ((headersOnDisk disk).foldl indexHeader { disk := truncateHeaders disk, tick })) rs).disk.blocks
        = disk.blocks := by
    intro rs
    rw [foldl_indexPosition_disk, (indexGenesis_disk _ _).1, foldl_indexHeader_disk]
    rfl
  split at h
  · rw [← h, hd]
  · rw [← h]
    generalize hst : storeBlock cfg _ _ _ true = st
    obtain ⟨s₁, done⟩ := st
    rcases storeBlock_cases hst with ⟨-, rfl, -⟩ | ⟨-, -, rfl⟩
    · exact (congrArg List.length (hd _)).ge
    · show _ ≤ (_ ++ _ : Bytes).length
      rw [List.length_append, hd]
      exact Nat.le_add_right _ _

theorem loadTipState_disk {cfg : Config} (h : s.loadTipState cfg = .ok s') :
    s'.disk = s.disk := by
  rcases loadTipState_cases h with ⟨-, rfl | rfl⟩ | ⟨sb, x, -, -, -, -, -, -, rfl⟩
  · rfl
  · rfl
  · have hl := loadSnapshot_ledgerOnly { s with chain := [cfg.params.genesisHash] } x
    rw [LedgerOnly] at hl
    rw [hl]

/-- A node that starts on files in order is in order. -/
theorem loadReady_content (hs : Sources net known) {cfg : Config} (hnet : cfg.network = net)
    {disk : Disk} (hf : disk.Files net known) {tick : Nat}
    (h : loadReady cfg disk tick = .ok s) (hfit : s.Fits) : s.Content net known := by
  have hrooted := loadReady_rooted h
  rw [show cfg.params.genesisHash = (paramsFor net).genesisHash by rw [← hnet, Config.params]]
    at hrooted
  obtain ⟨s₁, s₂, h₁, h₂, rfl⟩ := loadReady_cases h
  have he := indexChainTxs_eq cfg s₂
  have hblocks : disk.blocks.length < 2 ^ 64 := by
    have hlast : (s₂.indexChainTxs cfg).ticked.disk = s₂.disk := by
      show (s₂.indexChainTxs cfg).disk = s₂.disk
      rw [he]
    have hready : ((s₁.loadBase cfg).indexChainData.scanSnapshots cfg).disk = s₁.disk := by
      have hrest := (indexChainData_flagsOnly (s₁.loadBase cfg)).rest
      show (s₁.loadBase cfg).indexChainData.disk = s₁.disk
      rw [hrest]
      exact (loadBase_parts cfg s₁).2.1
    have hle := loadIndex_blocks h₁
    have hlt := hfit.blocks
    rw [hlast, loadTipState_disk h₂, hready] at hlt
    omega
  obtain ⟨hindexed, -, hsame⟩ := (loadIndex_indexed hs hnet hf hblocks h₁).ready cfg
  obtain ⟨-, hw⟩ := loadIndex_tree h₁
  rw [show cfg.params.genesisHash = (paramsFor net).genesisHash by rw [← hnet, Config.params]]
    at hw
  have hroot₂ : s₂.Rooted (paramsFor net).genesisHash :=
    hrooted.of_sameTree ⟨by rw [he]; rfl, by rw [he]; rfl, by rw [he]; rfl⟩
  have h₂' := hindexed.loadTipState hs hnet (by rw [hsame.node, hsame.nextSeq]; exact hw) h₂ hroot₂
  exact (h₂'.indexChainTxs hs cfg).ticked

end Chainstate

end QuantCore
