import QuantCore.Proofs.Failed
import QuantCore.Proofs.Tip

/-!
# Undoing a block

A block that was just connected can be disconnected, if the disk works: its core
is where it was read from and its undo record has just been written, and pruning
goes for the record of a block far below. What the disconnect leaves is what was
there before, in every map and index. The snapshots a node adopts have to be
states of the chain: one that lists a coin of a block still to come would lose it
to the undo of that block. The block a snapshot was adopted at is never undone.
-/

namespace QuantCore

open Codec Maps Forest

/-- A loop that erases keys. -/
theorem Maps.lookup_eraseAll {κ ν : Type} [DecidableEq κ] (l : List κ) (m : Map κ ν) (k : κ) :
    (l.foldl (fun m k => m.erase k) m).lookup k = if k ∈ l then none else m.lookup k := by
  induction l generalizing m with
  | nil => rfl
  | cons x l ih =>
      rw [List.foldl_cons, ih, lookup_erase_ite]
      by_cases hx : k = x
      · simp [hx]
      · simp [hx]

variable [Crypto] {net : Network} {known : Block → Prop}

namespace Chainstate

variable {cfg : Config} {s t u : Chainstate} {idx : Hash256}

/-- What a disconnect should bring back. -/
structure Restores (s u : Chainstate) : Prop where
  utxo : fn u.utxo = fn s.utxo
  byAddr : fn u.byAddr = fn s.byAddr
  tokens : fn u.tokens = fn s.tokens
  pools : fn u.pools = fn s.pools
  supply : u.supply = s.supply
  tip : u.tip = s.tip
  height : u.height = s.height

/-- Two nodes with one tip have the same books. -/
theorem Content.restores (hs : Sources net known) (h : s.Content net known)
    (hu : u.Content net known) (htip : u.tip = s.tip) : Restores s u := by
  obtain ⟨hheight, hreader⟩ := h.same_state hs hu htip.symm
  obtain ⟨hutxo, htokens, hpools⟩ := reader_ext hreader
  obtain ⟨hby, hsupply⟩ := h.accounts.ext hu.accounts hreader.symm
  exact ⟨hutxo.symm, hby, htokens.symm, hpools.symm, hsupply, htip, hheight.symm⟩

/-! ## Reading again -/

/-- A block that was read with its witness can be read again without. -/
theorem readBlock_again (hdisk : Reliable cfg) {b : Block} {got : Bool}
    (hr : s.readBlock cfg idx true = some (b, got)) (hi : t.index = s.index)
    (hb : t.disk.blocks = s.disk.blocks) :
    ∃ b', t.readBlock cfg idx false = some (b', false) ∧ b'.core = b.core := by
  have he := entry_congr hi idx
  have hf : ∀ k op, cfg.env.fault k op = false := hdisk
  simp only [readBlock, hf, Bool.false_eq_true, false_or] at hr
  simp only [readBlock, he, hb, hf, Bool.false_eq_true, false_or]
  split at hr
  · cases hr
  next hdata =>
  rw [if_neg hdata]
  split at hr
  · cases hr
  next hlen =>
  rw [if_neg hlen]
  split at hr
  · cases hr
  next blk rest hcore =>
  split at hr
  · cases hr
  next hhash =>
  refine ⟨blk, (if_neg hhash).trans (if_neg not_false), ?_⟩
  rw [if_pos trivial, attachWitness] at hr
  split at hr
  · cases hr
    rfl
  split at hr
  · cases hr
  next hw =>
  cases hr
  exact (readWitness_core hw).symm

/-- The record of the block that was just connected is there. -/
theorem commitBlock_undo {b : Block} {v : LedgerView} (hpos : 0 < (s.entry idx).height)
    (hlen : (s.entry idx).height = s.chain.length) (hnew : idx ∉ s.chain) :
    (s.commitBlock cfg idx b v).disk.undo.lookup idx = some v.undo.write := by
  have hchain := connected_chain (s := s) idx b v
  have hrecord : ((s.connected idx b v).recordUndo idx (s.entry idx).height
      v.undo).disk.undo.lookup idx = some v.undo.write := by
    rw [recordUndo, if_pos hpos]
    exact AList.lookup_insert _
  generalize hr : (s.connected idx b v).recordUndo idx (s.entry idx).height v.undo = r at hrecord
  have hrchain : r.chain = s.chain ++ [idx] := by
    rw [← hr, ← hchain, recordUndo, if_pos hpos]
  have hdue : (snapshotDue cfg r idx (s.entry idx).height).disk.undo = r.disk.undo ∧
      (snapshotDue cfg r idx (s.entry idx).height).chain = r.chain := by
    rw [snapshotDue]
    split
    · rcases writeCommitSnapshot_eq cfg r idx with h | ⟨l, h⟩ <;> rw [h] <;> exact ⟨rfl, rfl⟩
    · exact ⟨rfl, rfl⟩
  show (pruneDue cfg (snapshotDue cfg ((s.connected idx b v).recordUndo idx (s.entry idx).height
    v.undo) idx (s.entry idx).height) (s.entry idx).height).disk.undo.lookup idx = _
  rw [hr]
  obtain ⟨hundo, hdchain⟩ := hdue
  generalize snapshotDue cfg r idx (s.entry idx).height = d at hundo hdchain ⊢
  rw [← hundo] at hrecord
  rw [pruneDue]
  split
  · rw [pruneAt, atHeight]
    split
    · exact hrecord
    next x hx =>
    split
    · exact hrecord
    · -- the record that goes is that of a block below
      have hlow : (s.entry idx).height - pruneDepth < s.chain.length := by
        rw [← hlen]
        exact Nat.sub_lt hpos (by decide)
      rw [hdchain, hrchain, List.getElem?_append_left hlow] at hx
      have hne : idx ≠ x := fun he => hnew (he ▸ List.mem_of_getElem? hx)
      rw [lookup_erase_ite, if_neg hne]
      exact hrecord
  · exact hrecord

/-- A flush changes neither the tree nor the books nor the records. -/
theorem flushDue_frame (cfg : Config) (s : Chainstate) :
    (s.flushDue cfg).index = s.index ∧ (s.flushDue cfg).chain = s.chain ∧
      (s.flushDue cfg).txindex = s.txindex ∧ (s.flushDue cfg).disk.blocks = s.disk.blocks ∧
      (s.flushDue cfg).disk.undo = s.disk.undo := by
  rw [flushDue]
  split
  · refine ⟨rfl, rfl, rfl, ?_, ?_⟩
    · simp only [flush]
      split <;> rfl
    · simp only [flush]
      split <;> rfl
  · exact ⟨rfl, rfl, rfl, rfl, rfl⟩

/-- A disconnect goes through if the block and its record can be read. -/
theorem disconnectTip_through (hdisk : Reliable cfg) (hpos : 0 < (s.entry s.tip).height)
    (hbase : (s.entry s.tip).fromSnapshot = false) {b : Block} {got : Bool}
    (hr : s.readBlock cfg s.tip false = some (b, got)) {v : Undo} (hl : v.Limits)
    (hu : s.disk.undo.lookup s.tip = some v.write) :
    s.disconnectTip cfg = ((s.revertBlock b v).ticked, .ok ()) := by
  have hread : s.readUndo cfg s.tip = some v := by
    have hf : cfg.env.fault s.tick (.readUndo s.tip) = false := hdisk _ _
    rw [readUndo, hf, hu]
    simp only [(decodes_undo hl).run]
    rfl
  simp only [disconnectTip]
  rw [if_neg (by simp [hpos.ne', hbase]), hr, hread]

/-- What is indexed of a block whose transactions are new goes with the block. -/
theorem unindex_index (s : Chainstate) {b b' : Block} (idx : Hash256)
    (hids : b'.txs.map Transaction.txid = b.txs.map Transaction.txid)
    (hnew : ∀ t ∈ b.txs, t.txid ∉ s.txindex) :
    fn ((s.indexBlockTxs b idx).unindexBlockTxs b').txindex = fn s.txindex := by
  have hkeys : (b.txs.map fun t => (t.txid, idx)).map Prod.fst = b.txs.map Transaction.txid := by
    rw [List.map_map]
    rfl
  funext k
  show ((b'.txs.map Transaction.txid).foldl (fun m t => m.erase t)
    (insertAll s.txindex (b.txs.map fun t => (t.txid, idx)))).lookup k = s.txindex.lookup k
  rw [lookup_eraseAll, hids]
  split
  · next hk =>
      obtain ⟨t, ht, rfl⟩ := List.mem_map.mp hk
      exact (AList.lookup_eq_none.mpr (hnew t ht)).symm
  · next hk =>
      have hi := congrFun (fn_insertAll s.txindex (b.txs.map fun t => (t.txid, idx))) k
      rw [updateAll_of_notMem _ (hkeys ▸ hk)] at hi
      exact hi

/-- The transactions of a block that connects are not indexed yet. -/
theorem Content.unindexed (hs : Sources net known) (h : s.Content net known)
    (hn : s.index.keys.length < 2 ^ 63) (hp : Nodes.parent s.node idx = some s.tip) {b : Block}
    {got verify : Bool} {v : LedgerView} {fees : Amount}
    (hr : s.readBlock cfg idx true = some (b, got))
    (hv : blockView s.reader b (UInt64.ofNat (s.entry idx).height) (paramsFor net).genesisHash
      verify = .ok (v, fees)) : ∀ t ∈ b.txs, t.txid ∉ s.txindex := by
  obtain ⟨n, hnode, -⟩ := Nodes.isSome_of_parent hp
  obtain ⟨b₀, hk, hhash, hc, hcore, -, -⟩ := h.read hs (by rw [hnode]; rfl) hr
  have hheight := h.height_next hp
  have hlt := h.height_lt
  rw [hheight] at hc hv
  obtain ⟨bs, hbranch, htx⟩ := h.branch
  rw [← h.prev_eq hs hp hk hhash] at hbranch
  have hview := blockView_core hv
  rw [hcore] at hview
  have hbc : Branch (paramsFor net) known s.height b₀.core.header.prev bs s.reader := hbranch
  obtain ⟨-, hok⟩ := hbc.blockView_eq hs.free hs.genesis (by omega)
    (fun t ht => KnownTx.of_core hk ht) hc.core false
  obtain ⟨-, -, hnew⟩ := hok v fees hview
  intro t ht hin
  have hid : t.txid ∈ b₀.core.txs.map Transaction.txid := by
    rw [← hcore, Block.core_ids]
    exact List.mem_map_of_mem ht
  obtain ⟨t', ht', he⟩ := List.mem_map.mp hid
  exact hnew t' ht' (he ▸ htx t.txid hin)

/-- The disconnect of a block that was just connected goes through, and takes the
block off the chain and out of the index. -/
theorem disconnectTip_again (hs : Sources net known) (h : s.Content net known)
    (hnet : cfg.network = net) (hdisk : Reliable cfg)
    (hp : Nodes.parent s.node idx = some s.tip) (hbase : (s.entry idx).fromSnapshot = false)
    (hc : s.connectBlock cfg idx = (t, .ok ())) (hfit : t.Fits) :
    ∃ u, (t.flushDue cfg).disconnectTip cfg = (u, .ok ()) ∧ u.chain = s.chain ∧
      fn u.txindex = fn s.txindex := by
  obtain ⟨b, got, v, fees, hread, -, -, hview, hpay, -, rfl⟩ := connectBlock_ok hc
  have hfo := commitBlock_filesOnly cfg s idx b v
  have hheight := h.height_next hp
  have hlen : (s.entry idx).height = s.chain.length := by
    have hpos := List.length_pos_of_mem (tip_mem h.rooted.chain)
    rw [hheight, height]
    omega
  have hnew : idx ∉ s.chain := fun hm => by
    have := h.height_le hm
    omega
  obtain ⟨hi, -, hblocks, -, -⟩ := hfo.files
  have hi : (s.commitBlock cfg idx b v).index = s.index := hi.trans (connected_index idx b v)
  have hb : (s.commitBlock cfg idx b v).disk.blocks = s.disk.blocks :=
    hblocks.trans (congrArg Disk.blocks (connected_disk idx b v))
  have hchain : (s.commitBlock cfg idx b v).chain = s.chain ++ [idx] :=
    hfo.sameTree.chain.trans (connected_chain idx b v)
  have htxs : (s.commitBlock cfg idx b v).txindex = (s.indexBlockTxs b idx).txindex := by
    refine hfo.sameLedger.txindex.trans ?_
    show insertAll (s.commitView v).txindex _ = insertAll s.txindex _
    rw [commitView_ledgerOnly s v]
  have hn : s.index.keys.length < 2 ^ 63 := hi ▸ hfit.index
  have hundo : (s.commitBlock cfg idx b v).disk.undo.lookup idx = some v.undo.write :=
    commitBlock_undo (by omega) hlen hnew
  obtain ⟨-, -, -, -, n, bs, L, L', b₁, w, -, -, hw, hwrite⟩ :=
    h.connected hs hn hnet hp hread hview hpay
  rw [hwrite] at hundo
  obtain ⟨fi, fc, ft, fb, fu⟩ := flushDue_frame cfg (s.commitBlock cfg idx b v)
  generalize (s.commitBlock cfg idx b v).flushDue cfg = t at fi fc ft fb fu ⊢
  obtain ⟨htip, -⟩ := tip_snoc (fc.trans hchain)
  have hentry : t.entry idx = s.entry idx := entry_congr (fi.trans hi) idx
  obtain ⟨b', hread', hcore⟩ := readBlock_again (t := t) hdisk hread (fi.trans hi) (fb.trans hb)
  refine ⟨_, disconnectTip_through hdisk ?_ ?_ (htip ▸ hread') hw.limits ?_, ?_, ?_⟩
  · rw [htip, hentry]
    omega
  · rw [htip, hentry]
    exact hbase
  · rw [htip, fu]
    exact hundo
  · show (t.revertBlock b' w).chain = s.chain
    rw [revertBlock_eq]
    show t.chain.dropLast = s.chain
    rw [fc, hchain, List.dropLast_concat]
  · have hsame : b'.txs.map Transaction.txid = b.txs.map Transaction.txid := by
      rw [← Block.core_ids b', hcore, Block.core_ids]
    subst hnet
    have hun := unindex_index s idx hsame (h.unindexed hs hn hp hread hview)
    rw [← hun]
    show fn (t.revertBlock b' w).txindex = _
    rw [revertBlock_eq]
    show fn ((b'.txs.map Transaction.txid).foldl (fun m t => m.erase t) t.txindex) = _
    rw [ft, htxs]
    rfl

/-- Whenever a tip is disconnected, the state of its parent is what is left. -/
theorem Content.disconnects (hs : Sources net known) (h : s.Content net known)
    (hp : Nodes.parent s.node idx = some s.tip) {b : Block} (hk : known b)
    (hb : b.header.hash = idx) {w : Chainstate} (hw : w.Content net known) (htip : w.tip = idx)
    (hd : w.disconnectTip cfg = (u, .ok ())) : Restores s u := by
  have hu := hw.disconnectTip hs hd
  obtain ⟨hnode, hseq, hchain, -⟩ := disconnectTip_tree hd
  obtain ⟨-, -, -, -, -, hpos, -⟩ := disconnectTip_ok hd
  obtain ⟨-, hparent⟩ := hw.rooted.pop hnode hseq (hchain rfl) hpos
  rw [htip] at hparent
  exact h.restores hs hu ((hw.prev_eq hs hparent hk hb).symm.trans (h.prev_eq hs hp hk hb))

/-- Undo is exact. On a disk that works, with snapshots that are states of the
chain, the disconnect that follows the connect of a block no snapshot was adopted
at goes through and brings back the coins with their index by address, the tokens, the
pools, the supply, the index of transactions and the chain; and so does, for all
but the index, a disconnect of that block at any other time, whatever happened in
between. -/
theorem undo_exact (hs : Sources net known) (hnet : cfg.network = net) (hdisk : Reliable cfg)
    {o : Offers} (ho : ∀ b, o.Around net b → known b) {start : Hash256} {guard : Nat}
    {rest : List Hash256}
    (h : Reaches cfg o (Honest net known cfg o) (.connect start guard (idx :: rest)) s)
    (hbase : (s.entry idx).fromSnapshot = false)
    (hc : s.connectBlock cfg idx = (t, .ok ())) (hfit : (t.flushDue cfg).Fits) :
    (∃ u, (t.flushDue cfg).disconnectTip cfg = (u, .ok ()) ∧ Restores s u ∧
      u.chain = s.chain ∧ fn u.txindex = fn s.txindex) ∧
    ∀ {ph : Phase} {w u : Chainstate}, Reaches cfg o (Honest net known cfg o) ph w →
      w.tip = idx → w.disconnectTip cfg = (u, .ok ()) → Restores s u := by
  obtain ⟨hcs, hph⟩ := h.honest hs hnet hdisk ho
  have hp := hph.next
  obtain ⟨n, hnode, -⟩ := Nodes.isSome_of_parent hp
  obtain ⟨b, got, v, fees, hread, -⟩ := connectBlock_ok hc
  obtain ⟨b₀, hk, hhash, -⟩ := hcs.read hs (by rw [hnode]; rfl) hread
  have hct := (hcs.connectBlock hs hnet hp hc hfit.of_flushDue).flushDue hfit
  obtain ⟨u, hd, hchain, htxs⟩ :=
    disconnectTip_again hs hcs hnet hdisk hp hbase hc hfit.of_flushDue
  have htip : (t.flushDue cfg).tip = idx := by
    obtain ⟨-, -, hpush, -⟩ := connectBlock_tree hc
    exact (tip_snoc ((flushDue_frame cfg t).2.1.trans (hpush rfl))).1
  exact ⟨⟨u, hd, hcs.disconnects hs hp hk hhash hct htip hd, hchain, htxs⟩, fun hw htip hd =>
    hcs.disconnects hs hp hk hhash (hw.honest hs hnet hdisk ho).1 htip hd⟩

end Chainstate

end QuantCore

namespace QuantCore.Chainstate

open Maps

attribute [local instance] stampCrypto

/-! ## The first block, undone -/

/-- Some steps of a call. -/
def advance (cfg : Config) : Nat → Phase → Chainstate → Option (Phase × Chainstate)
  | 0, ph, s => some (ph, s)
  | k + 1, ph, s =>
      if ph = .idle then none
      else (activateStep cfg ph s).2.fitting.bind (advance cfg k (activateStep cfg ph s).1)

theorem reaches_advance {cfg : Config} {o : Offers} {k : Nat} {ph : Phase} {s : Chainstate}
    (h : Reaches cfg o anyStep ph s) {x : Phase × Chainstate}
    (hr : advance cfg k ph s = some x) : Reaches cfg o anyStep x.1 x.2 := by
  induction k generalizing ph s with
  | zero =>
      cases hr
      exact h
  | succ k ih =>
      rw [advance] at hr
      split at hr
      · cases hr
      next hne =>
      obtain ⟨s₁, hs₁, hr⟩ := Option.bind_eq_some_iff.mp hr
      obtain ⟨rfl, hfit⟩ := fitting_some hs₁
      exact ih (.step h trivial (.activate hne) hfit) hr

/-- The node when it is about to connect the first block. -/
def atConnect : Option (Phase × Chainstate) :=
  (boot (regtestWith quiet)).bind fun s =>
    (enter (s.receiveBlock (regtestWith quiet) firstBlock true)).2.fitting.bind
      (advance (regtestWith quiet) 2 (enter (s.receiveBlock (regtestWith quiet) firstBlock true)).1)

theorem reaches_atConnect {x : Phase × Chainstate} (h : atConnect = some x) :
    Reaches (regtestWith quiet) firstOffer anyStep x.1 x.2 := by
  obtain ⟨s₀, h₀, h⟩ := Option.bind_eq_some_iff.mp h
  obtain ⟨s₁, h₁, h⟩ := Option.bind_eq_some_iff.mp h
  obtain ⟨rfl, hfit⟩ := fitting_some h₁
  have hb : firstOffer.block firstBlock := rfl
  exact reaches_advance (.step (reaches_boot h₀) trivial (.block (w := true) hb) hfit) h

/-- Is the first block next, and does it connect? -/
def connecting (x : Phase × Chainstate) : Bool :=
  x.1 == .connect (regtestGenesis.header.hash) (activateGuard - 1) [firstBlock.header.hash] &&
    !(x.2.entry firstBlock.header.hash).fromSnapshot &&
    (x.2.connectBlock (regtestWith quiet) firstBlock.header.hash).2.isOk &&
    ((x.2.connectBlock (regtestWith quiet) firstBlock.header.hash).1.flushDue
      (regtestWith quiet)).fits

theorem undo_exact_first : ∃ s t u,
    s.connectBlock (regtestWith quiet) firstBlock.header.hash = (t, .ok ()) ∧
    (t.flushDue (regtestWith quiet)).disconnectTip (regtestWith quiet) = (u, .ok ()) ∧
    Restores s u ∧ u.chain = s.chain ∧ fn u.txindex = fn s.txindex := by
  have hrun : atConnect.any connecting = true := by
    decide +kernel
  cases hx : atConnect with
  | none =>
      rw [hx] at hrun
      cases hrun
  | some x =>
      obtain ⟨ph, s⟩ := x
      rw [hx, Option.any_some, connecting, Bool.and_eq_true, Bool.and_eq_true, Bool.and_eq_true,
        Bool.not_eq_true'] at hrun
      obtain ⟨⟨⟨hph, hbase⟩, hok⟩, hfit⟩ := hrun
      have hs := reaches_atConnect hx
      rw [eq_of_beq hph] at hs
      cases hc : s.connectBlock (regtestWith quiet) firstBlock.header.hash with
      | mk t r =>
          rw [hc] at hok hfit
          cases r with
          | error e => cases hok
          | ok x =>
              obtain ⟨⟨u, hd, hu, hchain, htxs⟩, -⟩ := undo_exact sources_first rfl reliable_quiet
                (fun _ h => h) (hs.mono fun _ _ _ _ h => absurd h id) hbase hc (fits_of hfit)
              exact ⟨s, t, u, hc, hd, hu, hchain, htxs⟩

end QuantCore.Chainstate
