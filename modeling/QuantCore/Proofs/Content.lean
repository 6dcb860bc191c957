import QuantCore.Proofs.Files
import QuantCore.Proofs.Unsigned

/-!
# The state is that of the tip's branch

Whatever a node went through, its maps hold what the branch of its tip leads to:
a block is connected to the state of its parent, a disconnected block leaves the
state of its parent behind, and a start or a snapshot puts the state of another
branch in place as a whole. Beside the state the invariant speaks of the block
tree, of what is recorded of each block and of the files.
-/

namespace QuantCore

open Codec Maps Forest

variable [Crypto] {net : Network} {known : Block → Prop}

/-! ## One block up the branch -/

namespace Branch

/-- No block has the hash of genesis but genesis. -/
theorem hash_ne_genesis (hs : Sources net known) {n : Nat} {b : Block} (hk : known b)
    (hc : b.Checked (n + 1)) (hn : n + 1 < 2 ^ 63) :
    b.header.hash ≠ (paramsFor net).genesisHash := by
  intro h
  rw [genesis_hash] at h
  have := (same_core hs.free hk hs.genesis hc (genesis_checked net) hn (by decide) h).1
  omega

theorem placed (hs : Sources net known) {n : Nat} {h : Hash256} {bs : List Block}
    {L : StateReader} (hb : Branch (paramsFor net) known n h bs L) :
    Placed (paramsFor net).genesisHash known h n := by
  induction hb with
  | genesis => exact .genesis
  | block hb hk hc hn hst ih => exact .block hk (hash_ne_genesis hs hk hc hn) ih

/-- The outputs of the next block are new. -/
theorem fresh (hs : Sources net known) {n : Nat} {b : Block} {bs : List Block} {L : StateReader}
    (hb : Branch (paramsFor net) known n b.header.prev bs L)
    (hnew : ∀ t ∈ b.txs, t.txid ∉ (bs.flatMap Block.txs).map Transaction.txid) :
    ∀ o ∈ Chainstate.blockOutPoints b, L.coin o = none := by
  intro o ho
  obtain ⟨t, ht, ho⟩ := List.mem_flatMap.mp ho
  obtain ⟨i, -, rfl⟩ := List.mem_map.mp ho
  cases hcoin : L.coin ⟨t.txid, UInt32.ofNat i⟩ with
  | none => rfl
  | some c =>
      have hmem := (hb.history hs.free hs.genesis).coin ⟨t.txid, UInt32.ofNat i⟩
        (by rw [hcoin]; rfl)
      exact absurd hmem (hnew t ht)

omit [Crypto] in
/-- What a block within the decoder's limits leaves to be undone can be counted. -/
theorem weight_lt {b : Block} (hl : b.Limits) {w : Nat}
    (hw : w ≤ (b.txs.map fun t => t.ins.length + t.ops.length).sum) : w < 2 ^ 64 := by
  have hsum : ∀ l : List Transaction, (∀ t ∈ l, t.Limits) →
      (l.map fun t => t.ins.length + t.ops.length).sum ≤
        l.length * (maxTxInputs + maxTxOps) := by
    intro l hl
    induction l with
    | nil => exact Nat.zero_le _
    | cons t l ih =>
        rw [List.forall_mem_cons] at hl
        have := ih hl.2
        have h₁ := hl.1.ins
        have h₂ := hl.1.ops
        rw [List.map_cons, List.sum_cons, List.length_cons, Nat.add_mul]
        omega
  have h₁ := hsum b.txs hl.tx
  have h₂ := Nat.mul_le_mul_right (maxTxInputs + maxTxOps) hl.txs
  have h₃ : maxBlockSize / 40 * (maxTxInputs + maxTxOps) < 2 ^ 64 := by decide
  omega

/-- A block whose view over the state of its parent comes out well is the next of
the branch, and the record the view leaves undoes it. -/
theorem connect (hs : Sources net known) {n : Nat} {b : Block} {bs : List Block}
    {L : StateReader} {v : LedgerView} {fees : Amount}
    (hb : Branch (paramsFor net) known n b.header.prev bs L) (hn : n + 1 < 2 ^ 63)
    (hk : known b) (hc : b.Checked (n + 1))
    (hv : blockView L b.core (UInt64.ofNat (n + 1)) (paramsFor net).genesisHash false =
      .ok (v, fees))
    (hpay : (b.core.txs.headD default).totalQntOut ≤
      blockSubsidy (UInt64.ofNat (n + 1)) + fees) :
    Branch (paramsFor net) known (n + 1) b.header.hash (b.core :: bs) v.reader ∧
      v.Wf ∧ v.base = L ∧ v.undo.Undoes b.core L v.reader := by
  have hbc : Branch (paramsFor net) known n b.core.header.prev bs L := hb
  obtain ⟨heq, hok⟩ := blockView_eq hs.free hs.genesis hbc hn
    (fun t ht => KnownTx.of_core hk ht) hc.core false
  obtain ⟨hw, hbase, hnew⟩ := hok v fees hv
  rw [hv] at heq
  have hblock : L.block b.core (n + 1) (paramsFor net).genesisHash false = .ok v.reader := by
    rw [StateReader.block, ← heq]
    exact if_neg (fun h => absurd hpay (UInt64.not_le.mpr h.2))
  have hne : b.core.txs ≠ [] := by
    obtain ⟨cb, rest, htxs, -⟩ := hc.core.txs_eq
    rw [htxs]
    exact List.cons_ne_nil _ _
  obtain ⟨hweight, hcreates⟩ := blockView_bounds hne hv
  have hlimits : (b.core.txs.map fun t => t.ins.length + t.ops.length).sum =
      (b.txs.map fun t => t.ins.length + t.ops.length).sum := by
    rw [Block.core, List.map_map]
    rfl
  rw [hlimits] at hweight
  refine ⟨.block hb hk hc hn hblock, hw, hbase, ?_⟩
  have hundo := undo_undoes hw hcreates (hbase ▸ fresh hs hbc hnew)
    (weight_lt (hs.limits b hk) hweight)
  rwa [hbase] at hundo

end Branch

/-! ## The invariant -/

namespace Chainstate

/-- What is recorded of the data of each block. -/
def dataOf (s : Chainstate) (h : Hash256) : Option (Bool × Nat × Nat) :=
  (s.lookup h).map fun i => (i.haveData, i.dataPos, i.dataLen)

variable (net known)

/-- The maps are what the branch of the tip leads to, and the transaction index
names transactions of that branch. -/
def OnBranch (s : Chainstate) : Prop :=
  ∃ bs, Branch (paramsFor net) known s.height s.tip bs s.reader ∧
    ∀ t ∈ s.txindex, t ∈ (bs.flatMap Block.txs).map Transaction.txid

/-- The invariant of a node: the tree it keeps, the files, the record of where
in the files each block is, the snapshots it holds, the books, and the state. -/
structure Content (s : Chainstate) : Prop where
  rooted : s.Rooted (paramsFor net).genesisHash
  named : Nodes.Named known s.node
  files : s.disk.Files net known
  data : ∀ h pos len, s.dataOf h = some (true, pos, len) →
    ∃ b, StoredAt net known s.disk.blocks h pos len b
  held : ∀ h x, s.snapshotHash.lookup h = some x → ∃ y, IsState net known h y ∧ x = stateHash y
  accounts : s.Accounts
  branch : s.OnBranch net known

variable {net known} {s s' : Chainstate}

omit [Crypto] in
theorem dataOf_congr (h : s'.index = s.index) : s'.dataOf = s.dataOf := by
  funext x
  rw [dataOf, dataOf, lookup, lookup, h]

omit [Crypto] in
theorem FlagsOnly.dataOf (h : FlagsOnly s s') : s'.dataOf = s.dataOf :=
  funext (h.part fun _ => rfl)

theorem Content.stored_at (h : s.Content net known) {idx : Hash256} {i : BlockIndex}
    (hi : s.lookup idx = some i) (hd : i.haveData = true) :
    ∃ b, StoredAt net known s.disk.blocks idx i.dataPos i.dataLen b := by
  refine h.data idx i.dataPos i.dataLen ?_
  rw [dataOf, hi, Option.map_some, hd]

/-- Of the ledger, the parts that make up a branch's state. -/
structure SameLedger (s s' : Chainstate) : Prop where
  utxo : s'.utxo = s.utxo
  byAddr : s'.byAddr = s.byAddr
  tokens : s'.tokens = s.tokens
  pools : s'.pools = s.pools
  supply : s'.supply = s.supply
  txindex : s'.txindex = s.txindex

omit [Crypto] in
theorem SameLedger.reader (h : SameLedger s s') : s'.reader = s.reader := by
  rw [Chainstate.reader, Chainstate.reader, h.utxo, h.tokens, h.pools]

theorem OnBranch.congr (h : s.OnBranch net known) (hl : SameLedger s s')
    (hc : s'.chain = s.chain) : s'.OnBranch net known := by
  obtain ⟨bs, hb, htx⟩ := h
  refine ⟨bs, ?_, ?_⟩
  · rw [hl.reader, height, tip, hc]
    exact hb
  · rw [hl.txindex]
    exact htx

/-- A step that leaves the tree's shape, the data, the ledger and the held
snapshots alone, and the files in order. -/
theorem Content.congr (h : s.Content net known) (ht : SameTree s s')
    (hd : s'.dataOf = s.dataOf) (hblocks : s'.disk.blocks = s.disk.blocks)
    (hf : s'.disk.Files net known) (hh : s'.snapshotHash = s.snapshotHash)
    (hl : SameLedger s s') : s'.Content net known where
  rooted := h.rooted.of_sameTree ht
  named := by
    rw [ht.node]
    exact h.named
  files := hf
  data := by
    rw [hblocks, hd]
    exact h.data
  held := by
    rw [hh]
    exact h.held
  accounts := h.accounts.of_eq hl.utxo hl.byAddr hl.pools hl.supply
  branch := h.branch.congr hl ht.chain

theorem Content.ticked (h : s.Content net known) : s.ticked.Content net known :=
  h.congr ⟨rfl, rfl, rfl⟩ rfl rfl h.files rfl ⟨rfl, rfl, rfl, rfl, rfl, rfl⟩

theorem Content.flagsOnly (h : s.Content net known) (hf : FlagsOnly s s') :
    s'.Content net known := by
  have hr := hf.rest
  refine h.congr hf.sameTree hf.dataOf ?_ ?_ ?_ ?_
  · rw [hr]
  · rw [hr]
    exact h.files
  · rw [hr]
  · rw [hr]
    exact ⟨rfl, rfl, rfl, rfl, rfl, rfl⟩

/-! ## Places -/

theorem Content.placed (h : s.Content net known) {x : Hash256} (hx : (s.node x).isSome) :
    Placed (paramsFor net).genesisHash known x (s.entry x).height := by
  obtain ⟨n, hn⟩ := Option.isSome_iff_exists.mp hx
  rw [entry_height, Nodes.height_eq hn]
  exact h.rooted.tree.placed h.named hn

theorem Content.height_eq (hs : Sources net known) (h : s.Content net known) {x : Hash256}
    (hx : (s.node x).isSome) {n : Nat}
    (hp : Placed (paramsFor net).genesisHash known x n) : (s.entry x).height = n :=
  (h.placed hx).unique hs.free hp

theorem Content.height_tip (h : s.Content net known) : (s.entry s.tip).height = s.height := by
  rw [entry_height, Chainstate.height_tip h.rooted.tree h.rooted.chain, height]

theorem Content.height_next (h : s.Content net known) {idx : Hash256}
    (hp : Nodes.parent s.node idx = some s.tip) : (s.entry idx).height = s.height + 1 := by
  rw [entry_height, h.rooted.tree.ranked idx s.tip hp, ← entry_height, h.height_tip]

theorem Content.height_le (h : s.Content net known) {x : Hash256} (hx : x ∈ s.chain) :
    (s.entry x).height ≤ s.height := by
  obtain ⟨i, hi⟩ := List.mem_iff_getElem?.mp hx
  have hlt := (List.getElem?_eq_some_iff.mp hi).1
  rw [entry_height, Chainstate.height_getElem h.rooted.tree h.rooted.chain hi, height]
  omega

/-- The active chain is no longer than the index is large. -/
theorem Content.height_lt (h : s.Content net known) : s.height < s.index.keys.length := by
  have hnd : s.chain.Nodup := by
    rw [List.nodup_iff_getElem?_ne_getElem?]
    intro i j hij hj he
    obtain ⟨x, hx⟩ : ∃ x, s.chain[j]? = some x := ⟨_, List.getElem?_eq_getElem hj⟩
    have hi := Chainstate.height_getElem h.rooted.tree h.rooted.chain (he.trans hx)
    have hj := Chainstate.height_getElem h.rooted.tree h.rooted.chain hx
    omega
  have hsub : s.chain ⊆ s.index.keys := by
    intro x hx
    exact node_isSome.mp (chain_isSome h.rooted.tree h.rooted.chain hx)
  have hlen := (hnd.subperm hsub).length_le
  have hpos := List.length_pos_of_mem (tip_mem h.rooted.chain)
  rw [height]
  omega

/-! ## Blocks -/

/-- What is read back of a block of the tree is a block that belongs there. -/
theorem Content.read (hs : Sources net known) (h : s.Content net known) {cfg : Config}
    {idx : Hash256} (hx : (s.node idx).isSome) {w got : Bool} {blk : Block}
    (hr : s.readBlock cfg idx w = some (blk, got)) :
    ∃ b, known b ∧ b.header.hash = idx ∧ b.Checked (s.entry idx).height ∧
      blk.core = b.core ∧ (got = false → blk = b.core) ∧
      (got = true → w = true ∧ ∃ x rest, IsWitness known idx x ∧
        b.core.readWitness x = .ok (blk, rest)) := by
  obtain ⟨b, hf, hcore, hno, hyes⟩ := readBlock_stored hr (fun _ => h.stored_at) hs.limits
  refine ⟨b, hf.around, hf.hash, hf.checked _ (h.placed hx), hcore, hno, fun hgot => ?_⟩
  obtain ⟨hw, x, rest, hwx, hread⟩ := hyes hgot
  exact ⟨hw, x, rest, h.files.witness idx x hwx, hread⟩

/-- The header of a child of `p` names `p`. -/
theorem Content.prev_eq (hs : Sources net known) (h : s.Content net known) {idx p : Hash256}
    (hp : Nodes.parent s.node idx = some p) {b : Block} (hk : known b)
    (hb : b.header.hash = idx) : b.header.prev = p := by
  obtain ⟨n, hn, hnp⟩ := Nodes.isSome_of_parent hp
  obtain ⟨hprev, -⟩ := h.rooted.tree.parent idx n p hn hnp
  rw [← h.rooted.tree.header_eq h.named hs.free hn hk hb]
  exact hprev

/-! ## Connecting -/

theorem connected_reader {idx : Hash256} {b : Block} {v : LedgerView} (hw : v.Wf)
    (hb : v.base = s.reader) : (s.connected idx b v).reader = v.reader :=
  commitView_reader hw hb

theorem connected_chain (idx : Hash256) (b : Block) (v : LedgerView) :
    (s.connected idx b v).chain = s.chain ++ [idx] := by
  show (s.commitView v).chain ++ [idx] = _
  rw [commitView_ledgerOnly s v]

omit [Crypto] in
theorem tip_snoc {l : List Hash256} {x : Hash256} (hc : s.chain = l ++ [x]) :
    s.tip = x ∧ s.height = l.length := by
  rw [tip, height, hc]
  exact ⟨List.getLastD_concat, by rw [List.length_append, List.length_singleton]; rfl⟩

/-- The state after a connect is the branch's state one block up, and the record
it leaves takes it back. -/
theorem Content.connected (hs : Sources net known) (h : s.Content net known)
    (hn : s.index.keys.length < 2 ^ 63) {cfg : Config} (hnet : cfg.network = net)
    {idx : Hash256} (hp : Nodes.parent s.node idx = some s.tip) {b : Block} {got verify : Bool}
    {v : LedgerView} {fees : Amount} (hr : s.readBlock cfg idx true = some (b, got))
    (hv : blockView s.reader b (UInt64.ofNat (s.entry idx).height) cfg.params.genesisHash
      verify = .ok (v, fees))
    (hpay : (s.entry idx).height > 0 → (b.txs.headD default).totalQntOut ≤
      blockSubsidy (UInt64.ofNat (s.entry idx).height) + fees) :
    v.Wf ∧ v.base = s.reader ∧ (s.connected idx b v).OnBranch net known ∧
      (s.connected idx b v).tip = idx ∧ IsUndo net known idx v.undo.write := by
  obtain ⟨n, hnode, -⟩ := Nodes.isSome_of_parent hp
  obtain ⟨b₀, hk, hhash, hc, hcore, -, -⟩ := h.read hs (by rw [hnode]; rfl) hr
  have hheight := h.height_next hp
  have hlt := h.height_lt
  rw [hheight] at hc hv hpay
  obtain ⟨bs, hbranch, htx⟩ := h.branch
  rw [← h.prev_eq hs hp hk hhash] at hbranch
  have hview := blockView_core hv
  have hpay : (b.core.txs.headD default).totalQntOut ≤
      blockSubsidy (UInt64.ofNat (s.height + 1)) + fees := by
    rw [Block.core_txs_head]
    exact hpay (Nat.succ_pos _)
  rw [hcore] at hview hpay
  subst hnet
  obtain ⟨hnext, hw, hbase, hundo⟩ := hbranch.connect hs (by omega) hk hc hview hpay
  rw [hhash] at hnext
  obtain ⟨htip, hlen⟩ := tip_snoc (s := s.connected idx b v) (connected_chain idx b v)
  have hh : (s.connected idx b v).height = s.height + 1 := by
    have hpos := List.length_pos_of_mem (tip_mem h.rooted.chain)
    rw [hlen, height]
    omega
  refine ⟨hw, hbase, ⟨b₀.core :: bs, ?_, ?_⟩, htip, ?_⟩
  · rw [htip, hh, connected_reader hw hbase]
    exact hnext
  · intro t ht
    rw [List.flatMap_cons, List.map_append, List.mem_append]
    rcases mem_of_mem_insertAll ht with ht | ht
    · left
      rw [List.map_map] at ht
      rw [← hcore, Block.core_ids]
      exact ht
    · right
      refine htx t ?_
      have hl : (s.commitView v).txindex = s.txindex := by rw [commitView_ledgerOnly s v]
      rw [← hl]
      exact ht
  · exact ⟨s.height, bs, s.reader, v.reader, b₀.core, v.undo, hbranch, hnext, hundo, rfl⟩

/-- The bytes of a state that is its branch's. -/
theorem OnBranch.isState (h : s.OnBranch net known) (hu : s.utxo.keys.length < 2 ^ 64)
    (ht : s.tokens.keys.length < 2 ^ 64) (hp : s.pools.keys.length < 2 ^ 64) :
    IsState net known s.tip s.serializeState := by
  obtain ⟨bs, hb, -⟩ := h
  have hrec : s.Recorded := ⟨hb.keyed, hu, ht, hp⟩
  exact ⟨s.height, bs, s.reader, s.snapshot, hb, hrec.of, rfl⟩

theorem connected_accounts (h : s.Accounts) {idx : Hash256} {b : Block} {v : LedgerView}
    (hw : v.Wf) (hb : v.base = s.reader) : (s.connected idx b v).Accounts :=
  (commitView_accounts h hw hb).of_eq rfl rfl rfl rfl

theorem connected_index (idx : Hash256) (b : Block) (v : LedgerView) :
    (s.connected idx b v).index = s.index := by
  show (s.commitView v).index = s.index
  rw [commitView_ledgerOnly s v]

theorem connected_disk (idx : Hash256) (b : Block) (v : LedgerView) :
    (s.connected idx b v).disk = s.disk := by
  show (s.commitView v).disk = s.disk
  rw [commitView_ledgerOnly s v]

omit [Crypto] in
theorem FilesOnly.sameLedger (h : FilesOnly s s') : SameLedger s s' := by
  rw [h]
  exact ⟨rfl, rfl, rfl, rfl, rfl, rfl⟩

omit [Crypto] in
theorem FilesOnly.files (h : FilesOnly s s') : s'.index = s.index ∧
    s'.disk.headers = s.disk.headers ∧ s'.disk.blocks = s.disk.blocks ∧
    s'.disk.blockpos = s.disk.blockpos ∧ s'.disk.utxoDat = s.disk.utxoDat := by
  rw [h]
  exact ⟨rfl, rfl, rfl, rfl, rfl⟩

theorem Content.connectBlock (hs : Sources net known) (h : s.Content net known) {cfg : Config}
    (hnet : cfg.network = net) {idx : Hash256} (hp : Nodes.parent s.node idx = some s.tip)
    (hr : s.connectBlock cfg idx = (s', .ok ())) (hfit : s'.Fits) : s'.Content net known := by
  obtain ⟨hnode, hseq, hchain, -⟩ := connectBlock_tree hr
  obtain ⟨b, got, v, fees, hread, -, -, hview, hpay, -, rfl⟩ := connectBlock_ok hr
  have hfo := commitBlock_filesOnly cfg s idx b v
  have hleaves := commitBlock_leaves cfg s idx b v
  have hsame := hfo.sameLedger
  obtain ⟨hi, hheaders, hblocks, hpos, hutxo⟩ := hfo.files
  have hi : (s.commitBlock cfg idx b v).index = s.index := hi.trans (connected_index idx b v)
  have hdisk : (s.connected idx b v).ticked.disk = s.disk := connected_disk idx b v
  rw [hdisk] at hheaders hblocks hpos hutxo
  obtain ⟨hw, hbase, hon, htip, hundo⟩ := h.connected hs (by rw [← hi]; exact hfit.index) hnet hp
    hread hview hpay
  have hacc : (s.connected idx b v).Accounts := connected_accounts h.accounts hw hbase
  have hstate : IsState net known idx (s.connected idx b v).serializeState := by
    have hx := hon.isState (by have := hfit.utxo; rwa [hsame.utxo] at this)
      (by have := hfit.tokens; rwa [hsame.tokens] at this)
      (by have := hfit.pools; rwa [hsame.pools] at this)
    rwa [htip] at hx
  exact {
    rooted := h.rooted.push hnode hseq (hchain rfl) hp
    named := by
      rw [hnode]
      exact h.named
    files := {
      headers := by
        rw [hheaders]
        exact h.files.headers
      positions := by
        rw [hpos, hblocks]
        exact h.files.positions
      witness := fun k x hx => h.files.witness k x (hleaves.witness k x hx)
      undo := fun k x hx => by
        rcases hleaves.undo k x hx with hx | ⟨rfl, rfl⟩
        · exact h.files.undo k x hx
        · exact hundo
      snapshots := fun k x hx => by
        rcases hleaves.snapshots k x hx with hx | ⟨rfl, rfl⟩
        · exact h.files.snapshots k x hx
        · exact hstate
      utxo := by
        rw [hutxo]
        exact h.files.utxo }
    data := by
      have hd : (s.commitBlock cfg idx b v).dataOf = s.dataOf := dataOf_congr hi
      rw [hblocks, hd]
      exact h.data
    held := fun k x hx => by
      rcases hleaves.held k x hx with hx | ⟨rfl, rfl⟩
      · exact h.held k x hx
      · exact ⟨_, hstate, rfl⟩
    accounts := hacc.of_eq hsame.utxo hsame.byAddr hsame.pools hsame.supply
    branch := hon.congr ⟨hsame.utxo, hsame.byAddr, hsame.tokens, hsame.pools, hsame.supply,
      hsame.txindex⟩ hfo.sameTree.chain }

/-! ## Disconnecting -/

/-- What a successful disconnect went through. -/
theorem disconnectTip_ok {cfg : Config} (hr : s.disconnectTip cfg = (s', .ok ())) :
    ∃ b got u x rest, 0 < (s.entry s.tip).height ∧ (s.entry s.tip).fromSnapshot = false ∧
      s.readBlock cfg s.tip false = some (b, got) ∧ s.disk.undo.lookup s.tip = some x ∧
      Undo.read x = .ok (u, rest) ∧ s' = (s.revertBlock b u).ticked := by
  simp only [disconnectTip] at hr
  split at hr
  · cases hr
  next hbase =>
  simp only [not_or] at hbase
  split at hr
  · next b got u hb hu =>
      cases hr
      rw [readUndo] at hu
      split at hu
      · cases hu
      split at hu
      · cases hu
      next x hx =>
      split at hu
      · cases hu
      next u' rest hread =>
      cases hu
      exact ⟨b, got, u, x, rest, Nat.pos_of_ne_zero hbase.1, Bool.not_eq_true _ ▸ hbase.2, hb, hx,
        hread, rfl⟩
  · cases hr

theorem revertBlock_eq (s : Chainstate) (b : Block) (u : Undo) :
    s.revertBlock b u = { s with
      utxo := (s.revertBlock b u).utxo, byAddr := (s.revertBlock b u).byAddr
      supply := (s.revertBlock b u).supply, tokens := (s.revertBlock b u).tokens
      pools := (s.revertBlock b u).pools, chain := s.chain.dropLast
      txindex := (b.txs.map Transaction.txid).foldl (fun m t => m.erase t) s.txindex } := by
  have h₁ := LedgerOnly.foldl ledgerOnly_spendCoin (blockOutPoints b) s
  have h₂ := LedgerOnly.foldl (fun s (e : OutPoint × Coin) => ledgerOnly_addCoin s e.1 e.2)
    u.spent ((blockOutPoints b).foldl spendCoin s)
  have h₃ := LedgerOnly.foldl
    (fun s (e : Hash256 × Option Pool) => ledgerOnly_setPool s e.1 e.2) u.poolsBefore
    (u.spent.foldl (fun s e => s.addCoin e.1 e.2) ((blockOutPoints b).foldl spendCoin s))
  have h := (h₁.trans h₂).trans h₃
  rw [revertBlock]
  simp only [unindexBlockTxs]
  rw [h]

omit [Crypto] in
theorem mem_foldl_erase (l : List Hash256) {m : UMap Hash256 Hash256} {k : Hash256}
    (h : k ∈ l.foldl (fun m i => m.erase i) m) : k ∈ m ∧ k ∉ l := by
  induction l generalizing m with
  | nil => exact ⟨h, List.not_mem_nil⟩
  | cons i l ih =>
      obtain ⟨hm, hl⟩ := ih h
      rw [AList.mem_erase] at hm
      exact ⟨hm.2, fun hk => (List.mem_cons.mp hk).elim hm.1 hl⟩

end Chainstate

/-- At height 0 there is only genesis. -/
theorem Branch.zero {h : Hash256} {bs : List Block} {L : StateReader}
    (hb : Branch (paramsFor net) known 0 h bs L) :
    h = (paramsFor net).genesisHash ∧ bs = [(paramsFor net).genesis] ∧ L = .empty := by
  cases hb with
  | genesis => exact ⟨rfl, rfl, rfl⟩

theorem Branch.height_lt {n : Nat} {h : Hash256} {bs : List Block} {L : StateReader}
    (hb : Branch (paramsFor net) known n h bs L) : n < 2 ^ 63 := by
  cases hb with
  | genesis => decide
  | block hb hk hc hn hst => exact hn

/-- The last block of a branch. -/
theorem Branch.last {n : Nat} {h : Hash256} {b : Block} {bs : List Block} {L : StateReader}
    (hb : Branch (paramsFor net) known (n + 1) h (b :: bs) L) :
    ∃ c K, known c ∧ c.header.hash = h ∧ b = c.core ∧ c.Checked (n + 1) ∧ n + 1 < 2 ^ 63 ∧
      Branch (paramsFor net) known n c.header.prev bs K ∧
      K.block c.core (n + 1) (paramsFor net).genesisHash false = .ok L := by
  cases hb with
  | block hb hk hc hn hst => exact ⟨_, _, hk, rfl, rfl, hc, hn, hb, hst⟩

namespace Chainstate

variable {s s' : Chainstate}

/-- The record of the tip undoes the block that is read back for it, and what it
leads to is the state one block down. -/
theorem Content.undoes (hs : Sources net known) (h : s.Content net known) {cfg : Config}
    {b : Block} {got : Bool} {u : Undo} {x : Bytes} {rest : Bytes}
    (hr : s.readBlock cfg s.tip false = some (b, got)) (hx : s.disk.undo.lookup s.tip = some x)
    (hread : Undo.read x = .ok (u, rest)) :
    ∃ n bs L, s.height = n + 1 ∧
      Branch (paramsFor net) known (n + 1) s.tip (b :: bs) s.reader ∧
      Branch (paramsFor net) known n b.header.prev bs L ∧ u.Undoes b L s.reader := by
  obtain ⟨n, bs, L, L', b₁, u₁, hL, hL', hundo, rfl⟩ := h.files.undo s.tip x hx
  rw [(decodes_undo hundo.limits).run] at hread
  cases hread
  obtain ⟨bs', hbranch, -⟩ := h.branch
  obtain ⟨hn, -, rfl⟩ := hbranch.unique hs.free hs.genesis hL'
  obtain ⟨c, K, hck, hch, rfl, hcc, hlt, -, -⟩ := hL'.last
  obtain ⟨b₀, hk, hhash, hc, hcore, hno, hyes⟩ := h.read hs h.rooted.tip_isSome hr
  have hgot : got = false := by
    cases got with
    | false => rfl
    | true => exact (hyes rfl).1.symm
  rw [h.height_tip, hn] at hc
  have hsame := (Branch.same_core hs.free hk hck hc hcc hlt hlt
    (hhash.trans hch.symm)).2
  have hb : b = c.core := (hno hgot).trans hsame
  subst hb
  exact ⟨n, bs, L, hn, hL', hL, hundo⟩

theorem Content.disconnectTip (hs : Sources net known) (h : s.Content net known) {cfg : Config}
    (hr : s.disconnectTip cfg = (s', .ok ())) : s'.Content net known := by
  obtain ⟨hnode, hseq, hchain, -⟩ := disconnectTip_tree hr
  obtain ⟨b, got, u, x, rest, hpos, -, hread, hx, hu, rfl⟩ := disconnectTip_ok hr
  obtain ⟨n, bs, L, hn, hbranch, hbelow, hundo⟩ := h.undoes hs hread hx hu
  obtain ⟨hrooted, hparent⟩ := h.rooted.pop hnode hseq (hchain rfl) hpos
  have hrest := revertBlock_eq s b u
  have hindex : (s.revertBlock b u).ticked.index = s.index := by
    show (s.revertBlock b u).index = s.index
    rw [hrest]
  have hdisk : (s.revertBlock b u).ticked.disk = s.disk := by
    show (s.revertBlock b u).disk = s.disk
    rw [hrest]
  have htxs : (s.revertBlock b u).ticked.txindex =
      (b.txs.map Transaction.txid).foldl (fun m t => m.erase t) s.txindex := by
    show (s.revertBlock b u).txindex = _
    rw [hrest]
  obtain ⟨c, K, hck, hch, rfl, -, -, hprev, -⟩ := hbranch.last
  have hreader : (s.revertBlock c.core u).ticked.reader = L := revertBlock_reader hundo
  have htip : (s.revertBlock c.core u).ticked.tip = c.core.header.prev :=
    (h.prev_eq hs hparent hck hch).symm
  have hheight : (s.revertBlock c.core u).ticked.height = n := by
    rw [height, hchain rfl, List.length_dropLast]
    rw [height] at hn
    omega
  obtain ⟨bs', hbranch', htx⟩ := h.branch
  have hbs : bs' = c.core :: bs := by
    rw [hn] at hbranch'
    exact (hbranch'.unique hs.free hs.genesis hbranch).2.1
  exact {
    rooted := hrooted
    named := by
      rw [hnode]
      exact h.named
    files := by
      rw [hdisk]
      exact h.files
    data := by
      rw [hdisk, dataOf_congr hindex]
      exact h.data
    held := by
      have hheld : (s.revertBlock c.core u).ticked.snapshotHash = s.snapshotHash := by
        show (s.revertBlock c.core u).snapshotHash = s.snapshotHash
        rw [hrest]
      rw [hheld]
      exact h.held
    accounts := (revertBlock_accounts h.accounts hundo).of_eq rfl rfl rfl rfl
    branch := by
      refine ⟨bs, ?_, fun t ht => ?_⟩
      · rw [hheight, htip, hreader]
        exact hbelow
      · rw [htxs] at ht
        obtain ⟨hm, hnot⟩ := mem_foldl_erase _ ht
        have := htx t hm
        rw [hbs, List.flatMap_cons, List.map_append, List.mem_append] at this
        exact this.resolve_left hnot }

end Chainstate

end QuantCore
