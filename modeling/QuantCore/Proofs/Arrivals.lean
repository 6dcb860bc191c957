import QuantCore.Proofs.Content

/-!
# What arrives keeps the state that of the branch

A header makes the tree larger and a block the files; neither touches the maps.
A flush writes the maps down, and a snapshot replaces them by the state of
another branch. Each of these keeps the invariant, for the blocks that are
around and for the snapshots that are states.
-/

namespace QuantCore

open Codec Maps Forest

variable [Crypto] {net : Network} {known : Block → Prop}

namespace Chainstate

variable {s s' : Chainstate}

/-! ## Headers -/

omit [Crypto] in
theorem dataOf_modify (s : Chainstate) (h : Hash256) {f : BlockIndex → BlockIndex}
    (hf : ∀ i, ((f i).haveData, (f i).dataPos, (f i).dataLen) =
      (i.haveData, i.dataPos, i.dataLen)) : (s.modify h f).dataOf = s.dataOf :=
  funext (map_lookup_modify s h hf)

/-- A new entry has no data yet. -/
theorem addIndex_dataOf (s : Chainstate) (hd : BlockHeader) (x : Hash256) :
    (s.addIndex hd).dataOf x = if x = hd.hash then some (false, 0, 0) else s.dataOf x := by
  rw [dataOf, addIndex_lookup]
  split
  · rw [newEntry]
    split <;> rfl
  · simp only [linkChild]
    split
    · next p _ =>
        exact congrFun (dataOf_modify s p
          (f := fun q => { q with children := q.children ++ [hd.hash] }) fun _ => rfl) x
    · rfl

theorem addIndex_data {hd : BlockHeader} {x : Hash256} {pos len : Nat}
    (h : (s.addIndex hd).dataOf x = some (true, pos, len)) : s.dataOf x = some (true, pos, len) := by
  rw [addIndex_dataOf] at h
  split at h
  · cases h
  · exact h

theorem addIndex_sameLedger (s : Chainstate) (hd : BlockHeader) :
    SameLedger s (s.addIndex hd) := by
  rw [addIndex_eq]
  exact ⟨rfl, rfl, rfl, rfl, rfl, rfl⟩

theorem files_addHeader {disk : Disk} (h : disk.Files net known) {hd : BlockHeader}
    (hk : ∃ b, known b ∧ b.header = hd) :
    Disk.Files net known { disk with headers := disk.headers ++ hd.write } where
  headers := by
    obtain ⟨hs, he, hhs⟩ := h.headers
    refine ⟨hs ++ [hd], ?_, fun x hx => ?_⟩
    · rw [he, List.flatMap_append, List.flatMap_singleton]
    · rcases List.mem_append.mp hx with hx | hx
      · exact hhs x hx
      · rw [List.mem_singleton.mp hx]
        exact hk
  positions := h.positions
  witness := h.witness
  undo := h.undo
  snapshots := h.snapshots
  utxo := h.utxo

theorem Content.acceptHeader (h : s.Content net known) {cfg : Config} {hd : BlockHeader}
    (hk : ∃ b, known b ∧ b.header = hd) {r : HeaderResult}
    (hr : s.acceptHeader cfg hd = (s', r)) : s'.Content net known := by
  have hg := acceptHeader_grown h.rooted hr
  have hn := acceptHeader_named h.named hk hr
  rcases acceptHeader_cases hr with ⟨rfl, -⟩ | ⟨-, -, -, -, rfl⟩
  · exact h.ticked
  · have hl := addIndex_sameLedger s.ticked hd
    have hheld : (s.ticked.addIndex hd).snapshotHash = s.snapshotHash := by
      rw [addIndex_eq]
      rfl
    exact {
      rooted := hg.rooted
      named := hn
      files := files_addHeader h.files hk
      data := fun x pos len hx => h.data x pos len (@addIndex_data _ s.ticked hd x pos len hx)
      held := by
        show ∀ k x, (s.ticked.addIndex hd).snapshotHash.lookup k = some x → _
        rw [hheld]
        exact h.held
      accounts := h.ticked.accounts.of_eq hl.utxo hl.byAddr hl.pools hl.supply
      branch := h.ticked.branch.congr ⟨hl.utxo, hl.byAddr, hl.tokens, hl.pools, hl.supply,
        hl.txindex⟩ hg.chain }

/-! ## Blocks -/

theorem checkBlockTxs_ok {w : Bool} {ts : List Transaction} {ids : List Hash256}
    (h : checkBlockTxs w ts ids = .ok ()) :
    (∀ t ∈ ts, ∃ a, checkTxBasic t w = .ok a) ∧ (ts.map Transaction.txid).Nodup ∧
      ∀ t ∈ ts, t.txid ∉ ids := by
  induction ts generalizing ids with
  | nil => exact ⟨fun _ h => (nomatch h), List.nodup_nil, fun _ h => (nomatch h)⟩
  | cons t ts ih =>
      rw [checkBlockTxs] at h
      split at h
      · cases h
      next a ha =>
      split at h
      · cases h
      next hnew =>
      obtain ⟨hok, hnd, hids⟩ := ih h
      refine ⟨List.forall_mem_cons.mpr ⟨⟨a, ha⟩, hok⟩, ?_,
        List.forall_mem_cons.mpr ⟨hnew, ?_⟩⟩
      · rw [List.map_cons, List.nodup_cons]
        refine ⟨fun hm => ?_, hnd⟩
        obtain ⟨u, hu, he⟩ := List.mem_map.mp hm
        exact hids u hu (he ▸ List.mem_cons_self)
      · exact fun u hu hm => hids u hu (List.mem_cons_of_mem _ hm)

omit [Crypto] in
/-- Without signatures to expect, one check less is made. -/
theorem checkTxBasic_any {t : Transaction} {w : Bool} {a : Amount}
    (h : checkTxBasic t w = .ok a) : checkTxBasic t false = .ok 0 := by
  have hshape : ∀ {w}, checkShape t w = .ok () → checkShape t false = .ok () := by
    intro w h
    simp only [checkShape] at h ⊢
    split at h
    · cases h
    next h₁ =>
    rw [if_neg h₁]
    split at h
    · cases h
    next h₂ =>
    rw [if_neg h₂]
    split at h
    · next h₃ =>
        rw [if_pos h₃]
        exact h
    next h₃ =>
    rw [if_neg h₃]
    split at h
    · cases h
    next h₄ =>
    rw [if_neg h₄]
    split at h
    · cases h
    next h₅ =>
    rw [if_neg h₅]
    split at h
    · cases h
    rw [if_neg (fun h => Bool.false_ne_true h.1)]
    exact h
  rw [checkTxBasic] at h ⊢
  split at h
  · cases h
  next hs =>
  rw [hshape hs]
  split at h
  · cases h
  next ho =>
  split at h
  · cases h
  rfl

/-- What the checks of `accept_block` say of a block at its height. -/
theorem checkBlock_ok {idx : Hash256} {b : Block} {w : Bool}
    (h : s.checkBlock idx b w = .ok ()) :
    b.Checked (s.entry idx).height ∧ b.coreBytes.length ≤ maxBlockSize ∧
      (w = true → b.computeWitnessRoot = b.header.witnessRoot) := by
  rw [checkBlock] at h
  split at h
  · cases h
  next hcb =>
  split at h
  · cases h
  next hothers =>
  split at h
  · cases h
  next hmerkle =>
  split at h
  · cases h
  next hwit =>
  split at h
  · cases h
  next hfull =>
  split at h
  · cases h
  next hcore =>
  split at h
  · cases h
  split at h
  · cases h
  next hlock =>
  obtain ⟨hok, hnd, -⟩ := checkBlockTxs_ok h
  have hsize : b.coreBytes.length ≤ maxBlockSize := by
    cases w with
    | false =>
        rw [Bool.not_false] at hcore
        exact Nat.not_lt.mp fun hlt => hcore ⟨rfl, hlt⟩
    | true =>
        have hle : b.fullSize ≤ maxBlockSize := Nat.not_lt.mp fun hlt => hfull ⟨rfl, hlt⟩
        rw [Block.fullSize, List.length_append] at hle
        omega
  refine ⟨?_, hsize, fun hw => not_not.mp fun hne => hwit ⟨hw, hne⟩⟩
  exact {
    coinbase := by simpa using hcb
    others := fun t ht => by
      rw [List.any_eq_true, not_exists] at hothers
      rw [← Bool.not_eq_true]
      exact fun hc => hothers t ⟨ht, hc⟩
    merkle := not_not.mp hmerkle
    height := not_not.mp hlock
    basic := fun t ht => by
      obtain ⟨a, ha⟩ := hok t ht
      exact checkTxBasic_any ha
    ids := hnd }

/-- A block that meets the checks is filed under its header's hash. -/
theorem Content.filed (hs : Sources net known) (h : s.Content net known) {b : Block} {w : Bool}
    (hk : known b) (hx : b.header.hash ∈ s.index)
    (hc : s.checkBlock b.header.hash b w = .ok ()) : Filed net known b.header.hash b where
  around := hk
  hash := rfl
  checked := fun n hn => by
    rw [← h.height_eq hs (node_isSome.mpr hx) hn]
    exact (checkBlock_ok hc).1

omit [Crypto] in
theorem stored_dataOf (s : Chainstate) (idx : Hash256) (b : Block) (w : Bool) (x : Hash256) :
    (s.stored idx b w).dataOf x =
      if x = idx then (s.lookup idx).map fun _ =>
        (true, s.disk.blocks.length, (UInt32.ofNat b.coreBytes.length).toNat)
      else s.dataOf x := by
  show ((s.modify idx _).lookup x).map _ = _
  rw [lookup_modify]
  split
  · rw [Option.map_map]
    rfl
  · rfl

/-- The files once a block and, if it is kept, its witness are written. -/
theorem files_store {disk : Disk} (h : disk.Files net known) {idx : Hash256} {b : Block}
    {w : Bool} (hb : Filed net known idx b) (hlen : b.coreBytes.length < 2 ^ 32)
    (hw : w = true → b.computeWitnessRoot = b.header.witnessRoot) :
    Disk.Files net known { disk with
      blocks := disk.blocks ++ b.coreBytes
      blockpos := disk.blockpos ++ writePosition idx disk.blocks.length b.coreBytes.length
      witness := if w then disk.witness.insert idx b.witnessBytes else disk.witness } ∧
    StoredAt net known (disk.blocks ++ b.coreBytes) idx disk.blocks.length
      b.coreBytes.length b := by
  have hstored : StoredAt net known (disk.blocks ++ b.coreBytes) idx disk.blocks.length
      b.coreBytes.length b :=
    { filed := hb
      within := by rw [List.length_append]
      small := hlen
      slice := by rw [List.drop_left, List.take_length] }
  refine ⟨?_, hstored⟩
  exact {
    headers := h.headers
    positions := by
      obtain ⟨ps, he, hps⟩ := h.positions
      refine ⟨ps ++ [(idx, disk.blocks.length, b.coreBytes.length)], ?_, fun p hp => ?_⟩
      · rw [he, List.flatMap_append, List.flatMap_singleton]
      · rcases List.mem_append.mp hp with hp | hp
        · obtain ⟨c, hc⟩ := hps p hp
          exact ⟨c, hc.append _⟩
        · rw [List.mem_singleton.mp hp]
          exact ⟨b, hstored⟩
    witness := fun k x hx => by
      cases w with
      | false => exact h.witness k x hx
      | true =>
          rw [if_pos rfl, lookup_insert_ite] at hx
          split at hx
          · next hk =>
              cases hx
              exact ⟨b, hb.around, hb.hash.trans hk.symm, hw rfl, rfl⟩
          · exact h.witness k x hx
    undo := h.undo
    snapshots := h.snapshots
    utxo := h.utxo }

/-- The record of the data, once a block is stored. -/
theorem stored_data {idx : Hash256} {b : Block} {w : Bool}
    (h : ∀ k pos len, s.dataOf k = some (true, pos, len) →
      ∃ c, StoredAt net known s.disk.blocks k pos len c)
    (hb : StoredAt net known (s.disk.blocks ++ b.coreBytes) idx s.disk.blocks.length
      b.coreBytes.length b) :
    ∀ k pos len, (s.stored idx b w).dataOf k = some (true, pos, len) →
      ∃ c, StoredAt net known (s.disk.blocks ++ b.coreBytes) k pos len c := by
  intro x pos len hx
  rw [stored_dataOf] at hx
  split at hx
  · next he =>
      obtain ⟨i, -, hi⟩ := Option.map_eq_some_iff.mp hx
      rw [Prod.mk.injEq, Prod.mk.injEq] at hi
      rw [he, ← hi.2.1, ← hi.2.2, UInt32.toNat_ofNat_of_lt' hb.small]
      exact ⟨b, hb⟩
  · obtain ⟨c, hc⟩ := h x pos len hx
    exact ⟨c, hc.append _⟩

theorem Content.stored (h : s.Content net known) {idx : Hash256} {b : Block} {w : Bool}
    (hb : Filed net known idx b) (hlen : b.coreBytes.length < 2 ^ 32)
    (hw : w = true → b.computeWitnessRoot = b.header.witnessRoot) :
    (s.stored idx b w).Content net known := by
  obtain ⟨hfiles, hstored⟩ := files_store h.files hb hlen hw
  have hm := modify_eq s idx fun i => { i with
    dataPos := s.disk.blocks.length, dataLen := (UInt32.ofNat b.coreBytes.length).toNat
    haveData := true }
  have hsame : SameLedger s (s.stored idx b w) := by
    simp only [Chainstate.stored]
    rw [hm]
    exact ⟨rfl, rfl, rfl, rfl, rfl, rfl⟩
  have hheld : (s.stored idx b w).snapshotHash = s.snapshotHash := by
    simp only [Chainstate.stored]
    rw [hm]
  have ht := stored_sameTree s idx b w
  exact {
    rooted := h.rooted.of_sameTree ht
    named := by
      rw [ht.node]
      exact h.named
    files := hfiles
    data := stored_data h.data hstored
    held := by
      rw [hheld]
      exact h.held
    accounts := h.accounts.of_eq hsame.utxo hsame.byAddr hsame.pools hsame.supply
    branch := h.branch.congr hsame ht.chain }

theorem Content.fillWitness (h : s.Content net known) {cfg : Config} {b : Block}
    (hk : known b) (hw : b.computeWitnessRoot = b.header.witnessRoot) :
    (s.fillWitness cfg b.header.hash b).Content net known := by
  rw [Chainstate.fillWitness]
  split
  · exact h.ticked
  · refine h.congr ⟨rfl, rfl, rfl⟩ rfl rfl ?_ rfl ⟨rfl, rfl, rfl, rfl, rfl, rfl⟩
    refine { h.files with witness := fun k x hx => ?_ }
    rw [lookup_insert_ite] at hx
    split at hx
    · next he =>
        cases hx
        exact ⟨b, hk, he.symm, hw, rfl⟩
    · exact h.files.witness k x hx

theorem Content.receiveBody (hs : Sources net known) (h : s.Content net known) {cfg : Config}
    {b : Block} {w : Bool} (hk : known b) (hx : b.header.hash ∈ s.index)
    {r : Except String Bool} (hr : s.receiveBody cfg b.header.hash b w = (s', r)) :
    s'.Content net known := by
  rcases receiveBody_cases hr with ⟨rfl, -⟩ | ⟨-, -, hwants, rfl, -⟩ |
    ⟨-, hcheck, s₁, done, hstore, hcase⟩
  · exact h
  · rw [wantsWitness, Bool.and_eq_true, beq_iff_eq] at hwants
    exact h.fillWitness hk hwants.2
  · obtain ⟨-, hsize, hroot⟩ := checkBlock_ok hcheck
    rcases storeBlock_cases hstore with ⟨rfl, rfl, -⟩ | ⟨rfl, -, rfl⟩
    · rcases hcase with ⟨-, rfl, -⟩ | ⟨hf, -⟩
      · exact h.ticked
      · cases hf
    · rcases hcase with ⟨hf, -⟩ | ⟨-, rfl, -⟩
      · cases hf
      · have hmax : maxBlockSize < 2 ^ 32 := by decide
        refine (h.stored (h.filed hs hk hx hcheck) (by omega) fun hkeep => ?_).flagsOnly
          (updateChainData_flagsOnly _ _)
        rw [Bool.and_eq_true, Bool.and_eq_true] at hkeep
        exact hroot hkeep.1.1

theorem acceptHeader_mem {cfg : Config} {hd : BlockHeader} {r : HeaderResult}
    (hr : s.acceptHeader cfg hd = (s', r)) (ha : r.Accepts hd.hash) : hd.hash ∈ s'.index := by
  rcases acceptHeader_cases hr with ⟨rfl, ⟨-, hin, -⟩ | rfl | ⟨why, rfl⟩⟩ | ⟨-, -, -, -, rfl⟩
  · exact hin
  · rcases ha with ha | ha <;> cases ha
  · rcases ha with ha | ha <;> cases ha
  · refine mem_iff_exists.mpr ⟨s.ticked.newEntry hd, ?_⟩
    have := addIndex_lookup s.ticked hd hd.hash
    rw [if_pos rfl] at this
    exact this

theorem Content.receiveBlock (hs : Sources net known) (h : s.Content net known) {cfg : Config}
    {b : Block} {w : Bool} (hk : known b) {r : Except String Bool}
    (hr : s.receiveBlock cfg b w = (s', r)) : s'.Content net known := by
  obtain ⟨s₁, hres, ha, hcase⟩ := receiveBlock_cases hr
  have h₁ := h.acceptHeader ⟨b, hk, rfl⟩ ha
  rcases hcase with ⟨hacc, hbody⟩ | ⟨-, rfl, -⟩
  · exact h₁.receiveBody hs hk (acceptHeader_mem ha hacc) hbody
  · exact h₁

/-! ## Flushing -/

theorem Content.flush (h : s.Content net known) {cfg : Config} (hfit : (s.flush cfg).Fits) :
    (s.flush cfg).Content net known := by
  have hstate : IsState net known s.tip s.serializeState :=
    h.branch.isState hfit.utxo hfit.tokens hfit.pools
  refine h.congr (flush_sameTree cfg s) rfl ?_ ?_ rfl ⟨rfl, rfl, rfl, rfl, rfl, rfl⟩
  · rw [Chainstate.flush]
    split <;> rfl
  · rw [Chainstate.flush]
    split
    · exact h.files
    · refine { h.files with utxo := fun x hx => ?_ }
      cases hx
      exact ⟨s.tip, s.serializeState, hstate, rfl⟩

omit [Crypto] in
theorem Fits.congr (h : s'.Fits) (hi : s.index = s'.index) (hu : s.utxo = s'.utxo)
    (ht : s.tokens = s'.tokens) (hp : s.pools = s'.pools)
    (hb : s.disk.blocks = s'.disk.blocks) : s.Fits where
  index := hi ▸ h.index
  utxo := hu ▸ h.utxo
  tokens := ht ▸ h.tokens
  pools := hp ▸ h.pools
  blocks := hb ▸ h.blocks

theorem Fits.of_flush {cfg : Config} (h : (s.flush cfg).Fits) : s.Fits := by
  refine h.congr rfl rfl rfl rfl ?_
  rw [Chainstate.flush]
  split <;> rfl

theorem Fits.of_flushDue {cfg : Config} (h : (s.flushDue cfg).Fits) : s.Fits := by
  rw [flushDue] at h
  simp only [] at h
  split at h
  · exact h.of_flush.congr rfl rfl rfl rfl rfl
  · exact h.congr rfl rfl rfl rfl rfl

theorem Content.flushDue (h : s.Content net known) {cfg : Config}
    (hfit : (s.flushDue cfg).Fits) : (s.flushDue cfg).Content net known := by
  have hcount : ({ s with blocksSinceFlush := s.blocksSinceFlush + 1 } : Chainstate).Content
      net known :=
    h.congr ⟨rfl, rfl, rfl⟩ rfl rfl h.files rfl ⟨rfl, rfl, rfl, rfl, rfl, rfl⟩
  rw [Chainstate.flushDue] at hfit ⊢
  simp only [] at hfit ⊢
  split at hfit
  · next hdue =>
      rw [if_pos hdue]
      exact hcount.flush hfit
  · next hdue =>
      rw [if_neg hdue]
      exact hcount

/-! ## Snapshots -/

/-- A state put in place as a whole is the state of the branch of its block, once
that block is the tip. -/
theorem onBranch_of_state (hs : Sources net known) (n : Nat) (bs : List Block)
    {L : StateReader} (hr : s.Rooted (paramsFor net).genesisHash)
    (hn : Nodes.Named known s.node) (hb : Branch (paramsFor net) known n s.tip bs L)
    (hL : s.reader = L)
    (htx : ∀ t ∈ s.txindex, t ∈ (bs.flatMap Block.txs).map Transaction.txid) :
    s.OnBranch net known := by
  have hheight : s.height = n := by
    have hlen := Chainstate.height_tip hr.tree hr.chain
    rw [hr.tree.height_unique hn hs.free hr.tip_isSome (hb.placed hs)] at hlen
    exact hlen.symm
  refine ⟨bs, ?_, htx⟩
  rw [hheight, hL]
  exact hb

omit [Crypto] in
theorem snapshotHead_write {x : Snapshot} {magic : UInt32} {bh : Hash256} {rest : Bytes}
    (h : snapshotHead x.write = .ok ((magic, bh), rest)) : bh = x.block := by
  have hd : Decodes snapshotHead (Writer.u32le stateMagic ++ Writer.hash x.block)
      (stateMagic, x.block) :=
    (ByteReader.decodes_u32le _).bind ((ByteReader.decodes_hash _).bind_pure)
  have hw : x.write = (Writer.u32le stateMagic ++ Writer.hash x.block) ++
      (Writer.varint x.height ++ Writer.size x.coins.length ++ x.coins.flatMap writeStoredCoin ++
        Writer.size x.tokens.length ++ x.tokens.flatMap writeToken ++
        Writer.size x.pools.length ++ x.pools.flatMap writePool) := by
    rw [Snapshot.write]
    simp only [List.append_assoc]
  rw [hw, hd] at h
  cases h
  rfl

/-- What an adoption leaves of the node: the tree and the data it had, the state
of the snapshot, and the snapshot's block as its tip. -/
theorem adoptSnapshot_parts (hr : s.Rooted (paramsFor net).genesisHash) {bh : Hash256}
    (hb : bh ∈ s.index) : ∃ t, t = s.adoptSnapshot bh ∧ t.Rooted (paramsFor net).genesisHash ∧
      t.node = s.node ∧ t.tip = bh ∧ t.dataOf = s.dataOf ∧ t.disk = s.disk ∧
      t.snapshotHash = s.snapshotHash ∧ t.txindex = ∅ ∧ t.utxo = s.utxo ∧
      t.byAddr = s.byAddr ∧ t.tokens = s.tokens ∧ t.pools = s.pools ∧ t.supply = s.supply := by
  obtain ⟨hrooted, hnode, htip⟩ := hr.adoptSnapshot hb
  obtain ⟨s₁, s₂, h₁, h₂, hf⟩ := adoptSnapshot_flags s bh
  have hdata₁ : s₁.dataOf = s.dataOf :=
    h₁ ▸ dataOf_modify s bh (f := fun i => { i with fromSnapshot := true }) fun _ => rfl
  have hdata : s₂.dataOf = s.dataOf := (dataOf_congr (by rw [h₂])).trans hdata₁
  have hs₁ := modify_eq s bh fun i => { i with fromSnapshot := true }
  have hrest := hf.rest
  refine ⟨_, rfl, hrooted, hnode, htip, hf.dataOf.trans hdata, ?_⟩
  rw [hrest, h₂, h₁, hs₁]
  exact ⟨rfl, rfl, rfl, rfl, rfl, rfl, rfl, rfl⟩

/-- The files with one more snapshot. -/
theorem files_hold {disk : Disk} (h : disk.Files net known) {bh : Hash256} {x : Bytes}
    (hx : IsState net known bh x) :
    Disk.Files net known { disk with
      snapshots := disk.snapshots.insert bh x, baseDat := some bh.bytes } :=
  { h with
    snapshots := fun k y hy => by
      rw [lookup_insert_ite] at hy
      split at hy
      · next hk =>
          cases hy
          rw [hk]
          exact hx
      · exact h.snapshots k y hy }

/-- The snapshot `x` does no harm here: if it is taken over it is the state of a
branch, and if it could be, its two writes succeed. -/
structure TakesState (net : Network) (known : Block → Prop) (cfg : Config) (s : Chainstate)
    (x : Bytes) : Prop where
  state : (s.receiveSnapshot cfg x).2 = .ok true → ∃ h, IsState net known h x
  written : ∀ bh snap, s.Adopts cfg x bh snap →
    cfg.env.fault s.tick .writeSnapshot = false ∧ cfg.env.fault s.tick .writeBase = false

/-- The contents of a snapshot that is a state. -/
theorem isState_read {h : Hash256} {x : Bytes} {snap : Snapshot} (hx : IsState net known h x)
    (hr : Snapshot.read x = .ok (snap, [])) : x = snap.write ∧
      ∃ n bs L, Branch (paramsFor net) known n h bs L ∧ snap.Of h n L := by
  obtain ⟨n, bs, L, y, hb, hy, rfl⟩ := hx
  rw [(decodes_snapshot hy.limits).run] at hr
  cases hr
  exact ⟨rfl, n, bs, L, hb, hy⟩

theorem Content.adopt (hs : Sources net known) (h : s.Content net known) {cfg : Config}
    {x : Bytes} {bh : Hash256} {snap : Snapshot} (had : s.Adopts cfg x bh snap)
    (hx : ∃ k, IsState net known k x) {held : Chainstate}
    (hheld : held = (s.ticked.loadSnapshot snap).holdSnapshot bh x) :
    (adoptSnapshot { held with disk := { held.disk with baseDat := some bh.bytes } } bh).Content
      net known := by
  obtain ⟨k, hk⟩ := hx
  obtain ⟨rfl, n, bs, L, hbranch, hof⟩ := isState_read hk had.read
  obtain ⟨rest, hhead⟩ := had.head
  obtain rfl : bh = k := (snapshotHead_write hhead).trans hof.block
  have hload := loadSnapshot_ledgerOnly s.ticked snap
  generalize hbase : ({ held with disk := { held.disk with baseDat := some bh.bytes } } :
    Chainstate) = base
  have htree : SameTree s base := by
    rw [← hbase, hheld]
    exact ⟨hload.sameTree.node, hload.sameTree.nextSeq, hload.sameTree.chain⟩
  have hin : bh ∈ base.index := by
    rw [← node_isSome, htree.node, node_isSome]
    exact had.known
  obtain ⟨t, ht, hrooted, hnode, htip, hdata, hdisk, hheld', htx, hutxo, hbyAddr, htokens,
    hpools, hsupply⟩ := adoptSnapshot_parts (h.rooted.of_sameTree htree) hin
  rw [← ht]
  have hdisk : t.disk = { s.disk with
      snapshots := s.disk.snapshots.insert bh snap.write, baseDat := some bh.bytes } := by
    rw [hdisk, ← hbase, hheld]
    show { (s.ticked.loadSnapshot snap).disk with
      snapshots := (s.ticked.loadSnapshot snap).disk.snapshots.insert bh snap.write
      baseDat := some bh.bytes } = _
    rw [hload]
    rfl
  have hreader : t.reader = (s.ticked.loadSnapshot snap).reader := by
    rw [Chainstate.reader, Chainstate.reader, hutxo, htokens, hpools, ← hbase, hheld]
    rfl
  have hnamed : Nodes.Named known t.node := by
    rw [hnode, htree.node]
    exact h.named
  exact {
    rooted := hrooted
    named := hnamed
    files := by
      rw [hdisk]
      exact files_hold h.files hk
    data := by
      have hbd : base.dataOf = s.dataOf := by
        refine dataOf_congr ?_
        rw [← hbase, hheld]
        show (s.ticked.loadSnapshot snap).index = s.index
        rw [hload]
        rfl
      rw [hdata, hbd, hdisk]
      exact h.data
    held := fun j y hy => by
      have hb : base.snapshotHash = s.snapshotHash.insert bh (stateHash snap.write) := by
        rw [← hbase, hheld]
        show (s.ticked.loadSnapshot snap).snapshotHash.insert bh _ = _
        rw [hload]
        rfl
      rw [hheld', hb, lookup_insert_ite] at hy
      split at hy
      · next hj =>
          cases hy
          rw [hj]
          exact ⟨snap.write, hk, rfl⟩
      · exact h.held j y hy
    accounts := by
      have ha := loadSnapshot_accounts s.ticked hof.coinNodup hof.poolNodup
      refine ha.of_eq ?_ ?_ ?_ ?_
      · rw [hutxo, ← hbase, hheld]
        rfl
      · rw [hbyAddr, ← hbase, hheld]
        rfl
      · rw [hpools, ← hbase, hheld]
        rfl
      · rw [hsupply, ← hbase, hheld]
        rfl
    branch := by
      refine onBranch_of_state hs n bs hrooted hnamed ?_ rfl ?_
      · rw [htip, hreader, loadSnapshot_reader s.ticked hbranch.keyed hof]
        exact hbranch
      · rw [htx]
        exact fun _ h => absurd h (AList.notMem_empty _) }

theorem Content.receiveSnapshot (hs : Sources net known) (h : s.Content net known)
    {cfg : Config} {x : Bytes} (hx : TakesState net known cfg s x) {r : Except String Bool}
    (hr : s.receiveSnapshot cfg x = (s', r)) (hfit : s'.Fits) : s'.Content net known := by
  rcases receiveSnapshot_cases hr with ⟨-, rfl | ⟨hfresh, rfl⟩⟩ | ⟨bh, snap, had, hcase⟩
  · exact h.ticked
  · -- On a fresh node the maps are empty already.
    obtain ⟨bs, hb, htx⟩ := h.branch
    have hempty : s.reader = .empty := by
      rw [hfresh] at hb
      exact hb.zero.2.2
    have hclear : Branch (paramsFor net) known s.height s.tip bs s.ticked.clearState.reader := by
      rw [show s.ticked.clearState.reader = .empty from rfl, ← hempty]
      exact hb
    exact {
      rooted := h.rooted.of_sameTree (t := s.ticked.clearState) ⟨rfl, rfl, rfl⟩
      named := h.named
      files := h.files
      data := h.data
      held := h.held
      accounts := accounts_clear _
      branch := ⟨bs, hclear, htx⟩ }
  · obtain ⟨hsnap, hbase⟩ := hx.written bh snap had
    rcases hcase with ⟨-, hf, -⟩ | ⟨-, hf, -⟩ | ⟨hok, held, hheld, rfl⟩
    · rw [hsnap] at hf
      cases hf
    · rw [hbase] at hf
      cases hf
    · have hstate := hx.state (by rw [hr]; exact hok)
      exact (h.adopt hs had hstate hheld).flush hfit

end Chainstate

end QuantCore
