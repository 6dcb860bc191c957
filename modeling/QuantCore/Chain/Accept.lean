import QuantCore.Chain.Activate

/-!
# What the outside world can do to a node

Headers, blocks and snapshots come in from peers and from the miner, the node
flushes and it is started. A block goes through `check_block` (the checks of
`accept_block` between the header and the disk), is stored, and then
`activate_best_chain` decides what to make of it. The entry points that end in
that call are split in front of it.
-/

namespace QuantCore

open Codec Maps

variable [Crypto]

namespace Chainstate

/-! ## Headers -/

inductive HeaderResult
  | ok (h : Hash256)
  | known (h : Hash256)
  | orphan
  | invalid (why : String)
deriving DecidableEq, Repr

/-- The rules a header has to meet on its parent `prev`. -/
def checkHeader (cfg : Config) (s : Chainstate) (h : BlockHeader) (prev : Hash256) :
    Except String Unit :=
  if (s.entry prev).failed then .error "prev-invalid"
  else if h.version ≠ 2 then .error "bad-version"
  else if cfg.params.isCommitHeight ((s.entry prev).height + 1) = h.stateCommit.isZero then
    .error "bad-state-commit-presence"
  else if !checkPow h.hash h.bits cfg.params then .error "high-hash"
  else if h.bits ≠ s.nextBitsFor cfg.params prev then .error "bad-difficulty-bits"
  else if int64 h.time ≤ s.medianTimePast prev then .error "time-too-old"
  else if int64 h.time > cfg.env.clock s.tick + maxFutureDrift then .error "time-too-new"
  else
    match s.forkPoint prev with
    | some a =>
        if (s.entry s.tip).height - (s.entry a).height > maxReorgDepth then
          .error "fork-too-deep"
        else .ok ()
    | none => .ok ()

def acceptHeader (cfg : Config) (s : Chainstate) (h : BlockHeader) :
    Chainstate × HeaderResult :=
  let step := { s with tick := s.tick + 1 }
  match s.lookup h.hash with
  | some b => (step, if b.failed then .invalid "known-invalid" else .known h.hash)
  | none =>
      match s.lookup h.prev with
      | none => (step, .orphan)
      | some _ =>
          match s.checkHeader cfg h h.prev with
          | .error why => (step, .invalid why)
          | .ok () =>
              let s := step.addIndex h
              ({ s with disk := { s.disk with headers := s.disk.headers ++ h.write } },
                .ok h.hash)

/-! ## Blocks -/

/-- The loop over the transactions: context-free checks and distinct ids. -/
def checkBlockTxs (hasWitness : Bool) : List Transaction → List Hash256 → Except String Unit
  | [], _ => .ok ()
  | t :: rest, ids =>
      match checkTxBasic t hasWitness with
      | .error r => .error ("tx " ++ t.txid.shortHex ++ ": " ++ r)
      | .ok _ =>
          if t.txid ∈ ids then .error "duplicate-tx"
          else checkBlockTxs hasWitness rest (t.txid :: ids)

/-- The checks of `accept_block` on a block whose header is `idx`. -/
def checkBlock (s : Chainstate) (idx : Hash256) (b : Block) (hasWitness : Bool) :
    Except String Unit :=
  if !(b.txs.headD { ins := [default] }).isCoinbase then .error "no-coinbase"
  else if b.txs.tail.any Transaction.isCoinbase then .error "extra-coinbase"
  else if b.computeMerkleRoot ≠ b.header.merkleRoot then .error "bad-merkle-root"
  else if hasWitness ∧ b.computeWitnessRoot ≠ b.header.witnessRoot then
    .error "bad-witness-root"
  else if hasWitness ∧ b.fullSize > maxBlockSize then .error "block-too-big"
  else if !hasWitness ∧ b.coreBytes.length > maxBlockSize then .error "block-too-big"
  else if !hasWitness ∧
      (s.bestHeader.isNone ∨ (s.entry idx).height + pruneDepth > s.bestHeaderHeight) then
    .error "witness-required"
  else if (b.txs.headD default).lockHeight ≠ UInt64.ofNat (s.entry idx).height then
    .error "bad-coinbase-height"
  else checkBlockTxs hasWitness b.txs []

/-- A witness that arrives after its block. -/
def fillWitness (cfg : Config) (s : Chainstate) (idx : Hash256) (b : Block) : Chainstate :=
  let disk := if cfg.env.fault s.tick .writeWitness then s.disk
    else { s.disk with witness := s.disk.witness.insert idx b.witnessBytes }
  { s with disk, tick := s.tick + 1 }

/-- Can the witness of a stored block still be used? -/
def wantsWitness (s : Chainstate) (idx : Hash256) (b : Block) : Bool :=
  !s.haveWitness idx && !s.inActiveChain idx &&
    b.computeWitnessRoot == b.header.witnessRoot

/-- `accept_block` once the header `idx` of the block is in the tree, up to the
call of `activate_best_chain`: whether that call follows, or the reason the
block was refused. -/
def receiveBody (cfg : Config) (s : Chainstate) (idx : Hash256) (b : Block)
    (hasWitness : Bool) : Chainstate × Except String Bool :=
  if (s.entry idx).haveData then
    if hasWitness ∧ s.wantsWitness idx b then (s.fillWitness cfg idx b, .ok true)
    else (s, .ok false)
  else
    match s.checkBlock idx b hasWitness with
    | .error why => (s, .error why)
    | .ok () =>
        match s.storeBlock cfg idx b hasWitness with
        | (s, false) => (s, .error "disk-write-failed")
        | (s, true) => (s.updateChainData idx, .ok true)

/-- `accept_block` up to its call of `activate_best_chain`. -/
def receiveBlock (cfg : Config) (s : Chainstate) (b : Block) (hasWitness : Bool) :
    Chainstate × Except String Bool :=
  match s.acceptHeader cfg b.header with
  | (s, .invalid why) => (s, .error why)
  | (s, .orphan) => (s, .error "orphan")
  | (s, .ok idx) => s.receiveBody cfg idx b hasWitness
  | (s, .known idx) => s.receiveBody cfg idx b hasWitness

/-- Run `activate_best_chain` where the code before it got that far. -/
def thenActivate (cfg : Config) : Chainstate × Except String Bool → Chainstate × Except String Unit
  | (s, .ok true) => (s.activateBestChain cfg, .ok ())
  | (s, .ok false) => (s, .ok ())
  | (s, .error why) => (s, .error why)

def acceptBlock (cfg : Config) (s : Chainstate) (b : Block) (hasWitness : Bool) :
    Chainstate × Except String Unit :=
  thenActivate cfg (s.receiveBlock cfg b hasWitness)

/-! ## Snapshots from peers -/

/-- `committed_hash_for`. -/
def committedHashFor (cfg : Config) (s : Chainstate) (block : Hash256) : Option Hash256 :=
  let ch := (s.entry block).height + cfg.params.snapshotDelay
  match s.bestHeader with
  | none => none
  | some best =>
      if !cfg.params.isCommitHeight ch ∨ (s.entry best).height < ch then none
      else
        match s.ancestor best ch with
        | none => none
        | some c =>
            if s.ancestor c (s.entry block).height ≠ some block then none
            else some (s.entry c).header.stateCommit

/-- The magic and block hash at the head of a snapshot. -/
def snapshotHead : ByteReader (UInt32 × Hash256) := do
  let m ← ByteReader.u32le
  let h ← ByteReader.hash
  pure (m, h)

omit [Crypto] in
/-- Build the active chain on the bootstrapped state. -/
def adoptSnapshot (s : Chainstate) (bh : Hash256) : Chainstate :=
  let s := s.modify bh fun i => { i with fromSnapshot := true }
  let s := { s with
    snapshotBase := (s.entry bh).height
    chain := s.chainTo (s.entry bh).height bh []
    txindex := ∅ }
  let s := s.modify bh fun i => { i with chainData := true }
  let s := s.addCandidate bh
  (s.entry bh).children.foldl updateChainData s

/-- Keep a snapshot's file and hash. -/
def holdSnapshot (s : Chainstate) (bh : Hash256) (snap : Bytes) : Chainstate :=
  { s with
    disk := { s.disk with snapshots := s.disk.snapshots.insert bh snap }
    snapshotHash := s.snapshotHash.insert bh (stateHash snap) }

/-- `load_snapshot_bytes` up to its call of `activate_best_chain`. -/
def receiveSnapshot (cfg : Config) (s : Chainstate) (snap : Bytes) :
    Chainstate × Except String Bool :=
  let step := { s with tick := s.tick + 1 }
  if s.height > 0 then (step, .error "node-not-fresh")
  else if snap.length < 4 + 32 + 1 then (step, .error "short")
  else
    match snapshotHead snap with
    | .error e => (step, .error e)
    | .ok ((magic, bh), _) =>
        if magic ≠ stateMagic then (step, .error "bad-magic")
        else if bh ∉ s.index then (step, .error "unknown-block")
        else
          match s.committedHashFor cfg bh with
          | none => (step, .error "no-commitment-in-best-chain")
          | some c =>
              if c ≠ stateHash snap then (step, .error "hash-mismatch")
              else
                match step.parseState snap with
                | (s', none) => (s', .error "parse-failed")
                | (s', some (_, h)) =>
                    if int64 h ≠ ((s.entry bh).height : Int) then
                      (s'.clearState, .error "parse-failed")
                    else if cfg.env.fault s.tick .writeSnapshot then
                      (s', .error "disk-write-failed")
                    else
                      let s' := s'.holdSnapshot bh snap
                      if cfg.env.fault s.tick .writeBase then (s', .error "disk-write-failed")
                      else
                        let s' := { s' with disk := { s'.disk with baseDat := some bh.bytes } }
                        ((s'.adoptSnapshot bh).flush cfg, .ok true)

def loadSnapshotBytes (cfg : Config) (s : Chainstate) (snap : Bytes) :
    Chainstate × Except String Unit :=
  thenActivate cfg (s.receiveSnapshot cfg snap)

/-! ## Start-up -/

omit [Crypto] in
/-- The whole records of a file, `n` bytes each. -/
def records (n : Nat) (b : Bytes) : List Bytes :=
  (List.range (b.length / n)).map fun i => (b.drop (i * n)).take n

/-- One header of `headers.dat`; orphans and repeats are skipped. -/
def indexHeader (s : Chainstate) (h : BlockHeader) : Chainstate :=
  if s.index.keys.isEmpty ∨ h.prev ∈ s.index then
    if h.hash ∈ s.index then s else s.addIndex h
  else s

omit [Crypto] in
/-- One record of `blockpos.dat`. -/
def readPosition : ByteReader (Hash256 × UInt64 × UInt32) := do
  let h ← ByteReader.hash
  let pos ← ByteReader.u64le
  let len ← ByteReader.u32le
  pure (h, pos, len)

omit [Crypto] in
/-- The sum of position and length is that of the source, 64 bits wide. -/
def indexPosition (s : Chainstate) (r : Bytes) : Chainstate :=
  match readPosition r with
  | .error _ => s
  | .ok ((h, pos, len), _) =>
      if (pos + len.toUInt64).toNat > s.disk.blocks.length then s
      else s.modify h fun b =>
        { b with haveData := true, dataPos := pos.toNat, dataLen := len.toNat }

omit [Crypto] in
/-- `from_snapshot || (have_data && (!prev || prev->chain_data))`. -/
def dataReady (s : Chainstate) (h : Hash256) : Bool :=
  (s.entry h).fromSnapshot || ((s.entry h).haveData && s.parentReady h)

omit [Crypto] in
def flagChainData (s : Chainstate) (h : Hash256) : Chainstate :=
  let s' := s.modify h fun b => { b with chainData := s.dataReady h }
  if s.dataReady h then s'.addCandidate h else s'

omit [Crypto] in
/-- Blocks in height order, each looking at its parent's flag. -/
def indexChainData (s : Chainstate) : Chainstate :=
  let all := s.index.keys.insertionSort fun a b => (s.entry a).height ≤ (s.entry b).height
  all.foldl flagChainData s

/-- `scan_snapshots`. -/
def scanSnapshots (cfg : Config) (s : Chainstate) : Chainstate :=
  let readable := (pairs s.disk.snapshots).filter fun e =>
    !cfg.env.fault s.tick (.readSnapshot e.1)
  let found := readable.map fun e => (e.1, stateHash e.2)
  { s with snapshotHash := insertAll s.snapshotHash found }

/-- The checksummed contents of `utxo.dat`. -/
def checkedUtxo (cfg : Config) (s : Chainstate) : Option Bytes :=
  if cfg.env.fault s.tick .readUtxo then none
  else
    match s.disk.utxoDat with
    | none => none
    | some sb => if sb.length < 40 then none else some sb

/-- The state in `utxo.dat`, if its checksum is right. -/
def parseUtxo (s : Chainstate) (sb : Bytes) : Chainstate × Option (Hash256 × UInt64) :=
  let body := sb.take (sb.length - 32)
  if (blake3 body).bytes = sb.drop (sb.length - 32) then s.parseState body else (s, none)

omit [Crypto] in
/-- A node rebuilds a state it cannot use from its blocks, unless it has none
below a snapshot. -/
def rebuild (s : Chainstate) : Except String Chainstate :=
  if s.snapshotBase ≠ 0 then
    .error "utxo.dat unusable on a snapshot-bootstrapped node; delete the data directory to resync"
  else .ok s.clearState

/-- `load_tip_state`: the state of the snapshot, or that of genesis. -/
def loadTipState (cfg : Config) (s : Chainstate) : Except String Chainstate :=
  let s := { s with chain := [cfg.params.genesisHash] }
  match s.checkedUtxo cfg with
  | none =>
      if s.snapshotBase ≠ 0 then
        .error "utxo.dat missing on a snapshot-bootstrapped node; delete the data directory to resync"
      else .ok s
  | some sb =>
      match s.parseUtxo sb with
      | (s, some (t, th)) =>
          if t ∈ s.index ∧ (s.entry t).chainData ∧ ((s.entry t).height : Int) = int64 th then
            .ok { s with chain := s.chainTo (s.entry t).height t [] }
          else s.rebuild
      | (s, none) => s.rebuild

def indexTxsOf (cfg : Config) (s : Chainstate) (h : Hash256) : Chainstate :=
  match s.readBlock cfg h false with
  | some (b, _) => s.indexBlockTxs b h
  | none => s

/-- The transaction index: every block of the active chain that can be read. -/
def indexChainTxs (cfg : Config) (s : Chainstate) : Chainstate :=
  s.chain.foldl (indexTxsOf cfg) s

omit [Crypto] in
/-- The whole records of `headers.dat`. -/
def headersOnDisk (disk : Disk) : List BlockHeader :=
  (records BlockHeader.size disk.headers).filterMap fun r =>
    (BlockHeader.read r).toOption.map Prod.fst

omit [Crypto] in
/-- `headers.dat` without a partial record at its end. -/
def truncateHeaders (disk : Disk) : Disk :=
  let nh := disk.headers.length / BlockHeader.size
  { disk with headers := disk.headers.take (nh * BlockHeader.size) }

/-- An index without any header begins with genesis. -/
def indexGenesis (cfg : Config) (s : Chainstate) : Chainstate :=
  if s.index.keys.isEmpty then
    let s := s.addIndex cfg.params.genesis.header
    { s with disk := { s.disk with
        headers := s.disk.headers ++ cfg.params.genesis.header.write } }
  else s

/-- The block tree as the files describe it, genesis first. -/
def loadIndex (cfg : Config) (disk : Disk) (tick : Nat) : Except String Chainstate :=
  let hs := headersOnDisk disk
  if !hs.isEmpty ∧ (hs.headD default).hash ≠ cfg.params.genesisHash then
    .error "headers.dat belongs to a different network/genesis"
  else
    let s : Chainstate := { disk := truncateHeaders disk, tick }
    let s := (hs.foldl indexHeader s).indexGenesis cfg
    let s := (records 44 s.disk.blockpos).foldl indexPosition s
    .ok (if (s.entry cfg.params.genesisHash).haveData then s
      else (s.storeBlock cfg cfg.params.genesisHash cfg.params.genesis true).1)

omit [Crypto] in
/-- The snapshot a node was bootstrapped from, if any. -/
def loadBase (cfg : Config) (s : Chainstate) : Chainstate :=
  if cfg.env.fault s.tick .readBase then s
  else
    match s.disk.baseDat with
    | none => s
    | some base =>
        let bh := Hash256.ofBytes base
        if base.length = 32 ∧ bh ∈ s.index then
          let s := s.modify bh fun b => { b with fromSnapshot := true }
          { s with snapshotBase := (s.entry bh).height }
        else s

/-- `load` up to its call of `activate_best_chain`. -/
def loadReady (cfg : Config) (disk : Disk) (tick : Nat) : Except String Chainstate :=
  match loadIndex cfg disk tick with
  | .error e => .error e
  | .ok s =>
      match ((s.loadBase cfg).indexChainData.scanSnapshots cfg).loadTipState cfg with
      | .error e => .error e
      | .ok s =>
          let s := s.indexChainTxs cfg
          .ok { s with tick := s.tick + 1 }

/-- Start the node on what is on disk. -/
def load (cfg : Config) (disk : Disk) (tick : Nat) : Except String Chainstate :=
  (loadReady cfg disk tick).map (activateBestChain cfg)

end Chainstate

end QuantCore
