import QuantCore.Chain.Storage

/-!
# Connecting and disconnecting a block

`connect_block` reads a block, applies its transactions to an overlay, writes
the undo record and only then replays the overlay onto the maps; `disconnect_tip`
reads both back. Either gives the new state or the reason it refused; a refusal
changes nothing but the step counter.
-/

namespace QuantCore

open Maps

variable [Crypto]

/-- The transactions after the coinbase, with the fees so far. -/
def applyTxs (height : UInt64) (genesis : Hash256) (verify : Bool) :
    LedgerView → List Transaction → Amount → Except String (LedgerView × Amount)
  | v, [], fees => .ok (v, fees)
  | v, tx :: rest, fees =>
      match v.apply tx height genesis verify with
      | (_, .error r) => .error ("tx " ++ tx.txid.shortHex ++ ": " ++ r)
      | (v', .ok fee) => applyTxs height genesis verify v' rest (fees + fee)

/-- A whole block, on an overlay over `base`. -/
def blockView (base : StateReader) (b : Block) (height : UInt64) (genesis : Hash256)
    (verify : Bool) : Except String (LedgerView × Amount) :=
  applyTxs height genesis verify
    (LedgerView.applyCoinbase { base := base } (b.txs.headD default) height) b.txs.tail 0

omit [Crypto] in
/-- What `connect_block` records of a view. -/
def LedgerView.undo (v : LedgerView) : Undo :=
  ⟨pairs v.spentBase, pairs v.poolsBefore, v.tokens.keys⟩

namespace Chainstate

omit [Crypto] in
/-- Replay a view onto the maps. -/
def commitView (s : Chainstate) (v : LedgerView) : Chainstate :=
  let s := v.spentBase.keys.foldl spendCoin s
  let s := (pairs v.created).foldl (fun s e => s.addCoin e.1 e.2) s
  let s := (pairs v.tokens).foldl (fun s e => s.addToken e.1 e.2) s
  (pairs v.pools).foldl (fun s e => s.setPool e.1 (some e.2)) s

/-- The header commits to the snapshot taken `snapshotDelay` blocks ago, if
that snapshot is held. -/
def commitmentOk (cfg : Config) (s : Chainstate) (idx : Hash256) : Bool :=
  if cfg.params.isCommitHeight (s.entry idx).height then
    match s.ancestor idx ((s.entry idx).height - cfg.params.snapshotDelay) with
    | none => true
    | some base =>
        match s.snapshotHash.lookup base with
        | none => true
        | some h => h == (s.entry idx).header.stateCommit
  else true

omit [Crypto] in
/-- The height a snapshot is ranked by: -1 off the active chain. -/
def snapshotRank (s : Chainstate) (h : Hash256) : Int :=
  if h ∈ s.index ∧ s.inActiveChain h then (s.entry h).height else -1

omit [Crypto] in
/-- Snapshots from the fourth newest on go, except the one bootstrapped from. -/
def dropOldSnapshots (s : Chainstate) : Chainstate :=
  let held := s.snapshotHash.keys.insertionSort fun a b =>
    s.snapshotRank b < s.snapshotRank a ∨
      (s.snapshotRank a = s.snapshotRank b ∧ b.toNat ≤ a.toNat)
  (held.drop 3).foldl (fun s h =>
    if h ∈ s.index ∧ (s.entry h).fromSnapshot then s
    else
      { s with
        snapshotHash := s.snapshotHash.erase h
        disk := { s.disk with snapshots := s.disk.snapshots.erase h } }) s

/-- `write_commit_snapshot`. -/
def writeCommitSnapshot (cfg : Config) (s : Chainstate) (idx : Hash256) : Chainstate :=
  let snap := s.serializeState
  if cfg.env.fault s.tick .writeSnapshot then s
  else
    dropOldSnapshots { s with
      disk := { s.disk with snapshots := s.disk.snapshots.insert idx snap }
      snapshotHash := s.snapshotHash.insert idx (stateHash snap) }

omit [Crypto] in
def pruneAt (s : Chainstate) (h : Nat) : Chainstate :=
  match s.atHeight h with
  | none => s
  | some b =>
      if h = 0 then s
      else
        { s with disk := { s.disk with
            witness := s.disk.witness.erase b
            undo := s.disk.undo.erase b } }

omit [Crypto] in
/-- `best_header_ && idx->height + PRUNE_DEPTH <= best_header_->height`. -/
def deep (s : Chainstate) (idx : Hash256) : Bool :=
  s.bestHeader.isSome && (s.entry idx).height + pruneDepth ≤ s.bestHeaderHeight

/-- Everything `connect_block` checks: the block and the view it ends in. -/
def checkConnect (cfg : Config) (s : Chainstate) (idx : Hash256) :
    Except String (Block × LedgerView) :=
  let height := UInt64.ofNat (s.entry idx).height
  match s.readBlock cfg idx true with
  | none => .error "read-failed"
  | some (b, gotWitness) =>
      if !gotWitness ∧ !s.deep idx ∧ (s.entry idx).height > 0 then .error "missing-witness"
      else if !s.commitmentOk cfg idx then .error "bad-state-commit"
      else
        match blockView s.reader b height cfg.params.genesisHash
            (gotWitness && (s.entry idx).height > 0) with
        | .error e => .error e
        | .ok (view, fees) =>
            if (s.entry idx).height > 0 ∧
                (b.txs.headD default).totalQntOut > blockSubsidy height + fees then
              .error "coinbase-pays-too-much"
            else if (s.entry idx).height > 0 ∧ cfg.env.fault s.tick .writeUndo then
              .error "undo-write-failed"
            else .ok (b, view)

omit [Crypto] in
/-- The file `write_undo` leaves; genesis has none. -/
def recordUndo (s : Chainstate) (idx : Hash256) (height : Nat) (u : Undo) : Chainstate :=
  if height > 0 then { s with disk := { s.disk with undo := s.disk.undo.insert idx u.write } }
  else s

def snapshotDue (cfg : Config) (s : Chainstate) (idx : Hash256) (height : Nat) : Chainstate :=
  if height > 0 ∧ height % cfg.params.snapshotInterval = 0 then s.writeCommitSnapshot cfg idx
  else s

omit [Crypto] in
def pruneDue (cfg : Config) (s : Chainstate) (height : Nat) : Chainstate :=
  if cfg.prune then s.pruneAt (height - pruneDepth) else s

omit [Crypto] in
def ticked (s : Chainstate) : Chainstate := { s with tick := s.tick + 1 }

/-- The maps, the chain and its index once a block is connected. -/
def connected (s : Chainstate) (idx : Hash256) (b : Block) (view : LedgerView) : Chainstate :=
  let s := s.commitView view
  { s with chain := s.chain ++ [idx] }.indexBlockTxs b idx

/-- What `connect_block` does once nothing can fail any more. The undo record
is written before the maps change; nothing in between reads it. -/
def commitBlock (cfg : Config) (s : Chainstate) (idx : Hash256) (b : Block)
    (view : LedgerView) : Chainstate :=
  let height := (s.entry idx).height
  let s := (s.connected idx b view).recordUndo idx height view.undo
  (pruneDue cfg (snapshotDue cfg s idx height) height).ticked

def connectBlock (cfg : Config) (s : Chainstate) (idx : Hash256) :
    Chainstate × Except String Unit :=
  match s.checkConnect cfg idx with
  | .error e => (s.ticked, .error e)
  | .ok (b, view) => (s.commitBlock cfg idx b view, .ok ())

/-! ## Disconnecting -/

omit [Crypto] in
/-- `read_undo`. -/
def readUndo (cfg : Config) (s : Chainstate) (h : Hash256) : Option Undo :=
  if cfg.env.fault s.tick (.readUndo h) then none
  else
    match s.disk.undo.lookup h with
    | none => none
    | some buf =>
        match Undo.read buf with
        | .error _ => none
        | .ok (u, _) => some u

/-- The outpoints of every output of a block, in order. -/
def blockOutPoints (b : Block) : List OutPoint :=
  b.txs.flatMap fun tx =>
    (List.range tx.outs.length).map fun n => ⟨tx.txid, UInt32.ofNat n⟩

/-- Take a block's effects back out of the maps. -/
def revertBlock (s : Chainstate) (b : Block) (u : Undo) : Chainstate :=
  let s := (blockOutPoints b).foldl spendCoin s
  let s := u.spent.foldl (fun s e => s.addCoin e.1 e.2) s
  let s := u.poolsBefore.foldl (fun s e => s.setPool e.1 e.2) s
  let s := { s with tokens := u.tokensCreated.foldl (fun m id => m.erase id) s.tokens }
  let s := s.unindexBlockTxs b
  { s with chain := s.chain.dropLast }

def disconnectTip (cfg : Config) (s : Chainstate) : Chainstate × Except String Unit :=
  let t := s.tip
  if (s.entry t).height = 0 ∨ (s.entry t).fromSnapshot then
    (s.ticked, .error "cannot-disconnect-base")
  else
    match s.readBlock cfg t false, s.readUndo cfg t with
    | some (b, _), some u => ((s.revertBlock b u).ticked, .ok ())
    | _, _ => (s.ticked, .error "missing-undo-data")

end Chainstate

end QuantCore
