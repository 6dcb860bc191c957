import QuantCore.Lib.Each
import QuantCore.Net.Engine

/-!
# Handling messages

`handle` and what it calls: a handler of its own for each command, and the
download of blocks, which asks the least busy of the peers that can have one. A
handler gets the peer as it was when the message came; what it can change of it
meanwhile is looked up again. An exception is the text of an error, with the
state at the time it is thrown.
-/

namespace QuantCore

open Codec Maps

namespace P2P

/-- What a handler leaves, and the exception it ends with, if it does. -/
abbrev Handled := P2P × Except String Unit

/-- A list of at most `max` items, each acted on before the next is read. -/
def eachItem {α σ : Type} (max : Nat) (r : ByteReader α) (act : σ → α → σ) (s : σ)
    (payload : Bytes) : σ × Except String Unit :=
  match ByteReader.varintMax (UInt64.ofNat max) payload with
  | .error e => (s, .error e)
  | .ok (n, bs) =>
      match readEach r act n.toNat s bs with
      | (s, .ok _) => (s, .ok ())
      | (s, .error e) => (s, .error e)

def markKnown (s : P2P) (id : UInt64) (h : Hash256) : P2P :=
  s.modifyPeer id fun p => p.markKnown h

variable [Crypto] (net : P2PConfig)

/-! ## Block download -/

/-- `MAX_INFLIGHT_PER_PEER`. -/
def maxInflightPerPeer : Nat := 16

/-- `DOWNLOAD_WINDOW`. -/
def downloadWindow : Nat := 1024

/-- The blocks in flight that a peer was asked for. -/
def loadOf (inflight : UMap Hash256 (UInt64 × Int)) (id : UInt64) : Nat :=
  (pairs inflight).countP fun e => e.2.1 == id

/-- The variables of the loop in `request_blocks`. -/
structure Batch where
  inflight : UMap Hash256 (UInt64 × Int)
  load : UInt64 → Nat
  batches : UMap UInt64 (List Hash256) := ∅

/-- Can the peer be asked for a block of this height? -/
def canServe (q : Peer) (h : Nat) : Bool := q.active && q.full && !(q.bestHeight < (h : Int))

/-- A round of the loop over the peers. -/
def pickStep (noWitness : Finset (Hash256 × UInt64)) (load : UInt64 → Nat) (b : Hash256)
    (h : Nat) (pick : Option Peer) (q : Peer) : Option Peer :=
  if !canServe q h then pick
  else if load q.id ≥ maxInflightPerPeer ∨ (b, q.id) ∈ noWitness then pick
  else
    match pick with
    | none => some q
    | some p => if load q.id < load p.id then some q else some p

/-- The peer to ask for a block. -/
def pick (s : P2P) (load : UInt64 → Nat) (b : Hash256) (h : Nat) : Option Peer :=
  s.peers.foldl (pickStep s.noWitness load b h) none

/-- A block goes to a peer. -/
def Batch.ask (x : Batch) (b : Hash256) (id : UInt64) (now : Int) : Batch where
  inflight := x.inflight.insert b (id, now)
  load := Function.update x.load id (x.load id + 1)
  batches := x.batches.insert id ((x.batches.lookup id).getD [] ++ [b])

/-- A round of the loop over the heights. -/
def requestStep (s : P2P) (best : Hash256) (now : Int) (x : Batch) (h : Nat) : Batch :=
  match s.node.cs.ancestor best h with
  | none => x
  | some b =>
      if (s.node.cs.entry b).haveData ∨ b ∈ x.inflight then x
      else
        match s.pick x.load b h with
        | none => x
        | some q => x.ask b q.id now

/-- The blocks to ask for between the fork and the end of the window. -/
def batchFrom (s : P2P) (best fork : Hash256) (now : Int) : Batch :=
  let lo := (s.node.cs.entry fork).height
  let hi := min (s.node.cs.entry best).height (lo + downloadWindow)
  (List.range' (lo + 1) (hi - lo)).foldl (s.requestStep best now)
    { inflight := s.inflight, load := loadOf s.inflight }

/-- What there is to ask for, if anything. -/
def nextBatch (s : P2P) (now : Int) : Option Batch :=
  match s.node.cs.bestHeader with
  | none => none
  | some best =>
      if (s.node.cs.work best).le (s.node.cs.work s.node.cs.tip) then none
      else
        match s.node.cs.forkPoint best with
        | none => none
        | some fork => some (s.batchFrom best fork now)

/-- `GetData` for the blocks of a batch. -/
def sendBatch (s : P2P) (b : UInt64 × List Hash256) : P2P :=
  s.send net b.1 Cmd.getData (writeInv (b.2.map fun h => ⟨invBlock, h⟩))

/-- The batches in the order of the peers' ids. -/
def Batch.sorted (x : Batch) : List (UInt64 × List Hash256) :=
  (pairs x.batches).mergeSort fun a b => a.1 ≤ b.1

def requestMissing (s : P2P) (now : Int) : P2P :=
  match s.nextBatch now with
  | none => s
  | some x => x.sorted.foldl (sendBatch net) { s with inflight := x.inflight }

/-- The peers as `try_fast_sync` sees them. -/
def syncPeers (s : P2P) : List SyncPeer :=
  s.peers.map fun p => ⟨p.id, p.active, p.ver.services, p.bestHeight⟩

/-- The first request of a snapshot's download. -/
def startDownload (s : P2P) : Option (UInt64 × Bytes) → P2P
  | some (id, payload) => s.send net id Cmd.getSnapshot payload
  | none => s

def requestBlocks (s : P2P) (now : Int) : P2P :=
  if net.fastSync then
    match s.snap.tryFastSync net.chain s.node.cs s.syncPeers now with
    | (f, busy, req) =>
        let s := { s with snap := f }.startDownload net req
        if busy then s else s.requestMissing net now
  else s.requestMissing net now

/-! ## The handshake -/

/-- A peer of our network that is neither ourselves nor connected already. -/
def welcome (s : P2P) (p : Peer) (v : VersionMsg) : P2P :=
  let s := s.modifyPeer p.id fun p => p.introduce v
  let s :=
    if p.inbound then
      let s := if v.listenPort ≠ 0 then s.addAddr (p.addr.withPort v.listenPort) false else s
      s.onConnected net p
    else s
  let s := s.learnedExternal (v.yourAddr.withPort net.port)
  s.send net p.id Cmd.verack []

def handleVersion (s : P2P) (p : Peer) (payload : Bytes) : Handled :=
  if p.gotVersion then (s.misbehave net p false, .ok ())
  else
    match VersionMsg.decode payload with
    | .error e => (s, .error e)
    | .ok (v, _) =>
        let s := s.modifyPeer p.id fun p => { p with ver := v }
        if v.genesis ≠ net.chain.params.genesisHash then (s.misbehave net p false, .ok ())
        else if v.nonce = net.nonce then
          -- connected to ourselves
          let s := if p.inbound then s else { s with selfAddrs := insert p.addr s.selfAddrs }
          (({ s with addrs := s.addrs.erase p.addr }).hangUp p.id, .ok ())
        else if s.peers.any fun o => o.id ≠ p.id ∧ o.gotVersion ∧ o.ver.nonce = v.nonce then
          (s.hangUp p.id, .ok ())
        else (s.welcome net p v, .ok ())

omit [Crypto] in
/-- An address we connected to was good. -/
def noteGood (s : P2P) (p : Peer) : P2P :=
  if p.inbound then s
  else
    let info := (s.addrs.lookup p.addr).getD {}
    { s with addrs := s.addrs.insert p.addr { info with lastOk := s.seconds net, attempts := 0 } }

/-- What a full node is asked for first. -/
def askPeer (s : P2P) (p : Peer) : P2P :=
  if p.full then
    (if p.inbound then s else s.send net p.id Cmd.getAddr []).sendGetheaders net p.id
  else s

omit [Crypto] in
/-- The addresses of ours that a peer is told. -/
def ownAddrs (s : P2P) : List NetAddr :=
  let reach4 := net.env.mapped s.io ||
    s.peers.any fun q => q.inbound && q.addr.isV4 && q.addr.routable
  (if reach4 && s.external4.routable then [s.external4] else []) ++
    if net.listen && s.external6.routable then [s.external6] else []

def tellAddrs (s : P2P) (p : Peer) : P2P :=
  let mine := s.ownAddrs net
  if mine.isEmpty then s
  else s.send net p.id Cmd.addr (writeAddrs (mine.map fun a => (a, s.seconds net)))

def handleVerack (s : P2P) (p : Peer) : P2P :=
  let s := s.modifyPeer p.id fun p => { p with gotVerack := true }
  ((s.noteGood net p).askPeer net p).tellAddrs net p

/-! ## Addresses -/

/-- The addresses a peer is told when it asks. -/
def sharedAddrs (s : P2P) (p : Peer) : List NetAddr :=
  (net.env.shuffle s.io ((s.addrs.keys.mergeSort NetAddr.le).filter fun a =>
    ((s.addrs.lookup a).getD {}).lastOk ≠ 0 && (a.routable || p.addr.isLocal))).take 500

def handleGetAddr (s : P2P) (p : Peer) : P2P :=
  s.send net p.id Cmd.addr
    (writeAddrs ((s.sharedAddrs net p).map fun a => (a, ((s.addrs.lookup a).getD {}).lastOk)))

omit [Crypto] in
def takeAddr (p : Peer) (s : P2P) (a : NetAddr) : P2P :=
  if a.routable || (a.isLocal && p.addr.isLocal) then s.addAddr a false else s

omit [Crypto] in
def handleAddr (s : P2P) (p : Peer) (payload : Bytes) : Handled :=
  eachItem maxAddrItems readAddrItem (takeAddr p) s payload

/-! ## Announcements and data -/

/-- `mp_.get`. -/
def pending (m : Mempool) (id : Hash256) : Option Transaction :=
  (m.byId.lookup id).bind fun k => (m.order.find? fun e => e.node == k).map MempoolEntry.tx

/-- The variables of the loop of `Inv`. -/
structure InvState where
  p2p : P2P
  want : List InvItem := []
  blockInv : Bool := false

omit [Crypto] in
def takeInv (id : UInt64) (x : InvState) (i : InvItem) : InvState :=
  let s := x.p2p.markKnown id i.hash
  if i.type = invTx then
    if i.hash ∉ s.node.mp.byId ∧ (s.node.cs.findTxBlock i.hash).isNone then
      { x with p2p := s, want := x.want ++ [i] }
    else { x with p2p := s }
  else if i.type = invBlock then { x with p2p := s, blockInv := true }
  else { x with p2p := s }

def handleInv (s : P2P) (p : Peer) (payload : Bytes) : Handled :=
  match eachItem maxInvItems InvItem.read (takeInv p.id) { p2p := s } payload with
  | (x, .error e) => (x.p2p, .error e)
  | (x, .ok ()) =>
      let s := if x.want.isEmpty then x.p2p else x.p2p.send net p.id Cmd.getData (writeInv x.want)
      (if x.blockInv then s.sendGetheaders net p.id else s, .ok ())

/-- Answer an item of `GetData`; what is not there is collected. -/
def serveItem (p : Peer) (x : P2P × List InvItem) (i : InvItem) : P2P × List InvItem :=
  if i.type = invTx then
    match pending x.1.node.mp i.hash with
    | some tx => (x.1.send net p.id Cmd.txMsg tx.writeFull, x.2)
    | none => (x.1, x.2 ++ [i])
  else if i.type = invBlock then
    match (x.1.node.cs.lookup i.hash).bind fun _ =>
        x.1.node.cs.readBlock net.chain i.hash true with
    | some (b, gotWitness) => (x.1.send net p.id Cmd.blockMsg (writeBlockMsg b gotWitness), x.2)
    | none => (x.1, x.2 ++ [i])
  else x

def handleGetData (s : P2P) (p : Peer) (payload : Bytes) : Handled :=
  match eachItem maxInvItems InvItem.read (serveItem net p) (s, []) payload with
  | ((s, _), .error e) => (s, .error e)
  | ((s, missing), .ok ()) =>
      (if missing.isEmpty then s else s.send net p.id Cmd.notFound (writeInv missing), .ok ())

omit [Crypto] in
/-- A peer does not have what it was asked for. -/
def refused (p : Peer) (s : P2P) (i : InvItem) : P2P :=
  match s.inflight.lookup i.hash with
  | some (id, _) =>
      if id = p.id then
        { s with
          inflight := s.inflight.erase i.hash
          noWitness := insert (i.hash, p.id) s.noWitness }
      else s
  | none => s

omit [Crypto] in
def handleNotFound (s : P2P) (p : Peer) (payload : Bytes) : Handled :=
  eachItem maxInvItems InvItem.read (refused p) s payload

/-! ## Headers and blocks -/

/-- How the loop over received headers ends. -/
inductive HeadersEnd
  | done
  | orphan
  | invalid
deriving DecidableEq, Repr

/-- The loop over received headers: each that is accepted is known to the peer,
and the last of them says how far the peer is. -/
def takeHeaders (id : UInt64) : P2P → List BlockHeader → Option Hash256 →
    P2P × Option Hash256 × HeadersEnd
  | s, [], last => (s, last, .done)
  | s, h :: hs, last =>
      match s.node.cs.acceptHeader net.chain h with
      | (cs, .orphan) => ({ s with node := ⟨cs, s.node.mp⟩ }, last, .orphan)
      | (cs, .invalid why) =>
          ({ s with node := ⟨cs, s.node.mp⟩ }, last,
            if why = "time-too-new" then .done else .invalid)
      | (cs, .ok b) =>
          takeHeaders id ({ s with node := ⟨cs, s.node.mp⟩ }.markKnown id b) hs (some b)
      | (cs, .known b) =>
          takeHeaders id ({ s with node := ⟨cs, s.node.mp⟩ }.markKnown id b) hs (some b)

/-- The peer has blocks up to the last header it sent. -/
def raiseHeight (s : P2P) (id : UInt64) : Option Hash256 → P2P
  | none => s
  | some b => s.modifyPeer id fun p =>
      { p with bestHeight := max p.bestHeight (s.node.cs.entry b).height }

def handleHeaders (s : P2P) (p : Peer) (payload : Bytes) : Handled :=
  match readHeaders payload with
  | .error e => (s, .error e)
  | .ok (hs, _) =>
      match takeHeaders net p.id s hs none with
      | (s, _, .invalid) => (s.misbehave net p true, .ok ())
      | (s, last, e) =>
          let s := s.raiseHeight p.id last
          let s :=
            if e = .orphan ∨ hs.length = maxHeadersPerMsg then s.sendGetheaders net p.id else s
          (s.requestBlocks net (s.millis net), .ok ())

/-- What a peer's block has come to. -/
def afterBlock (s : P2P) (p : Peer) (h : Hash256) : Except String Bool → Handled
  | .ok _ => (s.requestBlocks net (s.millis net), .ok ())
  | .error why =>
      if why = "witness-required" then
        ({ s with noWitness := insert (h, p.id) s.noWitness }, .ok ())
      else if why = "orphan" then (s.sendGetheaders net p.id, .ok ())
      else if why = "time-too-new" ∨ why = "disk-write-failed" then (s, .ok ())
      else (s.misbehave net p true, .ok ())

def handleBlock (s : P2P) (p : Peer) (payload : Bytes) : Handled :=
  match readBlockMsg payload with
  | .error e => (s, .error e)
  | .ok ((b, hasWitness), _) =>
      let h := b.header.hash
      let s := { s.markKnown p.id h with inflight := s.inflight.erase h }
      let r := s.node.cs.receiveBlock net.chain b hasWitness
      (s.thenActivate net r).afterBlock net p h r.2

/-! ## Transactions, coins and snapshots -/

def handleTx (s : P2P) (p : Peer) (payload : Bytes) : Handled :=
  match Transaction.readFull payload with
  | .error e => (s, .error e)
  | .ok (tx, _) =>
      match (s.markKnown p.id tx.txid).acceptTx net tx with
      | (s, none) => (s, .ok ())
      | (s, some why) =>
          if why ≠ "already-in-mempool" ∧ why ≠ "already-confirmed" then
            (s.send net p.id Cmd.reject (writeReject tx.txid why), .ok ())
          else (s, .ok ())

def handleGetUtxos (s : P2P) (p : Peer) (payload : Bytes) : Handled :=
  match buildUtxoReply net.chain net.enum s.node.cs s.node.mp payload with
  | .error e => (s, .error e)
  | .ok reply => (s.send net p.id Cmd.utxos reply, .ok ())

omit [Crypto] in
/-- `read_snapshot_file`. -/
def snapshotFile (cfg : Config) (cs : Chainstate) (b : Hash256) : Option Bytes :=
  if b ∈ cs.snapshotHash ∧ cfg.env.fault cs.tick (.readSnapshot b) = false then
    cs.disk.snapshots.lookup b
  else none

def handleGetSnapshot (s : P2P) (p : Peer) (payload : Bytes) : Handled :=
  match s.serving.serve (snapshotFile net.chain s.node.cs) payload with
  | .error e => (s, .error e)
  | .ok (v, reply) => ({ s with serving := v }.send net p.id Cmd.snapshot reply, .ok ())

def handleSnapshot (s : P2P) (p : Peer) (payload : Bytes) : Handled :=
  match s.snap.receive p.id (s.millis net) payload with
  | .error e => (s, .error e)
  | .ok (f, .nothing) => ({ s with snap := f }, .ok ())
  | .ok (f, .request req) => ({ s with snap := f }.send net p.id Cmd.getSnapshot req, .ok ())
  | .ok (f, .load x) =>
      let r := s.node.cs.receiveSnapshot net.chain x
      let s := { s with snap := f }.thenActivate net r
      match r.2 with
      | .ok _ => (s, .ok ())
      | .error _ => (s.misbehave net p true, .ok ())

omit [Crypto] in
/-- `Pong` carries a number; what it says about the delay is only shown. -/
def handlePong (s : P2P) (payload : Bytes) : Handled :=
  match ByteReader.u64le payload with
  | .error e => (s, .error e)
  | .ok _ => (s, .ok ())

/-! ## All commands -/

def handle (s : P2P) (p : Peer) (c : Cmd) (payload : Bytes) : Handled :=
  if !p.gotVersion ∧ c ≠ Cmd.version then (s.misbehave net p false, .ok ())
  else if c = Cmd.version then s.handleVersion net p payload
  else if c = Cmd.verack then (s.handleVerack net p, .ok ())
  else if c = Cmd.ping then (s.send net p.id Cmd.pong payload, .ok ())
  else if c = Cmd.pong then s.handlePong payload
  else if c = Cmd.getAddr then (s.handleGetAddr net p, .ok ())
  else if c = Cmd.addr then s.handleAddr p payload
  else if c = Cmd.inv then s.handleInv net p payload
  else if c = Cmd.getData then s.handleGetData net p payload
  else if c = Cmd.notFound then s.handleNotFound p payload
  else if c = Cmd.getHeaders then
    match s.node.cs.serveGetHeaders payload with
    | .error e => (s, .error e)
    | .ok (reply, _) => (s.send net p.id Cmd.headers reply, .ok ())
  else if c = Cmd.headers then s.handleHeaders net p payload
  else if c = Cmd.blockMsg then s.handleBlock net p payload
  else if c = Cmd.txMsg then s.handleTx net p payload
  else if c = Cmd.getUtxos then s.handleGetUtxos net p payload
  else if c = Cmd.getSnapshot then s.handleGetSnapshot net p payload
  else if c = Cmd.snapshot then s.handleSnapshot net p payload
  else (s, .ok ())

end P2P

end QuantCore
