import QuantCore.Net.Handlers

/-!
# The event loop

What comes in on a socket, what other threads have queued, and the work that is
done every half second, each as a step of the engine. The loop takes them in a
fixed order; a run below takes them in any.

The end of an iteration, where the peers that were hung up on are dropped, is a
step as well. Light clients on the local network that ask for nodes, the
engine's own datagrams there, the DHT's ticks and the files are left out.
-/

namespace QuantCore

open Maps

/-- What can happen to a running engine. -/
inductive NetEvent
  /-- Somebody connects. -/
  | accept (a : NetAddr)
  /-- A connection of ours is made, or fails. -/
  | connected (id : UInt64) (failed : Bool)
  /-- The bytes of a peer, as `recv` returns them, and whether its end of the
  connection is closed behind them. -/
  | recv (id : UInt64) (chunks : List Bytes) (closed : Bool)
  /-- `flush_peer` finds the connection broken. -/
  | broken (id : UInt64)
  /-- A node found by the DHT. -/
  | found (a : NetAddr)
  /-- Our own address as the DHT sees it. -/
  | seenAs (a : NetAddr)
  /-- A datagram on the local network. -/
  | lan (from_ : NetAddr) (data : Bytes)
  | queues
  | maintain
  | reap
  /-- `broadcast_tx`. -/
  | relay (tx : Hash256)
  /-- `add_node`, of a text that is an address. -/
  | addNode (a : NetAddr)
  /-- `disconnect`. -/
  | disconnect (id : UInt64)
  /-- `ban` and `unban`. -/
  | ban (op : BanOp)
  /-- Another thread uses the chain or the mempool. -/
  | command (c : NodeCmd)

namespace P2P

variable [Crypto] (net : P2PConfig)

/-! ## Reading -/

omit [Crypto] in
/-- The bytes that `recv` returned, each time with a look at the buffer: whether
it has grown too large. -/
def feed (id : UInt64) : P2P → List Bytes → P2P × Bool
  | s, [] => (s, false)
  | s, bs :: rest =>
      let s := s.modifyPeer id fun p =>
        { p with rx := p.rx ++ bs, lastRecvMs := s.millis net }
      match s.peer id with
      | none => (s, false)
      | some p =>
          if p.rx.length > 2 * maxMessage then (s.misbehave net p false, true)
          else feed id s rest

/-- A peer whose message makes its handler throw is banned. -/
def catchError (p : Peer) : Handled → P2P
  | (s, .ok ()) => s
  | (s, .error _) => s.misbehave net p true

/-- The messages in a peer's buffer, at most `k` of them, until it is hung up
on. -/
def readFrames (id : UInt64) : Nat → P2P → P2P
  | 0, s => s
  | k + 1, s =>
      match s.peer id with
      | none => s
      | some p =>
          match FrameReader.next net.chain.params p.rx with
          | .more => s
          | .fail _ => s.misbehave net p false
          | .item (c, payload) rest =>
              let s := s.modifyPeer id fun p => { p with rx := rest }
              let s := catchError net p (s.handle net p c payload)
              if (s.peer id).any Peer.disconnect then s else readFrames id k s

/-- `read_peer`. -/
def readPeer (s : P2P) (id : UInt64) (chunks : List Bytes) (closed : Bool) : P2P :=
  match s.feed net id chunks with
  | (s, true) => s
  | (s, false) =>
      let s := if closed then s.hangUp id else s
      match s.peer id with
      | none => s
      | some p => s.readFrames net id (p.rx.length + 1)

/-! ## Queues -/

omit [Crypto] in
def addNode (s : P2P) (a : NetAddr) : P2P := (s.addAddr a true).connectTo net a true

omit [Crypto] in
def applyBan (s : P2P) (b : BanOp) : P2P :=
  if b.remove then { s with banned := s.banned.erase b.ip }
  else
    { s with
      banned := s.banned.insert b.ip b.until_
      peers := s.peers.map fun p => if p.addr.ip = b.ip then { p with disconnect := true } else p }

omit [Crypto] in
/-- The hashes of a queue that a peer does not have yet, each marked as it is
gone past. -/
def fresh : Known → List Hash256 → Known × List Hash256
  | k, [] => (k, [])
  | k, h :: hs =>
      if h ∈ k.set then fresh k hs
      else
        let (k', news) := fresh (k.mark h) hs
        (k', h :: news)

/-- The queue of transactions for one peer. -/
def relayTo (relay : List Hash256) (s : P2P) (id : UInt64) : P2P :=
  match s.peer id with
  | none => s
  | some p =>
      if !p.active then s
      else
        match fresh p.known relay with
        | (k, news) =>
            let s := s.modifyPeer id fun p => { p with known := k }
            if news.isEmpty then s
            else s.send net id Cmd.inv (writeInv (news.map fun h => ⟨invTx, h⟩))

/-- The header of the new tip for one peer. -/
def announceTo (hdr : BlockHeader) (s : P2P) (id : UInt64) : P2P :=
  match s.peer id with
  | none => s
  | some p =>
      if !p.active ∨ hdr.hash ∈ p.known.set then s
      else (s.markKnown id hdr.hash).send net id Cmd.headers (writeHeaders [hdr])

/-- A new tip is announced, unless we are far behind or its height has been
announced before. -/
def announceTip (s : P2P) : P2P :=
  let cs := s.node.cs
  if cs.isInitialSync net.chain ∨ (cs.height : Int) = s.lastAnnounceHeight then s
  else
    (s.peers.map Peer.id).foldl (announceTo net (cs.entry cs.tip).header)
      { s with lastAnnounceHeight := cs.height }

/-- `process_queues`. -/
def processQueues (s : P2P) : P2P :=
  let t := { s with
    queues := {}
    addnodes := []
    disconnects := []
    banOps := [] }
  let t := s.addnodes.foldl (addNode net) t
  let t := s.disconnects.foldl hangUp t
  let t := s.banOps.foldl applyBan t
  let t := if s.queues.relay.isEmpty then t
    else (t.peers.map Peer.id).foldl (relayTo net s.queues.relay) t
  if s.queues.tip then t.announceTip net else t

/-! ## Maintenance -/

omit [Crypto] in
/-- Has the connection waited too long for its handshake? -/
def overdue (p : Peer) (now : Int) : Bool :=
  (p.connecting && now - p.startMs > 10000) ||
    (!p.connecting && !p.active && now - p.startMs > 30000)

/-- A ping, if it is time for one. -/
def pingPeer (s : P2P) (p : Peer) (now : Int) : P2P :=
  if now - p.pingSentMs > 60000 then
    (s.modifyPeer p.id fun p => { p with pingSentMs := now }).send net p.id Cmd.ping
      (Writer.u64le (net.env.random s.io))
  else s

/-- A peer that is ahead of our headers is asked for more, now and then. -/
def askHeaders (s : P2P) (p : Peer) (now : Int) : P2P :=
  if p.full ∧ p.bestHeight > (s.node.cs.bestHeaderHeight : Int) ∧
      now - p.lastGetheadersMs > 30000 then s.sendGetheaders net p.id
  else s

/-- A round of the loop over the peers in `maintain`, with the number of
outbound connections. -/
def maintainPeer (now : Int) (x : P2P × Nat) (id : UInt64) : P2P × Nat :=
  match x.1.peer id with
  | none => x
  | some p =>
      if p.disconnect then x
      else if overdue p now then (x.1.hangUp id, x.2)
      else
        let n := if p.inbound then x.2 else x.2 + 1
        if !p.active then (x.1, n)
        else if now - p.lastRecvMs > 5 * 60000 then (x.1.hangUp id, n)
        else ((x.1.pingPeer net p now).askHeaders net p now, n)

omit [Crypto] in
/-- A request that has waited for a minute is given up. -/
def dropStalled (now : Int) (s : P2P) (e : Hash256 × UInt64 × Int) : P2P :=
  if now - e.2.2 > 60000 then
    { s.modifyPeer e.2.1 (fun p =>
        { p with stalls := p.stalls + 1, disconnect := p.disconnect || p.stalls + 1 > 5 }) with
      inflight := s.inflight.erase e.1 }
  else s

omit [Crypto] in
/-- A node added by hand is connected again. -/
def keepManual (s : P2P) (a : NetAddr) : P2P :=
  let info := (s.addrs.lookup a).getD {}
  if !info.manual then s
  else if s.peers.any fun p => p.addr = a ∧ !p.disconnect then s
  else if s.seconds net - info.lastTry > 15 then s.connectTo net a true
  else s

omit [Crypto] in
/-- May an address of the book be tried now? -/
def candidate (s : P2P) (a : NetAddr) : Bool :=
  let info := (s.addrs.lookup a).getD {}
  let backoff : Int := min (60 * 2 ^ min info.attempts 6) 3600
  !(a = s.external4 || a = s.external6 || a ∈ s.selfAddrs) &&
    !(info.lastTry ≠ 0 && s.seconds net - info.lastTry < backoff) &&
    !(s.peers.any fun p => p.addr = a)

omit [Crypto] in
/-- The addresses to connect to, the ones that worked last in front. -/
def outboundCandidates (s : P2P) : List NetAddr :=
  (net.env.shuffle s.io ((s.addrs.keys.mergeSort NetAddr.le).filter (s.candidate net))).mergeSort
    fun a b => ((s.addrs.lookup b).getD {}).lastOk ≤ ((s.addrs.lookup a).getD {}).lastOk

omit [Crypto] in
def fillOutbound (s : P2P) (outbound : Nat) : P2P :=
  if net.connectOnly ∨ outbound ≥ net.maxOutbound then s
  else
    ((s.outboundCandidates net).take (min 4 (net.maxOutbound - outbound))).foldl
      (fun s a => s.connectTo net a false) s

def maintain (s : P2P) : P2P :=
  let now := s.millis net
  let (t, outbound) := (s.peers.map Peer.id).foldl (maintainPeer net now) (s, 0)
  let t := (pairs t.inflight).foldl (dropStalled now) t
  let t := (t.addrs.keys.mergeSort NetAddr.le).foldl (keepManual net) t
  (t.fillOutbound net outbound).requestBlocks net now

/-! ## Other events -/

omit [Crypto] in
/-- What was asked of a peer is not in flight any more. -/
def forgetRequests (inflight : UMap Hash256 (UInt64 × Int)) (id : UInt64) :
    UMap Hash256 (UInt64 × Int) :=
  (pairs inflight).foldl (fun m e => if e.2.1 = id then m.erase e.1 else m) inflight

omit [Crypto] in
/-- The peers that were hung up on are gone. -/
def reap (s : P2P) : P2P :=
  { s with
    peers := s.peers.filter fun p => !p.disconnect
    inflight := ((s.peers.filter Peer.disconnect).map Peer.id).foldl forgetRequests s.inflight }

/-- A connection of ours is ready, or failed. -/
def connectionReady (s : P2P) (id : UInt64) (failed : Bool) : P2P :=
  match s.peer id with
  | none => s
  | some p =>
      if !p.connecting then s
      else if failed then s.hangUp id
      else s.onConnected net p

/-- A round of `lan_read`. -/
def lanRead (s : P2P) (from_ : NetAddr) (data : Bytes) : P2P :=
  if data.length ≠ 20 ∨ data.take 4 ≠ textBytes "QNTL" ∨
      (data.drop 4).take 4 ≠ net.chain.params.magic.toList then s
  else
    let port := UInt32.toUInt16 (UInt32.ofNat (ofLeBytes ((data.drop 8).take 4)))
    if UInt64.ofNat (ofLeBytes (data.drop 12)) = net.nonce then s
    else
      let a := from_.withPort port
      let t := s.addAddr a false
      if a ∈ s.addrs then t else t.connectTo net a false

/-- Another thread's command; a restart ends the engine. -/
def command (s : P2P) : NodeCmd → P2P
  | .accept tx => (s.acceptTx net tx).1
  | .header h => { s with node := ⟨(s.node.cs.acceptHeader net.chain h).1, s.node.mp⟩ }
  | .block b w => s.thenActivate net (s.node.cs.receiveBlock net.chain b w)
  | .snapshot x => s.thenActivate net (s.node.cs.receiveSnapshot net.chain x)
  | .flush => { s with node := ⟨s.node.cs.flush net.chain, s.node.mp⟩ }
  | .restart => s

/-- A step of the engine. -/
def step (s : P2P) (e : NetEvent) : P2P :=
  let s := s.asked
  match e with
  | .accept a => s.acceptInbound net a
  | .connected id failed => s.connectionReady net id failed
  | .recv id chunks closed =>
      match s.peer id with
      | some p => if p.connecting then s else s.readPeer net id chunks closed
      | none => s
  | .broken id => s.hangUp id
  | .found a => s.addAddr a false
  | .seenAs a => s.learnedExternal (a.withPort net.port)
  | .lan a data => s.lanRead net a data
  | .queues => s.processQueues net
  | .maintain => s.maintain net
  | .reap => s.reap
  | .relay h => { s with queues := Queues.added s.queues h }
  | .addNode a => { s with addnodes := s.addnodes ++ [a] }
  | .disconnect id => { s with disconnects := s.disconnects ++ [id] }
  | .ban op => { s with banOps := s.banOps ++ [op] }
  | .command c => s.command net c

/-- The states of an engine: it starts beside a node, with what its files of
addresses and bans hold, and makes no more connections than their ids can count. -/
inductive Reached : P2P → Prop
  | start {n : FullNode} (hn : FullNode.Reached net.chain (fun _ _ => True) n)
      (addrs : UMap NetAddr AddrInfo) (banned : UMap (Vector UInt8 16) Int) :
      Reached { node := n, addrs, banned }
  | step {s : P2P} (hs : Reached s) (e : NetEvent)
      (hfit : (s.step net e).nextPeerId ≤ 2 ^ 64) : Reached (s.step net e)

end P2P

end QuantCore
