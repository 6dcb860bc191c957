import QuantCore.Net.FastSync
import QuantCore.Net.HeaderSync
import QuantCore.Net.Peer
import QuantCore.Net.Utxos

/-!
# The peer-to-peer engine

The state of `P2P` and what its handlers are made of: sending, banning, the
address book, connections, and what the chain and the mempool tell the engine.
One thread owns all of it; what other threads queue arrives as an event.

Peers are named by their ids, where the source follows pointers. An id is the
number of connections made before, cut to 64 bits. The sockets, the clocks, the
random numbers and the port mapping are an environment, asked at a counter that
every message and every event advances. The log, the published statistics, the
reasons kept with bans and the files of addresses and bans are left out.
-/

namespace QuantCore

/-- What the engine asks of the world. -/
structure NetEnv where
  /-- Does the connection break with this message? -/
  breaks : Nat → Bool
  /-- Does `tcp_connect_nb` give a socket? -/
  socket : Nat → Bool
  millis : Nat → Int
  seconds : Nat → Int
  random : Nat → UInt64
  /-- Is a port mapped by UPnP? -/
  mapped : Nat → Bool
  shuffle : Nat → List NetAddr → List NetAddr
  shuffle_perm : ∀ k l, (shuffle k l).Perm l
  /-- `net_ipv6_available`. -/
  ipv6 : Bool

/-- `P2POptions` and `nonce_`, with the chain's configuration; `enum` is the
order a set of outpoints is gone through in. -/
structure P2PConfig where
  chain : Config
  enum : Finset OutPoint → List OutPoint
  listen : Bool := true
  port : UInt16
  connectOnly : Bool := false
  maxOutbound : Nat := 8
  maxInbound : Nat := 48
  agent : Bytes
  fastSync : Bool := true
  nonce : UInt64
  env : NetEnv

structure AddrInfo where
  lastOk : Int := 0
  lastTry : Int := 0
  attempts : Nat := 0
  manual : Bool := false
deriving DecidableEq, Repr

/-- What the chain and the mempool have queued for the engine: `q_relay_` and
`q_tip_`. -/
structure Queues where
  relay : List Hash256 := []
  tip : Bool := false

structure BanOp where
  ip : Vector UInt8 16
  until_ : Int
  remove : Bool

structure P2P where
  node : FullNode
  queues : Queues := {}
  peers : List Peer := []
  nextPeerId : Nat := 1
  addrs : UMap NetAddr AddrInfo := ∅
  banned : UMap (Vector UInt8 16) Int := ∅
  /-- Which peer a block was asked of, and since when. -/
  inflight : UMap Hash256 (UInt64 × Int) := ∅
  /-- The blocks a peer could not give, or not with their signatures. -/
  noWitness : Finset (Hash256 × UInt64) := ∅
  externalVotes : UMap NetAddr Nat := ∅
  external4 : NetAddr := default
  external6 : NetAddr := default
  selfAddrs : Finset NetAddr := ∅
  lastAnnounceHeight : Int := -1
  snap : FastSync := {}
  serving : SnapshotServer := {}
  addnodes : List NetAddr := []
  disconnects : List UInt64 := []
  banOps : List BanOp := []
  io : Nat := 0

namespace P2P

/-! ## Peers and messages -/

def peer (s : P2P) (id : UInt64) : Option Peer := s.peers.find? fun p => p.id == id

def modifyPeer (s : P2P) (id : UInt64) (f : Peer → Peer) : P2P :=
  { s with peers := s.peers.map fun p => if p.id = id then f p else p }

/-- `peers_.push_back`, with the next id. -/
def addPeer (s : P2P) (p : Peer) : P2P :=
  { s with
    peers := s.peers ++ [{ p with id := UInt64.ofNat s.nextPeerId }]
    nextPeerId := s.nextPeerId + 1 }

def hangUp (s : P2P) (id : UInt64) : P2P := s.modifyPeer id fun p => { p with disconnect := true }

/-- `now_millis`. -/
def millis (net : P2PConfig) (s : P2P) : Int := net.env.millis s.io

/-- `now_seconds`. -/
def seconds (net : P2PConfig) (s : P2P) : Int := net.env.seconds s.io

def asked (s : P2P) : P2P := { s with io := s.io + 1 }

variable [Crypto]

def send (net : P2PConfig) (s : P2P) (id : UInt64) (c : Cmd) (payload : Bytes) : P2P :=
  s.asked.modifyPeer id fun p => p.put c payload (net.env.breaks s.io)

/-- Disconnect a peer; `ban` keeps its address out for an hour. -/
def misbehave (net : P2PConfig) (s : P2P) (p : Peer) (ban : Bool) : P2P :=
  let s := s.hangUp p.id
  if ban ∧ !p.manual then
    { s with banned := s.banned.insert p.addr.ip (s.seconds net + 3600) }
  else s

def sendGetheaders (net : P2PConfig) (s : P2P) (id : UInt64) : P2P :=
  (s.send net id Cmd.getHeaders s.node.cs.getHeadersRequest).modifyPeer id fun p =>
    { p with lastGetheadersMs := s.millis net }

/-! ## The address book -/

omit [Crypto] in
/-- The entry with the most attempts, the first of them in the order of
addresses. -/
def worstAddr (addrs : UMap NetAddr AddrInfo) : Option NetAddr :=
  (addrs.keys.mergeSort NetAddr.le).foldl (fun w a =>
    match w with
    | none => some a
    | some b =>
        if ((addrs.lookup b).getD {}).attempts < ((addrs.lookup a).getD {}).attempts then some a
        else some b) none

omit [Crypto] in
/-- Forget the worst entry of a book that is too large. -/
def forgetWorst (addrs : UMap NetAddr AddrInfo) : UMap NetAddr AddrInfo :=
  if addrs.keys.length > 5000 then
    match worstAddr addrs with
    | some a => if ((addrs.lookup a).getD {}).manual then addrs else addrs.erase a
    | none => addrs
  else addrs

omit [Crypto] in
def addAddr (s : P2P) (a : NetAddr) (manual : Bool) : P2P :=
  if a.port = 0 ∨ a.isZero then s
  else if a = s.external4 ∨ a = s.external6 then s
  else
    let info := (s.addrs.lookup a).getD {}
    let info := if manual then { info with manual := true } else info
    { s with addrs := forgetWorst (s.addrs.insert a info) }

omit [Crypto] in
def learnedExternal (s : P2P) (a : NetAddr) : P2P :=
  if !a.routable then s
  else
    let v := (s.externalVotes.lookup a).getD 0 + 1
    let s := { s with externalVotes := s.externalVotes.insert a v }
    if v ≥ 2 ∧ (if a.isV4 then s.external4 else s.external6) ≠ a then
      if a.isV4 then { s with external4 := a, addrs := s.addrs.erase a }
      else { s with external6 := a, addrs := s.addrs.erase a }
    else s

/-! ## Connections -/

omit [Crypto] in
def bannedNow (net : P2PConfig) (s : P2P) (a : NetAddr) : Bool :=
  match s.banned.lookup a.ip with
  | some t => t > s.seconds net
  | none => false

omit [Crypto] in
/-- What `connect_to` notes about an attempt. -/
def noteAttempt (net : P2PConfig) (s : P2P) (a : NetAddr) (manual : Bool) : P2P :=
  let info := (s.addrs.lookup a).getD {}
  let info := { info with
    lastTry := s.seconds net
    attempts := info.attempts + 1
    manual := manual || info.manual }
  { s with addrs := s.addrs.insert a info }

omit [Crypto] in
def connectTo (net : P2PConfig) (s : P2P) (a : NetAddr) (manual : Bool) : P2P :=
  if s.peers.any fun p => p.addr = a ∧ !p.inbound then s
  else if s.bannedNow net a ∧ !manual then s
  else if !a.isV4 ∧ !net.env.ipv6 then s
  else
    let s' := (s.noteAttempt net a manual).asked
    if net.env.socket s.io then
      s'.addPeer { addr := a, manual, connecting := true, startMs := s.millis net }
    else s'

omit [Crypto] in
/-- A round of `accept_inbound`. -/
def acceptInbound (net : P2PConfig) (s : P2P) (a : NetAddr) : P2P :=
  if s.peers.countP (fun p => p.inbound) ≥ net.maxInbound ∨ s.bannedNow net a then s
  else
    s.addPeer
      { addr := a, inbound := true, startMs := s.millis net, lastRecvMs := s.millis net }

/-- `best_snapshot_file`: the highest block whose snapshot is held and is the
one the best chain commits to. -/
def bestSnapshotFile (cfg : Config) (s : Chainstate) : Option Hash256 :=
  (Maps.pairs s.snapshotHash).foldl (fun best e =>
    if s.committedHashFor cfg e.1 = some e.2 ∧
        best.all (fun b => (s.entry b).height < (s.entry e.1).height) then some e.1
    else best) none

/-- The version message for a peer. -/
def hello (net : P2PConfig) (s : P2P) (p : Peer) : VersionMsg where
  services :=
    if (bestSnapshotFile net.chain s.node.cs).isSome then
      serviceFull ||| serviceLightServe ||| serviceSnapshot
    else serviceFull ||| serviceLightServe
  nonce := net.nonce
  height := s.node.cs.height
  listenPort := if net.listen then net.port else 0
  agent := net.agent
  genesis := net.chain.params.genesisHash
  yourAddr := p.addr

def onConnected (net : P2PConfig) (s : P2P) (p : Peer) : P2P :=
  let s := s.modifyPeer p.id fun p => p.ready (s.millis net)
  s.send net p.id Cmd.version (s.hello net p).encode

/-! ## The chain and the mempool -/

omit [Crypto] in
/-- The listener of `on_added`. -/
def Queues.added (q : Queues) (tx : Hash256) : Queues := { q with relay := q.relay ++ [tx] }

/-- The transactions of `readd_`, with what `on_added` hears of them. -/
def readdAll (cfg : Config) (cs : Chainstate) (m : Mempool) (q : Queues) : Mempool × Queues :=
  let m := if m.dirty then m.rebuild cfg cs else m
  m.readd.foldl (fun x tx =>
    match x.1.accept cfg cs tx with
    | (m, .ok ()) => (m, Queues.added x.2 tx.txid)
    | (m, .error _) => (m, x.2)) ({ m with readd := [] }, q)

/-- The mempool and the engine listen to the chain; the mempool was first. -/
def listeners (cfg : Config) : Callbacks (Mempool × Queues) where
  onConnect b x := (x.1.onConnect b, x.2)
  onDisconnect cs b x := (x.1.onDisconnect cfg cs b, x.2)
  onTip cs x :=
    let x := readdAll cfg cs x.1 x.2
    (x.1, { x.2 with tip := true })

/-- `activate_best_chain`, where the code before it got that far. -/
def thenActivate (net : P2PConfig) (s : P2P) : Chainstate × Except String Bool → P2P
  | (cs, .ok true) =>
      let (cs, m, q) := cs.activateWith (listeners net.chain) net.chain (s.node.mp, s.queues)
      { s with node := ⟨cs, m⟩, queues := q }
  | (cs, .ok false) => { s with node := ⟨cs, s.node.mp⟩ }
  | (cs, .error _) => { s with node := ⟨cs, s.node.mp⟩ }

/-- `mp_.accept`, and why it refused. -/
def acceptTx (net : P2PConfig) (s : P2P) (tx : Transaction) : P2P × Option String :=
  match s.node.mp.accept net.chain s.node.cs tx with
  | (m, .ok ()) =>
      ({ s with node := ⟨s.node.cs, m⟩, queues := Queues.added s.queues tx.txid }, none)
  | (m, .error why) => ({ s with node := ⟨s.node.cs, m⟩ }, some why)

end P2P

end QuantCore
