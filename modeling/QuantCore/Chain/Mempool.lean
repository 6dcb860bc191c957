import QuantCore.Chain.Callbacks

/-!
# The mempool

Unconfirmed transactions in arrival order, applied in that order to an overlay
over the chain. It hears of the blocks that come and go: a confirmed transaction
leaves the list, those of a disconnected block wait in `readd` for the new tip,
and the overlay is marked dirty and rebuilt later.

`order_` is a list of nodes and `by_id_` maps a txid to an iterator, which names
a node whatever is inserted or erased around it: nodes are numbered here. The
overlay holds a reference to the chainstate, so its base is whatever the
chainstate is when it is read: `viewOn`. The time of an entry and the listeners
of `on_added` are left out.
-/

namespace QuantCore

open Maps

structure MempoolEntry where
  /-- The list node. -/
  node : Nat
  tx : Transaction
  txid : Hash256
  fee : Amount
  size : Nat
deriving Inhabited

structure Mempool where
  order : List MempoolEntry := []
  /-- The number of nodes made so far. -/
  nextNode : Nat := 0
  byId : UMap Hash256 Nat := ∅
  view : LedgerView := { base := ⟨fun _ => none, fun _ => none, fun _ => none⟩ }
  bytes : Nat := 0
  readd : List Transaction := []
  dirty : Bool := false

namespace Mempool

/-- `MAX_BYTES`. -/
def maxBytes : Nat := 64 * 1024 * 1024

/-- The largest transaction `accept` takes. -/
def maxTxSize : Nat := 100000

/-- The overlay over the chainstate as it is now. -/
def viewOn (m : Mempool) (s : Chainstate) : LedgerView := { m.view with base := s.reader }

/-- The size of the entry an iterator names. -/
def nodeSize (m : Mempool) (k : Nat) : Nat :=
  ((m.order.find? fun e => e.node == k).getD default).size

/-- `all`. -/
def all (m : Mempool) : List MempoolEntry := m.order

/-- `spends`, which does not rebuild the view. -/
def spends (m : Mempool) (o : OutPoint) : Bool := m.view.spends o

/-- The height pending transactions are checked at. -/
def nextHeight (s : Chainstate) : UInt64 := UInt64.ofNat (s.height + 1)

variable [Crypto]

/-! ## Blocks come and go -/

/-- A transaction of a connected block. -/
def removeConfirmed (m : Mempool) (tx : Transaction) : Mempool :=
  match m.byId.lookup tx.txid with
  | none => m
  | some k =>
      { m with
        bytes := m.bytes - m.nodeSize k
        order := m.order.filter fun e => e.node != k
        byId := m.byId.erase tx.txid }

def onConnect (b : Block) (m : Mempool) : Mempool :=
  { b.txs.foldl removeConfirmed m with dirty := true }

/-- The transactions of a disconnected block, which is read once more, now with
its witness. -/
def readBack (cfg : Config) (s : Chainstate) (b : Block) : List Transaction :=
  match s.lookup b.header.hash with
  | none => []
  | some _ =>
      match s.readBlock cfg b.header.hash true with
      | none => []
      | some (full, _) => full.txs.tail

def onDisconnect (cfg : Config) (s : Chainstate) (b : Block) (m : Mempool) : Mempool :=
  { m with readd := m.readd ++ readBack cfg s b, dirty := true }

/-! ## Rebuilding -/

/-- One entry applied again: it stays, with its fee, or goes. -/
def rebuildEntry (cfg : Config) (s : Chainstate) (m : Mempool) (e : MempoolEntry) : Mempool :=
  match (m.viewOn s).apply e.tx (nextHeight s) cfg.params.genesisHash false with
  | (_, .error _) => { m with bytes := m.bytes - e.size, byId := m.byId.erase e.txid }
  | (v, .ok fee) => { m with view := v, order := m.order ++ [{ e with fee }] }

def rebuild (cfg : Config) (s : Chainstate) (m : Mempool) : Mempool :=
  m.order.foldl (rebuildEntry cfg s)
    { m with dirty := false, view := { base := s.reader }, order := [] }

/-! ## Accepting -/

/-- The dry run on top of the view: the fee, and whether the policy takes it. -/
def probe (cfg : Config) (s : Chainstate) (m : Mempool) (tx : Transaction) (size : Nat) :
    Except String Unit :=
  match (LedgerView.apply { base := (m.viewOn s).reader } tx (nextHeight s)
      cfg.params.genesisHash true).2 with
  | .error r => .error r
  | .ok fee =>
      let minFee := UInt64.ofNat size * minRelayFeePerKb / 1000
      if fee < minFee then .error ("fee-too-low (need " ++ formatAmount minFee ++ ")")
      else if m.bytes + size > maxBytes then .error "mempool-full"
      else .ok ()

/-- What `accept` asks before the transaction goes into the view. -/
def checkAccept (cfg : Config) (s : Chainstate) (m : Mempool) (tx : Transaction) :
    Except String Unit :=
  if tx.txid ∈ m.byId then .error "already-in-mempool"
  else if tx.isCoinbase then .error "coinbase"
  else
    match checkTxBasic tx true with
    | .error r => .error r
    | .ok _ =>
        if tx.writeFull.length > maxTxSize then .error "tx-too-large"
        else if tx.txid ∈ s.txindex then .error "already-confirmed"
        else if tx.ins.any fun i => (m.viewOn s).spends i.prev then .error "mempool-conflict"
        else m.probe cfg s tx tx.writeFull.length

/-- The new entry, at the end of the list. -/
def push (m : Mempool) (v : LedgerView) (tx : Transaction) (fee : Amount) : Mempool :=
  { m with
    view := v
    order := m.order ++
      [{ node := m.nextNode, tx, txid := tx.txid, fee, size := tx.writeFull.length }]
    nextNode := m.nextNode + 1
    byId := m.byId.insert tx.txid m.nextNode
    bytes := m.bytes + tx.writeFull.length }

def acceptClean (cfg : Config) (s : Chainstate) (m : Mempool) (tx : Transaction) :
    Mempool × Except String Unit :=
  match m.checkAccept cfg s tx with
  | .error r => (m, .error r)
  | .ok () =>
      match (m.viewOn s).apply tx (nextHeight s) cfg.params.genesisHash false with
      | (_, .error r) => (m, .error r)
      | (v, .ok fee) => (m.push v tx fee, .ok ())

def accept (cfg : Config) (s : Chainstate) (m : Mempool) (tx : Transaction) :
    Mempool × Except String Unit :=
  acceptClean cfg s (if m.dirty then m.rebuild cfg s else m) tx

def onTip (cfg : Config) (s : Chainstate) (m : Mempool) : Mempool :=
  let m := if m.dirty then m.rebuild cfg s else m
  m.readd.foldl (fun m tx => (m.accept cfg s tx).1) { m with readd := [] }

def callbacks (cfg : Config) : Callbacks Mempool :=
  ⟨onConnect, onDisconnect cfg, onTip cfg⟩

end Mempool

/-! ## A chainstate with its mempool -/

variable [Crypto]

structure FullNode where
  cs : Chainstate
  mp : Mempool

/-- What is asked of a node. -/
inductive NodeCmd
  | accept (tx : Transaction)
  | header (h : BlockHeader)
  | block (b : Block) (hasWitness : Bool)
  | snapshot (x : Bytes)
  | flush
  | restart

namespace FullNode

/-- `activate_best_chain`, where the code before it got that far. -/
def thenActivate (cfg : Config) (mp : Mempool) : Chainstate × Except String Bool → FullNode
  | (s, .ok true) =>
      let (s, m) := s.activateWith (Mempool.callbacks cfg) cfg mp
      ⟨s, m⟩
  | (s, .ok false) => ⟨s, mp⟩
  | (s, .error _) => ⟨s, mp⟩

/-- A node starts: the mempool is there, empty, before the chain is loaded. -/
def start (cfg : Config) (disk : Disk) (tick : Nat) : Except String FullNode :=
  (Chainstate.loadReady cfg disk tick).map fun s => thenActivate cfg {} (s, .ok true)

def run (cfg : Config) (n : FullNode) : NodeCmd → Except String FullNode
  | .accept tx => .ok ⟨n.cs, (n.mp.accept cfg n.cs tx).1⟩
  | .header h => .ok ⟨(n.cs.acceptHeader cfg h).1, n.mp⟩
  | .block b w => .ok (thenActivate cfg n.mp (n.cs.receiveBlock cfg b w))
  | .snapshot x => .ok (thenActivate cfg n.mp (n.cs.receiveSnapshot cfg x))
  | .flush => .ok ⟨n.cs.flush cfg, n.mp⟩
  | .restart => start cfg n.cs.disk n.cs.tick

/-- The states of a node between two commands, each command having met `ok`
where it was given. -/
inductive Reached (cfg : Config) (ok : FullNode → NodeCmd → Prop) : FullNode → Prop
  | start {n : FullNode} (h : start cfg {} 0 = .ok n) : Reached cfg ok n
  | run {n n' : FullNode} {c : NodeCmd} (hn : Reached cfg ok n) (hok : ok n c)
      (h : n.run cfg c = .ok n') : Reached cfg ok n'

end FullNode

end QuantCore
