import QuantCore.Chain.Accept
import QuantCore.Lib.Journal

/-!
# The explorer's indexes

A node keeps, per token, the points of its pool and its trades, and the messages
of the chain. A block that is connected adds to them, and a block that is
disconnected is taken out again. What is added is also appended to a file;
nothing is taken out of a file until the node starts, reads it back and writes
anew what is left at or below the tip.

The chainstate's pools after a block are a parameter of connecting it. The files
are open, and every write to them succeeds.
-/

namespace QuantCore

open Journal

/-! ## Records -/

structure PoolPoint where
  height : Int
  time : UInt64
  qnt : Amount
  tok : Amount
deriving DecidableEq, Repr

/-- The source's `in` and `out` are the amounts. -/
structure TradePoint where
  height : Int
  time : UInt64
  txid : Hash256
  sell : Bool
  amountIn : Amount
  amountOut : Amount
  trader : Hash256
deriving DecidableEq, Repr

/-- The source's `from` and `to` are the sender and the recipient. -/
structure MsgPoint where
  height : Int
  time : UInt64
  txid : Hash256
  sender : Hash256
  recipient : Hash256
  gift : UInt8
  text : Bytes
deriving DecidableEq, Repr

/-- `POOLHIST_REC`. -/
def poolRec : Nat := 32 + 8 * 4

/-- `TRADE_REC`. -/
def tradeRec : Nat := 32 + 8 + 8 + 32 + 1 + 8 + 8 + 32

def writePoint (e : Hash256 × PoolPoint) : Bytes :=
  Writer.hash e.1 ++ Writer.u64le (UInt64.ofInt e.2.height) ++ Writer.u64le e.2.time ++
    Writer.u64le e.2.qnt ++ Writer.u64le e.2.tok

def readPoint : ByteReader (Hash256 × PoolPoint) := do
  let t ← ByteReader.hash
  let height ← ByteReader.u64le
  let time ← ByteReader.u64le
  let qnt ← ByteReader.u64le
  let tok ← ByteReader.u64le
  pure (t, { height := int64 height, time, qnt, tok })

def writeTrade (e : Hash256 × TradePoint) : Bytes :=
  Writer.hash e.1 ++ Writer.u64le (UInt64.ofInt e.2.height) ++ Writer.u64le e.2.time ++
    Writer.hash e.2.txid ++ Writer.u8 (if e.2.sell then 1 else 0) ++
    Writer.u64le e.2.amountIn ++ Writer.u64le e.2.amountOut ++ Writer.hash e.2.trader

def readTrade : ByteReader (Hash256 × TradePoint) := do
  let tok ← ByteReader.hash
  let height ← ByteReader.u64le
  let time ← ByteReader.u64le
  let txid ← ByteReader.hash
  let sell ← ByteReader.u8
  let amountIn ← ByteReader.u64le
  let amountOut ← ByteReader.u64le
  let trader ← ByteReader.hash
  pure (tok, { height := int64 height, time, txid, sell := sell != 0, amountIn, amountOut, trader })

/-- What `write_msg` puts behind the length. -/
def msgBytes (m : MsgPoint) : Bytes :=
  Writer.u64le (UInt64.ofInt m.height) ++ Writer.u64le m.time ++ Writer.hash m.txid ++
    Writer.hash m.sender ++ Writer.hash m.recipient ++ Writer.u8 m.gift ++ Writer.str m.text

def writeMsg (m : MsgPoint) : Bytes :=
  Writer.u32le (UInt32.ofNat (msgBytes m).length) ++ msgBytes m

def readMsg : ByteReader MsgPoint := do
  let height ← ByteReader.u64le
  let time ← ByteReader.u64le
  let txid ← ByteReader.hash
  let sender ← ByteReader.hash
  let recipient ← ByteReader.hash
  let gift ← ByteReader.u8
  let text ← ByteReader.str (UInt64.ofNat maxMessageText)
  pure { height := int64 height, time, txid, sender, recipient, gift, text }

/-- The records of a file of records of one size. -/
def entriesOf {α : Type} (size : Nat) (read : ByteReader α) (file : Bytes) : List α :=
  (Chainstate.records size file).filterMap fun b => (read b).toOption.map Prod.fst

/-- The loop of `msgs_load`: a record that is too long, cut off or does not parse
ends it, one of a gift there is not is passed over. A round takes at least four
bytes. -/
def messagesFrom : Nat → Bytes → List MsgPoint
  | 0, _ => []
  | k + 1, bs =>
      if bs.length < 4 then []
      else
        let n := ofLeBytes (bs.take 4)
        if n > 1024 ∨ (bs.drop 4).length < n then []
        else
          match readMsg ((bs.drop 4).take n) with
          | .error _ => []
          | .ok (m, _) =>
              let rest := messagesFrom k ((bs.drop 4).drop n)
              if m.gift.toNat ≥ giftCount then rest else m :: rest

def messagesOf (file : Bytes) : List MsgPoint := messagesFrom file.length file

/-! ## Putting a record back -/

/-- `pool_hist_put`: a point replaces those at or above its height. -/
def poolRule : Rule PoolPoint Int := ⟨PoolPoint.height, true, fun _ _ => false⟩

/-- `trades_load`: a trade replaces those above its height, and is passed over if
one at its height has its transaction and amounts. -/
def tradeRule : Rule TradePoint Int where
  height := TradePoint.height
  evicts := false
  same := fun t x => x.txid == t.txid && x.amountIn == t.amountIn && x.amountOut == t.amountOut

/-- `msgs_load`: likewise, if one at its height has its transaction. -/
def msgRule : Rule MsgPoint Int where
  height := MsgPoint.height
  evicts := false
  same := fun m x => x.txid == m.txid

section

variable {ρ : Type}

/-- The records of a token. -/
def recordsAt (m : UMap Hash256 (List ρ)) (token : Hash256) : List ρ :=
  (m.lookup token).getD []

def putAt (R : Rule ρ Int) (m : UMap Hash256 (List ρ)) (e : Hash256 × ρ) :
    UMap Hash256 (List ρ) :=
  m.insert e.1 (R.put (recordsAt m e.1) e.2)

def replayAt (R : Rule ρ Int) (log : List (Hash256 × ρ)) : UMap Hash256 (List ρ) :=
  log.foldl (putAt R) ∅

/-- A loop over the map, `f` at each token's records. -/
def mapRecords (f : List ρ → List ρ) (m : UMap Hash256 (List ρ)) : UMap Hash256 (List ρ) :=
  (Maps.pairs m).foldl (fun m e => m.insert e.1 (f e.2)) m

/-- The records in the order in which a file is written anew. -/
def allRecords (m : UMap Hash256 (List ρ)) : List (Hash256 × ρ) :=
  ((Maps.pairs m).insertionSort fun a b => a.1.toNat ≤ b.1.toNat).flatMap fun e =>
    e.2.map fun r => (e.1, r)

end

/-! ## The indexes -/

structure Explorer where
  poolHist : UMap Hash256 (List PoolPoint) := ∅
  trades : UMap Hash256 (List TradePoint) := ∅
  msgs : List MsgPoint := []
  poolFile : Bytes := []
  tradesFile : Bytes := []
  msgsFile : Bytes := []

namespace Explorer

/-- Loading the files and, with the chain loaded, dropping what is above its tip
and writing the files anew. -/
def start (tip : Int) (poolFile tradesFile msgsFile : Bytes) : Explorer :=
  let poolHist := mapRecords (poolRule.trim tip)
    (replayAt poolRule (entriesOf poolRec readPoint poolFile))
  let trades := mapRecords (tradeRule.trim tip)
    (replayAt tradeRule (entriesOf tradeRec readTrade tradesFile))
  let msgs := msgRule.trim tip (msgRule.replay (messagesOf msgsFile))
  { poolHist, trades, msgs
    poolFile := (allRecords poolHist).flatMap writePoint
    tradesFile := (allRecords trades).flatMap writeTrade
    msgsFile := msgs.flatMap writeMsg }

/-- The pool an op touches. -/
def touches : TxOp → Option Hash256
  | .createToken _ => none
  | .message _ => none
  | .poolCreate o => some o.token
  | .addLiquidity o => some o.token
  | .removeLiquidity o => some o.token
  | .swap o => some o.token

/-- The pools a block touches, in order. -/
def touched (b : Block) : List Hash256 :=
  ((b.txs.flatMap Transaction.ops).filterMap touches).dedup.insertionSort
    fun x y => x.toNat ≤ y.toNat

/-- The points a block adds, given the pools after it. -/
def blockPoints (b : Block) (height : Int) (pool : Hash256 → Option Pool) :
    List (Hash256 × PoolPoint) :=
  (touched b).filterMap fun t =>
    (pool t).map fun pl => (t, ⟨height, b.header.time, pl.qnt, pl.tok⟩)

def poolHistConnect (e : Explorer) (b : Block) (height : Int) (pool : Hash256 → Option Pool) :
    Explorer :=
  (blockPoints b height pool).foldl (fun e pt =>
    { e with poolHist := putAt poolRule e.poolHist pt, poolFile := e.poolFile ++ writePoint pt }) e

variable [Crypto]

def tradeOf (b : Block) (height : Int) (tx : Transaction) : TxOp → Option (Hash256 × TradePoint)
  | .swap s =>
      some (s.token, ⟨height, b.header.time, tx.txid, s.sell, s.amountIn, s.amountOut,
        (tx.outs.head?.map TxOut.addr).getD 0⟩)
  | _ => none

/-- The trades a block adds, in the order of its loops. -/
def blockTrades (b : Block) (height : Int) : List (Hash256 × TradePoint) :=
  b.txs.flatMap fun tx => tx.ops.filterMap (tradeOf b height tx)

omit [Crypto] in
/-- A round of `trades_connect`: before its first trade of the block, a token's
trades at or above the height are popped. -/
def pushTrade (height : Int) (s : Explorer × List Hash256) (t : Hash256 × TradePoint) :
    Explorer × List Hash256 :=
  let v := recordsAt s.1.trades t.1
  let v := if t.1 ∈ s.2 then v else v.rdropWhile fun x => x.height ≥ height
  ({ s.1 with
      trades := s.1.trades.insert t.1 (v ++ [t.2])
      tradesFile := s.1.tradesFile ++ writeTrade t }, t.1 :: s.2)

def tradesConnect (e : Explorer) (b : Block) (height : Int) : Explorer :=
  ((blockTrades b height).foldl (pushTrade height) (e, [])).1

def msgOf (b : Block) (height : Int) (tx : Transaction) : TxOp → Option MsgPoint
  | .message m =>
      some ⟨height, b.header.time, tx.txid, m.sender, m.recipient, m.gift, m.text⟩
  | _ => none

def blockMsgs (b : Block) (height : Int) : List MsgPoint :=
  b.txs.flatMap fun tx => tx.ops.filterMap (msgOf b height tx)

def msgsConnect (e : Explorer) (b : Block) (height : Int) : Explorer :=
  let msgs := blockMsgs b height
  { e with
    msgs := (e.msgs.rdropWhile fun x => x.height ≥ height) ++ msgs
    msgsFile := e.msgsFile ++ msgs.flatMap writeMsg }

/-- The callbacks for a block that was connected, in their order. -/
def connect (e : Explorer) (b : Block) (height : Int) (pool : Hash256 → Option Pool) : Explorer :=
  ((e.poolHistConnect b height pool).tradesConnect b height).msgsConnect b height

omit [Crypto] in
/-- The callbacks for a block that was disconnected. -/
def disconnect (e : Explorer) (height : Int) : Explorer :=
  { e with
    poolHist := mapRecords (fun v => v.rdropWhile fun x => x.height ≥ height) e.poolHist
    trades := mapRecords (fun v => v.rdropWhile fun x => x.height ≥ height) e.trades
    msgs := e.msgs.rdropWhile fun x => x.height ≥ height }

end Explorer

/-! ## Runs -/

/-- What happens to a running node: a block is connected on the tip, with the
pools after it, or the tip is disconnected, or the node stops and starts again. -/
inductive ChainEvent
  | connect (b : Block) (pool : Hash256 → Option Pool)
  | disconnect
  | restart

/-- The chain's blocks from genesis, each with the pools after it, and the
indexes. -/
structure ExplorerNode where
  chain : List (Block × (Hash256 → Option Pool)) := []
  explorer : Explorer := {}

namespace ExplorerNode

/-- The height of the tip. -/
def tip (s : ExplorerNode) : Int := s.chain.length - 1

variable [Crypto]

def step (s : ExplorerNode) : ChainEvent → ExplorerNode
  | .connect b pool =>
      { chain := s.chain ++ [(b, pool)], explorer := s.explorer.connect b (s.tip + 1) pool }
  | .disconnect =>
      { chain := s.chain.dropLast, explorer := s.explorer.disconnect s.tip }
  | .restart =>
      { s with explorer :=
          Explorer.start s.tip s.explorer.poolFile s.explorer.tradesFile s.explorer.msgsFile }

/-- A node that starts without a chain and without files. -/
def run (events : List ChainEvent) : ExplorerNode := events.foldl step {}

end ExplorerNode

end QuantCore
