import QuantCore.Consensus.Limits
import QuantCore.Crypto.Hash
import QuantCore.Util.Serialize

/-!
# Transactions

The core (inputs, outputs, token ops) is what the txid commits to and what
every node stores. Signatures live in a separate witness section. Texts are
byte strings, as `std::string` is.
-/

namespace QuantCore

open Codec

structure OutPoint where
  txid : Hash256
  n : UInt32
deriving DecidableEq, Repr, Inhabited

structure TxIn where
  prev : OutPoint
deriving DecidableEq, Repr, Inhabited

/-- Asset id: all zero is QNT. -/
def qntAsset : Hash256 := 0

structure TxOut where
  value : Amount
  asset : Hash256
  addr : Hash256
deriving DecidableEq, Repr, Inhabited

def TxOut.isQnt (o : TxOut) : Bool := o.asset.isZero

/-! ## Token ops -/

structure OpCreateToken where
  ticker : Bytes
  name : Bytes
  decimals : UInt8
  supply : Amount
  uri : Bytes
deriving DecidableEq, Repr, Inhabited

structure OpPoolCreate where
  token : Hash256
  qnt : Amount
  tok : Amount
  shares : Amount
deriving DecidableEq, Repr, Inhabited

structure OpAddLiquidity where
  token : Hash256
  qnt : Amount
  tok : Amount
  shares : Amount
deriving DecidableEq, Repr, Inhabited

structure OpRemoveLiquidity where
  token : Hash256
  shares : Amount
  qnt : Amount
  tok : Amount
deriving DecidableEq, Repr, Inhabited

/-- `sell = false` pays QNT in and takes tokens out. The amounts are the
source's `in` and `out`. -/
structure OpSwap where
  token : Hash256
  sell : Bool
  amountIn : Amount
  amountOut : Amount
deriving DecidableEq, Repr, Inhabited

/-- The source's `from` and `to`, whose names Lean keeps for itself. -/
structure OpMessage where
  sender : Hash256
  recipient : Hash256
  gift : UInt8
  text : Bytes
deriving DecidableEq, Repr, Inhabited

inductive TxOp
  | createToken (o : OpCreateToken)
  | poolCreate (o : OpPoolCreate)
  | addLiquidity (o : OpAddLiquidity)
  | removeLiquidity (o : OpRemoveLiquidity)
  | swap (o : OpSwap)
  | message (o : OpMessage)
deriving DecidableEq, Repr

/-! ## Witnesses and transactions -/

/-- `WitnessRef` reuses the signature of an earlier input of the same address;
`WitnessFalcon` carries a key and a signature. -/
inductive Witness
  | ref (input : UInt32)
  | falcon (pk sig : Bytes)
deriving DecidableEq, Repr

structure Transaction where
  version : UInt32 := 2
  ins : List TxIn := []
  outs : List TxOut := []
  ops : List TxOp := []
  lockHeight : UInt64 := 0
  extra : Bytes := []
  witness : List Witness := []
deriving DecidableEq, Repr, Inhabited

namespace Transaction

def isCoinbase (t : Transaction) : Bool := t.ins.isEmpty

/-- The transaction without its signatures: what a txid commits to. -/
def core (t : Transaction) : Transaction := { t with witness := [] }

end Transaction

/-! ## Writing -/

def writeOutPoint (o : OutPoint) : Bytes :=
  Writer.hash o.txid ++ Writer.varint o.n.toUInt64

def writeTxOut (o : TxOut) : Bytes :=
  Writer.varint o.value ++
    (if o.isQnt then Writer.u8 0 else Writer.u8 1 ++ Writer.hash o.asset) ++
    Writer.hash o.addr

def writeOp : TxOp → Bytes
  | .createToken o =>
      Writer.u8 1 ++ Writer.str o.ticker ++ Writer.str o.name ++
        Writer.u8 o.decimals ++ Writer.varint o.supply ++ Writer.str o.uri
  | .poolCreate o =>
      Writer.u8 2 ++ Writer.hash o.token ++ Writer.varint o.qnt ++
        Writer.varint o.tok ++ Writer.varint o.shares
  | .addLiquidity o =>
      Writer.u8 3 ++ Writer.hash o.token ++ Writer.varint o.qnt ++
        Writer.varint o.tok ++ Writer.varint o.shares
  | .removeLiquidity o =>
      Writer.u8 4 ++ Writer.hash o.token ++ Writer.varint o.shares ++
        Writer.varint o.qnt ++ Writer.varint o.tok
  | .swap o =>
      Writer.u8 5 ++ Writer.hash o.token ++ Writer.u8 (if o.sell then 1 else 0) ++
        Writer.varint o.amountIn ++ Writer.varint o.amountOut
  | .message o =>
      Writer.u8 6 ++ Writer.hash o.sender ++ Writer.hash o.recipient ++
        Writer.u8 o.gift ++ Writer.str o.text

def writeWitness : Witness → Bytes
  | .ref input => Writer.u8 0 ++ Writer.varint input.toUInt64
  | .falcon pk sig => Writer.u8 1 ++ pk ++ Writer.bytes sig

namespace Transaction

def writeCore (t : Transaction) : Bytes :=
  Writer.varint t.version.toUInt64 ++
    Writer.size t.ins.length ++ t.ins.flatMap (fun i => writeOutPoint i.prev) ++
    Writer.size t.outs.length ++ t.outs.flatMap writeTxOut ++
    Writer.size t.ops.length ++ t.ops.flatMap writeOp ++
    Writer.varint t.lockHeight ++ Writer.bytes t.extra

def writeWitnesses (t : Transaction) : Bytes :=
  Writer.size t.witness.length ++ t.witness.flatMap writeWitness

def writeFull (t : Transaction) : Bytes := t.writeCore ++ t.writeWitnesses

end Transaction

/-! ## Reading -/

def u32Max : UInt64 := 0xffffffff

def readOutPoint : ByteReader OutPoint := do
  let txid ← ByteReader.hash
  let n ← ByteReader.varintMax u32Max
  pure ⟨txid, n.toUInt32⟩

/-- The asset flag and, for a token, its id, which is never zero. -/
def readAsset : ByteReader Hash256 := do
  let f ← ByteReader.u8
  if f = 1 then do
    let a ← ByteReader.hash
    if a.isZero then throw "non-canonical asset" else pure a
  else if f ≠ 0 then throw "bad asset flag"
  else pure qntAsset

def readTxOut : ByteReader TxOut := do
  let value ← ByteReader.varint
  let asset ← readAsset
  let addr ← ByteReader.hash
  pure ⟨value, asset, addr⟩

def readSell : ByteReader Bool := do
  let s ← ByteReader.u8
  if s > 1 then throw "bad swap direction" else pure (s == 1)

def readOp : ByteReader TxOp := do
  let t ← ByteReader.u8
  if t = 1 then do
    let ticker ← ByteReader.str (UInt64.ofNat maxTicker)
    let name ← ByteReader.str (UInt64.ofNat maxTokenName)
    let decimals ← ByteReader.u8
    let supply ← ByteReader.varint
    let uri ← ByteReader.str (UInt64.ofNat maxTokenUri)
    pure (.createToken ⟨ticker, name, decimals, supply, uri⟩)
  else if t = 2 then do
    let token ← ByteReader.hash
    let qnt ← ByteReader.varint
    let tok ← ByteReader.varint
    let shares ← ByteReader.varint
    pure (.poolCreate ⟨token, qnt, tok, shares⟩)
  else if t = 3 then do
    let token ← ByteReader.hash
    let qnt ← ByteReader.varint
    let tok ← ByteReader.varint
    let shares ← ByteReader.varint
    pure (.addLiquidity ⟨token, qnt, tok, shares⟩)
  else if t = 4 then do
    let token ← ByteReader.hash
    let shares ← ByteReader.varint
    let qnt ← ByteReader.varint
    let tok ← ByteReader.varint
    pure (.removeLiquidity ⟨token, shares, qnt, tok⟩)
  else if t = 5 then do
    let token ← ByteReader.hash
    let sell ← readSell
    let amountIn ← ByteReader.varint
    let amountOut ← ByteReader.varint
    pure (.swap ⟨token, sell, amountIn, amountOut⟩)
  else if t = 6 then do
    let sender ← ByteReader.hash
    let recipient ← ByteReader.hash
    let gift ← ByteReader.u8
    let text ← ByteReader.str (UInt64.ofNat maxMessageText)
    pure (.message ⟨sender, recipient, gift, text⟩)
  else throw "unknown op"

def readWitness : ByteReader Witness := do
  let t ← ByteReader.u8
  if t = 0 then do
    let input ← ByteReader.varintMax (UInt64.ofNat maxTxInputs)
    pure (.ref input.toUInt32)
  else if t = 1 then do
    let pk ← ByteReader.raw falconPkBytes
    let sig ← ByteReader.bytes (UInt64.ofNat falconSigMax)
    pure (.falcon pk sig)
  else throw "unknown witness type"

/-- A counted list, at most `max` long. -/
def readList {α : Type} (max : Nat) (r : ByteReader α) : ByteReader (List α) := do
  let n ← ByteReader.varintMax (UInt64.ofNat max)
  readMany r n.toNat

namespace Transaction

def readCore : ByteReader Transaction := do
  let version ← ByteReader.varintMax u32Max
  let ins ← readList maxTxInputs (TxIn.mk <$> readOutPoint)
  let outs ← readList maxTxOutputs readTxOut
  let ops ← readList maxTxOps readOp
  let lockHeight ← ByteReader.varint
  let extra ← ByteReader.bytes (UInt64.ofNat maxCoinbaseExtra)
  pure { version := version.toUInt32, ins, outs, ops, lockHeight, extra }

/-- `read_witness` fills in the witness section of a transaction already read. -/
def readWitnesses (t : Transaction) : ByteReader Transaction := do
  let witness ← readList maxTxInputs readWitness
  pure { t with witness }

def readFull : ByteReader Transaction := do
  let t ← readCore
  t.readWitnesses

end Transaction

/-! ## Ids -/

variable [Crypto]

namespace Transaction

def txid (t : Transaction) : Hash256 := blake3Tagged .txid t.writeCore

def witnessHash (t : Transaction) : Hash256 := blake3Tagged .wtxid t.writeWitnesses

/-- Sum of the QNT outputs, in 64 bits. -/
def totalQntOut (t : Transaction) : Amount :=
  t.outs.foldl (fun s o => if o.isQnt then s + o.value else s) 0

end Transaction

/-- Id of the token created by op `opIndex` of a transaction whose first input
is `firstIn`. -/
def tokenId (firstIn : OutPoint) (opIndex : UInt32) : Hash256 :=
  blake3Tagged .asset
    (Writer.hash firstIn.txid ++ Writer.u32le firstIn.n ++ Writer.u32le opIndex)

/-- Id of the share token of the QNT/token pool. -/
def poolShareId (token : Hash256) : Hash256 := blake3Tagged .lptoken token.bytes

/-- What every input's key signs: the network and the whole transaction. -/
def signatureHash (genesis txid : Hash256) : Hash256 :=
  blake3Tagged .sighash (genesis.bytes ++ txid.bytes)

end QuantCore
