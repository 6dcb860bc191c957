import QuantCore.Consensus.Ledger
import QuantCore.Primitives.Block

/-!
# Wire messages

The payloads of the messages that carry headers and coins, as `net/protocol.h`
and the handlers lay them out. A payload is written and read without a trailing
check: what follows the fields is ignored.
-/

namespace QuantCore

/-- `MAX_HEADERS_PER_MSG`. -/
def maxHeadersPerMsg : Nat := 2000

/-- The hashes a `GetHeaders` may name. -/
def maxLocator : Nat := 200

/-- `GetHeaders`: a locator, and the hash to stop at. -/
def writeGetHeaders (loc : List Hash256) (stop : Hash256) : Bytes :=
  Writer.size loc.length ++ loc.flatMap Writer.hash ++ Writer.hash stop

def readGetHeaders : ByteReader (List Hash256 × Hash256) := do
  let loc ← readList maxLocator ByteReader.hash
  let stop ← ByteReader.hash
  pure (loc, stop)

/-- `Headers`. -/
def writeHeaders (hs : List BlockHeader) : Bytes :=
  Writer.size hs.length ++ hs.flatMap BlockHeader.write

def readHeaders : ByteReader (List BlockHeader) := readList maxHeadersPerMsg BlockHeader.read

/-! ## Coins -/

/-- `MAX_MESSAGE`. -/
def maxMessage : Nat := 4 * 1024 * 1024

/-- The addresses one `GetUtxos` asks for. -/
def maxUtxoAddrs : Nat := 200

/-- The entries of a section of `Utxos`. -/
def maxUtxoEntries : Nat := 100000

/-- `GetUtxos`: the addresses. -/
def writeGetUtxos (addrs : List Hash256) : Bytes :=
  Writer.size addrs.length ++ addrs.flatMap Writer.hash

/-- A coin as a peer claims it, with the transaction that made it and the path
from there to the Merkle root of its block. -/
structure UtxoProof where
  op : OutPoint
  coin : Coin
  block : Hash256
  txCore : Bytes
  txIndex : UInt32
  txCount : UInt32
  merkle : List Hash256
deriving DecidableEq, Repr, Inhabited

def UtxoProof.write (u : UtxoProof) : Bytes :=
  writeOutPoint u.op ++ writeTxOut u.coin.out ++ Writer.varint u.coin.height ++
    Writer.u8 (if u.coin.coinbase then 1 else 0) ++ Writer.hash u.block ++
    Writer.bytes u.txCore ++ Writer.varint u.txIndex.toUInt64 ++
    Writer.varint u.txCount.toUInt64 ++ Writer.size u.merkle.length ++
    u.merkle.flatMap Writer.hash

/-- An outpoint of `Utxos`: its index is cut to 32 bits. -/
def readUtxoOp : ByteReader OutPoint := do
  let txid ← ByteReader.hash
  let n ← ByteReader.varint
  pure ⟨txid, n.toUInt32⟩

def UtxoProof.read : ByteReader UtxoProof := do
  let op ← readUtxoOp
  let out ← readTxOut
  let height ← ByteReader.varint
  let coinbase ← ByteReader.u8
  let block ← ByteReader.hash
  let txCore ← ByteReader.bytes (UInt64.ofNat maxMessage)
  let txIndex ← ByteReader.varint
  let txCount ← ByteReader.varint
  let merkle ← readList 64 ByteReader.hash
  pure { op, coin := ⟨out, height, coinbase != 0⟩, block, txCore
         txIndex := txIndex.toUInt32, txCount := txCount.toUInt32, merkle }

end QuantCore
