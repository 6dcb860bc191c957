import QuantCore.Chain.Mempool
import QuantCore.Chain.Queries
import QuantCore.Net.Frame

/-!
# Replies to a light client

`build_utxo_reply`. A light client names addresses; the node answers with the
coins of each, each with the transaction that made it and its Merkle proof, then
those of them that a pending transaction spends, then the outputs of pending
transactions at the addresses. The number of coins is bounded; the number of
pending outputs is not, and nor is the size.

The source keeps the blocks it has read while it builds a reply. A block is read
here once for each coin: no file operation comes in between, so that the reads
of one block agree.
-/

namespace QuantCore

/-- The coins one reply proves. -/
def maxReplyProofs : Nat := 1000

/-- What goes into a reply. -/
structure UtxoReply where
  height : Nat
  tip : Hash256
  proofs : List UtxoProof
  spentPending : List OutPoint
  unconf : List (OutPoint × TxOut)

/-- A pending output is written like a coin's, without its height. -/
def writeUnconf (e : OutPoint × TxOut) : Bytes := writeOutPoint e.1 ++ writeTxOut e.2

def UtxoReply.write (r : UtxoReply) : Bytes :=
  Writer.u64le (UInt64.ofNat r.height) ++ (Writer.hash r.tip ++
    ((Writer.size r.proofs.length ++ r.proofs.flatMap UtxoProof.write) ++
      ((Writer.size r.spentPending.length ++ r.spentPending.flatMap writeOutPoint) ++
        (Writer.size r.unconf.length ++ r.unconf.flatMap writeUnconf))))

namespace P2P

variable [Crypto] (cfg : Config) (enum : Finset OutPoint → List OutPoint)

/-- The block a coin's transaction is in, and the transaction's place there. -/
def txPlace (s : Chainstate) (op : OutPoint) : Option (Hash256 × Block × Nat) :=
  match s.findTxBlock op.txid with
  | none => none
  | some bh =>
      match s.readBlock cfg bh false with
      | none => none
      | some (b, _) =>
          let idx := (b.txs.map Transaction.txid).idxOf op.txid
          if idx ≥ b.txs.length then none else some (bh, b, idx)

def proofAt (op : OutPoint) (coin : Coin) (bh : Hash256) (b : Block) (idx : Nat) : UtxoProof :=
  { op, coin, block := bh
    txCore := (b.txs.getD idx {}).writeCore
    txIndex := UInt32.ofNat idx
    txCount := UInt32.ofNat b.txs.length
    merkle := merkleProof (b.txs.map Transaction.txid) idx }

/-- A round of the loop over an address's coins; a full reply ends the loop. -/
def addProof (s : Chainstate) (proofs : List UtxoProof) (c : OutPoint × Coin) : List UtxoProof :=
  if proofs.length ≥ maxReplyProofs then proofs
  else
    match txPlace cfg s c.1 with
    | none => proofs
    | some (bh, b, idx) => proofs ++ [proofAt c.1 c.2 bh b idx]

/-- The coins of all addresses, unless `coins_for_address` throws. -/
def utxoProofs (s : Chainstate) (addrs : List Hash256) : Option (List UtxoProof) :=
  (addrs.mapM (s.coinsForAddress enum)).map fun cs => cs.flatten.foldl (addProof cfg s) []

omit [Crypto] in
/-- A round of the loop over a pending transaction's outputs. -/
def addUnconf (m : Mempool) (addrs : List Hash256) (txid : Hash256)
    (unconf : List (OutPoint × TxOut)) (o : TxOut × Nat) : List (OutPoint × TxOut) :=
  let op : OutPoint := ⟨txid, UInt32.ofNat o.2⟩
  if o.1.addr ∈ addrs ∧ m.spends op = false then unconf ++ [(op, o.1)] else unconf

omit [Crypto] in
def unconfirmed (m : Mempool) (addrs : List Hash256) : List (OutPoint × TxOut) :=
  m.all.foldl (fun unconf e => e.tx.outs.zipIdx.foldl (addUnconf m addrs e.txid) unconf) []

def utxoReply (s : Chainstate) (m : Mempool) (addrs : List Hash256) : Option UtxoReply :=
  (utxoProofs cfg enum s addrs).map fun proofs =>
    { height := s.height, tip := s.tip, proofs
      spentPending := (proofs.map UtxoProof.op).filter m.spends
      unconf := unconfirmed m addrs }

omit [Crypto] in
/-- The request: up to 200 addresses, whatever follows them. -/
def readGetUtxos : ByteReader (List Hash256) := readList maxUtxoAddrs ByteReader.hash

def buildUtxoReply (s : Chainstate) (m : Mempool) (req : Bytes) : Except String Bytes :=
  match readGetUtxos req with
  | .error e => .error e
  | .ok (addrs, _) =>
      match utxoReply cfg enum s m addrs with
      | none => .error "at"
      | some r => .ok r.write

end P2P

end QuantCore
