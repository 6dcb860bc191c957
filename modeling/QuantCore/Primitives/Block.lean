import QuantCore.Primitives.Transaction

/-!
# Blocks

A fixed 152-byte header whose plain BLAKE3 hash is both the block id and the
proof of work, and the transactions. The core of a block is its header and the
transaction cores; the witness section is every transaction's signatures.
-/

namespace QuantCore

open Codec

structure BlockHeader where
  version : UInt32 := 2
  prev : Hash256 := 0
  merkleRoot : Hash256 := 0
  witnessRoot : Hash256 := 0
  stateCommit : Hash256 := 0
  time : UInt64 := 0
  bits : UInt32 := 0
  nonce : UInt64 := 0
deriving DecidableEq, Repr, Inhabited

structure Block where
  header : BlockHeader := {}
  txs : List Transaction := []
deriving DecidableEq, Repr, Inhabited

namespace BlockHeader

/-- `BlockHeader::SIZE`. -/
def size : Nat := 4 + 32 + 32 + 32 + 32 + 8 + 4 + 8

def write (h : BlockHeader) : Bytes :=
  Writer.u32le h.version ++ Writer.hash h.prev ++ Writer.hash h.merkleRoot ++
    Writer.hash h.witnessRoot ++ Writer.hash h.stateCommit ++
    Writer.u64le h.time ++ Writer.u32le h.bits ++ Writer.u64le h.nonce

def read : ByteReader BlockHeader := do
  let version ← ByteReader.u32le
  let prev ← ByteReader.hash
  let merkleRoot ← ByteReader.hash
  let witnessRoot ← ByteReader.hash
  let stateCommit ← ByteReader.hash
  let time ← ByteReader.u64le
  let bits ← ByteReader.u32le
  let nonce ← ByteReader.u64le
  pure { version, prev, merkleRoot, witnessRoot, stateCommit, time, bits, nonce }

end BlockHeader

namespace Block

/-- The block without its signatures, as it is stored. -/
def core (b : Block) : Block := { b with txs := b.txs.map Transaction.core }

def coreBytes (b : Block) : Bytes :=
  b.header.write ++ Writer.size b.txs.length ++ b.txs.flatMap Transaction.writeCore

def witnessBytes (b : Block) : Bytes := b.txs.flatMap Transaction.writeWitnesses

def fullBytes (b : Block) : Bytes := b.coreBytes ++ b.witnessBytes

def fullSize (b : Block) : Nat := (b.coreBytes ++ b.witnessBytes).length

def readCore : ByteReader Block := do
  let header ← BlockHeader.read
  let txs ← readList (maxBlockSize / 40) Transaction.readCore
  pure { header, txs }

/-- The witness sections of transactions already read, in order. -/
def readWitnessesOf : List Transaction → ByteReader (List Transaction)
  | [] => pure []
  | t :: ts => do
      let t' ← t.readWitnesses
      let ts' ← readWitnessesOf ts
      pure (t' :: ts')

def readWitness (b : Block) : ByteReader Block := do
  let txs ← readWitnessesOf b.txs
  pure { b with txs }

def readFull : ByteReader Block := do
  let b ← readCore
  b.readWitness

end Block

/-! ## Merkle roots -/

variable [Crypto]

def BlockHeader.hash (h : BlockHeader) : Hash256 := blake3 h.write

def merkleNode (a b : Hash256) : Hash256 :=
  blake3Tagged .merkle (a.bytes ++ b.bytes)

/-- One level up: pairs are hashed, an odd node is carried unchanged. -/
def merkleLevel : List Hash256 → List Hash256
  | a :: b :: rest => merkleNode a b :: merkleLevel rest
  | l => l

/-- The loop of `merkle_root`; a level at least halves, so the number of leaves
is more rounds than it takes. -/
def merkleLoop : Nat → List Hash256 → Hash256
  | _, [] => 0
  | _, [a] => a
  | 0, a :: _ => a
  | k + 1, l => merkleLoop k (merkleLevel l)

def merkleRoot (leaves : List Hash256) : Hash256 := merkleLoop leaves.length leaves

/-- The loop of `merkle_proof`: at each level the sibling, or zero where there is
none. -/
def merkleProofLoop : Nat → List Hash256 → Nat → List Hash256
  | k + 1, a :: b :: rest, index =>
      (a :: b :: rest).getD (index ^^^ 1) 0 ::
        merkleProofLoop k (merkleLevel (a :: b :: rest)) (index / 2)
  | _, _, _ => []

def merkleProof (leaves : List Hash256) (index : Nat) : List Hash256 :=
  merkleProofLoop leaves.length leaves index

/-- The loop of `merkle_verify`, on what is left of the proof: the value it ends
with, if the proof has exactly one sibling for each level. The sibling of a
carried node is zero. -/
def merkleVerifyLoop : List Hash256 → Nat → Nat → Hash256 → Option Hash256
  | [], _, n, h => if n > 1 then none else some h
  | sibling :: proof, index, n, h =>
      if n > 1 then
        if index ^^^ 1 < n then
          merkleVerifyLoop proof (index / 2) ((n + 1) / 2)
            (if index % 2 = 1 then merkleNode sibling h else merkleNode h sibling)
        else if sibling.isZero then merkleVerifyLoop proof (index / 2) ((n + 1) / 2) h
        else none
      else none

def merkleVerify (leaf : Hash256) (index count : Nat) (proof : List Hash256)
    (root : Hash256) : Bool :=
  if index ≥ count then false else merkleVerifyLoop proof index count leaf == some root

namespace Block

def computeMerkleRoot (b : Block) : Hash256 := merkleRoot (b.txs.map Transaction.txid)

def computeWitnessRoot (b : Block) : Hash256 :=
  merkleRoot (b.txs.map Transaction.witnessHash)

end Block

end QuantCore
