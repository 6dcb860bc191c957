import QuantCore.Spec.Reference

/-!
# The state of a branch

What the chainstate is for, said without a chainstate: the state at a block is
what its branch, from genesis up, leads to. A branch is a list of blocks, each
naming the one before, applied one after another to the empty state; where a
node got the blocks from, in which order, and what it connected and
disconnected in between does not appear.

A block is known by its header, and a header names the transactions by a hash.
That a name stands for one thing is a property of the blocks that are around,
`Collisionless`, not of the hash function.
-/

namespace QuantCore

variable [Crypto]

/-- The context-free checks of `accept_block` on a block of height `n`, but for
the signatures. -/
structure Block.Checked (n : Nat) (b : Block) : Prop where
  coinbase : (b.txs.headD { ins := [default] }).isCoinbase = true
  others : ∀ t ∈ b.txs.tail, t.isCoinbase = false
  merkle : b.computeMerkleRoot = b.header.merkleRoot
  height : (b.txs.headD default).lockHeight = UInt64.ofNat n
  basic : ∀ t ∈ b.txs, checkTxBasic t false = .ok 0
  ids : (b.txs.map Transaction.txid).Nodup

/-- No two of the blocks that are around have a hash in common without having
in common what it is the hash of. -/
structure Collisionless (known : Block → Prop) : Prop where
  header : ∀ a b, known a → known b → a.header.hash = b.header.hash → a.header = b.header
  merkle : ∀ a b, known a → known b → a.computeMerkleRoot = b.computeMerkleRoot →
    a.txs.map Transaction.txid = b.txs.map Transaction.txid
  witness : ∀ a b, known a → known b → a.computeWitnessRoot = b.computeWitnessRoot →
    a.txs.map Transaction.witness = b.txs.map Transaction.witness
  txid : ∀ a b s t, known a → known b → s ∈ a.txs → t ∈ b.txs → s.txid = t.txid →
    s.core = t.core

/-- `Branch p known n h bs L`: the block `h` of height `n` is the end of the
branch `bs`, newest first, and the state there is `L`. Signatures are not
looked at: whether they were checked makes no difference to the state. -/
inductive Branch (p : ChainParams) (known : Block → Prop) :
    Nat → Hash256 → List Block → StateReader → Prop
  | genesis : Branch p known 0 p.genesisHash [p.genesis] .empty
  | block {n : Nat} {bs : List Block} {L L' : StateReader} {b : Block}
      (hb : Branch p known n b.header.prev bs L) (hk : known b) (hc : b.Checked (n + 1))
      (hn : n + 1 < 2 ^ 63) (hs : L.block b.core (n + 1) p.genesisHash false = .ok L') :
      Branch p known (n + 1) b.header.hash (b.core :: bs) L'

end QuantCore
