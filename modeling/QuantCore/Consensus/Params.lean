import QuantCore.Primitives.Block
import QuantCore.Util.Bech32
import QuantCore.Util.U256

/-!
# Chain parameters

The three networks. Only what the chain, the wallet and the framing of messages
read is here: the prefix of addresses, the first bytes of a frame, the
proof-of-work limit and starting difficulty, the genesis block, the snapshot
schedule and the coinbase maturity.
-/

namespace QuantCore

inductive Network
  | main
  | test
  | regtest
deriving DecidableEq, Repr

structure ChainParams where
  /-- The prefix of addresses. -/
  hrp : Bytes
  /-- The bytes every frame starts with. -/
  magic : Vector UInt8 4
  powLimit : U256
  genesisBits : UInt32
  noRetarget : Bool := false
  genesis : Block
  genesisHash : Hash256
  snapshotInterval : Nat := 10080
  snapshotDelay : Nat := 100
  coinbaseMaturity : Nat := coinbaseMaturityDefault

def ChainParams.isCommitHeight (p : ChainParams) (h : Nat) : Bool :=
  h ≥ p.snapshotInterval + p.snapshotDelay ∧
    h % p.snapshotInterval = p.snapshotDelay

variable [Crypto]

/-- Nobody owns the genesis reward: its coinbase has no outputs. -/
def makeGenesis (time : UInt64) (bits : UInt32) (msg : Bytes) : Block :=
  let cb : Transaction := { lockHeight := 0, extra := msg.take maxCoinbaseExtra }
  let b : Block := { txs := [cb] }
  { b with header :=
      { version := 2, time, bits, nonce := 0,
        merkleRoot := b.computeMerkleRoot, witnessRoot := b.computeWitnessRoot } }

/-- `2^n - 1` as a proof-of-work limit. -/
def limitBelow (n : Nat) : U256 := U256.sub (U256.shl (U256.ofU64 1) n) (U256.ofU64 1)

def mainGenesis : Block :=
  makeGenesis 1790000000 (U256.shl (U256.ofU64 1) 226).toCompact
    (textBytes "Quant: post-quantum money for everyone")

def testGenesis : Block :=
  makeGenesis 1792800000 (U256.shl (U256.ofU64 1) 230).toCompact
    (textBytes "Quant v2 testnet 2026-10-24")

def regtestGenesis : Block :=
  makeGenesis 1790121600 (limitBelow 255).toCompact (textBytes "Quant v2 regtest")

/-- `params_for`. -/
def paramsFor : Network → ChainParams
  | .main =>
      { hrp := textBytes "qnt"
        magic := #v[0x51, 0x4e, 0x54, 0xb2]
        powLimit := limitBelow 236
        genesisBits := (U256.shl (U256.ofU64 1) 226).toCompact
        genesis := mainGenesis
        genesisHash := mainGenesis.header.hash }
  | .test =>
      { hrp := textBytes "tqnt"
        magic := #v[0x51, 0x4e, 0x54, 0x82]
        powLimit := limitBelow 240
        genesisBits := (U256.shl (U256.ofU64 1) 230).toCompact
        genesis := testGenesis
        genesisHash := testGenesis.header.hash
        coinbaseMaturity := 10 }
  | .regtest =>
      { hrp := textBytes "rqnt"
        magic := #v[0x51, 0x4e, 0x54, 0x20]
        powLimit := limitBelow 255
        genesisBits := (limitBelow 255).toCompact
        noRetarget := true
        genesis := regtestGenesis
        genesisHash := regtestGenesis.header.hash
        snapshotInterval := 50
        snapshotDelay := 5 }

/-- Coinbase maturity of the network whose genesis is `genesis`; the ledger
only knows the genesis. -/
def maturityForGenesis (genesis : Hash256) : Nat :=
  if (paramsFor .main).genesisHash = genesis then (paramsFor .main).coinbaseMaturity
  else if (paramsFor .test).genesisHash = genesis then (paramsFor .test).coinbaseMaturity
  else if (paramsFor .regtest).genesisHash = genesis then
    (paramsFor .regtest).coinbaseMaturity
  else coinbaseMaturityDefault

theorem coinbaseMaturity_pos (n : Network) : 0 < (paramsFor n).coinbaseMaturity := by
  cases n <;> exact Nat.succ_pos _

theorem maturityForGenesis_pos (genesis : Hash256) : 0 < maturityForGenesis genesis := by
  rw [maturityForGenesis]
  split
  · exact coinbaseMaturity_pos .main
  · split
    · exact coinbaseMaturity_pos .test
    · split
      · exact coinbaseMaturity_pos .regtest
      · exact Nat.succ_pos _

theorem maturityForGenesis_le (genesis : Hash256) : maturityForGenesis genesis ≤ 100 := by
  have h : ∀ n, (paramsFor n).coinbaseMaturity ≤ 100 := by
    intro n
    cases n
    · exact Nat.le_refl 100
    · exact Nat.le_add_right 10 90
    · exact Nat.le_refl 100
  rw [maturityForGenesis]
  split
  · exact h .main
  · split
    · exact h .test
    · split
      · exact h .regtest
      · decide

/-! ## Addresses -/

omit [Crypto] in
def encodeAddress (p : ChainParams) (ver : UInt8) (addr : Hash256) : Bytes :=
  bech32mEncode p.hrp (ver :: addr.bytes)

omit [Crypto] in
/-- The version and the hash, if the text is an address of this network. -/
def decodeAddress (p : ChainParams) (s : Bytes) : Option (UInt8 × Hash256) :=
  match bech32mDecode s with
  | none => none
  | some (hrp, d) =>
      if hrp ≠ p.hrp ∨ d.length ≠ 33 then none
      else some (d.headD 0, Hash256.ofBytes d.tail)

end QuantCore
