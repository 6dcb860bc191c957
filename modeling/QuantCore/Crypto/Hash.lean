import QuantCore.Util.Types

/-!
# Hashing and signatures

BLAKE3 and Falcon-512 are third-party code. The development takes them as the
parameter `Crypto`: a plain hash, a hash with a domain-separation context, and
the signature check. Nothing is assumed of them here; a result that needs the
hashes of the values in play to be distinct says so.
-/

namespace QuantCore

/-- The third-party primitives: BLAKE3, BLAKE3 with a context string, and
`PQCLEAN_FALCON512_CLEAN_crypto_sign_verify` on a signature, a message and a
public key. -/
class Crypto where
  blake3 : Bytes → Hash256
  blake3Tagged : String → Bytes → Hash256
  cryptoSignVerify : Bytes → Hash256 → Bytes → Bool

/-- The context strings of `crypto/hash.h`. -/
inductive Ctx
  | txid
  | wtxid
  | merkle
  | sighash
  | address
  | asset
  | lptoken
  | state
  | netcheck
deriving DecidableEq, Repr

def Ctx.text : Ctx → String
  | .txid => "Quant v2 txid"
  | .wtxid => "Quant v2 witness"
  | .merkle => "Quant v2 merkle node"
  | .sighash => "Quant v2 sighash"
  | .address => "Quant v2 address"
  | .asset => "Quant v2 token id"
  | .lptoken => "Quant v2 pool share id"
  | .state => "Quant v2 state snapshot"
  | .netcheck => "Quant v2 p2p checksum"

/-- Every use of the hash has a context of its own. -/
theorem Ctx.text_injective : Function.Injective Ctx.text := by
  intro a b h
  cases a <;> cases b <;> first | rfl | (exact absurd h (by decide))

variable [Crypto]

def blake3 (b : Bytes) : Hash256 := Crypto.blake3 b

def blake3Tagged (c : Ctx) (b : Bytes) : Hash256 := Crypto.blake3Tagged c.text b

def falconPkBytes : Nat := 897
def falconSigMax : Nat := 752

def addressHash (pk : Bytes) : Hash256 := blake3Tagged .address pk

def falconVerify (pk sig : Bytes) (msg : Hash256) : Bool :=
  if pk.length ≠ falconPkBytes ∨ sig.isEmpty ∨ sig.length > falconSigMax then false
  else Crypto.cryptoSignVerify sig msg pk

end QuantCore
