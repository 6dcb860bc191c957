import QuantCore.Crypto.Hash

/-!
# Instances to compute with

Stand-ins for the third-party primitives, for evaluating the model on small
inputs: one whose hashes are all zero, one whose hash of a short byte string is
the number it denotes, so that different short strings have different hashes,
one by which a header's hash can be chosen through its nonce, one that hashes a
header to its time, difficulty and nonce, and one that does so too and whose
tagged hash depends on the tag and on every byte. Every signature verifies.
-/

namespace QuantCore

@[reducible] def flatCrypto : Crypto := ⟨fun _ => 0, fun _ _ => 0, fun _ _ _ => true⟩

@[reducible] def plainCrypto : Crypto where
  blake3 := fun b => BitVec.ofNat 256 (ofLeBytes b)
  blake3Tagged := fun _ b => BitVec.ofNat 256 (ofLeBytes b)
  cryptoSignVerify := fun _ _ _ => true

/-- The hash of a header is one more than its nonce, the last eight of its 152
bytes. -/
@[reducible] def nonceCrypto : Crypto where
  blake3 := fun b => BitVec.ofNat 256 (ofLeBytes (b.drop 144) + 1)
  blake3Tagged := fun _ b => BitVec.ofNat 256 (ofLeBytes b)
  cryptoSignVerify := fun _ _ _ => true

/-- The hash of a header is its last twenty bytes, from its time on. -/
@[reducible] def stampCrypto : Crypto where
  blake3 := fun b => BitVec.ofNat 256 (ofLeBytes (b.drop 132))
  blake3Tagged := fun _ b => BitVec.ofNat 256 (ofLeBytes b)
  cryptoSignVerify := fun _ _ _ => true

/-- The tagged hash is a polynomial in the bytes, which starts from the length of
the tag. -/
@[reducible] def blendCrypto : Crypto where
  blake3 := fun b => BitVec.ofNat 256 (ofLeBytes (b.drop 132))
  blake3Tagged := fun tag b =>
    BitVec.ofNat 256 (b.foldl (fun h x => (h * 1000003 + x.toNat + 1) % 2 ^ 256) tag.length)
  cryptoSignVerify := fun _ _ _ => true

end QuantCore
