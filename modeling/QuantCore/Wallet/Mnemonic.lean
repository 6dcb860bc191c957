import QuantCore.Crypto.Hash
import QuantCore.Lib.Words
import QuantCore.Util.Bech32

/-!
# Seed phrases

Twenty-four words of a list of 2048 write 264 bits: the seed and the first byte
of its SHA-256 hash. The word list and SHA-256 are parameters; of the list it is
known that its words are distinct, in lower case and not empty.
-/

namespace QuantCore

/-- `BIP39_WORDS`. -/
structure WordList where
  words : List Bytes
  size : words.length = 2048
  distinct : words.Nodup
  lower : ∀ w ∈ words, w ≠ [] ∧ ∀ c ∈ w, isLower c = true

namespace WordList

/-- `BIP39_WORDS[i]`. -/
def word (wl : WordList) (i : Nat) : Bytes := wl.words.getD i []

/-- `word_index`: the words are distinct, so the map has one index for each. -/
def wordIndex (wl : WordList) (w : Bytes) : Option Nat := wl.words.idxOf? w

end WordList

/-- In lower case, one space between two words. -/
def mnemonicNormalize (s : Bytes) : Bytes :=
  ((Words.split isSpace s).map (List.map toLower)).foldl
    (fun out w => (if out.isEmpty then out else out ++ [0x20]) ++ w) []

/-- Eleven bits from place `11 * i` on. -/
def groupAt (bits : Bytes) (i : Nat) : Nat :=
  (List.range 11).foldl (fun idx j =>
    let bit := i * 11 + j
    (idx <<< 1) ||| (((bits.getD (bit / 8) 0).toNat >>> (7 - bit % 8)) &&& 1)) 0

/-- `bits[bit / 8] |= 1 << (7 - bit % 8)`. -/
def setBit (bits : Bytes) (bit : Nat) : Bytes :=
  bits.modify (bit / 8) (· ||| UInt8.ofNat (1 <<< (7 - bit % 8)))

/-- The loop of `mnemonic_valid` that writes the bits of the indices. -/
def indexBits (idx : List Nat) : Bytes :=
  (List.range 24).foldl (fun bits i =>
    (List.range 11).foldl (fun bits j =>
      if (idx.getD i 0 >>> (10 - j)) &&& 1 ≠ 0 then setBit bits (i * 11 + j) else bits) bits)
    (List.replicate 33 0)

section Phrases

variable (sha256 : Bytes → Hash256) (wl : WordList)

/-- `encode`. -/
def mnemonicEncode (ent : Vector UInt8 32) : Bytes :=
  let bits := ent.toList ++ [(sha256 ent.toList).bytes.headD 0]
  (List.range 24).foldl (fun out i =>
    (if i = 0 then out else out ++ [0x20]) ++ wl.word (groupAt bits i)) []

def mnemonicValid (words : Bytes) : Bool :=
  match (Words.split isSpace (mnemonicNormalize words)).mapM wl.wordIndex with
  | none => false
  | some idx =>
      if idx.length ≠ 24 then false
      else
        let bits := indexBits idx
        (sha256 (bits.take 32)).bytes.headD 0 == bits.getD 32 0

end Phrases

/-- `mnemonic_to_master`: BLAKE3 under a context, of the phrase and the
passphrase with a zero byte between them, and then a hundred thousand times of
what came out. -/
def mnemonicToMaster [Crypto] (words passphrase : Bytes) : Hash256 :=
  (fun h : Hash256 => Crypto.blake3Tagged "Quant v1 wallet stretch" h.bytes)^[100000]
    (Crypto.blake3Tagged "Quant v1 wallet master seed"
      (mnemonicNormalize words ++ [0] ++ passphrase))

end QuantCore
