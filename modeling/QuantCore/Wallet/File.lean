import QuantCore.Wallet.Machine

/-!
# The wallet file

`serialize` writes down what a wallet is, `deserialize` fills a new wallet from
it, and the bytes between them are sealed under a password. The writer knows no
limits; the reader bounds every text, and the token amounts of a history entry.

Labels, notes and kinds are strings of characters in a `Wallet` and bytes in its
file, a character a byte. Keyed and extendable hashing are parameters, as BLAKE3 is.
-/

namespace QuantCore

open Codec Maps

/-- `FALCON_SK_BYTES`. -/
def falconSkBytes : Nat := 1281

/-- A `KeyPair` as `keypair_from_seed` makes it. -/
structure KeyPair where
  pk : Bytes
  sk : Bytes
  pkSize : pk.length = falconPkBytes
  skSize : sk.length = falconSkBytes

structure Contact where
  name : Bytes
  address : Bytes
deriving DecidableEq, Repr

/-- A key of the wallet, with its key pair. -/
structure FileKey where
  index : UInt32
  pk : Bytes
  sk : Bytes
  addr : Hash256
  label : Bytes
  issued : Bool
deriving DecidableEq, Repr

/-- An entry of the history, with its texts. -/
structure FileTx where
  txid : Hash256
  height : Int
  time : Int
  delta : Int
  tokenDelta : Deltas
  fee : Amount
  counterparty : Bytes
  note : Bytes
  coinbase : Bool
  kind : Bytes

/-- What a wallet writes down of itself. -/
structure WalletFile where
  mnemonic : Bytes
  passphrase : Bytes
  birthHeight : Int
  syncedTip : Hash256
  syncedHeight : Int
  nextIndex : UInt32
  keys : List FileKey
  coins : UMap OutPoint WalletCoin
  history : UMap Hash256 FileTx
  contacts : List Contact

/-- `ChainParams::name`. -/
def Network.name : Network → Bytes
  | .main => textBytes "main"
  | .test => textBytes "test"
  | .regtest => textBytes "regtest"

/-! ## Writing -/

/-- `u64le(uint64_t(v))` of a signed number. -/
def writeSigned (v : Int) : Bytes := Writer.u64le (UInt64.ofInt v)

def writeFlag (b : Bool) : Bytes := Writer.u8 (if b then 1 else 0)

/-- `std::map` iterates in the order of its keys. -/
def Deltas.sorted (d : Deltas) : List (Hash256 × Int) :=
  (pairs d).insertionSort fun a b => a.1.toNat ≤ b.1.toNat

def FileKey.write (k : FileKey) : Bytes :=
  Writer.varint k.index.toUInt64 ++ k.pk ++ k.sk ++ Writer.str k.label ++ writeFlag k.issued

def writeWalletCoin (e : OutPoint × WalletCoin) : Bytes :=
  Writer.hash e.1.txid ++ Writer.varint e.1.n.toUInt64 ++ writeTxOut e.2.out ++
    writeSigned e.2.height ++ writeFlag e.2.coinbase ++ writeFlag e.2.locked

def writeDelta (e : Hash256 × Int) : Bytes := Writer.hash e.1 ++ writeSigned e.2

def FileTx.write (t : FileTx) : Bytes :=
  Writer.hash t.txid ++ writeSigned t.height ++ writeSigned t.time ++ writeSigned t.delta ++
    Writer.varint t.fee ++ Writer.str t.counterparty ++ Writer.str t.note ++
    writeFlag t.coinbase ++ Writer.str t.kind ++
    (Writer.size t.tokenDelta.sorted.length ++ t.tokenDelta.sorted.flatMap writeDelta)

def Contact.write (c : Contact) : Bytes := Writer.str c.name ++ Writer.str c.address

namespace WalletFile

def sortedCoins (f : WalletFile) : List (OutPoint × WalletCoin) :=
  (pairs f.coins).insertionSort fun a b => a.1.le b.1

def sortedHistory (f : WalletFile) : List FileTx :=
  ((pairs f.history).insertionSort fun a b => a.1.toNat ≤ b.1.toNat).map Prod.snd

/-- `serialize`, on the network `net`. -/
def serialize (net : Network) (f : WalletFile) : Bytes :=
  Writer.u32le 3 ++ Writer.str net.name ++ Writer.str f.mnemonic ++ Writer.str f.passphrase ++
    Writer.varint (UInt64.ofInt f.birthHeight) ++ Writer.hash f.syncedTip ++
    writeSigned f.syncedHeight ++ Writer.varint f.nextIndex.toUInt64 ++
    (Writer.size f.keys.length ++ f.keys.flatMap FileKey.write) ++
    (Writer.size f.sortedCoins.length ++ f.sortedCoins.flatMap writeWalletCoin) ++
    (Writer.size f.sortedHistory.length ++ f.sortedHistory.flatMap FileTx.write) ++
    (Writer.size f.contacts.length ++ f.contacts.flatMap Contact.write)

end WalletFile

/-! ## Reading -/

def readSigned : ByteReader Int := do
  let v ← ByteReader.u64le
  pure (int64 v)

def readFlag : ByteReader Bool := do
  let v ← ByteReader.u8
  pure (v != 0)

def FileKey.read [Crypto] : ByteReader FileKey := do
  let index ← ByteReader.varint
  let pk ← ByteReader.raw falconPkBytes
  let sk ← ByteReader.raw falconSkBytes
  let label ← ByteReader.str 200
  let issued ← readFlag
  pure ⟨index.toUInt32, pk, sk, addressHash pk, label, issued⟩

def readWalletCoin : ByteReader WalletCoin := do
  let txid ← ByteReader.hash
  let n ← ByteReader.varint
  let out ← readTxOut
  let height ← readSigned
  let coinbase ← readFlag
  let locked ← readFlag
  pure ⟨⟨txid, n.toUInt32⟩, out, height, coinbase, locked⟩

def readDelta : ByteReader (Hash256 × Int) := do
  let a ← ByteReader.hash
  let d ← readSigned
  pure (a, d)

def FileTx.read : ByteReader FileTx := do
  let txid ← ByteReader.hash
  let height ← readSigned
  let time ← readSigned
  let delta ← readSigned
  let fee ← ByteReader.varint
  let counterparty ← ByteReader.str 200
  let note ← ByteReader.str 1000
  let coinbase ← readFlag
  let kind ← ByteReader.str 32
  let deltas ← readList 1000 readDelta
  pure ⟨txid, height, time, delta, insertAll ∅ deltas, fee, counterparty, note, coinbase, kind⟩

def Contact.read : ByteReader Contact := do
  let name ← ByteReader.str 200
  let address ← ByteReader.str 200
  pure ⟨name, address⟩

namespace WalletFile

/-- The body of `deserialize`. It returns false for another version or network,
and for whatever is thrown. -/
def read [Crypto] (net : Network) : ByteReader WalletFile := do
  let version ← ByteReader.u32le
  if version ≠ 3 then throw "false"
  else
    let name ← ByteReader.str 32
    if name ≠ net.name then throw "false"
    else
      let mnemonic ← ByteReader.str 1000
      let passphrase ← ByteReader.str 1000
      let birthHeight ← ByteReader.varint
      let syncedTip ← ByteReader.hash
      let syncedHeight ← readSigned
      let nextIndex ← ByteReader.varint
      let keys ← readCounted FileKey.read
      let coins ← readCounted readWalletCoin
      let history ← readCounted FileTx.read
      let contacts ← readCounted Contact.read
      pure {
        mnemonic, passphrase, birthHeight := int64 birthHeight, syncedTip, syncedHeight
        nextIndex := nextIndex.toUInt32, keys
        coins := insertAll ∅ (coins.map fun c => (c.op, c))
        history := insertAll ∅ (history.map fun t => (t.txid, t))
        contacts }

/-- `by_addr_`, which `deserialize` fills while it reads the keys. -/
def byAddr (f : WalletFile) : UMap Hash256 Nat :=
  f.keys.zipIdx.foldl (fun m k => m.insert k.1.addr k.2) ∅

/-- `deserialize`; what is left over is not looked at. -/
def deserialize [Crypto] (net : Network) (b : Bytes) : Option WalletFile :=
  (read net b).toOption.map Prod.fst

end WalletFile

/-! ## The seal -/

/-- BLAKE3 with a key, and the bytes of its extendable output. -/
class FileCrypto where
  blake3Keyed : Hash256 → Bytes → Hash256
  blake3Xof : String → Bytes → Nat → UInt8

/-- `KDF_ROUNDS`. -/
def kdfRounds : UInt32 := 300000

variable [Crypto] [FileCrypto]

omit [FileCrypto] in
def kdf (pw salt : Bytes) (rounds : UInt32) : Hash256 :=
  (fun k => Crypto.blake3Tagged "Quant v1 wallet file kdf round" (k.bytes ++ salt))^[rounds.toNat]
    (Crypto.blake3Tagged "Quant v1 wallet file kdf" (salt ++ pw))

omit [Crypto] in
def keystreamXor (k : Hash256) (nonce data : Bytes) : Bytes :=
  data.zipIdx.map fun e =>
    e.1 ^^^ FileCrypto.blake3Xof "Quant v1 wallet file stream" (k.bytes ++ nonce) e.2

/-- `seal`, with its salt and nonce. The cache holds the key of the salt it holds. -/
def sealFile (salt nonce plain pw : Bytes) : Bytes :=
  let k := kdf pw salt kdfRounds
  let ek := FileCrypto.blake3Keyed k (textBytes "enc")
  let mk := FileCrypto.blake3Keyed k (textBytes "mac")
  let body := textBytes "QWAL" ++ Writer.u8 1 ++ salt ++ Writer.u32le kdfRounds ++ nonce ++
    Writer.bytes (keystreamXor ek nonce plain)
  body ++ Writer.hash (FileCrypto.blake3Keyed mk body)

/-- The fields in front of the MAC: salt, rounds, nonce and ciphertext. -/
def readSealed : ByteReader (Bytes × UInt32 × Bytes × Bytes) := do
  let magic ← ByteReader.raw 4
  if magic ≠ textBytes "QWAL" then throw "not a Quant wallet"
  else
    let v ← ByteReader.u8
    if v ≠ 1 then throw "not a Quant wallet"
    else
      let salt ← ByteReader.raw 16
      let rounds ← ByteReader.u32le
      let nonce ← ByteReader.raw 16
      let ct ← ByteReader.bytes (UInt64.ofNat (2 ^ 28))
      pure (salt, rounds, nonce, ct)

/-- `unseal`. -/
def unsealFile (file pw : Bytes) : Except String Bytes :=
  if file.length < 4 + 1 + 16 + 4 + 16 + 1 + 32 then .error "short"
  else
    let body := file.take (file.length - 32)
    match readSealed body with
    | .error e => .error e
    | .ok ((salt, rounds, nonce, ct), _) =>
        let k := kdf pw salt rounds
        let ek := FileCrypto.blake3Keyed k (textBytes "enc")
        let mk := FileCrypto.blake3Keyed k (textBytes "mac")
        if (FileCrypto.blake3Keyed mk body).bytes ≠ file.drop (file.length - 32) then
          .error "wrong password (or corrupted wallet file)"
        else .ok (keystreamXor ek nonce ct)

namespace WalletFile

/-- What `save` puts into the file. -/
def save (net : Network) (salt nonce pw : Bytes) (f : WalletFile) : Bytes :=
  sealFile salt nonce (f.serialize net) pw

/-- `open`, on the bytes of the file. -/
def openFile (net : Network) (pw file : Bytes) : Except String WalletFile :=
  match unsealFile file pw with
  | .error e => .error e
  | .ok plain =>
      match deserialize net plain with
      | none => .error "wallet file is corrupted or for another network"
      | some f => .ok f

end WalletFile

/-! ## The wallet in the file -/

/-- What a wallet has that its calls do not work on: the seed phrase, the key
pairs derived from it, and the public fields that are only stored. -/
structure Owner where
  mnemonic : Bytes
  passphrase : Bytes
  keyPair : UInt32 → KeyPair
  birthHeight : Int
  contacts : List Contact

omit [FileCrypto] in
/-- The address of the key pair of an index. -/
def Owner.keyAddr (o : Owner) (i : UInt32) : Hash256 := addressHash (o.keyPair i).pk

namespace Wallet

/-- The wallet as it is written down. -/
def file (o : Owner) (w : Wallet) : WalletFile where
  mnemonic := o.mnemonic
  passphrase := o.passphrase
  birthHeight := o.birthHeight
  syncedTip := w.syncedTip
  syncedHeight := w.syncedHeight
  nextIndex := w.nextIndex
  keys := w.keys.map fun k =>
    ⟨k.index, (o.keyPair k.index).pk, (o.keyPair k.index).sk, k.addr, textBytes k.label, k.issued⟩
  coins := w.coins
  history := insertAll ∅ ((pairs w.history).map fun e =>
    (e.1, ⟨e.2.txid, e.2.height, e.2.time, e.2.delta, e.2.tokenDelta, e.2.fee,
      e.2.counterparty, textBytes e.2.note, e.2.coinbase, textBytes e.2.kind⟩))
  contacts := o.contacts

omit [FileCrypto] in
/-- A wallet of `o` that was created on `net`, and what its public calls make of it;
the birth height and the contacts are public fields. -/
inductive Used (net : Network) : Owner → Wallet → Prop
  | created {o : Owner} {w : Wallet} (h : create net o.keyAddr = some w) : Used net o w
  | step {o : Owner} {w w' : Wallet} (hw : Used net o w) (h : Step w w') : Used net o w'
  | edited {o : Owner} {w : Wallet} (hw : Used net o w) (birthHeight : Int)
      (contacts : List Contact) : Used net { o with birthHeight, contacts } w

end Wallet

end QuantCore
