import QuantCore.Chain.State
import Mathlib.Data.Finset.Erase

/-!
# What is written to disk

The encodings of coins, tokens, pools and undo records, the snapshot format,
and reading a block back. The snapshot is sorted by key, so it depends on what
the maps hold and not on their order.
-/

namespace QuantCore

open Codec Maps

/-! ## Coins, tokens and pools -/

def writeCoin (c : Coin) : Bytes :=
  Writer.varint c.out.value ++
    (if c.out.isQnt then Writer.u8 0 else Writer.u8 1 ++ Writer.hash c.out.asset) ++
    Writer.hash c.out.addr ++ Writer.varint c.height ++
    Writer.u8 (if c.coinbase then 1 else 0)

/-- The asset of a stored coin; any nonzero flag announces an id. -/
def readCoinAsset : ByteReader Hash256 := do
  let f ← ByteReader.u8
  if f ≠ 0 then ByteReader.hash else pure qntAsset

def readCoin : ByteReader Coin := do
  let value ← ByteReader.varint
  let asset ← readCoinAsset
  let addr ← ByteReader.hash
  let height ← ByteReader.varint
  let coinbase ← ByteReader.u8
  pure ⟨⟨value, asset, addr⟩, height, coinbase != 0⟩

def writeToken (t : TokenInfo) : Bytes :=
  Writer.hash t.id ++ Writer.str t.ticker ++ Writer.str t.name ++ Writer.str t.uri ++
    Writer.u8 t.decimals ++ Writer.varint t.supply ++ Writer.hash t.createTxid ++
    Writer.varint t.height

def readToken : ByteReader TokenInfo := do
  let id ← ByteReader.hash
  let ticker ← ByteReader.str (UInt64.ofNat maxTicker)
  let name ← ByteReader.str (UInt64.ofNat maxTokenName)
  let uri ← ByteReader.str (UInt64.ofNat maxTokenUri)
  let decimals ← ByteReader.u8
  let supply ← ByteReader.varint
  let createTxid ← ByteReader.hash
  let height ← ByteReader.varint
  pure ⟨id, ticker, name, uri, decimals, supply, createTxid, height⟩

def writePool (p : Pool) : Bytes :=
  Writer.hash p.token ++ Writer.varint p.qnt ++ Writer.varint p.tok ++ Writer.varint p.shares

def readPool : ByteReader Pool := do
  let token ← ByteReader.hash
  let qnt ← ByteReader.varint
  let tok ← ByteReader.varint
  let shares ← ByteReader.varint
  pure ⟨token, qnt, tok, shares⟩

/-- `w.hash(o.txid); w.varint(o.n)`. -/
def writeStoredCoin (e : OutPoint × Coin) : Bytes :=
  Writer.hash e.1.txid ++ Writer.varint e.1.n.toUInt64 ++ writeCoin e.2

def readStoredCoin : ByteReader (OutPoint × Coin) := do
  let txid ← ByteReader.hash
  let n ← ByteReader.varint
  let c ← readCoin
  pure (⟨txid, n.toUInt32⟩, c)

/-- A count without a limit, and that many items. -/
def readCounted {α : Type} (r : ByteReader α) : ByteReader (List α) := do
  let n ← ByteReader.varint
  readMany r n.toNat

/-! ## Undo records -/

structure Undo where
  spent : List (OutPoint × Coin)
  poolsBefore : List (Hash256 × Option Pool)
  tokensCreated : List Hash256
deriving DecidableEq

def writePoolBefore (e : Hash256 × Option Pool) : Bytes :=
  Writer.hash e.1 ++
    match e.2 with
    | some p => Writer.u8 1 ++ writePool p
    | none => Writer.u8 0

def readPoolOption : ByteReader (Option Pool) := do
  let f ← ByteReader.u8
  if f ≠ 0 then some <$> readPool else pure none

def readPoolBefore : ByteReader (Hash256 × Option Pool) := do
  let t ← ByteReader.hash
  let p ← readPoolOption
  pure (t, p)

def Undo.write (u : Undo) : Bytes :=
  Writer.size u.spent.length ++ u.spent.flatMap writeStoredCoin ++
    Writer.size u.poolsBefore.length ++ u.poolsBefore.flatMap writePoolBefore ++
    Writer.size u.tokensCreated.length ++ u.tokensCreated.flatMap Writer.hash

def Undo.read : ByteReader Undo := do
  let spent ← readCounted readStoredCoin
  let poolsBefore ← readCounted readPoolBefore
  let tokensCreated ← readCounted ByteReader.hash
  pure ⟨spent, poolsBefore, tokensCreated⟩

/-! ## Snapshots -/

/-- `STATE_MAGIC`, "QST2". -/
def stateMagic : UInt32 := 0x32545351

/-- The defaulted order of outpoints: by txid, then by index. -/
def OutPoint.le (a b : OutPoint) : Bool :=
  a.txid.toNat < b.txid.toNat || (a.txid.toNat = b.txid.toNat && a.n ≤ b.n)

/-- A snapshot's contents, in file order. -/
structure Snapshot where
  block : Hash256
  height : UInt64
  coins : List (OutPoint × Coin)
  tokens : List TokenInfo
  pools : List Pool

def Snapshot.write (x : Snapshot) : Bytes :=
  Writer.u32le stateMagic ++ Writer.hash x.block ++ Writer.varint x.height ++
    Writer.size x.coins.length ++ x.coins.flatMap writeStoredCoin ++
    Writer.size x.tokens.length ++ x.tokens.flatMap writeToken ++
    Writer.size x.pools.length ++ x.pools.flatMap writePool

def Snapshot.readMagic : ByteReader Unit := do
  let m ← ByteReader.u32le
  if m ≠ stateMagic then throw "magic" else pure ()

def Snapshot.read : ByteReader Snapshot := do
  let _ ← Snapshot.readMagic
  let block ← ByteReader.hash
  let height ← ByteReader.varint
  let coins ← readCounted readStoredCoin
  let tokens ← readCounted readToken
  let pools ← readCounted readPool
  pure ⟨block, height, coins, tokens, pools⟩

namespace Chainstate

def allCoins (s : Chainstate) : List (OutPoint × Coin) :=
  (pairs s.utxo).insertionSort fun a b => a.1.le b.1

def allTokens (s : Chainstate) : List TokenInfo :=
  ((pairs s.tokens).map Prod.snd).insertionSort fun a b => a.id.toNat ≤ b.id.toNat

def allPools (s : Chainstate) : List Pool :=
  ((pairs s.pools).map Prod.snd).insertionSort fun a b => a.token.toNat ≤ b.token.toNat

def serializeState (s : Chainstate) : Bytes :=
  Snapshot.write ⟨s.tip, UInt64.ofNat s.height, s.allCoins, s.allTokens, s.allPools⟩

end Chainstate

variable [Crypto]

def stateHash (snap : Bytes) : Hash256 := blake3Tagged .state snap

namespace Chainstate

/-! ## The ledger maps -/

omit [Crypto] in
def addCoin (s : Chainstate) (o : OutPoint) (c : Coin) : Chainstate :=
  { s with
    utxo := s.utxo.insert o c
    byAddr := s.byAddr.insert c.out.addr (insert o ((s.byAddr.lookup c.out.addr).getD ∅))
    supply := if c.out.isQnt then s.supply + c.out.value else s.supply }

omit [Crypto] in
/-- Take an outpoint out of an address's set, and an emptied set out of the map. -/
def unlink (m : UMap Hash256 (Finset OutPoint)) (addr : Hash256) (o : OutPoint) :
    UMap Hash256 (Finset OutPoint) :=
  match m.lookup addr with
  | none => m
  | some l => if l.erase o = ∅ then m.erase addr else m.insert addr (l.erase o)

omit [Crypto] in
def spendCoin (s : Chainstate) (o : OutPoint) : Chainstate :=
  match s.utxo.lookup o with
  | none => s
  | some c =>
      { s with
        byAddr := unlink s.byAddr c.out.addr o
        supply := if c.out.isQnt then s.supply - c.out.value else s.supply
        utxo := s.utxo.erase o }

omit [Crypto] in
def dropPool (s : Chainstate) (t : Hash256) : Chainstate :=
  match s.pools.lookup t with
  | some old => { s with supply := s.supply - old.qnt, pools := s.pools.erase t }
  | none => s

omit [Crypto] in
def setPool (s : Chainstate) (t : Hash256) : Option Pool → Chainstate
  | some p =>
      { s.dropPool t with
        pools := (s.dropPool t).pools.insert t p
        supply := (s.dropPool t).supply + p.qnt }
  | none => s.dropPool t

omit [Crypto] in
def addToken (s : Chainstate) (id : Hash256) (t : TokenInfo) : Chainstate :=
  { s with tokens := s.tokens.insert id t }

omit [Crypto] in
def clearState (s : Chainstate) : Chainstate :=
  { s with utxo := ∅, byAddr := ∅, tokens := ∅, pools := ∅, supply := 0 }

def indexBlockTxs (s : Chainstate) (b : Block) (idx : Hash256) : Chainstate :=
  { s with txindex := insertAll s.txindex (b.txs.map fun t => (t.txid, idx)) }

def unindexBlockTxs (s : Chainstate) (b : Block) : Chainstate :=
  { s with txindex := (b.txs.map Transaction.txid).foldl (fun m t => m.erase t) s.txindex }

omit [Crypto] in
def reader (s : Chainstate) : StateReader :=
  ⟨fun o => s.utxo.lookup o, fun id => s.tokens.lookup id, fun t => s.pools.lookup t⟩

omit [Crypto] in
/-- The coins, tokens and pools of a snapshot, read into cleared maps. -/
def loadSnapshot (s : Chainstate) (x : Snapshot) : Chainstate :=
  let s := s.clearState
  let s := x.coins.foldl (fun s e => s.addCoin e.1 e.2) s
  let s := x.tokens.foldl (fun s t => s.addToken t.id t) s
  x.pools.foldl (fun s p =>
    { s with pools := s.pools.insert p.token p, supply := s.supply + p.qnt }) s

omit [Crypto] in
/-- `parse_state`: the block and height the snapshot is of. -/
def parseState (s : Chainstate) (b : Bytes) : Chainstate × Option (Hash256 × UInt64) :=
  match Snapshot.read b with
  | .error _ => (s.clearState, none)
  | .ok (x, rest) =>
      if rest.isEmpty then (s.loadSnapshot x, some (x.block, x.height))
      else (s.clearState, none)

/-! ## Blocks on disk -/

omit [Crypto] in
def haveWitness (s : Chainstate) (b : Hash256) : Bool := b ∈ s.disk.witness

omit [Crypto] in
/-- `read_file` of the witness file. -/
def witnessFile (cfg : Config) (s : Chainstate) (b : Hash256) : Option Bytes :=
  if cfg.env.fault s.tick (.readWitness b) then none else s.disk.witness.lookup b

omit [Crypto] in
/-- Fill in the witness of a block read from disk, if its file is there. -/
def attachWitness (cfg : Config) (s : Chainstate) (h : Hash256) (blk : Block) :
    Option (Block × Bool) :=
  match s.witnessFile cfg h with
  | none => some (blk, false)
  | some wb =>
      match blk.readWitness wb with
      | .error _ => none
      | .ok (blk, _) => some (blk, true)

/-- `read_block`; the flag says whether the witness was there. -/
def readBlock (cfg : Config) (s : Chainstate) (h : Hash256) (wantWitness : Bool) :
    Option (Block × Bool) :=
  let b := s.entry h
  let buf := (s.disk.blocks.drop b.dataPos).take b.dataLen
  if !b.haveData then none
  else if cfg.env.fault s.tick (.readCore h) ∨ buf.length ≠ b.dataLen then none
  else
    match Block.readCore buf with
    | .error _ => none
    | .ok (blk, _) =>
        if blk.header.hash ≠ b.hash then none
        else if wantWitness then s.attachWitness cfg h blk
        else some (blk, false)

omit [Crypto] in
/-- A witness is kept unless its block is already deep. -/
def keepWitness (cfg : Config) (s : Chainstate) (h : Hash256) : Bool :=
  !cfg.prune || s.bestHeader.isNone || (s.entry h).height + pruneDepth > s.bestHeaderHeight

omit [Crypto] in
/-- The position of a block in `blocks.dat`, as `blockpos.dat` records it. -/
def writePosition (h : Hash256) (pos len : Nat) : Bytes :=
  Writer.hash h ++ Writer.u64le (UInt64.ofNat pos) ++ Writer.u32le (UInt32.ofNat len)

omit [Crypto] in
/-- The state once a block is in `blocks.dat`. -/
def stored (s : Chainstate) (h : Hash256) (b : Block) (witness : Bool) : Chainstate :=
  let core := b.coreBytes
  let pos := s.disk.blocks.length
  { s.modify h fun i =>
      { i with dataPos := pos, dataLen := (UInt32.ofNat core.length).toNat, haveData := true } with
    tick := s.tick + 1
    disk := { s.disk with
      blocks := s.disk.blocks ++ core
      blockpos := s.disk.blockpos ++ writePosition h pos core.length
      witness := if witness then s.disk.witness.insert h b.witnessBytes else s.disk.witness } }

omit [Crypto] in
/-- `store_block`. What a short write leaves behind no position ever refers to;
it is left out. -/
def storeBlock (cfg : Config) (s : Chainstate) (h : Hash256) (b : Block)
    (hasWitness : Bool) : Chainstate × Bool :=
  if cfg.env.fault s.tick .writeBlock then ({ s with tick := s.tick + 1 }, false)
  else
    (s.stored h b (hasWitness && s.keepWitness cfg h && !cfg.env.fault s.tick .writeWitness),
      true)

end Chainstate

end QuantCore
