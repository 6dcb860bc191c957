import QuantCore.Light.Headers
import QuantCore.Wallet.State

/-!
# The light client's wallet

`refresh_wallet`. The client asks every peer for the coins of the watched
addresses, keeps those it can check against its own headers, and hands the list
to `replace_coins`. A coin at an address not yet handed out lengthens the key
list, so it asks again until the list stays as it is.
-/

namespace QuantCore

open Codec

/-! ## Checking a reply -/

/-- The variables of a round of `refresh_wallet`. Of the replies the source only
counts, in `answered`, how many there were. -/
structure Scan where
  answered : List Bytes := []
  coins : UMap OutPoint WalletCoin := ∅
  pendingSpent : List OutPoint := []
  /-- Height and amount of a payment. -/
  received : UMap Hash256 (Nat × Amount) := ∅
  coinbaseTx : List Hash256 := []

namespace Scan

/-- A coin that was checked, unless its outpoint is there already. -/
def addChecked (s : Scan) (height : Nat) (coin : WalletCoin) : Scan :=
  if s.coins.lookup coin.op = none then
    let received := ((s.received.lookup coin.op.txid).getD (0, 0)).2 + coin.out.value
    { s with
      coins := s.coins.insert coin.op coin
      received := s.received.insert coin.op.txid (height, received)
      coinbaseTx := if coin.coinbase then coin.op.txid :: s.coinbaseTx else s.coinbaseTx }
  else s

/-- A section of a reply: a count, and that many items. An item that does not
parse ends the reply; what the items before it did stays done. -/
def takeMany (item : Bytes → Scan → Scan × Option Bytes) :
    Nat → Bytes → Scan → Scan × Option Bytes
  | 0, bs, s => (s, some bs)
  | k + 1, bs, s =>
      match item bs s with
      | (s, none) => (s, none)
      | (s, some bs) => takeMany item k bs s

def takeSection (item : Bytes → Scan → Scan × Option Bytes) (bs : Bytes) (s : Scan) :
    Scan × Option Bytes :=
  match ByteReader.varintMax (UInt64.ofNat maxUtxoEntries) bs with
  | .error _ => (s, none)
  | .ok (n, bs) => takeMany item n.toNat bs s

/-- A spent outpoint of the peer's mempool. -/
def takeSpent (bs : Bytes) (s : Scan) : Scan × Option Bytes :=
  match readUtxoOp bs with
  | .error _ => (s, none)
  | .ok (o, bs) => ({ s with pendingSpent := o :: s.pendingSpent }, some bs)

/-- An output of the peer's mempool. -/
def takeUnconfirmed (w : Wallet) (bs : Bytes) (s : Scan) : Scan × Option Bytes :=
  match (do let o ← readUtxoOp; let out ← readTxOut; pure (o, out) :
      ByteReader (OutPoint × TxOut)) bs with
  | .error _ => (s, none)
  | .ok ((o, out), bs) =>
      if w.isMine out.addr && (s.coins.lookup o).isNone then
        ({ s with coins := s.coins.insert o ⟨o, out, -1, false, false⟩ }, some bs)
      else (s, some bs)

end Scan

namespace LightClient

/-- `height_of`: of two headers with one hash, the later. -/
def heightOf (c : LightClient) : UMap Hash256 Nat :=
  Maps.insertAll ∅ ((List.range c.headers.length).map fun h => (c.hashes.getD h 0, h))

variable [Crypto]

omit [Crypto] in
/-- The checks of the output a proof names in its transaction. -/
def checkOutput (w : Wallet) (u : UtxoProof) (h : Nat) (tx : Transaction) :
    Option (Nat × WalletCoin) :=
  match tx.outs[u.op.n.toNat]? with
  | none => none
  | some o =>
      if o.value ≠ u.coin.out.value ∨ o.addr ≠ u.coin.out.addr ∨ w.isMine o.addr = false then none
      else if tx.isCoinbase ≠ u.coin.coinbase then none
      else some (h, ⟨u.op, o, h, tx.isCoinbase, false⟩)

/-- The checks of one proof: the coin it proves, if it proves one, or the error
of a transaction that does not parse. -/
def checkProof (c : LightClient) (w : Wallet) (u : UtxoProof) :
    Except String (Option (Nat × WalletCoin)) :=
  match c.heightOf.lookup u.block with
  | none => .ok none
  | some h =>
      if (h : Int) ≠ int64 u.coin.height then .ok none
      else if blake3Tagged .txid u.txCore ≠ u.op.txid then .ok none
      else if !merkleVerify (blake3Tagged .txid u.txCore) u.txIndex.toNat u.txCount.toNat
          u.merkle (c.headers.getD h default).merkleRoot then .ok none
      else (Transaction.readCore u.txCore).map fun x => checkOutput w u h x.1

def takeProof (c : LightClient) (w : Wallet) (bs : Bytes) (s : Scan) : Scan × Option Bytes :=
  match UtxoProof.read bs with
  | .error _ => (s, none)
  | .ok (u, bs) =>
      match c.checkProof w u with
      | .error _ => (s, none)
      | .ok none => (s, some bs)
      | .ok (some (h, coin)) => (s.addChecked h coin, some bs)

/-- The fields before the sections: the peer's height and tip. -/
def readUtxosHead : ByteReader Unit := do
  let _ ← ByteReader.u64le
  let _ ← ByteReader.hash
  pure ()

def readUtxos (c : LightClient) (w : Wallet) (reply : Bytes) (s : Scan) : Scan :=
  match readUtxosHead reply with
  | .error _ => s
  | .ok ((), bs) =>
      match Scan.takeSection (c.takeProof w) bs s with
      | (s, none) => s
      | (s, some bs) =>
          match Scan.takeSection Scan.takeSpent bs s with
          | (s, none) => s
          | (s, some bs) => (Scan.takeSection (Scan.takeUnconfirmed w) bs s).1

/-! ## Asking the peers -/

/-- The addresses of each request to a peer. -/
def utxoRequests (addrs : List Hash256) : List (List Hash256) :=
  (List.range ((addrs.length + maxUtxoAddrs - 1) / maxUtxoAddrs)).map fun i =>
    (addrs.drop (maxUtxoAddrs * i)).take maxUtxoAddrs

/-- The requests to one peer, up to the first it does not answer. -/
def askPeer (c : LightClient) (w : Wallet) (peer : LightPeer) :
    List (List Hash256) → Scan × Nat → Scan × Nat
  | [], st => st
  | addrs :: rest, (s, tick) =>
      match peer.exchange tick .getUtxos (writeGetUtxos addrs) with
      | none => (s, tick + 1)
      | some reply =>
          askPeer c w peer rest
            (c.readUtxos w reply { s with answered := s.answered ++ [reply] }, tick + 1)

def scanPeers (c : LightClient) (peers : List LightPeer) (w : Wallet) (tick : Nat) :
    Scan × Nat :=
  peers.foldl (fun st peer => c.askPeer w peer (utxoRequests w.watchedAddresses) st) ({}, tick)

/-! ## Handing over -/

/-- What is handed to `replace_coins`, in the order of the outpoints. -/
def scannedCoins (s : Scan) : List WalletCoin :=
  ((Maps.pairs s.coins).insertionSort fun a b => a.1.le b.1).map fun e =>
    { e.2 with locked := s.pendingSpent.contains e.1 }

/-- The history entry of a payment: new, or a send of our own that confirmed. -/
def recordReceived (c : LightClient) (s : Scan) (byId : UMap Hash256 WalletTx) (w : Wallet)
    (e : Hash256 × Nat × Amount) : Wallet :=
  match byId.lookup e.1 with
  | none =>
      w.recordTx
        { txid := e.1, height := e.2.1, time := int64 (c.headers.getD e.2.1 default).time
          delta := int64 e.2.2, coinbase := s.coinbaseTx.contains e.1 }
  | some t => if t.height < 0 then w.recordTx { t with height := e.2.1 } else w

def finishScan (c : LightClient) (w : Wallet) (s : Scan) : Wallet :=
  let w := w.replaceCoins (scannedCoins s)
  let received := (Maps.pairs s.received).insertionSort fun a b => a.1.toNat ≤ b.1.toNat
  received.foldl (c.recordReceived s w.history) w

/-- The rounds in which a peer answered, and whether the last round did. -/
def refreshRounds (c : LightClient) (peers : List LightPeer) :
    Nat → Wallet → Nat → List (Scan × Wallet) × Nat × Bool
  | 0, _, tick => ([], tick, true)
  | k + 1, w, tick =>
      let (s, tick) := c.scanPeers peers w tick
      if s.answered.isEmpty then ([], tick, false)
      else
        let w' := c.finishScan w s
        if w'.watchedAddresses.length = w.watchedAddresses.length then ([(s, w')], tick, true)
        else
          let (rounds, tick, ok) := refreshRounds c peers k w' tick
          ((s, w') :: rounds, tick, ok)

/-- The bound of the loop of `refresh_wallet`. -/
def maxRefreshRounds : Nat := 8

def refreshWallet (c : LightClient) (peers : List LightPeer) (w : Wallet) :
    LightClient × Wallet × Except String Unit :=
  if peers.isEmpty then (c, w, .error "not connected")
  else
    let (rounds, tick, ok) := c.refreshRounds peers maxRefreshRounds w c.tick
    let w := (rounds.getLast?.map Prod.snd).getD w
    if ok then
      ({ c with tick }, { w with syncedHeight := c.height, syncedTip := c.tipHash }, .ok ())
    else ({ c with tick }, w, .error "no peer answered")

end LightClient

end QuantCore
