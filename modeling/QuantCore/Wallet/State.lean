import QuantCore.Chain.Storage

/-!
# The wallet

A wallet's keys, the coins it tracks and its history. The key list grows as
addresses are handed out or seen in use, and always reaches some way past them.

How a key is derived from the seed is a parameter. `keys_` is read at an index in
two places; past its end the behaviour is undefined, which is `none` where a new
address is handed out. An index found in `by_addr_` is never past the end.
-/

namespace QuantCore

structure WalletKey where
  index : UInt32
  addr : Hash256
  label : String := ""
  /-- Handed out, as opposed to lookahead only. -/
  issued : Bool := false
deriving DecidableEq, Repr, Inhabited

structure WalletCoin where
  op : OutPoint
  out : TxOut
  /-- `-1` is unconfirmed. -/
  height : Int
  coinbase : Bool
  locked : Bool
deriving DecidableEq, Repr, Inhabited

structure WalletTx where
  txid : Hash256
  height : Int
  time : Int
  /-- Net effect on the QNT balance. -/
  delta : Int
  /-- Net effect on token balances. -/
  tokenDelta : UMap Hash256 Int := ∅
  /-- Only known for our own sends. -/
  fee : Amount := 0
  /-- The first foreign output address. -/
  counterparty : Bytes := []
  note : String := ""
  coinbase : Bool
  kind : String := ""
deriving DecidableEq

instance : Inhabited WalletTx :=
  ⟨{ txid := 0, height := -1, time := 0, delta := 0, coinbase := false }⟩

structure Wallet where
  network : Network := .main
  /-- The address of the key of an index. -/
  keyAddr : UInt32 → Hash256
  keys : List WalletKey := []
  nextIndex : UInt32 := 0
  byAddr : UMap Hash256 Nat := ∅
  coins : UMap OutPoint WalletCoin := ∅
  history : UMap Hash256 WalletTx := ∅
  syncedTip : Hash256 := 0
  syncedHeight : Int := -1

namespace Wallet

/-- `LOOKAHEAD`. -/
def lookahead : UInt32 := 20

/-! ## Keys -/

def deriveNext (w : Wallet) : Wallet :=
  let index := UInt32.ofNat w.keys.length
  { w with
    keys := w.keys ++ [{ index, addr := w.keyAddr index }]
    byAddr := w.byAddr.insert (w.keyAddr index) w.keys.length }

/-- `derive_until`. -/
def deriveUntil (count : UInt32) (w : Wallet) : Wallet :=
  deriveNext^[count.toNat - w.keys.length] w

def watchedAddresses (w : Wallet) : List Hash256 := w.keys.map WalletKey.addr

def isMine (w : Wallet) (addr : Hash256) : Bool := (w.byAddr.lookup addr).isSome

/-- `new_address`, with the key it hands out: its address, and the wallet. -/
def issueKey (w : Wallet) (label : String) : Option (Hash256 × Wallet) :=
  let w := deriveUntil (w.nextIndex + 1 + lookahead) w
  match w.keys[w.nextIndex.toNat]? with
  | none => none
  | some k =>
      some (k.addr, { w with
        keys := w.keys.set w.nextIndex.toNat { k with issued := true, label }
        nextIndex := w.nextIndex + 1 })

def setLabel (w : Wallet) (addr : Hash256) (label : String) : Wallet :=
  match w.byAddr.lookup addr with
  | none => w
  | some i => { w with keys := w.keys.set i { w.keys.getD i default with label } }

/-- What seeing a coin does to the key it is at. -/
def markIssued (k : WalletKey) : WalletKey :=
  if k.issued then k
  else { k with issued := true, label := if k.label = "" then "restored" else k.label }

/-! ## Coins and history -/

def addCoin (w : Wallet) (c : WalletCoin) : Wallet :=
  let w := { w with coins := w.coins.insert c.op c }
  match w.byAddr.lookup c.out.addr with
  | none => w
  | some i =>
      let k := markIssued (w.keys.getD i default)
      let next := if k.index ≥ w.nextIndex then k.index + 1 else w.nextIndex
      deriveUntil (next + lookahead) { w with keys := w.keys.set i k, nextIndex := next }

def removeCoin (w : Wallet) (o : OutPoint) : Wallet := { w with coins := w.coins.erase o }

def replaceCoins (w : Wallet) (coins : List WalletCoin) : Wallet :=
  coins.foldl addCoin { w with coins := ∅ }

def recordTx (w : Wallet) (t : WalletTx) : Wallet :=
  { w with history := w.history.insert t.txid t }

end Wallet

end QuantCore
