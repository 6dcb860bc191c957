import QuantCore.Wallet.Build

/-!
# What happens to a wallet

A wallet is made from a seed or read from a file, and from there its public
calls are all that changes it. The seven calls that build a transaction are one
step here, a `Request`; they change the wallet only by handing out addresses.

Of a file's contents, what `deserialize` reads is taken as it is: keys, coins
and history entries in any number and of any value.
-/

namespace QuantCore

variable [Crypto]

/-- A call that builds a transaction, with its arguments. -/
inductive Request
  | createTx (dests : List Wallet.Dest) (subtractFee : Bool)
  | createSweep (address : Bytes)
  | createToken (t : OpCreateToken)
  | sendMessage (recipient : Hash256) (text : Bytes) (gift : UInt8)
  | swap (token : Hash256) (sell : Bool) (amountIn minOut : Amount)
  | addLiquidity (token : Hash256) (qnt tok : Amount) (pool : Option Pool)
  | removeLiquidity (token : Hash256) (shares : Amount) (pool : Pool)

namespace Wallet

omit [Crypto] in
/-- A call's result without what it returns besides the transaction and fee. -/
def txAndFee {α : Type} (r : Result (Transaction × Amount × α)) : Result (Transaction × Amount) :=
  r.map fun x => (x.1.map fun y => (y.1, y.2.1), x.2)

def request (w : Wallet) (signer : Signer) (r : Request) (tip : Int) (feePerKb : Amount) :
    Result (Transaction × Amount) :=
  match r with
  | .createTx dests subtractFee => w.createTx signer dests subtractFee tip feePerKb
  | .createSweep address => w.createSweep signer address tip feePerKb
  | .createToken t => txAndFee (w.createToken signer t tip feePerKb)
  | .sendMessage recipient text gift => w.sendMessage signer recipient text gift tip feePerKb
  | .swap token sell amountIn minOut => w.swap signer token sell amountIn minOut tip feePerKb
  | .addLiquidity token qnt tok pool =>
      txAndFee (w.addLiquidity signer token qnt tok pool tip feePerKb)
  | .removeLiquidity token shares pool =>
      txAndFee (w.removeLiquidity signer token shares pool tip feePerKb)

/-- `create`, up to writing the file: `none` as for any new address. -/
def create (network : Network) (keyAddr : UInt32 → Hash256) : Option Wallet :=
  (issueKey (deriveUntil lookahead { network, keyAddr }) "default").map Prod.snd

omit [Crypto] in
/-- What `deserialize` makes of the entries of a file. -/
def load (network : Network) (keyAddr : UInt32 → Hash256) (keys : List WalletKey)
    (nextIndex : UInt32) (coins : List WalletCoin) (history : List WalletTx)
    (syncedTip : Hash256) (syncedHeight : Int) : Wallet :=
  { network, keyAddr, keys, nextIndex, syncedTip, syncedHeight
    byAddr := keys.zipIdx.foldl (fun m k => m.insert k.1.addr k.2) ∅
    coins := coins.foldl (fun m c => m.insert c.op c) ∅
    history := history.foldl (fun m t => m.insert t.txid t) ∅ }

/-- A public call that returned. -/
inductive Step : Wallet → Wallet → Prop
  | newAddress {w w' : Wallet} {label : String} {a : Hash256}
      (h : w.issueKey label = some (a, w')) : Step w w'
  | setLabel (w : Wallet) (addr : Hash256) (label : String) : Step w (w.setLabel addr label)
  | addCoin (w : Wallet) (c : WalletCoin) : Step w (w.addCoin c)
  | removeCoin (w : Wallet) (o : OutPoint) : Step w (w.removeCoin o)
  | replaceCoins (w : Wallet) (coins : List WalletCoin) : Step w (w.replaceCoins coins)
  | recordTx (w : Wallet) (t : WalletTx) : Step w (w.recordTx t)
  | blockConnected (w : Wallet) (b : Block) (height : Int) : Step w (w.blockConnected b height)
  | blockDisconnected (w : Wallet) (b : Block) (height : Int) :
      Step w (w.blockDisconnected b height)
  | txBroadcast (w : Wallet) (tx : Transaction) (note : String) (now : Int) :
      Step w (w.txBroadcast tx note now)
  | abandonUnconfirmed (w : Wallet) : Step w w.abandonUnconfirmed
  | request {w w' : Wallet} {signer : Signer} {r : Request} {tip : Int} {feePerKb : Amount}
      {res : Except String (Transaction × Amount)}
      (h : w.request signer r tip feePerKb = some (res, w')) : Step w w'
  /-- `synced_tip` and `synced_height` are public fields. -/
  | synced (w : Wallet) (syncedTip : Hash256) (syncedHeight : Int) :
      Step w { w with syncedTip, syncedHeight }

inductive Reachable : Wallet → Prop
  | created {network : Network} {keyAddr : UInt32 → Hash256} {w : Wallet}
      (h : create network keyAddr = some w) : Reachable w
  | opened (network : Network) (keyAddr : UInt32 → Hash256) (keys : List WalletKey)
      (nextIndex : UInt32) (coins : List WalletCoin) (history : List WalletTx)
      (syncedTip : Hash256) (syncedHeight : Int) :
      Reachable (load network keyAddr keys nextIndex coins history syncedTip syncedHeight)
  | step {w w' : Wallet} (hw : Reachable w) (h : Step w w') : Reachable w'

end Wallet

end QuantCore
