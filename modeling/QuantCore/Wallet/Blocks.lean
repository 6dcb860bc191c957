import QuantCore.Wallet.State

/-!
# Blocks and transactions as the wallet sees them

`process_tx` moves coins and writes a history entry. What it writes is read off
the coins the wallet holds at that moment: an input counts only if its coin is
there, and the coin is gone, or locked, afterwards. A block that is taken back
unmarks its entries and drops those of its coinbase; it gives back no coin.

Amounts of a history entry are signed 64-bit words, and wrap.
-/

namespace QuantCore

/-- The signed 64-bit word of an integer. -/
def wrap64 (i : Int) : Int := Int.bmod i (2 ^ 64)

/-- `std::map<Hash256, int64_t>`, an absent key counting as zero. -/
abbrev Deltas := UMap Hash256 Int

namespace Deltas

def get (d : Deltas) (a : Hash256) : Int := (d.lookup a).getD 0

def add (d : Deltas) (a : Hash256) (v : Int) : Deltas := d.insert a (wrap64 (d.get a + v))

/-- The entries of tokens that are not zero. -/
def tokens (d : Deltas) : Deltas :=
  (Maps.pairs d).foldl (fun m e => if !e.1.isZero && e.2 != 0 then m.insert e.1 e.2 else m) ∅

end Deltas

/-- What `process_tx` has found so far. -/
structure TxEffect where
  delta : Deltas := ∅
  qntIn : Amount := 0
  any : Bool := false
  allOurs : Bool
  counterparty : Bytes := []

/-- What an op makes of the kind of an entry. -/
def nextKind (kind : String) : TxOp → String
  | .message m =>
      if kind = "" ∨ kind = "send" ∨ kind = "receive" then
        (if m.gift ≠ 0 then "gift" else "message")
      else kind
  | .createToken _ => "token-create"
  | .swap _ => "swap"
  | .poolCreate _ => "liquidity"
  | .addLiquidity _ => "liquidity"
  | .removeLiquidity _ => "liquidity"

/-- The QNT an op releases, less what it absorbs. -/
def opQnt : TxOp → Int
  | .swap s => if s.sell then int64 s.amountOut else -int64 s.amountIn
  | .poolCreate p => -int64 p.qnt
  | .addLiquidity a => -int64 a.qnt
  | .removeLiquidity r => int64 r.qnt
  | .createToken _ => 0
  | .message _ => 0

def opsQnt (ops : List TxOp) : Int := ops.foldl (fun q op => wrap64 (q + opQnt op)) 0

/-- The fee of a transaction all of whose inputs are ours: what went in less
what came out, if that is positive. -/
def ownFee (qntIn : Amount) (tx : Transaction) : Amount :=
  let f := wrap64 (wrap64 (int64 qntIn + opsQnt tx.ops) - int64 tx.totalQntOut)
  if f > 0 then UInt64.ofNat f.toNat else 0

/-- The history entry of a transaction, over the one there was. -/
def WalletTx.update (old : Option WalletTx) (txid : Hash256) (tx : Transaction)
    (height time : Int) (e : TxEffect) : WalletTx :=
  let t := old.getD default
  { t with
    txid
    height
    time := if t.txid.isZero then time else t.time
    delta := e.delta.get qntAsset
    tokenDelta := e.delta.tokens
    coinbase := tx.isCoinbase
    counterparty := if e.counterparty.isEmpty then t.counterparty else e.counterparty
    kind := tx.ops.foldl nextKind t.kind
    fee := if e.allOurs ∧ e.qntIn > 0 then ownFee e.qntIn tx else t.fee }

variable [Crypto]

namespace Wallet

def params (w : Wallet) : ChainParams := paramsFor w.network

def addressString (w : Wallet) (addr : Hash256) : Bytes := encodeAddress w.params 0 addr

omit [Crypto] in
/-- A round of the input loop: our coin is spent, or locked while unconfirmed. -/
def takeInput (height : Int) (s : Wallet × TxEffect) (i : TxIn) : Wallet × TxEffect :=
  match s.1.coins.lookup i.prev with
  | none => (s.1, { s.2 with allOurs := false })
  | some c =>
      ({ s.1 with coins :=
          if height < 0 then s.1.coins.insert i.prev { c with locked := true }
          else s.1.coins.erase i.prev },
        { s.2 with
          any := true
          delta := s.2.delta.add c.out.asset (-int64 c.out.value)
          qntIn := if c.out.isQnt then s.2.qntIn + c.out.value else s.2.qntIn })

/-- A round of the output loop, for the output of index `n`. -/
def takeOutput (txid : Hash256) (height : Int) (coinbase : Bool) (s : Wallet × TxEffect)
    (o : TxOut × Nat) : Wallet × TxEffect :=
  if s.1.isMine o.1.addr then
    (s.1.addCoin ⟨⟨txid, UInt32.ofNat o.2⟩, o.1, height, coinbase, false⟩,
      { s.2 with any := true, delta := s.2.delta.add o.1.asset (int64 o.1.value) })
  else
    (s.1, { s.2 with
      counterparty :=
        if s.2.counterparty.isEmpty then s.1.addressString o.1.addr else s.2.counterparty })

/-- Both loops of `process_tx`. -/
def scanTx (w : Wallet) (tx : Transaction) (height : Int) : Wallet × TxEffect :=
  let s := tx.ins.foldl (takeInput height) (w, { allOurs := !tx.isCoinbase })
  tx.outs.zipIdx.foldl (takeOutput tx.txid height tx.isCoinbase) s

def processTx (w : Wallet) (tx : Transaction) (height time : Int) : Wallet :=
  let (w, e) := w.scanTx tx height
  if !e.any then w
  else
    let t := WalletTx.update (w.history.lookup tx.txid) tx.txid tx height time e
    { w with history := w.history.insert tx.txid t }

def blockConnected (w : Wallet) (b : Block) (height : Int) : Wallet :=
  { b.txs.foldl (fun w tx => w.processTx tx height (int64 b.header.time)) w with
    syncedTip := b.header.hash
    syncedHeight := height }

/-- An orphaned reward is gone for good; any other entry is unconfirmed again. -/
def unconfirmTx (w : Wallet) (tx : Transaction) : Wallet :=
  match w.history.lookup tx.txid with
  | none => w
  | some t =>
      { w with history :=
          if tx.isCoinbase then w.history.erase tx.txid
          else w.history.insert tx.txid { t with height := -1 } }

def blockDisconnected (w : Wallet) (b : Block) (height : Int) : Wallet :=
  { b.txs.foldl unconfirmTx w with
    syncedTip := b.header.prev
    syncedHeight := height - 1 }

/-- `tx_broadcast`, at the time `now`. -/
def txBroadcast (w : Wallet) (tx : Transaction) (note : String) (now : Int) : Wallet :=
  let w := w.processTx tx (-1) now
  match w.history.lookup tx.txid with
  | none => w
  | some t =>
      if note = "" then w
      else { w with history := w.history.insert tx.txid { t with note } }

omit [Crypto] in
/-- Forget what never confirmed, and unlock what it spent. -/
def abandonUnconfirmed (w : Wallet) : Wallet :=
  { w with
    coins := (Maps.pairs w.coins).foldl (fun m e =>
      if e.2.height < 0 then m else m.insert e.1 { e.2 with locked := false }) ∅
    history := (Maps.pairs w.history).foldl (fun m e =>
      if e.2.height < 0 then m else m.insert e.1 e.2) ∅ }

end Wallet

end QuantCore
