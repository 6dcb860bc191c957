import QuantCore.Consensus.LedgerView
import QuantCore.Primitives.Block
import Mathlib.Logic.Function.Basic

/-!
# The ledger without overlays

What `LedgerView` and the chainstate's replay of it are for, said on plain
maps. A state is a `StateReader`, three total functions, and every effect is an
update of one of them at the moment it happens: an input is removed as it is
read, an op changes its pool in place, a token exists from the op that creates
it on. There is no scratch copy, no record of what was spent and no
commit; a transaction that fails simply has no successor state.

The six ops are described by three functions: the pool an op works on and what
it does to it (`poolStep`), and what it adds to either side of the balance
(`released`, `absorbed`).
-/

namespace QuantCore

namespace StateReader

def spend (s : StateReader) (o : OutPoint) : StateReader :=
  { s with coin := Function.update s.coin o none }

def addCoin (s : StateReader) (o : OutPoint) (c : Coin) : StateReader :=
  { s with coin := Function.update s.coin o (some c) }

def addCoins (s : StateReader) (coins : List (OutPoint × Coin)) : StateReader :=
  coins.foldl (fun s e => s.addCoin e.1 e.2) s

def mint (s : StateReader) (id : Hash256) (t : TokenInfo) : StateReader :=
  { s with token := Function.update s.token id (some t) }

def setPool (s : StateReader) (t : Hash256) (p : Pool) : StateReader :=
  { s with pool := Function.update s.pool t (some p) }

/-- No coins, no tokens, no pools. -/
def empty : StateReader := ⟨fun _ => none, fun _ => none, fun _ => none⟩

end StateReader

/-! ## Ops -/

/-- The pool an op works on. -/
def TxOp.poolToken : TxOp → Option Hash256
  | .createToken _ => none
  | .poolCreate p => some p.token
  | .addLiquidity a => some a.token
  | .removeLiquidity r => some r.token
  | .swap s => some s.token
  | .message _ => none

/-- A pool op on the pool it finds; `known` says whether the token exists. -/
def poolStep (known : Bool) : TxOp → Option Pool → Except String Pool
  | .poolCreate p, old =>
      if !known then .error "unknown-token"
      else if old.isSome then .error "pool-exists"
      else if p.qnt > maxMoney then .error "pool-too-large"
      else if ammInitialShares p.qnt p.tok ≤ minLiquidity ∨
          p.shares > ammInitialShares p.qnt p.tok - minLiquidity then
        .error "pool-shares-too-high"
      else .ok ⟨p.token, p.qnt, p.tok, p.shares + minLiquidity⟩
  | _, none => .error "no-pool"
  | .addLiquidity a, some pl =>
      if a.shares > ammAddShares pl a.qnt a.tok then .error "liquidity-shares-too-high"
      else if pl.qnt.toNat + a.qnt.toNat > maxMoney.toNat ∨
          pl.tok.toNat + a.tok.toNat > maxTokenSupply.toNat ∨
          pl.shares.toNat + a.shares.toNat > maxTokenSupply.toNat then
        .error "pool-too-large"
      else
        .ok { pl with
          qnt := pl.qnt + a.qnt, tok := pl.tok + a.tok, shares := pl.shares + a.shares }
  | .removeLiquidity r, some pl =>
      if r.shares > pl.shares - minLiquidity then .error "remove-too-many-shares"
      else if r.qnt > (ammRemoveAmounts pl r.shares).1 ∨
          r.tok > (ammRemoveAmounts pl r.shares).2 then
        .error "remove-amounts-too-high"
      else
        .ok { pl with
          qnt := pl.qnt - r.qnt, tok := pl.tok - r.tok, shares := pl.shares - r.shares }
  | .swap s, some pl =>
      if s.sell then
        if s.amountOut ≥ pl.qnt ∨ s.amountOut > ammQuote s.amountIn pl.tok pl.qnt then
          .error "swap-price-moved"
        else if pl.tok.toNat + s.amountIn.toNat > maxTokenSupply.toNat then
          .error "pool-too-large"
        else .ok { pl with tok := pl.tok + s.amountIn, qnt := pl.qnt - s.amountOut }
      else
        if s.amountOut ≥ pl.tok ∨ s.amountOut > ammQuote s.amountIn pl.qnt pl.tok then
          .error "swap-price-moved"
        else if pl.qnt.toNat + s.amountIn.toNat > maxMoney.toNat then
          .error "pool-too-large"
        else .ok { pl with qnt := pl.qnt + s.amountIn, tok := pl.tok - s.amountOut }
  | _, some pl => .ok pl

variable [Crypto]

/-- What an op adds to the inputs' side of the balance. `id` is the id of the
token the op creates, if it creates one. -/
def TxOp.released (id : Hash256) : TxOp → List (Hash256 × Nat)
  | .createToken c => [(id, c.supply.toNat)]
  | .poolCreate p => [(poolShareId p.token, p.shares.toNat)]
  | .addLiquidity a => [(poolShareId a.token, a.shares.toNat)]
  | .removeLiquidity r => [(qntAsset, r.qnt.toNat), (r.token, r.tok.toNat)]
  | .swap s => [(if s.sell then qntAsset else s.token, s.amountOut.toNat)]
  | .message _ => []

/-- What an op adds to the outputs' side. -/
def TxOp.absorbed : TxOp → List (Hash256 × Nat)
  | .createToken _ => []
  | .poolCreate p => [(qntAsset, p.qnt.toNat), (p.token, p.tok.toNat)]
  | .addLiquidity a => [(qntAsset, a.qnt.toNat), (a.token, a.tok.toNat)]
  | .removeLiquidity r => [(poolShareId r.token, r.shares.toNat)]
  | .swap s => [(if s.sell then s.token else qntAsset, s.amountIn.toNat)]
  | .message _ => []

def Flows.addAll (f : Flows) (l : List (Hash256 × Nat)) : Flows :=
  l.foldl (fun f e => f.add e.1 e.2) f

/-- A state in the middle of a transaction, with the flows so far. -/
structure RefState where
  state : StateReader
  plus : Flows
  minus : Flows

namespace RefState

/-- Read the inputs one after another, each from what the ones before left. -/
def inputs (height : UInt64) (genesis : Hash256) :
    List TxIn → RefState → List Coin → Except String (List Coin × RefState)
  | [], s, coins => .ok (coins, s)
  | i :: rest, s, coins =>
      match s.state.coin i.prev with
      | none => .error "missing-or-spent-input"
      | some c =>
          if c.coinbase ∧ height < c.height + UInt64.ofNat (maturityForGenesis genesis) then
            .error "immature-coinbase"
          else
            inputs height genesis rest
              { s with
                state := s.state.spend i.prev
                plus := s.plus.add c.out.asset c.out.value.toNat }
              (coins ++ [c])

/-- Record the flows of an op that left the state `t`. -/
def flow (s : RefState) (t : StateReader) (id : Hash256) (op : TxOp) : RefState :=
  ⟨t, s.plus.addAll (op.released id), s.minus.addAll op.absorbed⟩

def op (tx : Transaction) (height : UInt64) (coins : List Coin) (i : UInt32)
    (s : RefState) (o : TxOp) : Except String RefState :=
  let id := tokenId (tx.ins.headD default).prev i
  match o with
  | .createToken c =>
      if (s.state.token id).isSome then .error "token-exists"
      else
        .ok (s.flow (s.state.mint id
          ⟨id, c.ticker, c.name, c.uri, c.decimals, c.supply, tx.txid, height⟩) id o)
  | .message m =>
      if coins.any fun c => c.out.addr == m.sender then .ok (s.flow s.state id o)
      else .error "message-from-not-input"
  | o =>
      let t := o.poolToken.getD 0
      match poolStep (s.state.token t).isSome o (s.state.pool t) with
      | .error e => .error e
      | .ok p => .ok (s.flow (s.state.setPool t p) id o)

def ops (tx : Transaction) (height : UInt64) (coins : List Coin) :
    UInt32 → List TxOp → RefState → Except String RefState
  | _, [], s => .ok s
  | i, o :: rest, s =>
      match s.op tx height coins i o with
      | .error e => .error e
      | .ok s' => ops tx height coins (i + 1) rest s'

end RefState

namespace StateReader

/-- The state after a transaction, and its fee. -/
def step (s : StateReader) (tx : Transaction) (height : UInt64) (genesis : Hash256)
    (verifySigs : Bool) : Except String (StateReader × Amount) :=
  if tx.isCoinbase then .error "coinbase-in-apply"
  else if tx.lockHeight > height then .error "locked"
  else
    match RefState.inputs height genesis tx.ins ⟨s, ∅, ∅⟩ [] with
    | .error e => .error e
    | .ok (coins, r) =>
      match RefState.ops tx height coins 0 tx.ops
          { r with minus := Flows.addAll ∅ (tx.outs.map fun o => (o.asset, o.value.toNat)) } with
      | .error e => .error e
      | .ok r =>
        match balance r.plus r.minus (flowAssets r.plus r.minus) 0 with
        | .error e => .error e
        | .ok fee =>
          match if verifySigs then verifyWitness tx coins genesis else .ok () with
          | .error e => .error e
          | .ok () => .ok (r.state.addCoins (newCoins tx.txid tx.outs height false), fee)

/-- `step` as a total operation: a refused transaction changes nothing. -/
def apply (s : StateReader) (tx : Transaction) (height : UInt64) (genesis : Hash256)
    (verifySigs : Bool) : StateReader × TxResult :=
  match s.step tx height genesis verifySigs with
  | .error e => (s, .error e)
  | .ok (s', fee) => (s', .ok fee)

def applyCoinbase (s : StateReader) (tx : Transaction) (height : UInt64) : StateReader :=
  s.addCoins (newCoins tx.txid tx.outs height true)

end StateReader

/-! ## Lists of transactions -/

/-- One call on a view: a coinbase, or any other transaction. -/
inductive LedgerAct
  | coinbase (tx : Transaction) (height : UInt64)
  | apply (tx : Transaction) (height : UInt64) (verifySigs : Bool)

omit [Crypto] in
def LedgerAct.tx : LedgerAct → Transaction
  | .coinbase tx _ => tx
  | .apply tx _ _ => tx

omit [Crypto] in
/-- What an accepted call consumes. -/
def LedgerAct.inputs : LedgerAct → List OutPoint
  | .coinbase _ _ => []
  | .apply tx _ _ => tx.ins.map TxIn.prev

/-- What an accepted call creates. -/
def LedgerAct.outputs : LedgerAct → List (OutPoint × Coin)
  | .coinbase tx height => newCoins tx.txid tx.outs height true
  | .apply tx height _ => newCoins tx.txid tx.outs height false

def StateReader.act (genesis : Hash256) (s : StateReader) :
    LedgerAct → StateReader × TxResult
  | .coinbase tx height => (s.applyCoinbase tx height, .ok 0)
  | .apply tx height verifySigs => s.apply tx height genesis verifySigs

def LedgerView.act (genesis : Hash256) (v : LedgerView) :
    LedgerAct → LedgerView × TxResult
  | .coinbase tx height => (v.applyCoinbase tx height, .ok 0)
  | .apply tx height verifySigs => v.apply tx height genesis verifySigs

/-- The calls in order, with the verdict of each. -/
def StateReader.run (genesis : Hash256) :
    StateReader → List LedgerAct → StateReader × List TxResult
  | s, [] => (s, [])
  | s, a :: rest =>
      let (s', r) := s.act genesis a
      let (s'', rs) := run genesis s' rest
      (s'', r :: rs)

def LedgerView.run (genesis : Hash256) :
    LedgerView → List LedgerAct → LedgerView × List TxResult
  | v, [] => (v, [])
  | v, a :: rest =>
      let (v', r) := v.act genesis a
      let (v'', rs) := run genesis v' rest
      (v'', r :: rs)

omit [Crypto] in
/-- Everything the accepted calls of a list consumed, in order. -/
def consumed : List LedgerAct → List TxResult → List OutPoint
  | a :: rest, .ok _ :: rs => a.inputs ++ consumed rest rs
  | _ :: rest, .error _ :: rs => consumed rest rs
  | _, _ => []

/-- Everything they created. -/
def created : List LedgerAct → List TxResult → List OutPoint
  | a :: rest, .ok _ :: rs => a.outputs.map Prod.fst ++ created rest rs
  | _ :: rest, .error _ :: rs => created rest rs
  | _, _ => []

omit [Crypto] in
/-- The calls `connect_block` makes for a block. -/
def blockActs (b : Block) (height : UInt64) (verify : Bool) : List LedgerAct :=
  .coinbase (b.txs.headD default) height ::
    b.txs.tail.map fun tx => .apply tx height verify

namespace StateReader

/-- The transactions after a block's coinbase, with the fees so far. -/
def txs (height : UInt64) (genesis : Hash256) (verify : Bool) :
    StateReader → List Transaction → Amount → Except String (StateReader × Amount)
  | s, [], fees => .ok (s, fees)
  | s, tx :: rest, fees =>
      match s.step tx height genesis verify with
      | .error r => .error ("tx " ++ tx.txid.shortHex ++ ": " ++ r)
      | .ok (s', fee) => txs height genesis verify s' rest (fees + fee)

/-- The state after a block at `height`. -/
def block (s : StateReader) (b : Block) (height : Nat) (genesis : Hash256)
    (verify : Bool) : Except String StateReader :=
  let h := UInt64.ofNat height
  match txs h genesis verify (s.applyCoinbase (b.txs.headD default) h) b.txs.tail 0 with
  | .error e => .error e
  | .ok (s', fees) =>
      if height > 0 ∧ (b.txs.headD default).totalQntOut > blockSubsidy h + fees then
        .error "coinbase-pays-too-much"
      else .ok s'

end StateReader

end QuantCore
