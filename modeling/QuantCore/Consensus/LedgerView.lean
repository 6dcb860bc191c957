import QuantCore.Consensus.Ledger

/-!
# The overlay

`LedgerView` of `consensus/ledger.h`: six maps over a base `StateReader`. A
transaction is checked against the view as it stands and only then written, so
the writes below never fail. The source dereferences two optionals there, the
base's coin behind a spent input and the scratch copy of a touched pool; the
model takes the default where one would be empty, and that none ever is empty
is a theorem about the overlay.
-/

namespace QuantCore

open Maps

structure LedgerView where
  base : StateReader
  created : UMap OutPoint Coin := ∅
  /-- Created here, then spent here. -/
  spentCreated : Finset OutPoint := ∅
  spentBase : UMap OutPoint Coin := ∅
  tokens : UMap Hash256 TokenInfo := ∅
  pools : UMap Hash256 Pool := ∅
  /-- Pools as the base had them before the view touched them. -/
  poolsBefore : UMap Hash256 (Option Pool) := ∅

namespace LedgerView

def coin (v : LedgerView) (o : OutPoint) : Option Coin :=
  if o ∈ v.spentBase then none
  else
    match v.created.lookup o with
    | some c => some c
    | none => if o ∈ v.spentCreated then none else v.base.coin o

def token (v : LedgerView) (id : Hash256) : Option TokenInfo :=
  match v.tokens.lookup id with
  | some t => some t
  | none => v.base.token id

def pool (v : LedgerView) (t : Hash256) : Option Pool :=
  match v.pools.lookup t with
  | some p => some p
  | none => v.base.pool t

def reader (v : LedgerView) : StateReader := ⟨v.coin, v.token, v.pool⟩

/-- `spends`. -/
def spends (v : LedgerView) (o : OutPoint) : Bool :=
  o ∈ v.spentBase || o ∈ v.spentCreated

end LedgerView

/-- The outpoints of a transaction's outputs, with the coins they become. -/
def newCoins (txid : Hash256) (outs : List TxOut) (height : UInt64) (coinbase : Bool) :
    List (OutPoint × Coin) :=
  outs.zipIdx.map fun o => (⟨txid, UInt32.ofNat o.2⟩, ⟨o.1, height, coinbase⟩)

namespace LedgerView

def addCoins (v : LedgerView) (coins : List (OutPoint × Coin)) : LedgerView :=
  { v with created := insertAll v.created coins }

def spendInput (v : LedgerView) (o : OutPoint) : LedgerView :=
  if o ∈ v.created then
    { v with created := v.created.erase o, spentCreated := insert o v.spentCreated }
  else { v with spentBase := v.spentBase.insert o ((v.base.coin o).getD default) }

def addTokens (v : LedgerView) (minted : List (Hash256 × TokenInfo)) : LedgerView :=
  { v with tokens := insertAll v.tokens minted }

/-- One touched pool: its base value is recorded on first touch. -/
def putPool (v : LedgerView) (t : Hash256) (p : Option Pool) : LedgerView :=
  { v with
    poolsBefore :=
      if t ∉ v.poolsBefore ∧ t ∉ v.pools then v.poolsBefore.insert t (v.base.pool t)
      else v.poolsBefore
    pools := v.pools.insert t (p.getD default) }

def putPools (v : LedgerView) (touched : List (Hash256 × Option Pool)) : LedgerView :=
  touched.foldl (fun v e => v.putPool e.1 e.2) v

end LedgerView

variable [Crypto]

namespace LedgerView

/-- `apply_coinbase`: the outputs only, amounts being the caller's job. -/
def applyCoinbase (v : LedgerView) (tx : Transaction) (height : UInt64) : LedgerView :=
  v.addCoins (newCoins tx.txid tx.outs height true)

/-- The commit section of `apply`. -/
def commit (v : LedgerView) (tx : Transaction) (height : UInt64) (st : OpState) :
    LedgerView :=
  let v := (tx.ins.map TxIn.prev).foldl spendInput v
  let v := v.addCoins (newCoins tx.txid tx.outs height false)
  let v := v.addTokens (pairs st.minted)
  v.putPools (pairs st.touched)

/-- Validate and apply a non-coinbase transaction at `height`. -/
def apply (v : LedgerView) (tx : Transaction) (height : UInt64) (genesis : Hash256)
    (verifySigs : Bool) : LedgerView × TxResult :=
  match checkTx v.reader tx height genesis verifySigs with
  | .error e => (v, .error e)
  | .ok (st, fee) => (v.commit tx height st, .ok fee)

end LedgerView

end QuantCore
