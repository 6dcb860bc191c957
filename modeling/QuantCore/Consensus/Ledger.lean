import QuantCore.Consensus.Params
import Mathlib.Data.Finset.Insert

/-!
# The ledger rules

How a transaction changes the state (coins, tokens, pools). State is read
through a `StateReader`. A `LedgerView` is an overlay on one: it applies
transactions one at a time and can then be committed by the chainstate or kept
as the mempool's pending state.

`apply` is split where the source has its comments: the inputs, the ops, the
balance, the signatures, and only then the writes into the overlay. Everything
before the writes depends on the view through its reader alone, which is why
`check` takes a `StateReader`. Per-asset flows are 128-bit sums of 64-bit
amounts, too few of them ever to wrap, and are natural numbers here.
-/

namespace QuantCore

structure Coin where
  out : TxOut
  height : UInt64
  coinbase : Bool
deriving DecidableEq, Repr, Inhabited

structure TokenInfo where
  id : Hash256
  ticker : Bytes
  name : Bytes
  uri : Bytes
  decimals : UInt8
  supply : Amount
  createTxid : Hash256
  height : UInt64
deriving DecidableEq, Repr, Inhabited

/-- Reserves and outstanding shares, the locked `minLiquidity` included. -/
structure Pool where
  token : Hash256
  qnt : Amount
  tok : Amount
  shares : Amount
deriving DecidableEq, Repr, Inhabited

/-- Accepted with a fee, or refused for a reason. -/
abbrev TxResult := Except String Amount

structure StateReader where
  coin : OutPoint → Option Coin
  token : Hash256 → Option TokenInfo
  pool : Hash256 → Option Pool

/-! ## AMM arithmetic -/

/-- A 128-bit value as a `U256`. -/
def u256 (v : Nat) : U256 := ⟨UInt64.ofNat v, UInt64.ofNat (v >>> 64), 0, 0⟩

def fitsU64 (v : U256) : Bool := (v.w1 ||| v.w2 ||| v.w3) == 0

/-- `floor(a * b / c)`, 0 if `c = 0` or the quotient overflows. -/
def mulDiv (a b c : Amount) : Amount :=
  if c = 0 then 0
  else
    let q := a.toNat * b.toNat / c.toNat
    if q >>> 64 ≠ 0 then 0 else UInt64.ofNat q

def ammQuote (amountIn rin rout : Amount) : Amount :=
  if amountIn = 0 ∨ rin = 0 ∨ rout = 0 then 0
  else
    let inFee := u256 (amountIn.toNat * (10000 - poolFeeBps.toNat))
    let num := inFee.mul64 rout
    let den := (u256 (rin.toNat * 10000)).add inFee
    let q := num.div den
    if fitsU64 q then q.w0 else 0

/-- `while (in > 1 && amm_quote(in - 1, rin, rout) >= out) in--`. -/
def tighten (out rin rout : Amount) : Nat → Nat
  | 0 => 0
  | n + 1 =>
      if n + 1 > 1 ∧ ammQuote (UInt64.ofNat n) rin rout ≥ out then tighten out rin rout n
      else n + 1

def ammQuoteIn (out rin rout : Amount) : Amount :=
  if out = 0 ∨ out ≥ rout ∨ rin = 0 then 0
  else
    let num := (u256 (rin.toNat * out.toNat)).mul64 10000
    let den := u256 ((rout - out).toNat * (10000 - poolFeeBps.toNat))
    let q := num.div den
    if !fitsU64 q then 0
    else
      let amountIn := UInt64.ofNat (tighten out rin rout (q.w0 + 1).toNat)
      if ammQuote amountIn rin rout ≥ out then amountIn else 0

/-- Newton's iteration for the integer square root, while it decreases. -/
def newtonSqrt (n x : Nat) : Nat :=
  let y := (x + n / x) / 2
  if y ≥ x then x else newtonSqrt n y
termination_by x
decreasing_by omega

/-- The final correction, `while (x * x > n) x--`. -/
def sqrtDown (n : Nat) : Nat → Nat
  | 0 => 0
  | x + 1 => if (x + 1) * (x + 1) > n then sqrtDown n x else x + 1

/-- `floor(sqrt(qnt * tok))`, the locked shares included. -/
def ammInitialShares (qnt tok : Amount) : Amount :=
  let n := qnt.toNat * tok.toNat
  if n = 0 then 0
  else
    let bits := Nat.log2 n + 1
    UInt64.ofNat (sqrtDown n (newtonSqrt n (1 <<< ((bits + 1) / 2))))

def ammAddShares (p : Pool) (qnt tok : Amount) : Amount :=
  if p.qnt = 0 ∨ p.tok = 0 ∨ p.shares = 0 then 0
  else
    let a := mulDiv qnt p.shares p.qnt
    let b := mulDiv tok p.shares p.tok
    if a < b then a else b

def ammRemoveAmounts (p : Pool) (shares : Amount) : Amount × Amount :=
  (mulDiv shares p.qnt p.shares, mulDiv shares p.tok p.shares)

/-! ## Context-free checks -/

def validTicker (s : Bytes) : Bool :=
  !s.isEmpty && s.length ≤ maxTicker &&
    s.all fun c => (0x41 ≤ c && c ≤ 0x5a) || (0x30 ≤ c && c ≤ 0x39)

def validTokenText (s : Bytes) (minLen maxLen : Nat) : Bool :=
  minLen ≤ s.length && s.length ≤ maxLen && s.all fun c => 0x20 ≤ c && c ≤ 0x7e

/-- The output loop of `check_tx_basic`; `qnt` is the 64-bit running sum. -/
def checkOuts (coinbase : Bool) : List TxOut → Amount → Except String Unit
  | [], _ => .ok ()
  | o :: rest, qnt =>
      if o.value = 0 then .error "zero-output"
      else if o.isQnt then
        if !coinbase ∧ o.value < dustLimit then .error "dust-output"
        else if o.value > maxMoney then .error "output-too-large"
        else if qnt + o.value > maxMoney then .error "outputs-overflow"
        else checkOuts coinbase rest (qnt + o.value)
      else if coinbase then .error "coinbase-token-output"
      else if o.value > maxTokenSupply then .error "output-too-large"
      else checkOuts coinbase rest qnt

/-- What a transaction pays an address in QNT, in 64 bits. -/
def paidTo (outs : List TxOut) (addr : Hash256) : Amount :=
  outs.foldl (fun s o => if o.isQnt ∧ o.addr = addr then s + o.value else s) 0

/-- One round of the op loop; the number of messages so far goes in and out. -/
def checkOp (tx : Transaction) (messages : Nat) : TxOp → Except String Nat
  | .createToken c =>
      if !validTicker c.ticker then .error "bad-ticker"
      else if !validTokenText c.name 1 maxTokenName then .error "bad-token-name"
      else if !validTokenText c.uri 0 maxTokenUri then .error "bad-token-uri"
      else if c.decimals > maxTokenDecimals then .error "bad-decimals"
      else if c.supply = 0 ∨ c.supply > maxTokenSupply then .error "bad-supply"
      else .ok messages
  | .poolCreate p =>
      if p.token.isZero ∨ p.qnt = 0 ∨ p.tok = 0 ∨ p.shares = 0 then
        .error "bad-pool-create"
      else .ok messages
  | .addLiquidity a =>
      if a.token.isZero ∨ a.qnt = 0 ∨ a.tok = 0 ∨ a.shares = 0 then
        .error "bad-add-liquidity"
      else .ok messages
  | .removeLiquidity r =>
      if r.token.isZero ∨ r.shares = 0 ∨ (r.qnt = 0 ∧ r.tok = 0) then
        .error "bad-remove-liquidity"
      else .ok messages
  | .swap s =>
      if s.token.isZero ∨ s.amountIn = 0 ∨ s.amountOut = 0 then .error "bad-swap"
      else .ok messages
  | .message m =>
      if messages + 1 > 1 then .error "too-many-messages"
      else if m.gift.toNat ≥ giftCount then .error "bad-gift"
      else if m.text.length > maxMessageText then .error "message-too-long"
      else if m.text.any fun ch => ch < 0x20 || ch == 0x7f then
        .error "bad-message-text"
      else if m.text.isEmpty ∧ m.gift = 0 then .error "empty-message"
      else if paidTo tx.outs m.recipient < max dustLimit (giftPrice.getD m.gift.toNat 0) then
        .error "message-underpaid"
      else .ok (messages + 1)

def checkOps (tx : Transaction) : List TxOp → Nat → Except String Unit
  | [], _ => .ok ()
  | op :: rest, messages =>
      match checkOp tx messages op with
      | .error e => .error e
      | .ok messages' => checkOps tx rest messages'

/-- The shape checks, before the outputs are looked at. -/
def checkShape (tx : Transaction) (expectWitness : Bool) : Except String Unit :=
  if tx.version ≠ 2 then .error "bad-version"
  else if tx.ops.length > maxTxOps then .error "too-many-ops"
  else if tx.isCoinbase then
    if !tx.witness.isEmpty then .error "coinbase-witness"
    else if !tx.ops.isEmpty then .error "coinbase-ops"
    else .ok ()
  else if tx.outs.isEmpty then .error "no-outputs"
  else if !tx.extra.isEmpty then .error "extra-in-non-coinbase"
  else if expectWitness ∧ tx.witness.length ≠ tx.ins.length then .error "witness-count"
  else if ¬ (tx.ins.map TxIn.prev).Nodup then .error "duplicate-input"
  else .ok ()

def checkTxBasic (tx : Transaction) (expectWitness : Bool) : TxResult :=
  match checkShape tx expectWitness with
  | .error e => .error e
  | .ok () =>
    match checkOuts tx.isCoinbase tx.outs 0 with
    | .error e => .error e
    | .ok () =>
      match checkOps tx tx.ops 0 with
      | .error e => .error e
      | .ok () => .ok 0

/-! ## Signatures -/

/-- Two lookups by index of the source: the address of the coin an input
spends, and whether an input reuses another's signature. -/
def addrAt (coins : List Coin) (i : Nat) : Hash256 := (coins.getD i default).out.addr

def isRefAt (witness : List Witness) (i : Nat) : Bool :=
  match witness[i]? with
  | some (.ref _) => true
  | _ => false

variable [Crypto]

/-- One round of `verify_witness`, for the input of index `i`. -/
def checkWitness (tx : Transaction) (coins : List Coin) (sighash : Hash256) (i : Nat) :
    Witness → Except String Unit
  | .ref input =>
      if input.toNat ≥ i then .error "ref-forward"
      else if isRefAt tx.witness input.toNat then .error "ref-chain"
      else if addrAt coins input.toNat ≠ addrAt coins i then .error "ref-address-mismatch"
      else .ok ()
  | .falcon pk sig =>
      if addressHash pk ≠ addrAt coins i then .error "key-mismatch"
      else if !falconVerify pk sig sighash then .error "bad-signature"
      else .ok ()

def checkWitnesses (tx : Transaction) (coins : List Coin) (sighash : Hash256) :
    Nat → List Witness → Except String Unit
  | _, [] => .ok ()
  | i, w :: rest =>
      match checkWitness tx coins sighash i w with
      | .error e => .error e
      | .ok () => checkWitnesses tx coins sighash (i + 1) rest

def verifyWitness (tx : Transaction) (coins : List Coin) (genesis : Hash256) :
    Except String Unit :=
  if tx.witness.length ≠ tx.ins.length then .error "witness-count"
  else checkWitnesses tx coins (signatureHash genesis tx.txid) 0 tx.witness

/-! ## Inputs and ops -/

/-- `std::map<Hash256, u128>`, an absent key counting as zero. -/
abbrev Flows := UMap Hash256 Nat

namespace Flows

def get (f : Flows) (a : Hash256) : Nat := (f.lookup a).getD 0

def add (f : Flows) (a : Hash256) (v : Nat) : Flows := f.insert a (f.get a + v)

end Flows

/-- The input loop of `apply`: the coins spent and what they release. -/
def takeInputs (r : StateReader) (height : UInt64) (genesis : Hash256) :
    List TxIn → Flows → List Coin → Except String (List Coin × Flows)
  | [], plus, coins => .ok (coins, plus)
  | i :: rest, plus, coins =>
      match r.coin i.prev with
      | none => .error "missing-or-spent-input"
      | some c =>
          if c.coinbase ∧ height < c.height + UInt64.ofNat (maturityForGenesis genesis) then
            .error "immature-coinbase"
          else
            takeInputs r height genesis rest (plus.add c.out.asset c.out.value.toNat)
              (coins ++ [c])

/-- What the ops have done so far: per-asset flows, a scratch copy of the pools
they touch, and the tokens they create. -/
structure OpState where
  plus : Flows
  minus : Flows
  touched : UMap Hash256 (Option Pool)
  minted : UMap Hash256 TokenInfo

/-- `get_pool`: the scratch copy, made on first use. -/
def getPool (r : StateReader) (st : OpState) (t : Hash256) : Option Pool :=
  match st.touched.lookup t with
  | some p => p
  | none => r.pool t

def tokenKnown (r : StateReader) (st : OpState) (t : Hash256) : Bool :=
  t ∈ st.minted || (r.token t).isSome

/-- What one op of a transaction does, as `apply` runs it. A pool that was
looked at without being changed is only left behind on a failing path, so
`touched` is extended where the pool is written. -/
def applyOp (r : StateReader) (tx : Transaction) (height : UInt64) (coins : List Coin)
    (i : UInt32) (st : OpState) : TxOp → Except String OpState
  | .createToken c =>
      let id := tokenId (tx.ins.headD default).prev i
      if tokenKnown r st id then .error "token-exists"
      else
        .ok { st with
          minted := st.minted.insert id
            ⟨id, c.ticker, c.name, c.uri, c.decimals, c.supply, tx.txid, height⟩
          plus := st.plus.add id c.supply.toNat }
  | .poolCreate p =>
      if !tokenKnown r st p.token then .error "unknown-token"
      else
        match getPool r st p.token with
        | some _ => .error "pool-exists"
        | none =>
            if p.qnt > maxMoney then .error "pool-too-large"
            else
              let total := ammInitialShares p.qnt p.tok
              if total ≤ minLiquidity ∨ p.shares > total - minLiquidity then
                .error "pool-shares-too-high"
              else
                .ok { st with
                  touched := st.touched.insert p.token
                    (some ⟨p.token, p.qnt, p.tok, p.shares + minLiquidity⟩)
                  minus := (st.minus.add qntAsset p.qnt.toNat).add p.token p.tok.toNat
                  plus := st.plus.add (poolShareId p.token) p.shares.toNat }
  | .addLiquidity a =>
      match getPool r st a.token with
      | none => .error "no-pool"
      | some pl =>
          if a.shares > ammAddShares pl a.qnt a.tok then .error "liquidity-shares-too-high"
          else if pl.qnt.toNat + a.qnt.toNat > maxMoney.toNat ∨
              pl.tok.toNat + a.tok.toNat > maxTokenSupply.toNat ∨
              pl.shares.toNat + a.shares.toNat > maxTokenSupply.toNat then
            .error "pool-too-large"
          else
            .ok { st with
              touched := st.touched.insert a.token
                (some { pl with
                  qnt := pl.qnt + a.qnt, tok := pl.tok + a.tok
                  shares := pl.shares + a.shares })
              minus := (st.minus.add qntAsset a.qnt.toNat).add a.token a.tok.toNat
              plus := st.plus.add (poolShareId a.token) a.shares.toNat }
  | .removeLiquidity rm =>
      match getPool r st rm.token with
      | none => .error "no-pool"
      | some pl =>
          if rm.shares > pl.shares - minLiquidity then .error "remove-too-many-shares"
          else
            let (mq, mt) := ammRemoveAmounts pl rm.shares
            if rm.qnt > mq ∨ rm.tok > mt then .error "remove-amounts-too-high"
            else
              .ok { st with
                touched := st.touched.insert rm.token
                  (some { pl with
                    qnt := pl.qnt - rm.qnt, tok := pl.tok - rm.tok
                    shares := pl.shares - rm.shares })
                minus := st.minus.add (poolShareId rm.token) rm.shares.toNat
                plus := (st.plus.add qntAsset rm.qnt.toNat).add rm.token rm.tok.toNat }
  | .swap s =>
      match getPool r st s.token with
      | none => .error "no-pool"
      | some pl =>
          let rin := if s.sell then pl.tok else pl.qnt
          let rout := if s.sell then pl.qnt else pl.tok
          if s.amountOut ≥ rout ∨ s.amountOut > ammQuote s.amountIn rin rout then
            .error "swap-price-moved"
          else if rin.toNat + s.amountIn.toNat >
              (if s.sell then maxTokenSupply else maxMoney).toNat then
            .error "pool-too-large"
          else
            let rin' := rin + s.amountIn
            let rout' := rout - s.amountOut
            let inAsset := if s.sell then s.token else qntAsset
            let outAsset := if s.sell then qntAsset else s.token
            .ok { st with
              touched := st.touched.insert s.token
                (some (if s.sell then { pl with tok := rin', qnt := rout' }
                  else { pl with qnt := rin', tok := rout' }))
              minus := st.minus.add inAsset s.amountIn.toNat
              plus := st.plus.add outAsset s.amountOut.toNat }
  | .message m =>
      if coins.any fun c => c.out.addr == m.sender then .ok st
      else .error "message-from-not-input"

def applyOps (r : StateReader) (tx : Transaction) (height : UInt64) (coins : List Coin) :
    UInt32 → List TxOp → OpState → Except String OpState
  | _, [], st => .ok st
  | i, op :: rest, st =>
      match applyOp r tx height coins i st op with
      | .error e => .error e
      | .ok st' => applyOps r tx height coins (i + 1) rest st'

/-! ## The balance -/

/-- The keys of both flow maps, ascending, as the `std::set` iterates. -/
def flowAssets (plus minus : Flows) : List Hash256 :=
  (plus.keys ++ minus.keys).dedup.insertionSort fun a b => a.toNat ≤ b.toNat

/-- Every asset balances exactly; QNT may leave a fee for the miner. -/
def balance (plus minus : Flows) : List Hash256 → Amount → Except String Amount
  | [], fee => .ok fee
  | a :: rest, fee =>
      let p := plus.get a
      let m := minus.get a
      if a.isZero then
        if m > p then .error "outputs-exceed-inputs"
        else if p - m > maxMoney.toNat then .error "fee-too-large"
        else balance plus minus rest (UInt64.ofNat (p - m))
      else if p ≠ m then
        .error (if p > m then "token-not-balanced (unspent)"
          else "token-not-balanced (overspent)")
      else balance plus minus rest fee

/-! ## A whole transaction -/

/-- Everything `LedgerView::apply` decides before it writes: the final op state
and the fee. -/
def checkTx (r : StateReader) (tx : Transaction) (height : UInt64) (genesis : Hash256)
    (verifySigs : Bool) : Except String (OpState × Amount) :=
  if tx.isCoinbase then .error "coinbase-in-apply"
  else if tx.lockHeight > height then .error "locked"
  else
    match takeInputs r height genesis tx.ins ∅ [] with
    | .error e => .error e
    | .ok (coins, plus) =>
      let minus := tx.outs.foldl (fun f o => Flows.add f o.asset o.value.toNat) ∅
      match applyOps r tx height coins 0 tx.ops ⟨plus, minus, ∅, ∅⟩ with
      | .error e => .error e
      | .ok st =>
        match balance st.plus st.minus (flowAssets st.plus st.minus) 0 with
        | .error e => .error e
        | .ok fee =>
          if verifySigs then
            match verifyWitness tx coins genesis with
            | .error e => .error e
            | .ok () => .ok (st, fee)
          else .ok (st, fee)

end QuantCore
