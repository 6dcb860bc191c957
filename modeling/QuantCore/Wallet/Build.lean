import QuantCore.Wallet.Blocks
import QuantCore.Consensus.Ledger

/-!
# Building and signing transactions

`Wallet::build` turns a plan into a signed transaction: it takes coins for every
token the plan needs, then QNT coins until they cover the fee too, and pays what
is left over to a fresh address of the wallet. The public calls below it each
check their arguments and hand over a plan.

The key pairs are a parameter, `Signer`; making a signature is taken not to
throw. Needs are 128-bit in the source and integers here: no plan has the 2^63
outputs that could tell them apart. Sorting leaves coins of one value in any
order, as the map it sorts has them in any order. A result is `none` where
handing out an address reads `keys_` past its end.
-/

namespace QuantCore

/-- The key pair behind a key of the wallet: `kp.pk`, and `falcon_sign` under
`kp.sk`. -/
structure Signer where
  pk : WalletKey → Bytes
  falconSign : WalletKey → Hash256 → Bytes

def mature (c : WalletCoin) (tip : Int) (maturity : Nat) : Bool :=
  !c.coinbase || (0 ≤ c.height && c.height + maturity ≤ tip + 1)

def estimateSize (nIn nUnique nOut nOps : Nat) : Nat :=
  let core := 8 + nIn * (32 + 5) + nOut * (9 + 33 + 32) + nOps * 160 + 4
  let sig := 1 + falconPkBytes + 2 + falconSigMax
  core + 3 + nUnique * sig + (nIn - nUnique) * 4

/-- The characters of a text held as bytes. -/
def bytesText (b : Bytes) : String := String.ofList (b.map fun c => Char.ofNat c.toNat)

/-- The first input of a built transaction, which always has one. -/
def Transaction.firstIn (tx : Transaction) : OutPoint := (tx.ins.headD default).prev

/-! ## Plans -/

/-- What a transaction must do: pay `outs` and run `ops`, which absorb `opIn`
and release `opOut`. `finish` runs after the coins are chosen. -/
structure Plan where
  outs : List TxOut := []
  ops : List TxOp := []
  opIn : UMap Hash256 Amount := ∅
  opOut : UMap Hash256 Amount := ∅
  finish : Transaction → Transaction := id
  /-- Outputs `finish` will add, for the fee estimate. -/
  extraOuts : Nat := 0
  subtractFee : Bool := false
  sweep : Bool := false
  sweepCoins : List WalletCoin := []

/-- An amount per asset, an absent one counting as zero. -/
def amountOf (m : UMap Hash256 Amount) (a : Hash256) : Amount := (m.lookup a).getD 0

/-- `std::map<Hash256, __int128>`. -/
abbrev Needs := UMap Hash256 Int

namespace Needs

def get (m : Needs) (a : Hash256) : Int := (m.lookup a).getD 0

def add (m : Needs) (a : Hash256) (v : Int) : Needs := m.insert a (m.get a + v)

/-- The entries in the order of the assets. -/
def sorted (m : Needs) : List (Hash256 × Int) :=
  (Maps.pairs m).insertionSort fun a b => a.1.toNat ≤ b.1.toNat

end Needs

namespace Plan

/-- The net amount of each asset needed from our coins: outputs, and what the
ops absorb, less what they release. -/
def need (p : Plan) : Needs :=
  let m := p.outs.foldl (fun m o => m.add o.asset o.value.toNat) ∅
  let m := (Maps.pairs p.opIn).foldl (fun m e => m.add e.1 e.2.toNat) m
  (Maps.pairs p.opOut).foldl (fun m e => m.add e.1 (-e.2.toNat)) m

/-! ## Choosing coins -/

def byValue (cs : List WalletCoin) : List WalletCoin :=
  cs.insertionSort fun a b => b.out.value ≤ a.out.value

/-- Takes coins until they cover `n`: the coins chosen, and what the taken ones
hold in 64 bits. -/
def takeCoins (n : Int) : List WalletCoin → List WalletCoin → Amount → List WalletCoin × Amount
  | [], sel, got => (sel, got)
  | c :: rest, sel, got =>
      if got.toNat ≥ n then (sel, got) else takeCoins n rest (sel ++ [c]) (got + c.out.value)

/-- The coins chosen so far and the change that is due, not yet addressed. -/
structure Chosen where
  sel : List WalletCoin := []
  change : List TxOut := []

/-- A round over the needs: a token's coins. -/
def takeToken (spendable : List WalletCoin) (s : Chosen) (e : Hash256 × Int) :
    Except String Chosen :=
  if e.1.isZero then .ok s
  else
    let pool := byValue (spendable.filter fun c => c.out.asset == e.1)
    let (sel, got) := if e.2 > 0 then takeCoins e.2 pool s.sel 0 else (s.sel, 0)
    if e.2 > 0 ∧ got.toNat < e.2 then .error "insufficient token balance"
    else
      let left := got.toNat - e.2
      .ok { sel, change :=
        if left > 0 then s.change ++ [⟨UInt64.ofInt left, e.1, 0⟩] else s.change }

def uniqueAddrs (sel : List WalletCoin) : Nat :=
  max (sel.map fun c => c.out.addr).dedup.length 1

/-- The fee estimate for the coins chosen, in 64 bits. -/
def fee (p : Plan) (feePerKb : Amount) (change : List TxOut) (sel : List WalletCoin) : Amount :=
  let nOut := p.outs.length + change.length + p.extraOuts + (if p.sweep then 0 else 1)
  UInt64.ofNat (estimateSize (max sel.length 1) (uniqueAddrs sel) nOut p.ops.length) * feePerKb
    / 1000

/-- The QNT to be covered. -/
def want (p : Plan) (qneed : Int) (fee : Amount) : Int :=
  if p.subtractFee then qneed else qneed + fee.toNat

/-- Takes QNT coins until they cover the need and the fee, which grows with
them; a sweep takes them all. The coins chosen, the QNT they hold and the fee. -/
def takeQnt (p : Plan) (feePerKb : Amount) (change : List TxOut) (qneed : Int)
    (pool sel : List WalletCoin) (qhave : Amount) (qcount : Nat) :
    Except String (List WalletCoin × Amount × Amount) :=
  let fee := p.fee feePerKb change sel
  let want := p.want qneed fee
  if qcount > 0 ∧ qhave.toNat ≥ want ∧ !p.sweep then .ok (sel, qhave, fee)
  else
    match pool with
    | [] =>
        if p.sweep ∧ qcount > 0 then .ok (sel, qhave, fee)
        else .error ("insufficient QNT: have " ++ formatAmount qhave ++ ", need " ++
          formatAmount (UInt64.ofInt (if want > 0 then want else 0)))
    | c :: rest =>
        if (sel ++ [c]).length > 2000 then .error "too many small coins; sweep first"
        else takeQnt p feePerKb change qneed rest (sel ++ [c]) (qhave + c.out.value) (qcount + 1)

/-- The outputs, with the fee taken from the first under the two modes that do
so. No plan asks for them without an output. -/
def payOuts (p : Plan) (qhave fee : Amount) : Except String (List TxOut) :=
  match p.outs with
  | [] => .ok []
  | o :: rest =>
      let o := if p.sweep then { o with value := qhave } else o
      if p.subtractFee ∨ p.sweep then
        if o.value ≤ fee + dustLimit then .error "amount too small to cover the fee"
        else .ok ({ o with value := o.value - fee } :: rest)
      else .ok (o :: rest)

/-- The QNT left over. Less than dust goes to the miner as extra fee. -/
def qntChange (p : Plan) (qhave fee : Amount) : List TxOut :=
  let qchange := qhave.toNat - p.need.get qntAsset - (if p.subtractFee then 0 else fee.toNat : Int)
  if !p.sweep ∧ qchange ≥ dustLimit.toNat then [⟨UInt64.ofInt qchange, qntAsset, 0⟩] else []

/-- What is settled before an address is handed out. -/
structure Draft where
  sel : List WalletCoin
  qhave : Amount
  fee : Amount
  outs : List TxOut
  change : List TxOut

/-- `build` up to the change address, over the spendable coins. -/
def draft (p : Plan) (spendable : List WalletCoin) (feePerKb : Amount) : Except String Draft := do
  let s ← p.need.sorted.foldlM (takeToken spendable) {}
  let pool := byValue (if p.sweep then p.sweepCoins else spendable.filter fun c => c.out.isQnt)
  let (sel, qhave, fee) ← p.takeQnt feePerKb s.change (p.need.get qntAsset) pool s.sel 0 0
  let outs ← p.payOuts qhave fee
  pure { sel, qhave, fee, outs, change := s.change ++ p.qntChange qhave fee }

/-- The fee a transaction pays: QNT in and released, less QNT out and absorbed. -/
def actual (p : Plan) (qhave : Amount) (tx : Transaction) : Int :=
  qhave.toNat + (amountOf p.opOut qntAsset).toNat - tx.totalQntOut.toNat -
    (amountOf p.opIn qntAsset).toNat

end Plan

def Transaction.fullSize (tx : Transaction) : Nat := tx.writeFull.length

/-- The relay minimum for the size of a transaction. -/
def Transaction.relayFee (tx : Transaction) : Amount :=
  UInt64.ofNat tx.fullSize * minRelayFeePerKb / 1000

/-! ## Signing -/

variable [Crypto]

namespace Wallet

omit [Crypto] in
/-- The witnesses of the inputs: a signature at the first use of an address, a
reference to it after that. -/
def witnesses (w : Wallet) (signer : Signer) (sighash : Hash256) :
    List (WalletCoin × Nat) → UMap Hash256 Nat → Except String (List Witness)
  | [], _ => .ok []
  | (c, i) :: rest, firstUse =>
      match firstUse.lookup c.out.addr with
      | some f => (Witness.ref (UInt32.ofNat f) :: ·) <$> witnesses w signer sighash rest firstUse
      | none =>
          match w.byAddr.lookup c.out.addr with
          | none => .error "missing key"
          | some k =>
              let key := w.keys.getD k default
              (Witness.falcon (signer.pk key) (signer.falconSign key sighash) :: ·) <$>
                witnesses w signer sighash rest (firstUse.insert c.out.addr i)

def signTx (w : Wallet) (signer : Signer) (tx : Transaction) (inputs : List WalletCoin) :
    Except String Transaction :=
  let sighash := signatureHash w.params.genesisHash tx.txid
  (fun witness => { tx with witness }) <$> w.witnesses signer sighash inputs.zipIdx ∅

def changeAddr (w : Wallet) : Option (Hash256 × Wallet) :=
  match w.issueKey "(change)" with
  | none => none
  | some (a, w') =>
      some (((decodeAddress w.params (w.addressString a)).map Prod.snd).getD 0, w')

/-! ## Build -/

/-- Unlocked, confirmed and mature. -/
def spendable (w : Wallet) (tip : Int) (c : WalletCoin) : Bool :=
  !c.locked && 0 ≤ c.height && mature c tip w.params.coinbaseMaturity

def spendableCoins (w : Wallet) (tip : Int) : List WalletCoin :=
  ((Maps.pairs w.coins).map Prod.snd).filter (w.spendable tip)

/-- An outcome and the wallet after it. -/
abbrev Result (α : Type) := Option (Except String α × Wallet)

/-- The transaction as it is signed: the change addressed, the plan finished. -/
def assemble (p : Plan) (d : Plan.Draft) (changeAddr : Hash256) : Transaction :=
  let tx := p.finish
    { ins := d.sel.map fun c => ⟨c.op⟩
      outs := d.outs ++ d.change.map fun o => { o with addr := changeAddr }
      ops := p.ops }
  { tx with lockHeight := 0 }

/-- `build` from there on: the transaction and its fee. -/
def finishBuild (w : Wallet) (signer : Signer) (p : Plan) (d : Plan.Draft)
    (changeAddr : Hash256) : Except String (Transaction × Amount) := do
  let tx ← w.signTx signer (assemble p d changeAddr) d.sel
  let actual := p.actual d.qhave tx
  if actual < (tx.relayFee).toNat then throw "internal fee estimate too low"
  else pure (tx, UInt64.ofInt actual)

/-- `fee_per_kb`, raised to the relay minimum. -/
def feeRate (feePerKb : Amount) : Amount :=
  if feePerKb < minRelayFeePerKb then minRelayFeePerKb else feePerKb

def build (w : Wallet) (signer : Signer) (p : Plan) (tip : Int) (feePerKb : Amount) :
    Result (Transaction × Amount) :=
  match p.draft (w.spendableCoins tip) (feeRate feePerKb) with
  | .error e => some (.error e, w)
  | .ok d =>
      if d.change.isEmpty then some (w.finishBuild signer p d 0, w)
      else
        match w.changeAddr with
        | none => none
        | some (ca, w') => some (w'.finishBuild signer p d ca, w')

/-! ## The public calls -/

/-- What a call does with the outcome of its checks. -/
def buildFrom (w : Wallet) (signer : Signer) (plan : Except String Plan) (tip : Int)
    (feePerKb : Amount) : Result (Transaction × Amount) :=
  match plan with
  | .error e => some (.error e, w)
  | .ok p => w.build signer p tip feePerKb

/-- A recipient of `create_tx`. -/
structure Dest where
  address : Bytes
  amount : Amount
  asset : Hash256

/-- The output of one recipient. -/
def destOut (w : Wallet) (d : Dest) : Except String TxOut :=
  let bad := .error ("invalid address: " ++ bytesText d.address)
  match decodeAddress w.params d.address with
  | none => bad
  | some (v, h) =>
      if v ≠ 0 then bad
      else if d.asset.isZero ∧ d.amount < dustLimit then .error "minimum amount is 0.000001 QNT"
      else if d.amount = 0 then .error "amount must be positive"
      else .ok ⟨d.amount, d.asset, h⟩

def createTxPlan (w : Wallet) (dests : List Dest) (subtractFee : Bool) : Except String Plan := do
  if dests.isEmpty then throw "no recipients"
  else
    let outs ← dests.mapM w.destOut
    if subtractFee ∧ !(outs.headD default).isQnt then
      throw "can only subtract the fee from a QNT payment"
    else pure { outs, subtractFee }

def createTx (w : Wallet) (signer : Signer) (dests : List Dest) (subtractFee : Bool)
    (tip : Int) (feePerKb : Amount) : Result (Transaction × Amount) :=
  w.buildFrom signer (w.createTxPlan dests subtractFee) tip feePerKb

def createSweepPlan (w : Wallet) (address : Bytes) (tip : Int) : Except String Plan :=
  match decodeAddress w.params address with
  | none => .error "invalid address"
  | some (_, h) =>
      let sweepCoins := (w.spendableCoins tip).filter fun c => c.out.isQnt
      if sweepCoins.isEmpty then .error "nothing to sweep"
      else .ok { outs := [⟨0, qntAsset, h⟩], sweep := true, sweepCoins }

def createSweep (w : Wallet) (signer : Signer) (address : Bytes) (tip : Int)
    (feePerKb : Amount) : Result (Transaction × Amount) :=
  w.buildFrom signer (w.createSweepPlan address tip) tip feePerKb

def createTokenPlan (t : OpCreateToken) (owner : Hash256) : Except String Plan :=
  if !validTicker t.ticker then .error "ticker must be 1-10 characters A-Z / 0-9"
  else if !validTokenText t.name 1 maxTokenName then
    .error "name must be 1-32 printable characters"
  else if !validTokenText t.uri 0 maxTokenUri then
    .error "uri must be at most 120 printable characters"
  else if t.decimals > maxTokenDecimals then .error "decimals must be 0-10"
  else if t.supply = 0 ∨ t.supply > maxTokenSupply then .error "supply out of range"
  else .ok
    { ops := [.createToken t]
      extraOuts := 1
      finish := fun tx =>
        { tx with outs := tx.outs ++ [⟨t.supply, tokenId tx.firstIn 0, owner⟩] } }

/-- The whole supply goes to a fresh address, which is handed out before
anything is checked. The transaction, its fee and the token's id. -/
def createToken (w : Wallet) (signer : Signer) (t : OpCreateToken) (tip : Int)
    (feePerKb : Amount) : Result (Transaction × Amount × Hash256) :=
  match w.changeAddr with
  | none => none
  | some (owner, w) =>
      (w.buildFrom signer (createTokenPlan t owner) tip feePerKb).map fun r =>
        (r.1.map fun x => (x.1, x.2, tokenId x.1.firstIn 0), r.2)

/-- The finishing step of a message: it is from the address of the first input. -/
def signMessage (w : Wallet) (m : OpMessage) (tx : Transaction) : Transaction :=
  match w.coins.lookup tx.firstIn with
  | none => tx
  | some c => { tx with ops := [.message { m with sender := c.out.addr }] }

def sendMessagePlan (w : Wallet) (recipient : Hash256) (text : Bytes) (gift : UInt8) :
    Except String Plan :=
  if gift.toNat ≥ giftCount then .error "unknown gift"
  else if text.length > maxMessageText then .error "message is longer than 280 bytes"
  else if text.isEmpty ∧ gift = 0 then .error "empty message"
  else if text.any fun c => c < 0x20 || c == 0x7f then .error "message has control characters"
  else
    let m : OpMessage := ⟨0, recipient, gift, text⟩
    .ok
      { outs := [⟨max dustLimit (giftPrice.getD gift.toNat 0), qntAsset, recipient⟩]
        ops := [.message m]
        -- the text is longer than the 160 bytes estimated per op
        extraOuts := (text.length + 73) / 74 + 1
        finish := w.signMessage m }

def sendMessage (w : Wallet) (signer : Signer) (recipient : Hash256) (text : Bytes) (gift : UInt8)
    (tip : Int) (feePerKb : Amount) : Result (Transaction × Amount) :=
  w.buildFrom signer (w.sendMessagePlan recipient text gift) tip feePerKb

def swapPlan (token : Hash256) (sell : Bool) (amountIn minOut : Amount) : Except String Plan :=
  if amountIn = 0 ∨ minOut = 0 then .error "amounts must be positive"
  else if sell ∧ minOut < dustLimit then .error "you would receive less than 0.000001 QNT"
  else .ok
    { ops := [.swap ⟨token, sell, amountIn, minOut⟩]
      opIn := (∅ : UMap Hash256 Amount).insert (if sell then token else qntAsset) amountIn
      opOut := (∅ : UMap Hash256 Amount).insert (if sell then qntAsset else token) minOut }

def swap (w : Wallet) (signer : Signer) (token : Hash256) (sell : Bool)
    (amountIn minOut : Amount) (tip : Int) (feePerKb : Amount) : Result (Transaction × Amount) :=
  w.buildFrom signer (swapPlan token sell amountIn minOut) tip feePerKb

/-- The op of a deposit, and the shares it asks for. -/
def depositOp (token : Hash256) (qnt tok : Amount) (pool : Option Pool) :
    Except String (TxOp × Amount) :=
  match pool with
  | none =>
      let total := ammInitialShares qnt tok
      if total ≤ minLiquidity then .error "first deposit too small"
      else .ok (.poolCreate ⟨token, qnt, tok, total - minLiquidity⟩, total - minLiquidity)
  | some pool =>
      let shares := ammAddShares pool qnt tok
      if shares = 0 then .error "deposit too small"
      else .ok (.addLiquidity ⟨token, qnt, tok, shares⟩, shares)

/-- The plan of a deposit, and its shares. -/
def addLiquidityPlan (token : Hash256) (qnt tok : Amount) (pool : Option Pool) :
    Except String (Plan × Amount) :=
  if qnt = 0 ∨ tok = 0 then .error "amounts must be positive"
  else
    (depositOp token qnt tok pool).map fun r =>
      ({ ops := [r.1]
         opIn := ((∅ : UMap Hash256 Amount).insert qntAsset qnt).insert token tok
         opOut := (∅ : UMap Hash256 Amount).insert (poolShareId token) r.2 }, r.2)

/-- `add_liquidity`: the transaction, its fee and the shares. -/
def addLiquidity (w : Wallet) (signer : Signer) (token : Hash256) (qnt tok : Amount)
    (pool : Option Pool) (tip : Int) (feePerKb : Amount) :
    Result (Transaction × Amount × Amount) :=
  match addLiquidityPlan token qnt tok pool with
  | .error e => some (.error e, w)
  | .ok (p, shares) =>
      (w.build signer p tip feePerKb).map fun r => (r.1.map fun x => (x.1, x.2, shares), r.2)

/-- The plan of a withdrawal, and the QNT and tokens it takes. -/
def removeLiquidityPlan (token : Hash256) (shares : Amount) (pool : Pool) :
    Except String (Plan × Amount × Amount) :=
  if shares = 0 ∨ shares > pool.shares - minLiquidity then .error "bad share amount"
  else
    let (q, t) := ammRemoveAmounts pool shares
    if q = 0 ∧ t = 0 then .error "too few shares"
    else
      let opOut : UMap Hash256 Amount := if q = 0 then ∅ else (∅ : UMap _ _).insert qntAsset q
      .ok
        ({ ops := [.removeLiquidity ⟨token, shares, q, t⟩]
           opIn := (∅ : UMap Hash256 Amount).insert (poolShareId token) shares
           opOut := if t = 0 then opOut else opOut.insert token t }, q, t)

/-- `remove_liquidity`: the transaction, its fee, and what is withdrawn. -/
def removeLiquidity (w : Wallet) (signer : Signer) (token : Hash256) (shares : Amount)
    (pool : Pool) (tip : Int) (feePerKb : Amount) :
    Result (Transaction × Amount × Amount × Amount) :=
  match removeLiquidityPlan token shares pool with
  | .error e => some (.error e, w)
  | .ok (p, q, t) =>
      (w.build signer p tip feePerKb).map fun r => (r.1.map fun x => (x.1, x.2, q, t), r.2)

end Wallet

end QuantCore
