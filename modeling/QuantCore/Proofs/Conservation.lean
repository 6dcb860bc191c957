import QuantCore.Proofs.Indexes

/-!
# Conservation of assets

In every state a node gets into, what was minted of a token is what its coins
and its pool hold, what a pool counts as shares out is what coins of its shares
there are, and there is nothing else. Of QNT there is no more than has been
issued, as long as no coinbase of the branch is worth 2^64 units.
-/

namespace QuantCore

open Maps Totals

variable [Crypto]

/-! ## Mints -/

/-- The ids of the tokens that a transaction creates, from its `k`-th op on. -/
def mintsFrom (first : OutPoint) : Nat → List TxOp → List Hash256
  | _, [] => []
  | k, .createToken _ :: ops => tokenId first (UInt32.ofNat k) :: mintsFrom first (k + 1) ops
  | k, _ :: ops => mintsFrom first (k + 1) ops

/-- The ids of the tokens that a transaction creates. -/
def Transaction.mints (t : Transaction) : List Hash256 :=
  mintsFrom (t.ins.headD default).prev 0 t.ops

/-- The tokens of a state are those minted, each once. -/
structure StateReader.Minted (l : List Hash256) (s : StateReader) : Prop where
  nodup : l.Nodup
  mem : ∀ x, x ∈ l ↔ (s.token x).isSome

namespace StateReader.Minted

variable {l l' : List Hash256} {s s' : StateReader}

omit [Crypto] in
theorem perm (h : s.Minted l) (hp : l.Perm l') : s.Minted l' where
  nodup := hp.nodup_iff.mp h.nodup
  mem := fun x => hp.mem_iff.symm.trans (h.mem x)

omit [Crypto] in
theorem congr (h : s.Minted l) (ht : s'.token = s.token) : s'.Minted l where
  nodup := h.nodup
  mem := by rw [ht]; exact h.mem

omit [Crypto] in
theorem mint (h : s.Minted l) {id : Hash256} (hid : s.token id = none) (t : TokenInfo) :
    (s.mint id t).Minted (id :: l) := by
  constructor
  · refine List.nodup_cons.mpr ⟨fun hm => ?_, h.nodup⟩
    rw [h.mem, hid] at hm
    cases hm
  · intro x
    show _ ↔ (Function.update s.token id (some t) x).isSome
    rw [Function.update_apply, List.mem_cons, h.mem]
    split
    · next he => exact iff_of_true (.inl he) rfl
    · next hne => exact ⟨fun h => h.resolve_left hne, .inr⟩

theorem ops {tx : Transaction} {height : UInt64} {coins : List Coin} {k : Nat} {ops : List TxOp}
    {s s' : RefState} (hs : RefState.ops tx height coins (UInt32.ofNat k) ops s = .ok s')
    (h : s.state.Minted l) :
    s'.state.Minted (mintsFrom (tx.ins.headD default).prev k ops ++ l) := by
  induction ops generalizing k s l with
  | nil =>
      cases hs
      exact h
  | cons op ops ih =>
      rw [RefState.ops] at hs
      split at hs
      · cases hs
      next s₁ hop =>
      rw [← UInt32.ofNat_one, ← UInt32.ofNat_add] at hs
      have hpool : ∀ {t : Hash256}, op.poolToken = some t → s₁.state.Minted l := by
        intro t ht
        rw [RefState.op_pool ht] at hop
        cases hstep : poolStep (s.state.token t).isSome op (s.state.pool t) with
        | error e => rw [hstep] at hop; cases hop
        | ok p =>
            rw [hstep] at hop
            cases hop
            exact h.congr rfl
      cases op with
      | createToken c =>
          simp only [RefState.op] at hop
          split at hop
          · cases hop
          · next hnew =>
              cases hop
              have hmint := h.mint (Option.not_isSome_iff_eq_none.mp hnew)
                ⟨tokenId (tx.ins.headD default).prev (UInt32.ofNat k), c.ticker, c.name, c.uri,
                  c.decimals, c.supply, tx.txid, height⟩
              exact (ih hs hmint).perm List.perm_middle
      | message m =>
          simp only [RefState.op] at hop
          split at hop
          · cases hop
            exact ih hs h
          · cases hop
      | poolCreate c => exact ih hs (hpool rfl)
      | addLiquidity c => exact ih hs (hpool rfl)
      | removeLiquidity c => exact ih hs (hpool rfl)
      | swap c => exact ih hs (hpool rfl)

theorem step {tx : Transaction} {height : UInt64} {genesis : Hash256} {verify : Bool}
    {fee : Amount} (h : s.Minted l) (hs : s.step tx height genesis verify = .ok (s', fee)) :
    s'.Minted (tx.mints ++ l) := by
  obtain ⟨-, -, coins, r, r', hins, hops, -, -, rfl⟩ := step_ok hs
  have htoken := (RefState.inputs_frame hins).1
  have hstart : r.state.Minted l := h.congr htoken
  exact (ops (k := 0) hops hstart).congr (by rw [StateReader.addCoins_eq])

theorem txs {height : UInt64} {genesis : Hash256} {verify : Bool} {txs : List Transaction}
    {fees fees' : Amount} (h : s.Minted l)
    (hs : s.txs height genesis verify txs fees = .ok (s', fees')) :
    s'.Minted (txs.flatMap Transaction.mints ++ l) := by
  induction txs generalizing s l fees with
  | nil =>
      cases hs
      exact h
  | cons tx txs ih =>
      rw [StateReader.txs] at hs
      split at hs
      · cases hs
      next s₁ fee hstep =>
      refine (ih (h.step hstep) hs).perm ?_
      rw [List.flatMap_cons, ← List.append_assoc]
      exact List.perm_append_comm.append_right l

end StateReader.Minted

/-! ## Values -/

/-- No coin is worth nothing. -/
def StateReader.Valued (s : StateReader) : Prop := ∀ o c, s.coin o = some c → c.out.value ≠ 0

omit [Crypto] in
theorem StateReader.Valued.addCoins {s : StateReader} (h : s.Valued) {txid : Hash256}
    {outs : List TxOut} (hv : ∀ o ∈ outs, o.value ≠ 0) (height : UInt64) (cb : Bool) :
    (s.addCoins (newCoins txid outs height cb)).Valued := by
  intro o c hc
  rw [StateReader.addCoins_coin] at hc
  rcases mem_of_updateAll hc with hm | hc
  · obtain ⟨⟨out, i⟩, hout, he⟩ := List.mem_map.mp hm
    obtain ⟨-, rfl⟩ := Prod.mk.inj he
    exact hv out (List.fst_mem_of_mem_zipIdx hout)
  · exact h o c hc

theorem StateReader.Valued.txs {height : UInt64} {genesis : Hash256} {verify : Bool}
    {txs : List Transaction} {s s' : StateReader} {fees fees' : Amount} (h : s.Valued)
    (hv : ∀ t ∈ txs, ∀ o ∈ t.outs, o.value ≠ 0) (hp : s.Solvent)
    (hs : s.txs height genesis verify txs fees = .ok (s', fees')) : s'.Valued := by
  induction txs generalizing s fees with
  | nil =>
      cases hs
      exact h
  | cons tx txs ih =>
      rw [List.forall_mem_cons] at hv
      rw [StateReader.txs] at hs
      split at hs
      · cases hs
      next s₁ fee hstep =>
      refine ih ?_ hv.2 (hp.step hstep) hs
      obtain ⟨-, -, coins, r, r', hins, hops, -, -, rfl⟩ := step_ok hstep
      obtain ⟨-, hpool, -, hleft⟩ := RefState.inputs_frame hins
      have hcoin := (RefState.ops_solvent hops (by rwa [StateReader.Solvent, hpool])).2
      refine StateReader.Valued.addCoins (fun o c hc => ?_) hv.1 height false
      rw [hcoin] at hc
      exact h o c (hleft o c hc)

/-! ## The branch -/

omit [Crypto] in
theorem checkTxBasic_coinbase {tx : Transaction} {w : Bool} {a : Amount}
    (h : checkTxBasic tx w = .ok a) (hcb : tx.isCoinbase = true) : tx.ops = [] := by
  rw [checkTxBasic] at h
  split at h
  · cases h
  next hs =>
  rw [checkShape] at hs
  split at hs
  · cases hs
  split at hs
  · cases hs
  split at hs
  · cases hs
  split at hs
  · cases hs
  next hops => simpa using hops

namespace Branch

variable {net : Network} {known : Block → Prop}

/-- Each token of a branch's state was minted once along it, and no coin of the
state is worth nothing. -/
theorem minted (hs : Sources net known) {n : Nat} {h : Hash256} {bs : List Block}
    {L : StateReader} (hb : Branch (paramsFor net) known n h bs L) :
    L.Minted ((bs.flatMap Block.txs).flatMap Transaction.mints) ∧ L.Valued := by
  induction hb with
  | genesis =>
      obtain ⟨msg, htxs, -⟩ := Chainstate.genesis_txs net
      rw [List.flatMap_singleton, htxs]
      exact ⟨⟨List.nodup_nil, fun x => iff_of_false List.not_mem_nil Bool.false_ne_true⟩,
        fun o c hc => by cases hc⟩
  | @block n bs L L' b hb hk hc hn hst ih =>
      obtain ⟨hm, hv⟩ := ih
      obtain ⟨cb, rest, htxs, hcb, -⟩ := hc.core.txs_eq
      obtain ⟨fees, hrest, -⟩ := block_ok hst
      have hbasic := hc.core.basic
      rw [htxs, List.forall_mem_cons] at hbasic
      rw [htxs, List.headD_cons, List.tail_cons] at hrest
      have hnone : cb.mints = [] := by
        rw [Transaction.mints, checkTxBasic_coinbase hbasic.1 hcb]
        rfl
      have hm₁ : (L.applyCoinbase cb (UInt64.ofNat (n + 1))).Minted
          ((bs.flatMap Block.txs).flatMap Transaction.mints) :=
        hm.congr (by rw [StateReader.applyCoinbase, StateReader.addCoins_eq])
      have hp₁ : (L.applyCoinbase cb (UInt64.ofNat (n + 1))).Solvent := fun t p hq => by
        rw [StateReader.applyCoinbase, StateReader.addCoins_eq] at hq
        exact (hb.net_zero hs).1 t p hq
      refine ⟨?_, ?_⟩
      · rw [List.flatMap_cons, htxs, List.flatMap_append, List.flatMap_cons, hnone,
          List.nil_append]
        exact hm₁.txs hrest
      · refine StateReader.Valued.txs (hv.addCoins (fun o ho => ?_) _ true)
          (fun t ht o ho => (checkTxBasic_outs (hbasic.2 t ht) o ho).1) hp₁ hrest
        exact (checkTxBasic_outs hbasic.1 o ho).1

end Branch

/-! ## Tokens, shares and nothing else -/

namespace StateReader.Net

variable {known : Block → Prop} {L : StateReader} {c : Int}

/-- What was minted of a token is in its coins and its pool. -/
theorem token (hi : IdsApart known) (hr : L.Registered known) {id : Hash256} {t : TokenInfo}
    (ht : L.token id = some t) (h : L.Net (Coin.worth id) id 0)
    (hc : Weighs (fun _ => Coin.worth id) L.coin c) :
    c + (L.pool id).elim 0 (fun p => (p.tok.toNat : Int)) = t.supply.toNat := by
  have hid := hr.token id (by rw [ht]; rfl)
  have hqnt : qntAsset ≠ id := Ne.symm (hi.token id hid)
  obtain ⟨coins, pools, tokens, hcoins, hpools, htokens, hsum⟩ := h
  have hshare : ∀ x p, L.pool x = some p → poolShareId x ≠ id := fun x p hx =>
    hi.kinds x id (hr.token x (hr.pool x (by rw [hx]; rfl))) hid
  have hpool : pools = (L.pool id).elim 0 fun p => (p.tok.toNat : Int) := by
    rw [hpools.at_key id fun x p hx hne => by
      rw [Pool.worth, if_neg hqnt, if_neg hne, if_neg (hshare x p hx)]; rfl]
    cases hp : L.pool id with
    | none => rfl
    | some p =>
        rw [Option.elim_some, Option.elim_some, Pool.worth, if_neg hqnt, if_pos rfl,
          if_neg (hshare id p hp)]
        omega
  have htoken : tokens = t.supply.toNat := by
    rw [htokens.at_key id fun x i hx hne => if_neg hne, ht, Option.elim_some, TokenInfo.worth,
      if_pos rfl]
  rw [← hpool, hc.unique hcoins]
  omega

/-- The shares a pool counts are those in coins, and the locked ones. -/
theorem share (hi : IdsApart known) (hr : L.Registered known) {t : Hash256} {p : Pool}
    (hp : L.pool t = some p) (h : L.Net (Coin.worth (poolShareId t)) (poolShareId t) 0)
    (hc : Weighs (fun _ => Coin.worth (poolShareId t)) L.coin c) :
    c + minLiquidity.toNat = p.shares.toNat := by
  have hminted : ∀ x q, L.pool x = some q → MintedId known x := fun x q hx =>
    hr.token x (hr.pool x (by rw [hx]; rfl))
  have ht := hminted t p hp
  have hqnt : qntAsset ≠ poolShareId t := Ne.symm (hi.share t ht)
  obtain ⟨coins, pools, tokens, hcoins, hpools, htokens, hsum⟩ := h
  have hpool : pools = minLiquidity.toNat - p.shares.toNat := by
    rw [hpools.at_key t fun x q hx hne => by
      rw [Pool.worth, if_neg hqnt, if_neg (Ne.symm (hi.kinds t x ht (hminted x q hx))),
        if_neg fun he => hne (hi.shares x t (hminted x q hx) ht he)]; rfl]
    rw [hp, Option.elim_some, Pool.worth, if_neg hqnt,
      if_neg (Ne.symm (hi.kinds t t ht ht)), if_pos rfl]
    omega
  have htoken : tokens = 0 := htokens.eq_zero fun x i hx =>
    if_neg (Ne.symm (hi.kinds t x ht (hr.token x (by rw [hx]; rfl))))
  rw [hc.unique hcoins]
  omega

/-- An asset that is neither QNT nor a token nor a pool's share has no coins. -/
theorem asset {o : OutPoint} {x : Coin} (hr : L.Registered known) (hv : L.Valued)
    (hx : L.coin o = some x) (hqnt : x.out.asset ≠ qntAsset)
    (h : L.Net (Coin.worth x.out.asset) x.out.asset 0) :
    (L.token x.out.asset).isSome ∨ ∃ t, (L.pool t).isSome ∧ x.out.asset = poolShareId t := by
  by_contra hnot
  rw [not_or, not_exists] at hnot
  obtain ⟨hnone, hshare⟩ := hnot
  obtain ⟨coins, pools, tokens, hcoins, hpools, htokens, hsum⟩ := h
  have hpool : pools = 0 := hpools.eq_zero fun t p ht => by
    have hsome : (L.pool t).isSome := by rw [ht]; rfl
    have hne : t ≠ x.out.asset := by
      rintro rfl
      exact hnone (hr.pool _ hsome)
    rw [Pool.worth, if_neg (Ne.symm hqnt), if_neg hne,
      if_neg fun he => hshare t ⟨hsome, he.symm⟩]
    rfl
  have htoken : tokens = 0 := htokens.eq_zero fun id t hid => if_neg fun he => hnone <| by
    rw [← he, hid]
    rfl
  have hle := hcoins.single_le (fun _ c _ => by
    rw [Coin.worth]
    split
    · exact Int.natCast_nonneg _
    · exact Int.le_refl 0) hx
  rw [Coin.worth, if_pos rfl] at hle
  have hpos : x.out.value.toNat ≠ 0 := fun he => hv o x hx (UInt64.toNat.inj he)
  omega

end StateReader.Net

namespace Chainstate

/-- What the coins of an asset come to. -/
def coinsOf (a : Hash256) (s : Chainstate) : Nat :=
  total (fun c => if c.out.asset = a then c.out.value.toNat else 0) s.utxo

omit [Crypto] in
theorem coinsOf_weighs (a : Hash256) (s : Chainstate) :
    Weighs (fun _ => Coin.worth a) s.reader.coin (s.coinsOf a) := by
  refine (weighs_total _ s.utxo).congr fun _ c _ => ?_
  rw [Coin.worth]
  split <;> rfl

/-- A state at the end of the blocks `bs` holds what was issued and minted. -/
structure Conserved (bs : List Block) (s : Chainstate) : Prop where
  qnt : s.circulating ≤ (issuedThrough (UInt64.ofNat s.height)).toNat
  token : ∀ id t, s.tokens.lookup id = some t →
    s.coinsOf id + (s.pools.lookup id).elim 0 (fun p => p.tok.toNat) = t.supply.toNat ∧
      ((bs.flatMap Block.txs).flatMap Transaction.mints).count id = 1
  share : ∀ t p, s.pools.lookup t = some p →
    s.coinsOf (poolShareId t) + minLiquidity.toNat = p.shares.toNat
  asset : ∀ o c, s.utxo.lookup o = some c → c.out.asset = qntAsset ∨
    (s.tokens.lookup c.out.asset).isSome ∨
      ∃ t, (s.pools.lookup t).isSome ∧ c.out.asset = poolShareId t

variable {net : Network} {known : Block → Prop}

theorem conserved_of_branch (hs : Sources net known) (hi : IdsApart known) {s : Chainstate}
    (hc : s.Content net known) {bs : List Block}
    (hb : Branch (paramsFor net) known s.height s.tip bs s.reader)
    (hfit : ∀ b ∈ bs, b.CoinbaseFits) (hissued : IssuedWithin s.height) : s.Conserved bs := by
  obtain ⟨-, hr, hzero⟩ := hb.net_zero hs
  obtain ⟨hm, hv⟩ := hb.minted hs
  refine ⟨?_, fun id t ht => ⟨?_, ?_⟩, fun t p hp => ?_, fun o c hc => ?_⟩
  · have hmax := hissued.emitted_le hb.height_lt
    have hmoney : maxMoney.toNat < 2 ^ 64 := maxMoney.toNat_lt
    rw [issuedThrough_toNat hb.height_lt (by omega)]
    exact hc.circulating_le hs hi hb hfit hissued
  · have hid : id ≠ qntAsset := hi.token id (hr.token id (show (s.tokens.lookup id).isSome by
      rw [ht]; rfl))
    have hsum := (hzero id hid).token hi hr ht (coinsOf_weighs id s)
    rw [show s.reader.pool id = s.pools.lookup id from rfl] at hsum
    cases hp : s.pools.lookup id with
    | none =>
        rw [hp, Option.elim_none] at hsum
        rw [Option.elim_none]
        omega
    | some p =>
        rw [hp, Option.elim_some] at hsum
        rw [Option.elim_some]
        omega
  · exact List.count_eq_one_of_mem hm.nodup ((hm.mem id).mpr
      (show (s.tokens.lookup id).isSome by rw [ht]; rfl))
  · have hid : poolShareId t ≠ qntAsset := hi.share t (hr.token t (hr.pool t
      (show (s.pools.lookup t).isSome by rw [hp]; rfl)))
    have hsum := (hzero _ hid).share hi hr hp (coinsOf_weighs _ s)
    omega
  · by_cases hqnt : c.out.asset = qntAsset
    · exact .inl hqnt
    · exact .inr ((hzero _ hqnt).asset hr hv hc hqnt)

/-- In every state of a run whose branch has no coinbase worth 2^64 units nothing
has come from nothing, and no transaction, whatever its ops, makes or loses
anything but its fee. -/
theorem assets_conserved (hs : Sources net known) (hi : IdsApart known) {cfg : Config}
    (hnet : cfg.network = net) {o : Offers} (ho : ∀ b, o.Around net b → known b) {ph : Phase}
    {s : Chainstate} (h : Reaches cfg o (Orderly net known cfg o) ph s)
    (hissued : IssuedWithin s.height)
    (hfit : ∀ bs L, Branch (paramsFor net) known s.height s.tip bs L → ∀ b ∈ bs, b.CoinbaseFits) :
    (∃ bs, Branch (paramsFor net) known s.height s.tip bs s.reader ∧ s.Conserved bs) ∧
      s.reader.Solvent ∧
      ∀ (L L' : StateReader) (tx : Transaction) (height : UInt64) (verify : Bool) (fee : Amount),
        L.Solvent → LedgerView.Fresh L tx → tx.outs.length < 2 ^ 32 → height.toNat < 2 ^ 63 →
        L.step tx height (paramsFor net).genesisHash verify = .ok (L', fee) →
        L'.Solvent ∧ ∀ a n, L.Net (Coin.worth a) a n →
          L'.Net (Coin.worth a) a (n - if a = qntAsset then (fee.toNat : Int) else 0) := by
  have hc := (h.orderly hs hnet ho fun _ _ hok => hok).1
  obtain ⟨bs, hb, -⟩ := hc.branch
  refine ⟨⟨bs, hb, conserved_of_branch hs hi hc hb (hfit bs _ hb) hissued⟩, (hb.net_zero hs).1, ?_⟩
  intro L L' tx height verify fee hp hfresh houts hheight hstep
  exact ⟨hp.step hstep, fun a n hn => hn.step (fun _ _ => rfl) hheight hp hfresh houts hstep⟩

end Chainstate

end QuantCore

namespace QuantCore.Chainstate

attribute [local instance] blendCrypto

/-- Of the token of the market all that was minted is in coins and in the pool, and
the QNT is no more than was issued. -/
theorem assets_conserved_market : ∃ (s : Chainstate) (p : Pool), s.height = 12 ∧
    s.pools.lookup marketToken = some p ∧ p.tok = 455000 ∧
    (∃ bs, Branch (paramsFor .test) ((lineOffer marketBlocks).Around .test) s.height s.tip bs
      s.reader ∧ s.Conserved bs) ∧ s.reader.Solvent := by
  obtain ⟨s, p, hheight, hp, htok, hs⟩ := reaches_market
  have hissued : IssuedWithin 12 := by decide +kernel
  have h := assets_conserved sources_market idsApart_market rfl (fun _ h => h)
    (hs.mono fun ph s _ => orderly_line marketBlocks _ _ ph s) (hheight ▸ hissued)
    fun _ _ hb => fits_line fits_market hb
  exact ⟨s, p, hheight, hp, htok, h.1, h.2.1⟩

end QuantCore.Chainstate

namespace QuantCore.Chainstate

attribute [local instance] stampCrypto

/-- A coinbase of 2^64 units where 89 thousand million are issued. -/
theorem assets_overflow : ¬ ∀ (net : Network) (known : Block → Prop) (cfg : Config) (o : Offers)
    (ph : Phase) (s : Chainstate), Sources net known → IdsApart known → cfg.network = net →
    (∀ b, o.Around net b → known b) → Reaches cfg o (Orderly net known cfg o) ph s →
    IssuedWithin s.height →
    ∃ bs, Branch (paramsFor net) known s.height s.tip bs s.reader ∧ s.Conserved bs := by
  intro hall
  obtain ⟨s, hheight, -, hcirculating, hs⟩ := reaches_greedy
  have hissued : IssuedWithin 1 := by decide
  obtain ⟨bs, -, hcons⟩ := hall .regtest _ _ _ _ s sources_greedy idsApart_greedy rfl
    (fun _ h => h) hs (hheight ▸ hissued)
  have hsum := hcons.qnt
  rw [hcirculating, hheight] at hsum
  exact absurd hsum (Nat.not_le.mpr (UInt64.toNat_lt _))

end QuantCore.Chainstate
